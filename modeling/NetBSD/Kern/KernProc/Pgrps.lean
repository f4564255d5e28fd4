import NetBSD.Kern.KernProc.Table

/-! Process groups and sessions over the pid table.

The state is the table with what the calls read of processes, groups and sessions. A group is known by
its id and a session by its; a session that is not in `sessions` has been freed. `held` is not in the
source: the pids given out and not given back, each with the process it was given out for. -/
namespace NetBSD.Kern.KernProc
open Function

structure Session where
  count : Nat
  leader : Option Proc

structure World where
  table : PidTable
  /-- `p_pid`; -1 is `none`. -/
  pPid : Proc → Option Nat
  pPgrp : Proc → Option Pgrp
  /-- `pg_members` of the group with the id. -/
  members : Nat → List Proc
  sessions : Nat → Option Session
  held : List (Nat × Proc)

/-- The state proc0_init leaves. -/
def World.booted : World where
  table := procinit
  pPid p := if p = 0 then some 0 else none
  pPgrp p := if p = 0 then some ⟨0, 0⟩ else none
  members pgid := if pgid = 0 then [0] else []
  sessions sid := if sid = 0 then some ⟨1, none⟩ else none
  held := [(0, 0)]

inductive Errno where
  | ok
  | EPERM
  | ESRCH
  | EACCES

/-- What proc_enterpgrp asks of the rest of the system, and whether memory for a group was allocated
before the lock was taken. -/
structure Env where
  /-- `p_stat` is SACTIVE or SSTOP. -/
  active : Proc → Bool
  inferior : Proc → Bool
  exec : Proc → Bool
  newPgrp : Bool

namespace World

def pgrpFind (w : World) (pgid : Nat) : Option Pgrp :=
  (findPgrp w.table pgid).filter fun _ => !(w.members pgid).isEmpty

def procFind (env : Env) (w : World) (pid : Nat) : Option Proc := (procFindRaw w.table pid).filter env.active

/-- pg_remove, with the assertion that the group is empty. -/
def pgRemove (w : World) (pgid : Nat) : Option World :=
  if w.members pgid ≠ [] then none else (KernProc.pgRemove w.table pgid).map fun t => { w with table := t }

def setSession (w : World) (sid : Nat) (s : Option Session) : World :=
  { w with sessions := update w.sessions sid s }

def procSesshold (w : World) (sid : Nat) : Option World :=
  (w.sessions sid).map fun s => w.setSession sid (some { s with count := s.count + 1 })

def procSessrele (w : World) (sid : Nat) : Option World :=
  match w.sessions sid with
  | none => none
  | some s =>
    if s.count - 1 = 0 then (w.pgRemove sid).map fun w => w.setSession sid none
    else some (w.setSession sid (some { s with count := s.count - 1 }))

def pgDelete (w : World) (pgid : Nat) : Option World :=
  match (w.table.slots (pgid &&& w.table.mask)).pgrp with
  | none => some w
  | some pg =>
    if pg.id ≠ pgid ∨ w.members pgid ≠ [] then some w
    else if pg.sid ≠ pg.id then (w.pgRemove pgid).bind fun w => w.procSessrele pg.sid
    else w.procSessrele pg.sid

/-- The group of proc_enterpgrp's second half, made for `p` where there is none. -/
def makePgrp (w : World) (p : Proc) (pPgrp : Pgrp) (pgid : Nat) (mksess : Bool) : Option (Pgrp × World) :=
  let enter (w : World) (pg : Pgrp) : Pgrp × World :=
    (pg, { w with table := addPgrp w.table pg, members := update w.members pgid [] })
  if mksess then
    (w.pPid p).map fun sid => enter (w.setSession sid (some ⟨1, some p⟩)) ⟨pgid, sid⟩
  else (w.procSesshold pPgrp.sid).map fun w => enter w ⟨pgid, pPgrp.sid⟩

/-- The process is moved from one group to the other. -/
def moveTo (w : World) (p : Proc) (old new : Pgrp) : Option World :=
  let left := (w.members old.id).erase p
  let members := update w.members old.id left
  let w' := { w with
    pPgrp := update w.pPgrp p (some new)
    members := update members new.id (p :: members new.id) }
  if left = [] then w'.pgDelete old.id else some w'

/-- proc_enterpgrp from where the process and the group are known. -/
def enterPgrp (env : Env) (w : World) (p : Proc) (pid pgid : Nat) (mksess : Bool) (pgrp : Option Pgrp) : Option (Errno × World) :=
  match w.pPgrp p with
  | none => none
  | some old =>
    match w.sessions old.sid with
    | none => none
    | some sess =>
      if sess.leader = some p then some (if !mksess && decide (pgrp = some old) then .ok else .EPERM, w)
      else match pgrp with
        | none =>
          if pgid ≠ pid then some (.EPERM, w)
          else if !env.newPgrp then some (.EPERM, w)
          else (w.makePgrp p old pgid mksess).bind fun (pg, w) => (w.moveTo p old pg).map (.ok, ·)
        | some pg =>
          if mksess then some (.EPERM, w)
          else if w.members pg.id = [] then some (.EPERM, w)
          else if pg = old then some (.ok, w)
          else (w.moveTo p old pg).map (.ok, ·)

def procEnterpgrp (env : Env) (w : World) (curp : Proc) (pid pgid : Nat) (mksess : Bool) : Option (Errno × World) :=
  let pgrp := (w.table.slots (pgid &&& w.table.mask)).pgrp
  if pgrp.any (·.id ≠ pgid) then some (.EPERM, w)
  else if w.pPid curp ≠ some pid then
    match w.procFind env pid with
    | none => some (.ESRCH, w)
    | some p =>
      if !env.inferior p then some (.ESRCH, w)
      else match w.pPgrp p, w.pPgrp curp with
        | some pgp, some pgc =>
          if mksess ∨ pgp.sid ≠ pgc.sid then some (.EPERM, w)
          else if pgrp.any (·.sid ≠ pgp.sid) then some (.EPERM, w)
          else if env.exec p then some (.EACCES, w)
          else w.enterPgrp env p pid pgid mksess pgrp
        | _, _ => none
  else
    match w.pPgrp curp with
    | none => none
    | some pgc =>
      if mksess ∧ (pgc.id = pid ∨ (w.pgrpFind pid).isSome) then some (.EPERM, w)
      else w.enterPgrp env curp pid pgid mksess pgrp

def procLeavepgrp (w : World) (p : Proc) : Option World :=
  match w.pPgrp p with
  | none => none
  | some old =>
    let left := (w.members old.id).erase p
    let w := { w with pPgrp := update w.pPgrp p none, members := update w.members old.id left }
    if left = [] then w.pgDelete old.id else some w

end World

inductive Act where
  /-- proc_alloc, or proc_alloc_pid for one more pid of the process. -/
  | alloc (mem : Nat → Slot) (rounds : Nat) (p : Proc) (more : Bool)
  | free (pid : Nat)
  | expand (mem : Nat → Slot)
  | enterpgrp (env : Env) (curp : Proc) (pid pgid : Nat) (mksess : Bool)
  | leavepgrp (p : Proc)
  /-- fork1: the child is put behind its parent. -/
  | join (parent child : Proc)
  | sesshold (sid : Nat)
  | sessrele (sid : Nat)
  /-- exit1 of the leader. -/
  | leaderGone (sid : Nat)

def next (w : World) : Act → Option World
  | .alloc mem rounds p more =>
    (procAllocPid mem rounds w.table p).map fun (pid, t) =>
      { w with
        table := t
        -- proc_alloc has set it to -1 before.
        pPid := if more ∧ (w.pPid p).isSome then w.pPid else update w.pPid p (some pid)
        held := (pid, p) :: w.held }
  | .free pid => (procFreePid w.table pid).map fun t => { w with table := t, held := w.held.filter (·.1 ≠ pid) }
  | .expand mem => some { w with table := expandPidTable mem w.table }
  | .enterpgrp env curp pid pgid mksess => (w.procEnterpgrp env curp pid pgid mksess).map (·.2)
  | .leavepgrp p => w.procLeavepgrp p
  | .join parent child =>
    (w.pPgrp parent).map fun pg =>
      { w with
        pPgrp := update w.pPgrp child (some pg)
        members := update w.members pg.id ((w.members pg.id).flatMap fun q => if q = parent then [q, child] else [q]) }
  | .sesshold sid => w.procSesshold sid
  | .sessrele sid => w.procSessrele sid
  | .leaderGone sid => (w.sessions sid).map fun s => w.setSession sid (some { s with leader := none })

/-- What callers owe: a pid is given back by who has it and never that of the system process, and the
caller of proc_enterpgrp is a process that has its pid. -/
def Valid (w : World) : Act → Prop
  | .free pid => pid ≠ 0 ∧ pid ∈ w.held.map Prod.fst
  | .enterpgrp _ curp _ _ _ => ∃ e ∈ w.held, w.pPid curp = some e.1
  | _ => True

instance (w : World) (a : Act) : Decidable (Valid w a) :=
  match a with
  | .free _ => inferInstanceAs (Decidable (_ ∧ _))
  | .enterpgrp _ _ _ _ _ => inferInstanceAs (Decidable (∃ e ∈ _, _))
  | .alloc _ _ _ _ | .expand _ | .leavepgrp _ | .join _ _ | .sesshold _ | .sessrele _ | .leaderGone _ => inferInstanceAs (Decidable True)

def system : Lib.System World Act := .ofStep (· = .booted) next

end NetBSD.Kern.KernProc
