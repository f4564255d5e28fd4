import NetBSD.Kern.SysvSem.Undo
import NetBSD.Lib.System
import Mathlib.Logic.Function.Basic

/-! System V semaphores (`sys/kern/sysv_sem.c`).

All sets share one array of semaphores; a set is the slice of it from `_sem_base` on. A
call runs under `semlock` and gives it up only in `cv_wait_sig`, so what it does in between
is one step: `semop` up to where the call returns or sleeps, and `wake` from there on.
`semrealloc` waits for the sleepers to go and is two steps.

`World` adds what only the proofs look at: how often each slot was allocated, which ids
were removed, and which process operated on which semaphore. Whether `ipcperm` permits a
call is given with it. -/
namespace NetBSD.Kern.SysvSem
open Function
open Lib

structure Sem where
  semval : BitVec 16
  sempid : Proc
  semncnt : BitVec 16
  semzcnt : BitVec 16
  deriving DecidableEq

structure SemidDs where
  /-- `sem_perm.mode & SEM_ALLOC`. -/
  alloc : Bool
  key : Int
  seq : Nat
  semNsems : Nat
  /-- Where `_sem_base` is in `sem`. -/
  semBase : Nat

structure Sembuf where
  semNum : Nat
  semOp : BitVec 16
  /-- `IPC_NOWAIT` and `SEM_UNDO` of `sem_flg`. -/
  nowait : Bool
  undo : Bool
  deriving DecidableEq

def Sem.zero : Sem := ⟨0, 0, 0, 0⟩
def SemidDs.zero : SemidDs := ⟨false, 0, 0, 0, 0⟩

/-- The limits that do not change: `semmsl`, `semopm`, `semvmx`. -/
def SEMMSL : Nat := 60
def SEMOPM : Nat := 100
def SMALL_SOPS : Nat := 8
def SEMVMX : Nat := 32767

/-- A call of `sys_semop` that got past its checks. -/
structure Call where
  lwp : Nat
  proc : Proc
  ix : Nat
  seq : Nat
  sops : List Sembuf
  deriving DecidableEq

/-- A call in `cv_wait_sig`: the operations before `sopptr`, the one there, and whether
somebody has woken it. -/
structure Sleeper where
  call : Call
  before : List Sembuf
  sop : Sembuf
  doUndos : Bool
  woken : Bool
  deriving DecidableEq

structure State where
  semmni : Nat
  semmns : Nat
  semmnu : Nat
  semtot : Nat
  sema : Nat → SemidDs
  sem : Nat → Sem
  semuList : List SemUndo
  /-- In `cv_wait_sig`; there are `sem_waiters` of them. -/
  sleepers : List Sleeper
  semReallocState : Bool
  /-- A call of `semrealloc` that waits for the sleepers to go, with its arguments. -/
  reallocator : Option (Nat × Nat × Nat)

/-! ### `sys_semop` -/

section Ops
variable (base : Nat)

def addVal (sem : Nat → Sem) (num : Nat) (d : BitVec 16) : Nat → Sem :=
  update sem (base + num) {sem (base + num) with semval := (sem (base + num)).semval + d}

structure Pass where
  sem : Nat → Sem
  doWakeup : Bool
  doUndos : Bool

/-- One operation; `none` when it can't be done now. -/
def tryOp (sop : Sembuf) (p : Pass) : Option Pass :=
  let semptr := p.sem (base + sop.semNum)
  let sem := addVal base p.sem sop.semNum sop.semOp
  if sop.semOp.toInt < 0 then
    if (semptr.semval.toNat : Int) + sop.semOp.toInt < 0 then none
    else some ⟨sem, p.doWakeup || ((semptr.semval + sop.semOp) = 0 && 0 < semptr.semzcnt), p.doUndos || sop.undo⟩
  else if sop.semOp = 0 then
    if 0 < semptr.semval then none else some p
  else some ⟨sem, p.doWakeup || 0 < semptr.semncnt, p.doUndos || sop.undo⟩

/-- The operations in order, with those before the one that can't be done, and that one. -/
def tryOps (before : List Sembuf) : List Sembuf → Pass → Pass × Option (List Sembuf × Sembuf)
  | [], p => (p, none)
  | sop :: rest, p => match tryOp base sop p with
    | some p => tryOps (before ++ [sop]) rest p
    | none => (p, some (before, sop))

/-- Rollback anything that we've already done, from the last to the first. -/
def rollback (done : List Sembuf) (sem : Nat → Sem) : Nat → Sem :=
  done.foldr (fun sop sem => addVal base sem sop.semNum (-sop.semOp)) sem

/-- Rollback the semaphore ups and downs, from the first to the last. -/
def rollbackAll (sops : List Sembuf) (sem : Nat → Sem) : Nat → Sem :=
  sops.foldl (fun sem sop => addVal base sem sop.semNum (-sop.semOp)) sem

/-- `semzcnt` or `semncnt` of the semaphore the call waits for. -/
def addCount (sop : Sembuf) (d : BitVec 16) (sem : Nat → Sem) : Nat → Sem :=
  let semptr := sem (base + sop.semNum)
  update sem (base + sop.semNum)
    (if sop.semOp = 0 then {semptr with semzcnt := semptr.semzcnt + d} else {semptr with semncnt := semptr.semncnt + d})

def setPids (pid : Proc) (sops : List Sembuf) (sem : Nat → Sem) : Nat → Sem :=
  sops.foldl (fun sem sop => update sem (base + sop.semNum) {sem (base + sop.semNum) with sempid := pid}) sem

end Ops

section Undos
variable (semmnu : Nat) (p : Proc) (id : Nat)

/-- We only need to deal with SEM_UNDO's for non-zero op's. -/
def Sembuf.Undoes (sop : Sembuf) : Prop := sop.undo = true ∧ sop.semOp ≠ 0

instance (sop : Sembuf) : Decidable sop.Undoes := inferInstanceAs (Decidable (_ ∧ _))

/-- The adjustments in order. When one fails: its error and the operations before it, the
last one first. -/
def adjustOps (done : List Sembuf) : List Sembuf → List SemUndo → List SemUndo × Option (Errno × List Sembuf)
  | [], l => (l, none)
  | sop :: rest, l =>
    if sop.Undoes then
      match semundoAdjust semmnu p id sop.semNum (-sop.semOp) l with
      | (l, none) => adjustOps (sop :: done) rest l
      | (l, some e) => (l, some (e, done))
    else adjustOps (sop :: done) rest l

/-- The adjustments rolled back, the last one first; `none` is the panic "can't undo
undos". -/
def unadjustOps : List Sembuf → List SemUndo → Option (List SemUndo)
  | [], l => some l
  | sop :: done, l =>
    if sop.Undoes then
      match semundoAdjust semmnu p id sop.semNum sop.semOp l with
      | (l, none) => unadjustOps done l
      | (_, some _) => none
    else unadjustOps done l

end Undos

inductive Ret where
  | ok
  | error (e : Errno)
  | sleep
  /-- `goto restart`: the call begins anew. -/
  | restart
  | panic
  deriving DecidableEq

/-- `IPCID_TO_IX`, `IPCID_TO_SEQ` and `IXSEQ_TO_IPCID`. -/
def ipcidToIx (id : Nat) : Nat := id % 2 ^ 16
def ipcidToSeq (id : Nat) : Nat := id / 2 ^ 16 % 2 ^ 16
def ipcid (ix seq : Nat) : Nat := seq * 2 ^ 16 + ix % 2 ^ 16

namespace State
variable (st : State)

def cvBroadcast (ix : Nat) : State :=
  {st with sleepers := st.sleepers.map fun w => if w.call.ix = ix then {w with woken := true} else w}

/-- We're definitely done: set the `sempid`s, and do a wakeup if any semaphore was up'd. -/
def semopDone (c : Call) (p : Pass) (l : List SemUndo) : State :=
  let st := {st with sem := setPids (st.sema c.ix).semBase c.proc c.sops p.sem, semuList := l}
  if p.doWakeup then st.cvBroadcast c.ix else st

/-- The loop of `sys_semop` from its top. -/
def semopLoop (c : Call) (doUndos : Bool) : State × Ret :=
  let base := (st.sema c.ix).semBase
  match tryOps base [] c.sops ⟨st.sem, false, doUndos⟩ with
  | (p, some (before, sop)) =>
    let sem := rollback base before p.sem
    if sop.nowait then ({st with sem := sem}, .error .EAGAIN)
    else ({st with
      sem := addCount base sop 1 sem
      sleepers := ⟨c, before, sop, p.doUndos, false⟩ :: st.sleepers}, .sleep)
  | (p, none) =>
    if p.doUndos then
      match adjustOps st.semmnu c.proc c.ix [] c.sops st.semuList with
      | (l, none) => (st.semopDone c p l, .ok)
      | (l, some (e, before)) =>
        match unadjustOps st.semmnu c.proc c.ix before l with
        | some l => ({st with sem := rollbackAll base c.sops p.sem, semuList := l}, .error e)
        | none => ({st with sem := p.sem, semuList := l}, .panic)
    else (st.semopDone c p st.semuList, .ok)

/-- `sys_semop`. A thread that is asleep makes no call, and one that comes while
`semrealloc` is at work waits. -/
def sysSemop (lwp : Nat) (p : Proc) (semid : Nat) (sops : List Sembuf) (perm : Bool) : State × Ret :=
  let ix := ipcidToIx semid
  let seq := ipcidToSeq semid
  if ¬(sops.length ≤ SMALL_SOPS ∨ sops.length ≤ SEMOPM) then (st, .error .E2BIG)
  else if ix ≥ st.semmni then (st, .error .EINVAL)
  else if (st.sema ix).alloc = false ∨ (st.sema ix).seq ≠ seq then (st, .error .EINVAL)
  else if perm = false then (st, .error .EACCES)
  else if ∃ sop ∈ sops, (st.sema ix).semNsems ≤ sop.semNum then (st, .error .EFBIG)
  else st.semopLoop ⟨lwp, p, ix, seq, sops⟩ false

/-- `sys_semop` when `cv_wait_sig` returns, with an error when a signal interrupted it. -/
def semopWake (w : Sleeper) (sig : Bool) : State × Ret :=
  let st := {st with sleepers := st.sleepers.erase w}
  let semaptr := st.sema w.call.ix
  -- Make sure that the semaphore still exists.
  if semaptr.alloc = false ∨ semaptr.seq ≠ w.call.seq then (st, .error .EIDRM)
  else
    let st := {st with sem := addCount semaptr.semBase w.sop (-1) st.sem}
    if st.semReallocState then (st, .restart)
    else if sig then (st, .error .EINTR)
    else st.semopLoop w.call w.doUndos

/-! ### `semctl` and `semget` -/

/-- The set that `semctl1` finds for an id. -/
def lookup (semid : Nat) : Option Nat :=
  let ix := ipcidToIx semid
  if ix ≥ st.semmni then none
  else if (st.sema ix).alloc = false ∨ (st.sema ix).seq ≠ ipcidToSeq semid then none
  else some ix

/-- `IPC_RMID`: the semaphores above the set move down, and the sets they belong to with
them. -/
def removeSet (ix : Nat) : State :=
  let semaptr := st.sema ix
  let semtot := st.semtot - semaptr.semNsems
  let st := {st with
    semtot := semtot
    sem := fun i => if semaptr.semBase ≤ i ∧ i < semtot then st.sem (i + semaptr.semNsems) else st.sem i
    sema := fun i =>
      let ds := if i < st.semmni ∧ (st.sema i).alloc = true ∧ (st.sema i).semBase > semaptr.semBase then
          {st.sema i with semBase := (st.sema i).semBase - semaptr.semNsems}
        else st.sema i
      if i = ix then {ds with alloc := false} else ds
    semuList := semundoClear ix none st.semuList}
  st.cvBroadcast ix

def ipcRmid (semid : Nat) (perm : Bool) : State × Option Errno :=
  match st.lookup semid with
  | none => (st, some .EINVAL)
  | some ix => if perm then (st.removeSet ix, none) else (st, some .EACCES)

def setval (semid semnum val : Nat) (perm : Bool) : State × Option Errno :=
  match st.lookup semid with
  | none => (st, some .EINVAL)
  | some ix =>
    if perm = false then (st, some .EACCES)
    else if semnum ≥ (st.sema ix).semNsems then (st, some .EINVAL)
    else if val > SEMVMX then (st, some .ERANGE)
    else
      let i := (st.sema ix).semBase + semnum
      (cvBroadcast {st with
        sem := update st.sem i {st.sem i with semval := BitVec.ofNat 16 val}
        semuList := semundoClear ix (some semnum) st.semuList} ix, none)

/-- The loop of `SETALL` over the semaphores from `i` on, `left` of them. The values are
what `copyin` reads; it fails behind them. -/
def setAllVals (left : Nat) (i : Nat) (vals : List Nat) (sem : Nat → Sem) : (Nat → Sem) × Option Errno :=
  match left, vals with
  | 0, _ => (sem, none)
  | _ + 1, [] => (sem, some .EFAULT)
  | left + 1, val :: rest =>
    if val > SEMVMX then (sem, some .ERANGE)
    else setAllVals left (i + 1) rest (update sem i {sem i with semval := BitVec.ofNat 16 val})

def setall (semid : Nat) (vals : List Nat) (perm : Bool) : State × Option Errno :=
  match st.lookup semid with
  | none => (st, some .EINVAL)
  | some ix =>
    if perm = false then (st, some .EACCES)
    else
      let (sem, e) := setAllVals (st.sema ix).semNsems (st.sema ix).semBase vals st.sem
      (cvBroadcast {st with sem := sem, semuList := semundoClear ix none st.semuList} ix, e)

/-- A new set in the free slot `ix`. -/
def createSet (ix : Nat) (key : Int) (nsems : Nat) : State :=
  {st with
    sema := update st.sema ix ⟨true, key, ((st.sema ix).seq + 1) % 2 ^ 15, nsems, st.semtot⟩
    semtot := st.semtot + nsems
    sem := fun i => if st.semtot ≤ i ∧ i < st.semtot + nsems then Sem.zero else st.sem i}

/-- `sys_semget`, with `IPC_CREAT` and `IPC_EXCL` of `semflg`. A key that is 0 is
`IPC_PRIVATE`. -/
def sysSemget (key : Int) (nsems : Int) (creat excl perm : Bool) : State × Except Errno Nat :=
  let found := if key ≠ 0 then (List.range st.semmni).find? fun i => (st.sema i).alloc = true ∧ (st.sema i).key = key
    else none
  match found with
  | some ix =>
    if perm = false then (st, .error .EACCES)
    else if nsems > 0 ∧ ((st.sema ix).semNsems : Int) < nsems then (st, .error .EINVAL)
    else if creat ∧ excl then (st, .error .EEXIST)
    else (st, .ok (ipcid ix (st.sema ix).seq))
  | none =>
    if key = 0 ∨ creat then
      if nsems ≤ 0 ∨ nsems > SEMMSL then (st, .error .EINVAL)
      else if nsems > (st.semmns : Int) - st.semtot then (st, .error .ENOSPC)
      else match (List.range st.semmni).find? fun i => (st.sema i).alloc = false with
        | none => (st, .error .ENOSPC)
        | some ix =>
          let st := st.createSet ix key nsems.toNat
          (st, .ok (ipcid ix (st.sema ix).seq))
    else (st, .error .ENOENT)

/-- What an adjustment makes of a value. -/
def undoVal (semval adjval : BitVec 16) : BitVec 16 :=
  if adjval.toInt < 0 ∧ (semval.toNat : Int) < -adjval.toInt then 0 else semval + adjval

/-- One entry applied to its semaphore; `none` is the panic "semnum out of range", which
is looked for in sets that are not allocated only. -/
def applyUndo (e : SemUndoEntry) : Option State :=
  let semaptr := st.sema e.unId
  if semaptr.alloc = false ∧ semaptr.semNsems ≤ e.unNum then none
  else
    let i := semaptr.semBase + e.unNum
    some (cvBroadcast {st with
      sem := update st.sem i {st.sem i with semval := undoVal (st.sem i).semval e.unAdjval}} e.unId)

/-- The adjustments of a process that exits, and its structure freed. -/
def semexit (p : Proc) : Option State :=
  ((entsOf st.semuList p).foldlM applyUndo st).map fun st' =>
    {st' with semuList := st.semuList.eraseP (·.unProc = p)}

/-- Mark reallocation state and wake up all waiters. -/
def reallocBegin (newsemmni newsemmns newsemmnu : Nat) : State :=
  {st with
    semReallocState := true
    reallocator := some (newsemmni, newsemmns, newsemmnu)
    sleepers := st.sleepers.map fun w => if w.call.ix < st.semmni then {w with woken := true} else w}

/-- The number of the last slot. -/
def lsemid : Nat := (List.range st.semmni).foldl (fun l i => if (st.sema i).alloc then i else l) 0

/-- One identifier and its semaphores, copied behind the `j` semaphores that already are. -/
def copySet (acc : Nat × (Nat → SemidDs) × (Nat → Sem)) (i : Nat) : Nat × (Nat → SemidDs) × (Nat → Sem) :=
  let (j, newSema, newSem) := acc
  let ds := st.sema i
  if ds.alloc then
    (j + ds.semNsems, update newSema i {ds with semBase := j},
      fun k => if j ≤ k ∧ k < j + ds.semNsems then st.sem (ds.semBase + (k - j)) else newSem k)
  else acc

/-- The rest of `semrealloc`, once there are no waiters. We cannot reallocate less memory
than we use. -/
def reallocEnd (newsemmni newsemmns newsemmnu : Nat) : State × Option Errno :=
  if st.lsemid ≥ newsemmni ∨ st.semtot > newsemmns ∨ st.semuList.length > newsemmnu then
    ({st with reallocator := none}, some .EBUSY)
  else
    let (_, sema, sem) := (List.range (st.lsemid + 1)).foldl st.copySet (0, fun _ => .zero, fun _ => .zero)
    ({st with
      semmni := newsemmni
      semmns := newsemmns
      semmnu := newsemmnu
      sema := sema
      sem := sem
      semuList := st.semuList.reverse
      semReallocState := false
      reallocator := none}, none)

end State

/-- The state, and what happened. -/
structure World where
  st : State
  /-- How often a slot was allocated. -/
  gen : Nat → Nat
  /-- The sets removed: the slot, and which allocation of it. -/
  removed : List (Nat × Nat)
  /-- Who operated on which semaphore of which allocation of a slot. -/
  touched : List (Proc × Nat × Nat × Nat)

inductive Act where
  | semget (key nsems : Int) (creat excl perm : Bool)
  | rmid (semid : Nat) (perm : Bool)
  | setval (semid semnum val : Nat) (perm : Bool)
  | setall (semid : Nat) (vals : List Nat) (perm : Bool)
  | semop (lwp : Nat) (p : Proc) (semid : Nat) (sops : List Sembuf) (perm : Bool)
  /-- A sleeper that was woken, or that a signal interrupts, has got the lock again. -/
  | wake (w : Sleeper) (sig : Bool)
  | exit (p : Proc)
  | reallocBegin (newsemmni newsemmns newsemmnu : Nat)
  | reallocEnd

namespace World
variable (w : World)

/-- A step of a call that is done counts as an operation on all its semaphores. -/
def touch (c : Call) (r : State × Ret) : World :=
  {w with
    st := r.1
    touched := if r.2 = .ok then c.sops.map (fun sop => (c.proc, c.ix, w.gen c.ix, sop.semNum)) ++ w.touched else w.touched}

def next : Act → Option World
  | .semget key nsems creat excl perm =>
    let (st, _) := w.st.sysSemget key nsems creat excl perm
    -- The slot that is allocated now and was not.
    some {w with
      st := st
      gen := fun i => if (w.st.sema i).alloc = false ∧ (st.sema i).alloc = true then w.gen i + 1 else w.gen i}
  | .rmid semid perm =>
    let (st, e) := w.st.ipcRmid semid perm
    some {w with st := st, removed := if e = none then (ipcidToIx semid, w.gen (ipcidToIx semid)) :: w.removed else w.removed}
  | .setval semid semnum val perm => some {w with st := (w.st.setval semid semnum val perm).1}
  | .setall semid vals perm => some {w with st := (w.st.setall semid vals perm).1}
  | .semop lwp p semid sops perm =>
    if w.st.semReallocState = true ∨ ∃ s ∈ w.st.sleepers, s.call.lwp = lwp then none
    else some (w.touch ⟨lwp, p, ipcidToIx semid, ipcidToSeq semid, sops⟩ (w.st.sysSemop lwp p semid sops perm))
  | .wake s sig =>
    if s ∈ w.st.sleepers ∧ (s.woken = true ∨ sig = true) then some (w.touch s.call (w.st.semopWake s sig)) else none
  | .exit p => (w.st.semexit p).map fun st => {w with st := st}
  | .reallocBegin newsemmni newsemmns newsemmnu =>
    if w.st.semReallocState = true ∨ newsemmni < 1 ∨ newsemmns < 1 ∨ newsemmnu < 1 then none
    else some {w with st := w.st.reallocBegin newsemmni newsemmns newsemmnu}
  | .reallocEnd => match w.st.reallocator with
    | none => none
    | some (newsemmni, newsemmns, newsemmnu) =>
      if w.st.sleepers = [] then some {w with st := (w.st.reallocEnd newsemmni newsemmns newsemmnu).1} else none

end World

/-- After `seminit`, with the limits as they are set by default. -/
def booted : World where
  st := ⟨10, 60, 30, 0, fun _ => .zero, fun _ => .zero, [], [], false, none⟩
  gen _ := 0
  removed := []
  touched := []

def semSystem : System World Act := .ofStep (· = booted) World.next

end NetBSD.Kern.SysvSem
