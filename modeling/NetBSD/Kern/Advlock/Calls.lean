import NetBSD.Kern.Advlock.Locklist
import NetBSD.Lib.System
import Mathlib.Logic.Function.Basic
import Mathlib.Data.Fintype.Basic

/-! Calls of `lf_advlock`, any number of them at a time on any number of files.

A call allocates its structures, takes the interlock and does what it is asked for; it
gives the interlock up only in `cv_wait_sig` and when it leaves, so what it does in
between is one step. A request that is asleep is on the queue of the lock in its
`lf_next`. It becomes awake when `lf_wakelock` takes it off that queue, or by a signal,
and then takes it off itself.

Which threads a process has, where new structures lie and which user a caller is are
given with each step. A `panicked` state is one in which `lf_findoverlap` has panicked or
a pointer to nothing was followed. -/
namespace NetBSD.Kern.Advlock
open Function
open Lib

inductive Op where
  | setlk
  | unlck
  | getlk
  deriving DecidableEq

inductive Whence where
  | seekSet
  | seekCur
  | seekEnd
  | other
  deriving DecidableEq

inductive Errno where
  | enomem
  | eagain
  | edeadlk
  | eintr
  deriving DecidableEq

/-- `F_POSIX` of the calling process, or `F_FLOCK` of a file description. -/
inductive Style where
  | posix
  | flock (fp : Nat)
  deriving DecidableEq

/-- The arguments of `lf_advlock`, with its caller. -/
structure Request where
  lwp : Nat
  proc : Nat
  euid : Uid
  aOp : Op
  style : Style
  /-- `F_WAIT`. -/
  wait : Bool
  lType : LockType
  lWhence : Whence
  lStart : Int
  lLen : Int
  size : Int

def Request.aId (rq : Request) : Owner := match rq.style with
  | .posix => .proc rq.proc
  | .flock fp => .file fp

/-- What the callers promise: flock style requests are for the whole file, a lock is set
to read or to write, and only setting one waits. -/
def Request.Ok (rq : Request) : Prop :=
  (rq.style ≠ .posix → rq.lWhence = .seekSet ∧ rq.lStart = 0 ∧ rq.lLen = 0) ∧
  (rq.aOp = .setlk → rq.lType ≠ .unlck) ∧ (rq.aOp ≠ .setlk → rq.wait = false)

instance (rq : Request) : Decidable rq.Ok := inferInstanceAs (Decidable (_ ∧ _ ∧ _))

/-- The flock structure as a start and an end; `none` is `EINVAL`. -/
def Request.range (rq : Request) : Option (Int × Int) :=
  let start? := match rq.lWhence with
    | .seekSet | .seekCur => some rq.lStart
    | .seekEnd => some (rq.size + rq.lStart)
    | .other => none
  start?.bind fun start =>
    let (start, fin) :=
      if rq.lLen = 0 then (start, -1)
      else if rq.lLen > 0 then (start, start + rq.lLen - 1)
      -- lockf() allows -ve lengths
      else (start + rq.lLen, start - 1)
    if start < 0 then none else some (start, fin)

inductive Stage where
  /-- Its structures are allocated. -/
  | entered (lock : Lockf)
  | asleep (lock : Lockf) (lfNext : Option Addr)
  /-- Woken, but without the interlock yet. -/
  | awake (lock : Lockf) (lfNext : Option Addr)
  /-- Out of the interlock; what it still has is to be freed. -/
  | leaving (lock : Option Lockf) (error : Option Errno)
  deriving DecidableEq

structure Call (F : Type) where
  lwp : Nat
  proc : Nat
  file : F
  op : Op
  wait : Bool
  spare : Option Lockf
  stage : Stage

def Stage.lock? : Stage → Option Lockf
  | .entered lock | .asleep lock _ | .awake lock _ => some lock
  | .leaving lock _ => lock

def Stage.lfNext : Stage → Option Addr
  | .asleep _ lfNext | .awake _ lfNext => lfNext
  | .entered _ | .leaving _ _ => none

def Stage.isAsleep : Stage → Bool
  | .asleep _ _ => true
  | .entered _ | .awake _ _ | .leaving _ _ => false

def Call.structs {F : Type} (c : Call F) : List Lockf := c.stage.lock?.toList ++ c.spare.toList

/-- What an edit means for a request that waits: `lf_wakelock` wakes it, or it is moved to
the lock at `a`. -/
def Stage.notify (woken moved : List Addr) (a : Addr) : Stage → Stage
  | .asleep lock lfNext =>
    if lock.addr ∈ woken then .awake lock none
    else .asleep lock (if lock.addr ∈ moved then some a else lfNext)
  | .awake lock lfNext =>
    .awake lock (if lock.addr ∈ woken then none else if lock.addr ∈ moved then some a else lfNext)
  | stage => stage

def Call.notify {F : Type} (woken moved : List Addr) (a : Addr) (c : Call F) : Call F :=
  {c with stage := c.stage.notify woken moved a}

structure Sys (F : Type) where
  lists : F → List Lockf
  calls : List (Call F)
  /-- `ui_lockcnt`. -/
  lockcnt : Uid → BitVec 64
  panicked : Bool

/-- The tunables `maxlocksperuid` and `maxlockdepth`. -/
structure Tunables where
  maxlocksperuid : Nat
  maxlockdepth : Nat

/-- The threads of each process: the first on `p_lwps`, and `p_nlwps`. -/
structure Threads where
  first : Nat → Nat
  nlwps : Nat → Nat

namespace Sys
variable {F : Type} [DecidableEq F] (s : Sys F)

def others (lwp : Nat) : List (Call F) := s.calls.filter fun c => c.lwp ≠ lwp

def setCall (c : Call F) : Sys F := {s with calls := c :: s.others c.lwp}

def setList (f : F) (list : List Lockf) : Sys F := {s with lists := update s.lists f list}

def panic : Sys F := {s with panicked := true}

def charge (uid : Uid) : Sys F := {s with lockcnt := update s.lockcnt uid (s.lockcnt uid + 1)}

/-- A structure as it comes from the pool; only the user is set. -/
def blank (addr : Addr) (uid : Uid) : Lockf := ⟨addr, .unlck, 0, 0, .proc 0, [], uid⟩

/-- `lf_alloc`: 0 always allocates, 1 cuts off at the limit, 2 at double the limit. -/
def lfAlloc (tn : Tunables) (uid : Uid) (allowfail : Nat) (addr : Addr) : Option (Sys F × Lockf) :=
  let limit := if allowfail = 1 then tn.maxlocksperuid else tn.maxlocksperuid * 2
  if uid ≠ 0 ∧ allowfail ≠ 0 ∧ (s.lockcnt uid + 1).toNat > limit then none
  else some (s.charge uid, blank addr uid)

def lfFree (lock : Lockf) : Sys F :=
  {s with lockcnt := update s.lockcnt lock.lfUid (s.lockcnt lock.lfUid - 1)}

def lfFrees (locks : List Lockf) : Sys F := locks.foldl lfFree s

/-- What an edit does, on behalf of the call `c` with the lock at `a`. -/
def edit (c : Call F) (a : Addr) (r : Edited) (stage : Stage) : Sys F :=
  let s := s.setList c.file r.list
  let s := {s with calls := {c with spare := r.spare, stage := stage} ::
    (s.others c.lwp).map (Call.notify r.woken r.moved a)}
  s.lfFrees r.freed

/-! ### Setting a lock -/

/-- Where the walk along the chain of blocked processes goes from a process. -/
inductive Hop where
  | stop
  | to (p : Nat)
  | fault

/-- The owner of the lock that the only thread of `p` sleeps on. -/
def hop (t : Threads) (p : Nat) : Hop :=
  if t.nlwps p > 1 then .stop
  else match s.calls.find? fun c => c.lwp = t.first p with
    | none => .stop
    | some c => match c.stage with
      | .asleep _ lfNext => match lfNext.bind fun b => (s.lists c.file).find? fun lf => lf.addr = b with
        | none => .fault
        | some waitblock => match waitblock.lfId with
          | .proc q => .to q
          | .file _ => .stop
      | _ => .stop

/-- The walk from `p` on with `left` rounds to go, and whether it ends in `EDEADLK`: it
comes back to the caller, or has used all rounds. -/
def chainWalk (t : Threads) (curproc : Nat) : Nat → Nat → Option Bool
  | 0, _ => some true
  | left + 1, p => match s.hop t p with
    | .stop => some (left = 0)
    | .fault => none
    | .to q => if q = curproc then some true else chainWalk t curproc left q

/-- Whether to refuse to wait for `block`. -/
def deadlocks (tn : Tunables) (t : Threads) (c : Call F) (lock block : Lockf) : Option Bool :=
  match lock.lfId, block.lfId with
  | .proc _, .proc p => s.chainWalk t c.proc tn.maxlockdepth p
  | _, _ => some false

/-- Flock type locks: remove any shared locks that we hold before we sleep waiting for an
exclusive lock. -/
def upgrade (c : Call F) (lock : Lockf) : Option (Sys F) :=
  match lock.lfId, lock.lfType with
  | .file _, .wrlck => (lfClearlock {lock with lfType := .unlck} none (s.lists c.file)).map fun r =>
      s.edit c lock.addr {r with spare := c.spare} c.stage
  | _, _ => some s

/-- Add our lock to the blocked list and sleep until we're free. -/
def sleep (c : Call F) (lock block : Lockf) : Sys F :=
  (s.setList c.file (requeue block.addr (· ++ [lock.addr]) (s.lists c.file))).setCall
    {c with stage := .asleep lock (some block.addr)}

/-- Leave with an error, `lock` freed. -/
def refuse (c : Call F) (lock : Lockf) (error : Errno) : Sys F :=
  (s.setCall {c with stage := .leaving none (some error)}).lfFree lock

/-- `lf_setlock` from where it looks for locks that would block us. -/
def lfSetlock (tn : Tunables) (t : Threads) (c : Call F) (lock : Lockf) : Sys F :=
  match lfGetblock lock (s.lists c.file) with
  | none => s.panic
  | some none => match lfSetlockGrant lock c.spare (s.lists c.file) with
    | none => s.panic
    | some r => s.edit c lock.addr r (.leaving none none)
  | some (some block) =>
    if c.wait = false then s.refuse c lock .eagain
    else match s.deadlocks tn t c lock block with
      | none => s.panic
      | some true => s.refuse c lock .edeadlk
      | some false => match s.upgrade c lock with
        | none => s.panic
        | some s => s.sleep c lock block

/-! ### Steps -/

/-- `lf_advlock` up to the interlock, with two structures at hand. -/
def enter (tn : Tunables) (f : F) (rq : Request) (spareAddr lockAddr : Addr) : Sys F :=
  match rq.range with
  | none => s
  | some (start, fin) =>
    let (s, spare) :=
      if rq.aOp ≠ .getlk ∧ rq.style = .posix then
        -- Byte-range lock might need one more lock.
        match s.lfAlloc tn rq.euid 0 spareAddr with
        | some (s, spare) => (s, some spare)
        | none => (s, none)
      else (s, none)
    let allowfail := match rq.aOp with
      | .setlk => 1
      | .unlck => if start = 0 ∨ fin = -1 then 0 else 2
      | .getlk => 0
    let c : Call F := ⟨rq.lwp, rq.proc, f, rq.aOp, rq.wait, spare, .leaving none (some .enomem)⟩
    match s.lfAlloc tn rq.euid allowfail lockAddr with
    | none => s.setCall c
    | some (s, lock) =>
      let lock := {lock with lfStart := start, lfEnd := fin, lfType := rq.lType, lfId := rq.aId}
      s.setCall {c with stage := .entered lock}

/-- Take the interlock and do the requested operation. -/
def run (tn : Tunables) (t : Threads) (c : Call F) (lock : Lockf) : Sys F :=
  -- Avoid the common case of unlocking when inode has no locks.
  if s.lists c.file = [] ∧ c.op ≠ .setlk then s.setCall {c with stage := .leaving (some lock) none}
  else match c.op with
    | .setlk => s.lfSetlock tn t c lock
    | .unlck => match lfClearlock lock c.spare (s.lists c.file) with
      | none => s.panic
      | some r => s.edit c lock.addr r (.leaving (some lock) none)
    | .getlk => match lfGetblock lock (s.lists c.file) with
      | none => s.panic
      | some _ => s.setCall {c with stage := .leaving (some lock) none}

/-- Behind `cv_wait_sig`: off the queue, if not yet, and with an error out. -/
def resume (tn : Tunables) (t : Threads) (c : Call F) (lock : Lockf) (lfNext : Option Addr) (error : Option Errno) :
    Sys F :=
  let s := match lfNext with
    | some b => s.setList c.file (requeue b (·.erase lock.addr) (s.lists c.file))
    | none => s
  let c := {c with stage := .awake lock none}
  let s := s.setCall c
  match error with
  | some error => s.refuse c lock error
  | none => s.lfSetlock tn t c lock

def leave (c : Call F) (lock : Option Lockf) : Sys F :=
  {s with calls := s.others c.lwp}.lfFrees (lock.toList ++ c.spare.toList)

end Sys

/-- A step: a call enters, one that has entered runs, one that is asleep gets a signal,
one that is awake resumes, with an error or not, or one leaves. -/
inductive Act (F : Type) where
  | enter (f : F) (rq : Request) (spareAddr lockAddr : Addr)
  | run (lwp : Nat) (t : Threads)
  | signal (lwp : Nat)
  | resume (lwp : Nat) (t : Threads) (error : Option Errno)
  | leave (lwp : Nat)

namespace Sys
variable {F : Type} [DecidableEq F] (s : Sys F)

def next (tn : Tunables) (a : Act F) : Option (Sys F) :=
  if s.panicked then none
  else match a with
    | .enter f rq spareAddr lockAddr => some (s.enter tn f rq spareAddr lockAddr)
    | .run lwp t => (s.calls.find? fun c => c.lwp = lwp).bind fun c => match c.stage with
      | .entered lock => some (s.run tn t c lock)
      | _ => none
    | .signal lwp => (s.calls.find? fun c => c.lwp = lwp).bind fun c => match c.stage with
      | .asleep lock lfNext => some (s.setCall {c with stage := .awake lock lfNext})
      | _ => none
    | .resume lwp t error => (s.calls.find? fun c => c.lwp = lwp).bind fun c => match c.stage with
      | .awake lock lfNext => some (s.resume tn t c lock lfNext error)
      | _ => none
    | .leave lwp => (s.calls.find? fun c => c.lwp = lwp).bind fun c => match c.stage with
      | .leaving lock _ => some (s.leave c lock)
      | _ => none

/-- There is a structure at `a`. -/
def InUse (a : Addr) : Prop :=
  (∃ f, ∃ lf ∈ s.lists f, lf.addr = a) ∨ ∃ c ∈ s.calls, ∃ lf ∈ c.structs, lf.addr = a

instance [Fintype F] (a : Addr) : Decidable (s.InUse a) := inferInstanceAs (Decidable (_ ∨ _))

/-- A call enters with what its caller promises, on a thread that is not in a call, and
the allocator hands out memory that is not in use. -/
def Enabled : Act F → Prop
  | .enter _ rq spareAddr lockAddr => rq.Ok ∧ (∀ c ∈ s.calls, c.lwp ≠ rq.lwp) ∧
      spareAddr ≠ lockAddr ∧ spareAddr ≠ 0 ∧ lockAddr ≠ 0 ∧ ¬s.InUse spareAddr ∧ ¬s.InUse lockAddr
  | _ => True

instance [Fintype F] : ∀ a, Decidable (s.Enabled a)
  | .enter _ _ _ _ => inferInstanceAs (Decidable (_ ∧ _))
  | .run _ _ | .signal _ | .resume _ _ _ | .leave _ => inferInstanceAs (Decidable True)

end Sys

def noLocks (F : Type) : Sys F := ⟨fun _ => [], [], fun _ => 0, false⟩

/-- Any number of callers of `lf_advlock`. -/
def advlockSystem (F : Type) [DecidableEq F] (tn : Tunables) : System (Sys F) (Act F) :=
  ⟨fun s => s = noLocks F, fun s a s' => s.Enabled a ∧ s.next tn a = some s'⟩

end NetBSD.Kern.Advlock
