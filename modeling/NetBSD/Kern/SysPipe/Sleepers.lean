import NetBSD.Kern.SysPipe.Pipe

/-! Who sleeps on a pipe, and who wakes them.

The calls are those of `Pipe.lean`, here with the condition variables. A call that is asleep is on one of them until
somebody broadcasts on it, and then has a wake-up pending, until it has the mutex back; a signal ends a wait that may be
interrupted, wake-up or not. `pipe_busy` counts the calls. What a call does to the buffer is as before
(`Pipe.reach_forget`).

All of it is the read end's structure: a write works on the peer of its own. Closing the read end marks it and wakes
writers until no call is left; closing the write end marks its peer and wakes readers. An end is closed when no call on it
is in progress, as each call holds a reference of the file. -/
namespace NetBSD.Kern.SysPipe
open Option
open Lib

def minPipeSize : Nat := pipeSize / 3

inductive Cv where
  | rcv
  | wcv
  | lkcv
  deriving DecidableEq

def Phase.cv : Phase → Option Cv
  | .readWait _ => some .rcv
  | .writeWait _ => some .wcv
  | .readLock _ | .writeLock _ | .writeRelock .. => some .lkcv
  | _ => none

/-- A `pipe_read` in progress, and a `pipe_write`. -/
def Phase.reading : Phase → Bool
  | .readLock _ | .readCopy .. | .readCopied .. | .readFailed _ | .readWait _ => true
  | _ => false

def Phase.writing : Phase → Bool
  | .writeLock _ | .writeCopy .. | .writeRest .. | .writeCopied .. | .writeFailed _ | .writeWait _ | .writeRelock .. => true
  | _ => false

structure Pipe where
  w : World
  lwant : Bool
  busy : Nat
  woken : Nat → Bool
  rclosed : Bool
  wclosed : Bool

namespace Pipe

def goto (s : Pipe) (c : Nat) (p : Phase) : Pipe := { s with w := s.w.goto c p }

def broadcast (s : Pipe) (cv : Cv) : Pipe :=
  { s with woken := fun c => s.woken c || decide ((s.w.phase c).cv = some cv) }

/-- `cv_wait`, or `cv_wait_sig`. -/
def cvWait (s : Pipe) (c : Nat) (p : Phase) : Pipe :=
  { s.goto c p with woken := Function.update s.woken c false }

def pipeunlock (s : Pipe) : Pipe :=
  let s := { s with w := { s.w with lockfl := false } }
  if s.lwant then { s with lwant := false }.broadcast .lkcv else s

/-- A call leaves; the last one clears `PIPE_RESTART`. -/
def unbusy (s : Pipe) : Pipe :=
  let s := { s with busy := s.busy - 1 }
  if s.busy = 0 then { s with w := { s.w with restart := false } } else s

def lockWait (s : Pipe) (c : Nat) (p : Phase) : Pipe := { s with lwant := true }.cvWait c p

def unlockedError (s : Pipe) (c : Nat) (rd : Reader) (error : Option Errno) : Pipe :=
  let s := s.unbusy
  let s := if s.w.bp.cnt < minPipeSize then s.broadcast .wcv else s
  s.goto c (.readDone rd error)

def readExit (s : Pipe) (c : Nat) (rd : Reader) (error : Option Errno) : Pipe := s.pipeunlock.unlockedError c rd error

def readLoop (s : Pipe) (c : Nat) (rd : Reader) : Pipe :=
  if rd.resid = 0 then s.readExit c rd none
  else if s.w.bp.cnt > 0 then
    let size := s.w.bp.size - s.w.bp.out
    let size := if size > s.w.bp.cnt then s.w.bp.cnt else size
    let size := if size > rd.resid then rd.resid else size
    s.goto c (.readCopy rd size)
  else if rd.nread > 0 then s.readExit c rd none
  else if s.w.eof then s.readExit c rd none
  else if s.w.rflag then s.readExit c rd (some .EAGAIN)
  else
    let s := s.pipeunlock.broadcast .wcv
    if rd.restart then s.unlockedError c rd (some .ERESTART) else s.cvWait c (.readWait rd)

def readLocking (s : Pipe) (c : Nat) (rd : Reader) : Pipe :=
  if s.w.lockfl then s.lockWait c (.readLock rd) else readLoop { s with w := { s.w with lockfl := true } } c rd

def readCommit (s : Pipe) (c : Nat) (rd : Reader) (size : Nat) (bytes : List (BitVec 8)) : Pipe :=
  let out := s.w.bp.out + size
  let out := if out ≥ s.w.bp.size then 0 else out
  let cnt := s.w.bp.cnt - size
  let bp := if cnt = 0 then { s.w.bp with cnt := cnt, in_ := 0, out := 0 } else { s.w.bp with cnt := cnt, out := out }
  readLoop { s with w := { s.w with bp := bp, taken := s.w.taken ++ [(c, bytes)] } } c
    { rd with resid := rd.resid - size, nread := rd.nread + size, got := rd.got ++ bytes }

/-! ### pipe_write -/

def writeExit (s : Pipe) (c : Nat) (wr : Writer) (error : Option Errno) : Pipe :=
  let s := s.unbusy
  let s := if s.w.bp.cnt > 0 then s.broadcast .rcv else s
  let error := if error = some .EPIPE ∧ s.w.bp.cnt = 0 ∧ wr.resid = 0 then none else error
  s.pipeunlock.goto c (.writeDone wr error)

/-- The room for a write: none when it is to be in one piece and is longer. -/
def room (bp : Pipebuf) (wr : Writer) : Nat :=
  let space := bp.size - bp.cnt
  if space < wr.resid ∧ wr.resid ≤ pipeBuf then 0 else space

def writeLoop (s : Pipe) (c : Nat) (wr : Writer) : Pipe :=
  if wr.resid = 0 then s.writeExit c wr none
  else if room s.w.bp wr > 0 then
    let size := if room s.w.bp wr > wr.resid then wr.resid else room s.w.bp wr
    let segsize := s.w.bp.size - s.w.bp.in_
    let segsize := if segsize > size then size else segsize
    s.goto c (.writeCopy wr size segsize)
  else
    let s := s.broadcast .rcv
    if s.w.wflag then s.writeExit c wr (some .EAGAIN)
    else if wr.restart then s.writeExit c wr (some .ERESTART)
    else s.pipeunlock.cvWait c (.writeWait wr)

def writeLocked (s : Pipe) (c : Nat) (wr : Writer) (grow : Option (Nat → BitVec 8)) : Pipe :=
  if wr.resid > pipeSize ∧ s.w.bp.size ≤ pipeSize ∧ s.w.bp.cnt = 0 then
    match grow with
    | some buffer => writeLoop { s with w := { s.w with bp := pipespace buffer bigPipeSize } } c wr
    | none => s.writeLoop c wr
  else s.writeLoop c wr

def writeLocking (s : Pipe) (c : Nat) (wr : Writer) (grow : Option (Nat → BitVec 8)) : Pipe :=
  if s.w.lockfl then s.lockWait c (.writeLock wr) else writeLocked { s with w := { s.w with lockfl := true } } c wr grow

def writeCommit (s : Pipe) (c : Nat) (wr : Writer) (size segsize : Nat) : Pipe :=
  let in_ := s.w.bp.in_ + size
  let in_ := if in_ ≥ s.w.bp.size then size - segsize else in_
  writeLoop { s with w := { s.w with
    bp := { s.w.bp with in_ := in_, cnt := s.w.bp.cnt + size }
    accepted := s.w.accepted ++ [(c, wr.chunk wr.done size)] } } c
    { wr with done := wr.done + size, resid := wr.resid - size, restart := false }

def writeRelocked (s : Pipe) (c : Nat) (wr : Writer) (error : Option Errno) : Pipe :=
  if error.isSome then s.writeExit c wr error
  else if s.w.eof then s.writeExit c wr (some .EPIPE)
  else s.writeLoop c { wr with restart := s.w.restart }

def writeRelocking (s : Pipe) (c : Nat) (wr : Writer) (error : Option Errno) : Pipe :=
  if s.w.lockfl then s.lockWait c (.writeRelock wr error)
  else writeRelocked { s with w := { s.w with lockfl := true } } c wr error

/-- A signal in the first `pipelock` of a write. -/
def writeInterrupted (s : Pipe) (c : Nat) (wr : Writer) (error : Errno) : Pipe :=
  s.unbusy.goto c (.writeDone wr (some error))

inductive Act where
  /-- `pipeclose` of the read end, up to its wait, and its next round after a signal. -/
  | closeRead
  | closeReadSignal
  | closeWrite
  /-- `pipe_restart`; on the write end it sets a flag that nobody looks at, and nobody sleeps there. -/
  | restart (writeEnd : Bool)
  | fcntl (rflag wflag : Bool)
  | read (c len : Nat)
  | write (c : Nat) (base : Nat → BitVec 8) (len : Nat) (grow : Option (Nat → BitVec 8))
  | lock (c : Nat) (grow : Option (Nat → BitVec 8))
  | signal (c : Nat) (error : Errno)
  | wake (c : Nat) (error : Option Errno)
  | copy (c : Nat)
  | fault (c k : Nat)
  | enter (c : Nat)

/-- The wake-up of a call, after which it has the mutex: without an error it takes a broadcast. -/
def next (s : Pipe) : Act → Option Pipe
  | .closeRead => some (
      let s := { s with w := { s.w with eof := true }, rclosed := true }
      if s.busy > 0 then s.broadcast .wcv else s)
  | .closeReadSignal => if s.rclosed ∧ s.busy > 0 then some (s.broadcast .wcv) else none
  | .closeWrite => some ({ s with w := { s.w with eof := true }, wclosed := true }.broadcast .rcv)
  | .restart writeEnd =>
    if writeEnd then some s else some (({ s with w := { s.w with restart := true } }.broadcast .rcv).broadcast .wcv)
  | .fcntl rflag wflag => some { s with w := { s.w with rflag := rflag, wflag := wflag } }
  | .read c len =>
    match s.w.phase c with
    | .idle => some (readLocking { s with busy := s.busy + 1 } c ⟨len, 0, false, []⟩)
    | _ => none
  | .write c base len grow =>
    match s.w.phase c with
    | .idle =>
      if s.w.eof then some (s.goto c (.writeDone ⟨base, 0, len, false⟩ (some .EPIPE)))
      else some (writeLocking { s with busy := s.busy + 1 } c ⟨base, 0, len, false⟩ grow)
    | _ => none
  | .lock c grow =>
    if s.woken c = false then none
    else match s.w.phase c with
    | .readLock rd => some (s.readLocking c rd)
    | .writeLock wr => some (s.writeLocking c wr grow)
    | .writeRelock wr error => some (s.writeRelocking c wr error)
    | _ => none
  | .signal c error =>
    match s.w.phase c with
    | .readLock rd => some (s.unlockedError c rd (some error))
    | .writeLock wr => some (s.writeInterrupted c wr error)
    | _ => none
  | .wake c error =>
    if error = none ∧ s.woken c = false then none
    else match s.w.phase c with
    | .readWait rd =>
      match error with
      | some error => some (s.unlockedError c rd (some error))
      | none => some (s.readLocking c { rd with restart := s.w.restart })
    | .writeWait wr => some (s.writeRelocking c wr error)
    | _ => none
  | .copy c => (SysPipe.next s.w (.copy c)).map fun w => { s with w := w }
  | .fault c k => (SysPipe.next s.w (.fault c k)).map fun w => { s with w := w }
  | .enter c =>
    match s.w.phase c with
    | .readCopied rd size bytes => some (s.readCommit c rd size bytes)
    | .readFailed rd => some (s.readExit c rd (some .EFAULT))
    | .writeCopied wr size segsize => some (s.writeCommit c wr size segsize)
    | .writeFailed wr => some (s.writeExit c wr (some .EFAULT))
    | _ => none

/-- An end is closed once, with no call on it in progress, and no call starts on it afterwards. -/
def Enabled (s : Pipe) : Act → Prop
  | .closeRead => s.rclosed = false ∧ ∀ c, (s.w.phase c).reading = false
  | .closeWrite => s.wclosed = false ∧ ∀ c, (s.w.phase c).writing = false
  | .read _ _ => s.rclosed = false
  | .write _ _ _ _ => s.wclosed = false
  | _ => True

def created (buffer : Nat → BitVec 8) : Pipe := ⟨SysPipe.created buffer, false, 0, fun _ => false, false, false⟩

end Pipe

def pipeSystem : System Pipe Pipe.Act :=
  ⟨fun s => ∃ buffer, s = Pipe.created buffer, fun s a s' => s.Enabled a ∧ s.next a = some s'⟩

/-! ### The same calls -/

namespace Pipe
variable {s : Pipe} {c : Nat} {rd : Reader} {wr : Writer} {error : Option Errno}

def setRestart (w : World) (b : Bool) : World := { w with restart := b }

/-- The world of `Pipe.lean`, but for when `PIPE_RESTART` is cleared. -/
def SameWorld (s : Pipe) (w : World) : Prop := ∃ b, s.w = setRestart w b

theorem same_refl (s : Pipe) : s.SameWorld s.w := ⟨s.w.restart, rfl⟩

theorem same_goto {s : Pipe} {w : World} (h : s.SameWorld w) (c : Nat) (p : Phase) : (s.goto c p).SameWorld (w.goto c p) := by
  obtain ⟨b, hb⟩ := h
  refine ⟨b, ?_⟩
  rw [goto, hb]
  rfl

theorem broadcast_w (cv : Cv) : (s.broadcast cv).w = s.w := rfl

theorem pipeunlock_w : s.pipeunlock.w = { s.w with lockfl := false } := by
  simp only [pipeunlock]
  split <;> rfl

theorem unbusy_w : ∃ b, s.unbusy.w = setRestart s.w b := by
  simp only [unbusy]
  split
  · exact ⟨false, rfl⟩
  · exact ⟨s.w.restart, rfl⟩

theorem unlockedError_same : (s.unlockedError c rd error).SameWorld (s.w.goto c (.readDone rd error)) := by
  apply same_goto
  split <;> exact unbusy_w

theorem readExit_same : (s.readExit c rd error).SameWorld (SysPipe.readExit s.w c rd error) := by
  have h := @unlockedError_same s.pipeunlock c rd error
  rw [pipeunlock_w] at h
  exact h

theorem cvWait_same {w : World} (h : s.SameWorld w) (p : Phase) : (s.cvWait c p).SameWorld (w.goto c p) :=
  same_goto (s := s) h c p

theorem readLoop_same : (s.readLoop c rd).SameWorld (SysPipe.readLoop s.w c rd) := by
  unfold readLoop SysPipe.readLoop
  by_cases hresid : rd.resid = 0
  · rw [if_pos hresid, if_pos hresid]
    exact readExit_same
  rw [if_neg hresid, if_neg hresid]
  by_cases hcnt : s.w.bp.cnt > 0
  · rw [if_pos hcnt, if_pos hcnt]
    exact same_goto (same_refl s) c _
  rw [if_neg hcnt, if_neg hcnt]
  by_cases hnread : rd.nread > 0
  · rw [if_pos hnread, if_pos hnread]
    exact readExit_same
  rw [if_neg hnread, if_neg hnread]
  by_cases heof : s.w.eof = true
  · rw [if_pos heof, if_pos heof]
    exact readExit_same
  rw [if_neg heof, if_neg heof]
  by_cases hflag : s.w.rflag = true
  · rw [if_pos hflag, if_pos hflag]
    exact readExit_same
  rw [if_neg hflag, if_neg hflag]
  have hunlock : (s.pipeunlock.broadcast .wcv).w = { s.w with lockfl := false } := pipeunlock_w
  by_cases hrestart : rd.restart = true
  · have h := @unlockedError_same (s.pipeunlock.broadcast .wcv) c rd (some .ERESTART)
    rw [hunlock] at h
    simp only [if_pos hrestart]
    exact h
  have h := same_refl (s.pipeunlock.broadcast .wcv)
  rw [hunlock] at h
  simp only [if_neg hrestart]
  exact cvWait_same h _

theorem readLocking_same : (s.readLocking c rd).SameWorld (SysPipe.readLocking s.w c rd) := by
  unfold readLocking SysPipe.readLocking
  by_cases hlock : s.w.lockfl = true
  · rw [if_pos hlock, if_pos hlock]
    exact cvWait_same (same_refl s) _
  · rw [if_neg hlock, if_neg hlock]
    exact readLoop_same

theorem writeExit_same : (s.writeExit c wr error).SameWorld (SysPipe.writeExit s.w c wr error) := by
  obtain ⟨b, hb⟩ := @unbusy_w s
  have hrcv : (if s.unbusy.w.bp.cnt > 0 then s.unbusy.broadcast .rcv else s.unbusy).w = setRestart s.w b := by
    split <;> exact hb
  simp only [writeExit, SysPipe.writeExit]
  refine ⟨b, ?_⟩
  rw [goto, pipeunlock_w, hrcv]
  rfl

theorem writeLoop_same : (s.writeLoop c wr).SameWorld (SysPipe.writeLoop s.w c wr) := by
  unfold writeLoop SysPipe.writeLoop
  by_cases hresid : wr.resid = 0
  · rw [if_pos hresid, if_pos hresid]
    exact writeExit_same
  rw [if_neg hresid, if_neg hresid]
  have hspace : (if s.w.bp.size - s.w.bp.cnt < wr.resid ∧ wr.resid ≤ pipeBuf then 0 else s.w.bp.size - s.w.bp.cnt) = room s.w.bp wr := rfl
  simp only [hspace]
  by_cases hroom : room s.w.bp wr > 0
  · rw [if_pos hroom, if_pos hroom]
    exact same_goto (same_refl s) c _
  rw [if_neg hroom, if_neg hroom]
  by_cases hflag : s.w.wflag = true
  · have hflag' : (s.broadcast .rcv).w.wflag = true := hflag
    rw [if_pos hflag, if_pos hflag']
    exact writeExit_same
  have hflag' : ¬(s.broadcast .rcv).w.wflag = true := hflag
  rw [if_neg hflag, if_neg hflag']
  by_cases hrestart : wr.restart = true
  · rw [if_pos hrestart, if_pos hrestart]
    exact writeExit_same
  rw [if_neg hrestart, if_neg hrestart]
  have h := same_refl (s.broadcast .rcv).pipeunlock
  rw [pipeunlock_w] at h
  exact cvWait_same h _

theorem writeLocked_same (grow : Option (Nat → BitVec 8)) : (s.writeLocked c wr grow).SameWorld (SysPipe.writeLocked s.w c wr grow) := by
  unfold writeLocked SysPipe.writeLocked
  by_cases hsmall : wr.resid > pipeSize ∧ s.w.bp.size ≤ pipeSize ∧ s.w.bp.cnt = 0
  · rw [if_pos hsmall, if_pos hsmall]
    cases grow <;> exact writeLoop_same
  · rw [if_neg hsmall, if_neg hsmall]
    exact writeLoop_same

theorem writeLocking_same (grow : Option (Nat → BitVec 8)) : (s.writeLocking c wr grow).SameWorld (SysPipe.writeLocking s.w c wr grow) := by
  unfold writeLocking SysPipe.writeLocking
  by_cases hlock : s.w.lockfl = true
  · rw [if_pos hlock, if_pos hlock]
    exact cvWait_same (same_refl s) _
  · rw [if_neg hlock, if_neg hlock]
    exact writeLocked_same grow

theorem writeRelocking_same : (s.writeRelocking c wr error).SameWorld (SysPipe.writeRelocking s.w c wr error) := by
  unfold writeRelocking SysPipe.writeRelocking
  by_cases hlock : s.w.lockfl = true
  · rw [if_pos hlock, if_pos hlock]
    exact cvWait_same (same_refl s) _
  rw [if_neg hlock, if_neg hlock]
  unfold writeRelocked SysPipe.writeRelocked
  by_cases herror : error.isSome = true
  · rw [if_pos herror, if_pos herror]
    exact writeExit_same
  rw [if_neg herror, if_neg herror]
  by_cases heof : s.w.eof = true
  · rw [if_pos heof, if_pos heof]
    exact writeExit_same
  · rw [if_neg heof, if_neg heof]
    exact writeLoop_same

/-- A step of a pipe with its sleepers is one of the calls as they were. -/
theorem next_same {a : Act} {s' : Pipe} (h : s.next a = some s') : ∃ l w, SysPipe.next s.w l = some w ∧ s'.SameWorld w := by
  cases a with
  | closeRead =>
    obtain rfl := some.inj h
    refine ⟨.close, _, rfl, s.w.restart, ?_⟩
    dsimp only
    split <;> rfl
  | closeReadSignal =>
    simp only [next] at h
    split at h
    · obtain rfl := some.inj h
      exact ⟨.restart s.w.restart, _, rfl, s.w.restart, rfl⟩
    · cases h
  | closeWrite =>
    obtain rfl := some.inj h
    exact ⟨.close, _, rfl, s.w.restart, rfl⟩
  | restart writeEnd =>
    simp only [next] at h
    split at h
    · obtain rfl := some.inj h
      exact ⟨.restart s.w.restart, _, rfl, s.w.restart, rfl⟩
    · obtain rfl := some.inj h
      exact ⟨.restart true, _, rfl, true, rfl⟩
  | fcntl rflag wflag =>
    obtain rfl := some.inj h
    exact ⟨.fcntl rflag wflag, _, rfl, s.w.restart, rfl⟩
  | read c len =>
    refine ⟨.read c len, ?_⟩
    simp only [next] at h
    split at h
    · next hphase =>
      obtain rfl := some.inj h
      simp only [SysPipe.next, hphase]
      exact ⟨_, rfl, readLocking_same⟩
    · cases h
  | write c base len grow =>
    refine ⟨.write c base len grow, ?_⟩
    simp only [next] at h
    split at h
    · next hphase =>
      simp only [SysPipe.next, hphase]
      split at h
      · next heof =>
        obtain rfl := some.inj h
        simp only [if_pos heof]
        exact ⟨_, rfl, same_goto (same_refl s) c _⟩
      · next heof =>
        obtain rfl := some.inj h
        simp only [if_neg heof]
        exact ⟨_, rfl, writeLocking_same grow⟩
    · cases h
  | lock c grow =>
    refine ⟨.lock c grow, ?_⟩
    simp only [next] at h
    split at h
    · cases h
    split at h
    · next hphase =>
      obtain rfl := some.inj h
      simp only [SysPipe.next, hphase]
      exact ⟨_, rfl, readLocking_same⟩
    · next hphase =>
      obtain rfl := some.inj h
      simp only [SysPipe.next, hphase]
      exact ⟨_, rfl, writeLocking_same grow⟩
    · next hphase =>
      obtain rfl := some.inj h
      simp only [SysPipe.next, hphase]
      exact ⟨_, rfl, writeRelocking_same⟩
    · cases h
  | signal c error =>
    refine ⟨.signal c error, ?_⟩
    simp only [next] at h
    split at h
    · next hphase =>
      obtain rfl := some.inj h
      simp only [SysPipe.next, hphase]
      exact ⟨_, rfl, unlockedError_same⟩
    · next hphase =>
      obtain rfl := some.inj h
      simp only [SysPipe.next, hphase]
      exact ⟨_, rfl, same_goto (s := s.unbusy) unbusy_w c _⟩
    · cases h
  | wake c error =>
    refine ⟨.wake c error, ?_⟩
    simp only [next] at h
    split at h
    · cases h
    split at h
    · next hphase =>
      simp only [SysPipe.next, hphase]
      cases error with
      | some error =>
        obtain rfl := some.inj h
        exact ⟨_, rfl, unlockedError_same⟩
      | none =>
        obtain rfl := some.inj h
        exact ⟨_, rfl, readLocking_same⟩
    · next hphase =>
      obtain rfl := some.inj h
      simp only [SysPipe.next, hphase]
      exact ⟨_, rfl, writeRelocking_same⟩
    · cases h
  | copy c =>
    obtain ⟨w, hw, rfl⟩ := Option.map_eq_some_iff.mp h
    exact ⟨.copy c, w, hw, w.restart, rfl⟩
  | fault c k =>
    obtain ⟨w, hw, rfl⟩ := Option.map_eq_some_iff.mp h
    exact ⟨.fault c k, w, hw, w.restart, rfl⟩
  | enter c =>
    refine ⟨.enter c, ?_⟩
    simp only [next] at h
    split at h
    · next hphase =>
      obtain rfl := some.inj h
      simp only [SysPipe.next, hphase]
      exact ⟨_, rfl, readLoop_same⟩
    · next hphase =>
      obtain rfl := some.inj h
      simp only [SysPipe.next, hphase]
      exact ⟨_, rfl, readExit_same⟩
    · next hphase =>
      obtain rfl := some.inj h
      simp only [SysPipe.next, hphase]
      exact ⟨_, rfl, writeLoop_same⟩
    · next hphase =>
      obtain rfl := some.inj h
      simp only [SysPipe.next, hphase]
      exact ⟨_, rfl, writeExit_same⟩
    · cases h

end Pipe

theorem Pipe.reach_forget {s : Pipe} {ok : Pipe → Pipe.Act → Prop} (h : pipeSystem.Reach ok s) : system.Reachable s.w := by
  induction h with
  | init h =>
    obtain ⟨buffer, rfl⟩ := h
    exact .init ⟨buffer, rfl⟩
  | step _ _ hstep ih =>
    obtain ⟨l, w, hw, b, hb⟩ := Pipe.next_same hstep.2
    rw [hb]
    have hnext : system.Reachable w := .step ih trivial hw
    exact .step (a := .restart b) hnext trivial rfl

/-- With the long-term lock free, nobody is asleep on a pipe that is ready for it, without a wake-up pending. -/
def Pipe.NoneLeft (s : Pipe) : Prop :=
  s.w.lockfl = false → ∀ c, s.woken c = false → ((s.w.phase c).cv = some .rcv → ¬(0 < s.w.bp.cnt ∨ s.w.eof = true)) ∧
    ((s.w.phase c).cv = some .wcv → ¬(s.w.bp.cnt < minPipeSize ∨ s.w.eof = true)) ∧
    (s.w.phase c).cv ≠ some .lkcv

/-- A write that has come to the head of its loop goes to sleep on `pipe_wcv`. -/
def Pipe.Sleeps (w : World) (bp : Pipebuf) (wr : Writer) : Prop :=
  wr.resid ≠ 0 ∧ Pipe.room bp wr = 0 ∧ w.wflag = false ∧ wr.restart = false

/-- The step takes a write to sleep that does not look at `PIPE_EOF`: after its first `pipelock`, or after a copy. -/
def Pipe.SleepsUnaware (s : Pipe) : Pipe.Act → Prop
  | .lock c _ => ∃ wr, s.w.phase c = .writeLock wr ∧ s.w.lockfl = false ∧ Pipe.Sleeps s.w s.w.bp wr
  | .enter c => ∃ wr size segsize, s.w.phase c = .writeCopied wr size segsize ∧ Pipe.Sleeps s.w { s.w.bp with cnt := s.w.bp.cnt + size }
        { wr with done := wr.done + size, resid := wr.resid - size, restart := false }
  | _ => False

/-- While `PIPE_EOF` is set no write goes to sleep. -/
def Pipe.Aware (s : Pipe) (a : Pipe.Act) : Prop := s.w.eof = true → ¬s.SleepsUnaware a

end NetBSD.Kern.SysPipe
