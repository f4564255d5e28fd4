import NetBSD.Lib.System
import NetBSD.Lib.Ring
import Mathlib.Data.BitVec
import Mathlib.Logic.Function.Basic

/-! Reads and writes of a pipe.

The buffer of a pipe is a ring that any number of calls read and write. A call runs under the mutex up to where it
waits or copies. Copies are steps of their own, made under the long-term lock `PIPE_LOCKFL`, and so is the return to the
mutex after them. `accepted` and `taken` are what the calls have put into the buffer and taken out of it, piece by piece,
with the call. -/
namespace NetBSD.Kern.SysPipe
open Lib

def pipeSize : Nat := 16384
def bigPipeSize : Nat := 4 * pipeSize
def pipeBuf : Nat := 512

inductive Errno where
  | EINTR
  | ERESTART
  | EAGAIN
  | EPIPE
  | EFAULT
  deriving DecidableEq

structure Pipebuf where
  cnt : Nat
  in_ : Nat
  out : Nat
  size : Nat
  buffer : Nat → BitVec 8

/-- What is in the buffer, oldest first. -/
def Pipebuf.contents (bp : Pipebuf) : List (BitVec 8) := RingBuffer.contents bp.size bp.buffer bp.out bp.cnt

def pipespace (buffer : Nat → BitVec 8) (size : Nat) : Pipebuf := ⟨0, 0, 0, size, buffer⟩

/-- A block of memory that is copied to a place of the buffer. -/
def copyTo (buffer : Nat → BitVec 8) (a k : Nat) (src : Nat → BitVec 8) : Nat → BitVec 8 :=
  fun j => if a ≤ j ∧ j < a + k then src (j - a) else buffer j

/-- A read: what is left to read, what it has read, and whether `wakeup_state` has `PIPE_RESTART`. -/
structure Reader where
  resid : Nat
  nread : Nat
  restart : Bool
  got : List (BitVec 8)

/-- A write: its memory, the part of it that is in the buffer or has been, and what is left. -/
structure Writer where
  base : Nat → BitVec 8
  done : Nat
  resid : Nat
  restart : Bool

def Writer.len (wr : Writer) : Nat := wr.done + wr.resid

/-- The bytes of a write from one of them on. -/
def Writer.chunk (wr : Writer) (a k : Nat) : List (BitVec 8) := (List.range k).map fun i => wr.base (a + i)

def Writer.whole (wr : Writer) : List (BitVec 8) := wr.chunk 0 wr.len

/-- How far a call is. In `copied` and `failed` phases it has copied and is not back in the mutex yet. -/
inductive Phase where
  | idle
  | readLock (rd : Reader)
  | readCopy (rd : Reader) (size : Nat)
  | readCopied (rd : Reader) (size : Nat) (bytes : List (BitVec 8))
  | readFailed (rd : Reader)
  | readWait (rd : Reader)
  | readDone (rd : Reader) (error : Option Errno)
  | writeLock (wr : Writer)
  | writeCopy (wr : Writer) (size segsize : Nat)
  | writeRest (wr : Writer) (size segsize : Nat)
  | writeCopied (wr : Writer) (size segsize : Nat)
  | writeFailed (wr : Writer)
  | writeWait (wr : Writer)
  | writeRelock (wr : Writer) (error : Option Errno)
  | writeDone (wr : Writer) (error : Option Errno)

/-- The phases under the long-term lock. -/
def Phase.holds : Phase → Bool
  | .readCopy .. | .readCopied .. | .readFailed .. | .writeCopy .. | .writeRest .. | .writeCopied .. | .writeFailed .. => true
  | _ => false

/-- `rflag` and `wflag` are `FNONBLOCK` of the two ends. -/
structure World where
  bp : Pipebuf
  lockfl : Bool
  eof : Bool
  restart : Bool
  rflag : Bool
  wflag : Bool
  phase : Nat → Phase
  accepted : List (Nat × List (BitVec 8))
  taken : List (Nat × List (BitVec 8))

def World.goto (w : World) (c : Nat) (p : Phase) : World := { w with phase := Function.update w.phase c p }

/-- The lock is released, and the call returns. -/
def readExit (w : World) (c : Nat) (rd : Reader) (error : Option Errno) : World :=
  { w with lockfl := false }.goto c (.readDone rd error)

/-- From the head of the loop to a copy, a wait or the end. -/
def readLoop (w : World) (c : Nat) (rd : Reader) : World :=
  if rd.resid = 0 then readExit w c rd none
  else if w.bp.cnt > 0 then
    let size := w.bp.size - w.bp.out
    let size := if size > w.bp.cnt then w.bp.cnt else size
    let size := if size > rd.resid then rd.resid else size
    w.goto c (.readCopy rd size)
  else if rd.nread > 0 then readExit w c rd none
  else if w.eof then readExit w c rd none
  else if w.rflag then readExit w c rd (some .EAGAIN)
  else if rd.restart then readExit w c rd (some .ERESTART)
  else { w with lockfl := false }.goto c (.readWait rd)

/-- From the call of `pipelock` on. -/
def readLocking (w : World) (c : Nat) (rd : Reader) : World :=
  if w.lockfl then w.goto c (.readLock rd) else readLoop { w with lockfl := true } c rd

/-- The copy has moved the bytes, and they leave the buffer. -/
def readCommit (w : World) (c : Nat) (rd : Reader) (size : Nat) (bytes : List (BitVec 8)) : World :=
  let out := w.bp.out + size
  let out := if out ≥ w.bp.size then 0 else out
  let cnt := w.bp.cnt - size
  let bp := if cnt = 0 then { w.bp with cnt := cnt, in_ := 0, out := 0 } else { w.bp with cnt := cnt, out := out }
  readLoop { w with bp := bp, taken := w.taken ++ [(c, bytes)] } c
    { rd with resid := rd.resid - size, nread := rd.nread + size, got := rd.got ++ bytes }

/-! ### pipe_write -/

/-- `EPIPE` is not returned when all is written and read. -/
def writeExit (w : World) (c : Nat) (wr : Writer) (error : Option Errno) : World :=
  let error := if error = some .EPIPE ∧ w.bp.cnt = 0 ∧ wr.resid = 0 then none else error
  { w with lockfl := false }.goto c (.writeDone wr error)

def writeLoop (w : World) (c : Nat) (wr : Writer) : World :=
  if wr.resid = 0 then writeExit w c wr none
  else
    let space := w.bp.size - w.bp.cnt
    let space := if space < wr.resid ∧ wr.resid ≤ pipeBuf then 0 else space
    if space > 0 then
      let size := if space > wr.resid then wr.resid else space
      let segsize := w.bp.size - w.bp.in_
      let segsize := if segsize > size then size else segsize
      w.goto c (.writeCopy wr size segsize)
    else if w.wflag then writeExit w c wr (some .EAGAIN)
    else if wr.restart then writeExit w c wr (some .ERESTART)
    else { w with lockfl := false }.goto c (.writeWait wr)

/-- Under the lock for the first time. `grow` is the larger buffer that may be had. -/
def writeLocked (w : World) (c : Nat) (wr : Writer) (grow : Option (Nat → BitVec 8)) : World :=
  if wr.resid > pipeSize ∧ w.bp.size ≤ pipeSize ∧ w.bp.cnt = 0 then
    match grow with
    | some buffer => writeLoop { w with bp := pipespace buffer bigPipeSize } c wr
    | none => writeLoop w c wr
  else writeLoop w c wr

def writeLocking (w : World) (c : Nat) (wr : Writer) (grow : Option (Nat → BitVec 8)) : World :=
  if w.lockfl then w.goto c (.writeLock wr) else writeLocked { w with lockfl := true } c wr grow

/-- As many as `k` bytes are copied from the memory of the call. -/
def World.fill (w : World) (a k : Nat) (wr : Writer) (done : Nat) : World :=
  { w with bp := { w.bp with buffer := copyTo w.bp.buffer a k fun i => wr.base (done + i) } }

def writeCommit (w : World) (c : Nat) (wr : Writer) (size segsize : Nat) : World :=
  let in_ := w.bp.in_ + size
  let in_ := if in_ ≥ w.bp.size then size - segsize else in_
  writeLoop { w with
    bp := { w.bp with in_ := in_, cnt := w.bp.cnt + size }
    accepted := w.accepted ++ [(c, wr.chunk wr.done size)] } c
    { wr with done := wr.done + size, resid := wr.resid - size, restart := false }

/-- Under the lock again after the wait for space, of which `error` is the answer. -/
def writeRelocked (w : World) (c : Nat) (wr : Writer) (error : Option Errno) : World :=
  if error.isSome then writeExit w c wr error
  else if w.eof then writeExit w c wr (some .EPIPE)
  else writeLoop w c { wr with restart := w.restart }

def writeRelocking (w : World) (c : Nat) (wr : Writer) (error : Option Errno) : World :=
  if w.lockfl then w.goto c (.writeRelock wr error) else writeRelocked { w with lockfl := true } c wr error

inductive Label where
  | close
  | restart (b : Bool)
  | fcntl (rflag wflag : Bool)
  | read (c len : Nat)
  | write (c : Nat) (base : Nat → BitVec 8) (len : Nat) (grow : Option (Nat → BitVec 8))
  | lock (c : Nat) (grow : Option (Nat → BitVec 8))
  | signal (c : Nat) (error : Errno)
  | wake (c : Nat) (error : Option Errno)
  | copy (c : Nat)
  | fault (c k : Nat)
  | enter (c : Nat)

/-- A step of a call, from the phase it is in, or of somebody else. A wait for the lock ends in `lock` or, by a signal, in
`signal`; a wait for bytes or space ends in `wake`. Of a piece that cannot be copied some bytes may have been. -/
def next (w : World) : Label → Option World
  | .close => some { w with eof := true }
  | .restart b => some { w with restart := b }
  | .fcntl rflag wflag => some { w with rflag := rflag, wflag := wflag }
  | .read c len =>
    match w.phase c with
    | .idle => some (readLocking w c ⟨len, 0, false, []⟩)
    | _ => none
  | .write c base len grow =>
    match w.phase c with
    | .idle =>
      if w.eof then some (w.goto c (.writeDone ⟨base, 0, len, false⟩ (some .EPIPE)))
      else some (writeLocking w c ⟨base, 0, len, false⟩ grow)
    | _ => none
  | .lock c grow =>
    match w.phase c with
    | .readLock rd => some (readLocking w c rd)
    | .writeLock wr => some (writeLocking w c wr grow)
    | .writeRelock wr error => some (writeRelocking w c wr error)
    | _ => none
  | .signal c error =>
    match w.phase c with
    | .readLock rd => some (w.goto c (.readDone rd (some error)))
    | .writeLock wr => some (w.goto c (.writeDone wr (some error)))
    | _ => none
  | .wake c error =>
    match w.phase c with
    | .readWait rd =>
      match error with
      | some error => some (w.goto c (.readDone rd (some error)))
      | none => some (readLocking w c { rd with restart := w.restart })
    | .writeWait wr => some (writeRelocking w c wr error)
    | _ => none
  | .copy c =>
    match w.phase c with
    | .readCopy rd size => some (w.goto c (.readCopied rd size ((List.range size).map fun i => w.bp.buffer (w.bp.out + i))))
    | .writeCopy wr size segsize =>
      some ((w.fill w.bp.in_ segsize wr wr.done).goto c
        (if segsize < size then .writeRest wr size segsize else .writeCopied wr size segsize))
    | .writeRest wr size segsize =>
      some ((w.fill 0 (size - segsize) wr (wr.done + segsize)).goto c (.writeCopied wr size segsize))
    | _ => none
  | .fault c k =>
    match w.phase c with
    | .readCopy rd _ => some (w.goto c (.readFailed rd))
    | .writeCopy wr _ segsize => some ((w.fill w.bp.in_ (min k segsize) wr wr.done).goto c (.writeFailed wr))
    | .writeRest wr size segsize =>
      some ((w.fill 0 (min k (size - segsize)) wr (wr.done + segsize)).goto c (.writeFailed wr))
    | _ => none
  | .enter c =>
    match w.phase c with
    | .readCopied rd size bytes => some (readCommit w c rd size bytes)
    | .readFailed rd => some (readExit w c rd (some .EFAULT))
    | .writeCopied wr size segsize => some (writeCommit w c wr size segsize)
    | .writeFailed wr => some (writeExit w c wr (some .EFAULT))
    | _ => none

def created (buffer : Nat → BitVec 8) : World :=
  ⟨pipespace buffer pipeSize, false, false, false, false, false, fun _ => .idle, [], []⟩

def init (w : World) : Prop := ∃ buffer, w = created buffer

def system : System World Label := .ofStep init next

def bytes (log : List (Nat × List (BitVec 8))) : List (BitVec 8) := (log.map Prod.snd).flatten

def own (log : List (Nat × List (BitVec 8))) (c : Nat) : List (List (BitVec 8)) := (log.filter (·.1 = c)).map Prod.snd

/-- A read that returned an error. -/
def Phase.failed : Phase → Bool
  | .readDone _ (some _) => true
  | _ => false

/-- The bytes that reads have got which did not fail. -/
def World.handed (w : World) : List (BitVec 8) := bytes (w.taken.filter fun e => !(w.phase e.1).failed)

def Phase.writer : Phase → Option Writer
  | .writeLock wr | .writeCopy wr _ _ | .writeRest wr _ _ | .writeCopied wr _ _ | .writeFailed wr | .writeWait wr
  | .writeRelock wr _ | .writeDone wr _ => some wr
  | _ => none

end NetBSD.Kern.SysPipe
