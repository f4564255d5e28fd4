import NetBSD.Kern.Wapbl.Circ
import NetBSD.Lib.System

/-! The space of the WAPBL log (`sys/kern/vfs_wapbl.c`).

The log is a circular area; what is in use lies from the tail to the head, and an empty
log has both at 0. `wapbl_flush` makes room (`wapbl_truncate`), writes its transaction
at the head, moves the head over it and the tail over what is reclaimable, commits the
two and queues an entry for the buffers still to be written back. `wapbl_biodone`
counts those down and turns the entries at the front that are done into reclaimable
bytes.

A flush holds the writer lock, so there is one at a time; completions fall between any
two of its steps. The steps are cut at the commits and at the places where the mutex is
taken. There are no I/O errors, and the assertions of a DIAGNOSTIC kernel are not
checked. -/
namespace NetBSD.Kern.Wapbl
open Lib

section Space
variable (g : Circ)

def wapblSpaceUsed (head tail : Nat) : Nat :=
  if tail = 0 then 0 else (head + (g.circSize - 1) - tail) % g.circSize + 1

def wapblAdvance (oldoff delta : Nat) : Nat :=
  if oldoff = 0 ∧ delta ≠ 0 then g.circOff + delta
  else if oldoff + delta < g.circSize + g.circOff then oldoff + delta
  else oldoff + delta - g.circSize

def wapblSpaceFree (head tail : Nat) : Nat := g.circSize - wapblSpaceUsed g head tail

/-- `wapbl_advance_head` on a head and a tail. -/
def wapblAdvanceHead (delta : Nat) (ht : Nat × Nat) : Nat × Nat :=
  let head := wapblAdvance g ht.1 delta
  (head, if ht.2 = 0 ∧ head ≠ 0 then g.circOff else ht.2)

/-- `wapbl_advance_tail` on a head and a tail. -/
def wapblAdvanceTail (delta : Nat) (ht : Nat × Nat) : Nat × Nat :=
  let tail := wapblAdvance g ht.2 delta
  if ht.1 = tail then (0, 0) else (ht.1, tail)

end Space

/-- `struct wapbl_entry`. `start` is where the transaction lies in the log; the source
does not keep it. -/
structure WapblEntry where
  bufcount : Nat
  reclaimableBytes : Nat
  start : Nat
  deriving DecidableEq

/-- A transaction with something to write: its buffers, `wapbl_transaction_len` and the
part of it that `wapbl_transaction_inodes_len` gives, 0 when no inodes are registered. -/
structure Transaction where
  bufcount : Nat
  flushsize : Nat
  reserved : Nat
  bufcount_pos : 0 < bufcount
  flushsize_pos : 0 < flushsize
  reserved_le : reserved ≤ flushsize
  deriving DecidableEq

/-- A flush under way: its transaction, if there is one, and the `waitfor` flag. -/
structure Flush where
  tx : Option Transaction
  waitfor : Bool

/-- What the flush does when `wapbl_truncate` returns. -/
inductive After where
  | write (tx : Transaction) (waitfor : Bool)
  | out
  deriving DecidableEq

/-- Where the flush stands. `head`, `tail` and `delta` are its local variables. -/
inductive Pc where
  | idle
  /-- In `wapbl_truncate`, at its start or waiting for completions. -/
  | truncate (minfree : Nat) (after : After)
  /-- In `wapbl_truncate`, before its commit. -/
  | truncateCommit (head tail delta : Nat) (after : After)
  /-- In `wapbl_truncate`, after its commit. -/
  | truncateUpdate (head tail delta : Nat) (after : After)
  /-- The records are written, the head is still to be advanced. -/
  | advance (tx : Transaction) (waitfor : Bool)
  | commit (head tail delta : Nat) (tx : Transaction) (waitfor : Bool)
  | update (head tail delta : Nat) (tx : Transaction) (waitfor : Bool)
  /-- `wait_out`. -/
  | waitOut (waitfor : Bool)
  deriving DecidableEq

/-- `struct wapbl`, as far as it accounts for space. -/
structure Log where
  head : Nat
  tail : Nat
  reclaimableBytes : Nat
  reservedBytes : Nat
  entries : List WapblEntry
  /-- Head and tail of the last commit on disk. -/
  committed : Nat × Nat
  pc : Pc
  deriving DecidableEq

section Steps
variable (g : Circ)

def After.pc : After → Pc
  | .write tx waitfor => .advance tx waitfor
  | .out => .idle

/-- Start of a flush. A transaction that is too big panics. -/
def wapblFlush (wl : Log) (fl : Flush) : Option Log :=
  match fl.tx with
  | none => some {wl with pc := .waitOut fl.waitfor}
  | some tx =>
    if tx.flushsize > g.circSize - wl.reservedBytes then none
    else some {wl with pc := .truncate tx.flushsize (.write tx fl.waitfor)}

/-- The part of the reclaimable bytes that `wapbl_truncate` gives back: be sure to keep
the reserved bytes reserved if all of the entries are flushed. -/
def truncateDelta (wl : Log) : Nat :=
  if wl.entries = [] ∧ wl.reclaimableBytes ≥ wl.reservedBytes then wl.reclaimableBytes - wl.reservedBytes
  else wl.reclaimableBytes

/-- `wapbl_truncate` up to its commit; `none` while it sleeps. -/
def wapblTruncate (wl : Log) (minfree : Nat) (after : After) : Option Log :=
  let avail := wapblSpaceFree g wl.head wl.tail
  if minfree < avail then some {wl with pc := after.pc}
  else if wl.reclaimableBytes < minfree - avail then none
  else
    let ht := wapblAdvanceTail g (truncateDelta wl) (wl.head, wl.tail)
    some {wl with pc := .truncateCommit ht.1 ht.2 (truncateDelta wl) after}

/-- The next step of the flush under way; `none` when it waits or there is none. -/
def wapblFlushStep (wl : Log) : Option Log :=
  match wl.pc with
  | .idle => none
  | .truncate minfree after => wapblTruncate g wl minfree after
  | .truncateCommit head tail delta after =>
    some {wl with committed := (head, tail), pc := .truncateUpdate head tail delta after}
  | .truncateUpdate head tail delta after =>
    some {wl with
      head := head, tail := tail, reclaimableBytes := wl.reclaimableBytes - delta, pc := after.pc}
  | .advance tx waitfor =>
    -- Opportunistically move the tail forward if we can.
    let delta := wl.reclaimableBytes
    let ht := wapblAdvanceTail g delta (wapblAdvanceHead g tx.flushsize (wl.head, wl.tail))
    some {wl with pc := .commit ht.1 ht.2 delta tx waitfor}
  | .commit head tail delta tx waitfor =>
    some {wl with committed := (head, tail), pc := .update head tail delta tx waitfor}
  | .update head tail delta tx waitfor =>
    let we : WapblEntry := ⟨tx.bufcount, tx.flushsize, if wl.head = 0 then g.circOff else wl.head⟩
    some {wl with
      head := head, tail := tail, reclaimableBytes := wl.reclaimableBytes - delta
      reservedBytes := tx.reserved, entries := wl.entries ++ [we], pc := .waitOut waitfor}
  | .waitOut waitfor =>
    if waitfor then some {wl with pc := .truncate (g.circSize - wl.reservedBytes) .out}
    else some {wl with pc := .idle}

/-- Entries at the front that are all written back: the bytes reclaimed, and the rest. -/
def reclaim : List WapblEntry → Nat × List WapblEntry
  | [] => (0, [])
  | we :: rest =>
    if we.bufcount = 0 then (we.reclaimableBytes + (reclaim rest).1, (reclaim rest).2)
    else (0, we :: rest)

/-- `wapbl_biodone` for a buffer of the `i`-th entry. -/
def wapblBiodone (wl : Log) (i : Nat) : Option Log :=
  match wl.entries[i]? with
  | none => none
  | some we =>
    if we.bufcount = 0 then none
    else
      let entries := wl.entries.set i {we with bufcount := we.bufcount - 1}
      if we.bufcount - 1 = 0 then
        some {wl with
          reclaimableBytes := wl.reclaimableBytes + (reclaim entries).1
          entries := (reclaim entries).2}
      else some {wl with entries := entries}

inductive SpaceAction where
  | flush (fl : Flush)
  | flushStep
  | biodone (i : Nat)

def spaceStep (wl : Log) : SpaceAction → Option Log
  | .flush fl => if wl.pc = .idle then wapblFlush g wl fl else none
  | .flushStep => wapblFlushStep g wl
  | .biodone i => wapblBiodone wl i

def emptyLog : Log := ⟨0, 0, 0, 0, [], (0, 0), .idle⟩

def spaceSystem : System Log SpaceAction := .ofStep (fun wl => wl = emptyLog) (spaceStep g)

end Steps

end NetBSD.Kern.Wapbl
