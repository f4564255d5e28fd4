import NetBSD.Kern.Wapbl.Circ

/-! The records of the WAPBL log, as `wapbl_write_blocks`, `wapbl_write_revocations` and
`wapbl_write_inodes` write them and `wapbl_replay_process` reads them back
(`sys/kern/vfs_wapbl.c`).

A transaction is a number of records of one log block each: lists of blocks, each list
followed by the data of its blocks, lists of revocations, and lists of inodes, of which
there is always one. Replay enters the file system blocks it meets into a hash with
their offset in the log, removes what is revoked, and keeps the inodes of the last
list; `wapbl_replay_write` copies what the hash has from the log to its place.

A byte of the log is a data byte or some byte of a record; the layout within a record's
block plays no part. -/
namespace NetBSD.Kern.Wapbl

abbrev Byte := BitVec 8

structure WcBlock where
  wcDaddr : Int
  wcDlen : Nat
  deriving DecidableEq

structure WcInode where
  wcInumber : BitVec 32
  wcImode : BitVec 32
  deriving DecidableEq

inductive Record where
  | blocks (wcLen : Nat) (wcBlocks : List WcBlock)
  | revocations (wcLen : Nat) (wcBlocks : List WcBlock)
  | inodes (wcLen : Nat) (wcClear : Bool) (wcInodes : List WcInode)
  deriving DecidableEq

def Record.wcLen : Record → Nat
  | .blocks wcLen _ | .revocations wcLen _ | .inodes wcLen _ _ => wcLen

inductive Cell where
  | byte (b : Byte)
  /-- The `i`-th byte of the log block of a record. -/
  | record (r : Record) (i : Nat)
  deriving DecidableEq

abbrev Disk := Nat → Cell

/-- A buffer of the transaction: `b_blkno` and its `b_bcount` bytes. -/
structure Buf where
  bBlkno : Int
  bData : List Byte

def Buf.bBcount (bp : Buf) : Nat := bp.bData.length

structure Dealloc where
  wdBlkno : Int
  wdLen : Nat

structure Tx where
  bufs : List Buf
  deallocs : List Dealloc
  inodes : List WcInode

section Write
variable (g : Geometry)

/-- Block records per journal block. -/
def brperjblock : Nat := (g.logBlk - 16) / 16

def iph : Nat := (g.logBlk - 16) / 8

/-- The list in pieces of `n`, the last one perhaps shorter: the rounds of a loop that
takes up to `n` at a time. -/
def groups {α : Type} (n : Nat) (l : List α) : List (List α) := go l.length l
where
  go : Nat → List α → List (List α)
    | 0, _ => []
    | fuel + 1, l => if l.isEmpty then [] else l.take n :: go fuel (l.drop n)

def recordCells (r : Record) : List Cell := (List.range g.logBlk).map (Cell.record r)

def dataCells (data : List Byte) : List Cell := data.map Cell.byte

def bcountSum (bps : List Buf) : Nat := (bps.map Buf.bBcount).sum

/-- One round of `wapbl_write_blocks`: the record, the data, and padding up to a log
block. -/
def writeBlockList (st : Disk × Nat) (bps : List Buf) : Disk × Nat :=
  let wcLen := g.logBlk + bcountSum bps
  let padding := if wcLen % g.logBlk ≠ 0 then g.logBlk - wcLen % g.logBlk else 0
  let wc := Record.blocks (wcLen + padding) (bps.map fun bp => ⟨bp.bBlkno, bp.bBcount⟩)
  let st := wapblCircWrite g (recordCells g wc) st
  let st := bps.foldl (fun st bp => wapblCircWrite g (dataCells bp.bData) st) st
  if padding ≠ 0 then wapblCircWrite g (List.replicate padding (.byte 0)) st else st

def wapblWriteBlocks (bufs : List Buf) (st : Disk × Nat) : Disk × Nat :=
  (groups (brperjblock g) bufs).foldl (writeBlockList g) st

def wapblWriteRevocations (deallocs : List Dealloc) (st : Disk × Nat) : Disk × Nat :=
  (groups (brperjblock g) deallocs).foldl (fun st wds =>
    wapblCircWrite g (recordCells g (.revocations g.logBlk (wds.map fun wd => ⟨wd.wdBlkno, wd.wdLen⟩))) st) st

/-- `wapbl_write_inodes`: the first list, written even if it is empty, clears those of
the transactions before. -/
def wapblWriteInodes (inodes : List WcInode) (st : Disk × Nat) : Disk × Nat :=
  match groups (iph g) inodes with
  | [] => wapblCircWrite g (recordCells g (.inodes g.logBlk true [])) st
  | first :: rest => rest.foldl
      (fun st wis => wapblCircWrite g (recordCells g (.inodes g.logBlk false wis)) st)
      (wapblCircWrite g (recordCells g (.inodes g.logBlk true first)) st)

/-- The records of one transaction, as `wapbl_flush` has them written. -/
def writeTx (st : Disk × Nat) (tx : Tx) : Disk × Nat :=
  wapblWriteInodes g tx.inodes (wapblWriteRevocations g tx.deallocs (wapblWriteBlocks g tx.bufs st))

def howmany (x y : Nat) : Nat := (x + (y - 1)) / y

def wapblTransactionInodesLen (tx : Tx) : Nat := max 1 (howmany tx.inodes.length (iph g)) * g.logBlk

def wapblTransactionLen (tx : Tx) : Nat :=
  bcountSum tx.bufs + howmany tx.bufs.length (brperjblock g) * g.logBlk +
    howmany tx.deallocs.length (brperjblock g) * g.logBlk + wapblTransactionInodesLen g tx

end Write

/-! ### Replay -/

structure WapblBlk where
  wbBlk : Int
  wbOff : Nat
  deriving DecidableEq

/-- `struct wapbl_replay`. A block is found in one chain of the hash only, so the chains
are one list. -/
structure Replay where
  blkhash : List WapblBlk
  inodes : List WcInode
  inodeshead : Nat
  inodestail : Nat
  deriving DecidableEq

inductive ReplayError where
  | eftype
  deriving DecidableEq

def wapblBlkhashGet (h : List WapblBlk) (blk : Int) : Option WapblBlk := h.find? fun wb => wb.wbBlk = blk

def wapblBlkhashIns (h : List WapblBlk) (blk : Int) (off : Nat) : List WapblBlk :=
  match wapblBlkhashGet h blk with
  | some _ => h.map fun wb => if wb.wbBlk = blk then {wb with wbOff := off} else wb
  | none => ⟨blk, off⟩ :: h

def wapblBlkhashRem (h : List WapblBlk) (blk : Int) : List WapblBlk := h.filter fun wb => wb.wbBlk ≠ blk

def btodb (n : Nat) : Nat := n / 512

def wapblBlockDaddr (b : WcBlock) (j blen : Nat) : Int := b.wcDaddr + btodb (j * blen)

section Process
variable (g : Geometry)

/-- The number of file system blocks of a member of `wc_blocks`. -/
def fsBlocks (b : WcBlock) : Nat := b.wcDlen / g.fsBlk

/-- Enter each physical block into the hashtable independently. -/
def enterBlock (b : WcBlock) (st : List WapblBlk × Nat) (j : Nat) : List WapblBlk × Nat :=
  (wapblBlkhashIns st.1 (wapblBlockDaddr b j g.fsBlk) st.2, wapblCircAdvance g g.fsBlk st.2)

def wapblReplayProcessBlocks (wcBlocks : List WcBlock) (st : List WapblBlk × Nat) : List WapblBlk × Nat :=
  wcBlocks.foldl (fun st b => (List.range (fsBlocks g b)).foldl (enterBlock g b) st) st

def wapblReplayProcessRevocations (wcBlocks : List WcBlock) (h : List WapblBlk) : List WapblBlk :=
  wcBlocks.foldl (fun h b => (List.range (fsBlocks g b)).foldl
    (fun h j => wapblBlkhashRem h (wapblBlockDaddr b j g.fsBlk)) h) h

def wapblReplayProcessInodes (wr : Replay) (oldoff newoff : Nat) (wcClear : Bool) (wcInodes : List WcInode) : Replay :=
  let wr := if wcClear then {wr with inodestail := oldoff, inodes := []} else wr
  {wr with inodeshead := newoff, inodes := wr.inodes ++ wcInodes}

/-- The record a log block begins with; its type is unrecognized if there is none. -/
def recordOf : List Cell → Option Record
  | .record r 0 :: _ => some r
  | _ => none

/-- The `switch` on the type of a record found at `saveoff`, with `off` behind it. -/
def processRecord (wr : Replay) (saveoff off : Nat) : Record → Replay × Nat
  | .blocks _ wcBlocks =>
    let r := wapblReplayProcessBlocks g wcBlocks (wr.blkhash, off)
    ({wr with blkhash := r.1}, r.2)
  | .revocations _ wcBlocks => ({wr with blkhash := wapblReplayProcessRevocations g wcBlocks wr.blkhash}, off)
  | .inodes _ wcClear wcInodes => (wapblReplayProcessInodes wr saveoff off wcClear wcInodes, off)

/-- The loop of `wapbl_replay_process`, up to `fuel` rounds of it. -/
def replayLoop (disk : Disk) (head : Nat) : Nat → Replay → Nat → Option (Except ReplayError Replay)
  | fuel, wr, off =>
    if off = head then some (.ok wr)
    else match fuel with
      | 0 => none
      | fuel + 1 =>
        let read := wapblCircRead g disk g.logBlk off
        match recordOf read.1 with
        | none => some (.error .eftype)
        | some wcn =>
          let r := processRecord g wr off read.2 wcn
          if r.2 ≠ wapblCircAdvance g wcn.wcLen off then some (.error .eftype)
          else replayLoop disk head fuel r.1 r.2

/-- `wapbl_replay_process`, from an empty hash and no inodes. -/
def wapblReplayProcess (disk : Disk) (head tail fuel : Nat) : Option (Except ReplayError Replay) :=
  replayLoop g disk head fuel ⟨[], [], 0, 0⟩ tail

/-- The writes of `wapbl_replay_write`: which block gets what. -/
def wapblReplayWrite (disk : Disk) (wr : Replay) : List (Int × List Cell) :=
  wr.blkhash.map fun wb => (wb.wbBlk, (wapblCircRead g disk g.fsBlk wb.wbOff).1)

end Process

/-! ### What a log is to be replayed to -/

/-- A file system block in the log: written, with its offset there and its bytes, or
revoked. -/
inductive Mention where
  | written (blk : Int) (off : Nat) (data : List Byte)
  | revoked (blk : Int)

def Mention.blk : Mention → Int
  | .written blk _ _ | .revoked blk => blk

section Mentions
variable (g : Geometry) (start : Nat)

/-- The offset of a position in the log. -/
def logOff (pos : Nat) : Nat := Lib.Ring.move g.circOff g.circSize start pos

/-- The blocks of a buffer whose data begins at `pos`. -/
def bufMentions (pos : Nat) (bp : Buf) : List Mention :=
  (List.range (bp.bBcount / g.fsBlk)).map fun j =>
    .written (bp.bBlkno + btodb (j * g.fsBlk)) (logOff g start (pos + j * g.fsBlk))
      ((bp.bData.drop (j * g.fsBlk)).take g.fsBlk)

def bufsMentions : Nat → List Buf → List Mention
  | _, [] => []
  | pos, bp :: rest => bufMentions g start pos bp ++ bufsMentions (pos + bp.bBcount) rest

/-- Lists of blocks, each behind its record. -/
def blockListsMentions : Nat → List (List Buf) → List Mention
  | _, [] => []
  | pos, bps :: rest =>
    bufsMentions g start (pos + g.logBlk) bps ++ blockListsMentions (pos + g.logBlk + bcountSum bps) rest

def deallocMentions (wd : Dealloc) : List Mention :=
  (List.range (wd.wdLen / g.fsBlk)).map fun j => .revoked (wd.wdBlkno + btodb (j * g.fsBlk))

def txMentions (pos : Nat) (tx : Tx) : List Mention :=
  blockListsMentions g start pos (groups (brperjblock g) tx.bufs) ++ tx.deallocs.flatMap (deallocMentions g)

def txsMentions : Nat → List Tx → List Mention
  | _, [] => []
  | pos, tx :: rest => txMentions g start pos tx ++ txsMentions (pos + wapblTransactionLen g tx) rest

end Mentions

def lastMention (ms : List Mention) (blk : Int) : Option Mention := ms.reverse.find? fun m => m.blk = blk

end NetBSD.Kern.Wapbl
