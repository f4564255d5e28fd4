import Mathlib.Algebra.Order.BigOperators.Group.List
import Mathlib.Algebra.Order.Group.Nat
import NetBSD.Kern.Wapbl.Space
import NetBSD.Kern.Wapbl.Stream

/-! The head that the WAPBL log accounts for and the offset its writers reach
(`sys/kern/vfs_wapbl.c`).

`wapbl_flush` lets three writers run from the head on and then advances the head by
`wapbl_transaction_len`, without comparing the two. Where the writers end depends on
lengths only, so their offsets are followed here on their own (`writeTx_snd`), for any
area. Both are moves by the same length around the ring, with one exception: a
transaction of the size of the area, written into an empty log, leaves the writers at
the start of the area and the head at its end (`advance_agrees_iff`). -/
namespace NetBSD.Kern.Wapbl
open List Nat
open Lib Ring

section Offsets
variable (g : Circ) (blocklen : Nat)

/-- `wapbl_circ_write`, the offset alone. -/
def circWriteOff (len off : Nat) : Nat :=
  let off := if off < g.circOff then g.circOff else off
  let slen := g.circOff + g.circSize - off
  let off := if slen < len then g.circOff + (len - slen) else off + len
  if off ≥ g.circOff + g.circSize then g.circOff else off

/-- How many blocks, and how many inodes, one record describes. -/
def blocksPerRecord : Nat := (blocklen - 16) / 16
def inodesPerRecord : Nat := (blocklen - 16) / 8

/-- One round of `wapbl_write_blocks`. -/
def writeBlockListOff (off : Nat) (bps : List Buf) : Nat :=
  let wcLen := blocklen + bcountSum bps
  let padding := if wcLen % blocklen ≠ 0 then blocklen - wcLen % blocklen else 0
  let off := circWriteOff g blocklen off
  let off := bps.foldl (fun off bp => circWriteOff g bp.bBcount off) off
  if padding ≠ 0 then circWriteOff g padding off else off

def writeBlocksOff (bufs : List Buf) (off : Nat) : Nat :=
  (groups (blocksPerRecord blocklen) bufs).foldl (writeBlockListOff g blocklen) off

def writeRevocationsOff (deallocs : List Dealloc) (off : Nat) : Nat :=
  (groups (blocksPerRecord blocklen) deallocs).foldl (fun off _ => circWriteOff g blocklen off) off

def writeInodesOff (inodes : List WcInode) (off : Nat) : Nat :=
  match groups (inodesPerRecord blocklen) inodes with
  | [] => circWriteOff g blocklen off
  | _ :: rest => rest.foldl (fun off _ => circWriteOff g blocklen off) (circWriteOff g blocklen off)

def writeTxOff (tx : Tx) (off : Nat) : Nat :=
  writeInodesOff g blocklen tx.inodes (writeRevocationsOff g blocklen tx.deallocs
    (writeBlocksOff g blocklen tx.bufs off))

def transactionLen (tx : Tx) : Nat :=
  bcountSum tx.bufs + howmany tx.bufs.length (blocksPerRecord blocklen) * blocklen +
    howmany tx.deallocs.length (blocksPerRecord blocklen) * blocklen +
    max 1 (howmany tx.inodes.length (inodesPerRecord blocklen)) * blocklen

end Offsets

section Writers
variable (g : Geometry)

end Writers

/-! ### Moves around the ring -/

section Moves
variable {g : Circ} {blocklen : Nat}

/-- The offset a write begins at. -/
def beginOff (g : Circ) (off : Nat) : Nat := if off < g.circOff then g.circOff else off

theorem beginOff_of_inRange {off : Nat} (h : InRange g.circOff g.circSize off) : beginOff g off = off :=
  if_neg (not_lt.mpr h.1)

theorem circWriteOff_eq {len off : Nat} (h : InRange g.circOff g.circSize (beginOff g off)) (hlen : len ≤ g.circSize) :
    circWriteOff g len off = move g.circOff g.circSize (beginOff g off) len := by
  have hr := h
  unfold InRange at hr
  rw [move_eq h hlen]
  simp only [circWriteOff]
  rw [← beginOff]
  split_ifs <;> omega

/-- A step takes an offset that a write can begin at to one `n` bytes on. -/
def Advances (g : Circ) (f : Nat → Nat) (n : Nat) : Prop :=
  ∀ off, InRange g.circOff g.circSize (beginOff g off) → beginOff g (f off) = move g.circOff g.circSize (beginOff g off) n

theorem Advances.inRange {f : Nat → Nat} {n : Nat} (h : Advances g f n) {off : Nat}
    (hoff : InRange g.circOff g.circSize (beginOff g off)) : InRange g.circOff g.circSize (beginOff g (f off)) := by
  rw [h off hoff]
  exact move_inRange g.size_pos ..

theorem Advances.comp {f f' : Nat → Nat} {m n : Nat} (h : Advances g f m) (h' : Advances g f' n) : Advances g (fun off => f' (f off)) (m + n) := by
  intro off hoff
  rw [h' _ (h.inRange hoff), h off hoff, move_move]

theorem circWriteOff_advances {len : Nat} (hlen : len ≤ g.circSize) : Advances g (circWriteOff g len) len := by
  intro off hoff
  rw [circWriteOff_eq hoff hlen]
  exact beginOff_of_inRange (move_inRange g.size_pos ..)

theorem foldl_advances {β : Type} {f : Nat → β → Nat} {n : β → Nat} {l : List β}
    (h : ∀ x ∈ l, Advances g (f · x) (n x)) : Advances g (fun off => l.foldl f off) (l.map n).sum := by
  induction l with
  | nil =>
    intro off hoff
    exact (move_zero hoff).symm
  | cons x l ih =>
    exact (h x mem_cons_self).comp (ih fun y hy => h y (mem_cons_of_mem _ hy))

section
variable {β : Type} (hlen : blocklen ≤ g.circSize) (l : List β)
include hlen l

theorem foldl_records_advances : Advances g (fun off => l.foldl (fun off _ => circWriteOff g blocklen off) off) (l.length * blocklen) := by
  have h := @foldl_advances g β (fun off _ => circWriteOff g blocklen off) (fun _ => blocklen) l
    fun _ _ => circWriteOff_advances hlen
  rwa [map_const', sum_replicate_nat] at h

theorem foldl_records_inRange {off : Nat} (h : InRange g.circOff g.circSize off) :
    InRange g.circOff g.circSize (l.foldl (fun off _ => circWriteOff g blocklen off) off) := by
  induction l generalizing off with
  | nil => exact h
  | cons x l ih =>
    refine ih ?_
    show InRange _ _ (circWriteOff g blocklen off)
    rw [circWriteOff_eq ((beginOff_of_inRange h).symm ▸ h) hlen]
    exact move_inRange g.size_pos ..

end

theorem writeBlockListOff_advances {bps : List Buf} (hdvd : ∀ bp ∈ bps, blocklen ∣ bp.bBcount)
    (hlen : blocklen + bcountSum bps ≤ g.circSize) :
    Advances g (writeBlockListOff g blocklen · bps) (blocklen + bcountSum bps) := by
  have hsum : blocklen ∣ bcountSum bps := by
    refine @List.dvd_sum Nat _ _ _ fun n hn => ?_
    obtain ⟨bp, hbp, rfl⟩ := mem_map.mp hn
    exact hdvd bp hbp
  have hpad : (blocklen + bcountSum bps) % blocklen = 0 := by
    rw [add_mod_left]
    exact mod_eq_zero_of_dvd hsum
  have hdata : Advances g (fun off => bps.foldl (fun off bp => circWriteOff g bp.bBcount off) off) (bcountSum bps) := by
    refine foldl_advances fun bp hbp => circWriteOff_advances ?_
    have : bp.bBcount ≤ bcountSum bps := single_le_sum (by simp) _ (mem_map_of_mem hbp)
    omega
  intro off hoff
  simp only [writeBlockListOff, hpad, ne_eq, not_true_eq_false, if_false]
  exact ((circWriteOff_advances (by omega)).comp hdata) off hoff

theorem bcountSum_flatten (bpss : List (List Buf)) : (bpss.map bcountSum).sum = bcountSum bpss.flatten := by
  simp only [bcountSum, map_flatten, sum_flatten, map_map]
  rfl

section Transaction
variable {tx : Tx} (hblk : 32 ≤ blocklen) (hfit : transactionLen blocklen tx ≤ g.circSize)
include hblk

theorem blocksPerRecord_pos : 0 < blocksPerRecord blocklen := by
  unfold blocksPerRecord
  omega

theorem inodesPerRecord_pos : 0 < inodesPerRecord blocklen := by
  unfold inodesPerRecord
  omega

omit hblk
include hfit

theorem blocklen_le : blocklen ≤ g.circSize := by
  have : 1 * blocklen ≤ max 1 (howmany tx.inodes.length (inodesPerRecord blocklen)) * blocklen :=
    Nat.mul_le_mul_right _ (le_max_left ..)
  unfold transactionLen at hfit
  omega

include hblk

theorem writeBlocksOff_advances (hdvd : ∀ bp ∈ tx.bufs, blocklen ∣ bp.bBcount) : Advances g (writeBlocksOff g blocklen tx.bufs)
      (bcountSum tx.bufs + howmany tx.bufs.length (blocksPerRecord blocklen) * blocklen) := by
  have hpos := blocksPerRecord_pos hblk
  have hsum : ((groups (blocksPerRecord blocklen) tx.bufs).map fun bps => blocklen + bcountSum bps).sum =
      bcountSum tx.bufs + howmany tx.bufs.length (blocksPerRecord blocklen) * blocklen := by
    rw [sum_map_add, bcountSum_flatten, groups_flatten hpos, map_const', sum_replicate_nat, groups_length hpos, add_comm]
  rw [← hsum]
  refine foldl_advances fun bps hbps => writeBlockListOff_advances
    (fun bp hbp => hdvd bp (mem_of_mem_groups hpos hbps hbp)) ?_
  have hle : blocklen + bcountSum bps ≤ _ :=
    single_le_sum (by simp) _ (mem_map_of_mem (f := fun bps => blocklen + bcountSum bps) hbps)
  unfold transactionLen at hfit
  omega

theorem writeRevocationsOff_advances : Advances g (writeRevocationsOff g blocklen tx.deallocs)
    (howmany tx.deallocs.length (blocksPerRecord blocklen) * blocklen) := by
  rw [← groups_length (blocksPerRecord_pos hblk)]
  exact foldl_records_advances (blocklen_le hfit) _

theorem writeInodesOff_eq {off : Nat} (hoff : InRange g.circOff g.circSize (beginOff g off)) :
    writeInodesOff g blocklen tx.inodes off = move g.circOff g.circSize (beginOff g off)
      (max 1 (howmany tx.inodes.length (inodesPerRecord blocklen)) * blocklen) := by
  have hle := blocklen_le hfit
  have hfirst := circWriteOff_eq hoff hle
  rw [← groups_length (inodesPerRecord_pos hblk)]
  simp only [writeInodesOff]
  cases groups (inodesPerRecord blocklen) tx.inodes with
  | nil =>
    rw [hfirst]
    simp
  | cons first rest =>
    have hrest := foldl_records_inRange hle rest (hfirst ▸ move_inRange g.size_pos ..)
    have hall := ((circWriteOff_advances hle).comp (foldl_records_advances hle rest)) off hoff
    simp only at hall ⊢
    rw [beginOff_of_inRange hrest] at hall
    rw [hall, length_cons, max_eq_right (by omega), succ_mul, add_comm]

theorem writeTxOff_eq (hdvd : ∀ bp ∈ tx.bufs, blocklen ∣ bp.bBcount) {off : Nat} (hoff : InRange g.circOff g.circSize (beginOff g off)) :
    writeTxOff g blocklen tx off = move g.circOff g.circSize (beginOff g off) (transactionLen blocklen tx) := by
  have hadv := (writeBlocksOff_advances hblk hfit hdvd).comp (writeRevocationsOff_advances hblk hfit)
  rw [writeTxOff, writeInodesOff_eq hblk hfit (hadv.inRange hoff), hadv off hoff, move_move, transactionLen]

end Transaction
end Moves

/-! ### The head -/

section Head
variable {g : Circ} {head tail len : Nat}

/-- An empty log, or one whose ends are in the area. -/
def Legal (g : Circ) (head tail : Nat) : Prop :=
  head = 0 ∧ tail = 0 ∨ InRange g.circOff g.circSize head ∧ InRange g.circOff g.circSize tail

theorem Legal.begin (h : Legal g head tail) : InRange g.circOff g.circSize (beginOff g head) := by
  obtain ⟨rfl, -⟩ | ⟨hhead, -⟩ := h
  · rw [beginOff, if_pos g.off_pos]
    exact inRange_off g.size_pos
  · rwa [beginOff_of_inRange hhead]

theorem wapblSpaceUsed_eq (hhead : InRange g.circOff g.circSize head) (htail : InRange g.circOff g.circSize tail) :
    wapblSpaceUsed g head tail = if tail < head then head - tail else head + g.circSize - tail := by
  have hoff := g.off_pos
  unfold InRange at hhead htail
  rw [wapblSpaceUsed, if_neg (by omega)]
  split_ifs
  · rw [show head + (g.circSize - 1) - tail = head - tail - 1 + g.circSize by omega, add_mod_right, mod_eq_of_lt (by omega)]
    omega
  · rw [mod_eq_of_lt (by omega)]
    omega

theorem wapblSpaceUsed_advance (h : Legal g head tail) (hlen : 0 < len) (hfree : len ≤ wapblSpaceFree g head tail) :
    wapblSpaceUsed g (wapblAdvanceHead g len (head, tail)).1 (wapblAdvanceHead g len (head, tail)).2 = wapblSpaceUsed g head tail + len := by
  have hoff := g.off_pos
  have hsize := g.size_pos
  obtain ⟨rfl, rfl⟩ | ⟨hhead, htail⟩ := h
  · have hle : len ≤ g.circSize := hfree.trans (sub_le ..)
    have hht : wapblAdvanceHead g len (0, 0) = (g.circOff + len, g.circOff) := by
      simp only [wapblAdvanceHead, wapblAdvance, true_and]
      rw [if_pos hlen.ne', if_pos (by omega)]
    rw [hht, wapblSpaceUsed, wapblSpaceUsed, if_pos rfl, if_neg hoff.ne',
      show g.circOff + len + (g.circSize - 1) - g.circOff = len - 1 + g.circSize by omega, add_mod_right,
      mod_eq_of_lt (by omega)]
    omega
  have hused := wapblSpaceUsed_eq hhead htail
  rw [wapblSpaceFree, hused] at hfree
  have hr := hhead
  have hr' := htail
  unfold InRange at hr hr'
  have hadv : wapblAdvance g head len =
      if head + len < g.circSize + g.circOff then head + len else head + len - g.circSize := by
    rw [wapblAdvance, if_neg (by omega)]
  have hnew : InRange g.circOff g.circSize (wapblAdvance g head len) := by
    rw [hadv]
    unfold InRange
    split_ifs at hfree ⊢ <;> omega
  simp only [wapblAdvanceHead]
  rw [if_neg (by omega), wapblSpaceUsed_eq hnew htail, hused, hadv]
  split_ifs at hfree ⊢ <;> omega

theorem wapblAdvance_eq_iff (h : Legal g head tail) (hlen : 0 < len) (hle : len ≤ g.circSize) :
    wapblAdvance g head len = move g.circOff g.circSize (beginOff g head) len ↔ ¬ (head = 0 ∧ len = g.circSize) := by
  rw [move_eq h.begin hle]
  obtain ⟨rfl, -⟩ | ⟨hhead, -⟩ := h
  · rw [wapblAdvance, beginOff]
    split_ifs <;> omega
  have hr := hhead
  unfold InRange at hr
  rw [wapblAdvance, beginOff_of_inRange hhead]
  split_ifs <;> omega

end Head

/-- What the log accounts for is what is written: the head where the writers end, in the
area, and the space used grown by the length of the transaction. -/
structure AdvanceAgrees (g : Circ) (blocklen : Nat) (tx : Tx) (head tail : Nat) : Prop where
  reached : (wapblAdvanceHead g (transactionLen blocklen tx) (head, tail)).1 = writeTxOff g blocklen tx head
  inRange : InRange g.circOff g.circSize (wapblAdvanceHead g (transactionLen blocklen tx) (head, tail)).1
  used : wapblSpaceUsed g (wapblAdvanceHead g (transactionLen blocklen tx) (head, tail)).1
      (wapblAdvanceHead g (transactionLen blocklen tx) (head, tail)).2 =
    wapblSpaceUsed g head tail + transactionLen blocklen tx

theorem transactionLen_pos {blocklen : Nat} (h : 0 < blocklen) (tx : Tx) : 0 < transactionLen blocklen tx := by
  have : 1 * blocklen ≤ max 1 (howmany tx.inodes.length (inodesPerRecord blocklen)) * blocklen :=
    Nat.mul_le_mul_right _ (le_max_left ..)
  unfold transactionLen
  omega

/-- The accounts agree with the writers for every transaction that fits, but for one
that fills an empty log. -/
theorem advance_agrees_iff {g : Circ} {logDevBshift : Nat} (hshift : 9 ≤ logDevBshift) {tx : Tx}
    (hdvd : ∀ bp ∈ tx.bufs, 2 ^ logDevBshift ∣ bp.bBcount) {head tail : Nat} (h : Legal g head tail)
    (hfree : transactionLen (2 ^ logDevBshift) tx ≤ wapblSpaceFree g head tail) :
    AdvanceAgrees g (2 ^ logDevBshift) tx head tail ↔ ¬ (head = 0 ∧ transactionLen (2 ^ logDevBshift) tx = g.circSize) := by
  have hblk : 2 ^ 9 ≤ 2 ^ logDevBshift := Nat.pow_le_pow_right Nat.two_pos hshift
  have hpos := transactionLen_pos (by omega : 0 < 2 ^ logDevBshift) tx
  have hle : transactionLen (2 ^ logDevBshift) tx ≤ g.circSize := hfree.trans (sub_le ..)
  have hwriters := writeTxOff_eq (by omega) hle hdvd h.begin
  rw [← wapblAdvance_eq_iff h hpos hle, ← hwriters]
  constructor
  · intro hagrees
    exact hagrees.reached
  intro hreached
  have hhead : (wapblAdvanceHead g (transactionLen (2 ^ logDevBshift) tx) (head, tail)).1 = writeTxOff g (2 ^ logDevBshift) tx head := hreached
  refine ⟨hhead, ?_, wapblSpaceUsed_advance h hpos hfree⟩
  rw [hhead, hwriters]
  exact move_inRange g.size_pos ..

/-! A log of 64 Kbyte in blocks of 512 bytes, two of them for the commit headers. One
buffer, its record and the list of inodes fill the rest. -/

def sampleArea : Circ := ⟨1024, 64512, sample_off_pos, by decide⟩
def bufferTx (bcount : Nat) : Tx := ⟨[⟨64, replicate bcount 0⟩], [], []⟩

theorem bufferTx_len (bcount : Nat) : transactionLen 512 (bufferTx bcount) = bcount + 1024 := by
  simp [transactionLen, bufferTx, bcountSum, Buf.bBcount, howmany, blocksPerRecord, inodesPerRecord]

theorem bufferTx_bcount {bcount : Nat} {bp : Buf} (h : bp ∈ (bufferTx bcount).bufs) : bp.bBcount = bcount := by
  rw [mem_singleton.mp h, Buf.bBcount, length_replicate]

theorem advance_agrees_iff_half : AdvanceAgrees sampleArea (2 ^ 9) (bufferTx 32768) 0 0 := by
  have hlen : transactionLen (2 ^ 9) (bufferTx 32768) = 32768 + 1024 := bufferTx_len 32768
  refine (advance_agrees_iff (le_refl 9) (fun bp hbp => ?_) (.inl ⟨rfl, rfl⟩) ?_).mpr ?_
  · rw [bufferTx_bcount hbp]
    decide
  · rw [hlen]
    decide
  · rw [hlen]
    decide

theorem advance_filling_disagrees : Legal sampleArea 0 0 ∧ transactionLen (2 ^ 9) (bufferTx 63488) = wapblSpaceFree sampleArea 0 0 ∧
      (wapblAdvanceHead sampleArea (transactionLen (2 ^ 9) (bufferTx 63488)) (0, 0)).1 = 1024 + 64512 ∧
      writeTxOff sampleArea (2 ^ 9) (bufferTx 63488) 0 = 1024 := by
  have hlen : transactionLen (2 ^ 9) (bufferTx 63488) = 64512 := bufferTx_len 63488
  have hdvd : ∀ bp ∈ (bufferTx 63488).bufs, 2 ^ 9 ∣ bp.bBcount := by
    intro bp hbp
    rw [bufferTx_bcount hbp]
    decide
  have hstart : InRange sampleArea.circOff sampleArea.circSize (beginOff sampleArea 0) := by decide
  refine ⟨.inl ⟨rfl, rfl⟩, ?_, ?_, ?_⟩
  · rw [hlen]
    decide
  · rw [hlen]
    decide
  · rw [writeTxOff_eq (by decide) (by rw [hlen]; decide) hdvd hstart, hlen]
    decide

end NetBSD.Kern.Wapbl
