import NetBSD.Kern.Wapbl.Journal
import Mathlib.Algebra.BigOperators.Ring.List
import Mathlib.Algebra.Ring.Nat

/-! What the writers of the WAPBL log leave in it.

A unit is a record with the data behind it, and a transaction is a list of units. Written
one behind the other, the transactions are one list of bytes in the ring: the cells of
their units, and as long as `wapbl_transaction_len` says. -/
namespace NetBSD.Kern.Wapbl
open List Nat
open Lib Ring

/-! ### Groups -/

section Groups
variable {α : Type} {n : Nat}

theorem groups_go_flatten (hn : 0 < n) (fuel : Nat) (l : List α) (hl : l.length ≤ fuel) : (groups.go n fuel l).flatten = l := by
  induction fuel generalizing l with
  | zero => exact (eq_nil_of_length_eq_zero (by omega)).symm
  | succ fuel ih =>
    cases l with
    | nil => rfl
    | cons x l =>
      rw [length_cons] at hl
      rw [groups.go, isEmpty_cons, if_neg Bool.false_ne_true, flatten_cons, ih _ (by rw [length_drop, length_cons]; omega), take_append_drop]

theorem groups_flatten (hn : 0 < n) (l : List α) : (groups n l).flatten = l :=
  groups_go_flatten hn l.length l (le_refl _)

theorem groups_go_length (hn : 0 < n) (fuel : Nat) (l : List α) (hl : l.length ≤ fuel) : (groups.go n fuel l).length = howmany l.length n := by
  unfold howmany
  induction fuel generalizing l with
  | zero =>
    rw [eq_nil_of_length_eq_zero (show l.length = 0 by omega)]
    exact (div_eq_of_lt (by simp only [length_nil]; omega)).symm
  | succ fuel ih =>
    cases l with
    | nil => exact (div_eq_of_lt (by simp only [length_nil]; omega)).symm
    | cons x l =>
      rw [length_cons] at hl
      rw [groups.go, isEmpty_cons, if_neg Bool.false_ne_true, length_cons, ih _ (by rw [length_drop, length_cons]; omega), length_drop, length_cons]
      by_cases hlt : l.length + 1 ≤ n
      · rw [Nat.sub_eq_zero_of_le hlt, div_eq_of_lt (show 0 + (n - 1) < n by omega),
          show l.length + 1 + (n - 1) = l.length + n by omega, add_div_right _ hn,
          div_eq_of_lt (by omega)]
      · rw [← add_div_right _ hn]
        congr 1
        omega

theorem groups_length (hn : 0 < n) (l : List α) : (groups n l).length = howmany l.length n :=
  groups_go_length hn l.length l (le_refl _)

theorem mem_of_mem_groups (hn : 0 < n) {l part : List α} (h : part ∈ groups n l) {x : α} (hx : x ∈ part) : x ∈ l := by
  rw [← groups_flatten hn l]
  exact mem_flatten.mpr ⟨part, h, hx⟩

end Groups

theorem logBlk_ge (g : Geometry) : 512 ≤ g.logBlk := Nat.pow_le_pow_right Nat.two_pos g.log_ge

theorem brperjblock_pos (g : Geometry) : 0 < brperjblock g := by
  have := logBlk_ge g
  unfold brperjblock
  omega

theorem iph_pos (g : Geometry) : 0 < iph g := by
  have := logBlk_ge g
  unfold iph
  omega

/-! ### Units -/

/-- A record and what is written behind it. -/
inductive LogUnit where
  | blocks (bps : List Buf)
  | revocations (wds : List Dealloc)
  | inodes (wcClear : Bool) (wis : List WcInode)

section Units
variable (g : Geometry)

def LogUnit.body : LogUnit → List Byte
  | .blocks bps => bps.flatMap Buf.bData
  | .revocations _ | .inodes _ _ => []

def LogUnit.len (u : LogUnit) : Nat := g.logBlk + u.body.length

def LogUnit.record (u : LogUnit) : Record := match u with
  | .blocks bps => .blocks (u.len g) (bps.map fun bp => ⟨bp.bBlkno, bp.bBcount⟩)
  | .revocations wds => .revocations (u.len g) (wds.map fun wd => ⟨wd.wdBlkno, wd.wdLen⟩)
  | .inodes wcClear wis => .inodes (u.len g) wcClear wis

def LogUnit.cells (u : LogUnit) : List Cell := recordCells g (u.record g) ++ dataCells u.body

/-- Buffers are whole blocks, of the log and of the file system. -/
def WholeBlocks (bps : List Buf) : Prop := ∀ bp ∈ bps, g.logBlk ∣ bp.bBcount ∧ g.fsBlk ∣ bp.bBcount

def LogUnit.Whole : LogUnit → Prop
  | .blocks bps => WholeBlocks g bps
  | .revocations _ | .inodes _ _ => True

def stream (us : List LogUnit) : List Cell := us.flatMap (LogUnit.cells g)

/-- The inode lists of a transaction: the first one clears. -/
def inodeUnits (inodes : List WcInode) : List LogUnit :=
  match groups (iph g) inodes with
  | [] => [.inodes true []]
  | first :: rest => .inodes true first :: rest.map (LogUnit.inodes false)

def txUnits (tx : Tx) : List LogUnit :=
  (groups (brperjblock g) tx.bufs).map .blocks ++ ((groups (brperjblock g) tx.deallocs).map .revocations ++ inodeUnits g tx.inodes)

def txsUnits (txs : List Tx) : List LogUnit := txs.flatMap (txUnits g)

end Units

section UnitLemmas
variable {g : Geometry}

theorem body_blocks_length (bps : List Buf) : (LogUnit.blocks bps).body.length = bcountSum bps := by
  rw [LogUnit.body, length_flatMap]
  rfl

theorem cells_length (u : LogUnit) : (u.cells g).length = u.len g := by
  simp [LogUnit.cells, recordCells, dataCells, length_append, length_map, length_range, LogUnit.len]

theorem record_wcLen (u : LogUnit) : (u.record g).wcLen = u.len g := by
  cases u <;> rfl

theorem bcountSum_dvd {bps : List Buf} (h : WholeBlocks g bps) : g.logBlk ∣ bcountSum bps := by
  refine @List.dvd_sum Nat _ _ _ fun n hn => ?_
  obtain ⟨bp, hbp, rfl⟩ := mem_map.mp hn
  exact (h bp hbp).1

theorem len_dvd {u : LogUnit} (h : u.Whole g) : g.logBlk ∣ u.len g := by
  refine Nat.dvd_add (Nat.dvd_refl _) ?_
  cases u with
  | blocks bps =>
    rw [body_blocks_length]
    exact bcountSum_dvd h
  | revocations wds => exact Nat.dvd_zero _
  | inodes wcClear wis => exact Nat.dvd_zero _

theorem stream_append (us vs : List LogUnit) : stream g (us ++ vs) = stream g us ++ stream g vs :=
  flatMap_append

end UnitLemmas

/-! ### Writing -/

/-- The area holds `s` from `start` on, in whole log blocks, and the offset is behind it.
Before the first byte an offset before the area will do. -/
structure Written (g : Geometry) (start : Nat) (s : List Cell) (st : Disk × Nat) : Prop where
  holds : Holds g st.1 start s
  dvd : g.logBlk ∣ s.length
  off : st.2 = logOff g start s.length ∨ s = [] ∧ clampOff g st.2 = start

theorem wapblCircWrite_clamp {α : Type} {g : Geometry} {off off' : Nat} (h : clampOff g off = clampOff g off')
    (data : List α) (disk : Nat → α) : wapblCircWrite g data (disk, off) = wapblCircWrite g data (disk, off') := by
  simp [wapblCircWrite, h]

section Writing
variable {g : Geometry} {start : Nat} {s data : List Cell} {st : Disk × Nat}

theorem Written.write (hstart : InRange g.circOff g.circSize start) (hdvd : g.logBlk ∣ start)
    (h : Written g start s st) (hd : g.logBlk ∣ data.length) (hfit : s.length + data.length ≤ g.circSize) :
    Written g start (s ++ data) (wapblCircWrite g data st) := by
  have heq : wapblCircWrite g data st = wapblCircWrite g data (st.1, move g.circOff g.circSize start s.length) := by
    rcases h.off with hoff | ⟨rfl, hoff⟩
    · rw [← logOff, ← hoff]
    · refine wapblCircWrite_clamp ?_ data st.1
      rw [hoff, length_nil, move_zero hstart, clampOff_of_inRange hstart]
  rw [heq]
  refine ⟨wapblCircWrite_holds h.holds hstart hdvd h.dvd hfit, ?_, .inl ?_⟩
  · rw [length_append]
    exact Nat.dvd_add h.dvd hd
  · rw [wapblCircWrite_snd (move_inRange g.size_pos start s.length) st.1 (by omega), move_move, logOff, length_append]

theorem Written.foldl {β : Type} {f : Disk × Nat → β → Disk × Nat} {c : β → List Cell} {l : List β}
    (hf : ∀ x ∈ l, ∀ s st, Written g start s st → s.length + (c x).length ≤ g.circSize → Written g start (s ++ c x) (f st x))
    (h : Written g start s st) (hfit : s.length + (l.flatMap c).length ≤ g.circSize) :
    Written g start (s ++ l.flatMap c) (l.foldl f st) := by
  induction l generalizing s st with
  | nil => simpa using h
  | cons x l ih =>
    rw [flatMap_cons, length_append] at hfit
    rw [flatMap_cons, ← append_assoc]
    refine ih (fun y hy => hf y (mem_cons_of_mem _ hy)) (hf x mem_cons_self s st h (by omega)) ?_
    rw [length_append]
    omega

variable (hstart : InRange g.circOff g.circSize start) (hdvd : g.logBlk ∣ start)
include hstart hdvd

theorem Written.record (r : Record) (h : Written g start s st) (hfit : s.length + g.logBlk ≤ g.circSize) :
    Written g start (s ++ recordCells g r) (wapblCircWrite g (recordCells g r) st) := by
  have hlen : (recordCells g r).length = g.logBlk := by simp [recordCells]
  exact h.write hstart hdvd (by rw [hlen]) (by rw [hlen]; exact hfit)

theorem Written.blockList {bps : List Buf} (hw : WholeBlocks g bps) (h : Written g start s st)
    (hfit : s.length + ((LogUnit.blocks bps).cells g).length ≤ g.circSize) :
    Written g start (s ++ (LogUnit.blocks bps).cells g) (writeBlockList g st bps) := by
  rw [cells_length, LogUnit.len, body_blocks_length] at hfit
  -- The buffers are whole log blocks, so that there is no padding.
  have hpad : (g.logBlk + bcountSum bps) % g.logBlk = 0 := by
    rw [add_mod_left]
    exact mod_eq_zero_of_dvd (bcountSum_dvd hw)
  have hdata : ∀ l : List Buf, dataCells (l.flatMap Buf.bData) = l.flatMap fun bp => dataCells bp.bData :=
    fun l => map_flatMap
  simp only [writeBlockList, hpad, ne_eq, not_true_eq_false, if_false, add_zero]
  rw [LogUnit.cells, ← append_assoc, LogUnit.body, hdata, LogUnit.record, LogUnit.len, body_blocks_length]
  have hrec := h.record hstart hdvd
    (.blocks (g.logBlk + bcountSum bps) (bps.map fun bp => ⟨bp.bBlkno, bp.bBcount⟩)) (by omega)
  refine hrec.foldl (fun bp hbp s st h hfit => ?_) ?_
  · refine h.write hstart hdvd ?_ hfit
    rw [dataCells, length_map]
    exact (hw bp hbp).1
  rw [← hdata, dataCells, length_append]
  have hbody := body_blocks_length bps
  simp only [LogUnit.body] at hbody
  simp only [recordCells, length_map, length_range, hbody]
  omega

theorem Written.bare {u : LogUnit} (hu : u.body = []) (h : Written g start s st) (hfit : s.length + (u.cells g).length ≤ g.circSize) :
    Written g start (s ++ u.cells g) (wapblCircWrite g (recordCells g (u.record g)) st) := by
  rw [cells_length, LogUnit.len] at hfit
  rw [LogUnit.cells, hu, dataCells, map_nil, append_nil]
  exact h.record hstart hdvd _ (by omega)

theorem Written.inodes (inodes : List WcInode) (h : Written g start s st) (hfit : s.length + (stream g (inodeUnits g inodes)).length ≤ g.circSize) :
    Written g start (s ++ stream g (inodeUnits g inodes)) (wapblWriteInodes g inodes st) := by
  unfold wapblWriteInodes inodeUnits at *
  cases hg : groups (iph g) inodes with
  | nil =>
    simp only [hg, stream, flatMap_cons, flatMap_nil, append_nil] at hfit ⊢
    exact h.bare hstart hdvd rfl hfit
  | cons first rest =>
    simp only [hg, stream, flatMap_cons, flatMap_map, length_append] at hfit ⊢
    rw [← append_assoc]
    refine (h.bare (u := .inodes true first) hstart hdvd rfl (by omega)).foldl (fun wis _ s st h hfit => ?_) ?_
    · exact h.bare hstart hdvd rfl hfit
    · rw [length_append]
      omega

theorem Written.tx {tx : Tx} (hw : WholeBlocks g tx.bufs) (h : Written g start s st)
    (hfit : s.length + (stream g (txUnits g tx)).length ≤ g.circSize) :
    Written g start (s ++ stream g (txUnits g tx)) (writeTx g st tx) := by
  rw [txUnits, stream_append, stream_append] at *
  rw [length_append, length_append] at hfit
  rw [← append_assoc, ← append_assoc]
  have hblocks : Written g start (s ++ stream g ((groups (brperjblock g) tx.bufs).map .blocks))
      (wapblWriteBlocks g tx.bufs st) := by
    rw [stream, flatMap_map] at *
    refine h.foldl (fun bps hbps s st h hfit => ?_) (by omega)
    exact h.blockList hstart hdvd (fun bp hbp => hw bp (mem_of_mem_groups (brperjblock_pos g) hbps hbp)) hfit
  have hrevs : Written g start (s ++ stream g ((groups (brperjblock g) tx.bufs).map .blocks) ++
      stream g ((groups (brperjblock g) tx.deallocs).map .revocations))
      (wapblWriteRevocations g tx.deallocs (wapblWriteBlocks g tx.bufs st)) := by
    rw [stream, stream, flatMap_map, flatMap_map] at *
    refine hblocks.foldl (fun wds _ s st h hfit => ?_) (by rw [length_append]; omega)
    exact h.bare (u := .revocations wds) hstart hdvd rfl hfit
  refine hrevs.inodes hstart hdvd tx.inodes ?_
  rw [length_append, length_append]
  omega

end Writing

section Lengths
variable {g : Geometry}

theorem stream_blocks_length (bpss : List (List Buf)) : (stream g (bpss.map .blocks)).length = bcountSum bpss.flatten + bpss.length * g.logBlk := by
  induction bpss with
  | nil => simp [stream, bcountSum]
  | cons bps bpss ih =>
    rw [stream] at ih
    rw [map_cons, stream, flatMap_cons, length_append, ih, cells_length, LogUnit.len, body_blocks_length, flatten_cons, length_cons, succ_mul]
    simp only [bcountSum, map_append, sum_append]
    omega

theorem stream_bare_length {us : List LogUnit} (h : ∀ u ∈ us, u.body = []) : (stream g us).length = us.length * g.logBlk := by
  induction us with
  | nil => exact (zero_mul _).symm
  | cons u us ih =>
    have hrest := ih fun v hv => h v (mem_cons_of_mem _ hv)
    rw [stream] at hrest
    rw [stream, flatMap_cons, length_append, cells_length, LogUnit.len, h u mem_cons_self, length_cons, succ_mul, length_nil]
    omega

theorem inodeUnits_bare {inodes : List WcInode} {u : LogUnit} (h : u ∈ inodeUnits g inodes) : u.body = [] := by
  unfold inodeUnits at h
  split at h
  · rw [mem_singleton.mp h]
    rfl
  rcases mem_cons.mp h with rfl | h
  · rfl
  · obtain ⟨wis, -, rfl⟩ := mem_map.mp h
    rfl

theorem inodeUnits_length (inodes : List WcInode) : (inodeUnits g inodes).length = max 1 (howmany inodes.length (iph g)) := by
  rw [← groups_length (iph_pos g)]
  unfold inodeUnits
  split
  · next heq =>
    rw [heq]
    rfl
  · next heq =>
    rw [heq, length_cons, length_cons, length_map]
    omega

theorem stream_tx_length (tx : Tx) : (stream g (txUnits g tx)).length = wapblTransactionLen g tx := by
  rw [txUnits, stream_append, stream_append, length_append, length_append, stream_blocks_length,
    groups_flatten (brperjblock_pos g), groups_length (brperjblock_pos g),
    stream_bare_length fun u hu => inodeUnits_bare hu, inodeUnits_length, wapblTransactionLen,
    wapblTransactionInodesLen]
  have hrevs : (stream g ((groups (brperjblock g) tx.deallocs).map .revocations)).length = howmany tx.deallocs.length (brperjblock g) * g.logBlk := by
    rw [stream_bare_length, length_map, groups_length (brperjblock_pos g)]
    intro u hu
    obtain ⟨wds, -, rfl⟩ := mem_map.mp hu
    rfl
  omega

theorem txUnits_whole {tx : Tx} (hw : WholeBlocks g tx.bufs) {u : LogUnit} (hu : u ∈ txUnits g tx) : u.Whole g := by
  rcases mem_append.mp hu with hu | hu
  · obtain ⟨bps, hbps, rfl⟩ := mem_map.mp hu
    exact fun bp hbp => hw bp (mem_of_mem_groups (brperjblock_pos g) hbps hbp)
  have hbare : u.body = [] := by
    rcases mem_append.mp hu with hu | hu
    · obtain ⟨wds, -, rfl⟩ := mem_map.mp hu
      rfl
    · exact inodeUnits_bare hu
  cases u with
  | blocks bps =>
    intro bp hbp
    have hnil : bp.bData = [] := flatMap_eq_nil_iff.mp hbare bp hbp
    simp [Buf.bBcount, hnil]
  | revocations wds => trivial
  | inodes wcClear wis => trivial

end Lengths

/-- The space the transactions take. -/
def txsLen (g : Geometry) (txs : List Tx) : Nat := (txs.map (wapblTransactionLen g)).sum

theorem stream_txs_length (g : Geometry) (txs : List Tx) : (stream g (txsUnits g txs)).length = txsLen g txs := by
  induction txs with
  | nil => rfl
  | cons tx txs ih =>
    rw [txsUnits] at ih
    rw [txsUnits, flatMap_cons, stream_append, length_append, ih, stream_tx_length, txsLen, txsLen, map_cons, sum_cons]

theorem txsUnits_whole {g : Geometry} {txs : List Tx} (hw : ∀ tx ∈ txs, WholeBlocks g tx.bufs) : ∀ u ∈ txsUnits g txs, u.Whole g := by
  intro u hu
  obtain ⟨tx, htx, hu⟩ := mem_flatMap.mp hu
  exact txUnits_whole (hw tx htx) hu

theorem Written.txs {g : Geometry} {start : Nat} (hstart : InRange g.circOff g.circSize start)
    (hdvd : g.logBlk ∣ start) {txs : List Tx} (hw : ∀ tx ∈ txs, WholeBlocks g tx.bufs) {st : Disk × Nat}
    (h : Written g start [] st) (hfit : txsLen g txs ≤ g.circSize) :
    Written g start (stream g (txsUnits g txs)) (txs.foldl (writeTx g) st) := by
  have hstream : stream g (txsUnits g txs) = txs.flatMap fun tx => stream g (txUnits g tx) := by
    rw [txsUnits, stream, flatMap_assoc]
    rfl
  rw [← stream_txs_length, hstream] at hfit
  rw [hstream]
  have hall := h.foldl (f := writeTx g) (fun tx htx s st h hfit => h.tx hstart hdvd (hw tx htx) hfit)
    (by rw [length_nil, zero_add]; exact hfit)
  rwa [nil_append] at hall

end NetBSD.Kern.Wapbl
