import NetBSD.Kern.Wapbl.Stream
import Mathlib.Data.List.Induction

/-! Replaying the WAPBL log undoes writing it, unless the log is exactly full.

The reader takes one unit of the log a round and enters its mentions
(`replayLoop_units`), so its hash has the last mention of each block. The rounds end
where the head is reached, and a log that is exactly full has its head where its tail
is: nothing of it is read. -/
namespace NetBSD.Kern.Wapbl
open List Option Nat
open Lib Ring

/-! ### The hash -/

section Hash
variable {h : List WapblBlk} {blk b : Int} {off : Nat}

theorem find_map_blk (h : List WapblBlk) (blk b : Int) (off : Nat) :
    wapblBlkhashGet (h.map fun wb => if wb.wbBlk = blk then {wb with wbOff := off} else wb) b =
      (wapblBlkhashGet h b).map fun wb => if wb.wbBlk = blk then {wb with wbOff := off} else wb := by
  unfold wapblBlkhashGet
  rw [find?_map]
  congr 2
  funext wb
  simp only [Function.comp]
  split <;> rfl

theorem wapblBlkhashGet_blk {wb : WapblBlk} (hget : wapblBlkhashGet h b = some wb) : wb.wbBlk = b := by
  have hb := find?_some hget
  exact of_decide_eq_true hb

theorem wapblBlkhashGet_ins : wapblBlkhashGet (wapblBlkhashIns h blk off) b =
    if b = blk then some ⟨blk, off⟩ else wapblBlkhashGet h b := by
  unfold wapblBlkhashIns
  split
  · next wb hget =>
    rw [find_map_blk]
    split
    · next heq =>
      rw [heq, hget, map_some, if_pos (wapblBlkhashGet_blk hget), wapblBlkhashGet_blk hget]
    · next hne =>
      cases hb : wapblBlkhashGet h b with
      | none => rfl
      | some wb' => rw [map_some, if_neg (by rw [wapblBlkhashGet_blk hb]; exact hne)]
  · rw [wapblBlkhashGet, find?_cons]
    by_cases heq : b = blk
    · rw [heq]
      simp
    · rw [if_neg heq, decide_eq_false (Ne.symm heq)]
      rfl

theorem wapblBlkhashGet_rem : wapblBlkhashGet (wapblBlkhashRem h blk) b =
    if b = blk then none else wapblBlkhashGet h b := by
  unfold wapblBlkhashGet wapblBlkhashRem
  rw [find?_filter]
  split
  · next heq =>
    simp [heq]
  · next hne =>
    congr 1
    funext wb
    by_cases hb : wb.wbBlk = b
    · simp [hb, hne]
    · simp [hb]

/-- No block is in the hash twice. -/
def HashNodup (h : List WapblBlk) : Prop := (h.map WapblBlk.wbBlk).Nodup

theorem hashNodup_ins (hn : HashNodup h) : HashNodup (wapblBlkhashIns h blk off) := by
  unfold wapblBlkhashIns HashNodup
  split
  · rw [List.map_map]
    rw [show WapblBlk.wbBlk ∘ (fun wb => if wb.wbBlk = blk then {wb with wbOff := off} else wb) = WapblBlk.wbBlk by
      funext wb
      simp only [Function.comp]
      split <;> rfl]
    exact hn
  · next hget =>
    refine nodup_cons.mpr ⟨fun hmem => ?_, hn⟩
    obtain ⟨wb, hwb, heq⟩ := mem_map.mp hmem
    exact (find?_eq_none.mp hget wb hwb) (decide_eq_true heq)

theorem hashNodup_rem (hn : HashNodup h) : HashNodup (wapblBlkhashRem h blk) :=
  hn.sublist (Sublist.map _ filter_sublist)

theorem mem_iff_get (hn : HashNodup h) (wb : WapblBlk) : wb ∈ h ↔ wapblBlkhashGet h wb.wbBlk = some wb := by
  refine ⟨fun hmem => ?_, mem_of_find?_eq_some⟩
  induction h with
  | nil => exact absurd hmem not_mem_nil
  | cons first rest ih =>
    obtain ⟨hnot, hn⟩ := nodup_cons.mp hn
    rw [wapblBlkhashGet, find?_cons]
    rcases mem_cons.mp hmem with rfl | hmem
    · simp
    have hne : first.wbBlk ≠ wb.wbBlk := fun heq => hnot (heq ▸ mem_map_of_mem hmem)
    rw [decide_eq_false hne]
    exact ih hn hmem

end Hash

def enterMention (h : List WapblBlk) : Mention → List WapblBlk
  | .written blk off _ => wapblBlkhashIns h blk off
  | .revoked blk => wapblBlkhashRem h blk

/-- The offset of a mention that is not a revocation. -/
def Mention.offset : Mention → Option Nat
  | .written _ off _ => some off
  | .revoked _ => none

theorem lastMention_concat (ms : List Mention) (m : Mention) (b : Int) :
    lastMention (ms ++ [m]) b = if b = m.blk then some m else lastMention ms b := by
  unfold lastMention
  rw [reverse_append, reverse_singleton, singleton_append, find?_cons]
  by_cases heq : b = m.blk
  · rw [if_pos heq, decide_eq_true heq.symm]
  · rw [if_neg heq, decide_eq_false (Ne.symm heq)]

theorem get_enterMention (h : List WapblBlk) (m : Mention) (b : Int) : (wapblBlkhashGet (enterMention h m) b).map WapblBlk.wbOff =
      if b = m.blk then m.offset else (wapblBlkhashGet h b).map WapblBlk.wbOff := by
  cases m with
  | written blk off data =>
    have hget : wapblBlkhashGet (enterMention h (.written blk off data)) b = _ := wapblBlkhashGet_ins
    rw [hget, apply_ite (Option.map WapblBlk.wbOff)]
    rfl
  | revoked blk =>
    have hget : wapblBlkhashGet (enterMention h (.revoked blk)) b = _ := wapblBlkhashGet_rem
    rw [hget, apply_ite (Option.map WapblBlk.wbOff)]
    rfl

theorem get_enterMentions (ms : List Mention) (b : Int) :
    (wapblBlkhashGet (ms.foldl enterMention []) b).map WapblBlk.wbOff = (lastMention ms b).bind Mention.offset := by
  induction ms using reverseRecOn with
  | nil => rfl
  | append_singleton ms m ih =>
    rw [foldl_append, foldl_cons, foldl_nil, get_enterMention, lastMention_concat, ih]
    split <;> rfl

theorem hashNodup_enterMentions (ms : List Mention) {h : List WapblBlk} (hn : HashNodup h) : HashNodup (ms.foldl enterMention h) := by
  induction ms generalizing h with
  | nil => exact hn
  | cons m ms ih =>
    refine ih ?_
    cases m with
    | written blk off data => exact hashNodup_ins hn
    | revoked blk => exact hashNodup_rem hn

theorem lastMention_blk {ms : List Mention} {b : Int} {m : Mention} (h : lastMention ms b = some m) : m ∈ ms ∧ m.blk = b := by
  have hb := find?_some h
  exact ⟨mem_reverse.mp (mem_of_find?_eq_some h), of_decide_eq_true hb⟩

section UnitMentions
variable (g : Geometry) (start : Nat)

/-- The mentions of a unit at `pos`. -/
def LogUnit.mentions (pos : Nat) : LogUnit → List Mention
  | .blocks bps => bufsMentions g start (pos + g.logBlk) bps
  | .revocations wds => wds.flatMap (deallocMentions g)
  | .inodes _ _ => []

def unitsMentions : Nat → List LogUnit → List Mention
  | _, [] => []
  | pos, u :: us => u.mentions g start pos ++ unitsMentions (pos + u.len g) us

end UnitMentions

/-! ### One round of the replay -/

def LogUnit.nextInodes (inodes : List WcInode) : LogUnit → List WcInode
  | .inodes wcClear wis => (if wcClear then [] else inodes) ++ wis
  | .blocks _ | .revocations _ => inodes

section Round
variable {g : Geometry} {start : Nat}

theorem fsBlk_pos (g : Geometry) : 0 < g.fsBlk := Nat.two_pow_pos _

theorem logOff_inRange (g : Geometry) (start pos : Nat) : InRange g.circOff g.circSize (logOff g start pos) :=
  move_inRange g.size_pos start pos

theorem circAdvance_logOff {pos len : Nat} (h : len ≤ g.circSize) : wapblCircAdvance g len (logOff g start pos) = logOff g start (pos + len) := by
  rw [wapblCircAdvance_eq (logOff_inRange g start pos) h, logOff, logOff, move_move]

theorem enterBlock_range (bp : Buf) (h : List WapblBlk) (pos n : Nat) (hn : n * g.fsBlk ≤ g.circSize) :
    (List.range n).foldl (enterBlock g ⟨bp.bBlkno, bp.bBcount⟩) (h, logOff g start pos) =
      (((List.range n).map fun j => Mention.written (bp.bBlkno + btodb (j * g.fsBlk))
        (logOff g start (pos + j * g.fsBlk)) ((bp.bData.drop (j * g.fsBlk)).take g.fsBlk)).foldl enterMention h,
        logOff g start (pos + n * g.fsBlk)) := by
  induction n with
  | zero => rw [zero_mul]; rfl
  | succ n ih =>
    rw [succ_mul] at hn
    have hadv := @circAdvance_logOff g start (pos + n * g.fsBlk) g.fsBlk (by omega)
    rw [range_succ, foldl_append, ih (by omega), map_append, foldl_append, succ_mul, ← add_assoc, ← hadv]
    rfl

theorem replayProcessBlocks_eq {bps : List Buf} (hw : WholeBlocks g bps) (h : List WapblBlk) (pos : Nat) (hfit : bcountSum bps ≤ g.circSize) :
    wapblReplayProcessBlocks g (bps.map fun bp => ⟨bp.bBlkno, bp.bBcount⟩) (h, logOff g start pos) =
      ((bufsMentions g start pos bps).foldl enterMention h, logOff g start (pos + bcountSum bps)) := by
  induction bps generalizing h pos with
  | nil => rfl
  | cons bp bps ih =>
    have hsum : bcountSum (bp :: bps) = bp.bBcount + bcountSum bps := by
      rw [bcountSum, map_cons, sum_cons, ← bcountSum]
    rw [hsum] at hfit ⊢
    have hall : bp.bBcount / g.fsBlk * g.fsBlk = bp.bBcount := Nat.div_mul_cancel (hw bp mem_cons_self).2
    rw [bufsMentions, foldl_append, ← add_assoc, ← ih (fun b hb => hw b (mem_cons_of_mem _ hb)) _ _
      (by omega)]
    have hbuf := @enterBlock_range g start bp h pos (bp.bBcount / g.fsBlk) (by omega)
    rw [hall] at hbuf
    rw [wapblReplayProcessBlocks, map_cons, foldl_cons, fsBlocks, hbuf]
    rfl

theorem replayProcessRevocations_eq (wds : List Dealloc) (h : List WapblBlk) :
    wapblReplayProcessRevocations g (wds.map fun wd => ⟨wd.wdBlkno, wd.wdLen⟩) h =
      (wds.flatMap (deallocMentions g)).foldl enterMention h := by
  rw [wapblReplayProcessRevocations, foldl_map, foldl_flatMap]
  congr 1
  funext h wd
  rw [deallocMentions, foldl_map]
  rfl

theorem processRecord_unit {u : LogUnit} (hu : u.Whole g) (wr : Replay) (pos : Nat) (hfit : u.len g ≤ g.circSize) :
    ∃ wr', processRecord g wr (logOff g start pos) (logOff g start (pos + g.logBlk)) (u.record g) = (wr', logOff g start (pos + u.len g)) ∧
      wr'.blkhash = (u.mentions g start pos).foldl enterMention wr.blkhash ∧
      wr'.inodes = u.nextInodes wr.inodes := by
  rw [LogUnit.len] at hfit ⊢
  cases u with
  | blocks bps =>
    rw [body_blocks_length] at hfit ⊢
    rw [LogUnit.record, processRecord, replayProcessBlocks_eq hu _ _ (by omega), add_assoc]
    exact ⟨_, rfl, rfl, rfl⟩
  | revocations wds =>
    rw [LogUnit.record, processRecord, replayProcessRevocations_eq]
    exact ⟨_, rfl, rfl, rfl⟩
  | inodes wcClear wis =>
    refine ⟨_, rfl, ?_, ?_⟩
    · cases wcClear <;> rfl
    · cases wcClear <;> rfl

theorem recordOf_recordCells (r : Record) : recordOf (recordCells g r) = some r := by
  obtain ⟨n, hn⟩ := exists_eq_succ_of_ne_zero (logBlk_pos g).ne'
  rw [recordCells, hn, range_succ_eq_map]
  rfl

end Round

section Loop
variable {g : Geometry} {disk : Disk} {start : Nat}

theorem replayLoop_head (head fuel : Nat) (wr : Replay) : replayLoop g disk head fuel wr head = some (.ok wr) := by
  unfold replayLoop
  exact if_pos rfl

/-- From any unit on, the rounds enter the units that are left. The log is less than full,
so that the head is not met before. -/
theorem replayLoop_units (hstart : InRange g.circOff g.circSize start) (hdvd : g.logBlk ∣ start)
    {us : List LogUnit} (hus : ∀ u ∈ us, u.Whole g) {pre : List Cell} (hpre : g.logBlk ∣ pre.length)
    (h : Holds g disk start (pre ++ stream g us)) (hfit : (pre ++ stream g us).length < g.circSize) (wr : Replay) :
    ∃ wr', replayLoop g disk (logOff g start (pre ++ stream g us).length) us.length wr (logOff g start pre.length) = some (.ok wr') ∧
      wr'.blkhash = (unitsMentions g start pre.length us).foldl enterMention wr.blkhash ∧
      wr'.inodes = us.foldl LogUnit.nextInodes wr.inodes := by
  induction us generalizing pre wr with
  | nil =>
    refine ⟨wr, ?_, rfl, rfl⟩
    rw [stream, flatMap_nil, append_nil, replayLoop_head]
  | cons u us ih =>
    have hu := hus u mem_cons_self
    have hstream : pre ++ stream g (u :: us) = (pre ++ u.cells g) ++ stream g us := by
      rw [append_assoc, stream, stream, flatMap_cons]
    have hlen : (pre ++ stream g (u :: us)).length = pre.length + u.len g + (stream g us).length := by
      rw [hstream, length_append, length_append, cells_length]
    have hblk : g.logBlk ≤ u.len g := Nat.le_add_right _ _
    have hpos := logBlk_pos g
    -- The record is read,
    have hread : wapblCircRead g disk g.logBlk (logOff g start pre.length) =
        (recordCells g (u.record g), logOff g start (pre.length + g.logBlk)) := by
      rw [logOff, wapblCircRead_holds h hdvd hpre (by omega) hfit.le, drop_left, stream, flatMap_cons,
        LogUnit.cells, append_assoc, take_left' (by simp [recordCells])]
      rfl
    -- its unit is processed,
    obtain ⟨wr₁, hproc, hhash, hinodes⟩ := @processRecord_unit g start u hu wr pre.length (by omega)
    have hadv : wapblCircAdvance g (u.record g).wcLen (logOff g start pre.length) = logOff g start (pre.length + u.len g) := by
      rw [record_wcLen, circAdvance_logOff (by omega)]
    -- and the loop goes on behind it.
    have hne : logOff g start pre.length ≠ logOff g start (pre ++ stream g (u :: us)).length := fun heq => by
      have := move_inj hstart (by omega) hfit heq
      omega
    have hnext : (pre ++ u.cells g).length = pre.length + u.len g := by rw [length_append, cells_length]
    obtain ⟨wr₂, hloop, hhash₂, hinodes₂⟩ := @ih (fun v hv => hus v (mem_cons_of_mem _ hv)) (pre ++ u.cells g)
      (by rw [hnext]; exact Nat.dvd_add hpre (len_dvd hu)) (hstream ▸ h) (hstream ▸ hfit) wr₁
    refine ⟨wr₂, ?_, ?_, ?_⟩
    · rw [length_cons, replayLoop, if_neg hne]
      simp only [hread, recordOf_recordCells, hproc, hadv, ne_eq, not_true_eq_false, if_false]
      rw [hstream, ← hnext]
      exact hloop
    · rw [hhash₂, hhash, hnext, unitsMentions, foldl_append]
    · rw [hinodes₂, hinodes, foldl_cons]

end Loop

theorem foldl_nextInodes_rest (rest : List (List WcInode)) (inodes : List WcInode) :
    (rest.map (LogUnit.inodes false)).foldl LogUnit.nextInodes inodes = inodes ++ rest.flatten := by
  induction rest generalizing inodes with
  | nil => exact (append_nil _).symm
  | cons wis rest ih =>
    rw [map_cons, foldl_cons, ih, LogUnit.nextInodes, append_assoc]
    rfl

theorem foldl_nextInodes_tx (g : Geometry) (tx : Tx) (inodes : List WcInode) : (txUnits g tx).foldl LogUnit.nextInodes inodes = tx.inodes := by
  rw [txUnits, foldl_append, foldl_append]
  have hflat := groups_flatten (iph_pos g) tx.inodes
  unfold inodeUnits
  split
  · next heq =>
    rw [heq] at hflat
    exact hflat
  · next first rest heq =>
    rw [heq, flatten_cons] at hflat
    rw [foldl_cons, LogUnit.nextInodes, foldl_nextInodes_rest, if_pos rfl, nil_append, hflat]

theorem foldl_nextInodes_txs (g : Geometry) {txs : List Tx} (hne : txs ≠ []) (inodes : List WcInode) :
    (txsUnits g txs).foldl LogUnit.nextInodes inodes = (txs.getLast hne).inodes := by
  obtain ⟨init, tx, rfl⟩ := (eq_nil_or_concat' txs).resolve_left hne
  rw [txsUnits, flatMap_append, foldl_append, flatMap_singleton, foldl_nextInodes_tx, getLast_append_singleton]

/-- The data of a block lies in `s`, which begins at `pos`, on a log block. -/
def CopyAt (g : Geometry) (start pos : Nat) (s : List Cell) (off : Nat) (data : List Byte) : Prop :=
  ∃ i, off = logOff g start (pos + i) ∧ g.logBlk ∣ i ∧ i + g.fsBlk ≤ s.length ∧ (s.drop i).take g.fsBlk = dataCells data

section Copies
variable {g : Geometry} {start pos off : Nat} {s t : List Cell} {data : List Byte} {blk : Int}

theorem CopyAt.append_right (h : CopyAt g start pos s off data) : CopyAt g start pos (s ++ t) off data := by
  obtain ⟨i, hoff, hi, hlen, hdata⟩ := h
  refine ⟨i, hoff, hi, by rw [length_append]; omega, ?_⟩
  rw [drop_append_of_le_length (by omega), take_append_of_le_length (by rw [length_drop]; omega), hdata]

theorem CopyAt.append_left (ht : g.logBlk ∣ t.length) (h : CopyAt g start (pos + t.length) s off data) : CopyAt g start pos (t ++ s) off data := by
  obtain ⟨i, hoff, hi, hlen, hdata⟩ := h
  refine ⟨t.length + i, by rw [hoff, add_assoc], Nat.dvd_add ht hi, by rw [length_append]; omega, ?_⟩
  rw [← drop_drop, drop_left, hdata]

variable (hshift : g.logDevBshift ≤ g.fsDevBshift)
include hshift

theorem bufMentions_copy {bp : Buf} (hbp : g.fsBlk ∣ bp.bBcount)
    (h : .written blk off data ∈ bufMentions g start pos bp) : CopyAt g start pos (dataCells bp.bData) off data := by
  obtain ⟨j, hj, heq⟩ := mem_map.mp h
  injection heq with _ hoff hdata
  have hdvd : g.logBlk ∣ g.fsBlk := Nat.pow_dvd_pow 2 hshift
  have hj : (j + 1) * g.fsBlk ≤ bp.bBcount := by
    have := Nat.mul_le_mul_right g.fsBlk (succ_le_of_lt (mem_range.mp hj))
    rwa [Nat.div_mul_cancel hbp] at this
  rw [succ_mul] at hj
  refine ⟨j * g.fsBlk, hoff.symm, Dvd.dvd.mul_left hdvd j, by rw [dataCells, length_map]; exact hj, ?_⟩
  rw [dataCells, ← map_drop, ← map_take, hdata, dataCells]

theorem bufsMentions_copy {bps : List Buf} (hw : WholeBlocks g bps) (h : .written blk off data ∈ bufsMentions g start pos bps) :
    CopyAt g start pos (dataCells (bps.flatMap Buf.bData)) off data := by
  induction bps generalizing pos with
  | nil => exact absurd h not_mem_nil
  | cons bp bps ih =>
    obtain ⟨hlog, hfs⟩ := hw bp mem_cons_self
    have hlen : (dataCells bp.bData).length = bp.bBcount := by rw [dataCells, length_map, Buf.bBcount]
    rw [flatMap_cons, dataCells, map_append]
    rcases mem_append.mp h with h | h
    · exact (bufMentions_copy hshift hfs h).append_right
    have hrest := ih (fun b hb => hw b (mem_cons_of_mem _ hb)) h
    rw [← hlen] at hrest
    exact hrest.append_left (hlen ▸ hlog)

theorem mentions_copy {u : LogUnit} (hu : u.Whole g) (h : .written blk off data ∈ u.mentions g start pos) :
    CopyAt g start pos (u.cells g) off data := by
  have hrec : (recordCells g (u.record g)).length = g.logBlk := by simp [recordCells]
  cases u with
  | blocks bps =>
    have hbody := bufsMentions_copy hshift hu h
    rw [← hrec] at hbody
    exact hbody.append_left (by rw [hrec])
  | revocations wds =>
    obtain ⟨wd, -, hwd⟩ := mem_flatMap.mp h
    obtain ⟨j, -, heq⟩ := mem_map.mp hwd
    cases heq
  | inodes wcClear wis => exact absurd h not_mem_nil

theorem unitsMentions_copy {us : List LogUnit} (hus : ∀ u ∈ us, u.Whole g)
    (h : .written blk off data ∈ unitsMentions g start pos us) : CopyAt g start pos (stream g us) off data := by
  induction us generalizing pos with
  | nil => exact absurd h not_mem_nil
  | cons u us ih =>
    rcases mem_append.mp h with h | h
    · exact (mentions_copy hshift (hus u mem_cons_self) h).append_right
    have hrest := ih (fun v hv => hus v (mem_cons_of_mem _ hv)) h
    rw [← cells_length] at hrest
    exact hrest.append_left (by rw [cells_length]; exact len_dvd (hus u mem_cons_self))

end Copies

section TxMentions
variable {g : Geometry} {start : Nat}

theorem unitsMentions_append (pos : Nat) (us vs : List LogUnit) : unitsMentions g start pos (us ++ vs) =
    unitsMentions g start pos us ++ unitsMentions g start (pos + (stream g us).length) vs := by
  induction us generalizing pos with
  | nil => rfl
  | cons u us ih =>
    rw [cons_append, unitsMentions, unitsMentions, ih, append_assoc]
    rw [stream, stream, flatMap_cons, length_append, cells_length, add_assoc]

theorem unitsMentions_blocks (pos : Nat) (bpss : List (List Buf)) :
    unitsMentions g start pos (bpss.map .blocks) = blockListsMentions g start pos bpss := by
  induction bpss generalizing pos with
  | nil => rfl
  | cons bps bpss ih =>
    rw [map_cons, unitsMentions, ih, LogUnit.len, body_blocks_length, ← add_assoc]
    rfl

theorem unitsMentions_revocations (pos : Nat) (wdss : List (List Dealloc)) :
    unitsMentions g start pos (wdss.map .revocations) = wdss.flatten.flatMap (deallocMentions g) := by
  induction wdss generalizing pos with
  | nil => rfl
  | cons wds wdss ih =>
    rw [map_cons, unitsMentions, ih, flatten_cons, flatMap_append]
    rfl

theorem unitsMentions_inodes (pos : Nat) (clears : List (Bool × List WcInode)) :
    unitsMentions g start pos (clears.map fun c => .inodes c.1 c.2) = [] := by
  induction clears generalizing pos with
  | nil => rfl
  | cons c clears ih =>
    rw [map_cons, unitsMentions, ih]
    rfl

theorem unitsMentions_inodeUnits (pos : Nat) (inodes : List WcInode) : unitsMentions g start pos (inodeUnits g inodes) = [] := by
  unfold inodeUnits
  split
  · exact unitsMentions_inodes pos [(true, [])]
  · next first rest _ =>
    have hrest := @unitsMentions_inodes g start pos ((true, first) :: rest.map fun wis => (false, wis))
    rwa [map_cons, List.map_map] at hrest

theorem unitsMentions_tx (pos : Nat) (tx : Tx) : unitsMentions g start pos (txUnits g tx) = txMentions g start pos tx := by
  rw [txUnits, unitsMentions_append, unitsMentions_append, unitsMentions_blocks, unitsMentions_revocations,
    unitsMentions_inodeUnits, groups_flatten (brperjblock_pos g), append_nil, txMentions]

theorem unitsMentions_txs (pos : Nat) (txs : List Tx) : unitsMentions g start pos (txsUnits g txs) = txsMentions g start pos txs := by
  induction txs generalizing pos with
  | nil => rfl
  | cons tx txs ih =>
    rw [txsUnits, flatMap_cons, unitsMentions_append, unitsMentions_tx, stream_tx_length, txsMentions, ← ih, txsUnits]

end TxMentions

/-! ### Round trip -/

/-- What the replay of `txs` is to leave: each block whose last mention is not a
revocation, with the offset of its last copy, and the inodes of the last transaction.
Writing it back gives each of these blocks its last contents. A log with blocks larger
than those of the file system has offsets that are not on a log block; `wapbl_start`
refuses to make one. -/
structure Replayed (g : Geometry) (disk : Disk) (start : Nat) (txs : List Tx) (hne : txs ≠ []) (wr : Replay) : Prop where
  offsets : ∀ blk, (wapblBlkhashGet wr.blkhash blk).map WapblBlk.wbOff = (lastMention (txsMentions g start 0 txs) blk).bind Mention.offset
  once : HashNodup wr.blkhash
  inodes : wr.inodes = (txs.getLast hne).inodes
  contents : g.logDevBshift ≤ g.fsDevBshift → ∀ blk cells, (blk, cells) ∈ wapblReplayWrite g disk wr ↔
    ∃ off data, lastMention (txsMentions g start 0 txs) blk = some (.written blk off data) ∧ cells = dataCells data

/-- The last mention of every block is a revocation, and there are no inodes. -/
def NothingLogged (g : Geometry) (start : Nat) (txs : List Tx) (hne : txs ≠ []) : Prop :=
  (∀ blk, (lastMention (txsMentions g start 0 txs) blk).bind Mention.offset = none) ∧ (txs.getLast hne).inodes = []

section RoundTrip
variable {g : Geometry} {disk : Disk} {start : Nat} {txs : List Tx} {hne : txs ≠ []}

theorem bind_offset_eq {ms : List Mention} {blk : Int} {off : Nat} (h : (lastMention ms blk).bind Mention.offset = some off) :
    ∃ data, lastMention ms blk = some (.written blk off data) := by
  obtain ⟨m, hm, hoff⟩ := bind_eq_some_iff.mp h
  cases m with
  | revoked b => cases hoff
  | written b off' data =>
    obtain rfl : off' = off := some.inj hoff
    obtain rfl : b = blk := (lastMention_blk hm).2
    exact ⟨data, hm⟩

theorem circRead_copy {s : List Cell} {off : Nat} {data : List Byte} (h : Holds g disk start s)
    (hdvd : g.logBlk ∣ start) (hfit : s.length ≤ g.circSize) (hc : CopyAt g start 0 s off data) :
    (wapblCircRead g disk g.fsBlk off).1 = dataCells data := by
  obtain ⟨i, rfl, hi, hlen, hdata⟩ := hc
  rw [zero_add, logOff, wapblCircRead_holds h hdvd hi hlen hfit, hdata]

theorem replayed_of_mentions (hdvd : g.logBlk ∣ start) (hw : ∀ tx ∈ txs, WholeBlocks g tx.bufs)
    (h : Holds g disk start (stream g (txsUnits g txs))) (hfit : txsLen g txs ≤ g.circSize) {wr : Replay}
    (hhash : wr.blkhash = (txsMentions g start 0 txs).foldl enterMention [])
    (hinodes : wr.inodes = (txs.getLast hne).inodes) : Replayed g disk start txs hne wr := by
  have hoffsets : ∀ blk, (wapblBlkhashGet wr.blkhash blk).map WapblBlk.wbOff =
      (lastMention (txsMentions g start 0 txs) blk).bind Mention.offset := fun blk => by
    rw [hhash, get_enterMentions]
  have honce : HashNodup wr.blkhash := by
    rw [hhash]
    exact hashNodup_enterMentions _ nodup_nil
  refine ⟨hoffsets, honce, hinodes, fun hshift blk cells => ?_⟩
  have hcopy : ∀ off data, lastMention (txsMentions g start 0 txs) blk = some (.written blk off data) →
      (wapblCircRead g disk g.fsBlk off).1 = dataCells data := fun off data hlast => by
    have hmem : .written blk off data ∈ unitsMentions g start 0 (txsUnits g txs) := by
      rw [unitsMentions_txs]
      exact (lastMention_blk hlast).1
    exact circRead_copy h hdvd (by rw [stream_txs_length]; exact hfit)
      (unitsMentions_copy hshift (txsUnits_whole hw) hmem)
  constructor
  · intro hmem
    obtain ⟨wb, hwb, heq⟩ := mem_map.mp hmem
    obtain ⟨rfl, rfl⟩ := Prod.mk.inj heq
    have hoff := hoffsets wb.wbBlk
    rw [(mem_iff_get honce wb).mp hwb] at hoff
    obtain ⟨data, hlast⟩ := bind_offset_eq hoff.symm
    exact ⟨_, data, hlast, hcopy _ data hlast⟩
  · rintro ⟨off, data, hlast, rfl⟩
    have hoff := hoffsets blk
    rw [hlast] at hoff
    obtain ⟨wb, hget, rfl⟩ := map_eq_some_iff.mp hoff
    obtain rfl := wapblBlkhashGet_blk hget
    exact mem_map.mpr ⟨wb, (mem_iff_get honce wb).mpr hget, by rw [hcopy _ data hlast]⟩

/-- Where a log can begin: an unused one has offset 0 and begins with the area. -/
def StartOk (g : Geometry) (off : Nat) : Prop := off = 0 ∨ InRange g.circOff g.circSize off ∧ g.logBlk ∣ off

theorem StartOk.tail {off : Nat} (h : StartOk g off) : InRange g.circOff g.circSize (clampOff g off) ∧ g.logBlk ∣ clampOff g off := by
  rcases h with rfl | ⟨hr, hdvd⟩
  · rw [clampOff, if_pos g.off_pos]
    exact ⟨inRange_off g.size_pos, g.off_dvd⟩
  · rw [clampOff_of_inRange hr]
    exact ⟨hr, hdvd⟩

theorem written_txs {off : Nat} (h : StartOk g off) (disk : Disk) (hw : ∀ tx ∈ txs, WholeBlocks g tx.bufs) (hfit : txsLen g txs ≤ g.circSize) :
    Written g (clampOff g off) (stream g (txsUnits g txs)) (txs.foldl (writeTx g) (disk, off)) := by
  refine Written.txs h.tail.1 h.tail.2 hw ⟨?_, Nat.dvd_zero _, .inr ⟨rfl, rfl⟩⟩ hfit
  exact fun k hk => absurd hk (Nat.not_lt_zero k)

theorem txsLen_pos (hne : txs ≠ []) : 0 < txsLen g txs := by
  obtain ⟨tx, rest, rfl⟩ := exists_cons_of_ne_nil hne
  have hmul : g.logBlk ≤ max 1 (howmany tx.inodes.length (iph g)) * g.logBlk :=
    Nat.le_mul_of_pos_left _ (by omega)
  have := logBlk_pos g
  rw [txsLen, map_cons, sum_cons, wapblTransactionLen, wapblTransactionInodesLen]
  omega

theorem head_eq {off : Nat} (h : StartOk g off) (disk : Disk) (hne : txs ≠ [])
    (hw : ∀ tx ∈ txs, WholeBlocks g tx.bufs) (hfit : txsLen g txs ≤ g.circSize) :
    (txs.foldl (writeTx g) (disk, off)).2 = logOff g (clampOff g off) (txsLen g txs) := by
  rcases (written_txs h disk hw hfit).off with hoff | ⟨hnil, -⟩
  · rw [hoff, stream_txs_length]
  have := @txsLen_pos g txs hne
  rw [← stream_txs_length, hnil, length_nil] at this
  omega

theorem replayProcess_full {off : Nat} (h : StartOk g off) (disk : Disk) (hne : txs ≠ [])
    (hw : ∀ tx ∈ txs, WholeBlocks g tx.bufs) (hfull : txsLen g txs = g.circSize) (disk' : Disk) (fuel : Nat) :
    wapblReplayProcess g disk' (txs.foldl (writeTx g) (disk, off)).2 (clampOff g off) fuel = some (.ok ⟨[], [], 0, 0⟩) := by
  rw [head_eq h disk hne hw hfull.le, hfull, logOff, move_size h.tail.1]
  exact replayLoop_head _ _ _

theorem replayed_empty_iff {disk : Disk} : Replayed g disk start txs hne ⟨[], [], 0, 0⟩ ↔ NothingLogged g start txs hne := by
  constructor
  · intro hr
    exact ⟨fun blk => (hr.offsets blk).symm, hr.inodes.symm⟩
  rintro ⟨hnone, hinodes⟩
  refine ⟨fun blk => (hnone blk).symm, nodup_nil, hinodes.symm, fun _ blk cells => ⟨fun hmem => ?_, ?_⟩⟩
  · exact absurd hmem not_mem_nil
  rintro ⟨off, data, hlast, -⟩
  have := hnone blk
  rw [hlast] at this
  cases this

/-- Replay undoes writing: from the tail to the head it comes to an end and leaves what
it is to leave, exactly if the log is less than full or had nothing to leave. -/
theorem replay_undoes_writing (g : Geometry) (disk : Disk) {off : Nat} (hoff : StartOk g off) {txs : List Tx}
    (hne : txs ≠ []) (hw : ∀ tx ∈ txs, WholeBlocks g tx.bufs) (hfit : txsLen g txs ≤ g.circSize) :
    (∃ fuel wr, wapblReplayProcess g (txs.foldl (writeTx g) (disk, off)).1 (txs.foldl (writeTx g) (disk, off)).2
        (clampOff g off) fuel = some (.ok wr) ∧
      Replayed g (txs.foldl (writeTx g) (disk, off)).1 (clampOff g off) txs hne wr) ↔
      txsLen g txs < g.circSize ∨ NothingLogged g (clampOff g off) txs hne := by
  obtain ⟨hstart, hdvd⟩ := hoff.tail
  rcases lt_or_eq_of_le hfit with hlt | hfull
  · refine iff_of_true ?_ (.inl hlt)
    have hwritten := written_txs hoff disk hw hfit
    obtain ⟨wr, hloop, hhash, hinodes⟩ := @replayLoop_units g _ _ hstart hdvd _ (txsUnits_whole hw) [] (Nat.dvd_zero _)
      hwritten.holds (by rw [nil_append, stream_txs_length]; exact hlt) ⟨[], [], 0, 0⟩
    rw [nil_append, stream_txs_length, length_nil, logOff, logOff, move_zero hstart, ← logOff, ← head_eq hoff disk hne hw hfit] at hloop
    refine ⟨_, wr, hloop, replayed_of_mentions hdvd hw hwritten.holds hfit ?_ ?_⟩
    · rw [hhash, length_nil, unitsMentions_txs]
    · rw [hinodes, foldl_nextInodes_txs g hne]
  -- A full log is replayed to nothing.
  constructor
  · rintro ⟨fuel, wr, hproc, hr⟩
    rw [replayProcess_full hoff disk hne hw hfull] at hproc
    cases hproc
    exact .inr (replayed_empty_iff.mp hr)
  · rintro (hlt | hnone)
    · omega
    · exact ⟨0, _, replayProcess_full hoff disk hne hw hfull _ 0, replayed_empty_iff.mpr hnone⟩

end RoundTrip

def sampleGeometry : Geometry where
  circOff := 1024
  circSize := 1536
  off_pos := sample_off_pos
  size_pos := by decide
  logDevBshift := 9
  fsDevBshift := 9
  log_ge := by decide
  fs_ge := by decide
  off_dvd := ⟨2, rfl⟩
  size_dvd := ⟨3, rfl⟩

/-- One block of data: with its record and the inode list, three log blocks. -/
def fullTx : Tx := ⟨[⟨7, replicate 512 1⟩], [], []⟩

def smallTx : Tx := ⟨[], [⟨7, 512⟩], [⟨3, 0⟩]⟩

theorem fullTx_whole : WholeBlocks sampleGeometry fullTx.bufs := by
  intro bp hbp
  obtain rfl := mem_singleton.mp hbp
  have hlen : Buf.bBcount ⟨7, replicate 512 1⟩ = 512 := length_replicate
  exact ⟨⟨1, hlen⟩, ⟨1, hlen⟩⟩

/-- The block written last before the log is full is lost. -/
theorem replay_loses_full_log : txsLen sampleGeometry [fullTx] = sampleGeometry.circSize ∧
    StartOk sampleGeometry 0 ∧ WholeBlocks sampleGeometry fullTx.bufs ∧
    ¬∃ fuel wr, wapblReplayProcess sampleGeometry ([fullTx].foldl (writeTx sampleGeometry) (fun _ => .byte 0, 0)).1
        ([fullTx].foldl (writeTx sampleGeometry) (fun _ => .byte 0, 0)).2 (clampOff sampleGeometry 0) fuel =
          some (.ok wr) ∧
      Replayed sampleGeometry ([fullTx].foldl (writeTx sampleGeometry) (fun _ => .byte 0, 0)).1
        (clampOff sampleGeometry 0) [fullTx] (cons_ne_nil _ _) wr := by
  have hfull : txsLen sampleGeometry [fullTx] = sampleGeometry.circSize := by set_option maxRecDepth 4000 in decide
  have hall : ∀ tx ∈ [fullTx], WholeBlocks sampleGeometry tx.bufs := fun tx htx => by
    rw [mem_singleton.mp htx]
    exact fullTx_whole
  refine ⟨hfull, .inl rfl, fullTx_whole, ?_⟩
  rintro ⟨fuel, wr, hproc, hr⟩
  rw [replayProcess_full (.inl rfl) _ (cons_ne_nil _ _) hall hfull] at hproc
  cases hproc
  have hnone := (replayed_empty_iff.mp hr).1 7
  revert hnone
  set_option maxRecDepth 4000 in decide

/-- A log of a revocation and an inode is replayed, as there is a block left. -/
theorem replay_undoes_writing_sample : StartOk sampleGeometry 0 ∧ txsLen sampleGeometry [smallTx] < 1536 ∧
    ∃ fuel wr, wapblReplayProcess sampleGeometry ([smallTx].foldl (writeTx sampleGeometry) (fun _ => .byte 0, 0)).1
        ([smallTx].foldl (writeTx sampleGeometry) (fun _ => .byte 0, 0)).2 (clampOff sampleGeometry 0) fuel =
          some (.ok wr) ∧
      Replayed sampleGeometry ([smallTx].foldl (writeTx sampleGeometry) (fun _ => .byte 0, 0)).1
        (clampOff sampleGeometry 0) [smallTx] (cons_ne_nil _ _) wr := by
  have hlt : txsLen sampleGeometry [smallTx] < sampleGeometry.circSize := by decide
  have hall : ∀ tx ∈ [smallTx], WholeBlocks sampleGeometry tx.bufs := fun tx htx bp hbp => by
    rw [mem_singleton.mp htx] at hbp
    cases hbp
  exact ⟨.inl rfl, hlt, (replay_undoes_writing sampleGeometry _ (.inl rfl) (cons_ne_nil _ _) hall hlt.le).mpr
    (.inl hlt)⟩

end NetBSD.Kern.Wapbl
