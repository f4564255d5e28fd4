import Mathlib.Data.List.Perm.Basic
import NetBSD.Netinet.TcpReass.Reass

/-! What the queues hold.

Places are counted from `rcv_nxt`, from which no block is as far as half the sequence space: so the comparisons of sequence
numbers are those of places (`Holds.stop_pos` and `Serial.lt_iff` and its kin). `rest` is the stream from there on. The blocks of
`segq` lie behind each other with gaps between them (`Laid`), and the entries of the two queues are the same (`Books`). -/
namespace NetBSD.Netinet.TcpReass
open List
open Lib Serial
variable {base : Seq} {rest : List Byte} {b c : Block} {q e : Ipqent} {qs pre post : List Ipqent} {tp : Tcpcb} {lo mid fin : Nat}

/-! ### Blocks -/

/-- The block holds the bytes of the stream at its place. -/
structure Holds (base : Seq) (rest : List Byte) (b : Block) : Prop where
  len : b.len = BitVec.ofNat 32 b.m.length
  room : pos base b.seq + b.m.length < 2 ^ 30
  bytes : b.m <+: rest.drop (pos base b.seq)

/-- It holds the byte at a place. -/
def Block.Has (base : Seq) (b : Block) (x : Nat) : Prop := pos base b.seq ≤ x ∧ x < pos base b.seq + b.m.length

/-- The place behind the last byte. -/
def Block.stopAt (base : Seq) (b : Block) : Nat := pos base b.seq + b.m.length

theorem Holds.stop_pos (h : Holds base rest b) : pos base b.stop = pos base b.seq + b.m.length := by
  have hroom := h.room
  have hlen : b.len.toNat = b.m.length := by
    rw [h.len]
    exact Nat.mod_eq_of_lt (by omega)
  rw [Block.stop, pos_add (by omega), hlen]

theorem Holds.near (h : Holds base rest b) : Near base b.seq := by
  have hroom := h.room
  unfold Near
  omega

theorem Holds.near_stop (h : Holds base rest b) : Near base b.stop := by
  have hroom := h.room
  unfold Near
  rw [h.stop_pos]
  omega

theorem eq_iff_pos (base : Seq) {x y : Seq} : x = y ↔ pos base x = pos base y := by
  unfold pos
  rw [← BitVec.toNat_eq, sub_left_inj]

theorem prefix_join {l m n : List Byte} {a : Nat} (hm : m <+: l.drop a) (hn : n <+: l.drop (a + m.length)) : m ++ n <+: l.drop a := by
  obtain ⟨t, ht⟩ := hm
  rw [← drop_drop, ← ht, drop_left] at hn
  rw [← ht]
  exact (prefix_append_right_inj m).mpr hn

theorem prefix_drop {l m : List Byte} {a k : Nat} (hm : m <+: l.drop a) : m.drop k <+: l.drop (a + k) := by
  rw [← drop_drop]
  exact hm.drop k

section
variable (hb : Holds base rest b) (hc : Holds base rest c)
include hb hc

theorem Holds.join (htouch : pos base c.seq = pos base b.seq + b.m.length)
    {len : BitVec 32} (hlen : len = b.len + c.len) (flags : BitVec 8) : Holds base rest ⟨b.seq, len, flags, b.m ++ c.m⟩ where
  len := by rw [hlen, hb.len, hc.len, length_append, BitVec.ofNat_add]
  room := by
    have hroom := hc.room
    rw [length_append]
    show pos base b.seq + _ < _
    omega
  bytes := prefix_join hb.bytes (htouch ▸ hc.bytes)

theorem Holds.extend (hin : pos base c.seq ≤ pos base b.seq + b.m.length)
    (hover : pos base b.seq + b.m.length ≤ pos base c.seq + c.m.length) (flags : BitVec 8) :
    Holds base rest ⟨b.seq, c.len + (b.len - BitVec.ofInt 32 (b.stop - c.seq).toInt), flags, b.m ++ mAdj c.m (b.stop - c.seq).toInt⟩ := by
  have hover' : (b.stop - c.seq).toInt = ((pos base b.seq + b.m.length - pos base c.seq : Nat) : Int) := by
    rw [toInt_sub_of_near hb.near_stop hc.near, hb.stop_pos]
    omega
  generalize hk : pos base b.seq + b.m.length - pos base c.seq = k at hover'
  have hdrop : Holds base rest ⟨c.seq + BitVec.ofNat 32 k, c.len - BitVec.ofNat 32 k, c.flags, c.m.drop k⟩ := by
    have hroom := hc.room
    have hpos : pos base (c.seq + BitVec.ofNat 32 k) = pos base c.seq + k := by
      have hsmall : (BitVec.ofNat 32 k).toNat = k := by
        rw [BitVec.toNat_ofNat]
        exact Nat.mod_eq_of_lt (by omega)
      rw [pos_add (by omega), hsmall]
    refine ⟨?_, ?_, ?_⟩
    · show c.len - BitVec.ofNat 32 k = BitVec.ofNat 32 (c.m.drop k).length
      rw [hc.len, length_drop, sub_eq_iff_eq_add, ← BitVec.ofNat_add, Nat.sub_add_cancel (by omega)]
    · show pos base (c.seq + BitVec.ofNat 32 k) + (c.m.drop k).length < _
      rw [length_drop]
      omega
    · rw [hpos]
      exact prefix_drop hc.bytes
  have hplace : pos base (c.seq + BitVec.ofNat 32 k) = pos base b.seq + b.m.length := by
    rw [pos_add, BitVec.toNat_ofNat, Nat.mod_eq_of_lt (by have := hc.room; omega)]
    · omega
    rw [BitVec.toNat_ofNat]
    have hroom := hc.room
    omega
  rw [hover']
  apply hb.join hdrop hplace
  exact add_sub_left_comm _ _ _

theorem Holds.trimTail (hlt : pos base b.seq < pos base c.seq) (hin : pos base c.seq ≤ pos base b.seq + b.m.length) :
    Holds base rest (trimTail b c) ∧ (trimTail b c).seq = b.seq ∧ pos base b.seq + (trimTail b c).m.length = pos base c.seq := by
  unfold TcpReass.trimTail
  by_cases hcut : pos base c.seq < pos base b.seq + b.m.length
  · rw [if_pos ⟨(gt_iff hc.near hb.near).mpr hlt, (lt_iff hc.near hb.near_stop).mpr (hb.stop_pos.symm ▸ hcut)⟩]
    have hover : (b.stop - c.seq).toInt = ((pos base b.seq + b.m.length - pos base c.seq : Nat) : Int) := by
      rw [toInt_sub_of_near hb.near_stop hc.near, hb.stop_pos]
      omega
    have hroom := hb.room
    have hadj : mAdj b.m (-(b.stop - c.seq).toInt) = b.m.take (pos base c.seq - pos base b.seq) := by
      rw [mAdj, if_neg (by omega), Int.neg_neg]
      congr 1
      omega
    have hlen : (b.m.take (pos base c.seq - pos base b.seq)).length = pos base c.seq - pos base b.seq := by
      rw [length_take]
      omega
    dsimp only
    rw [hadj]
    refine ⟨⟨?_, ?_, ?_⟩, rfl, by omega⟩
    · show b.len - BitVec.ofInt 32 _ = BitVec.ofNat 32 (b.m.take _).length
      rw [hover, BitVec.ofInt_natCast, hb.len, sub_eq_iff_eq_add, ← BitVec.ofNat_add]
      congr 1
      omega
    · show pos base b.seq + (b.m.take _).length < _
      omega
    · exact ( take_prefix _ _).trans hb.bytes
  · rw [if_neg fun h => hcut (hb.stop_pos ▸ (lt_iff hc.near hb.near_stop).mp h.2)]
    exact ⟨hb, rfl, by omega⟩

end

/-- The blocks hold their bytes, and in front of each is a gap, of which the first begins at `lo`; behind the last a block may
begin at `fin`. -/
def Laid (base : Seq) (rest : List Byte) (lo : Nat) : List Ipqent → Nat → Prop
  | [], fin => lo ≤ fin
  | q :: qs, fin => lo ≤ pos base q.seq ∧ Holds base rest q.toBlock ∧ Laid base rest (pos base q.seq + q.m.length + 1) qs fin

theorem Laid.mono {lo' fin' : Nat} (h : Laid base rest lo qs fin) (hlo : lo' ≤ lo) (hfin : fin ≤ fin') : Laid base rest lo' qs fin' := by
  induction qs generalizing lo lo' with
  | nil => exact le_trans hlo (le_trans h hfin)
  | cons q qs ih => exact ⟨le_trans hlo h.1, h.2.1, ih h.2.2 (le_refl _)⟩

theorem laid_append : Laid base rest lo (pre ++ post) fin ↔ ∃ mid, Laid base rest lo pre mid ∧ Laid base rest mid post fin := by
  induction pre generalizing lo with
  | nil =>
    constructor
    · intro h
      exact ⟨lo, le_refl lo, h⟩
    · rintro ⟨mid, hlo, h⟩
      exact h.mono hlo (le_refl fin)
  | cons q pre ih =>
    constructor
    · rintro ⟨hlo, hq, h⟩
      obtain ⟨mid, hpre, hpost⟩ := ih.mp h
      exact ⟨mid, ⟨hlo, hq, hpre⟩, hpost⟩
    · rintro ⟨mid, ⟨hlo, hq, hpre⟩, hpost⟩
      exact ⟨hlo, hq, ih.mpr ⟨mid, hpre, hpost⟩⟩

theorem Laid.mem (h : Laid base rest lo qs fin) (hq : q ∈ qs) : lo ≤ pos base q.seq ∧ Holds base rest q.toBlock := by
  induction qs generalizing lo with
  | nil => cases hq
  | cons e qs ih =>
    rcases mem_cons.mp hq with rfl | hq
    · exact ⟨h.1, h.2.1⟩
    have hrest := ih h.2.2 hq
    have hfirst := h.1
    exact ⟨by omega, hrest.2⟩

theorem Laid.pairwise (h : Laid base rest lo qs fin) : qs.Pairwise fun p q => pos base p.seq + p.m.length < pos base q.seq := by
  induction qs generalizing lo with
  | nil => exact .nil
  | cons q qs ih => exact .cons (fun e he => (h.2.2.mem he).1) (ih h.2.2)

/-! ### The entries of both queues -/

structure Books (tp : Tcpcb) : Prop where
  nodup : (tp.segq.map (·.id)).Nodup
  timeq : tp.timeq.Perm (tp.segq.map (·.id))
  count : tp.tSegqlen = tp.segq.length

theorem filter_ids {id : Nat} (h : id ∉ qs.map (·.id)) : qs.filter (fun q => decide (q.id ≠ id)) = qs := by
  apply filter_eq_self.mpr
  intro q hq
  apply decide_eq_true
  rintro rfl
  exact h (mem_map_of_mem hq)

section
variable (h : Books tp) (hsegq : tp.segq = pre ++ q :: post)
include h hsegq

theorem Books.not_mem : q.id ∉ (pre ++ post).map (·.id) := by
  have hnodup := h.nodup
  rw [hsegq, map_append, map_cons, nodup_middle, nodup_cons, ← map_append] at hnodup
  exact hnodup.1

theorem unlink_segq : (tp.unlink q.id).segq = pre ++ post := by
  have hq := h.not_mem hsegq
  rw [map_append, mem_append, not_or] at hq
  show tp.segq.filter _ = _
  rw [hsegq, filter_append, filter_cons_of_neg (by simp), filter_ids hq.1, filter_ids hq.2]

theorem Books.unlink : Books (tp.unlink q.id) := by
  have hnew := unlink_segq h hsegq
  have hnodup := h.nodup
  have htimeq := h.timeq
  have hcount := h.count
  rw [hsegq, map_append, map_cons] at hnodup htimeq
  rw [hsegq, length_append, length_cons] at hcount
  rw [nodup_middle, nodup_cons, ← map_append] at hnodup
  refine ⟨?_, ?_, ?_⟩
  · rw [hnew]
    exact hnodup.2
  · rw [hnew, map_append]
    have herase := (htimeq.trans perm_middle).erase q.id
    rw [erase_cons_head] at herase
    exact herase
  · rw [hnew, length_append]
    show tp.tSegqlen - 1 = _
    omega

end

theorem flatMap_ids {id : Nat} (h : id ∉ qs.map (·.id)) : (qs.flatMap fun q => if q.id = id then [q, e] else [q]) = qs := by
  induction qs with
  | nil => rfl
  | cons q qs ih =>
    rw [map_cons, mem_cons, not_or] at h
    rw [flatMap_cons, if_neg (Ne.symm h.1), ih h.2]
    rfl

theorem insertAfter_eq (hnodup : ((pre ++ post).map (·.id)).Nodup) (e : Ipqent) :
    insertAfter (pre.getLast?.map (·.id)) e (pre ++ post) = pre ++ e :: post := by
  rcases eq_nil_or_concat pre with rfl | ⟨front, p, rfl⟩
  · rfl
  rw [concat_eq_append] at hnodup ⊢
  rw [append_assoc, map_append, map_append, map_singleton, singleton_append, nodup_middle, nodup_cons, mem_append, not_or] at hnodup
  rw [getLast?_concat, Option.map_some, insertAfter, flatMap_append, flatMap_append, flatMap_ids hnodup.1.1, flatMap_ids hnodup.1.2]
  simp

theorem Books.insert (h : Books tp) (hsegq : tp.segq = pre ++ post) (he : e.id ∉ tp.segq.map (·.id)) :
    Books { tp with segq := pre ++ e :: post, timeq := e.id :: tp.timeq, tSegqlen := tp.tSegqlen + 1 } := by
  have hnodup := h.nodup
  have htimeq := h.timeq
  have hcount := h.count
  rw [hsegq, map_append] at hnodup htimeq he
  rw [hsegq, length_append] at hcount
  refine ⟨?_, ?_, ?_⟩
  · rw [map_append, map_cons, nodup_middle]
    exact .cons he hnodup
  · rw [map_append]
    exact (htimeq.cons e.id).trans perm_middle.symm
  rw [length_append, length_cons]
  show tp.tSegqlen + 1 = _
  omega

theorem Books.touch (h : Books tp) (hsegq : tp.segq = pre ++ q :: post) (b : Block) : Books (tp.touch (pre ++ ⟨b, q.id⟩ :: post) q.id) := by
  have hids : (pre ++ (⟨b, q.id⟩ : Ipqent) :: post).map (·.id) = tp.segq.map (·.id) := by
    rw [hsegq, map_append, map_append, map_cons, map_cons]
  have hmem : q.id ∈ tp.timeq := by
    rw [h.timeq.mem_iff, hsegq]
    exact mem_map_of_mem (mem_append_right _ mem_cons_self)
  refine ⟨?_, ?_, ?_⟩
  · rw [Tcpcb.touch, hids]
    exact h.nodup
  · rw [Tcpcb.touch, hids]
    exact (perm_cons_erase hmem).symm.trans h.timeq
  · rw [Tcpcb.touch, ← length_map (·.id), hids, length_map]
    exact h.count

end NetBSD.Netinet.TcpReass
