import NetBSD.Kern.SubrBlist.Effects

/-! Blocks that are filled.

`blstFill_spec`: filling takes exactly the blocks asked for out of the free ones, and returns how
many of them were free. -/
namespace NetBSD.Kern.SubrBlist
open Lib

section
variable {hp : Prop} {l scan c j a k blk : Nat} {t t' : Tree}

theorem Bound.mono {f f' : Nat → Bool} {h : Nat} (hb : Bound f c h) (hf : ∀ p < c, f' p = true → f p = true) : Bound f' c h :=
  fun a k hrow hc hset => hb a k hrow hc fun p hlo hhi => hf p (by omega) (hset p hlo hhi)

theorem of_fill_false {f : Nat → Bool} {p : Nat} (h : Row.fill f a k false p = true) : f p = true := by
  by_cases hin : a ≤ p ∧ p < a + k
  · rw [Row.fill_inside hin.1 hin.2] at h
    exact absurd h (by decide)
  · rwa [Row.fill_outside (by omega)] at h

theorem Part.shrink (h : Part hp l t scan c) (hj : j * radix l < c) (hak : a + k ≤ kidBlocks l c j)
    (he : Effect hp l t t' (kid l scan j) (kidBlocks l c j) a k false) :
    Part hp l t' scan c ∧ KidsEffect hp l t t' scan c (j * radix l + a) k false ∧ t' scan = t scan := by
  have hke := h.kids.effect h.le hj hak he
  have hself := he.node_self
  refine ⟨⟨h.pos, h.le, hke.kids, by rw [hself]; exact h.hint, fun hhp => ?_⟩, hke, hself⟩
  rw [hself]
  exact (h.bound hhp).mono fun p hpc hset => of_fill_false (by rw [← hke.below p hpc]; exact hset)

theorem Part.set (h : Part hp l t scan c) {x : Blmeta} (hhint : x.bighint ≠ terminator) (hbound : hp → Bound (below l t scan) c x.bighint) :
    Part hp l (t.set scan x) scan c ∧ ∀ p < c, below l (t.set scan x) scan p = below l t scan p := by
  have hbelow : ∀ p < c, below l (t.set scan x) scan p = below l t scan p :=
    fun p hpc => below_congr (fun j _ => agree_set x j) (lt_of_lt_of_le hpc h.le)
  refine ⟨⟨h.pos, h.le, h.kids.congr h.le fun j _ => agree_set x j, by rw [Tree.set_self]; exact hhint, fun hhp => ?_⟩, hbelow⟩
  rw [Tree.set_self]
  exact (hbound hhp).congr hbelow

/-- The node as the search in its children finds it. -/
def opened (l : Nat) (t : Tree) (scan : Nat) : Tree := if (t scan).avail = radix (l + 1) then expand l true scan 17 t 1 else t

theorem opened_spec (hok : Ok hp (l + 1) t scan c) (h0 : (t scan).avail ≠ 0) :
    Part hp l (opened l t scan) scan c ∧ (∀ p < c, below l (opened l t scan) scan p = isFree (l + 1) t scan p) ∧
      opened l t scan scan = t scan ∧ ∀ i, i < scan ∨ scan + skip (l + 1) < i → opened l t scan i = t i := by
  unfold opened
  split
  case isTrue hr =>
    have havail := hok.avail
    have hle := Row.count_le (n := c) (f := isFree (l + 1) t scan)
    have hc := hok.le
    obtain ⟨hkids, hbelow, hframe⟩ := @expand_spec hp _ _ _ _ true hok.shape hok.pos hok.le fun _ => by omega
    have hself := hframe scan (.inl (le_refl _))
    have hfree : ∀ p < c, below l (expand l true scan 17 t 1) scan p = isFree (l + 1) t scan p := by
      intro p hpc
      rw [hbelow p hpc, isFree, if_neg h0, if_pos hr]
    refine ⟨⟨hok.pos, hok.le, hkids, by rw [hself]; exact hok.hint, fun hhp => ?_⟩, hfree, hself, fun i hi => hframe i (by omega)⟩
    rw [hself]
    exact (hok.bound hhp).congr hfree
  case isFalse hr =>
    obtain ⟨hpart, hfree⟩ := hok.part h0 hr
    exact ⟨hpart, fun p _ => (hfree p).symm, rfl, fun _ _ => rfl⟩

theorem empty_effect {x : Blmeta} (hok : Ok hp (l + 1) t scan c) (havail : x.avail = 0) (hhint : x.bighint ≠ terminator)
    (hempty : ∀ p < c, Row.fill (isFree (l + 1) t scan) a k false p = false) :
    Effect hp (l + 1) t (t.set scan x) scan c a k false := by
  have hfree : ∀ p, isFree (l + 1) (t.set scan x) scan p = false := by
    intro p
    rw [isFree, Tree.set_self, if_pos havail]
  refine ⟨⟨hok.pos, hok.le, ?_, ?_, fun _ => bound_of_clear fun p _ => hfree p, fun hne => ?_⟩, fun p hpc => ?_,
    fun i hi => Tree.set_of_ne (by omega) _⟩
  · exact shape_root hok.shape hok.le (fun i hlo _ => Tree.set_of_ne (by omega) _) (by rw [Tree.set_self]; exact hhint)
  · rw [Tree.set_self, havail, Row.count_empty fun p _ => hfree p]
  · rw [Tree.set_self] at hne
    exact absurd havail hne
  · rw [hfree, hempty p hpc]

theorem leafTake_effect {mask : Word} (hok : Ok hp 0 t scan c) (hmask : IsMask mask a k) :
    Effect hp 0 t (t.set scan { t scan with bitmap := (t scan).bitmap &&& ~~~mask }) scan c a k false := by
  have hc : c ≤ 32 := hok.le
  have hfree : ∀ p < 32, isFree 0 (t.set scan { t scan with bitmap := (t scan).bitmap &&& ~~~mask }) scan p =
      Row.fill (isFree 0 t scan) a k false p := by
    intro p hp32
    rw [isFree, Tree.set_self]
    exact andNot_mask hmask hp32
  refine ⟨⟨hok.pos, hok.le, ?_, fun p hle hlt => ?_, fun hhp => ?_⟩, fun p hpc => hfree p (by omega), fun i hi => ?_⟩
  · rw [Shape, Tree.set_self]
    exact hok.hint
  · by_contra hset
    rw [Bool.not_eq_false] at hset
    have hcell := hfree p hlt
    rw [isFree, hset] at hcell
    have hold := hok.content.1 p hle hlt
    rw [← isFree, of_fill_false hcell.symm] at hold
    exact absurd hold (by decide)
  · rw [Tree.set_self]
    exact (hok.bound hhp).mono fun p hpc hset => of_fill_false (by rw [← hfree p (by omega)]; exact hset)
  · exact Tree.set_of_ne (by omega) _

theorem leafFill_count {w mask : Word} (hmask : IsMask mask a k) (hak : a + k ≤ 32) : countBits 33 (w &&& mask) 0 = Row.countIn w.getLsbD a k := by
  have hbits : ∀ p < 32, (w &&& mask).getLsbD p = if a ≤ p ∧ p < a + k then w.getLsbD p else false := by
    intro p hp32
    rw [BitVec.getLsbD_and, hmask p hp32]
    split
    case isTrue hin => rw [decide_eq_true hin, Bool.and_true]
    case isFalse hin => rw [decide_eq_false hin, Bool.and_false]
  have hle := Row.count_le (n := 32) (f := (w &&& mask).getLsbD)
  rw [countBits_eq (by omega), zero_add, ← Row.count_fill_clear hak, Row.count_empty, zero_add]
  · refine Row.countIn_congr fun p hpk => ?_
    rw [hbits _ (by omega), if_pos (by omega)]
  intro p hp32
  by_cases hin : a ≤ p ∧ p < a + k
  · exact Row.fill_inside hin.1 hin.2
  · rw [Row.fill_outside (by omega), hbits p hp32, if_neg hin]

/-- What filling in a node of level `l` is to do. -/
def FillSpec (hp : Prop) (l : Nat) (op : Tree → Nat → Nat → Nat → Nat → Option (Nat × Tree)) : Prop :=
  ∀ {t scan c a k blk}, Ok hp l t scan c → 0 < k → a + k ≤ c → blk % 32 = 0 →
    ∃ t', op t scan (blk + a) k blk = some (Row.countIn (isFree l t scan) a k, t') ∧ Effect hp l t t' scan c a k false

theorem leafFill_spec : FillSpec hp 0 (blstFill 0) := by
  intro t scan c a k blk hok hk hak hblk
  have hc : c ≤ 32 := hok.le
  have hmask := @isMask_leafMask k (blk + a) (by omega)
  rw [show (blk + a) % 32 = a by omega] at hmask
  refine ⟨_, ?_, leafTake_effect hok hmask⟩
  rw [blstFill, blstLeafFill, leafFill_count hmask (by omega)]
  rfl

section
variable {child : Tree → Nat → Nat → Nat → Nat → Option (Nat × Tree)}

theorem fillLoop_spec (hchild : FillSpec hp l child)
    {rounds nblks : Nat} (h : Part hp l t scan c) (hrounds : 17 ≤ rounds + j) (hj : j ≤ 16) (hak : a + k ≤ c)
    (hblk : blk % 32 = 0) (hin : 0 < k → j * radix l ≤ a ∧ a < (j + 1) * radix l) (hend : k = 0 → a ≤ j * radix l) :
    ∃ t', fillLoop child l scan rounds t (1 + j * (skip l + 1)) (blk + a) k (blk + j * radix l) nblks =
        some (nblks + Row.countIn (below l t scan) a k, t'.set scan
          { t scan with avail := (t scan).avail - (nblks + Row.countIn (below l t scan) a k) }) ∧
      Part hp l t' scan c ∧ KidsEffect hp l t t' scan c a k false ∧ t' scan = t scan := by
  induction rounds generalizing j a k t nblks with
  | zero => omega
  | succ rounds ih =>
    rw [fillLoop]
    by_cases hk : k = 0
    · subst hk
      have := hend rfl
      rw [if_neg (by omega)]
      exact ⟨t, rfl, h, KidsEffect.refl h.kids a false, rfl⟩
    obtain ⟨hlo, hhi⟩ := hin (by omega)
    have hjc : j * radix l < c := by omega
    have hj16 := kid_lt_sixteen h.le hjc
    have hsucc : (j + 1) * radix l = j * radix l + radix l := Nat.succ_mul _ _
    rw [if_pos ⟨(round_iff l j).2 hj16, by omega⟩, if_neg h.hint]
    obtain ⟨v, hv⟩ : ∃ v, v = min ((j + 1) * radix l - a) k := ⟨_, rfl⟩
    have hvdef : (if blk + j * radix l + radix l - (blk + a) > k then k else blk + j * radix l + radix l - (blk + a)) = v := by
      split <;> omega
    obtain ⟨hvk, hve, hvpos, hlast⟩ : v ≤ k ∧ a + v ≤ (j + 1) * radix l ∧ 0 < v ∧ (v = k ∨ a + v = (j + 1) * radix l) := by omega
    clear hv
    have hroom : a - j * radix l + v ≤ kidBlocks l c j := le_min (by omega) (by omega)
    obtain ⟨q, hq⟩ := Dvd.dvd.mul_left (radix_dvd l) j
    obtain ⟨t₁, hrun, heff⟩ := @hchild _ _ _ (a - j * radix l) v (blk + j * radix l) (h.kids.ok j hjc) (by omega)
      hroom (by omega)
    rw [show blk + j * radix l + (a - j * radix l) = blk + a by omega] at hrun
    obtain ⟨hpart, hke, hself⟩ := h.shrink hjc hroom heff
    rw [show j * radix l + (a - j * radix l) = a by omega] at hke
    have hcount : Row.countIn (isFree l t (kid l scan j)) (a - j * radix l) v = Row.countIn (below l t scan) a v := by
      refine Row.countIn_congr fun p hpv => ?_
      rw [← below_kid (by omega)]
      congr 1
      omega
    rw [hvdef, kid_def, hrun]
    dsimp only
    rw [nextSkip_eq, round_next, show blk + j * radix l + radix l = blk + (j + 1) * radix l by omega,
      show blk + a + v = blk + (a + v) by omega, hcount]
    obtain ⟨t', hloop, hpart', hke', hself'⟩ := @ih (j + 1) (a + v) (k - v) t₁
      (nblks + Row.countIn (below l t scan) a v) hpart (by omega) hj16 (by omega)
      (fun _ => by rw [Nat.succ_mul (j + 1)]; omega) (fun _ => by omega)
    -- What is left to do has not changed.
    have hrest : Row.countIn (below l t₁ scan) (a + v) (k - v) = Row.countIn (below l t scan) (a + v) (k - v) :=
      Row.countIn_congr fun p hpk => by rw [hke.below _ (by omega), Row.fill_outside (by omega)]
    have hsum : Row.countIn (below l t scan) a k = Row.countIn (below l t scan) a v + Row.countIn (below l t scan) (a + v) (k - v) := by
      rw [← Row.countIn_add, show v + (k - v) = k by omega]
    rw [hrest, add_assoc, ← hsum, hself] at hloop
    refine ⟨t', hloop, hpart', ?_, hself'.trans hself⟩
    have htrans := hke.trans hke'
    rwa [show v + (k - v) = k by omega] at htrans

theorem blstMetaFill_spec (hl : radix (l + 1) < terminator) (hchild : FillSpec hp l child) : FillSpec hp (l + 1) (blstMetaFill child l) := by
  intro t scan c a k blk hok hk hak hblk
  have hc := hok.le
  have havail := hok.avail
  unfold blstMetaFill
  split
  case isTrue hcase =>
    -- All blocks are filled, or none was free.
    have hempty : ∀ p < c, Row.fill (isFree (l + 1) t scan) a k false p = false := by
      intro p hpc
      obtain hr | h0 := hcase
      · exact Row.fill_inside (by omega) (by omega)
      rw [h0] at havail
      unfold Row.fill
      split
      · rfl
      · exact Row.clear_of_count havail.symm p hpc
    have hcount : Row.countIn (isFree (l + 1) t scan) a k = (t scan).avail := by
      have hsum := Row.count_fill_clear (f := isFree (l + 1) t scan) hak
      rw [Row.count_empty hempty] at hsum
      omega
    rw [hcount]
    exact ⟨_, rfl, empty_effect hok rfl (show k ≠ terminator by omega) hempty⟩
  case isFalse hcase =>
    obtain ⟨hr, h0⟩ := not_or.1 hcase
    rw [if_neg (by omega)]
    dsimp only
    rw [← opened, nextSkip_eq, show blk + a - blk = a by omega]
    obtain ⟨hpart, hbelow, hself, hframe⟩ := opened_spec hok h0
    have hdiv := Nat.div_add_mod a (radix l)
    have hmod := Nat.mod_lt a (radix_pos l)
    rw [mul_comm] at hdiv
    have hj16 := kid_lt_sixteen hok.le (kid_of_lt l (show a < c by omega)).1
    obtain ⟨t', hloop, hpart', hke, hself'⟩ := @fillLoop_spec _ _ _ _ (a / radix l) a k blk _ _ hchild
      17 0 hpart (Nat.le_add_right _ _) (by omega) hak hblk (fun _ => by rw [Nat.succ_mul]; omega)
      (fun h0 => by omega)
    have hcount : Row.countIn (below l (opened l t scan) scan) a k = Row.countIn (isFree (l + 1) t scan) a k :=
      Row.countIn_congr fun p hpk => hbelow _ (by omega)
    rw [zero_add, hcount, hself, add_comm 1] at hloop
    rw [hself] at hself'
    have hfill : ∀ p < c, below l t' scan p = Row.fill (isFree (l + 1) t scan) a k false p := by
      intro p hpc
      rw [hke.below p hpc]
      unfold Row.fill
      rw [hbelow p hpc]
    obtain ⟨hpart'', hbelow''⟩ := hpart'.set
      (x := { t scan with avail := (t scan).avail - Row.countIn (isFree (l + 1) t scan) a k }) hok.hint
      (fun hhp => by have hb := hpart'.bound hhp; rwa [hself'] at hb)
    have hsum := Row.count_fill_clear (f := isFree (l + 1) t scan) hak
    obtain ⟨hok', hfree⟩ := hpart''.node (by
      rw [Tree.set_self, Row.count_congr fun p hpc => (hbelow'' p hpc).trans (hfill p hpc)]
      show (t scan).avail - _ = _
      omega)
    refine ⟨_, hloop, hok', fun p hpc => by rw [hfree p hpc, hbelow'' p hpc, hfill p hpc], fun i hi => ?_⟩
    rw [Tree.set_of_ne (by omega), hke.frame i hi, hframe i hi]

end

theorem blstFill_spec (hl : radix l < terminator) : FillSpec hp l (blstFill l) := by
  induction l with
  | zero => exact leafFill_spec
  | succ l ih =>
    have hlt : radix l < terminator := by
      rw [radix] at hl
      omega
    intro t scan c a k blk hok hk hak hblk
    exact blstMetaFill_spec hl (ih hlt) hok hk hak hblk

end

end NetBSD.Kern.SubrBlist
