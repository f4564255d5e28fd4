import NetBSD.Kern.SubrBlist.Effects

/-! Blocks that are freed.

`blstFree_spec`: blocks that are allocated are freed without a panic, and exactly they are. The hints
stay right if `KeepsHint`: a node that the blocks complete returns at once and keeps its hint,
which must do for a node that is all free. -/
namespace NetBSD.Kern.SubrBlist
open Lib

/-- The nodes that freeing the `k` blocks from `a` on completes, though some of their blocks were
free already, have hints that are high enough. -/
def KeepsHint : Nat → Tree → Nat → Nat → Nat → Prop
  | 0, _, _, _, _ => True
  | l + 1, t, scan, a, k => (t scan).avail = 0 ∨
      if (t scan).avail + k = radix (l + 1) then 32 ≤ (t scan).bighint
      else ∀ j < 16, a < (j + 1) * radix l → j * radix l < a + k →
        KeepsHint l t (kid l scan j) (a - j * radix l) (min (a + k) ((j + 1) * radix l) - max a (j * radix l))

def KeepsHint.decide : (l : Nat) → (t : Tree) → (scan a k : Nat) → Decidable (KeepsHint l t scan a k)
  | 0, _, _, _, _ => .isTrue trivial
  | l + 1, t, scan, a, k =>
    have : ∀ scan a k, Decidable (KeepsHint l t scan a k) := KeepsHint.decide l t
    inferInstanceAs (Decidable ((t scan).avail = 0 ∨
      if (t scan).avail + k = radix (l + 1) then 32 ≤ (t scan).bighint
      else ∀ j < 16, a < (j + 1) * radix l → j * radix l < a + k →
        KeepsHint l t (kid l scan j) (a - j * radix l) (min (a + k) ((j + 1) * radix l) - max a (j * radix l))))

instance (l : Nat) (t : Tree) (scan a k : Nat) : Decidable (KeepsHint l t scan a k) := KeepsHint.decide l t scan a k

section
variable {hp : Prop} {l scan c j a k blk : Nat} {t t' : Tree}

theorem keepsHint_congr (h : Agree l t t' scan) (hk : KeepsHint l t scan a k) : KeepsHint l t' scan a k := by
  induction l generalizing scan a k with
  | zero => trivial
  | succ l ih =>
    rw [KeepsHint, h.self]
    refine hk.imp_right fun hk => ?_
    split at hk
    case isTrue heq =>
      rw [if_pos heq]
      exact hk
    case isFalse heq =>
      rw [if_neg heq]
      exact fun j hj hlo hhi => ih (h.kid hj) (hk j hj hlo hhi)

theorem leafFree_effect (hok : Ok hp 0 t scan c) (hk : 0 < k) (hak : a + k ≤ c) (hblk : blk % 32 = 0)
    (hclear : ∀ p, a ≤ p → p < a + k → isFree 0 t scan p = false) :
    ∃ t', blstFree 0 t scan (blk + a) k blk = some t' ∧ Effect hp 0 t t' scan c a k true := by
  have hc : c ≤ 32 := hok.le
  have hn : (blk + a) % 32 = a := by omega
  have hmask := @isMask_leafMask k (blk + a) (by omega)
  rw [hn] at hmask
  have hzero : (t scan).bitmap &&& leafMask (blk + a) k = 0 := (and_mask_eq_zero hmask (by omega)).2 hclear
  refine ⟨_, by rw [blstFree, blstLeafFree, if_neg (not_not.2 hzero)]; rfl, ?_⟩
  have hfree : ∀ p < 32, isFree 0 (t.set scan { t scan with bitmap := (t scan).bitmap ||| leafMask (blk + a) k, bighint := 32 })
      scan p = Row.fill (isFree 0 t scan) a k true p := by
    intro p hp32
    rw [isFree, Tree.set_self]
    exact or_mask hmask hp32
  refine ⟨⟨hok.pos, hok.le, ?_, ?_, ?_⟩, fun p hpc => hfree p (by omega), fun i hi => ?_⟩
  · rw [Shape, Tree.set_self]
    exact (by decide : (32 : Nat) ≠ terminator)
  · intro p hle hlt
    have hcell := hfree p hlt
    rw [isFree, Row.fill_outside (by omega)] at hcell
    rw [hcell]
    exact hok.content.1 p hle hlt
  · intro _
    rw [Tree.set_self]
    exact bound_of_le (le_refl _)
  · exact Tree.set_of_ne (by omega) _

/-- What freeing in a node of level `l` is to do. -/
def FreeSpec (hp : Prop) (l : Nat) (op : Tree → Nat → Nat → Nat → Nat → Option Tree) : Prop :=
  ∀ {t scan c a k blk}, Ok hp l t scan c → 0 < k → a + k ≤ c → blk % 32 = 0 →
    (∀ p, a ≤ p → p < a + k → isFree l t scan p = false) → (hp → KeepsHint l t scan a k) →
    ∃ t', op t scan (blk + a) k blk = some t' ∧ Effect hp l t t' scan c a k true

/-- The hint of a node that is at least that of the child whose blocks were freed. -/
theorem Part.raise {v : Nat} (h : Part hp l t scan c) (hj : j * radix l < c) (hak : a + v ≤ kidBlocks l c j)
    (he : Effect hp l t t' (kid l scan j) (kidBlocks l c j) a v true) :
    Part hp l (raiseHint scan t' (1 + j * (skip l + 1))) scan c ∧
      KidsEffect hp l t (raiseHint scan t' (1 + j * (skip l + 1))) scan c (j * radix l + a) v true ∧
      (raiseHint scan t' (1 + j * (skip l + 1)) scan).avail = (t scan).avail ∧
      ∀ j' ≠ j, Agree l t (raiseHint scan t' (1 + j * (skip l + 1))) (kid l scan j') := by
  have hke := h.kids.effect h.le hj hak he
  have hself := he.node_self
  -- Whether or not the hint is raised, it is the greater of the two.
  obtain ⟨x, hraise, havail, hge, hkid, hhint⟩ : ∃ x : Blmeta, raiseHint scan t' (1 + j * (skip l + 1)) = t'.set scan x ∧
      x.avail = (t scan).avail ∧ (t scan).bighint ≤ x.bighint ∧ (t' (kid l scan j)).bighint ≤ x.bighint ∧
      x.bighint ≠ terminator := by
    unfold raiseHint
    rw [hself]
    split
    case isTrue hlt => exact ⟨_, rfl, rfl, le_of_lt hlt, le_refl _, he.ok.hint⟩
    case isFalse hlt =>
      refine ⟨t scan, ?_, rfl, le_refl _, not_lt.1 hlt, h.hint⟩
      rw [← hself, Tree.set, Function.update_eq_self]
  rw [hraise]
  have hset := hke.set h.le x
  refine ⟨⟨h.pos, h.le, hset.kids, by rw [Tree.set_self]; exact hhint, fun hhp => ?_⟩, hset, by rw [Tree.set_self, havail], ?_⟩
  · rw [Tree.set_self, bound_below]
    intro j' hj'
    by_cases heq : j' = j
    · subst heq
      have hb := (hset.kids.ok j' hj').bound hhp
      rw [Tree.set_of_ne (ne_of_gt (lt_kid l scan j'))] at hb
      exact fun a' k' hrow hle hset' => le_trans (hb a' k' hrow hle hset') hkid
    · have hb := bound_below.1 (h.bound hhp) j' hj'
      refine Bound.congr (fun a' k' hrow hle hset' => le_trans (hb a' k' hrow hle hset') hge) fun p hpc => ?_
      exact isFree_congr ((he.others heq).set x) (lt_of_lt_of_le hpc (kidBlocks_le _ _ _))
  · exact fun j' hne => (he.others hne).set x

theorem fill_disjoint {f f' : Nat → Bool} {v p : Nat} {b : Bool} (hf : f' p = Row.fill f a v b p) (hp : a + v ≤ p) : f' p = f p := by
  rw [hf, Row.fill_outside (by omega)]

theorem part_here {v s e : Nat} (hv : v = min (e - a) k) (hsa : s ≤ a) : min (a + k) e - max a s = v := by
  omega

theorem part_behind {v e s e' : Nat} (hv : v = min (e - a) k) (hae : a < e) (hrest : 0 < k - v) (hes : e ≤ s) :
    a - s = a + v - s ∧ min (a + k) e' - max a s = min (a + v + (k - v)) e' - max (a + v) s := by
  have hend : a + v = e := by omega
  have hsum : a + v + (k - v) = a + k := by omega
  rw [hsum, hend, max_eq_right hes, max_eq_right (by omega)]
  exact ⟨by omega, rfl⟩

theorem freeLoop_spec {child : Tree → Nat → Nat → Nat → Nat → Option Tree} (hchild : FreeSpec hp l child) {rounds : Nat}
    (h : Part hp l t scan c) (hrounds : 17 ≤ rounds + j) (hj : j ≤ 16) (hak : a + k ≤ c) (hblk : blk % 32 = 0)
    (hin : 0 < k → j * radix l ≤ a ∧ a < (j + 1) * radix l) (hend : k = 0 → a ≤ j * radix l)
    (hclear : ∀ p, a ≤ p → p < a + k → below l t scan p = false)
    (hkeep : hp → 0 < k → ∀ j' < 16, a < (j' + 1) * radix l → j' * radix l < a + k →
      KeepsHint l t (kid l scan j') (a - j' * radix l) (min (a + k) ((j' + 1) * radix l) - max a (j' * radix l))) :
    ∃ t', freeLoop child l scan rounds t (1 + j * (skip l + 1)) (blk + a) k (blk + j * radix l) = some t' ∧
      Part hp l t' scan c ∧ KidsEffect hp l t t' scan c a k true ∧ (t' scan).avail = (t scan).avail := by
  induction rounds generalizing j a k t with
  | zero => omega
  | succ rounds ih =>
    rw [freeLoop]
    by_cases hk : k = 0
    · subst hk
      have := hend rfl
      rw [if_neg (by omega)]
      exact ⟨t, rfl, h, KidsEffect.refl h.kids a true, rfl⟩
    have hkpos := pos_of_ne_zero hk
    obtain ⟨hlo, hhi⟩ := hin hkpos
    have hjc : j * radix l < c := by omega
    have hj16 := kid_lt_sixteen h.le hjc
    have hsucc : (j + 1) * radix l = j * radix l + radix l := Nat.succ_mul _ _
    rw [if_pos ⟨(round_iff l j).2 hj16, by omega⟩, if_neg h.hint]
    -- The part of the blocks that is in this child.
    obtain ⟨v, hv⟩ : ∃ v, v = min ((j + 1) * radix l - a) k := ⟨_, rfl⟩
    have hvdef : (if blk + j * radix l + radix l - (blk + a) > k then k else blk + j * radix l + radix l - (blk + a)) = v := by
      split <;> omega
    have hroom : a - j * radix l + v ≤ kidBlocks l c j := by
      unfold kidBlocks
      omega
    have hok := h.kids.ok j hjc
    obtain ⟨t₁, hrun, heff⟩ := @hchild _ _ _ (a - j * radix l) v (blk + j * radix l) hok (by omega) hroom
      (by
        obtain ⟨q, hq⟩ := Dvd.dvd.mul_left (radix_dvd l) j
        omega)
      (fun p hplo hphi => by
        rw [← below_kid (by omega)]
        exact hclear _ (by omega) (by omega))
      (fun hhp => by
        have hkp := hkeep hhp (by omega) j hj16 hhi (by omega)
        rw [part_here hv hlo] at hkp
        exact hkp)
    rw [show blk + j * radix l + (a - j * radix l) = blk + a by omega] at hrun
    obtain ⟨hpart, hke, havail, hothers⟩ := h.raise hjc hroom heff
    rw [show j * radix l + (a - j * radix l) = a by omega] at hke
    rw [hvdef, kid_def, hrun]
    dsimp only
    rw [nextSkip_eq, round_next, show blk + j * radix l + radix l = blk + (j + 1) * radix l by omega,
      show blk + a + v = blk + (a + v) by omega]
    generalize raiseHint scan t₁ (1 + j * (skip l + 1)) = t₂ at hpart hke havail hothers
    obtain ⟨t', hloop, hpart', hke', havail'⟩ := ih (j := j + 1) (a := a + v) (k := k - v) (t := t₂) hpart (by omega) hj16
      (by omega) (fun _ => by rw [Nat.succ_mul (j + 1)]; omega) (fun _ => by omega)
      (fun p hplo hphi => by
        rw [fill_disjoint (hke.below p (by omega)) hplo]
        exact hclear p (by omega) (by omega))
      (fun hhp hk' j' hj' hlo' hhi' => by
        have hne : j + 1 ≤ j' := by
          by_contra hlt
          have := Nat.mul_le_mul_right (radix l) (show j' + 1 ≤ j + 1 by omega)
          omega
        have hmul := Nat.mul_le_mul_right (radix l) hne
        have hsum : a + v + (k - v) = a + k := by rw [add_assoc, Nat.add_sub_cancel' (hv ▸ min_le_right _ _)]
        have hlo : a < (j' + 1) * radix l := lt_of_le_of_lt (Nat.le_add_right a v) hlo'
        have hkp := keepsHint_congr (hothers j' (ne_of_gt hne)) (hkeep hhp hkpos j' hj' hlo (hsum ▸ hhi'))
        obtain ⟨hfirst, hpart'⟩ := @part_behind _ _ _ _ _ ((j' + 1) * radix l) hv hhi hk' hmul
        rw [hfirst, hpart'] at hkp
        exact hkp)
    refine ⟨t', hloop, hpart', ?_, havail'.trans havail⟩
    have htrans := hke.trans hke'
    rwa [show v + (k - v) = k by omega] at htrans

theorem full_effect {x : Blmeta} (hok : Ok hp (l + 1) t scan c) (hak : a + k ≤ c)
    (hclear : ∀ p, a ≤ p → p < a + k → isFree (l + 1) t scan p = false)
    (havail : x.avail = radix (l + 1)) (hcount : (t scan).avail + k = radix (l + 1)) (hhint : x.bighint ≠ terminator)
    (hbound : hp → 32 ≤ x.bighint) : Effect hp (l + 1) t (t.set scan x) scan c a k true := by
  have hsum := Row.count_fill_true hak hclear
  rw [← hok.avail] at hsum
  have hle := Row.count_le (n := c) (f := Row.fill (isFree (l + 1) t scan) a k true)
  have hc := hok.le
  have hfull := Row.full_of_count (n := c) (f := Row.fill (isFree (l + 1) t scan) a k true) (by omega)
  have hfree : ∀ p, isFree (l + 1) (t.set scan x) scan p = true := by
    intro p
    have := radix_pos (l + 1)
    rw [isFree, Tree.set_self, if_neg (by omega), if_pos havail]
  refine ⟨⟨hok.pos, hok.le, ?_, ?_, ?_, ?_⟩, fun p hpc => ?_, fun i hi => Tree.set_of_ne (by omega) _⟩
  · exact shape_root hok.shape hok.le (fun i hlo _ => Tree.set_of_ne (by omega) _) (by rw [Tree.set_self]; exact hhint)
  · rw [Tree.set_self, Row.count_full fun p _ => hfree p]
    omega
  · intro hhp
    rw [Tree.set_self]
    exact bound_of_le (hbound hhp)
  · intro _ hne
    rw [Tree.set_self] at hne
    exact absurd havail hne
  · rw [hfree, hfull p hpc]

theorem Ok.avail_le (h : Ok hp (l + 1) t scan c) (hak : a + k ≤ c)
    (hclear : ∀ p, a ≤ p → p < a + k → isFree (l + 1) t scan p = false) : (t scan).avail + k ≤ radix (l + 1) := by
  have hsum := Row.count_fill_true hak hclear
  have hle := Row.count_le (n := c) (f := Row.fill (isFree (l + 1) t scan) a k true)
  have := h.le
  rw [← h.avail] at hsum
  omega

/-- The node is given the new counter, and children that say what it said. -/
theorem freeAvail_spec (hl : radix (l + 1) < terminator) (hok : Ok hp (l + 1) t scan c) (hk : 0 < k) (hak : a + k ≤ c)
    (hkeep : hp → KeepsHint (l + 1) t scan a k) (hsum : (t scan).avail + k < radix (l + 1)) :
    Part hp l (freeAvail l t scan k) scan c ∧ (∀ p < c, below l (freeAvail l t scan k) scan p = isFree (l + 1) t scan p) ∧
      (freeAvail l t scan k scan).avail = (t scan).avail + k ∧
      (∀ i, i < scan ∨ scan + skip (l + 1) < i → freeAvail l t scan k i = t i) ∧
      (hp → ∀ j < 16, a < (j + 1) * radix l → j * radix l < a + k → KeepsHint l (freeAvail l t scan k) (kid l scan j)
        (a - j * radix l) (min (a + k) ((j + 1) * radix l) - max a (j * radix l))) := by
  unfold freeAvail
  by_cases h0 : (t scan).avail = 0
  · rw [if_pos h0, if_pos (show k ≠ radix (l + 1) by omega)]
    have hshape : Shape (l + 1) (t.set scan { t scan with avail := k, bighint := k }) scan c :=
      shape_root hok.shape hok.le (fun i hlo _ => Tree.set_of_ne (by omega) _)
        (by rw [Tree.set_self]; exact show k ≠ terminator by omega)
    obtain ⟨hkids, hbelow, hframe⟩ := @expand_spec hp _ _ _ _ false hshape hok.pos hok.le nofun
    have hself := hframe scan (.inl (le_refl _))
    rw [Tree.set_self] at hself
    refine ⟨⟨hok.pos, hok.le, hkids, ?_, fun _ => bound_of_clear hbelow⟩, fun p hpc => ?_, ?_, fun i hi => ?_, fun hhp j hj hlo hhi => ?_⟩
    · rw [hself]
      exact show k ≠ terminator by omega
    · rw [hbelow p hpc, isFree, if_pos h0]
    · rw [hself, h0, zero_add]
    · rw [hframe i (by omega), Tree.set_of_ne (by omega)]
    -- A child that has just been marked as all allocated.
    have hjc : j * radix l < c := by omega
    have hkid := hkids.ok j hjc
    cases l with
    | zero => trivial
    | succ l =>
      left
      rw [hkid.avail, Row.count_empty]
      intro p hpc
      have hend := kidBlocks_end hjc
      have hle := kidBlocks_le (l + 1) c j
      rw [← below_kid (by omega)]
      exact hbelow _ (by omega)
  · rw [if_neg h0]
    obtain ⟨hpart, hfree⟩ := hok.part h0 (by omega)
    have hag : ∀ j < 16, Agree l t (t.set scan { t scan with avail := (t scan).avail + k }) (kid l scan j) :=
      fun j _ => agree_set _ j
    have hbelow : ∀ p < c, below l (t.set scan { t scan with avail := (t scan).avail + k }) scan p = below l t scan p :=
      fun p hpc => below_congr hag (lt_of_lt_of_le hpc hok.le)
    refine ⟨⟨hok.pos, hok.le, hpart.kids.congr hok.le hag, ?_, fun hhp => ?_⟩, fun p hpc => ?_, ?_, fun i hi => ?_, fun hhp j hj hlo hhi => ?_⟩
    · rw [Tree.set_self]
      exact hpart.hint
    · rw [Tree.set_self]
      exact (hpart.bound hhp).congr hbelow
    · rw [hbelow p hpc, hfree]
    · rw [Tree.set_self]
    · exact Tree.set_of_ne (by omega) _
    have hkp := (hkeep hhp).resolve_left h0
    rw [if_neg (by omega)] at hkp
    exact keepsHint_congr (hag j hj) (hkp j hj hlo hhi)

theorem blstMetaFree_spec {child : Tree → Nat → Nat → Nat → Nat → Option Tree} (hl : radix (l + 1) < terminator)
    (hchild : FreeSpec hp l child) : FreeSpec hp (l + 1) (blstMetaFree child l) := by
  intro t scan c a k blk hok hk hak hblk hclear hkeep
  have hle := hok.avail_le hak hclear
  unfold blstMetaFree
  dsimp only
  by_cases hsum : (t scan).avail + k = radix (l + 1)
  · -- The node is all free now, and what is below it does not matter.
    obtain ⟨x, hset, havail, hhint, hbound⟩ : ∃ x : Blmeta, freeAvail l t scan k = t.set scan x ∧ x.avail = radix (l + 1) ∧
        x.bighint ≠ terminator ∧ (hp → 32 ≤ x.bighint) := by
      unfold freeAvail
      by_cases h0 : (t scan).avail = 0
      · rw [if_pos h0, if_neg (by omega)]
        refine ⟨_, rfl, ?_, ?_, fun _ => ?_⟩
        · show k = radix (l + 1)
          omega
        · show k ≠ terminator
          omega
        have := radix_ge (l + 1)
        show 32 ≤ k
        omega
      · rw [if_neg h0]
        refine ⟨_, rfl, hsum, hok.hint, fun hhp => ?_⟩
        have hkp := (hkeep hhp).resolve_left h0
        rw [if_pos hsum] at hkp
        exact hkp
    rw [hset, Tree.set_self, if_pos havail]
    exact ⟨_, rfl, full_effect hok hak hclear havail hsum hhint hbound⟩
  · obtain ⟨hpart, hbelow, havail, hframe, hkeep'⟩ := freeAvail_spec hl hok hk hak hkeep (by omega)
    rw [havail, if_neg hsum, if_neg (by omega), nextSkip_eq, show blk + a - blk = a by omega]
    have hdiv := Nat.div_add_mod a (radix l)
    have hmod := Nat.mod_lt a (radix_pos l)
    rw [mul_comm] at hdiv
    have hj16 := kid_lt_sixteen hok.le (kid_of_lt l (show a < c by omega)).1
    obtain ⟨t', hloop, hpart', hke, havail'⟩ := @freeLoop_spec _ _ _ _ (a / radix l) a k blk _ _
      hchild 17 hpart (Nat.le_add_right _ _) (by omega) hak hblk (fun _ => by rw [Nat.succ_mul]; omega) (fun h0 => by omega)
      (fun p hlo hhi => by rw [hbelow p (by omega)]; exact hclear p hlo hhi) (fun hhp _ => hkeep' hhp)
    rw [add_comm 1] at hloop
    have hfill : ∀ p < c, below l t' scan p = Row.fill (isFree (l + 1) t scan) a k true p := by
      intro p hpc
      rw [hke.below p hpc]
      unfold Row.fill
      rw [hbelow p hpc]
    obtain ⟨hok', hfree⟩ := hpart'.node (by
      rw [havail', havail, Row.count_congr hfill, Row.count_fill_true hak hclear, hok.avail])
    refine ⟨t', hloop, hok', fun p hpc => by rw [hfree p hpc, hfill p hpc], fun i hi => ?_⟩
    rw [hke.frame i hi, hframe i hi]

theorem blstFree_spec (hl : radix l < terminator) : FreeSpec hp l (blstFree l) := by
  induction l with
  | zero =>
    intro t scan c a k blk hok hk hak hblk hclear _
    exact leafFree_effect hok hk hak hblk hclear
  | succ l ih =>
    have hlt : radix l < terminator := by
      rw [radix] at hl
      omega
    intro t scan c a k blk hok hk hak hblk hclear hkeep
    exact blstMetaFree_spec hl (ih hlt) hok hk hak hblk hclear hkeep

end

end NetBSD.Kern.SubrBlist
