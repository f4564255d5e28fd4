import NetBSD.Kern.SubrBlist.Leaves

/-! What a tree says.

`isFree` is the set of free blocks under a node, read down to the first collapsed node. `Shape` is
how the nodes and terminators lie in the array, whatever they hold; `Content` says that the counters
of the nodes that are not stale count the free blocks and, if `hp` is true, that no hint is too
low. All three look at the nodes from the node to the end of what is below it, and at no others. -/
namespace NetBSD.Kern.SubrBlist
open Nat
open Lib

/-- The node of child `j` of the node of level `l + 1` at `scan`. -/
def kid (l scan j : Nat) : Nat := scan + (1 + j * (skip l + 1))

/-- The blocks of child `j` of a node that has `c` blocks. -/
def kidBlocks (l c j : Nat) : Nat := min (radix l) (c - j * radix l)

/-- A block is free, counted from the first one of the node. -/
def isFree : Nat → Tree → Nat → Nat → Bool
  | 0, t, scan, p => (t scan).bitmap.getLsbD p
  | l + 1, t, scan, p =>
    if (t scan).avail = 0 then false
    else if (t scan).avail = radix (l + 1) then true
    else isFree l t (kid l scan (p / radix l)) (p % radix l)

/-- What the children say of a block. -/
def below (l : Nat) (t : Tree) (scan p : Nat) : Bool := isFree l t (kid l scan (p / radix l)) (p % radix l)

/-- No `h + 1` free blocks in a row in a leaf. -/
def Bound (f : Nat → Bool) (c h : Nat) : Prop :=
  ∀ a k, a % 32 + k ≤ 32 → a + k ≤ c → (∀ p, a ≤ p → p < a + k → f p = true) → k ≤ h

/-- The children that have blocks are there, and the next one is a terminator. -/
def Shape : Nat → Tree → Nat → Nat → Prop
  | 0, t, scan, _ => (t scan).bighint ≠ terminator
  | l + 1, t, scan, c => (t scan).bighint ≠ terminator ∧ (∀ j, j * radix l < c → Shape l t (kid l scan j) (kidBlocks l c j)) ∧
      ∀ j < 16, (j - 1) * radix l < c → c ≤ j * radix l → (t (kid l scan j)).bighint = terminator

def Content (hp : Prop) : Nat → Tree → Nat → Nat → Prop
  | 0, t, scan, c => (∀ p, c ≤ p → p < 32 → (t scan).bitmap.getLsbD p = false) ∧ (hp → Bound (isFree 0 t scan) c (t scan).bighint)
  | l + 1, t, scan, c => (t scan).avail = Row.count c (isFree (l + 1) t scan) ∧ (hp → Bound (isFree (l + 1) t scan) c (t scan).bighint) ∧
      ((t scan).avail ≠ 0 → (t scan).avail ≠ radix (l + 1) → ∀ j, j * radix l < c → Content hp l t (kid l scan j) (kidBlocks l c j))

/-- A node of level `l` with `c` blocks. -/
structure Ok (hp : Prop) (l : Nat) (t : Tree) (scan c : Nat) : Prop where
  pos : 0 < c
  le : c ≤ radix l
  shape : Shape l t scan c
  content : Content hp l t scan c

/-! ### Arithmetic of the layout -/

section
variable {l c j p scan : Nat}

theorem radix_pos (l : Nat) : 0 < radix l := by
  induction l with
  | zero => decide
  | succ l ih => exact Nat.mul_pos ih (by decide)

theorem radix_dvd (l : Nat) : 32 ∣ radix l := by
  induction l with
  | zero => exact dvd_refl _
  | succ l ih => exact Dvd.dvd.mul_right ih 16

@[simp]
theorem nextSkip_eq (l : Nat) : nextSkip l = skip l + 1 := Nat.mul_div_cancel _ (by decide)

theorem kid_lt_sixteen (hc : c ≤ radix (l + 1)) (hj : j * radix l < c) : j < 16 := by
  have : j * radix l < 16 * radix l := by
    rw [radix] at hc
    omega
  exact Nat.lt_of_mul_lt_mul_right this

theorem kidBlocks_pos (hj : j * radix l < c) : 0 < kidBlocks l c j := by
  have := radix_pos l
  unfold kidBlocks
  omega

theorem kidBlocks_le (l c j : Nat) : kidBlocks l c j ≤ radix l := min_le_left _ _

theorem kidBlocks_end (hj : j * radix l < c) : j * radix l + kidBlocks l c j ≤ c := by
  unfold kidBlocks
  omega

theorem kid_of_lt (l : Nat) (hp : p < c) : p / radix l * radix l < c ∧ p % radix l < kidBlocks l c (p / radix l) := by
  have hdiv := div_add_mod p (radix l)
  have hmod := mod_lt p (radix_pos l)
  rw [mul_comm] at hdiv
  unfold kidBlocks
  omega

theorem round_iff (l j : Nat) : 1 + j * (skip l + 1) ≤ skip (l + 1) ↔ j < 16 := by
  rw [skip]
  constructor
  · intro h
    by_contra hge
    have := Nat.mul_le_mul_right (skip l + 1) (not_lt.1 hge)
    omega
  intro h
  have := Nat.mul_le_mul_right (skip l + 1) (succ_le_of_lt h)
  rw [succ_mul] at this
  omega

theorem round_next (l j : Nat) : 1 + j * (skip l + 1) + (skip l + 1) = 1 + (j + 1) * (skip l + 1) := by
  rw [succ_mul]
  omega

theorem kid_def (l scan j : Nat) : scan + (1 + j * (skip l + 1)) = kid l scan j := rfl

theorem kid_le (hj : j < 16) : kid l scan j + skip l ≤ scan + skip (l + 1) := by
  have hmul : j * (skip l + 1) ≤ 15 * (skip l + 1) := Nat.mul_le_mul_right _ (by omega)
  rw [kid, skip]
  omega

theorem lt_kid (l scan j : Nat) : scan < kid l scan j := by
  unfold kid
  omega

theorem kid_lt_kid {j' : Nat} (h : j < j') : kid l scan j + skip l < kid l scan j' := by
  have hmul : (j + 1) * (skip l + 1) ≤ j' * (skip l + 1) := Nat.mul_le_mul_right _ h
  rw [succ_mul] at hmul
  unfold kid
  omega

end

/-! ### What is looked at -/

/-- The trees agree on a node and on what is below it. -/
def Agree (l : Nat) (t t' : Tree) (scan : Nat) : Prop := ∀ i, scan ≤ i → i ≤ scan + skip l → t' i = t i

section
variable {hp : Prop} {l scan c j : Nat} {t t' : Tree}

theorem Agree.kid (h : Agree (l + 1) t t' scan) (hj : j < 16) : Agree l t t' (kid l scan j) := by
  intro i hlo hhi
  have := @kid_le l _ scan hj
  have := lt_kid l scan j
  exact h i (by omega) (by omega)

theorem Agree.self (h : Agree l t t' scan) : t' scan = t scan := h scan (le_refl _) (Nat.le_add_right _ _)

theorem isFree_congr (h : Agree l t t' scan) {p : Nat} (hpr : p < radix l) : isFree l t' scan p = isFree l t scan p := by
  induction l generalizing scan p with
  | zero => rw [isFree, isFree, h.self]
  | succ l ih =>
    have hj : p / radix l < 16 := kid_lt_sixteen (le_refl _) (kid_of_lt l hpr).1
    rw [isFree, isFree, h.self, ih (h.kid hj) (mod_lt _ (radix_pos l))]

theorem Bound.congr {f f' : Nat → Bool} {h : Nat} (hb : Bound f c h) (hf : ∀ p < c, f' p = f p) : Bound f' c h := by
  intro a k hrow hc hset
  refine hb a k hrow hc fun p hlo hhi => ?_
  rw [← hf p (by omega)]
  exact hset p hlo hhi

theorem shape_congr (h : Agree l t t' scan) (hc : c ≤ radix l) (hs : Shape l t scan c) : Shape l t' scan c := by
  induction l generalizing scan c with
  | zero =>
    rw [Shape, h.self]
    exact hs
  | succ l ih =>
    obtain ⟨hhint, hkids, hterm⟩ := hs
    refine ⟨by rw [h.self]; exact hhint, fun j hj => ?_, fun j hj hlt hle => ?_⟩
    · exact ih (h.kid (kid_lt_sixteen hc hj)) (kidBlocks_le _ _ _) (hkids j hj)
    · rw [(h.kid hj).self]
      exact hterm j hj hlt hle

theorem content_congr (h : Agree l t t' scan) (hc : c ≤ radix l) (hs : Content hp l t scan c) : Content hp l t' scan c := by
  have hfree : ∀ p < c, isFree l t' scan p = isFree l t scan p := fun p hpc => isFree_congr h (by omega)
  induction l generalizing scan c with
  | zero =>
    obtain ⟨hclear, hbound⟩ := hs
    refine ⟨by rw [h.self]; exact hclear, fun hhp => ?_⟩
    rw [h.self]
    exact (hbound hhp).congr hfree
  | succ l ih =>
    obtain ⟨havail, hbound, hkids⟩ := hs
    rw [Content, h.self, Row.count_congr hfree]
    refine ⟨havail, fun hhp => (hbound hhp).congr hfree, fun h0 hr j hj => ?_⟩
    have hj16 := kid_lt_sixteen hc hj
    exact ih (h.kid hj16) (kidBlocks_le _ _ _) (hkids h0 hr j hj) fun p hp =>
      isFree_congr (h.kid hj16) (lt_of_lt_of_le hp (kidBlocks_le _ _ _))

theorem Ok.congr (hok : Ok hp l t scan c) (h : Agree l t t' scan) : Ok hp l t' scan c :=
  ⟨hok.pos, hok.le, shape_congr h hok.le hok.shape, content_congr h hok.le hok.content⟩

end

end NetBSD.Kern.SubrBlist
