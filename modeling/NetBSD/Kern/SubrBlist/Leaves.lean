import NetBSD.Kern.SubrBlist.Blist
import NetBSD.Lib.Runs

/-! The leaves, bit by bit.

What the functions on a leaf do, said of the single bits of its bitmap. -/
namespace NetBSD.Kern.SubrBlist
open Nat
open Lib

/-- Exactly the `count` bits from `n` on are set. -/
def IsMask (mask : Word) (n count : Nat) : Prop := ∀ i < 32, mask.getLsbD i = decide (n ≤ i ∧ i < n + count)

section
variable {w mask : Word} {n count : Nat}

theorem isMask_leafMask {blk : Nat} (h : blk % 32 + count ≤ 32) : IsMask (leafMask blk count) (blk % 32) count := by
  intro i hi
  simp only [leafMask, BitVec.getLsbD_and, BitVec.getLsbD_shiftLeft, BitVec.getLsbD_ushiftRight]
  by_cases hlo : blk % 32 ≤ i
  · rw [getLsbD_neg_one (by omega)]
    by_cases hhi : i < blk % 32 + count
    · rw [getLsbD_neg_one (by omega)]
      simp [hi, hlo, hhi]
    · rw [BitVec.getLsbD_of_ge (-1 : Word) _ (by omega)]
      simp [hhi]
  · simp [hlo, Nat.lt_of_not_le hlo]

section
variable (h : IsMask mask n count)
include h

theorem and_mask_eq_zero (hn : n + count ≤ 32) : w &&& mask = 0 ↔ ∀ i, n ≤ i → i < n + count → w.getLsbD i = false := by
  constructor
  · intro hz i hlo hhi
    have hbit := congrArg (·.getLsbD i) hz
    simpa [h i (by omega), hlo, hhi] using hbit
  intro hz
  apply BitVec.eq_of_getLsbD_eq
  intro i hi
  rw [BitVec.getLsbD_and, h i hi, show (0 : Word) = 0#32 from rfl, BitVec.getLsbD_zero]
  by_cases hin : n ≤ i ∧ i < n + count
  · rw [hz i hin.1 hin.2, Bool.false_and]
  · rw [decide_eq_false hin, Bool.and_false]

theorem and_mask_eq_mask (hn : n + count ≤ 32) : w &&& mask = mask ↔ ∀ i, n ≤ i → i < n + count → w.getLsbD i = true := by
  constructor
  · intro hz i hlo hhi
    have hbit := congrArg (·.getLsbD i) hz
    simpa [h i (by omega), hlo, hhi] using hbit
  intro hz
  apply BitVec.eq_of_getLsbD_eq
  intro i hi
  rw [BitVec.getLsbD_and, h i hi]
  by_cases hin : n ≤ i ∧ i < n + count
  · rw [hz i hin.1 hin.2, Bool.true_and]
  · rw [decide_eq_false hin, Bool.and_false]

theorem andNot_mask {i : Nat} (hi : i < 32) : (w &&& ~~~mask).getLsbD i = Row.fill w.getLsbD n count false i := by
  rw [BitVec.getLsbD_and, BitVec.getLsbD_not, h i hi, Row.fill]
  by_cases hin : n ≤ i ∧ i < n + count
  · simp [hin]
  · simp [hin, hi]

theorem or_mask {i : Nat} (hi : i < 32) : (w ||| mask).getLsbD i = Row.fill w.getLsbD n count true i := by
  rw [BitVec.getLsbD_or, h i hi, Row.fill]
  by_cases hin : n ≤ i ∧ i < n + count
  · simp [hin]
  · simp [hin]

end

theorem isMask_one {r : Nat} (hr : r < 32) : IsMask (1#32 <<< r) r 1 := by
  intro i _
  rw [getLsbD_one_shiftLeft hr]
  congr 1
  apply propext
  omega

theorem isMask_low (h : count ≤ 32) : IsMask ((-1 : Word) >>> (32 - count)) 0 count := by
  intro i hi
  rw [BitVec.getLsbD_ushiftRight]
  by_cases hin : i < count
  · rw [getLsbD_neg_one (by omega)]
    simp [hin]
  · rw [BitVec.getLsbD_of_ge (-1 : Word) _ (by omega)]
    simp [hin]

theorem lowestBit_spec (k : Nat) (hk : k ≤ 4) (r : Nat) (hmask : IsMask mask 0 (2 ^ k)) (hset : ∃ i < 2 ^ (k + 1), w.getLsbD i = true) :
    ∃ d < 2 ^ (k + 1), lowestBit k mask w r = r + d ∧ w.getLsbD d = true := by
  have hpow : 2 ^ (k + 1) ≤ 2 ^ 5 := Nat.pow_le_pow_right (by decide) (by omega)
  have hstep : 2 ^ (k + 1) = 2 ^ k + 2 ^ k := by rw [Nat.pow_succ]; omega
  induction k generalizing w mask r with
  | zero =>
    obtain ⟨i, hi, hbit⟩ := hset
    rw [lowestBit]
    split
    case isTrue hz =>
      have hzero := (and_mask_eq_zero hmask (by decide)).1 hz 0 (le_refl _) (by decide)
      have hone : i = 1 := by
        by_contra hne
        rw [show i = 0 by omega, hzero] at hbit
        exact absurd hbit (by decide)
      exact ⟨1, by decide, rfl, hone ▸ hbit⟩
    case isFalse hz =>
      refine ⟨0, by decide, rfl, ?_⟩
      by_contra hzero
      refine hz ((and_mask_eq_zero hmask (by decide)).2 fun j hlo hhi => ?_)
      rw [show j = 0 by simp at hhi; omega]
      simpa using hzero
  | succ k ih =>
    obtain ⟨i, hi, hbit⟩ := hset
    have hk2 : 2 ^ (k + 1) = 2 ^ k + 2 ^ k := by rw [Nat.pow_succ]; omega
    have hshift : IsMask (mask >>> 2 ^ k) 0 (2 ^ k) := by
      intro j hj
      rw [BitVec.getLsbD_ushiftRight]
      by_cases hlt : 2 ^ k + j < 32
      · rw [hmask _ hlt]
        congr 1
        apply propext
        omega
      · rw [BitVec.getLsbD_of_ge _ _ (by omega)]
        have : ¬(0 ≤ j ∧ j < 0 + 2 ^ k) := by omega
        rw [decide_eq_false this]
    rw [lowestBit]
    split
    case isTrue hz =>
      have hlow := (and_mask_eq_zero hmask (by omega)).1 hz
      have hhigh : 2 ^ (k + 1) ≤ i := by
        by_contra hlt
        rw [hlow i (zero_le _) (by omega)] at hbit
        exact absurd hbit (by decide)
      obtain ⟨d, hd, heq, hdbit⟩ := ih (w := w >>> 2 ^ (k + 1)) (by omega) (r + 2 ^ (k + 1)) hshift
        ⟨i - 2 ^ (k + 1), by omega, by rw [BitVec.getLsbD_ushiftRight, Nat.add_sub_cancel' hhigh]; exact hbit⟩ (by omega) hk2
      refine ⟨2 ^ (k + 1) + d, by omega, by omega, ?_⟩
      rwa [BitVec.getLsbD_ushiftRight] at hdbit
    case isFalse hz =>
      have hlow : ∃ i < 2 ^ (k + 1), w.getLsbD i = true := by
        by_contra hno
        refine hz ((and_mask_eq_zero hmask (by omega)).2 fun j hlo hhi => ?_)
        by_contra hj
        exact hno ⟨j, by omega, by simpa using hj⟩
      obtain ⟨d, hd, heq, hdbit⟩ := ih (w := w) (by omega) r hshift hlow (by omega) hk2
      exact ⟨d, by omega, heq, hdbit⟩

/-- The bits `j` to `j + count` are set. -/
def Room (w : Word) (count j : Nat) : Prop := ∀ i, j ≤ i → i < j + count → w.getLsbD i = true

theorem isMask_shift {j : Nat} (h : IsMask mask j count) : IsMask (mask <<< 1) (j + 1) count := by
  intro i hi
  rw [BitVec.getLsbD_shiftLeft]
  by_cases h0 : i < 1
  · have : ¬(j + 1 ≤ i ∧ i < j + 1 + count) := by omega
    rw [decide_eq_false this, decide_eq_true h0, Bool.not_true, Bool.and_false, Bool.false_and]
  rw [h (i - 1) (by omega)]
  simp only [hi, decide_true, Bool.true_and, h0, decide_false, Bool.not_false]
  congr 1
  apply propext
  omega

theorem fitMask_some {places j j' : Nat} {mask' : Word} (hplaces : j + places + count = 33) (hmask : IsMask mask j count)
    (h : fitMask w places j mask = some (j', mask')) : IsMask mask' j' count ∧ j' + count ≤ 32 ∧ Room w count j' := by
  induction places generalizing j mask with
  | zero => cases h
  | succ places ih =>
    rw [fitMask] at h
    split at h
    case isTrue hfit =>
      cases h
      exact ⟨hmask, by omega, (and_mask_eq_mask hmask (by omega)).1 hfit⟩
    case isFalse => exact ih (by omega) (isMask_shift hmask) h

theorem fitMask_none {places j : Nat} (hplaces : j + places + count = 33) (hmask : IsMask mask j count)
    (h : fitMask w places j mask = none) : ∀ j', j ≤ j' → j' + count ≤ 32 → ¬Room w count j' := by
  induction places generalizing j mask with
  | zero => omega
  | succ places ih =>
    rw [fitMask] at h
    split at h
    case isTrue => cases h
    case isFalse hfit =>
      intro j' hj hle hroom
      by_cases heq : j' = j
      · subst heq
        exact hfit ((and_mask_eq_mask hmask hle).2 hroom)
      · exact ih (by omega) (isMask_shift hmask) h j' (by omega) hle hroom

/-- Taking one off a number and keeping what both have clears the lowest set bit. -/
theorem and_sub_one (h : w ≠ 0) : ∃ k < 32, w.getLsbD k = true ∧ ∀ i < 32, (w &&& (w - 1)).getLsbD i = Row.fill w.getLsbD k 1 false i := by
  obtain ⟨k, hk, -, hbit, hlow⟩ := ffs_of_ne_zero h
  -- `w` is `2 ^ k` above a multiple of `2 ^ (k + 1)`, and `w - 1` is `2 ^ k - 1` above it.
  have hmod : w.toNat % 2 ^ (k + 1) = 2 ^ k := by
    apply eq_of_testBit_eq
    intro i
    rw [testBit_mod_two_pow, testBit_two_pow]
    rcases lt_trichotomy i k with hlt | heq | hgt
    · have hclear : w.toNat.testBit i = false := hlow i hlt
      simp [hclear, ne_of_gt hlt]
    · have hset : w.toNat.testBit k = true := hbit
      simp [heq, hset]
    · have hnot : ¬i < k + 1 := by omega
      simp [hnot, Nat.ne_of_lt hgt]
  have hpow : 0 < 2 ^ k := Nat.two_pow_pos k
  have hdiv := div_add_mod w.toNat (2 ^ (k + 1))
  rw [hmod] at hdiv
  have hsub : (w - 1).toNat = 2 ^ (k + 1) * (w.toNat / 2 ^ (k + 1)) + (2 ^ k - 1) := by
    rw [BitVec.toNat_sub_of_le (by show 1 ≤ w.toNat; omega)]
    show w.toNat - 1 = _
    omega
  refine ⟨k, hk, hbit, fun i hi => ?_⟩
  rw [BitVec.getLsbD_and, Row.fill]
  rcases lt_trichotomy i k with hik | rfl | hik
  · rw [hlow i hik, Bool.false_and, if_neg (by omega)]
  · have hzero : (w - 1).getLsbD i = false := by
      show (w - 1).toNat.testBit i = false
      rw [hsub, testBit_two_pow_mul_add _ (by omega), if_pos (by omega)]
      exact testBit_lt_two_pow (by omega)
    rw [hzero, Bool.and_false, if_pos (by omega)]
  · have hsame : (w - 1).getLsbD i = w.getLsbD i := by
      show (w - 1).toNat.testBit i = w.toNat.testBit i
      rw [hsub, testBit_two_pow_mul_add _ (by omega), if_neg (by omega), testBit_div_two_pow, Nat.sub_add_cancel (by omega)]
    rw [hsame, Bool.and_self, if_neg (by omega)]

theorem countBits_eq {rounds nblks : Nat} (h : Row.count 32 w.getLsbD < rounds) : countBits rounds w nblks = nblks + Row.count 32 w.getLsbD := by
  induction rounds generalizing w nblks with
  | zero => omega
  | succ rounds ih =>
    rw [countBits]
    split
    case isTrue hz =>
      subst hz
      rfl
    case isFalse hz =>
      obtain ⟨k, hk, hbit, hclear⟩ := and_sub_one hz
      have hone : ∀ p, k ≤ p → p < k + 1 → w.getLsbD p = true := fun p hlo hhi => by
        rw [show p = k by omega]
        exact hbit
      have hcount := Row.count_fill_false (n := 32) (f := w.getLsbD) (a := k) (j := 1) (by omega) hone
      rw [← Row.count_congr hclear] at hcount
      rw [ih (by omega)]
      omega

end

end NetBSD.Kern.SubrBlist
