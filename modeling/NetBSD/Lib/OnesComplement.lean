import Mathlib.Data.Nat.ModEq
import Mathlib.Algebra.Ring.Nat

/-! Sums in one's complement arithmetic.

A carry out of the word is added at the word's other end, so a sum counts modulo the largest value `m` of the word, which stands
for zero as well: only the sum of zeroes is 0, any other multiple of `m` is `m` (`endAround`). How often and when the carries are
added does not matter. -/
namespace NetBSD.Lib
open Nat

/-- A sum with all its carries added. -/
def endAround (m s : Nat) : Nat := if s = 0 then 0 else (s - 1) % m + 1

section EndAround
variable {m s t a b : Nat}

theorem endAround_of_le (h : s ≤ m) : endAround m s = s := by
  by_cases hs : s = 0
  · rw [hs]
    rfl
  · rw [endAround, if_neg hs, mod_eq_of_lt (by omega)]
    omega

theorem endAround_le (hm : 0 < m) (s : Nat) : endAround m s ≤ m := by
  unfold endAround
  split
  · exact zero_le m
  · exact mod_lt _ hm

theorem endAround_modEq (m s : Nat) : endAround m s ≡ s [MOD m] := by
  by_cases hs : s = 0
  · rw [hs]
    rfl
  rw [endAround, if_neg hs]
  have hmod := (mod_modEq (s - 1) m).add_right 1
  rwa [Nat.sub_add_cancel (Nat.pos_of_ne_zero hs)] at hmod

theorem endAround_eq_zero : endAround m s = 0 ↔ s = 0 := by
  unfold endAround
  split
  · next h => exact iff_of_true rfl h
  · next h => exact iff_of_false (succ_ne_zero _) h

theorem endAround_congr (h : s ≡ t [MOD m]) (hzero : s = 0 ↔ t = 0) : endAround m s = endAround m t := by
  by_cases hs : s = 0
  · rw [hs, hzero.mp hs]
  have ht : t ≠ 0 := fun ht => hs (hzero.mpr ht)
  have hpred : s - 1 ≡ t - 1 [MOD m] := by
    refine ModEq.add_right_cancel' 1 ?_
    rwa [Nat.sub_add_cancel (Nat.pos_of_ne_zero hs), Nat.sub_add_cancel (Nat.pos_of_ne_zero ht)]
  rw [endAround, endAround, if_neg hs, if_neg ht, hpred]

theorem endAround_add (m a b : Nat) : endAround m (endAround m a + b) = endAround m (a + b) := by
  refine endAround_congr ((endAround_modEq m a).add_right b) ?_
  rw [Nat.add_eq_zero_iff, Nat.add_eq_zero_iff, endAround_eq_zero]

theorem endAround_fold (m s : Nat) : endAround m (s / (m + 1) + s % (m + 1)) = endAround m s := by
  have hsplit := div_add_mod s (m + 1)
  refine endAround_congr ?_ ⟨fun h => ?_, fun h => by rw [h, Nat.zero_div, zero_mod]⟩
  · have hmod : s / (m + 1) + s % (m + 1) ≡ (m + 1) * (s / (m + 1)) + s % (m + 1) [MOD m] := by
      refine ModEq.add_right _ ?_
      rw [add_mul, one_mul, ModEq, mul_add_mod]
    rwa [hsplit] at hmod
  · obtain ⟨hquo, hrem⟩ := Nat.add_eq_zero_iff.mp h
    rw [← hsplit, hquo, hrem, mul_zero]

theorem endAround_eq_top (hm : 0 < m) : endAround m s = m ↔ 0 < s ∧ s ≡ 0 [MOD m] := by
  constructor
  · intro h
    refine ⟨Nat.pos_of_ne_zero fun hs => ?_, ?_⟩
    · rw [endAround_eq_zero.mpr hs] at h
      omega
    have hmod := endAround_modEq m s
    rw [h] at hmod
    exact hmod.symm.trans (modEq_zero_iff_dvd.mpr (dvd_refl m))
  · intro h
    rw [endAround_congr (h.2.trans (modEq_zero_iff_dvd.mpr (dvd_refl m)).symm) (iff_of_false (by omega) (by omega)), endAround_of_le (le_refl m)]

end EndAround

end NetBSD.Lib
