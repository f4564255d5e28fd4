import Mathlib.Algebra.BigOperators.Group.Finset.Basic
import Mathlib.Algebra.Order.BigOperators.Group.Finset

/-! Pieces laid out one behind the other.

Piece `i` has the size `size i` and begins at `offset size i`, behind all pieces before
it. Pieces do not overlap, and together they are everything below the end of the last. -/
namespace NetBSD.Lib.Layout
open Function

def offset (size : Nat → Nat) (n : Nat) : Nat := ∑ i ∈ Finset.range n, size i

variable {size : Nat → Nat} {i j k n : Nat}

theorem offset_succ : offset size (n + 1) = offset size n + size n := Finset.sum_range_succ size n

theorem offset_le (h : i ≤ j) : offset size i ≤ offset size j :=
  Finset.sum_le_sum_of_subset (Finset.range_subset_range.mpr h)

theorem end_le_offset (h : i < j) : offset size i + size i ≤ offset size j := by
  rw [← offset_succ]
  exact offset_le h

theorem exists_piece (h : k < offset size n) : ∃ i < n, offset size i ≤ k ∧ k < offset size i + size i := by
  induction n with
  | zero => exact absurd h (by simp [offset])
  | succ n ih =>
    by_cases hk : k < offset size n
    · obtain ⟨i, hi, hpiece⟩ := ih hk
      exact ⟨i, Nat.lt_succ_of_lt hi, hpiece⟩
    · rw [offset_succ] at h
      exact ⟨n, Nat.lt_succ_self n, not_lt.mp hk, h⟩

theorem offset_eq_of_empty (h : n ≤ j) (hempty : ∀ i, n ≤ i → size i = 0) : offset size j = offset size n := by
  refine (Finset.sum_subset (Finset.range_subset_range.mpr h) fun i _ hi => hempty i ?_).symm
  simpa using hi

theorem offset_update {d : Nat} (h : i < n) : offset (update size i d) n + size i = offset size n + d := by
  have hmem : i ∈ Finset.range n := Finset.mem_range.mpr h
  have hrest : ∑ x ∈ (Finset.range n).erase i, update size i d x = ∑ x ∈ (Finset.range n).erase i, size x :=
    Finset.sum_congr rfl fun x hx => Function.update_of_ne (Finset.ne_of_mem_erase hx) d size
  rw [offset, offset, ← Finset.add_sum_erase _ _ hmem, ← Finset.add_sum_erase _ size hmem, Function.update_self]
  omega

end NetBSD.Lib.Layout
