import Mathlib.Algebra.Order.BigOperators.Group.Finset
import Mathlib.Algebra.BigOperators.Intervals
import Mathlib.Order.Interval.Finset.Nat

/-! The Gregorian calendar, extended to all years.

Days are counted from the beginning of 1970. `yearStart y` is the first day of year `y` and
`monthStart y m` the first day of month `m` counted from there. -/
namespace NetBSD.Lib.Calendar
open Nat

def isLeap (y : Nat) : Prop := (y % 4 = 0 ∧ y % 100 ≠ 0) ∨ y % 400 = 0

instance (y : Nat) : Decidable (isLeap y) := inferInstanceAs (Decidable ((y % 4 = 0 ∧ y % 100 ≠ 0) ∨ y % 400 = 0))

def yearLength (y : Nat) : Nat := if isLeap y then 366 else 365

def monthLength (y m : Nat) : Nat :=
  if m = 2 then if isLeap y then 29 else 28
  else if m = 4 ∨ m = 6 ∨ m = 9 ∨ m = 11 then 30
  else 31

def yearStart (y : Nat) : Nat := ∑ i ∈ Finset.Ico 1970 y, yearLength i

def monthStart (y m : Nat) : Nat := ∑ i ∈ Finset.Ico 1 m, monthLength y i

/-- A date of the calendar from 1970 on. -/
def IsDate (y m d : Nat) : Prop := 1970 ≤ y ∧ 1 ≤ m ∧ m ≤ 12 ∧ 1 ≤ d ∧ d ≤ monthLength y m

def dayNumber (y m d : Nat) : Nat := yearStart y + monthStart y m + (d - 1)

/-- The weekday of a date, Sunday being 0: 1970 began with a Thursday. -/
def weekday (y m d : Nat) : Nat := (dayNumber y m d + 4) % 7

variable {y m : Nat}

theorem yearStart_succ (h : 1970 ≤ y) : yearStart (y + 1) = yearStart y + yearLength y := Finset.sum_Ico_succ_top h _

theorem monthStart_succ (h : 1 ≤ m) : monthStart y (m + 1) = monthStart y m + monthLength y m := Finset.sum_Ico_succ_top h _

@[simp]
theorem yearStart_1970 : yearStart 1970 = 0 := rfl

@[simp]
theorem monthStart_one : monthStart y 1 = 0 := rfl

theorem yearLength_pos (y : Nat) : 365 ≤ yearLength y := by
  unfold yearLength
  split <;> omega

/-- A leap year is one more every four years, one less every hundred and one more every four hundred. -/
theorem yearLength_eq (y : Nat) : yearLength y + (if 100 ∣ y then 1 else 0) = 365 + (if 4 ∣ y then 1 else 0) + if 400 ∣ y then 1 else 0 := by
  have h100 (h : 400 ∣ y) : 100 ∣ y := Nat.dvd_trans (by decide) h
  have h4 (h : 100 ∣ y) : 4 ∣ y := Nat.dvd_trans (by decide) h
  unfold yearLength isLeap
  simp only [← dvd_iff_mod_eq_zero, ne_eq]
  by_cases hy400 : 400 ∣ y
  · simp [hy400, h100 hy400, h4 (h100 hy400)]
  by_cases hy100 : 100 ∣ y
  · simp [hy400, hy100, h4 hy100]
  by_cases hy4 : 4 ∣ y
  · simp [hy400, hy100, hy4]
  · simp [hy400, hy100, hy4]

/-- The leap years before `y` are every fourth, less every hundredth, and every four
hundredth; up to 1969 there are 477. -/
theorem yearStart_closed (h : 1970 ≤ y) : yearStart y + 477 + (y - 1) / 100 = 365 * (y - 1970) + (y - 1) / 4 + (y - 1) / 400 := by
  induction y, h using le_induction with
  | base => decide
  | succ y hy ih =>
    obtain ⟨z, rfl⟩ := exists_eq_succ_of_ne_zero (show y ≠ 0 by omega)
    have hlength := yearLength_eq (z + 1)
    rw [yearStart_succ hy, Nat.add_sub_cancel, succ_eq_add_one, Nat.succ_div, Nat.succ_div, Nat.succ_div]
    rw [succ_eq_add_one] at ih
    omega

theorem yearStart_mono {y y' : Nat} (h : y ≤ y') : yearStart y ≤ yearStart y' :=
  Finset.sum_le_sum_of_subset (Finset.Ico_subset_Ico_right h)

theorem monthStart_mono {y m m' : Nat} (h : m ≤ m') : monthStart y m ≤ monthStart y m' :=
  Finset.sum_le_sum_of_subset (Finset.Ico_subset_Ico_right h)

theorem monthStart_13 : monthStart y 13 = yearLength y := by
  by_cases hleap : isLeap y
  · simp [monthStart, yearLength, monthLength, Finset.sum_Ico_succ_top, hleap]
  · simp [monthStart, yearLength, monthLength, Finset.sum_Ico_succ_top, hleap]

theorem day_lt_month {d : Nat} (h : IsDate y m d) : monthStart y m + (d - 1) < monthStart y (m + 1) := by
  obtain ⟨-, hm₁, -, hd₁, hd⟩ := h
  rw [monthStart_succ hm₁]
  omega

theorem dayNumber_lt_year {d : Nat} (h : IsDate y m d) : dayNumber y m d < yearStart (y + 1) := by
  have hmonth := day_lt_month h
  have hyear : monthStart y (m + 1) ≤ monthStart y 13 := monthStart_mono (succ_le_succ h.2.2.1)
  rw [monthStart_13] at hyear
  rw [dayNumber, add_assoc, yearStart_succ h.1]
  exact Nat.add_lt_add_left (lt_of_lt_of_le hmonth hyear) _

theorem dayNumber_lt {y' m' d d' : Nat} (h : IsDate y m d) (h' : IsDate y' m' d')
    (hlt : y < y' ∨ y = y' ∧ (m < m' ∨ m = m' ∧ d < d')) : dayNumber y m d < dayNumber y' m' d' := by
  rcases hlt with hy | ⟨rfl, hm | ⟨rfl, hd⟩⟩
  · calc dayNumber y m d < yearStart (y + 1) := dayNumber_lt_year h
      _ ≤ yearStart y' := yearStart_mono hy
      _ ≤ dayNumber y' m' d' := by
        rw [dayNumber, add_assoc]
        exact Nat.le_add_right _ _
  · rw [dayNumber, dayNumber, add_assoc, add_assoc]
    apply Nat.add_lt_add_left
    calc monthStart y m + (d - 1) < monthStart y (m + 1) := day_lt_month h
      _ ≤ monthStart y m' := monthStart_mono hm
      _ ≤ monthStart y m' + (d' - 1) := Nat.le_add_right _ _
  · have hd₁ := h.2.2.2.1
    exact Nat.add_lt_add_left (by omega) _

end NetBSD.Lib.Calendar
