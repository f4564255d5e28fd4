import Mathlib.Algebra.Ring.Nat

/-! Numbers place by place.

`digits b n x` are the low `n` digits of `x` in base `b`, the first the most significant, and
`clear b n x` is `x` with 0 in those places. Numbers that agree above place `n` agree in a digit
of it and all before exactly when they agree above a lower place. -/
namespace NetBSD.Lib.Places
open Nat

/-- The digit of `x` at place `n`. -/
def digit (b n x : Nat) : Nat := x / b ^ n % b

/-- The digits of `x` below place `n`. -/
def digits (b : Nat) : (n x : Nat) → List Nat
  | 0, _ => []
  | n + 1, x => digit b n x :: digits b n x

def clear (b n x : Nat) : Nat := x / b ^ n * b ^ n

variable {b n m x y j : Nat}

@[simp] theorem length_digits : (digits b n x).length = n := by
  induction n with
  | zero => rfl
  | succ n ih => rw [digits, List.length_cons, ih]

theorem div_succ : x / b ^ (n + 1) = x / b ^ n / b := by
  rw [Nat.pow_succ, Nat.div_div_eq_div_mul]

theorem clear_succ : clear b (n + 1) x + digit b n x * b ^ n = clear b n x := by
  have hdigit := div_add_mod' (x / b ^ n) b
  show x / b ^ (n + 1) * b ^ (n + 1) + x / b ^ n % b * b ^ n = x / b ^ n * b ^ n
  rw [div_succ, Nat.pow_succ, mul_comm (b ^ n) b, ← mul_assoc, ← add_mul, hdigit]

theorem clear_le : clear b n x ≤ x := div_mul_le_self x (b ^ n)

theorem clear_of_lt (h : x < b ^ n) : clear b n x = 0 := by
  rw [clear, div_eq_of_lt h, zero_mul]

theorem clear_add_le (h : x < b ^ m) (hnm : n ≤ m) : clear b n x + b ^ n ≤ b ^ m := by
  have hsplit : b ^ (m - n) * b ^ n = b ^ m := by rw [← Nat.pow_add, Nat.sub_add_cancel hnm]
  have hlt : x / b ^ n < b ^ (m - n) := Nat.div_lt_of_lt_mul (by rwa [mul_comm, hsplit])
  rw [clear, ← succ_mul, ← hsplit]
  exact Nat.mul_le_mul_right _ hlt

theorem clear_add_div (hb : 0 < b) (h : j < b ^ n) : (clear b n x + j) / b ^ n = x / b ^ n := by
  rw [clear, mul_comm, mul_add_div (Nat.pow_pos hb), div_eq_of_lt h, add_zero]

section
variable (h : x / b ^ n = y / b ^ n)
include h

theorem div_eq_of_le (hnm : n ≤ m) : x / b ^ m = y / b ^ m := by
  rw [← Nat.add_sub_cancel' hnm, Nat.pow_add, ← Nat.div_div_eq_div_mul, ← Nat.div_div_eq_div_mul, h]

theorem digit_eq_of_div : digit b n x = digit b n y := by
  rw [digit, digit, h]

theorem clear_eq_of_div : clear b n x = clear b n y := by
  rw [clear, clear, h]

theorem take_digits_eq_iff (hj : j ≤ n) : (digits b n x).take j = (digits b n y).take j ↔ x / b ^ (n - j) = y / b ^ (n - j) := by
  induction n generalizing j with
  | zero =>
    obtain rfl := le_zero.mp hj
    exact iff_of_true rfl h
  | succ n ih =>
    cases j with
    | zero => exact iff_of_true rfl h
    | succ j =>
      rw [digits, digits, List.take_succ_cons, List.take_succ_cons, List.cons.injEq, Nat.add_sub_add_right]
      rw [div_succ, div_succ] at h
      have hle := le_of_succ_le_succ hj
      constructor
      · intro ⟨hdigit, htail⟩
        have hdiv : x / b ^ n = y / b ^ n := by
          rw [← div_add_mod (x / b ^ n) b, ← div_add_mod (y / b ^ n) b, h]
          exact congrArg (b * (y / b ^ n / b) + ·) hdigit
        exact (ih hdiv hle).mp htail
      · intro hlow
        have hdiv := div_eq_of_le hlow (sub_le n j)
        exact ⟨digit_eq_of_div hdiv, (ih hdiv hle).mpr hlow⟩

end

end NetBSD.Lib.Places
