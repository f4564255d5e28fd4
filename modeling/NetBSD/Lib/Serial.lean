import Mathlib.Data.BitVec

/-! Serial numbers: `w`-bit counters that wrap and are compared by the sign of their
difference.

Such comparisons are not an order. They become one on the numbers that lie less than
half the number space after some `base`: with `pos base x` the distance from `base`
to `x`, all comparisons between two such numbers are the comparisons of their
distances (`lt_iff` and its kin), whatever wraps in between. Distances from two bases
differ by the distance of the bases (`pos_rebase`). -/
namespace NetBSD.Lib.Serial
variable {w : Nat}

def lt (a b : BitVec w) : Prop := (a - b).toInt < 0
def le (a b : BitVec w) : Prop := (a - b).toInt ≤ 0
def gt (a b : BitVec w) : Prop := (a - b).toInt > 0
def ge (a b : BitVec w) : Prop := (a - b).toInt ≥ 0

instance (a b : BitVec w) : Decidable (lt a b) := inferInstanceAs (Decidable (_ < _))
instance (a b : BitVec w) : Decidable (le a b) := inferInstanceAs (Decidable (_ ≤ _))
instance (a b : BitVec w) : Decidable (gt a b) := inferInstanceAs (Decidable (_ > _))
instance (a b : BitVec w) : Decidable (ge a b) := inferInstanceAs (Decidable (_ ≥ _))

def smin (a b : BitVec w) : BitVec w := if lt a b then a else b
def smax (a b : BitVec w) : BitVec w := if gt a b then a else b

/-- How far `x` is after `base`. -/
def pos (base x : BitVec w) : Nat := (x - base).toNat

/-- Less than half the number space after `base`. -/
def Near (base x : BitVec w) : Prop := 2 * pos base x < 2 ^ w

theorem pos_self (base : BitVec w) : pos base base = 0 := by simp [pos]

/-! The comparisons without a base: `a` lies after `b`, less than half way round. -/

theorem lt_iff_pos (a b : BitVec w) : lt a b ↔ 2 ^ w ≤ 2 * pos b a := by
  rw [lt, BitVec.toInt_eq_toNat_cond, pos]
  split <;> omega

theorem gt_iff_pos (a b : BitVec w) : gt a b ↔ 0 < pos b a ∧ 2 * pos b a < 2 ^ w := by
  rw [gt, BitVec.toInt_eq_toNat_cond, pos]
  split <;> omega

theorem le_iff_pos (a b : BitVec w) : le a b ↔ pos b a = 0 ∨ 2 ^ w ≤ 2 * pos b a := by
  rw [le, BitVec.toInt_eq_toNat_cond, pos]
  split <;> omega

theorem toInt_eq_pos {base x : BitVec w} (h : Near base x) : (x - base).toInt = pos base x :=
  BitVec.toInt_eq_toNat_of_lt h

theorem toInt_sub_of_near {base a b : BitVec w} (ha : Near base a) (hb : Near base b) : (a - b).toInt = (pos base a : Int) - pos base b := by
  rw [← sub_sub_sub_cancel_right a b base, BitVec.toInt_sub, toInt_eq_pos ha, toInt_eq_pos hb]
  unfold Near at ha hb
  apply Int.bmod_eq_of_le_mul_two <;> omega

section Compare
variable {base a b : BitVec w} (ha : Near base a) (hb : Near base b)
include ha hb

theorem lt_iff : lt a b ↔ pos base a < pos base b := by
  rw [lt, toInt_sub_of_near ha hb]
  omega

theorem le_iff : le a b ↔ pos base a ≤ pos base b := by
  rw [le, toInt_sub_of_near ha hb]
  omega

theorem gt_iff : gt a b ↔ pos base b < pos base a := by
  rw [gt, toInt_sub_of_near ha hb]
  omega

theorem ge_iff : ge a b ↔ pos base b ≤ pos base a := by
  rw [ge, toInt_sub_of_near ha hb]
  omega

theorem pos_smax : pos base (smax a b) = max (pos base a) (pos base b) := by
  unfold smax
  split
  · next h =>
    rw [gt_iff ha hb] at h
    omega
  · next h =>
    rw [gt_iff ha hb] at h
    omega

theorem pos_smin : pos base (smin a b) = min (pos base a) (pos base b) := by
  unfold smin
  split
  · next h =>
    rw [lt_iff ha hb] at h
    omega
  · next h =>
    rw [lt_iff ha hb] at h
    omega

end Compare

/-- Distances from an earlier base are longer by the distance of the bases, as long
as the whole does not wrap. -/
theorem pos_rebase {base base' x : BitVec w} (h : pos base base' + pos base' x < 2 ^ w) : pos base x = pos base base' + pos base' x := by
  unfold pos at h ⊢
  rw [← sub_add_sub_cancel x base' base, BitVec.toNat_add, add_comm, Nat.mod_eq_of_lt h]

theorem pos_of_le {base base' x : BitVec w} (h : pos base base' ≤ pos base x) : pos base' x = pos base x - pos base base' := by
  unfold pos at h ⊢
  rw [← sub_sub_sub_cancel_right x base' base, BitVec.toNat_sub_of_le h]

theorem pos_add {base x d : BitVec w} (h : pos base x + d.toNat < 2 ^ w) : pos base (x + d) = pos base x + d.toNat := by
  unfold pos at h ⊢
  rw [add_sub_right_comm, BitVec.toNat_add, Nat.mod_eq_of_lt h]

theorem toInt_sub_ofNat {a b : Nat} (hlow : -(2 ^ w : Int) ≤ 2 * ((a : Int) - b)) (hhigh : 2 * ((a : Int) - b) < 2 ^ w) :
    (BitVec.ofNat w a - BitVec.ofNat w b).toInt = (a : Int) - b := by
  have hcast : ((2 ^ w : Nat) : Int) = 2 ^ w := by
    rfl
  rw [BitVec.toInt_sub, BitVec.toInt_ofNat', BitVec.toInt_ofNat', Int.bmod_sub_bmod, Int.sub_bmod_bmod]
  apply Int.bmod_eq_of_le_mul_two <;> omega

end NetBSD.Lib.Serial
