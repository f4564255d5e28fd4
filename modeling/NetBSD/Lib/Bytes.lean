import Mathlib.Data.BitVec
import Mathlib.Data.Nat.Bitwise

/-! Memory, bit by bit.

Bit `m` of a memory is bit `m % 8` of byte `m / 8`. A little-endian number is what the bits from
that of its first byte on say, so that numbers that lie across each other, or begin inside a
byte, are told apart by their bits. -/
namespace NetBSD.Lib.Bytes
open Nat

def bitAt (p : Nat → BitVec 8) (m : Nat) : Bool := (p (m / 8)).getLsbD (m % 8)

def le16dec (p : Nat → BitVec 8) (i : Nat) : Nat := (p i).toNat ||| (p (i + 1)).toNat <<< 8

def le32dec (p : Nat → BitVec 8) (i : Nat) : Nat :=
  (p i).toNat ||| (p (i + 1)).toNat <<< 8 ||| (p (i + 2)).toNat <<< 16 ||| (p (i + 3)).toNat <<< 24

def le16enc (p : Nat → BitVec 8) (i v : Nat) : Nat → BitVec 8 := fun a =>
  if a = i then BitVec.ofNat 8 v else if a = i + 1 then BitVec.ofNat 8 (v >>> 8) else p a

def le32enc (p : Nat → BitVec 8) (i v : Nat) : Nat → BitVec 8 := fun a =>
  if a = i then BitVec.ofNat 8 v
  else if a = i + 1 then BitVec.ofNat 8 (v >>> 8)
  else if a = i + 2 then BitVec.ofNat 8 (v >>> 16)
  else if a = i + 3 then BitVec.ofNat 8 (v >>> 24)
  else p a

variable {p : Nat → BitVec 8} {i j k m v : Nat}

theorem bitAt_byte (hj : j < 8) : bitAt p (8 * i + (8 * k + j)) = (p (i + k)).getLsbD j := by
  have hdiv : (8 * i + (8 * k + j)) / 8 = i + k := by omega
  have hmod : (8 * i + (8 * k + j)) % 8 = j := by omega
  rw [bitAt, hdiv, hmod]

theorem testBit_byte (b : BitVec 8) (k j : Nat) : (b.toNat <<< (8 * k)).testBit j = (decide (8 * k ≤ j) && b.getLsbD (j - 8 * k)) := by
  rw [testBit_shiftLeft, BitVec.testBit_toNat]

theorem getLsbD_above (b : BitVec 8) (h : 8 ≤ j) : b.getLsbD j = false := BitVec.getLsbD_of_ge b j h

theorem testBit_le16dec : (le16dec p i).testBit j = (decide (j < 16) && bitAt p (8 * i + j)) := by
  have h1 := testBit_byte (p (i + 1)) 1 j
  rw [le16dec, testBit_or, BitVec.testBit_toNat, h1]
  by_cases hlow : j < 8
  · have hbyte := @bitAt_byte p i j 0 hlow
    rw [Nat.zero_add] at hbyte
    rw [hbyte, decide_eq_false (by omega), Bool.false_and, Bool.or_false, decide_eq_true (by omega), Bool.true_and, add_zero]
  rw [getLsbD_above (p i) (by omega), Bool.false_or, decide_eq_true (by omega), Bool.true_and]
  by_cases hhigh : j < 16
  · have hbyte := @bitAt_byte p i (j - 8) 1 (by omega)
    have hsum : 8 * 1 + (j - 8) = j := by omega
    rw [hsum] at hbyte
    rw [hbyte, decide_eq_true hhigh, Bool.true_and]
  · rw [getLsbD_above _ (by omega), decide_eq_false hhigh, Bool.false_and]

theorem le32dec_eq : le32dec p i = le16dec p i ||| le16dec p (i + 2) <<< 16 := by
  rw [le16dec, le16dec, shiftLeft_or_distrib, ← shiftLeft_add]
  exact Nat.or_assoc _ _ _

theorem testBit_le32dec : (le32dec p i).testBit j = (decide (j < 32) && bitAt p (8 * i + j)) := by
  rw [le32dec_eq, testBit_or, testBit_shiftLeft, testBit_le16dec, testBit_le16dec]
  by_cases hlow : j < 16
  · rw [decide_eq_true hlow, decide_eq_false (by omega), Bool.false_and, Bool.or_false, decide_eq_true (by omega)]
  have hsum : 8 * (i + 2) + (j - 16) = 8 * i + j := by omega
  have hiff : (j - 16 < 16) = (j < 32) := propext (by omega)
  rw [decide_eq_false hlow, decide_eq_true (Nat.le_of_not_lt hlow), hsum]
  simp [hiff]

theorem bitAt_le16enc : bitAt (le16enc p i v) m = if 8 * i ≤ m ∧ m < 8 * i + 16 then v.testBit (m - 8 * i) else bitAt p m := by
  have hlt : m % 8 < 8 := mod_lt m (by decide)
  unfold bitAt le16enc
  by_cases h0 : m / 8 = i
  · have hin : 8 * i ≤ m ∧ m < 8 * i + 16 := by omega
    have hbit : m - 8 * i = m % 8 := by omega
    rw [if_pos h0, if_pos hin, BitVec.getLsbD_ofNat, decide_eq_true hlt, Bool.true_and, hbit]
  by_cases h1 : m / 8 = i + 1
  · have hin : 8 * i ≤ m ∧ m < 8 * i + 16 := by omega
    have hbit : m - 8 * i = 8 + m % 8 := by omega
    rw [if_neg h0, if_pos h1, if_pos hin, BitVec.getLsbD_ofNat, decide_eq_true hlt, Bool.true_and, testBit_shiftRight, hbit]
  · have hout : ¬(8 * i ≤ m ∧ m < 8 * i + 16) := by omega
    rw [if_neg h0, if_neg h1, if_neg hout]

theorem le32enc_eq : le32enc p i v = le16enc (le16enc p i v) (i + 2) (v >>> 16) := by
  funext a
  unfold le32enc le16enc
  by_cases h0 : a = i
  · rw [if_pos h0, if_neg (by omega), if_neg (by omega), if_pos h0]
  by_cases h1 : a = i + 1
  · rw [if_neg h0, if_pos h1, if_neg (by omega), if_neg (by omega), if_neg h0, if_pos h1]
  · rw [if_neg h0, if_neg h1, if_neg h0, if_neg h1, ← shiftRight_add]

theorem bitAt_le32enc : bitAt (le32enc p i v) m = if 8 * i ≤ m ∧ m < 8 * i + 32 then v.testBit (m - 8 * i) else bitAt p m := by
  rw [le32enc_eq, bitAt_le16enc, bitAt_le16enc]
  by_cases hhigh : 8 * (i + 2) ≤ m ∧ m < 8 * (i + 2) + 16
  · have hin : 8 * i ≤ m ∧ m < 8 * i + 32 := by omega
    have hbit : 16 + (m - 8 * (i + 2)) = m - 8 * i := by omega
    rw [if_pos hhigh, if_pos hin, testBit_shiftRight, hbit]
  · rw [if_neg hhigh]
    have hiff : (8 * i ≤ m ∧ m < 8 * i + 16) ↔ (8 * i ≤ m ∧ m < 8 * i + 32) := by omega
    exact if_congr hiff rfl rfl

/-- The `n` bits from `pos` on are those of `v`, and the others what they were. -/
def Wrote (p q : Nat → BitVec 8) (pos n v : Nat) : Prop :=
  ∀ m, bitAt q m = if pos ≤ m ∧ m < pos + n then v.testBit (m - pos) else bitAt p m

theorem wrote_le16enc : Wrote p (le16enc p i v) (8 * i) 16 v := fun _ => bitAt_le16enc

theorem wrote_le32enc : Wrote p (le32enc p i v) (8 * i) 32 v := fun _ => bitAt_le32enc

theorem Wrote.narrow {q : Nat → BitVec 8} {pos n pos' n' w : Nat} (h : Wrote p q pos n v) (hle : pos ≤ pos') (hend : pos' + n' ≤ pos + n)
    (hin : ∀ j < n', v.testBit (pos' - pos + j) = w.testBit j)
    (hout : ∀ m, pos ≤ m → m < pos + n → ¬(pos' ≤ m ∧ m < pos' + n') → v.testBit (m - pos) = bitAt p m) : Wrote p q pos' n' w := by
  intro m
  rw [h m]
  by_cases hm : pos' ≤ m ∧ m < pos' + n'
  · have hsum : pos' - pos + (m - pos') = m - pos := by omega
    rw [if_pos hm, if_pos (by omega), ← hin (m - pos') (by omega), hsum]
  rw [if_neg hm]
  by_cases hwide : pos ≤ m ∧ m < pos + n
  · rw [if_pos hwide]
    exact hout m hwide.1 hwide.2 hm
  · rw [if_neg hwide]

theorem Wrote.outside {q : Nat → BitVec 8} {pos n : Nat} (h : Wrote p q pos n v) (hm : m < pos ∨ pos + n ≤ m) : bitAt q m = bitAt p m := by
  rw [h m, if_neg (by omega)]

end NetBSD.Lib.Bytes
