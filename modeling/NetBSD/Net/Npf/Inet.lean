import NetBSD.Lib.OnesComplement
import Mathlib.Data.BitVec
import Mathlib.Algebra.Ring.Nat
import Mathlib.Algebra.BigOperators.Group.List.Basic

/-! The fix-ups of a checksum.

A checksum is not computed again, it is fixed for the words that change. All fix-ups together are one sum, whose carries are
added at its end (`stored`). -/
namespace NetBSD.Net.Npf.Inet
open List Nat
open Lib

inductive ByteOrder where
  | little
  | big

/-- The 16-bit words of an address as the host loads them. An IPv4 address is the first two, an IPv6 address the first eight. -/
abbrev NpfAddr := Nat → BitVec 16

/-- Two words that follow each other, loaded as one. -/
def load32 : ByteOrder → BitVec 16 → BitVec 16 → BitVec 32
  | .little, a, b => b ++ a
  | .big, a, b => a ++ b

def word32 (o : ByteOrder) (addr : NpfAddr) (i : Nat) : BitVec 32 := load32 o (addr (2 * i)) (addr (2 * i + 1))

/-- The two steps that end both fix-ups. -/
def foldSum (sum : BitVec 32) : BitVec 32 :=
  let sum := (sum >>> 16) + (sum &&& 0xffff)
  sum + (sum >>> 16)

def npfFixup16Cksum (cksum odatum ndatum : BitVec 16) : BitVec 16 :=
  let sum := ~~~(cksum.setWidth 32) &&& 0xffff
  let sum := sum + ((~~~(odatum.setWidth 32) &&& 0xffff) + ndatum.setWidth 32)
  (~~~(foldSum sum)).setWidth 16

def npfFixup32Cksum (cksum : BitVec 16) (odatum ndatum : BitVec 32) : BitVec 16 :=
  let sum := ~~~(cksum.setWidth 32) &&& 0xffff
  let sum := sum + ((~~~odatum &&& 0xffff) + (ndatum &&& 0xffff))
  let sum := sum + ((~~~odatum >>> 16) + (ndatum >>> 16))
  (~~~(foldSum sum)).setWidth 16

def npfAddrCksum (o : ByteOrder) (cksum : BitVec 16) (sz : Nat) (oaddr naddr : NpfAddr) : BitVec 16 :=
  (List.range (sz / 4)).foldl (fun cksum i => npfFixup32Cksum cksum (word32 o oaddr i) (word32 o naddr i)) cksum

/-! ### Sums of words -/

def wordSum (ws : List (BitVec 16)) : Nat := (ws.map BitVec.toNat).sum

/-- The first words of an address. -/
def wordsOf (addr : NpfAddr) (n : Nat) : List (BitVec 16) := (List.range n).map addr

/-- The Internet checksum, computed afresh. -/
def inCksum (ws : List (BitVec 16)) : BitVec 16 := ~~~BitVec.ofNat 16 (endAround 65535 (wordSum ws))

section Sums
variable {ws vs : List (BitVec 16)} {w c o n : BitVec 16} {x y : BitVec 32} {s old new : Nat} {b : ByteOrder} {addr oaddr naddr : NpfAddr}

@[simp]
theorem wordSum_nil : wordSum [] = 0 := rfl

@[simp]
theorem wordSum_cons : wordSum (w :: ws) = w.toNat + wordSum ws := by
  rfl

@[simp]
theorem wordSum_append : wordSum (ws ++ vs) = wordSum ws + wordSum vs := by
  rw [wordSum, map_append, sum_append]
  rfl

theorem toNat_not16 : (~~~w).toNat = 65535 - w.toNat := by
  rw [BitVec.toNat_not]

theorem wordSum_not (ws : List (BitVec 16)) : wordSum (ws.map (~~~·)) + wordSum ws = 65535 * ws.length := by
  induction ws with
  | nil => rfl
  | cons w ws ih =>
    rw [map_cons, wordSum_cons, wordSum_cons, toNat_not16, length_cons]
    omega

theorem toNat_low16 (x : BitVec 32) : (x &&& 0xffff).toNat = x.toNat % 65536 := by
  exact and_two_pow_sub_one_eq_mod _ 16

theorem toNat_high16 (x : BitVec 32) : (x >>> 16).toNat = x.toNat / 65536 := by
  rw [BitVec.toNat_ushiftRight, shiftRight_eq_div_pow]

theorem toNat_widened (w : BitVec 16) : (w.setWidth 32).toNat = w.toNat := by
  rw [BitVec.toNat_setWidth, mod_eq_of_lt (lt_trans w.isLt (by decide))]

theorem toNat_notWidened (w : BitVec 16) : (~~~(w.setWidth 32) &&& 0xffff).toNat = 65535 - w.toNat := by
  rw [toNat_low16, BitVec.toNat_not, toNat_widened]
  omega

theorem toNat_add32 (h : x.toNat + y.toNat ≤ 5 * 65535) : (x + y).toNat = x.toNat + y.toNat := by
  rw [BitVec.toNat_add, mod_eq_of_lt (lt_of_le_of_lt h (by decide))]

theorem toNat_foldSum (h : x.toNat ≤ 5 * 65535) : ((~~~(foldSum x)).setWidth 16).toNat = 65535 - endAround 65535 x.toNat := by
  have hsum : ((x >>> 16) + (x &&& 0xffff)).toNat = x.toNat / 65536 + x.toNat % 65536 := by
    rw [toNat_add32 (by rw [toNat_high16, toNat_low16]; omega), toNat_high16, toNat_low16]
  have htotal : (foldSum x).toNat = x.toNat / 65536 + x.toNat % 65536 + (x.toNat / 65536 + x.toNat % 65536) / 65536 := by
    rw [foldSum, toNat_add32 (by rw [toNat_high16]; omega), toNat_high16, hsum]
  have hfold : endAround 65535 x.toNat = (foldSum x).toNat % 65536 := by
    rw [← endAround_fold, ← endAround_fold, endAround_of_le (by omega)]
    omega
  rw [BitVec.toNat_setWidth, BitVec.toNat_not]
  omega

theorem npfFixup16Cksum_stored (c o n : BitVec 16) :
    (npfFixup16Cksum c o n).toNat = 65535 - endAround 65535 ((65535 - c.toNat) + ((~~~o).toNat + n.toNat)) := by
  have hchange : ((~~~(o.setWidth 32) &&& 0xffff) + n.setWidth 32).toNat = (~~~o).toNat + n.toNat := by
    rw [toNat_add32 (by rw [toNat_notWidened, toNat_widened]; omega), toNat_notWidened, toNat_widened, toNat_not16]
  have hsum : ((~~~(c.setWidth 32) &&& 0xffff) + ((~~~(o.setWidth 32) &&& 0xffff) + n.setWidth 32)).toNat =
      (65535 - c.toNat) + ((~~~o).toNat + n.toNat) := by
    rw [toNat_add32 (by rw [toNat_notWidened]; omega), toNat_notWidened, hchange]
  rw [npfFixup16Cksum, toNat_foldSum (by omega), hsum]

theorem toNat_append16 (v w : BitVec 16) : (v ++ w).toNat = v.toNat * 65536 + w.toNat := by
  rw [BitVec.toNat_append, ← shiftLeft_add_eq_or_of_lt w.isLt, shiftLeft_eq]

theorem load32_halves (b : ByteOrder) (v w : BitVec 16) : (load32 b v w).toNat % 65536 + (load32 b v w).toNat / 65536 = v.toNat + w.toNat := by
  cases b with
  | little =>
    rw [load32, toNat_append16]
    omega
  | big =>
    rw [load32, toNat_append16]
    omega

theorem load32_not (b : ByteOrder) (v w : BitVec 16) : ~~~(load32 b v w) = load32 b (~~~v) (~~~w) := by
  cases b with
  | little => exact BitVec.not_append
  | big => exact BitVec.not_append

theorem npfFixup32Cksum_stored (b : ByteOrder) (c v w v' w' : BitVec 16) : (npfFixup32Cksum c (load32 b v w) (load32 b v' w')).toNat =
      65535 - endAround 65535 ((65535 - c.toNat) + (((~~~v).toNat + (~~~w).toNat) + (v'.toNat + w'.toNat))) := by
  have hold := load32_halves b (~~~v) (~~~w)
  have hnew := load32_halves b v' w'
  have hlow : ((~~~(load32 b v w) &&& 0xffff) + (load32 b v' w' &&& 0xffff)).toNat =
      (load32 b (~~~v) (~~~w)).toNat % 65536 + (load32 b v' w').toNat % 65536 := by
    rw [toNat_add32 (by rw [toNat_low16, toNat_low16]; omega), toNat_low16, toNat_low16, load32_not]
  have hhigh : ((~~~(load32 b v w) >>> 16) + (load32 b v' w' >>> 16)).toNat =
      (load32 b (~~~v) (~~~w)).toNat / 65536 + (load32 b v' w').toNat / 65536 := by
    have holdLt := (load32 b (~~~v) (~~~w)).isLt
    have hnewLt := (load32 b v' w').isLt
    rw [toNat_add32 (by rw [toNat_high16, toNat_high16, load32_not]; omega), toNat_high16, toNat_high16, load32_not]
  have hpart : ((~~~(c.setWidth 32) &&& 0xffff) + ((~~~(load32 b v w) &&& 0xffff) + (load32 b v' w' &&& 0xffff))).toNat =
      (65535 - c.toNat) + ((load32 b (~~~v) (~~~w)).toNat % 65536 + (load32 b v' w').toNat % 65536) := by
    rw [toNat_add32 (by rw [toNat_notWidened, hlow]; omega), toNat_notWidened, hlow]
  rw [npfFixup32Cksum, toNat_foldSum (by rw [toNat_add32 (by omega), hpart]; omega), toNat_add32 (by omega), hpart]
  congr 2
  omega

/-- What a fix-up stores: `stored c old new` for a checksum `c`, the complements of the words that go, and the words that come. -/
def stored (c : BitVec 16) (s : Nat) : Nat := 65535 - endAround 65535 ((65535 - c.toNat) + s)

theorem stored_stored {c c' : BitVec 16} {s t : Nat} (h : c'.toNat = stored c s) : stored c' t = stored c (s + t) := by
  have hle := endAround_le (show 0 < 65535 by decide) ((65535 - c.toNat) + s)
  rw [stored, stored, h, stored, Nat.sub_sub_self hle, endAround_add, add_assoc]

theorem wordsOf_succ (addr : NpfAddr) (n : Nat) : wordsOf addr (n + 1) = wordsOf addr n ++ [addr n] := by
  rw [wordsOf, range_succ, map_append]
  rfl

theorem npfAddrCksum_stored (b : ByteOrder) (c : BitVec 16) (sz : Nat) (oaddr naddr : NpfAddr) : (npfAddrCksum b c sz oaddr naddr).toNat =
      stored c (wordSum ((wordsOf oaddr (2 * (sz / 4))).map (~~~·)) + wordSum (wordsOf naddr (2 * (sz / 4)))) := by
  rw [npfAddrCksum]
  induction sz / 4 with
  | zero =>
    have hle : 65535 - c.toNat ≤ 65535 := by omega
    have hnone : wordSum ((wordsOf oaddr (2 * 0)).map (~~~·)) + wordSum (wordsOf naddr (2 * 0)) = 0 := rfl
    rw [hnone, range_zero, foldl_nil, stored, add_zero, endAround_of_le hle]
    omega
  | succ n ih =>
    rw [range_succ, foldl_append, foldl_cons, foldl_nil, word32, word32, npfFixup32Cksum_stored]
    refine (stored_stored ih).trans ?_
    have hold : wordSum ((wordsOf oaddr (2 * (n + 1))).map (~~~·)) =
        wordSum ((wordsOf oaddr (2 * n)).map (~~~·)) + ((~~~oaddr (2 * n)).toNat + (~~~oaddr (2 * n + 1)).toNat) := by
      rw [mul_succ, wordsOf_succ, wordsOf_succ, map_append, map_append, wordSum_append, wordSum_append, add_assoc]
      rfl
    have hnew : wordSum (wordsOf naddr (2 * (n + 1))) = wordSum (wordsOf naddr (2 * n)) + ((naddr (2 * n)).toNat + (naddr (2 * n + 1)).toNat) := by
      rw [mul_succ, wordsOf_succ, wordsOf_succ, wordSum_append, wordSum_append, add_assoc]
      rfl
    congr 1
    omega

theorem stored_modEq {c c' : BitVec 16} {k old s new : Nat} (h : c'.toNat = stored c (s + new)) (hold : s + old = 65535 * k) :
    c'.toNat + new ≡ c.toNat + old [MOD 65535] := by
  have hround := endAround_modEq 65535 ((65535 - c.toNat) + (s + new))
  have hle := endAround_le (show 0 < 65535 by decide) ((65535 - c.toNat) + (s + new))
  rw [stored] at h
  rw [ModEq] at hround ⊢
  omega

theorem inCksum_modEq (ws : List (BitVec 16)) : (inCksum ws).toNat + wordSum ws ≡ 0 [MOD 65535] := by
  have hround := endAround_modEq 65535 (wordSum ws)
  have hle := endAround_le (show 0 < 65535 by decide) (wordSum ws)
  rw [inCksum, toNat_not16, BitVec.toNat_ofNat]
  rw [ModEq] at hround ⊢
  omega

theorem modEq_inCksum {s : Nat} {ws : List (BitVec 16)} (h : s + wordSum ws ≡ 0 [MOD 65535]) : s ≡ (inCksum ws).toNat [MOD 65535] :=
  (h.trans (inCksum_modEq ws).symm).add_right_cancel'

end Sums

end NetBSD.Net.Npf.Inet
