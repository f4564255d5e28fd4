import NetBSD.Fs.Msdosfs.Mountfs

/-! Entries of the table in a block.

`pcbmap`, `fatentry`, `fatchain`, `freeclusterchain` and `fillinusemap` each take an entry out of
a block, or put one in, with code of their own. Entry `cn` is the bits from `bits * cn` of the
table on: 12, 16 or 28 of them, and of entries of 32 bits the highest four are kept. A function
whose result is `none` has left the buffer. -/
namespace NetBSD.Fs.Msdosfs
open Option Nat
open Lib.Bytes

/-- The bits from one entry to the next. -/
def FatType.bits : FatType → Nat
  | .fat12 => 12
  | .fat16 => 16
  | .fat32 => 32

def FatType.used : FatType → Nat
  | .fat12 => 12
  | .fat16 => 16
  | .fat32 => 28

def FatType.notMask (t : FatType) : Nat := 2 ^ 64 - 1 - t.mask

/-- The bytes that an entry is read from. -/
def FatType.width (t : FatType) : Nat := if t = .fat32 then 4 else 2

/-- The bits of its first byte that are not the entry's. -/
def FatType.skip (t : FatType) (cn : Nat) : Nat := if t = .fat12 ∧ cn &&& 1 ≠ 0 then 4 else 0

/-- A block of the table that has been read. -/
structure Buf where
  data : Nat → BitVec 8
  size : Nat

namespace Buf
variable (b : Buf) (t : FatType) (bo : Nat)

def getushort : Option Nat := if bo + 2 ≤ b.size then some (le16dec b.data bo) else none

def getulong : Option Nat := if bo + 4 ≤ b.size then some (le32dec b.data bo) else none

def putushort (v : Nat) : Option Buf := if bo + 2 ≤ b.size then some {b with data := le16enc b.data bo v} else none

def putulong (v : Nat) : Option Buf := if bo + 4 ≤ b.size then some {b with data := le32enc b.data bo v} else none

/-- An entry as `pcbmap`, `fatentry` and `fillinusemap` read it. -/
def getEntry (cn : Nat) : Option Nat :=
  (if t = .fat32 then b.getulong bo else b.getushort bo).map fun readcn =>
    (if t = .fat12 ∧ cn &&& 1 ≠ 0 then readcn >>> 4 else readcn) &&& t.mask

/-- An entry as `fatentry` sets it. -/
def setEntry (cn newcontents : Nat) : Option Buf :=
  match t with
  | .fat12 => (b.getushort bo).bind fun readcn =>
    b.putushort bo (if cn &&& 1 ≠ 0 then readcn &&& 0x000f ||| newcontents <<< 4
      else readcn &&& 0xf000 ||| newcontents &&& 0xfff)
  | .fat16 => b.putushort bo newcontents
  | .fat32 => (b.getulong bo).bind fun readcn =>
    b.putulong bo (readcn &&& FatType.fat32.notMask ||| newcontents &&& FatType.fat32.mask)

/-- An entry as `fatchain` sets it; `start` is the cluster behind. -/
def chainEntry (start newc : Nat) : Option Buf :=
  match t with
  | .fat12 => (b.getushort bo).bind fun readcn =>
    b.putushort bo (if start &&& 1 ≠ 0 then readcn &&& 0xf000 ||| newc &&& 0xfff else readcn &&& 0x000f ||| newc <<< 4)
  | .fat16 => b.putushort bo newc
  | .fat32 => (b.getulong bo).bind fun readcn => b.putulong bo (readcn &&& FatType.fat32.notMask ||| newc &&& FatType.fat32.mask)

/-- An entry as `freeclusterchain` takes it, leaving 0 behind. -/
def freeEntry (cluster : Nat) : Option (Nat × Buf) :=
  match t with
  | .fat12 => (b.getushort bo).bind fun readcn =>
    (b.putushort bo (if cluster &&& 1 ≠ 0 then readcn &&& 0x000f ||| MSDOSFSFREE <<< 4
      else readcn &&& 0xf000 ||| MSDOSFSFREE &&& 0xfff)).map fun b =>
      ((if cluster &&& 1 ≠ 0 then readcn >>> 4 else readcn) &&& FatType.fat12.mask, b)
  | .fat16 => (b.getushort bo).bind fun readcn => (b.putushort bo MSDOSFSFREE).map fun b => (readcn &&& FatType.fat16.mask, b)
  | .fat32 => (b.getulong bo).bind fun readcn =>
    (b.putulong bo (MSDOSFSFREE &&& FatType.fat32.mask ||| readcn &&& FatType.fat32.notMask)).map fun b =>
      (readcn &&& FatType.fat32.mask, b)

end Buf

/-! ### Which bits they are -/

theorem mask_eq (t : FatType) : t.mask = 2 ^ t.used - 1 := by
  cases t <;> rfl

theorem notMask_eq : FatType.fat32.notMask = (2 ^ 36 - 1) <<< 28 := rfl

theorem testBit_mask (t : FatType) (j : Nat) : t.mask.testBit j = decide (j < t.used) := by
  rw [mask_eq, testBit_two_pow_sub_one]

theorem ofs_skip (t : FatType) (cn : Nat) : 8 * (cn * t.mult / t.div) + t.skip cn = t.bits * cn := by
  cases t with
  | fat12 =>
    show 8 * (cn * 3 / 2) + (if _ ∧ cn &&& 1 ≠ 0 then 4 else 0) = 12 * cn
    rw [and_one_is_mod]
    by_cases hodd : cn % 2 = 1
    · rw [if_pos ⟨rfl, by omega⟩]
      omega
    · rw [if_neg fun h => h.2 (by omega)]
      omega
  | fat16 =>
    show 8 * (cn * 2 / 1) + (if _ ∧ _ then 4 else 0) = 16 * cn
    rw [if_neg fun h => FatType.noConfusion h.1]
    omega
  | fat32 =>
    show 8 * (cn * 4 / 1) + (if _ ∧ _ then 4 else 0) = 32 * cn
    rw [if_neg fun h => FatType.noConfusion h.1]
    omega

theorem skip_used_le (t : FatType) (cn : Nat) : t.skip cn + t.used ≤ 8 * t.width := by
  unfold FatType.skip
  cases t with
  | fat12 => split <;> decide
  | fat16 => rw [if_neg fun h => FatType.noConfusion h.1]; decide
  | fat32 => rw [if_neg fun h => FatType.noConfusion h.1]; decide

namespace Buf
variable {b b' : Buf} {t : FatType} {bo cn v : Nat}

theorem getushort_eq (h : bo + 2 ≤ b.size) : b.getushort bo = some (le16dec b.data bo) := if_pos h

theorem getulong_eq (h : bo + 4 ≤ b.size) : b.getulong bo = some (le32dec b.data bo) := if_pos h

theorem putushort_eq (h : bo + 2 ≤ b.size) : b.putushort bo v = some {b with data := le16enc b.data bo v} := if_pos h

theorem putulong_eq (h : bo + 4 ≤ b.size) : b.putulong bo v = some {b with data := le32enc b.data bo v} := if_pos h

/-- The entry is the bits behind those that are skipped. -/
theorem getEntry_spec (h : bo + t.width ≤ b.size) : ∃ v, b.getEntry t bo cn = some v ∧
    ∀ j, v.testBit j = (decide (j < t.used) && bitAt b.data (8 * bo + t.skip cn + j)) := by
  unfold getEntry
  cases t with
  | fat12 =>
    rw [getushort_eq h]
    refine ⟨_, rfl, fun j => ?_⟩
    rw [testBit_and, testBit_mask]
    unfold FatType.skip
    by_cases hj : j < FatType.used .fat12
    · have hlt : j < 12 := hj
      by_cases hodd : FatType.fat12 = .fat12 ∧ cn &&& 1 ≠ 0
      · rw [if_pos hodd, if_pos hodd, testBit_shiftRight, testBit_le16dec, decide_eq_true (by omega : 4 + j < 16), Bool.true_and,
          add_assoc, Bool.and_comm]
      · rw [if_neg hodd, if_neg hodd, testBit_le16dec, decide_eq_true (by omega : j < 16), Bool.true_and, add_zero, Bool.and_comm]
    · rw [decide_eq_false hj, Bool.and_false, Bool.false_and]
  | fat16 =>
    rw [getushort_eq h]
    refine ⟨_, rfl, fun j => ?_⟩
    have heven : ¬(FatType.fat16 = .fat12 ∧ cn &&& 1 ≠ 0) := fun h => FatType.noConfusion h.1
    dsimp only
    rw [if_neg heven, FatType.skip, if_neg heven, testBit_and, testBit_mask, testBit_le16dec, add_zero]
    show (decide (j < 16) && _ && decide (j < 16)) = (decide (j < 16) && _)
    rw [Bool.and_right_comm, Bool.and_self]
  | fat32 =>
    rw [getulong_eq h]
    refine ⟨_, rfl, fun j => ?_⟩
    have heven : ¬(FatType.fat32 = .fat12 ∧ cn &&& 1 ≠ 0) := fun h => FatType.noConfusion h.1
    dsimp only
    rw [if_neg heven, FatType.skip, if_neg heven, testBit_and, testBit_mask, testBit_le32dec, add_zero]
    by_cases hj : j < FatType.used .fat32
    · have hlt : j < 28 := hj
      rw [decide_eq_true (by omega : j < 32), Bool.true_and, Bool.and_comm]
    · rw [decide_eq_false hj, Bool.and_false, Bool.false_and]

theorem twelve_odd (readcn : Nat → BitVec 8) (v : Nat) :
    Wrote readcn (le16enc readcn bo (le16dec readcn bo &&& 0x000f ||| v <<< 4)) (8 * bo + 4) 12 v := by
  refine wrote_le16enc.narrow (by omega) (by omega) (fun j hj => ?_) fun m hlow hhigh hout => ?_
  · have hsum : 8 * bo + 4 - 8 * bo + j = 4 + j := by omega
    have hmask : (0x000f : Nat) = 2 ^ 4 - 1 := rfl
    rw [hsum, testBit_or, testBit_and, hmask, testBit_two_pow_sub_one, decide_eq_false (by omega), Bool.and_false,
      Bool.false_or, testBit_shiftLeft, decide_eq_true (by omega), Bool.true_and, Nat.add_sub_cancel_left]
  have hlt : m - 8 * bo < 4 := by omega
  have hsum : 8 * bo + (m - 8 * bo) = m := by omega
  have hmask : (0x000f : Nat) = 2 ^ 4 - 1 := rfl
  rw [testBit_or, testBit_and, hmask, testBit_two_pow_sub_one, decide_eq_true hlt, Bool.and_true, testBit_le16dec,
    decide_eq_true (by omega), Bool.true_and, hsum, testBit_shiftLeft, decide_eq_false (by omega), Bool.false_and, Bool.or_false]

/-- The low bits of one number under the high ones of another. -/
theorem testBit_merge {old v k w j : Nat} (hj : j < k + w) :
    (old &&& (2 ^ w - 1) <<< k ||| v &&& 2 ^ k - 1).testBit j = if j < k then v.testBit j else old.testBit j := by
  rw [testBit_or, testBit_and, testBit_and, testBit_shiftLeft, testBit_two_pow_sub_one, testBit_two_pow_sub_one]
  by_cases hlow : j < k
  · rw [if_pos hlow, decide_eq_false (by omega), Bool.false_and, Bool.and_false, Bool.false_or, decide_eq_true hlow, Bool.and_true]
  · rw [if_neg hlow, decide_eq_true (by omega), Bool.true_and, decide_eq_true (by omega), Bool.and_true, decide_eq_false hlow,
      Bool.and_false, Bool.or_false]

theorem twelve_even (readcn : Nat → BitVec 8) (v : Nat) :
    Wrote readcn (le16enc readcn bo (le16dec readcn bo &&& 0xf000 ||| v &&& 0xfff)) (8 * bo) 12 v := by
  have hhigh : (0xf000 : Nat) = (2 ^ 4 - 1) <<< 12 := rfl
  have hlow : (0xfff : Nat) = 2 ^ 12 - 1 := rfl
  rw [hhigh, hlow]
  refine wrote_le16enc.narrow (le_refl _) (by omega) (fun j hj => ?_) fun m hm hend hout => ?_
  · rw [Nat.sub_self, Nat.zero_add, testBit_merge (by omega), if_pos hj]
  · have hsum : 8 * bo + (m - 8 * bo) = m := by omega
    rw [testBit_merge (by omega), if_neg (by omega), testBit_le16dec, decide_eq_true (by omega), Bool.true_and, hsum]

theorem twentyEight (readcn : Nat → BitVec 8) (v : Nat) :
    Wrote readcn (le32enc readcn bo (le32dec readcn bo &&& FatType.fat32.notMask ||| v &&& FatType.fat32.mask)) (8 * bo) 28 v := by
  have hlow : FatType.fat32.mask = 2 ^ 28 - 1 := rfl
  rw [notMask_eq, hlow]
  refine wrote_le32enc.narrow (le_refl _) (by omega) (fun j hj => ?_) fun m hm hend hout => ?_
  · rw [Nat.sub_self, Nat.zero_add, testBit_merge (by omega), if_pos hj]
  · have hsum : 8 * bo + (m - 8 * bo) = m := by omega
    rw [testBit_merge (by omega), if_neg (by omega), testBit_le32dec, decide_eq_true (by omega), Bool.true_and, hsum]

/-- The block with an entry set, and nothing else changed. -/
def Sets (b b' : Buf) (t : FatType) (bo cn v : Nat) : Prop := b'.size = b.size ∧ Wrote b.data b'.data (8 * bo + t.skip cn) t.used v

theorem skip_odd (h : cn &&& 1 ≠ 0) : FatType.skip .fat12 cn = 4 := if_pos ⟨rfl, h⟩

theorem skip_even (h : ¬cn &&& 1 ≠ 0) : FatType.skip .fat12 cn = 0 := if_neg fun hodd => h hodd.2

theorem skip_wide (h : t ≠ .fat12) : t.skip cn = 0 := if_neg fun hodd => h hodd.1

theorem odd_succ (cn : Nat) : (cn + 1 &&& 1 ≠ 0) ↔ ¬cn &&& 1 ≠ 0 := by
  rw [and_one_is_mod, and_one_is_mod]
  omega

theorem twelve_spec (h : bo + 2 ≤ b.size) (odd : Prop) [Decidable odd] (hodd : odd ↔ cn &&& 1 ≠ 0) : ∃ b',
    (b.putushort bo (if odd then le16dec b.data bo &&& 0x000f ||| v <<< 4 else le16dec b.data bo &&& 0xf000 ||| v &&& 0xfff)) = some b' ∧
      b.Sets b' .fat12 bo cn v := by
  refine ⟨_, putushort_eq h, rfl, ?_⟩
  by_cases hcn : cn &&& 1 ≠ 0
  · rw [if_pos (hodd.mpr hcn), skip_odd hcn]
    exact twelve_odd b.data v
  · rw [if_neg fun hp => hcn (hodd.mp hp), skip_even hcn]
    exact twelve_even b.data v

theorem sixteen_spec (h : bo + 2 ≤ b.size) : ∃ b', b.putushort bo v = some b' ∧ b.Sets b' .fat16 bo cn v := by
  refine ⟨_, putushort_eq h, rfl, ?_⟩
  exact wrote_le16enc

theorem thirtyTwo_spec (h : bo + 4 ≤ b.size) : ∃ b',
    b.putulong bo (le32dec b.data bo &&& FatType.fat32.notMask ||| v &&& FatType.fat32.mask) = some b' ∧ b.Sets b' .fat32 bo cn v := by
  refine ⟨_, putulong_eq h, rfl, ?_⟩
  exact twentyEight b.data v

section
variable (h : bo + t.width ≤ b.size)
include h

theorem setEntry_spec : ∃ b', b.setEntry t bo cn v = some b' ∧ b.Sets b' t bo cn v := by
  unfold setEntry
  cases t with
  | fat12 =>
    rw [getushort_eq h]
    exact twelve_spec h _ Iff.rfl
  | fat16 => exact sixteen_spec h
  | fat32 =>
    rw [getulong_eq h]
    exact thirtyTwo_spec h

theorem chainEntry_spec : ∃ b', b.chainEntry t bo (cn + 1) v = some b' ∧ b.Sets b' t bo cn v := by
  unfold chainEntry
  cases t with
  | fat12 =>
    obtain ⟨b', hb', hsets⟩ := @twelve_spec b bo cn v h (¬(cn + 1 &&& 1 ≠ 0)) _ (by rw [odd_succ, not_not])
    refine ⟨b', ?_, hsets⟩
    rw [getushort_eq h, ← hb']
    exact congrArg (b.putushort bo) (ite_not ..).symm
  | fat16 => exact sixteen_spec h
  | fat32 =>
    rw [getulong_eq h]
    exact thirtyTwo_spec h

/-- What `freeclusterchain` goes on with is the entry that it has replaced by 0. -/
theorem freeEntry_spec : ∃ v b', b.freeEntry t bo cn = some (v, b') ∧ b.getEntry t bo cn = some v ∧ b.Sets b' t bo cn 0 := by
  unfold freeEntry getEntry
  cases t with
  | fat12 =>
    obtain ⟨b', hb', hsets⟩ := @twelve_spec b bo cn 0 h (cn &&& 1 ≠ 0) _ Iff.rfl
    have hput : b.putushort bo (if cn &&& 1 ≠ 0 then le16dec b.data bo &&& 0x000f ||| MSDOSFSFREE <<< 4
        else le16dec b.data bo &&& 0xf000 ||| MSDOSFSFREE &&& 0xfff) = some b' := hb'
    refine ⟨(if cn &&& 1 ≠ 0 then le16dec b.data bo >>> 4 else le16dec b.data bo) &&& FatType.fat12.mask, b', ?_, ?_, hsets⟩
    · rw [getushort_eq h, bind_some, hput, map_some]
    rw [if_neg (by decide), getushort_eq h, map_some]
    have hiff : (FatType.fat12 = .fat12 ∧ cn &&& 1 ≠ 0) ↔ cn &&& 1 ≠ 0 := and_iff_right rfl
    rw [if_congr hiff rfl rfl]
  | fat16 =>
    obtain ⟨b', hb', hsets⟩ := @sixteen_spec b bo cn 0 h
    have hput : b.putushort bo MSDOSFSFREE = some b' := hb'
    have heven : ¬(FatType.fat16 = .fat12 ∧ cn &&& 1 ≠ 0) := fun h => FatType.noConfusion h.1
    refine ⟨le16dec b.data bo &&& FatType.fat16.mask, b', ?_, ?_, hsets⟩
    · dsimp only
      rw [getushort_eq h, bind_some, hput, map_some]
    · rw [if_neg (by decide), getushort_eq h, map_some, if_neg heven]
  | fat32 =>
    obtain ⟨b', hb', hsets⟩ := @thirtyTwo_spec b bo cn 0 h
    have hput : b.putulong bo (MSDOSFSFREE &&& FatType.fat32.mask ||| le32dec b.data bo &&& FatType.fat32.notMask) = some b' := by
      rw [← hb', Nat.or_comm]
      rfl
    have heven : ¬(FatType.fat32 = .fat12 ∧ cn &&& 1 ≠ 0) := fun h => FatType.noConfusion h.1
    refine ⟨le32dec b.data bo &&& FatType.fat32.mask, b', ?_, ?_, hsets⟩
    · rw [getulong_eq h, bind_some, hput, map_some]
    · rw [if_pos rfl, getulong_eq h, map_some, if_neg heven]

end

theorem getEntry_none (h : b.size < bo + t.width) : b.getEntry t bo cn = none := by
  unfold getEntry
  by_cases h32 : t = .fat32
  · have hwidth : t.width = 4 := if_pos h32
    rw [if_pos h32, getulong, if_neg (by omega), map_none]
  · have hwidth : t.width = 2 := if_neg h32
    rw [if_neg h32, getushort, if_neg (by omega), map_none]

end Buf

end NetBSD.Fs.Msdosfs
