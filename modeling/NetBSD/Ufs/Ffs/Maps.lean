import NetBSD.Lib.Runs
import Mathlib.Data.BitVec

/-! The maps of a cylinder group.

`cg_blksfree` has one bit for each fragment, and `fs_frag` of them are a block; the functions
on a block pick its byte and its bits by `fs_fragshift`. `around` and `inside` find a run of
free fragments in the bits of a block, and `fragtbl` says which lengths there are. -/
namespace NetBSD.Ufs.Ffs
open List Nat Function
open Lib

abbrev Byte := BitVec 8

abbrev NBBY : Nat := 8

abbrev Map := Nat → Byte

def setbit (a : Map) (i : Nat) : Map := update a (i / NBBY) (a (i / NBBY) ||| 1#8 <<< (i % NBBY))

def clrbit (a : Map) (i : Nat) : Map := update a (i / NBBY) (a (i / NBBY) &&& ~~~(1#8 <<< (i % NBBY)))

def isset (a : Map) (i : Nat) : Bool := a (i / NBBY) &&& 1#8 <<< (i % NBBY) != 0

def isclr (a : Map) (i : Nat) : Bool := a (i / NBBY) &&& 1#8 <<< (i % NBBY) == 0

/-- The byte of block `h`, the switch over `fs_fragshift` of the functions below. -/
def blkbyte (fragshift : Fin 4) (h : Nat) : Nat :=
  match fragshift with
  | 3 => h
  | 2 => h >>> 1
  | 1 => h >>> 2
  | 0 => h >>> 3

def blkmask (fragshift : Fin 4) (h : Nat) : Byte :=
  match fragshift with
  | 3 => 0xff#8
  | 2 => 0x0f#8 <<< ((h &&& 0x1) <<< 2)
  | 1 => 0x03#8 <<< ((h &&& 0x3) <<< 1)
  | 0 => 0x01#8 <<< (h &&& 0x7)

def isblock (fragshift : Fin 4) (cp : Map) (h : Nat) : Bool :=
  cp (blkbyte fragshift h) &&& blkmask fragshift h == blkmask fragshift h

/-- The block is allocated as a whole. -/
def isfreeblock (fragshift : Fin 4) (cp : Map) (h : Nat) : Bool := cp (blkbyte fragshift h) &&& blkmask fragshift h == 0

def clrblock (fragshift : Fin 4) (cp : Map) (h : Nat) : Map :=
  update cp (blkbyte fragshift h) (cp (blkbyte fragshift h) &&& ~~~blkmask fragshift h)

def setblock (fragshift : Fin 4) (cp : Map) (h : Nat) : Map :=
  update cp (blkbyte fragshift h) (cp (blkbyte fragshift h) ||| blkmask fragshift h)

/-- The bits of the block that begins at `loc`, as a number. -/
def blkmap (frag : Nat) (map : Map) (loc : Nat) : Nat := (map (loc / NBBY)).toNat >>> (loc % NBBY) &&& 0xff >>> (NBBY - frag)

def around : List Nat := [0x3, 0x7, 0xf, 0x1f, 0x3f, 0x7f, 0xff, 0x1ff, 0x3ff]

def inside : List Nat := [0x0, 0x2, 0x6, 0xe, 0x1e, 0x3e, 0x7e, 0xfe, 0x1fe]

def fragtbl124 : List Nat := [
  0x00, 0x16, 0x16, 0x2a, 0x16, 0x16, 0x26, 0x4e, 0x16, 0x16, 0x16, 0x3e, 0x2a, 0x3e, 0x4e, 0x8a,
  0x16, 0x16, 0x16, 0x3e, 0x16, 0x16, 0x36, 0x5e, 0x16, 0x16, 0x16, 0x3e, 0x3e, 0x3e, 0x5e, 0x9e,
  0x16, 0x16, 0x16, 0x3e, 0x16, 0x16, 0x36, 0x5e, 0x16, 0x16, 0x16, 0x3e, 0x3e, 0x3e, 0x5e, 0x9e,
  0x2a, 0x3e, 0x3e, 0x2a, 0x3e, 0x3e, 0x2e, 0x6e, 0x3e, 0x3e, 0x3e, 0x3e, 0x2a, 0x3e, 0x6e, 0xaa,
  0x16, 0x16, 0x16, 0x3e, 0x16, 0x16, 0x36, 0x5e, 0x16, 0x16, 0x16, 0x3e, 0x3e, 0x3e, 0x5e, 0x9e,
  0x16, 0x16, 0x16, 0x3e, 0x16, 0x16, 0x36, 0x5e, 0x16, 0x16, 0x16, 0x3e, 0x3e, 0x3e, 0x5e, 0x9e,
  0x26, 0x36, 0x36, 0x2e, 0x36, 0x36, 0x26, 0x6e, 0x36, 0x36, 0x36, 0x3e, 0x2e, 0x3e, 0x6e, 0xae,
  0x4e, 0x5e, 0x5e, 0x6e, 0x5e, 0x5e, 0x6e, 0x4e, 0x5e, 0x5e, 0x5e, 0x7e, 0x6e, 0x7e, 0x4e, 0xce,
  0x16, 0x16, 0x16, 0x3e, 0x16, 0x16, 0x36, 0x5e, 0x16, 0x16, 0x16, 0x3e, 0x3e, 0x3e, 0x5e, 0x9e,
  0x16, 0x16, 0x16, 0x3e, 0x16, 0x16, 0x36, 0x5e, 0x16, 0x16, 0x16, 0x3e, 0x3e, 0x3e, 0x5e, 0x9e,
  0x16, 0x16, 0x16, 0x3e, 0x16, 0x16, 0x36, 0x5e, 0x16, 0x16, 0x16, 0x3e, 0x3e, 0x3e, 0x5e, 0x9e,
  0x3e, 0x3e, 0x3e, 0x3e, 0x3e, 0x3e, 0x3e, 0x7e, 0x3e, 0x3e, 0x3e, 0x3e, 0x3e, 0x3e, 0x7e, 0xbe,
  0x2a, 0x3e, 0x3e, 0x2a, 0x3e, 0x3e, 0x2e, 0x6e, 0x3e, 0x3e, 0x3e, 0x3e, 0x2a, 0x3e, 0x6e, 0xaa,
  0x3e, 0x3e, 0x3e, 0x3e, 0x3e, 0x3e, 0x3e, 0x7e, 0x3e, 0x3e, 0x3e, 0x3e, 0x3e, 0x3e, 0x7e, 0xbe,
  0x4e, 0x5e, 0x5e, 0x6e, 0x5e, 0x5e, 0x6e, 0x4e, 0x5e, 0x5e, 0x5e, 0x7e, 0x6e, 0x7e, 0x4e, 0xce,
  0x8a, 0x9e, 0x9e, 0xaa, 0x9e, 0x9e, 0xae, 0xce, 0x9e, 0x9e, 0x9e, 0xbe, 0xaa, 0xbe, 0xce, 0x8a]

def fragtbl8 : List Nat := [
  0x00, 0x01, 0x01, 0x02, 0x01, 0x01, 0x02, 0x04, 0x01, 0x01, 0x01, 0x03, 0x02, 0x03, 0x04, 0x08,
  0x01, 0x01, 0x01, 0x03, 0x01, 0x01, 0x03, 0x05, 0x02, 0x03, 0x03, 0x02, 0x04, 0x05, 0x08, 0x10,
  0x01, 0x01, 0x01, 0x03, 0x01, 0x01, 0x03, 0x05, 0x01, 0x01, 0x01, 0x03, 0x03, 0x03, 0x05, 0x09,
  0x02, 0x03, 0x03, 0x02, 0x03, 0x03, 0x02, 0x06, 0x04, 0x05, 0x05, 0x06, 0x08, 0x09, 0x10, 0x20,
  0x01, 0x01, 0x01, 0x03, 0x01, 0x01, 0x03, 0x05, 0x01, 0x01, 0x01, 0x03, 0x03, 0x03, 0x05, 0x09,
  0x01, 0x01, 0x01, 0x03, 0x01, 0x01, 0x03, 0x05, 0x03, 0x03, 0x03, 0x03, 0x05, 0x05, 0x09, 0x11,
  0x02, 0x03, 0x03, 0x02, 0x03, 0x03, 0x02, 0x06, 0x03, 0x03, 0x03, 0x03, 0x02, 0x03, 0x06, 0x0a,
  0x04, 0x05, 0x05, 0x06, 0x05, 0x05, 0x06, 0x04, 0x08, 0x09, 0x09, 0x0a, 0x10, 0x11, 0x20, 0x40,
  0x01, 0x01, 0x01, 0x03, 0x01, 0x01, 0x03, 0x05, 0x01, 0x01, 0x01, 0x03, 0x03, 0x03, 0x05, 0x09,
  0x01, 0x01, 0x01, 0x03, 0x01, 0x01, 0x03, 0x05, 0x03, 0x03, 0x03, 0x03, 0x05, 0x05, 0x09, 0x11,
  0x01, 0x01, 0x01, 0x03, 0x01, 0x01, 0x03, 0x05, 0x01, 0x01, 0x01, 0x03, 0x03, 0x03, 0x05, 0x09,
  0x03, 0x03, 0x03, 0x03, 0x03, 0x03, 0x03, 0x07, 0x05, 0x05, 0x05, 0x07, 0x09, 0x09, 0x11, 0x21,
  0x02, 0x03, 0x03, 0x02, 0x03, 0x03, 0x02, 0x06, 0x03, 0x03, 0x03, 0x03, 0x02, 0x03, 0x06, 0x0a,
  0x03, 0x03, 0x03, 0x03, 0x03, 0x03, 0x03, 0x07, 0x02, 0x03, 0x03, 0x02, 0x06, 0x07, 0x0a, 0x12,
  0x04, 0x05, 0x05, 0x06, 0x05, 0x05, 0x06, 0x04, 0x05, 0x05, 0x05, 0x07, 0x06, 0x07, 0x04, 0x0c,
  0x08, 0x09, 0x09, 0x0a, 0x09, 0x09, 0x0a, 0x0c, 0x10, 0x11, 0x11, 0x12, 0x20, 0x21, 0x40, 0x80]

def fragtbl (frag : Nat) : List Nat := if frag = 8 then fragtbl8 else fragtbl124

/-- `(map & around) == inside` with both moved up by `pos`: the fields follow the position. -/
def fits (map siz pos : Nat) : Bool := map <<< 1 &&& around.getD siz 0 <<< pos == inside.getD siz 0 <<< pos

/-! ### Bits -/

def bit (a : Map) (i : Nat) : Bool := (a (i / 8)).getLsbD (i % 8)

section Bits
variable {a : Map} {i j : Nat}

theorem getLsbD_one (k : Nat) (hk : k < 8) (i : Nat) : (1#8 <<< k).getLsbD i = decide (i = k) := by
  by_cases hik : i = k
  · subst hik
    simp [hk]
  by_cases hlt : i < k
  · simp [hlt, hik]
  · simp [hik, show i - k ≠ 0 by omega]

theorem and_one_eq_zero (b : Byte) {k : Nat} (hk : k < 8) : (b &&& 1#8 <<< k == 0) = !b.getLsbD k := by
  have hval : b &&& 1#8 <<< k = if b.getLsbD k then 1#8 <<< k else 0 := by
    apply BitVec.eq_of_getLsbD_eq
    intro i hi
    rw [BitVec.getLsbD_and]
    by_cases hik : i = k
    · subst hik
      cases hb : b.getLsbD i <;> simp [getLsbD_one i hk]
    · cases hb : b.getLsbD k <;> simp [hik, getLsbD_one k hk]
  have hne : 1#8 <<< k ≠ 0 := by
    intro hzero
    have hbit := getLsbD_one k hk k
    rw [hzero] at hbit
    simp at hbit
  rw [hval]
  cases hb : b.getLsbD k
  · rfl
  · simpa using hne

theorem isclr_eq : isclr a i = !bit a i := and_one_eq_zero _ (mod_lt _ (by decide))

theorem isset_eq : isset a i = bit a i := by
  have h := @isclr_eq a i
  rw [isclr] at h
  rw [isset, bne, h, Bool.not_not]

theorem bit_update {idx : Nat} {b : Byte} : bit (update a idx b) i = if i / 8 = idx then b.getLsbD (i % 8) else bit a i := by
  by_cases h : i / 8 = idx
  · rw [if_pos h, bit, h, Function.update_self]
  · rw [if_neg h, bit, Function.update_of_ne h]
    rfl

theorem bit_setbit : bit (setbit a i) j = (decide (j = i) || bit a j) := by
  rw [setbit, bit_update]
  by_cases hidx : j / 8 = i / 8
  · rw [if_pos hidx, BitVec.getLsbD_or, getLsbD_one _ (mod_lt _ (by decide)), bit, hidx, Bool.or_comm]
    congr 1
    exact decide_eq_decide.mpr (by omega)
  · rw [if_neg hidx, decide_eq_false (fun h => hidx (by rw [h])), Bool.false_or]

theorem bit_clrbit : bit (clrbit a i) j = (!decide (j = i) && bit a j) := by
  rw [clrbit, bit_update]
  by_cases hidx : j / 8 = i / 8
  · rw [if_pos hidx, BitVec.getLsbD_and, BitVec.getLsbD_not, getLsbD_one _ (mod_lt _ (by decide)), bit, hidx,
      decide_eq_true (mod_lt j (by decide)), Bool.true_and, Bool.and_comm]
    congr 2
    exact decide_eq_decide.mpr (by omega)
  · rw [if_neg hidx, decide_eq_false (fun h => hidx (by rw [h])), Bool.not_false, Bool.true_and]

theorem bit_clrbit_fill {f : Nat → Bool} {n : Nat} (h : bit a = Row.fill f i n false) : bit (clrbit a (i + n)) = Row.fill f i (n + 1) false := by
  funext j
  rw [bit_clrbit, h]
  by_cases hj : j = i + n
  · have hin : Row.fill f i (n + 1) false j = false := Row.fill_inside (by omega) (by omega)
    rw [decide_eq_true hj, hin]
    rfl
  rw [decide_eq_false hj, Bool.not_false, Bool.true_and]
  unfold Row.fill
  congr 1
  exact propext (by omega)

theorem bit_clrbits (a : Map) (i n : Nat) : bit ((List.range n).foldl (fun a k => clrbit a (i + k)) a) = Row.fill (bit a) i n false := by
  induction n with
  | zero =>
    funext j
    exact (Row.fill_outside (by omega)).symm
  | succ n ih =>
    rw [range_succ, foldl_append]
    exact bit_clrbit_fill ih

theorem bit_setbits (a : Map) (i n : Nat) : bit ((List.range n).foldl (fun a k => setbit a (i + k)) a) = Row.fill (bit a) i n true := by
  induction n with
  | zero =>
    funext j
    exact (Row.fill_outside (by omega)).symm
  | succ n ih =>
    funext j
    rw [range_succ, foldl_append, foldl_cons, foldl_nil, bit_setbit, ih]
    by_cases hj : j = i + n
    · have hin : Row.fill (bit a) i (n + 1) true j = true := Row.fill_inside (by omega) (by omega)
      rw [decide_eq_true hj, hin]
      rfl
    rw [decide_eq_false hj, Bool.false_or]
    unfold Row.fill
    congr 1
    exact propext (by omega)

end Bits

/-! ### Blocks -/

section Blocks
variable (fragshift : Fin 4) {a : Map} {h i : Nat}

theorem blkbyte_eq : blkbyte fragshift h = h * 2 ^ (fragshift : Nat) / 8 := by
  match fragshift with
  | 3 => exact (Nat.mul_div_cancel h (by decide)).symm
  | 2 => show h >>> 1 = h * 4 / 8; omega
  | 1 => show h >>> 2 = h * 2 / 8; omega
  | 0 => show h >>> 3 = h * 1 / 8; omega

theorem getLsbD_blkmask (hi : i < 8) : (blkmask fragshift h).getLsbD i =
    decide (h * 2 ^ (fragshift : Nat) % 8 ≤ i ∧ i < h * 2 ^ (fragshift : Nat) % 8 + 2 ^ (fragshift : Nat)) := by
  match fragshift with
  | 3 =>
    have hall : ∀ i < 8, (0xff#8).getLsbD i = true := by decide
    show (0xff#8).getLsbD i = decide (h * 8 % 8 ≤ i ∧ i < h * 8 % 8 + 8)
    rw [hall i hi, decide_eq_true (by omega)]
  | 2 =>
    have hall : ∀ r < 2, ∀ i < 8, (0x0f#8 <<< (r <<< 2)).getLsbD i = decide (r * 4 ≤ i ∧ i < r * 4 + 4) := by decide
    show (0x0f#8 <<< ((h &&& 1) <<< 2)).getLsbD i = decide (h * 4 % 8 ≤ i ∧ i < h * 4 % 8 + 4)
    rw [and_one_is_mod, hall _ (mod_lt h (by decide)) i hi]
    exact decide_eq_decide.mpr (by omega)
  | 1 =>
    have hall : ∀ r < 4, ∀ i < 8, (0x03#8 <<< (r <<< 1)).getLsbD i = decide (r * 2 ≤ i ∧ i < r * 2 + 2) := by decide
    show (0x03#8 <<< ((h &&& 3) <<< 1)).getLsbD i = decide (h * 2 % 8 ≤ i ∧ i < h * 2 % 8 + 2)
    rw [and_two_pow_sub_one_eq_mod h 2, hall _ (mod_lt h (by decide)) i hi]
    exact decide_eq_decide.mpr (by omega)
  | 0 =>
    have hall : ∀ r < 8, ∀ i < 8, (0x01#8 <<< r).getLsbD i = decide (r * 1 ≤ i ∧ i < r * 1 + 1) := by decide
    show (0x01#8 <<< (h &&& 7)).getLsbD i = decide (h * 1 % 8 ≤ i ∧ i < h * 1 % 8 + 1)
    rw [and_two_pow_sub_one_eq_mod h 3, hall _ (mod_lt h (by decide)) i hi]
    exact decide_eq_decide.mpr (by omega)

theorem place_byte {p : Nat} (hp : p < 2 ^ (fragshift : Nat)) : (h * 2 ^ (fragshift : Nat) + p) / 8 = blkbyte fragshift h ∧
    (h * 2 ^ (fragshift : Nat) + p) % 8 = h * 2 ^ (fragshift : Nat) % 8 + p := by
  rw [blkbyte_eq]
  match fragshift, hp with
  | 3, hp => change p < 8 at hp; show (h * 8 + p) / 8 = h * 8 / 8 ∧ (h * 8 + p) % 8 = h * 8 % 8 + p; omega
  | 2, hp => change p < 4 at hp; show (h * 4 + p) / 8 = h * 4 / 8 ∧ (h * 4 + p) % 8 = h * 4 % 8 + p; omega
  | 1, hp => change p < 2 at hp; show (h * 2 + p) / 8 = h * 2 / 8 ∧ (h * 2 + p) % 8 = h * 2 % 8 + p; omega
  | 0, hp => change p < 1 at hp; omega

theorem mask_place : i / 8 = blkbyte fragshift h ∧ (blkmask fragshift h).getLsbD (i % 8) = true ↔
    h * 2 ^ (fragshift : Nat) ≤ i ∧ i < h * 2 ^ (fragshift : Nat) + 2 ^ (fragshift : Nat) := by
  rw [getLsbD_blkmask fragshift (mod_lt i (by decide)), decide_eq_true_iff, blkbyte_eq]
  match fragshift with
  | 3 => show i / 8 = h * 8 / 8 ∧ h * 8 % 8 ≤ i % 8 ∧ i % 8 < h * 8 % 8 + 8 ↔ h * 8 ≤ i ∧ i < h * 8 + 8; omega
  | 2 => show i / 8 = h * 4 / 8 ∧ h * 4 % 8 ≤ i % 8 ∧ i % 8 < h * 4 % 8 + 4 ↔ h * 4 ≤ i ∧ i < h * 4 + 4; omega
  | 1 => show i / 8 = h * 2 / 8 ∧ h * 2 % 8 ≤ i % 8 ∧ i % 8 < h * 2 % 8 + 2 ↔ h * 2 ≤ i ∧ i < h * 2 + 2; omega
  | 0 => show i / 8 = h * 1 / 8 ∧ h * 1 % 8 ≤ i % 8 ∧ i % 8 < h * 1 % 8 + 1 ↔ h * 1 ≤ i ∧ i < h * 1 + 1; omega

theorem and_mask_eq (b m : Byte) : (b &&& m == m) = true ↔ ∀ k < 8, m.getLsbD k = true → b.getLsbD k = true := by
  rw [beq_iff_eq]
  constructor
  · intro h k _ hm
    rw [← h, BitVec.getLsbD_and, Bool.and_eq_true] at hm
    exact hm.1
  intro h
  apply BitVec.eq_of_getLsbD_eq
  intro k hk
  rw [BitVec.getLsbD_and]
  cases hm : m.getLsbD k
  · rw [Bool.and_false]
  · rw [h k hk hm, Bool.and_true]

theorem and_mask_eq_zero (b m : Byte) : (b &&& m == 0) = true ↔ ∀ k < 8, m.getLsbD k = true → b.getLsbD k = false := by
  rw [beq_iff_eq]
  constructor
  · intro h k _ hm
    have hbit := congrArg (fun x => BitVec.getLsbD x k) h
    simpa [hm] using hbit
  intro h
  apply BitVec.eq_of_getLsbD_eq
  intro k hk
  rw [BitVec.getLsbD_and]
  cases hm : m.getLsbD k
  · simp
  · rw [h k hk hm]
    simp

theorem mask_bit {k : Nat} (hk : k < 8) (hm : (blkmask fragshift h).getLsbD k = true) :
    ∃ p < 2 ^ (fragshift : Nat), (a (blkbyte fragshift h)).getLsbD k = bit a (h * 2 ^ (fragshift : Nat) + p) := by
  rw [getLsbD_blkmask fragshift hk, decide_eq_true_iff] at hm
  have hp : k - h * 2 ^ (fragshift : Nat) % 8 < 2 ^ (fragshift : Nat) := by omega
  refine ⟨_, hp, ?_⟩
  obtain ⟨hdiv, hmod⟩ := @place_byte fragshift h _ hp
  rw [bit, hdiv, hmod, Nat.add_sub_cancel' hm.1]

theorem bit_mask {p : Nat} (hp : p < 2 ^ (fragshift : Nat)) :
    ∃ k < 8, (blkmask fragshift h).getLsbD k = true ∧ (a (blkbyte fragshift h)).getLsbD k = bit a (h * 2 ^ (fragshift : Nat) + p) := by
  obtain ⟨hdiv, hmod⟩ := @place_byte fragshift h _ hp
  refine ⟨(h * 2 ^ (fragshift : Nat) + p) % 8, mod_lt _ (by decide), ?_, by rw [bit, hdiv]⟩
  exact ((@mask_place fragshift h _).mpr ⟨by omega, by omega⟩).2

theorem isblock_iff : isblock fragshift a h = true ↔ Row.Full (2 ^ (fragshift : Nat)) (Row.row (2 ^ (fragshift : Nat)) (bit a) h) := by
  rw [isblock, and_mask_eq]
  constructor
  · intro hall p hp
    obtain ⟨k, hk, hm, hbit⟩ := @bit_mask fragshift a h p hp
    show bit a (h * 2 ^ (fragshift : Nat) + p) = true
    rw [← hbit]
    exact hall k hk hm
  · intro hfull k hk hm
    obtain ⟨p, hp, hbit⟩ := @mask_bit fragshift a h k hk hm
    rw [hbit]
    exact hfull p hp

theorem isfreeblock_iff : isfreeblock fragshift a h = true ↔ ∀ p < 2 ^ (fragshift : Nat), bit a (h * 2 ^ (fragshift : Nat) + p) = false := by
  rw [isfreeblock, and_mask_eq_zero]
  constructor
  · intro hall p hp
    obtain ⟨k, hk, hm, hbit⟩ := @bit_mask fragshift a h p hp
    exact hbit ▸ hall k hk hm
  intro hclear k hk hm
  obtain ⟨p, hp, hbit⟩ := @mask_bit fragshift a h k hk hm
  rw [hbit]
  exact hclear p hp

/-- The byte of a block, with the bits under its mask set to `v`. -/
theorem bit_block {v : Bool} {b : Byte} (hb : ∀ j, b.getLsbD (j % 8) =
    if (blkmask fragshift h).getLsbD (j % 8) then v else (a (blkbyte fragshift h)).getLsbD (j % 8)) :
    bit (Function.update a (blkbyte fragshift h) b) = Row.fill (bit a) (h * 2 ^ (fragshift : Nat)) (2 ^ (fragshift : Nat)) v := by
  funext i
  have hplace := @mask_place fragshift h i
  rw [bit_update]
  by_cases hin : h * 2 ^ (fragshift : Nat) ≤ i ∧ i < h * 2 ^ (fragshift : Nat) + 2 ^ (fragshift : Nat)
  · obtain ⟨hidx, hm⟩ := hplace.mpr hin
    rw [if_pos hidx, hb, if_pos hm, Row.fill_inside hin.1 hin.2]
  rw [Row.fill_outside (by omega)]
  by_cases hidx : i / 8 = blkbyte fragshift h
  · rw [if_pos hidx, hb, if_neg fun hm => hin (hplace.mp ⟨hidx, hm⟩), ← hidx]
    rfl
  · rw [if_neg hidx]

theorem bit_clrblock : bit (clrblock fragshift a h) = Row.fill (bit a) (h * 2 ^ (fragshift : Nat)) (2 ^ (fragshift : Nat)) false := by
  refine bit_block _ fun j => ?_
  rw [BitVec.getLsbD_and, BitVec.getLsbD_not, decide_eq_true (mod_lt j (by decide))]
  cases (blkmask fragshift h).getLsbD (j % 8) <;> simp

theorem bit_setblock : bit (setblock fragshift a h) = Row.fill (bit a) (h * 2 ^ (fragshift : Nat)) (2 ^ (fragshift : Nat)) true := by
  refine bit_block _ fun j => ?_
  rw [BitVec.getLsbD_or]
  cases (blkmask fragshift h).getLsbD (j % 8) <;> simp

theorem testBit_blkmap (p : Nat) : (blkmap (2 ^ (fragshift : Nat)) a (h * 2 ^ (fragshift : Nat))).testBit p =
    (decide (p < 2 ^ (fragshift : Nat)) && Row.row (2 ^ (fragshift : Nat)) (bit a) h p) := by
  have hmask : (0xff >>> (8 - 2 ^ (fragshift : Nat))).testBit p = decide (p < 2 ^ (fragshift : Nat)) := by
    match fragshift with
    | 3 => exact testBit_two_pow_sub_one 8 p
    | 2 => exact testBit_two_pow_sub_one 4 p
    | 1 => exact testBit_two_pow_sub_one 2 p
    | 0 => exact testBit_two_pow_sub_one 1 p
  rw [blkmap, testBit_and, hmask, testBit_shiftRight, Bool.and_comm]
  by_cases hp : p < 2 ^ (fragshift : Nat)
  · obtain ⟨hdiv, hmod⟩ := @place_byte fragshift h p hp
    have hbyte := @blkbyte_eq fragshift h
    rw [decide_eq_true hp, Bool.true_and, Bool.true_and, BitVec.testBit_toNat, Row.row, bit, hdiv, hmod, hbyte]
  · rw [decide_eq_false hp, Bool.false_and, Bool.false_and]

end Blocks

theorem testBit_around {k : Nat} (hk : k ≤ 8) (i : Nat) : (around.getD k 0).testBit i = decide (i < k + 2) := by
  have hval : ∀ k ≤ 8, around.getD k 0 = 2 ^ (k + 2) - 1 := by decide
  rw [hval k hk, testBit_two_pow_sub_one]

theorem testBit_inside {k : Nat} (hk : k ≤ 8) (i : Nat) : (inside.getD k 0).testBit i = decide (0 < i ∧ i < k + 1) := by
  have hval : ∀ k ≤ 8, inside.getD k 0 = (2 ^ k - 1) <<< 1 := by decide
  rw [hval k hk, testBit_shiftLeft, testBit_two_pow_sub_one, ← Bool.decide_and]
  exact decide_eq_decide.mpr (by omega)

theorem fits_iff {n map k t : Nat} {f : Nat → Bool} (hk : k ≤ 8) (hkn : t + k ≤ n)
    (hmap : ∀ p, map.testBit p = (decide (p < n) && f p)) : fits map k t = true ↔ Row.IsRun n f t k := by
  have hbits : fits map k t = true ↔ ∀ i, ((decide (1 ≤ i) && map.testBit (i - 1)) && (decide (t ≤ i) && decide (i - t < k + 2))) =
      (decide (t ≤ i) && decide (0 < i - t ∧ i - t < k + 1)) := by
    rw [fits, beq_iff_eq]
    constructor
    · intro heq i
      have hbit := congrArg (fun x => testBit x i) heq
      simpa only [testBit_and, testBit_shiftLeft, testBit_around hk, testBit_inside hk, ge_iff_le] using hbit
    intro hall
    apply eq_of_testBit_eq
    intro i
    simpa only [testBit_and, testBit_shiftLeft, testBit_around hk, testBit_inside hk, ge_iff_le] using hall i
  rw [hbits]
  constructor
  · intro hall
    refine ⟨hkn, fun p hp => ?_, ?_, ?_⟩
    · have hcell := hall (t + p + 1)
      simp [hmap, show t ≤ t + p + 1 by omega, show t + p + 1 - t < k + 2 by omega, show 0 < t + p + 1 - t by omega,
        show t + p + 1 - t < k + 1 by omega, show t + p < n by omega] at hcell
      exact hcell
    · by_cases ht : t = 0
      · exact .inl ht
      have hcell := hall t
      simp [hmap, show 1 ≤ t by omega, show t - 1 < n by omega] at hcell
      exact .inr hcell
    by_cases hend : t + k = n
    · exact .inl hend
    have hcell := hall (t + k + 1)
    simp [hmap, show t ≤ t + k + 1 by omega, show t + k + 1 - t < k + 2 by omega, show ¬t + k + 1 - t < k + 1 by omega,
      show t + k < n by omega] at hcell
    exact .inr hcell
  intro hrun i
  rw [hmap]
  by_cases hlow : i < t
  · simp [show ¬t ≤ i by omega]
  by_cases hhigh : k + 2 ≤ i - t
  · simp [show ¬i - t < k + 2 by omega, show ¬i - t < k + 1 by omega]
  by_cases hfirst : i = t
  · -- The cell before.
    subst hfirst
    by_cases hi : i = 0
    · simp [hi]
    · simp [hrun.before (by omega)]
  by_cases hlast : i = t + k + 1
  · subst hlast
    by_cases hend : t + k < n
    · simp [hrun.behind hend, show ¬t + k + 1 - t < k + 1 by omega]
    · simp [hend, show ¬t + k + 1 - t < k + 1 by omega]
  · have hset := hrun.set (p := i - 1) (by omega) (by omega)
    simp [hset, show 1 ≤ i by omega, show i - 1 < n by omega, show t ≤ i by omega, show i - t < k + 2 by omega,
      show 0 < i - t by omega, show i - t < k + 1 by omega]

theorem length_fragtbl (frag : Nat) : (fragtbl frag).length = 256 := by
  rw [fragtbl]
  split
  · set_option maxRecDepth 2000 in decide
  · set_option maxRecDepth 2000 in decide

/-- The table knows every length a block has: a check of its first `2 ^ frag` entries. -/
def tableKnows (frag : Nat) : Bool :=
  (List.range frag).all fun siz => (List.range frag).all fun pos => beq siz 0 || blt frag (pos + siz) ||
    ((fragtbl frag).take (2 ^ frag)).zipIdx.all fun entry =>
      !Nat.beq (land (shiftLeft entry.2 1) (shiftLeft (around.getD siz 0) pos)) (shiftLeft (inside.getD siz 0) pos) ||
      !Nat.beq (land (shiftLeft entry.1 1) (shiftLeft 1 (siz + (frag &&& (NBBY - 1))))) 0

theorem tableKnows_true (fragshift : Fin 4) : tableKnows (2 ^ (fragshift : Nat)) = true := by
  set_option maxRecDepth 4000 in
  match fragshift with
  | 3 => decide
  | 2 => decide
  | 1 => decide
  | 0 => decide

theorem table_knows (fragshift : Fin 4) {frag map siz pos : Nat} (hfrag : frag = 2 ^ (fragshift : Nat)) (hmap : map < 2 ^ frag)
    (hsiz : 0 < siz) (hlt : siz < frag) (hpos : pos + siz ≤ frag) (hfits : fits map siz pos = true) :
    (fragtbl frag).getD map 0 <<< 1 &&& 1 <<< (siz + (frag &&& (NBBY - 1))) ≠ 0 := by
  have hlength := length_fragtbl frag
  have hfrag8 : frag ≤ 8 := by
    rw [hfrag]
    exact Nat.pow_le_pow_right (by decide) (le_of_lt_succ fragshift.isLt)
  have hmap256 : map < 256 := hmap.trans_le (Nat.pow_le_pow_right (n := 2) (by decide) hfrag8)
  have hknows := tableKnows_true fragshift
  rw [← hfrag] at hknows
  simp only [tableKnows, all_eq_true, mem_range, Bool.or_eq_true, Bool.not_eq_true', beq_eq, blt_eq] at hknows
  have hentry : ((fragtbl frag).getD map 0, map) ∈ ((fragtbl frag).take (2 ^ frag)).zipIdx := by
    rw [mem_zipIdx_iff_getElem?, getElem?_take_of_lt hmap, getD_eq_getElem?_getD, getElem?_eq_getElem (by omega), Option.getD_some]
  rcases hknows siz hlt pos (by omega) with (h | h) | h
  · omega
  · omega
  rcases h _ hentry with hno | hno
  · rw [fits, beq_iff_eq] at hfits
    exact absurd hfits (ne_of_beq_eq_false hno)
  · exact ne_of_beq_eq_false hno

end NetBSD.Ufs.Ffs
