import Mathlib.Data.BitVec
import Mathlib.Data.List.Range
import Mathlib.Data.Finset.Card
import Mathlib.Order.Interval.Finset.Nat
import Mathlib.Data.Nat.Bitwise

/-! Bitmaps of 32-bit words.

`ffs` is the C function: the place of the lowest set bit, counted from 1, or 0. `mapBit` is
bit `n` of a map; the lemmas say what the usual operations on the words do to it. -/
namespace NetBSD.Lib
open Nat Function

abbrev Word := BitVec 32

def ffs (w : Word) : Nat := ((List.range 32).find? fun i => w.getLsbD i).elim 0 (· + 1)

theorem ffs_of_ne_zero {w : Word} (h : w ≠ 0) : ∃ k < 32, ffs w = k + 1 ∧ w.getLsbD k = true ∧ ∀ j < k, w.getLsbD j = false := by
  cases hf : (List.range 32).find? fun i => w.getLsbD i with
  | none =>
    have hall := List.find?_eq_none.mp hf
    refine absurd (BitVec.eq_of_getLsbD_eq fun i hi => ?_) h
    simpa using hall i (List.mem_range.mpr hi)
  | some k =>
    obtain ⟨hk, i, hi, hki, hbefore⟩ := List.find?_eq_some_iff_getElem.mp hf
    rw [List.getElem_range] at hki
    subst hki
    refine ⟨i, hi, by rw [ffs, hf]; rfl, hk, fun j hj => ?_⟩
    simpa using hbefore j hj

@[simp]
theorem ffs_zero : ffs 0 = 0 := by decide

theorem getLsbD_below {s i : Nat} (hs : s < 32) : ((1#32 <<< s) - 1).getLsbD i = decide (i < s) := by
  have hpow : 2 ^ s < 2 ^ 32 := Nat.pow_lt_pow_right (by decide) hs
  have hval : (1#32 <<< s) - 1 = BitVec.ofNat 32 (2 ^ s - 1) := by
    apply BitVec.eq_of_toNat_eq
    have hone := Nat.one_le_two_pow (n := s)
    have hshift : (1#32 <<< s).toNat = 2 ^ s := by
      rw [BitVec.toNat_shiftLeft, shiftLeft_eq, BitVec.toNat_ofNat, mod_eq_of_lt (by decide : 1 < 2 ^ 32), one_mul, mod_eq_of_lt hpow]
    rw [BitVec.toNat_sub_of_le (by rw [BitVec.le_def, hshift]; exact hone), hshift, BitVec.toNat_ofNat,
      mod_eq_of_lt (show 2 ^ s - 1 < 2 ^ 32 by omega)]
    rfl
  rw [hval, BitVec.getLsbD_ofNat]
  by_cases hi : i < s
  · simp [hi, show i < 32 by omega]
  · simp [hi]

theorem getLsbD_one_shiftLeft {s i : Nat} (hs : s < 32) : (1#32 <<< s).getLsbD i = decide (i = s) := by
  by_cases his : i = s
  · subst his
    simp [hs]
  by_cases hlt : i < s
  · simp [hlt, his]
  · have hpos : i - s ≠ 0 := by omega
    simp [his, hpos]

theorem getLsbD_neg_one {j : Nat} (hj : j < 32) : (-1 : Word).getLsbD j = true := by
  rw [show (-1 : Word) = BitVec.allOnes 32 from by decide, BitVec.getLsbD_allOnes]
  exact decide_eq_true hj

def mapBit (map : Nat → Word) (n : Nat) : Bool := (map (n / 32)).getLsbD (n % 32)

section MapBit
variable {map : Nat → Word} {n : Nat}

theorem mapBit_word (idx : Nat) {k : Nat} (hk : k < 32) : mapBit map (idx * 32 + k) = (map idx).getLsbD k := by
  have hdiv : (idx * 32 + k) / 32 = idx := by omega
  have hmod : (idx * 32 + k) % 32 = k := by omega
  rw [mapBit, hdiv, hmod]

theorem mapBit_update {idx : Nat} {w : Word} : mapBit (update map idx w) n =
    if n / 32 = idx then w.getLsbD (n % 32) else mapBit map n := by
  by_cases h : n / 32 = idx
  · rw [if_pos h, mapBit, h, Function.update_self]
  · rw [if_neg h, mapBit, Function.update_of_ne h]
    rfl

theorem mapBit_or (c : Nat) : mapBit (update map (c / 32) (map (c / 32) ||| 1#32 <<< (c % 32))) n = (mapBit map n || decide (n = c)) := by
  rw [mapBit_update, BitVec.getLsbD_or, getLsbD_one_shiftLeft (mod_lt c (by decide))]
  by_cases h : n / 32 = c / 32
  · have hiff : n % 32 = c % 32 ↔ n = c := by omega
    rw [if_pos h, ← h, decide_eq_decide.mpr hiff]
    rfl
  · rw [if_neg h, decide_eq_false (fun hnc => h (congrArg (· / 32) hnc)), Bool.or_false]

theorem mapBit_andNot (c : Nat) : mapBit (update map (c / 32) (map (c / 32) &&& ~~~(1#32 <<< (c % 32)))) n =
    (mapBit map n && !decide (n = c)) := by
  rw [mapBit_update, BitVec.getLsbD_and, BitVec.getLsbD_not, getLsbD_one_shiftLeft (mod_lt c (by decide))]
  by_cases h : n / 32 = c / 32
  · have hiff : n % 32 = c % 32 ↔ n = c := by omega
    rw [if_pos h, ← h, decide_eq_decide.mpr hiff, decide_eq_true (mod_lt n (by decide))]
    rfl
  · rw [if_neg h, decide_eq_false (fun hnc => h (congrArg (· / 32) hnc)), Bool.not_false, Bool.and_true]

theorem ffs_above {start : Nat} (hs : start < 32) {w : Word} (h : w &&& ~~~((1#32 <<< start) - 1) ≠ 0) :
    ∃ k, start ≤ k ∧ k < 32 ∧ ffs (w &&& ~~~((1#32 <<< start) - 1)) = k + 1 ∧ w.getLsbD k = true ∧
      ∀ j, start ≤ j → j < k → w.getLsbD j = false := by
  obtain ⟨k, hk, hffs, hbit, hbelow⟩ := ffs_of_ne_zero h
  have hand (j : Nat) (hj : j < 32) :
      (w &&& ~~~((1#32 <<< start) - 1)).getLsbD j = (w.getLsbD j && decide (start ≤ j)) := by
    rw [BitVec.getLsbD_and, BitVec.getLsbD_not, getLsbD_below hs, decide_eq_true hj]
    by_cases hjs : j < start
    · simp [hjs]
    · simp [hjs, Nat.not_lt.mp hjs]
  rw [hand k hk, Bool.and_eq_true, decide_eq_true_eq] at hbit
  refine ⟨k, hbit.2, hk, hffs, hbit.1, fun j hj hjk => ?_⟩
  have hz := hbelow j hjk
  rw [hand j (by omega), decide_eq_true hj, Bool.and_true] at hz
  exact hz

theorem clear_above {start : Nat} (hs : start < 32) {w : Word} (h : w &&& ~~~((1#32 <<< start) - 1) = 0) {j : Nat}
    (hj : start ≤ j) (hj32 : j < 32) : w.getLsbD j = false := by
  have hbit := congrArg (fun w => w.getLsbD j) h
  rw [BitVec.getLsbD_and, BitVec.getLsbD_not, getLsbD_below hs, decide_eq_true hj32, decide_eq_false (Nat.not_lt.mpr hj),
    Bool.not_false, Bool.and_true, Bool.and_true] at hbit
  rw [hbit]
  exact BitVec.getLsbD_zero

theorem ffs_clear {start : Nat} (hs : start < 32) {w : Word} (h : w ||| ((1#32 <<< start) - 1) ≠ -1) :
    ∃ k, start ≤ k ∧ k < 32 ∧ ffs ((w ||| ((1#32 <<< start) - 1)) ^^^ -1) = k + 1 ∧ w.getLsbD k = false ∧
      ∀ j, start ≤ j → j < k → w.getLsbD j = true := by
  have hne : (w ||| ((1#32 <<< start) - 1)) ^^^ -1 ≠ 0 := by
    intro h0
    apply h
    exact BitVec.xor_eq_zero_iff.mp h0
  obtain ⟨k, hk, hffs, hbit, hbelow⟩ := ffs_of_ne_zero hne
  have hxor (j : Nat) (hj : j < 32) :
      ((w ||| ((1#32 <<< start) - 1)) ^^^ -1).getLsbD j = (!w.getLsbD j && decide (start ≤ j)) := by
    rw [BitVec.getLsbD_xor, BitVec.getLsbD_or, getLsbD_below hs, getLsbD_neg_one hj]
    by_cases hjs : j < start
    · simp [hjs]
    · simp [hjs, Nat.not_lt.mp hjs]
  rw [hxor k hk, Bool.and_eq_true, decide_eq_true_eq, Bool.not_eq_true'] at hbit
  refine ⟨k, hbit.2, hk, hffs, hbit.1, fun j hj hjk => ?_⟩
  have hz := hbelow j hjk
  rw [hxor j (by omega), decide_eq_true hj, Bool.and_true, Bool.not_eq_false'] at hz
  exact hz

theorem set_above {start : Nat} (hs : start < 32) {w : Word} (h : w ||| ((1#32 <<< start) - 1) = -1) {j : Nat}
    (hj : start ≤ j) (hj32 : j < 32) : w.getLsbD j = true := by
  have hbit := congrArg (fun w => w.getLsbD j) h
  rw [BitVec.getLsbD_or, getLsbD_below hs, getLsbD_neg_one hj32, decide_eq_false (Nat.not_lt.mpr hj), Bool.or_false] at hbit
  exact hbit

theorem word_full_iff (k : Nat) : map k = -1 ↔ ∀ q, k * 32 ≤ q → q < (k + 1) * 32 → mapBit map q = true := by
  constructor
  · intro h q hq hq'
    rw [mapBit, show q / 32 = k by omega, h]
    exact getLsbD_neg_one (by omega)
  intro h
  apply BitVec.eq_of_getLsbD_eq
  intro j hj
  rw [getLsbD_neg_one hj, ← mapBit_word k hj]
  exact h _ (by omega) (by omega)

/-- What a search for a clear bit from `a` to `b` has to find. -/
def FirstClear (map : Nat → Word) (a b : Nat) : Option Nat → Prop
  | none => ∀ q, a ≤ q → q < b → mapBit map q = true
  | some p => a ≤ p ∧ p < b ∧ mapBit map p = false ∧ ∀ q, a ≤ q → q < p → mapBit map q = true

theorem FirstClear.skip {a a' b : Nat} {r : Option Nat} (ha : a ≤ a') (hset : ∀ q, a ≤ q → q < a' → mapBit map q = true)
    (h : FirstClear map a' b r) : FirstClear map a b r := by
  have hjoin {c : Nat} (hc : ∀ q, a' ≤ q → q < c → mapBit map q = true) (q : Nat) (hq : a ≤ q) (hqc : q < c) :
      mapBit map q = true := by
    by_cases hqa : q < a'
    · exact hset q hq hqa
    · exact hc q (by omega) hqc
  cases r with
  | none => exact hjoin h
  | some p => exact ⟨by have := h.1; omega, h.2.1, h.2.2.1, hjoin h.2.2.2⟩

theorem FirstClear.word (map : Nat → Word) (k start b : Nat) (hs : start < 32) (hb : (k + 1) * 32 ≤ b)
    (h : map k ||| ((1#32 <<< start) - 1) ≠ -1) :
    FirstClear map (k * 32 + start) b (some (k * 32 + ffs (~~~ (map k ||| ((1#32 <<< start) - 1))) - 1)) := by
  have hnot (w : Word) : ~~~ w = w ^^^ -1 := (BitVec.xor_allOnes).symm
  obtain ⟨j, hle, hj, hffs, hclear, hset⟩ := ffs_clear hs h
  rw [hnot, hffs, ← add_assoc, Nat.add_sub_cancel]
  refine ⟨by omega, by omega, ?_, ?_⟩
  · rw [mapBit_word k hj]
    exact hclear
  intro q hq hqj
  rw [show q = k * 32 + (q - k * 32) by omega, mapBit_word k (by omega)]
  exact hset _ (by omega) (by omega)

end MapBit

theorem and_compl {n m w : Nat} (hn : n < 2 ^ w) (hm : m < 2 ^ w) : (n &&& (2 ^ w - (m + 1))) + (n &&& m) = n := by
  have hdisj : (BitVec.ofNat w n &&& ~~~BitVec.ofNat w m) &&& (BitVec.ofNat w n &&& BitVec.ofNat w m) = 0#w := by
    ext i hi
    simp only [BitVec.getElem_and, BitVec.getElem_not, BitVec.getElem_zero]
    cases (BitVec.ofNat w m)[i] <;> simp
  have hor : (BitVec.ofNat w n &&& ~~~BitVec.ofNat w m) ||| (BitVec.ofNat w n &&& BitVec.ofNat w m) = BitVec.ofNat w n := by
    ext i hi
    simp only [BitVec.getElem_and, BitVec.getElem_not, BitVec.getElem_or]
    cases (BitVec.ofNat w m)[i] <;> simp
  have hsum := BitVec.toNat_add_of_and_eq_zero hdisj
  rw [BitVec.add_eq_or_of_and_eq_zero _ _ hdisj, hor] at hsum
  simp only [BitVec.toNat_and, BitVec.toNat_not, BitVec.toNat_ofNat, mod_eq_of_lt hn, mod_eq_of_lt hm] at hsum
  rw [show 2 ^ w - (m + 1) = 2 ^ w - 1 - m by omega]
  exact hsum.symm

/-! Numbers on an alignment.

`alignedFrom s a p` is the least number from `s` on that is `p` modulo `a`, for `p < a`. A word has
`w` bits; the masks are those of alignments that are powers of two. -/

def alignedFrom (s a p : Nat) : Nat := p + (s - p + (a - 1)) / a * a

section AlignedFrom
variable {s a p x : Nat}

theorem alignedFrom_mod (hp : p < a) : alignedFrom s a p % a = p := by
  rw [alignedFrom, add_mul_mod_self_right, mod_eq_of_lt hp]

theorem le_alignedFrom (ha : 0 < a) : s ≤ alignedFrom s a p := by
  have hdiv := lt_div_mul_add ha (a := s - p + (a - 1))
  unfold alignedFrom
  omega

theorem alignedFrom_lt (hp : p < a) : alignedFrom s a p < s + a := by
  have hdiv := div_mul_le_self (s - p + (a - 1)) a
  unfold alignedFrom
  rcases le_total p s with hle | hle
  · omega
  · rw [Nat.sub_eq_zero_of_le hle, zero_add, div_eq_of_lt (sub_lt (zero_lt_of_lt hp) one_pos)]
    omega

theorem add_le_of_mod_eq {y : Nat} (hlt : x < y) (hmod : x % a = y % a) : x + a ≤ y := by
  have hdvd : a ∣ y - x := (modEq_iff_dvd' (le_of_lt hlt)).mp hmod
  have hle := le_of_dvd (Nat.sub_pos_of_lt hlt) hdvd
  omega

theorem alignedFrom_le (hp : p < a) (hx : s ≤ x) (hmod : x % a = p) : alignedFrom s a p ≤ x := by
  by_contra hlt
  have hapart := add_le_of_mod_eq (Nat.lt_of_not_le hlt) (hmod.trans (alignedFrom_mod hp).symm)
  have hnear := alignedFrom_lt hp (s := s)
  omega

theorem eq_alignedFrom (hx : s ≤ x) (hlt : x < s + a) (hmod : x % a = p) : x = alignedFrom s a p := by
  have hp : p < a := hmod ▸ mod_lt x (by omega)
  apply le_antisymm _ (alignedFrom_le hp hx hmod)
  by_contra hgt
  have hapart := add_le_of_mod_eq (Nat.lt_of_not_le hgt) ((alignedFrom_mod hp).trans hmod.symm)
  have hbehind := le_alignedFrom (zero_lt_of_lt hp) (s := s) (p := p)
  omega

theorem alignedFrom_self (h : x % a = p) (ha : 0 < a) : alignedFrom x a p = x :=
  (eq_alignedFrom (le_refl x) (Nat.lt_add_of_pos_right ha) h).symm

end AlignedFrom

section Masks
variable {w k x y : Nat}

theorem and_neg_two_pow (hx : x < 2 ^ w) (hk : k ≤ w) : x &&& (2 ^ w - 2 ^ k) = x - x % 2 ^ k := by
  have hpow := Nat.pow_le_pow_right (show 0 < 2 by decide) hk
  have hpos := Nat.two_pow_pos k
  have hsplit := and_compl hx (show 2 ^ k - 1 < 2 ^ w by omega)
  rw [Nat.sub_add_cancel hpos, and_two_pow_sub_one_eq_mod] at hsplit
  omega

theorem xor_and_neg_two_pow (hx : x < 2 ^ w) (hy : y < 2 ^ w) (hk : k ≤ w) : (x ^^^ y) &&& (2 ^ w - 2 ^ k) = 0 ↔ x / 2 ^ k = y / 2 ^ k := by
  rw [and_neg_two_pow (xor_lt_two_pow hx hy) hk, Nat.sub_eq_zero_iff_le,
    ← shiftRight_eq_div_pow, ← shiftRight_eq_div_pow, ← Nat.xor_eq_zero_iff (x := x >>> k),
    ← shiftRight_xor_distrib, shiftRight_eq_div_pow, div_eq_zero_iff_lt (Nat.two_pow_pos k)]
  constructor
  · intro hle
    exact lt_of_le_of_lt hle (mod_lt _ (Nat.two_pow_pos k))
  · intro hlt
    exact le_of_eq (mod_eq_of_lt hlt).symm

end Masks

end NetBSD.Lib
