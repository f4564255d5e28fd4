import Mathlib.Data.BitVec
import Mathlib.Data.List.GetD

/-! The bitmap of the replay window.

The bytes of the window are one number, the first byte on top: bit 0 stands for the last
packet and bit `k` for the one `k` before it. `vshiftl` moves all bits up, by at most
eight at a time, and loses those that leave the first byte. -/
namespace NetBSD.Netipsec
open List

abbrev Byte := BitVec 8

def bit (bitmap : List Byte) (k : Nat) : Bool := (bitmap.getD (bitmap.length - 1 - k / 8) 0).getLsbD (k % 8)

/-- The inner loop of `vshiftl`, for the byte at `i`. -/
def shiftByte (s : Nat) (bitmap : List Byte) (i : Nat) : List Byte :=
  let over' := bitmap.getD i 0 >>> (8 - s)
  let bitmap := bitmap.set i (bitmap.getD i 0 <<< s)
  bitmap.set (i - 1) (bitmap.getD (i - 1) 0 ||| over')

/-- One round of `vshiftl`, by `s` bits. -/
def shiftRound (wsize s : Nat) (bitmap : List Byte) : List Byte :=
  (List.range' 1 (wsize - 1)).foldl (shiftByte s) (bitmap.set 0 (bitmap.getD 0 0 <<< s))

/-- Shift the buffer to the left by `nbit` bits. -/
def vshiftl (bitmap : List Byte) (nbit : Int) (wsize : Nat) : List Byte :=
  (List.range ((nbit.toNat + 7) / 8)).foldl (fun bitmap c =>
    let j := 8 * c
    let s := if nbit.toNat - j < 8 then nbit.toNat - j else 8
    shiftRound wsize s bitmap) bitmap

section Shift
variable {bitmap : List Byte} {s : Nat}

theorem getD_set (l : List Byte) (i j : Nat) (b : Byte) : (l.set i b).getD j 0 = if i = j ∧ j < l.length then b else l.getD j 0 := by
  by_cases hij : i = j
  · subst hij
    by_cases hi : i < l.length
    · simp [hi]
    · simp [hi]
  · simp [hij]

/-- The bytes while the inner loop is at `i`. -/
def Shifted (s : Nat) (old : List Byte) (i : Nat) (l : List Byte) : Prop :=
  l.length = old.length ∧ ∀ j, l.getD j 0 =
    if j + 1 < i then old.getD j 0 <<< s ||| old.getD (j + 1) 0 >>> (8 - s)
    else if j < i then old.getD j 0 <<< s else old.getD j 0

theorem shiftByte_shifted {l : List Byte} {i : Nat} (hi : 0 < i) (hlt : i < bitmap.length) (h : Shifted s bitmap i l) :
    Shifted s bitmap (i + 1) (shiftByte s l i) := by
  obtain ⟨hlen, hget⟩ := h
  refine ⟨by simp [shiftByte, hlen], fun j => ?_⟩
  have hown : l.getD i 0 = bitmap.getD i 0 := by
    rw [hget, if_neg (by omega), if_neg (by omega)]
  have hbefore : l.getD (i - 1) 0 = bitmap.getD (i - 1) 0 <<< s := by
    rw [hget, if_neg (by omega), if_pos (by omega)]
  simp only [shiftByte, getD_set, length_set, hlen, hown]
  by_cases hlast : i - 1 = j
  · -- The byte before gets what comes over.
    subst hlast
    rw [if_pos ⟨rfl, by omega⟩, if_neg (by omega), hbefore, if_pos (by omega), Nat.sub_add_cancel hi]
  rw [if_neg (fun h => hlast h.1)]
  by_cases hij : i = j
  · subst hij
    rw [if_pos ⟨rfl, hlt⟩, if_neg (by omega), if_pos (by omega)]
  rw [if_neg (fun h => hij h.1), hget]
  by_cases hj : j + 1 < i
  · rw [if_pos hj, if_pos (by omega)]
  · rw [if_neg hj, if_neg (by omega), if_neg (by omega), if_neg (by omega)]

theorem shiftRound_shifted (hpos : 0 < bitmap.length) : Shifted s bitmap bitmap.length (shiftRound bitmap.length s bitmap) := by
  have hloop : ∀ n i l, i + n = bitmap.length → 0 < i → Shifted s bitmap i l →
      Shifted s bitmap bitmap.length ((List.range' i n).foldl (shiftByte s) l) := by
    intro n
    induction n with
    | zero =>
      intro i l hn _ h
      rw [← hn]
      exact h
    | succ n ih =>
      intro i l hn hi h
      exact ih (i + 1) _ (by omega) (by omega) (shiftByte_shifted hi (by omega) h)
  refine hloop (bitmap.length - 1) 1 _ (by omega) (by omega) ⟨by simp, fun j => ?_⟩
  rw [getD_set]
  by_cases hj : j = 0
  · subst hj
    rw [if_pos ⟨rfl, hpos⟩, if_neg (by omega), if_pos (by omega)]
  · rw [if_neg (fun h => hj h.1.symm), if_neg (by omega), if_neg (by omega)]

theorem getD_shiftRound {j : Nat} (hj : j < bitmap.length) : (shiftRound bitmap.length s bitmap).getD j 0 =
    bitmap.getD j 0 <<< s ||| bitmap.getD (j + 1) 0 >>> (8 - s) := by
  obtain ⟨-, hget⟩ := @shiftRound_shifted bitmap s (by omega)
  rw [hget]
  by_cases hlast : j + 1 < bitmap.length
  · rw [if_pos hlast]
  have hout : bitmap.getD (j + 1) 0 = 0 := getD_eq_default _ _ (by omega)
  rw [if_pos hj, hout]
  simp

theorem bit_shiftRound (hs : s ≤ 8) {k : Nat} (hk : k < 8 * bitmap.length) :
    bit (shiftRound bitmap.length s bitmap) k = (decide (s ≤ k) && bit bitmap (k - s)) := by
  have hlen := (@shiftRound_shifted bitmap s (by omega)).1
  have hr : k % 8 < 8 := Nat.mod_lt _ (by decide)
  unfold bit
  rw [hlen, getD_shiftRound (by omega), BitVec.getLsbD_or, BitVec.getLsbD_shiftLeft, BitVec.getLsbD_ushiftRight]
  by_cases hsr : s ≤ k % 8
  · -- The bit comes from the same byte.
    have hdiv : (k - s) / 8 = k / 8 := by omega
    have hmod : (k - s) % 8 = k % 8 - s := by omega
    have hover : ∀ b : Byte, b.getLsbD (8 - s + k % 8) = false := fun b => BitVec.getLsbD_of_ge _ _ (by omega)
    rw [hdiv, hmod, hover, Bool.or_false, decide_eq_true (by omega : s ≤ k), decide_eq_true hr, decide_eq_false (by omega : ¬k % 8 < s)]
    rfl
  rw [decide_eq_true (by omega : k % 8 < s), Bool.not_true, Bool.and_false, Bool.false_and, Bool.false_or]
  by_cases hsk : s ≤ k
  · -- It comes over from the byte behind.
    have hbyte : bitmap.length - 1 - k / 8 + 1 = bitmap.length - 1 - (k - s) / 8 := by omega
    have hmod : 8 - s + k % 8 = (k - s) % 8 := by omega
    rw [hbyte, hmod, decide_eq_true hsk, Bool.true_and]
  · have hout : bitmap.getD (bitmap.length - 1 - k / 8 + 1) 0 = 0 := getD_eq_default _ _ (by omega)
    rw [hout, decide_eq_false hsk]
    simp

theorem length_shiftRound : (shiftRound bitmap.length s bitmap).length = bitmap.length := by
  by_cases hpos : 0 < bitmap.length
  · exact (shiftRound_shifted hpos).1
  have hnil : bitmap = [] := eq_nil_of_length_eq_zero (by omega)
  subst hnil
  rfl

theorem bit_vshiftl (nbit : Nat) : (vshiftl bitmap nbit bitmap.length).length = bitmap.length ∧
    ∀ k < 8 * bitmap.length, bit (vshiftl bitmap nbit bitmap.length) k = (decide (nbit ≤ k) && bit bitmap (k - nbit)) := by
  -- After `c` rounds all is up by `8 * c`, and never by more than `nbit`.
  have hrounds : ∀ c, c ≤ (nbit + 7) / 8 → ∀ l, l = (List.range c).foldl (fun bitmap' c =>
      shiftRound bitmap.length (if nbit - 8 * c < 8 then nbit - 8 * c else 8) bitmap') bitmap →
      l.length = bitmap.length ∧ ∀ k < 8 * bitmap.length, bit l k = (decide (min (8 * c) nbit ≤ k) && bit bitmap (k - min (8 * c) nbit)) := by
    intro c
    induction c with
    | zero =>
      intro _ l hl
      subst hl
      exact ⟨rfl, fun k _ => by simp⟩
    | succ c ih =>
      intro hc l hl
      obtain ⟨hlen, hbit⟩ := ih (by omega) _ rfl
      rw [range_succ, foldl_append, foldl_cons, foldl_nil] at hl
      generalize (List.range c).foldl _ bitmap = l₀ at hl hlen hbit
      rw [← hlen] at hl
      subst hl
      refine ⟨length_shiftRound.trans hlen, fun k hk => ?_⟩
      have hs : (if nbit - 8 * c < 8 then nbit - 8 * c else 8) ≤ 8 := by
        split <;> omega
      have hsum : min (8 * (c + 1)) nbit = min (8 * c) nbit + (if nbit - 8 * c < 8 then nbit - 8 * c else 8) := by
        split <;> omega
      rw [bit_shiftRound hs (by omega), hbit _ (by omega), hsum]
      generalize (if nbit - 8 * c < 8 then nbit - 8 * c else 8) = s
      by_cases hle : min (8 * c) nbit + s ≤ k
      · rw [decide_eq_true hle, decide_eq_true (by omega : s ≤ k), decide_eq_true (by omega : min (8 * c) nbit ≤ k - s),
          Nat.sub_sub, add_comm s]
        rfl
      rw [decide_eq_false hle, Bool.false_and]
      by_cases hsk : s ≤ k
      · rw [decide_eq_false (by omega : ¬min (8 * c) nbit ≤ k - s), Bool.false_and, Bool.and_false]
      · rw [decide_eq_false hsk, Bool.false_and]
  obtain ⟨hlen, hbit⟩ := hrounds _ (le_refl _) _ rfl
  refine ⟨hlen, fun k hk => ?_⟩
  have hmin : min (8 * ((nbit + 7) / 8)) nbit = nbit := by omega
  have hall := hbit k hk
  rw [hmin] at hall
  exact hall

theorem bit_set {fr : Nat} {b : Byte} (hfr : fr < bitmap.length) {k : Nat} (hk : k < 8 * bitmap.length) :
    bit (bitmap.set fr b) k = if k / 8 = bitmap.length - 1 - fr then b.getLsbD (k % 8) else bit bitmap k := by
  unfold bit
  rw [length_set, getD_set]
  by_cases hsame : k / 8 = bitmap.length - 1 - fr
  · rw [if_pos hsame, if_pos (by omega)]
  · rw [if_neg hsame, if_neg (by omega)]

theorem bit_mark {d : Nat} (hd : d < 8 * bitmap.length) {k : Nat} (hk : k < 8 * bitmap.length) :
    bit (bitmap.set (bitmap.length - 1 - d / 8) (bitmap.getD (bitmap.length - 1 - d / 8) 0 ||| (1 : Byte) <<< (d % 8))) k =
      (decide (k = d) || bit bitmap k) := by
  have hr : k % 8 < 8 := Nat.mod_lt _ (by decide)
  rw [bit_set (by omega) hk]
  by_cases hbyte : k / 8 = d / 8
  · rw [if_pos (by omega), BitVec.getLsbD_or, bit, hbyte, Bool.or_comm]
    rw [BitVec.getLsbD_shiftLeft]
    by_cases hkd : k = d
    · subst hkd
      simp [hr]
    rw [decide_eq_false hkd]
    by_cases hlt : k % 8 < d % 8
    · simp [hlt]
    have hone : ∀ n, n ≠ 0 → (1 : Byte).getLsbD n = false := by
      intro n hn
      simp [hn]
    rw [hone _ (by omega), Bool.and_false]
  · rw [if_neg (by omega), decide_eq_false (fun h => hbyte (by rw [h])), Bool.false_or]

end Shift

end NetBSD.Netipsec
