import NetBSD.Kern.SubrVmem.Arena

/-! The room that is found in a free segment is as it was asked for.

A segment is tried at one place (`moved`): the first number on the alignment, or the one behind the
next boundary. That is the least admissible place, unless it wraps (`Astray`), where the place is
in front of the segment. -/
namespace NetBSD.Kern.SubrVmem
open Nat
open Lib

namespace Request
variable {q : Request} {bt : Bt} {a x : Nat}

/-- The first number, or the one behind the next boundary. -/
def moved (q : Request) (x : Nat) : Nat := if q.Crosses x then alignedFrom x q.nocross q.phase else x

theorem crosses_iff (hsize : 0 < q.size) : q.Crosses a ↔ q.nocross ≠ 0 ∧ q.nocross < a % q.nocross + q.size := by
  apply and_congr_right
  intro hne
  have hpos := Nat.pos_of_ne_zero hne
  have hsum : a + q.size - 1 = a % q.nocross + q.size - 1 + q.nocross * (a / q.nocross) := by
    have hdiv := mod_add_div a q.nocross
    omega
  rw [hsum, add_mul_div_left _ _ hpos, ne_eq, Nat.right_eq_add, div_eq_zero_iff_lt hpos]
  omega

theorem crosses_congr (hsize : 0 < q.size) (h : a % q.nocross = x % q.nocross) : q.Crosses a ↔ q.Crosses x := by
  rw [crosses_iff hsize, crosses_iff hsize, h]

theorem le_moved : x ≤ q.moved x := by
  unfold moved
  split
  · next hcross => exact le_alignedFrom (Nat.pos_of_ne_zero hcross.1)
  · exact le_refl x

namespace Legal
variable (h : q.Legal)
include h

theorem align_pos : 0 < q.align := zero_lt_of_lt h.phase

theorem align_le : q.align ≤ 2 ^ 63 := by
  obtain ⟨k, hk, hkeq⟩ := h.align
  exact hkeq ▸ Nat.pow_le_pow_right (by decide) (le_of_lt_succ hk)

theorem dvd_words : 2 ^ 64 % q.align = 0 := by
  obtain ⟨k, hk, hkeq⟩ := h.align
  exact hkeq ▸ two_pow_mod hk

theorem of_crosses (hx : x % q.align = q.phase) (hcross : q.Crosses x) :
    q.align ∣ q.nocross ∧ q.phase < q.nocross ∧ q.nocross ≤ 2 ^ 63 ∧ 2 ^ 64 % q.nocross = 0 ∧ q.phase + q.size ≤ q.nocross := by
  obtain ⟨k, hk, hkeq⟩ := h.align
  obtain ⟨⟨j, hj, hjeq⟩, hsize⟩ := h.nocross hcross.1
  rcases le_total j k with hle | hle
  · have hdvd : q.nocross ∣ q.align := by
      rw [hkeq, hjeq]
      exact Nat.pow_dvd_pow 2 hle
    have hphase : x % q.nocross = q.phase % q.nocross := by rw [← hx, mod_mod_of_dvd _ hdvd]
    exact absurd ((crosses_congr h.size_pos hphase).mp hcross) h.phase_fits
  have hdvd : q.align ∣ q.nocross := by
    rw [hkeq, hjeq]
    exact Nat.pow_dvd_pow 2 hle
  have hlt : q.phase < q.nocross := Nat.lt_of_lt_of_le h.phase (le_of_dvd (Nat.pos_of_ne_zero hcross.1) hdvd)
  have hfits := mt (crosses_iff h.size_pos).mpr h.phase_fits
  rw [mod_eq_of_lt hlt, not_and] at hfits
  refine ⟨hdvd, hlt, ?_, ?_, Nat.le_of_not_lt (hfits hcross.1)⟩
  · exact hjeq ▸ Nat.pow_le_pow_right (by decide) (le_of_lt_succ hj)
  · exact hjeq ▸ two_pow_mod hj

theorem not_crosses (hphase : q.phase < q.nocross) (ha : a % q.nocross = q.phase) : ¬ q.Crosses a := by
  rw [crosses_congr h.size_pos (ha.trans (mod_eq_of_lt hphase).symm)]
  exact h.phase_fits

section
variable (hx : x % q.align = q.phase)
include hx

theorem moved_phase : q.moved x % q.align = q.phase ∧ ¬ q.Crosses (q.moved x) := by
  unfold moved
  split
  · next hcross =>
    obtain ⟨hdvd, hlt, -⟩ := h.of_crosses hx hcross
    have hmod := alignedFrom_mod hlt (s := x)
    refine ⟨?_, h.not_crosses hlt hmod⟩
    rw [← mod_mod_of_dvd _ hdvd, hmod, mod_eq_of_lt h.phase]
  · next hcross => exact ⟨hx, hcross⟩

theorem moved_le (hle : x ≤ a) (ha : a % q.align = q.phase) (hfits : ¬ q.Crosses a) : q.moved x ≤ a := by
  unfold moved
  split
  · next hcross =>
    obtain ⟨hdvd, hlt, -⟩ := h.of_crosses hx hcross
    have hpos := Nat.pos_of_ne_zero hcross.1
    have hover := ((crosses_iff h.size_pos).mp hcross).2
    have hunder : a % q.nocross + q.size ≤ q.nocross :=
      Nat.le_of_not_lt fun hgt => hfits ((crosses_iff h.size_pos).mpr ⟨hcross.1, hgt⟩)
    have hphase : q.phase ≤ a % q.nocross := by
      rw [← ha, ← mod_mod_of_dvd a hdvd]
      exact Nat.mod_le _ _
    have hblock := div_add_mod a q.nocross
    -- the number on the phase in the block of `a`
    apply le_trans (alignedFrom_le hlt (x := q.nocross * (a / q.nocross) + q.phase) _ _) (by omega)
    · by_contra hgt
      have hsame : x / q.nocross = a / q.nocross := by
        apply le_antisymm (Nat.div_le_div_right hle)
        rw [Nat.le_div_iff_mul_le hpos, mul_comm]
        omega
      have hdiv := div_add_mod x q.nocross
      rw [hsame] at hdiv
      omega
    · rw [mul_add_mod, mod_eq_of_lt hlt]
  · exact hle

theorem moved_lt (hend : x + q.size ≤ 2 ^ 64) : q.moved x < 2 ^ 64 := by
  have hsize := h.size_pos
  unfold moved
  split
  · next hcross =>
    obtain ⟨hdvd, hlt, hle, hwords, -⟩ := h.of_crosses hx hcross
    have hover := ((crosses_iff hsize).mp hcross).2
    have hlast : (2 ^ 64 - q.nocross) % q.nocross = 0 :=
      sub_mod_eq_zero_of_mod_eq (hwords.trans (mod_self _).symm)
    apply lt_of_le_of_lt (alignedFrom_le hlt (x := 2 ^ 64 - q.nocross + q.phase) _ _) (by omega)
    · by_contra hgt
      have hmod : x % q.nocross = x - (2 ^ 64 - q.nocross) := by
        rw [← mod_eq_of_lt (show x - (2 ^ 64 - q.nocross) < q.nocross by omega)]
        have hsplit : x = 2 ^ 64 - q.nocross + (x - (2 ^ 64 - q.nocross)) := by omega
        conv_lhs => rw [hsplit]
        rw [add_mod, hlast, zero_add, mod_mod]
      omega
    · rw [add_mod, hlast, zero_add, mod_mod, mod_eq_of_lt hlt]
  · omega

theorem moved_wraps (hlt : x < 2 ^ 64) (hne : q.nocross ≠ 0) (hend : 2 ^ 64 < x + q.size) : q.Crosses x ∧ q.moved x = 2 ^ 64 + q.phase := by
  have hcross : q.Crosses x := by
    obtain ⟨⟨j, hj, hjeq⟩, -⟩ := h.nocross hne
    have hpow : 2 ^ (64 - j) * 2 ^ j = 2 ^ 64 := by rw [← Nat.pow_add, Nat.sub_add_cancel (le_of_lt hj)]
    refine ⟨hne, Nat.ne_of_lt ?_⟩
    have hbelow : x / q.nocross < 2 ^ (64 - j) := by
      rw [Nat.div_lt_iff_lt_mul (Nat.pos_of_ne_zero hne), hjeq, hpow]
      exact hlt
    apply lt_of_lt_of_le hbelow
    rw [Nat.le_div_iff_mul_le (Nat.pos_of_ne_zero hne), hjeq, hpow]
    exact le_pred_of_lt hend
  obtain ⟨-, hphase, -, hwords, hfits⟩ := h.of_crosses hx hcross
  refine ⟨hcross, ?_⟩
  rw [moved, if_pos hcross]
  symm
  apply eq_alignedFrom (by omega) (by omega)
  rw [add_mod, hwords, zero_add, mod_mod, mod_eq_of_lt hphase]

end

theorem crossP_iff (hx : x < 2 ^ 64) (hphase : x % q.align = q.phase) : vmemCrossP x (word (x + q.size - 1)) q.nocross = true ↔ q.Crosses x := by
  by_cases hne : q.nocross = 0
  · rw [hne, vmemCrossP_zero]
    exact iff_of_false (by decide) fun hcross => hcross.1 hne
  obtain ⟨⟨j, hj, hjeq⟩, hsize⟩ := h.nocross hne
  by_cases hend : x + q.size ≤ 2 ^ 64
  · have hword : word (x + q.size - 1) = x + q.size - 1 := word_of_lt (by omega)
    rw [hword, hjeq, vmemCrossP_iff hx (hword ▸ word_lt _) hj, Crosses, hjeq]
    exact (and_iff_right (ne_of_gt (Nat.two_pow_pos j))).symm
  obtain ⟨hcross, -⟩ := h.moved_wraps hphase hx hne (Nat.lt_of_not_le hend)
  refine iff_of_true ?_ hcross
  have hle := (h.of_crosses hphase hcross).2.2.1
  have hword : word (x + q.size - 1) = x + q.size - 1 - 2 ^ 64 := by
    rw [word, mod_eq_sub_mod (by omega)]
    exact mod_eq_of_lt (by omega)
  have hzero : word (x + q.size - 1) / 2 ^ j = 0 := by
    exact div_eq_of_lt (by omega)
  have hone : 0 < x / 2 ^ j := by
    rw [← hjeq]
    exact Nat.div_pos (by omega) (Nat.pos_of_ne_zero hne)
  rw [hjeq, vmemCrossP_iff hx (word_lt _) hj, hzero]
  exact ne_of_gt hone

/-! ### What is found -/

section Found
variable (hend : bt.btStart + bt.btSize ≤ 2 ^ 64) (hpos : 0 < bt.btSize)

theorem first_phase : q.first bt % q.align = q.phase := alignedFrom_mod h.phase

theorem low_le_first : q.low bt ≤ q.first bt := le_alignedFrom h.align_pos

theorem first_lt : q.first bt < q.low bt + q.align := alignedFrom_lt h.phase

/-- When the first number wraps, it comes to the phase, and is in front of the segment with what may
be added to it. -/
theorem first_wraps (hwraps : 2 ^ 64 ≤ q.first bt) (hlow : q.low bt < 2 ^ 64) : word (q.first bt) = q.phase ∧ q.wrapped bt < q.low bt := by
  have hlt : q.first bt < q.low bt + q.align := h.first_lt
  have hle := h.align_le
  have hmod : (q.first bt - 2 ^ 64) % q.align = q.phase := by
    have hsum : (2 ^ 64 + (q.first bt - 2 ^ 64)) % q.align = q.phase := by
      rw [add_sub_of_le hwraps]
      exact h.first_phase
    rwa [add_mod, h.dvd_words, zero_add, mod_mod] at hsum
  have hfirst : q.first bt - 2 ^ 64 = q.phase := by rwa [mod_eq_of_lt (by omega)] at hmod
  constructor
  · rw [word, mod_eq_sub_mod hwraps, hfirst]
    exact mod_eq_of_lt (by omega)
  have hphase := h.phase
  unfold wrapped
  split
  · omega
  split
  · next hcross =>
    have hmod : (q.phase + q.align) % q.align = q.phase := by rw [add_mod_right, mod_eq_of_lt hphase]
    obtain ⟨-, -, hnocross, -⟩ := h.of_crosses hmod hcross
    omega
  · omega

/-- A first number whose end is past the last word is behind the last boundary, by an alignment or
more. -/
theorem first_behind (hfirst : q.first bt < 2 ^ 64) (hne : q.nocross ≠ 0) (hover : 2 ^ 64 < q.first bt + q.size) :
    2 ^ 64 - q.nocross + q.phase + q.align ≤ q.first bt := by
  have hphase : q.first bt % q.align = q.phase := h.first_phase
  obtain ⟨hcross, -⟩ := h.moved_wraps hphase hfirst hne hover
  obtain ⟨hdvd, -, hle, hwords, hsize⟩ := h.of_crosses hphase hcross
  apply add_le_of_mod_eq (by omega)
  have hmod : (2 ^ 64 - q.nocross) % q.align = 0 :=
    mod_eq_zero_of_dvd ((dvd_sub_iff_left (by omega) hdvd).mpr (dvd_of_mod_eq_zero h.dvd_words))
  rw [add_mod, hmod, zero_add, mod_mod, mod_eq_of_lt h.phase, hphase]

include hend hpos

omit h in
theorem high_eq : q.high bt = (if bt.btEnd > q.maxaddr then q.maxaddr else bt.btEnd) + 1 := by
  have hbtEnd : bt.btEnd = bt.btStart + bt.btSize - 1 := word_of_lt (by omega)
  rw [high, hbtEnd]
  split <;> omega

theorem fit_eq {c : Nat} (hlt : q.low bt < q.high bt) (hc : c < 2 ^ 64) (hphase : c % q.align = q.phase)
    (hstart : (if word (q.first bt) < bt.btStart then word (word (q.first bt) + q.align) else word (q.first bt)) = c) :
    vmemFit bt q = if word (q.moved c) + q.size ≤ q.high bt then some (word (q.moved c)) else none := by
  have hhigh := high_eq hend hpos (q := q)
  have hsize := h.size_pos
  obtain ⟨k, hk, hkeq⟩ := h.align
  have hlow : (if bt.btStart < q.minaddr then q.minaddr else bt.btStart) = q.low bt := by
    rw [low]
    split <;> omega
  have hlow64 : q.low bt < 2 ^ 64 := by
    have hmax := h.max_lt
    have hmin := h.min_le_max
    rw [low]
    omega
  have hfirst : word (vmemAlignup (sub (q.low bt) q.phase) q.align + q.phase) = word (q.first bt) := by
    rw [first, hkeq]
    exact alignup_phase hlow64 hk (hkeq ▸ h.phase)
  have hmoved : (if vmemCrossP c (word (c + q.size - 1)) q.nocross then
      word (vmemAlignup (sub c q.phase) q.nocross + q.phase) else c) = word (q.moved c) := by
    rw [moved]
    by_cases hcross : q.Crosses c
    · rw [if_pos ((h.crossP_iff hc hphase).mpr hcross), if_pos hcross]
      obtain ⟨⟨j, hj, hjeq⟩, -⟩ := h.nocross hcross.1
      rw [hjeq]
      exact alignup_phase hc hj (hjeq ▸ (h.of_crosses hphase hcross).2.1)
    · rw [if_neg (mt (h.crossP_iff hc hphase).mp hcross), if_neg hcross, word_of_lt hc]
  unfold vmemFit
  simp only [hlow, hfirst, hstart, hmoved]
  rw [if_neg (by omega)]
  apply if_congr _ rfl rfl
  omega

theorem fit_first (hlt : q.low bt < q.high bt) (hfirst : q.first bt < 2 ^ 64) :
    vmemFit bt q = if word (q.moved (q.first bt)) + q.size ≤ q.high bt then some (word (q.moved (q.first bt))) else none := by
  apply h.fit_eq hend hpos hlt hfirst h.first_phase
  rw [word_of_lt hfirst, if_neg]
  exact Nat.not_lt.mpr (le_trans (le_max_left _ _) h.low_le_first)

theorem fit_wrapped (hlt : q.low bt < q.high bt) (hfirst : 2 ^ 64 ≤ q.first bt) :
    vmemFit bt q = if q.wrapped bt + q.size ≤ q.high bt then some (q.wrapped bt) else none := by
  have hlow : q.low bt < 2 ^ 64 := by
    have hhigh : q.high bt ≤ 2 ^ 64 := le_trans (min_le_left _ _) hend
    omega
  obtain ⟨hword, -⟩ := h.first_wraps hfirst hlow
  have hphase := h.phase
  have hle := h.align_le
  by_cases hbehind : bt.btStart ≤ q.phase
  · have hfit := h.fit_eq hend hpos (c := q.phase) hlt (by omega) (mod_eq_of_lt hphase)
      (by rw [hword, if_neg (Nat.not_lt.mpr hbehind)])
    rw [hfit, wrapped, if_pos hbehind, moved, if_neg h.phase_fits, word_of_lt (by omega)]
  have hmod : (q.phase + q.align) % q.align = q.phase := by rw [add_mod_right, mod_eq_of_lt hphase]
  have hfit := h.fit_eq hend hpos (c := q.phase + q.align) hlt (by omega) hmod
    (by rw [hword, if_pos (Nat.lt_of_not_le hbehind), word_of_lt (by omega)])
  have hmoved : word (q.moved (q.phase + q.align)) = q.wrapped bt := by
    rw [wrapped, moved]
    split
    · next hcross =>
      obtain ⟨hdvd, hlt', hle', -⟩ := h.of_crosses hmod hcross
      have hwide := le_of_dvd (Nat.pos_of_ne_zero hcross.1) hdvd
      rw [← eq_alignedFrom (x := q.phase + q.nocross) (by omega) (by omega) (by rw [add_mod_right, mod_eq_of_lt hlt'])]
      exact word_of_lt (by omega)
    · exact word_of_lt (by omega)
  rw [hfit, hmoved]

omit h in
theorem fit_none (hlt : ¬ q.low bt < q.high bt) : vmemFit bt q = none := by
  have hhigh := high_eq hend hpos (q := q)
  unfold vmemFit
  apply if_pos
  rw [low] at hlt
  split <;> omega

/-- What is found is the least admissible place, unless the numbers wrap. -/
theorem fit_spec (hfirst : q.first bt < 2 ^ 64) (hends : q.nocross ≠ 0 → q.first bt + q.size ≤ 2 ^ 64) :
    (∀ a, vmemFit bt q = some a → q.Admissible bt a) ∧ (vmemFit bt q = none → ∀ a, ¬ q.Admissible bt a) := by
  by_cases hlt : q.low bt < q.high bt
  · have hphase : q.first bt % q.align = q.phase := h.first_phase
    have hword : word (q.moved (q.first bt)) = q.moved (q.first bt) := by
      apply word_of_lt
      by_cases hne : q.nocross = 0
      · rw [moved, if_neg fun hcross => hcross.1 hne]
        exact hfirst
      · exact h.moved_lt hphase (hends hne)
    have hfit := h.fit_first hend hpos hlt hfirst
    rw [hword] at hfit
    by_cases hfits : q.moved (q.first bt) + q.size ≤ q.high bt
    · rw [hfit, if_pos hfits]
      refine ⟨fun a ha => ?_, fun hnone => (nomatch hnone)⟩
      obtain rfl := Option.some.inj ha
      have hlow := le_trans h.low_le_first (le_moved (q := q) (x := q.first bt))
      obtain ⟨halign, huncrossed⟩ := h.moved_phase hphase
      exact ⟨le_trans (le_max_left _ _) hlow, le_trans hfits (min_le_left _ _),
        le_trans (le_max_right _ _) hlow, le_trans hfits (min_le_right _ _), halign, huncrossed⟩
    · rw [hfit, if_neg hfits]
      refine ⟨fun a ha => (nomatch ha), fun _ a ha => hfits ?_⟩
      have hleast := h.moved_le hphase (alignedFrom_le h.phase (Nat.max_le.mpr ⟨ha.start_le, ha.min_le⟩) ha.phase) ha.phase ha.uncrossed
      exact le_trans (Nat.add_le_add_right hleast _) (Nat.le_min.mpr ⟨ha.le_end, ha.le_max⟩)
  · rw [fit_none hend hpos hlt]
    refine ⟨fun a ha => (nomatch ha), fun _ a ha => hlt ?_⟩
    have hlow : q.low bt ≤ a := Nat.max_le.mpr ⟨ha.start_le, ha.min_le⟩
    have hhigh : a + q.size ≤ q.high bt := Nat.le_min.mpr ⟨ha.le_end, ha.le_max⟩
    have hsize := h.size_pos
    omega

theorem astray_spec (hastray : q.Astray bt) : ∃ a, vmemFit bt q = some a ∧ a < q.low bt := by
  obtain ⟨hlt, ⟨hwraps, hfits⟩ | ⟨hfirst, hne, hover⟩⟩ := hastray
  · have hlow : q.low bt < 2 ^ 64 := lt_of_lt_of_le hlt (le_trans (min_le_left _ _) hend)
    refine ⟨q.wrapped bt, ?_, (h.first_wraps hwraps hlow).2⟩
    rw [h.fit_wrapped hend hpos hlt hwraps, if_pos hfits]
  have hphase : q.first bt % q.align = q.phase := h.first_phase
  obtain ⟨hcross, hmoved⟩ := h.moved_wraps hphase hfirst hne hover
  obtain ⟨hdvd, -, hle, hwords, hsize⟩ := h.of_crosses hphase hcross
  have hword : word (q.moved (q.first bt)) = q.phase := by
    rw [hmoved, word, add_mod_left]
    exact mod_eq_of_lt (by omega)
  have hbehind := h.first_behind hfirst hne hover
  have hnear : q.first bt < q.low bt + q.align := h.first_lt
  refine ⟨q.phase, ?_, by omega⟩
  rw [h.fit_first hend hpos hlt hfirst, hword, if_pos (by omega)]

end Found

end Legal

end Request

/-- What is found is admissible exactly where no number on the way wraps. -/
theorem fit_admissible {bt : Bt} {q : Request} (hend : bt.btStart + bt.btSize ≤ 2 ^ 64) (h : q.Legal) (hsize : q.size ≤ bt.btSize) :
    (∀ a, vmemFit bt q = some a → q.Admissible bt a) ↔ ¬ q.Astray bt := by
  have hpos := lt_of_lt_of_le h.size_pos hsize
  constructor
  · intro hall hastray
    obtain ⟨a, hfit, hlow⟩ := h.astray_spec hend hpos hastray
    have ha := hall a hfit
    exact Nat.not_le.mpr hlow (Nat.max_le.mpr ⟨ha.start_le, ha.min_le⟩)
  intro hok a hfit
  by_cases hlt : q.low bt < q.high bt
  · by_cases hfirst : q.first bt < 2 ^ 64
    · apply (h.fit_spec hend hpos hfirst _).1 a hfit
      intro hne
      by_contra hover
      exact hok ⟨hlt, .inr ⟨hfirst, hne, Nat.lt_of_not_le hover⟩⟩
    have hwraps := Nat.le_of_not_lt hfirst
    rw [h.fit_wrapped hend hpos hlt hwraps] at hfit
    split at hfit
    · next hfits => exact absurd ⟨hlt, .inl ⟨hwraps, hfits⟩⟩ hok
    · cases hfit
  · rw [Request.Legal.fit_none hend hpos hlt] at hfit
    cases hfit

theorem legal_plain (k size : Nat) (hk : k < 64) (hsize : 0 < size) : (Request.mk size (2 ^ k) 0 0 0 (2 ^ 64 - 1)).Legal :=
  ⟨hsize, ⟨k, hk, rfl⟩, Nat.two_pow_pos k, fun h => absurd rfl h, fun h => h.1 rfl, zero_le _, sub_lt (Nat.two_pow_pos 64) one_pos⟩

/-- In a free segment of the last 256 words, room for 16 on a multiple of 4096 is found at 4096. -/
theorem fit_admissible_last : ∃ (bt : Bt) (q : Request), bt.btStart + bt.btSize ≤ 2 ^ 64 ∧ q.Legal ∧ q.size ≤ bt.btSize ∧
    vmemFit bt q = some 4096 ∧ ¬ q.Admissible bt 4096 :=
  ⟨⟨.free, 2 ^ 64 - 256, 256⟩, ⟨16, 2 ^ 12, 0, 0, 0, 2 ^ 64 - 1⟩, by decide, legal_plain 12 16 (by decide) (by decide), by decide, by decide,
    fun h => absurd h.start_le (by decide)⟩

/-- In a free segment at the end of the first page there is room at 4096. -/
theorem fit_admissible_first : (Request.mk 16 (2 ^ 12) 0 0 0 (2 ^ 64 - 1)).Admissible ⟨.free, 3840, 512⟩ 4096 :=
  (fit_admissible (by decide) (legal_plain 12 16 (by decide) (by decide)) (by decide)).mpr (by decide) 4096 (by decide)

end NetBSD.Kern.SubrVmem
