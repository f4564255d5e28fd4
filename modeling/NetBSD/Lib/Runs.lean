import Mathlib.Algebra.BigOperators.Group.Finset.Basic
import Mathlib.Algebra.Order.BigOperators.Group.Finset
import Mathlib.Order.Interval.Finset.Nat

/-! Runs of set cells.

A row is the first `n` cells of a function to `Bool`. `IsRun n f s k` says that exactly the
`k` cells from `s` on are set there, with a clear cell or the end of the row on both sides;
`runs n f k` counts them. A map is cut into rows of `b` cells, and `tally g` adds up what `g`
says of each row: a change inside one row changes one term. -/
namespace NetBSD.Lib.Row

variable {n : Nat} {f : Nat → Bool} {a j k m s t : Nat}

/-- All cells of the row are set. -/
def Full (n : Nat) (f : Nat → Bool) : Prop := ∀ p < n, f p = true

instance (n : Nat) (f : Nat → Bool) : Decidable (Full n f) := inferInstanceAs (Decidable (∀ p < n, f p = true))

def count (n : Nat) (f : Nat → Bool) : Nat := ((Finset.range n).filter fun p => f p = true).card

def IsRun (n : Nat) (f : Nat → Bool) (s k : Nat) : Prop :=
  s + k ≤ n ∧ (∀ p < k, f (s + p) = true) ∧ (s = 0 ∨ f (s - 1) = false) ∧ (s + k = n ∨ f (s + k) = false)

instance (n : Nat) (f : Nat → Bool) (s k : Nat) : Decidable (IsRun n f s k) :=
  inferInstanceAs (Decidable (s + k ≤ n ∧ (∀ p < k, f (s + p) = true) ∧ (s = 0 ∨ f (s - 1) = false) ∧ (s + k = n ∨ f (s + k) = false)))

/-- The number of runs of exactly `k` cells. -/
def runs (n : Nat) (f : Nat → Bool) (k : Nat) : Nat := ((Finset.range n).filter fun s => IsRun n f s k).card

/-- The `j` cells from `a` on are made `v`. -/
def fill (f : Nat → Bool) (a j : Nat) (v : Bool) : Nat → Bool := fun p => if a ≤ p ∧ p < a + j then v else f p

theorem fill_inside {v : Bool} {p : Nat} (ha : a ≤ p) (hp : p < a + j) : fill f a j v p = v := if_pos ⟨ha, hp⟩

theorem fill_outside {v : Bool} {p : Nat} (h : p < a ∨ a + j ≤ p) : fill f a j v p = f p := if_neg (by omega)

theorem IsRun.le (h : IsRun n f s k) : s + k ≤ n := h.1

theorem IsRun.set (h : IsRun n f s k) {p : Nat} (hs : s ≤ p) (hp : p < s + k) : f p = true := by
  have hcell := h.2.1 (p - s) (by omega)
  rwa [Nat.add_sub_cancel' hs] at hcell

theorem IsRun.before (h : IsRun n f s k) (hs : 0 < s) : f (s - 1) = false := h.2.2.1.resolve_left (by omega)

theorem IsRun.behind (h : IsRun n f s k) (hk : s + k < n) : f (s + k) = false := h.2.2.2.resolve_left (by omega)

theorem IsRun.apart (h : IsRun n f s k) (h' : IsRun n f t m) (hne : s ≠ t) : s + k < t ∨ t + m < s := by
  rcases Nat.lt_or_gt_of_ne hne with hlt | hlt
  · by_contra hin
    have hset := h.set (p := t - 1) (by omega) (by omega)
    rw [h'.before (by omega)] at hset
    exact absurd hset (by decide)
  by_contra hin
  have hset := h'.set (p := s - 1) (by omega) (by omega)
  rw [h.before (by omega)] at hset
  exact absurd hset (by decide)

theorem IsRun.length_unique (h : IsRun n f s k) (h' : IsRun n f s m) : k = m := by
  have hk := h.le
  have hm := h'.le
  rcases lt_trichotomy k m with hlt | heq | hlt
  · have hset := h'.set (p := s + k) (by omega) (by omega)
    rw [h.behind (by omega)] at hset
    exact absurd hset (by decide)
  · exact heq
  · have hset := h.set (p := s + m) (by omega) (by omega)
    rw [h'.behind (by omega)] at hset
    exact absurd hset (by decide)

section Congr
variable {f' : Nat → Bool} (h : ∀ p < n, f p = f' p)
include h

theorem full_congr : Full n f ↔ Full n f' :=
  forall₂_congr fun p hp => by rw [h p hp]

theorem count_congr : count n f = count n f' := by
  unfold count
  congr 1
  apply Finset.filter_congr
  intro p hp
  rw [h p (Finset.mem_range.mp hp)]

theorem isRun_congr (hs : s < n) : IsRun n f s k ↔ IsRun n f' s k := by
  unfold IsRun
  by_cases hle : s + k ≤ n
  · have hcells : (∀ p < k, f (s + p) = true) ↔ ∀ p < k, f' (s + p) = true :=
      forall₂_congr fun p hp => by rw [h (s + p) (by omega)]
    have hbehind : (s + k = n ∨ f (s + k) = false) ↔ (s + k = n ∨ f' (s + k) = false) := by
      by_cases hend : s + k = n
      · simp [hend]
      · rw [h (s + k) (by omega)]
    rw [hcells, hbehind, h (s - 1) (by omega)]
  · simp [hle]

theorem runs_congr : runs n f k = runs n f' k := by
  unfold runs
  congr 1
  apply Finset.filter_congr
  intro s hs
  exact isRun_congr h (Finset.mem_range.mp hs)

end Congr

/-! ### Cells set and cleared -/

theorem count_fill_true (hj : a + j ≤ n) (hclear : ∀ p, a ≤ p → p < a + j → f p = false) : count n (fill f a j true) = count n f + j := by
  have hset : ((Finset.range n).filter fun p => fill f a j true p = true) =
      ((Finset.range n).filter fun p => f p = true) ∪ Finset.Ico a (a + j) := by
    ext p
    simp only [Finset.mem_filter, Finset.mem_union, Finset.mem_range, Finset.mem_Ico]
    by_cases hp : a ≤ p ∧ p < a + j
    · rw [fill_inside hp.1 hp.2]
      exact ⟨fun _ => .inr hp, fun _ => ⟨by omega, rfl⟩⟩
    · rw [fill_outside (by omega)]
      exact ⟨.inl, fun h => h.resolve_right hp⟩
  have hdisj : Disjoint ((Finset.range n).filter fun p => f p = true) (Finset.Ico a (a + j)) := by
    rw [Finset.disjoint_left]
    intro p hp hin
    rw [Finset.mem_Ico] at hin
    rw [Finset.mem_filter, hclear p hin.1 hin.2] at hp
    exact absurd hp.2 (by decide)
  rw [count, hset, Finset.card_union_of_disjoint hdisj, Nat.card_Ico, Nat.add_sub_cancel_left]
  rfl

theorem fill_fill_same {v w : Bool} : fill (fill f a j v) a j w = fill f a j w := by
  funext p
  by_cases hp : a ≤ p ∧ p < a + j
  · rw [fill_inside hp.1 hp.2, fill_inside hp.1 hp.2]
  · rw [fill_outside (by omega), fill_outside (by omega), fill_outside (by omega)]

theorem fill_self {v : Bool} (h : ∀ p, a ≤ p → p < a + j → f p = v) : fill f a j v = f := by
  funext p
  by_cases hp : a ≤ p ∧ p < a + j
  · rw [fill_inside hp.1 hp.2, h p hp.1 hp.2]
  · rw [fill_outside (by omega)]

theorem count_fill_false (hj : a + j ≤ n) (hset : ∀ p, a ≤ p → p < a + j → f p = true) : count n (fill f a j false) + j = count n f := by
  have hback : fill (fill f a j false) a j true = f := by rw [fill_fill_same, fill_self hset]
  rw [← count_fill_true hj (fun p ha hp => fill_inside ha hp), hback]

theorem count_full (h : Full n f) : count n f = n := by
  rw [count, Finset.filter_true_of_mem (fun p hp => h p (Finset.mem_range.mp hp)), Finset.card_range]

theorem full_of_count (h : count n f = n) : Full n f := by
  intro p hp
  have hall : ((Finset.range n).filter fun p => f p = true) = Finset.range n := by
    apply Finset.eq_of_subset_of_card_le (Finset.filter_subset _ _)
    rw [Finset.card_range]
    exact h.ge
  have hmem : p ∈ (Finset.range n).filter fun p => f p = true := by
    rw [hall]
    exact Finset.mem_range.mpr hp
  exact (Finset.mem_filter.mp hmem).2

theorem clear_of_count (h : count n f = 0) : ∀ p < n, f p = false := by
  intro p hp
  rw [count, Finset.card_eq_zero, Finset.filter_eq_empty_iff] at h
  simpa using h (Finset.mem_range.mpr hp)

theorem count_le : count n f ≤ n := by
  have hle := Finset.card_filter_le (Finset.range n) fun p => f p = true
  rwa [Finset.card_range] at hle

theorem runs_le : runs n f k ≤ n := by
  have hle := Finset.card_filter_le (Finset.range n) fun s => IsRun n f s k
  rwa [Finset.card_range] at hle

theorem count_empty (h : ∀ p < n, f p = false) : count n f = 0 := by
  rw [count, Finset.card_eq_zero, Finset.filter_eq_empty_iff]
  intro p hp
  rw [h p (Finset.mem_range.mp hp)]
  decide

/-- The set cells among the `k` from `a` on. -/
def countIn (f : Nat → Bool) (a : Nat) : Nat → Nat
  | 0 => 0
  | k + 1 => countIn f a k + if f (a + k) then 1 else 0

theorem countIn_congr {g : Nat → Bool} {b : Nat} (h : ∀ p < k, f (a + p) = g (b + p)) : countIn f a k = countIn g b k := by
  induction k with
  | zero => rfl
  | succ k ih => rw [countIn, countIn, ih fun p hp => h p (by omega), h k (by omega)]

theorem countIn_add : countIn f a (j + k) = countIn f a j + countIn f (a + j) k := by
  induction k with
  | zero => rfl
  | succ k ih => rw [← add_assoc, countIn, countIn, ih, add_assoc a, add_assoc]

theorem count_fill_clear (h : a + k ≤ n) : count n (fill f a k false) + countIn f a k = count n f := by
  induction k with
  | zero =>
    exact count_congr fun p _ => fill_outside (by omega)
  | succ k ih =>
    have hstep : fill f a (k + 1) false = fill (fill f a k false) (a + k) 1 false := by
      funext p
      unfold fill
      by_cases h₁ : a + k ≤ p ∧ p < a + k + 1
      · rw [if_pos (by omega), if_pos h₁]
      rw [if_neg h₁]
      congr 1
      apply propext
      omega
    have hcell : fill f a k false (a + k) = f (a + k) := fill_outside (by omega)
    rw [hstep, countIn, ← ih (by omega)]
    by_cases hset : f (a + k) = true
    · have hone := count_fill_false (n := n) (f := fill f a k false) (a := a + k) (j := 1) (by omega) fun p hlo hhi => by
        rw [show p = a + k by omega, hcell, hset]
      rw [if_pos hset]
      omega
    have hself : fill (fill f a k false) (a + k) 1 false = fill f a k false := fill_self fun p hlo hhi => by
      rw [show p = a + k by omega, hcell]
      simpa using hset
    rw [if_neg hset, hself, add_zero]

theorem runs_full (h : Full n f) (hk : k < n) : runs n f k = 0 := by
  rw [runs, Finset.card_eq_zero, Finset.filter_eq_empty_iff]
  intro s hs hrun
  have hn := Finset.mem_range.mp hs
  have hstart : s = 0 := by
    by_contra hpos
    have hclear := hrun.before (by omega)
    rw [h (s - 1) (by omega)] at hclear
    exact absurd hclear (by decide)
  have hclear := hrun.behind (by omega)
  rw [h (s + k) (by omega)] at hclear
  exact absurd hclear (by decide)

theorem runs_empty (h : ∀ p < n, f p = false) (hk : 0 < k) : runs n f k = 0 := by
  rw [runs, Finset.card_eq_zero, Finset.filter_eq_empty_iff]
  intro s hs hrun
  have hset := hrun.set (p := s) (by omega) (by omega)
  rw [h s (Finset.mem_range.mp hs)] at hset
  exact absurd hset (by decide)

section Clear
variable (h : IsRun n f s k) (hj : 0 < j) (hjk : j ≤ k)
include h hj hjk

theorem IsRun.rest : IsRun n (fill f s j false) (s + j) (k - j) := by
  have hle := h.le
  refine ⟨by omega, fun p hp => ?_, .inr (fill_inside (by omega) (by omega)), ?_⟩
  · rw [fill_outside (by omega)]
    exact h.set (by omega) (by omega)
  by_cases hend : s + k = n
  · exact .inl (by omega)
  right
  rw [show s + j + (k - j) = s + k by omega, fill_outside (by omega)]
  exact h.behind (by omega)

theorem IsRun.other (h' : IsRun n f t m) (hne : t ≠ s) : IsRun n (fill f s j false) t m := by
  have hapart := h.apart h' hne.symm
  obtain ⟨hle, hcells, hbefore, hbehind⟩ := h'
  refine ⟨hle, fun p hp => ?_, ?_, ?_⟩
  · rw [fill_outside (by omega)]
    exact hcells p hp
  · refine hbefore.imp_right fun hclear => ?_
    by_cases ht : t = 0
    · subst ht
      by_cases hin : s ≤ 0 - 1 ∧ 0 - 1 < s + j
      · exact fill_inside hin.1 hin.2
      · rw [fill_outside (by omega)]
        exact hclear
    · rw [fill_outside (by omega)]
      exact hclear
  · refine hbehind.imp_right fun hclear => ?_
    rw [fill_outside (by omega)]
    exact hclear

theorem IsRun.of_clear (hm : 0 < m) (h' : IsRun n (fill f s j false) t m) (hne : t ≠ s + j) : t ≠ s ∧ IsRun n f t m := by
  have hle := h.le
  have hle' := h'.le
  -- The cells of the run are not among the cleared ones.
  have hout : ∀ p, t ≤ p → p < t + m → p < s ∨ s + j ≤ p := by
    intro p hp hpm
    by_contra hin
    have hset := h'.set hp hpm
    rw [fill_inside (by omega) (by omega)] at hset
    exact absurd hset (by decide)
  have hfirst := hout t (by omega) (by omega)
  -- Nor are they among those left of the old run, where only `s + j` can be the first.
  have hnot : t < s ∨ s + k ≤ t := by
    by_contra hin
    have hclear := h'.before (by omega)
    rw [fill_outside (by omega), h.set (by omega) (by omega)] at hclear
    exact absurd hclear (by decide)
  have hset : f t = true := by
    have hcell := h'.set (p := t) (by omega) (by omega)
    rwa [fill_outside (by omega)] at hcell
  have hbefore : t < s ∨ s + k < t := by
    rcases hnot with hlt | hge
    · exact .inl hlt
    right
    by_contra hin
    have hclear := h.behind (by omega)
    rw [show s + k = t by omega, hset] at hclear
    exact absurd hclear (by decide)
  have hend : t + m < s ∨ s + k < t := by
    rcases hbefore with hlt | hlt
    · by_contra hin
      by_cases heq : t + m = s
      · -- The run would reach up to the old one.
        have hclear := h.before (by omega)
        have hlast := h'.set (p := s - 1) (by omega) (by omega)
        rw [fill_outside (by omega), hclear] at hlast
        exact absurd hlast (by decide)
      · have := hout s (by omega) (by omega)
        omega
    · exact .inr hlt
  refine ⟨by omega, hle', fun p hp => ?_, ?_, ?_⟩
  · have hcell := h'.set (p := t + p) (by omega) (by omega)
    rwa [fill_outside (by omega)] at hcell
  · by_cases ht : t = 0
    · exact .inl ht
    right
    have hclear := h'.before (by omega)
    rwa [fill_outside (by omega)] at hclear
  by_cases hn : t + m = n
  · exact .inl hn
  right
  have hclear := h'.behind (by omega)
  rwa [fill_outside (by omega)] at hclear

theorem isRun_clear (hm : 0 < m) : IsRun n (fill f s j false) t m ↔ (t ≠ s ∧ IsRun n f t m) ∨ (t = s + j ∧ m = k - j) := by
  constructor
  · intro h'
    by_cases ht : t = s + j
    · subst ht
      exact .inr ⟨rfl, h'.length_unique (h.rest hj hjk)⟩
    · exact .inl (h.of_clear hj hjk hm h' ht)
  · intro h'
    rcases h' with ⟨hne, h'⟩ | ⟨rfl, rfl⟩
    · exact h.other hj hjk h' hne
    · exact h.rest hj hjk

/-- Clearing the first cells of a run leaves a shorter run in its place, if any. -/
theorem runs_clear (hm : 0 < m) : runs n (fill f s j false) m + (if m = k then 1 else 0) = runs n f m + if m = k - j then 1 else 0 := by
  have hle := h.le
  have hrest : ((Finset.range n).filter fun t => t ≠ s ∧ IsRun n f t m) =
      ((Finset.range n).filter fun t => IsRun n f t m).erase s := by
    ext t
    simp only [Finset.mem_filter, Finset.mem_erase]
    tauto
  have hold : (((Finset.range n).filter fun t => IsRun n f t m).erase s).card + (if m = k then 1 else 0) = runs n f m := by
    by_cases hmk : m = k
    · have hmem : s ∈ (Finset.range n).filter fun t => IsRun n f t m :=
        Finset.mem_filter.mpr ⟨Finset.mem_range.mpr (by omega), hmk ▸ h⟩
      rw [if_pos hmk]
      exact Finset.card_erase_add_one hmem
    have hnot : s ∉ (Finset.range n).filter fun t => IsRun n f t m := by
      intro hmem
      exact hmk ((Finset.mem_filter.mp hmem).2.length_unique h)
    rw [if_neg hmk, Finset.erase_eq_of_notMem hnot]
    rfl
  by_cases hmj : m = k - j
  · have hnew : ((Finset.range n).filter fun t => IsRun n (fill f s j false) t m) =
        insert (s + j) ((Finset.range n).filter fun t => t ≠ s ∧ IsRun n f t m) := by
      ext t
      simp only [Finset.mem_filter, Finset.mem_insert, Finset.mem_range, isRun_clear h hj hjk hm]
      constructor
      · tauto
      intro ht
      rcases ht with rfl | ht
      · exact ⟨by omega, .inr ⟨rfl, hmj⟩⟩
      · exact ⟨ht.1, .inl ht.2⟩
    have hnot : s + j ∉ (Finset.range n).filter fun t => t ≠ s ∧ IsRun n f t m := by
      intro hmem
      have hrun := (Finset.mem_filter.mp hmem).2.2
      have hapart := h.apart hrun (by omega)
      omega
    rw [if_pos hmj, runs, hnew, Finset.card_insert_of_notMem hnot, hrest]
    omega
  · have hsame : ((Finset.range n).filter fun t => IsRun n (fill f s j false) t m) =
        (Finset.range n).filter fun t => t ≠ s ∧ IsRun n f t m := by
      ext t
      simp only [Finset.mem_filter, isRun_clear h hj hjk hm]
      tauto
    rw [if_neg hmj, runs, hsame, hrest, hold, add_zero]

end Clear

/-- The runs of `k` cells that begin at `t` or behind. -/
def runsFrom (n : Nat) (f : Nat → Bool) (k t : Nat) : Nat := ((Finset.range n).filter fun s => t ≤ s ∧ IsRun n f s k).card

theorem runsFrom_zero : runsFrom n f k 0 = runs n f k := by
  unfold runsFrom runs
  congr 1
  apply Finset.filter_congr
  intro s _
  exact and_iff_right (Nat.zero_le s)

theorem runsFrom_hit (h : IsRun n f t k) (hk : 0 < k) : runsFrom n f k t = runsFrom n f k (t + k + 1) + 1 := by
  have hle := h.le
  have hset : ((Finset.range n).filter fun s => t ≤ s ∧ IsRun n f s k) =
      insert t ((Finset.range n).filter fun s => t + k + 1 ≤ s ∧ IsRun n f s k) := by
    ext s
    simp only [Finset.mem_filter, Finset.mem_insert, Finset.mem_range]
    constructor
    · intro ⟨hs, hts, hrun⟩
      by_cases hst : s = t
      · exact .inl hst
      · have hapart := h.apart hrun (Ne.symm hst)
        exact .inr ⟨hs, by omega, hrun⟩
    · intro hs
      rcases hs with rfl | ⟨hs, hts, hrun⟩
      · exact ⟨by omega, le_refl _, h⟩
      · exact ⟨hs, by omega, hrun⟩
  have hnot : t ∉ (Finset.range n).filter fun s => t + k + 1 ≤ s ∧ IsRun n f s k := by
    intro hmem
    have := (Finset.mem_filter.mp hmem).2.1
    omega
  rw [runsFrom, hset, Finset.card_insert_of_notMem hnot]
  rfl

theorem runsFrom_miss (h : ¬IsRun n f t k) : runsFrom n f k t = runsFrom n f k (t + 1) := by
  unfold runsFrom
  congr 1
  apply Finset.filter_congr
  intro s _
  constructor
  · intro ⟨hts, hrun⟩
    have hne : s ≠ t := fun heq => h (heq ▸ hrun)
    exact ⟨by omega, hrun⟩
  · intro ⟨hts, hrun⟩
    exact ⟨by omega, hrun⟩

theorem runsFrom_end (h : n < t + k) : runsFrom n f k t = 0 := by
  rw [runsFrom, Finset.card_eq_zero, Finset.filter_eq_empty_iff]
  intro s _ ⟨hts, hrun⟩
  have := hrun.le
  omega

/-- Row `h` of a map cut into rows of `b` cells. -/
def row (b : Nat) (f : Nat → Bool) (h : Nat) : Nat → Bool := fun p => f (h * b + p)

/-- What `g` says of the rows, added up. -/
def tally (g : (Nat → Bool) → Nat) (b rows : Nat) (f : Nat → Bool) : Nat := ∑ h ∈ Finset.range rows, g (row b f h)

section Rows
variable {b h p rows : Nat} {v : Bool}

theorem row_fill : row b (fill f (h * b + p) j v) h = fill (row b f h) p j v := by
  funext q
  by_cases hq : p ≤ q ∧ q < p + j
  · rw [fill_inside hq.1 hq.2]
    exact fill_inside (by omega) (by omega)
  · rw [fill_outside (by omega)]
    exact fill_outside (by omega)

variable (hp : p + j ≤ b)
include hp

theorem row_fill_other {h' : Nat} (hne : h' ≠ h) : ∀ q < b, row b (fill f (h * b + p) j v) h' q = row b f h' q := by
  intro q hq
  apply fill_outside
  rcases Nat.lt_or_gt_of_ne hne with hlt | hlt
  · have := Nat.mul_le_mul_right b (Nat.succ_le_of_lt hlt)
    rw [Nat.succ_mul] at this
    omega
  · have := Nat.mul_le_mul_right b (Nat.succ_le_of_lt hlt)
    rw [Nat.succ_mul] at this
    omega

theorem tally_fill {g : (Nat → Bool) → Nat} (hg : ∀ f f' : Nat → Bool, (∀ p < b, f p = f' p) → g f = g f') (hh : h < rows) :
    tally g b rows (fill f (h * b + p) j v) + g (row b f h) = tally g b rows f + g (fill (row b f h) p j v) := by
  have hmem : h ∈ Finset.range rows := Finset.mem_range.mpr hh
  have hrest : ∑ x ∈ (Finset.range rows).erase h, g (row b (fill f (h * b + p) j v) x) = ∑ x ∈ (Finset.range rows).erase h, g (row b f x) :=
    Finset.sum_congr rfl fun x hx => hg _ _ (row_fill_other hp (Finset.ne_of_mem_erase hx))
  rw [tally, tally, ← Finset.add_sum_erase _ _ hmem, ← Finset.add_sum_erase _ (fun x => g (row b f x)) hmem, row_fill]
  omega

end Rows

theorem tally_le {g : (Nat → Bool) → Nat} {b c rows : Nat} (hg : ∀ f, g f ≤ c) : tally g b rows f ≤ rows * c := by
  have hle : tally g b rows f ≤ ∑ _h ∈ Finset.range rows, c := Finset.sum_le_sum fun h _ => hg (row b f h)
  rwa [Finset.sum_const_nat fun _ _ => rfl, Finset.card_range] at hle

end NetBSD.Lib.Row
