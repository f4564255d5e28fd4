import NetBSD.Lib.Runs
import Mathlib.Algebra.BigOperators.Intervals

/-! Runs and their lengths.

`runSet n f` holds the runs of a row as pairs of start and length, and `weigh n f w` adds up
what `w` gives for each length. Setting one clear cell joins the runs on both sides of it
(`weigh_join`); how long these are is measured by `ahead` and `behind`, which look at no more
than `k` cells. -/
namespace NetBSD.Lib.Row

variable {n : Nat} {f f' : Nat → Bool} {b k m s t : Nat}

/-- Set cells from `i` on, of `k`. -/
def ahead (f : Nat → Bool) : Nat → Nat → Nat
  | 0, _ => 0
  | k + 1, i => if f i then ahead f k (i + 1) + 1 else 0

/-- Set cells before `i`, of `k`. -/
def behind (f : Nat → Bool) : Nat → Nat → Nat
  | 0, _ => 0
  | k + 1, i => if f (i - 1) then behind f k (i - 1) + 1 else 0

def runSet (n : Nat) (f : Nat → Bool) : Finset (Nat × Nat) :=
  (Finset.range n ×ˢ Finset.Icc 1 n).filter fun x => IsRun n f x.1 x.2

def weigh (n : Nat) (f : Nat → Bool) (w : Nat → Nat) : Nat := ∑ x ∈ runSet n f, w x.2

/-- The number of runs of at least `k` cells. -/
def longRuns (n : Nat) (f : Nat → Bool) (k : Nat) : Nat := ((runSet n f).filter fun x => k ≤ x.2).card

theorem mem_runSet {x : Nat × Nat} : x ∈ runSet n f ↔ 0 < x.2 ∧ IsRun n f x.1 x.2 := by
  rw [runSet, Finset.mem_filter, Finset.mem_product, Finset.mem_range, Finset.mem_Icc]
  constructor
  · rintro ⟨⟨-, hpos, -⟩, hrun⟩
    exact ⟨hpos, hrun⟩
  rintro ⟨hpos, hrun⟩
  have hle := hrun.le
  exact ⟨⟨by omega, hpos, by omega⟩, hrun⟩

theorem weigh_exact (hk : 0 < k) : weigh n f (fun m => if m = k then 1 else 0) = runs n f k := by
  rw [weigh, ← Finset.card_filter]
  apply Finset.card_bij (fun x _ => x.1)
  · intro x hx
    obtain ⟨hmem, hlen⟩ := Finset.mem_filter.mp hx
    obtain ⟨hpos, hrun⟩ := mem_runSet.mp hmem
    have hle := hrun.le
    rw [hlen] at hrun
    exact Finset.mem_filter.mpr ⟨Finset.mem_range.mpr (by omega), hrun⟩
  · intro x hx y hy hxy
    have hlx := (Finset.mem_filter.mp hx).2
    have hly := (Finset.mem_filter.mp hy).2
    exact Prod.ext hxy (hlx.trans hly.symm)
  · intro s hs
    exact ⟨(s, k), Finset.mem_filter.mpr ⟨mem_runSet.mpr ⟨hk, (Finset.mem_filter.mp hs).2⟩, rfl⟩, rfl⟩

theorem weigh_long : weigh n f (fun m => if k ≤ m then 1 else 0) = longRuns n f k := by
  rw [weigh, ← Finset.card_filter, longRuns]

theorem weigh_le {w : Nat → Nat} (hw : ∀ m, w m ≤ 1) : weigh n f w ≤ n := by
  have hstart : (runSet n f).card ≤ (Finset.range n).card := by
    apply Finset.card_le_card_of_injOn Prod.fst
    · intro x hx
      obtain ⟨hpos, hrun⟩ := mem_runSet.mp hx
      have hle := hrun.le
      exact Finset.mem_coe.mpr (Finset.mem_range.mpr (by omega))
    intro x hx y hy hxy
    have hrun := (mem_runSet.mp hx).2
    rw [hxy] at hrun
    exact Prod.ext hxy (hrun.length_unique (mem_runSet.mp hy).2)
  rw [Finset.card_range] at hstart
  have hsum : weigh n f w ≤ ∑ _x ∈ runSet n f, 1 := Finset.sum_le_sum fun x _ => hw x.2
  rw [Finset.sum_const_nat fun _ _ => rfl, mul_one] at hsum
  exact hsum.trans hstart

theorem ahead_spec (k i : Nat) : ahead f k i ≤ k ∧ (∀ p < ahead f k i, f (i + p) = true) ∧
    (ahead f k i = k ∨ f (i + ahead f k i) = false) := by
  induction k generalizing i with
  | zero => exact ⟨le_refl _, fun p hp => absurd hp (Nat.not_lt_zero p), .inl rfl⟩
  | succ k ih =>
    rw [ahead]
    by_cases hi : f i = true
    · obtain ⟨hle, hset, hend⟩ := ih (i + 1)
      rw [if_pos hi]
      refine ⟨by omega, fun p hp => ?_, ?_⟩
      · cases p with
        | zero => exact hi
        | succ p =>
          rw [show i + (p + 1) = i + 1 + p by omega]
          exact hset p (by omega)
      · rw [show i + (ahead f k (i + 1) + 1) = i + 1 + ahead f k (i + 1) by omega]
        exact hend.imp_left fun h => by rw [h]
    · rw [if_neg hi]
      exact ⟨Nat.zero_le _, fun p hp => absurd hp (Nat.not_lt_zero p), .inr (by simpa using hi)⟩

theorem behind_spec {i : Nat} (hk : k ≤ i) : behind f k i ≤ k ∧ (∀ p, i - behind f k i ≤ p → p < i → f p = true) ∧
    (behind f k i = k ∨ f (i - behind f k i - 1) = false) := by
  induction k generalizing i with
  | zero => exact ⟨le_refl _, fun p hp hlt => absurd hp (by rw [behind]; omega), .inl rfl⟩
  | succ k ih =>
    rw [behind]
    by_cases hi : f (i - 1) = true
    · obtain ⟨hle, hset, hend⟩ := ih (i := i - 1) (by omega)
      rw [if_pos hi]
      refine ⟨by omega, fun p hp hlt => ?_, ?_⟩
      · by_cases hpi : p = i - 1
        · rw [hpi]
          exact hi
        · exact hset p (by omega) (by omega)
      · rw [show i - (behind f k (i - 1) + 1) - 1 = i - 1 - behind f k (i - 1) - 1 by omega]
        exact hend.imp_left fun h => by rw [h]
    · rw [if_neg hi]
      exact ⟨Nat.zero_le _, fun p hp hlt => absurd hp (by omega), .inr (by simpa using hi)⟩

theorem ahead_min (k l i : Nat) : ahead f (min k l) i = min (ahead f k i) l := by
  induction k generalizing l i with
  | zero => rw [Nat.zero_min, ahead, Nat.zero_min]
  | succ k ih =>
    cases l with
    | zero => rw [Nat.min_zero, Nat.min_zero, ahead]
    | succ l =>
      rw [Nat.add_min_add_right, ahead, ahead, ih]
      split
      · rw [Nat.add_min_add_right]
      · rw [Nat.zero_min]

theorem behind_min (k l i : Nat) : behind f (min k l) i = min (behind f k i) l := by
  induction k generalizing l i with
  | zero => rw [Nat.zero_min, behind, Nat.zero_min]
  | succ k ih =>
    cases l with
    | zero => rw [Nat.min_zero, Nat.min_zero, behind]
    | succ l =>
      rw [Nat.add_min_add_right, behind, behind, ih]
      split
      · rw [Nat.add_min_add_right]
      · rw [Nat.zero_min]

theorem ahead_congr {i : Nat} (h : ∀ p, i ≤ p → f p = f' p) : ahead f k i = ahead f' k i := by
  induction k generalizing i with
  | zero => rfl
  | succ k ih => rw [ahead, ahead, h i (le_refl i), ih fun p hp => h p (by omega)]

theorem behind_congr {i : Nat} (hk : k ≤ i) (h : ∀ p, p < i → f p = f' p) : behind f k i = behind f' k i := by
  induction k generalizing i with
  | zero => rfl
  | succ k ih => rw [behind, behind, h (i - 1) (by omega), ih (by omega) fun p hp => h p (by omega)]

/-! ### A clear cell is set -/

/-- The run does not reach up to cell `b`. -/
def Far (b : Nat) (x : Nat × Nat) : Prop := x.1 + x.2 < b ∨ b + 1 < x.1

instance (b : Nat) (x : Nat × Nat) : Decidable (Far b x) := inferInstanceAs (Decidable (_ ∨ _))

section Join
variable (hb : b < n) (hclear : f b = false)
include hb hclear

theorem isRun_behind : IsRun n f (b - behind f b b) (behind f b b) := by
  obtain ⟨hle, hset, hend⟩ := @behind_spec f b b (le_refl b)
  refine ⟨by omega, fun p hp => hset _ (by omega) (by omega), ?_, .inr ?_⟩
  · exact hend.imp_left fun h => by omega
  · rw [Nat.sub_add_cancel hle]
    exact hclear

theorem isRun_ahead : IsRun n f (b + 1) (ahead f (n - (b + 1)) (b + 1)) := by
  obtain ⟨hle, hset, hend⟩ := @ahead_spec f (n - (b + 1)) (b + 1)
  exact ⟨by omega, hset, .inr hclear, hend.imp_left fun h => by omega⟩

omit hclear in
theorem isRun_join : IsRun n (fill f b 1 true) (b - behind f b b) (behind f b b + 1 + ahead f (n - (b + 1)) (b + 1)) := by
  obtain ⟨hle, hset, hend⟩ := @behind_spec f b b (le_refl b)
  obtain ⟨hle', hset', hend'⟩ := @ahead_spec f (n - (b + 1)) (b + 1)
  refine ⟨by omega, fun p hp => ?_, ?_, ?_⟩
  · by_cases hcell : b - behind f b b + p = b
    · exact fill_inside (by omega) (by omega)
    rw [fill_outside (by omega)]
    by_cases hlow : b - behind f b b + p < b
    · exact hset _ (by omega) hlow
    · have hright := hset' (b - behind f b b + p - (b + 1)) (by omega)
      rwa [Nat.add_sub_cancel' (by omega)] at hright
  · by_cases hall : behind f b b = b
    · exact .inl (by omega)
    refine .inr ?_
    rw [fill_outside (by omega)]
    exact hend.resolve_left hall
  · by_cases hall : ahead f (n - (b + 1)) (b + 1) = n - (b + 1)
    · exact .inl (by omega)
    refine .inr ?_
    rw [fill_outside (by omega), show b - behind f b b + (behind f b b + 1 + ahead f (n - (b + 1)) (b + 1)) =
      b + 1 + ahead f (n - (b + 1)) (b + 1) by omega]
    exact hend'.resolve_left hall

omit hb hclear in
theorem isRun_far (h : s + m < b ∨ b + 1 < s) : IsRun n (fill f b 1 true) s m ↔ IsRun n f s m := by
  have hout : ∀ p, p + 1 = s ∨ s ≤ p ∧ p ≤ s + m → fill f b 1 true p = f p := fun p hp => fill_outside (by omega)
  unfold IsRun
  have hcells : (∀ p < m, fill f b 1 true (s + p) = true) ↔ ∀ p < m, f (s + p) = true :=
    forall₂_congr fun p hp => by rw [hout (s + p) (by omega)]
  have hbefore : (s = 0 ∨ fill f b 1 true (s - 1) = false) ↔ (s = 0 ∨ f (s - 1) = false) := by
    by_cases hs : s = 0
    · simp [hs]
    · rw [hout (s - 1) (by omega)]
  rw [hcells, hbefore, hout (s + m) (by omega)]

theorem near_run (h : IsRun n f s m) (hm : 0 < m) (hnear : ¬(s + m < b ∨ b + 1 < s)) :
    (s = b - behind f b b ∧ m = behind f b b) ∨ (s = b + 1 ∧ m = ahead f (n - (b + 1)) (b + 1)) := by
  -- The cell itself is in no run.
  have hout : b < s ∨ s + m ≤ b := by
    by_contra hin
    have hset := h.set (p := b) (by omega) (by omega)
    rw [hclear] at hset
    exact absurd hset (by decide)
  rcases hout with hright | hleft
  · obtain rfl : s = b + 1 := by omega
    exact .inr ⟨rfl, h.length_unique (isRun_ahead hb hclear)⟩
  have hrun := isRun_behind hb hclear
  have hle := (@behind_spec f b b (le_refl b)).1
  have hsame : s = b - behind f b b := by
    by_contra hne
    have hapart := h.apart hrun hne
    omega
  exact .inl ⟨hsame, by omega⟩

/-- The runs on both sides go, and the joined one comes. -/
theorem weigh_join (w : Nat → Nat) : weigh n (fill f b 1 true) w + ((if 0 < behind f b b then w (behind f b b) else 0) +
      if 0 < ahead f (n - (b + 1)) (b + 1) then w (ahead f (n - (b + 1)) (b + 1)) else 0) =
    weigh n f w + w (behind f b b + 1 + ahead f (n - (b + 1)) (b + 1)) := by
  have hle := (@behind_spec f b b (le_refl b)).1
  have hleft := isRun_behind hb hclear
  have hright := isRun_ahead hb hclear
  have hjoin := @isRun_join n f b hb
  have hnear (s m : Nat) (h : IsRun n f s m) (hm : 0 < m) := @near_run n f b m s hb hclear h hm
  have hfar (s m : Nat) := @isRun_far n f b m s
  generalize behind f b b = l at *
  generalize ahead f (n - (b + 1)) (b + 1) = r at *
  have hcommon : (runSet n (fill f b 1 true)).filter (Far b) = (runSet n f).filter (Far b) := by
    ext x
    rw [Finset.mem_filter, Finset.mem_filter, mem_runSet, mem_runSet]
    exact and_congr_left fun hx => and_congr_right fun _ => hfar x.1 x.2 hx
  have hold : (runSet n f).filter (fun x => ¬Far b x) =
      (if 0 < l then {(b - l, l)} else ∅) ∪ (if 0 < r then {(b + 1, r)} else ∅) := by
    ext x
    rw [Finset.mem_filter, mem_runSet, Finset.mem_union]
    constructor
    · rintro ⟨⟨hpos, hrun⟩, hx⟩
      rcases hnear x.1 x.2 hrun hpos hx with ⟨hs, hm⟩ | ⟨hs, hm⟩
      · left
        rw [if_pos (by omega), Finset.mem_singleton]
        exact Prod.ext hs hm
      · right
        rw [if_pos (by omega), Finset.mem_singleton]
        exact Prod.ext hs hm
    rintro (hx | hx)
    · split at hx
      · next hpos =>
        obtain rfl := Finset.mem_singleton.mp hx
        exact ⟨⟨hpos, hleft⟩, by show ¬(b - l + l < b ∨ b + 1 < b - l); omega⟩
      · exact absurd hx (Finset.notMem_empty x)
    split at hx
    · next hpos =>
      obtain rfl := Finset.mem_singleton.mp hx
      exact ⟨⟨hpos, hright⟩, by show ¬(b + 1 + r < b ∨ b + 1 < b + 1); omega⟩
    · exact absurd hx (Finset.notMem_empty x)
  have hnew : (runSet n (fill f b 1 true)).filter (fun x => ¬Far b x) = {(b - l, l + 1 + r)} := by
    ext x
    rw [Finset.mem_filter, mem_runSet, Finset.mem_singleton]
    constructor
    · rintro ⟨⟨hpos, hrun⟩, hx⟩
      have hs : x.1 = b - l := by
        by_contra hne
        have hapart := hrun.apart hjoin hne
        exact hx (by show x.1 + x.2 < b ∨ b + 1 < x.1; omega)
      rw [hs] at hrun
      exact Prod.ext hs (hrun.length_unique hjoin)
    · rintro rfl
      exact ⟨⟨by omega, hjoin⟩, by show ¬(b - l + (l + 1 + r) < b ∨ b + 1 < b - l); omega⟩
  have hdisj : Disjoint (if 0 < l then ({(b - l, l)} : Finset (Nat × Nat)) else ∅) (if 0 < r then {(b + 1, r)} else ∅) := by
    rw [Finset.disjoint_left]
    intro x hx hx'
    split at hx
    · split at hx'
      · have hone := congrArg Prod.fst (Finset.mem_singleton.mp hx)
        have htwo := congrArg Prod.fst (Finset.mem_singleton.mp hx')
        omega
      · exact Finset.notMem_empty x hx'
    · exact Finset.notMem_empty x hx
  have hone (p : Prop) [Decidable p] (y : Nat × Nat) : ∑ x ∈ (if p then {y} else ∅), w x.2 = if p then w y.2 else 0 := by
    split
    · exact Finset.sum_singleton _ _
    · exact Finset.sum_empty
  have hsplit (f : Nat → Bool) : weigh n f w =
      ∑ x ∈ (runSet n f).filter (Far b), w x.2 + ∑ x ∈ (runSet n f).filter (fun x => ¬Far b x), w x.2 :=
    (Finset.sum_filter_add_sum_filter_not _ _ _).symm
  rw [hsplit, hsplit, hcommon, hold, hnew, Finset.sum_singleton, Finset.sum_union hdisj, hone, hone]
  dsimp only
  omega

end Join

end NetBSD.Lib.Row
