import Mathlib.Data.List.Basic
import Mathlib.Tactic.Linarith

/-! Sorted lists of intervals.

An `Interval` has its first and its last number in it. A `Chain` is a list of intervals in
order, each at least `d` behind the one before; with `d` 1 they are disjoint, with `d` 2 there is
a number between any two, and then the list is determined by the numbers it covers
(`Chain.ext`). -/
namespace NetBSD.Lib

structure Interval where
  first : Nat
  last : Nat
  deriving DecidableEq

namespace Interval

def Mem (r : Interval) (a : Nat) : Prop := r.first ≤ a ∧ a ≤ r.last

end Interval

/-- The intervals from `lo` on and up to `hi`. -/
def Chain (d hi : Nat) : Nat → List Interval → Prop
  | _, [] => True
  | lo, r :: rs => lo ≤ r.first ∧ r.first ≤ r.last ∧ r.last ≤ hi ∧ Chain d hi (r.last + d) rs

/-- The number is in an interval of the list. -/
def Covered (l : List Interval) (a : Nat) : Prop := ∃ r ∈ l, r.Mem a

/-- Where an interval behind the list may start. -/
def behind (d : Nat) : Nat → List Interval → Nat
  | lo, [] => lo
  | _, r :: rs => behind d (r.last + d) rs

section
variable {d hi lo a : Nat} {r : Interval} {l l₁ l₂ : List Interval}

@[simp]
theorem covered_nil : ¬ Covered [] a := by simp [Covered]

@[simp]
theorem covered_cons : Covered (r :: l) a ↔ r.Mem a ∨ Covered l a := by simp [Covered]

@[simp]
theorem covered_append : Covered (l₁ ++ l₂) a ↔ Covered l₁ a ∨ Covered l₂ a := by
  simp [Covered, or_and_right, exists_or]

theorem chain_append : Chain d hi lo (l₁ ++ l₂) ↔ Chain d hi lo l₁ ∧ Chain d hi (behind d lo l₁) l₂ := by
  induction l₁ generalizing lo with
  | nil => simp [Chain, behind]
  | cons r l₁ ih => simp [List.cons_append, Chain, behind, ih, and_assoc]

theorem Chain.from {lo' : Nat} (h : Chain d hi lo l) (hl : ∀ r ∈ l.head?, lo' ≤ r.first) : Chain d hi lo' l := by
  cases l with
  | nil => trivial
  | cons r l => exact ⟨hl r rfl, h.2⟩

theorem Chain.lo_le (h : Chain d hi lo l) (hc : Covered l a) : lo ≤ a := by
  induction l generalizing lo with
  | nil => simp at hc
  | cons r l ih =>
    obtain hc | hc := covered_cons.1 hc
    · exact le_trans h.1 hc.1
    have := ih h.2.2.2 hc
    have := h.1
    have := h.2.1
    omega

theorem Chain.le_hi (h : Chain d hi lo l) (hc : Covered l a) : a ≤ hi := by
  induction l generalizing lo with
  | nil => simp at hc
  | cons r l ih =>
    obtain hc | hc := covered_cons.1 hc
    · exact le_trans hc.2 h.2.2.1
    · exact ih h.2.2.2 hc

theorem Chain.mem (h : Chain d hi lo l) (hr : r ∈ l) : lo ≤ r.first ∧ r.first ≤ r.last ∧ r.last ≤ hi := by
  have hle : r.first ≤ r.last := by
    induction l generalizing lo with
    | nil => cases hr
    | cons s l ih =>
      obtain rfl | hr := List.mem_cons.1 hr
      · exact h.2.1
      · exact ih h.2.2.2 hr
  exact ⟨h.lo_le ⟨r, hr, le_refl _, hle⟩, hle, h.le_hi ⟨r, hr, hle, le_refl _⟩⟩

theorem Chain.le_last (h : Chain d hi lo (l ++ [r])) (hc : Covered (l ++ [r]) a) : a ≤ r.last := by
  induction l generalizing lo with
  | nil => exact ((covered_cons.1 hc).resolve_right covered_nil).2
  | cons s l ih =>
    obtain hc | hc := covered_cons.1 hc
    · have hr := h.2.2.2.mem (List.mem_append_right l (List.mem_singleton.2 rfl))
      have := hc.2
      omega
    · exact ih h.2.2.2 hc

theorem Chain.pairwise (h : Chain d hi lo l) : l.Pairwise fun r s => r.last + d ≤ s.first := by
  induction l generalizing lo with
  | nil => exact .nil
  | cons r l ih => exact .cons (fun s hs => (h.2.2.2.mem hs).1) (ih h.2.2.2)

/-- A list with gaps is the only one that covers what it covers. -/
theorem Chain.ext {hi₁ hi₂ lo₁ lo₂ : Nat} (h₁ : Chain 2 hi₁ lo₁ l₁) (h₂ : Chain 2 hi₂ lo₂ l₂)
    (hc : ∀ a, Covered l₁ a ↔ Covered l₂ a) : l₁ = l₂ := by
  induction l₁ generalizing l₂ lo₁ lo₂ with
  | nil =>
    cases l₂ with
    | nil => rfl
    | cons s l₂ => exact absurd ((hc s.first).2 (covered_cons.2 (.inl ⟨le_refl _, h₂.2.1⟩))) covered_nil
  | cons r l₁ ih =>
    cases l₂ with
    | nil => exact absurd ((hc r.first).1 (covered_cons.2 (.inl ⟨le_refl _, h₁.2.1⟩))) covered_nil
    | cons s l₂ =>
      obtain ⟨-, hr, -, ht₁⟩ := h₁
      obtain ⟨-, hs, -, ht₂⟩ := h₂
      -- The least number covered, and the first one above it that is not.
      have hfirst : r.first = s.first := by
        have h₁ := (hc r.first).1 (covered_cons.2 (.inl ⟨le_refl _, hr⟩))
        have h₂ := (hc s.first).2 (covered_cons.2 (.inl ⟨le_refl _, hs⟩))
        rw [covered_cons] at h₁ h₂
        have b₁ : s.first ≤ r.first := by
          obtain h | h := h₁
          · exact h.1
          · have := ht₂.lo_le h
            omega
        have b₂ : r.first ≤ s.first := by
          obtain h | h := h₂
          · exact h.1
          · have := ht₁.lo_le h
            omega
        omega
      have hlast : r.last = s.last := by
        by_contra hne
        obtain hlt | hlt := Nat.lt_or_gt_of_ne hne
        · have h := (hc (r.last + 1)).2 (covered_cons.2 (.inl ⟨by omega, by omega⟩))
          obtain h | h := covered_cons.1 h
          · have := h.2
            omega
          · have := ht₁.lo_le h
            omega
        have h := (hc (s.last + 1)).1 (covered_cons.2 (.inl ⟨by omega, by omega⟩))
        obtain h | h := covered_cons.1 h
        · have := h.2
          omega
        · have := ht₂.lo_le h
          omega
      have hrs : r = s := by
        cases r
        simp only at hfirst hlast
        rw [hfirst, hlast]
      congr 1
      refine ih ht₁ ht₂ fun a => ?_
      have ha := hc a
      rw [covered_cons, covered_cons] at ha
      constructor
      · intro h
        have hlo := ht₁.lo_le h
        exact (ha.1 (.inr h)).resolve_left fun hm => by have := hm.2; omega
      · intro h
        have hlo := ht₂.lo_le h
        exact (ha.2 (.inr h)).resolve_left fun hm => by have := hm.2; omega

end

end NetBSD.Lib
