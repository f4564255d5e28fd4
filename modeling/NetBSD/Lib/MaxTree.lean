import Mathlib.Data.Nat.Init
import Mathlib.Order.MinMax

/-! Search trees over places, with the largest weight of each subtree at hand.

`Spans t a b` says that the places of `t` are the numbers from `a` to below `b`, in order. Each
place has a weight, and a cached number for the subtree that it is the root of; `Augmented` says
that these are the largest weights. -/
namespace NetBSD.Lib

inductive MaxTree where
  | nil
  | node (left : MaxTree) (place : Nat) (right : MaxTree)
  deriving DecidableEq

namespace MaxTree
variable {t l r : MaxTree} {a b p k : Nat} {weight cached : Nat → Nat}

def Spans : MaxTree → Nat → Nat → Prop
  | nil, a, b => a = b
  | node l p r, a, b => Spans l a p ∧ Spans r (p + 1) b

def top (cached : Nat → Nat) : MaxTree → Nat
  | nil => 0
  | node _ p _ => cached p

def Augmented (weight cached : Nat → Nat) : MaxTree → Prop
  | nil => True
  | node l p r => Augmented weight cached l ∧ Augmented weight cached r ∧ cached p = max (max (weight p) (l.top cached)) (r.top cached)

theorem Spans.le (h : t.Spans a b) : a ≤ b := by
  induction t generalizing a b with
  | nil => exact le_of_eq h
  | node l p r ihl ihr => exact le_trans (ihl h.1) (Nat.le_of_succ_le (ihr h.2))

theorem Spans.root (h : (node l p r).Spans a b) : a ≤ p ∧ p < b := ⟨h.1.le, h.2.le⟩

section
variable (h : (node l p r).Augmented weight cached)
include h

theorem Augmented.weight_le : weight p ≤ cached p :=
  h.2.2 ▸ le_trans (le_max_left _ _) (le_max_left _ _)

theorem Augmented.left_le : l.top cached ≤ cached p :=
  h.2.2 ▸ le_trans (le_max_right _ _) (le_max_left _ _)

theorem Augmented.right_le : r.top cached ≤ cached p :=
  h.2.2 ▸ le_max_right _ _

end

theorem Augmented.le_top (h : t.Augmented weight cached) (hspans : t.Spans a b) (ha : a ≤ p) (hb : p < b) : weight p ≤ t.top cached := by
  induction t generalizing a b with
  | nil => exact absurd (lt_of_le_of_lt ha hb) (Nat.not_lt.mpr (le_of_eq (Eq.symm hspans)))
  | node l q r ihl ihr =>
    rcases lt_trichotomy p q with hlt | heq | hgt
    · exact le_trans (ihl h.1 hspans.1 ha hlt) h.left_le
    · exact heq ▸ h.weight_le
    · exact le_trans (ihr h.2.1 hspans.2 hgt hb) h.right_le

end MaxTree

end NetBSD.Lib
