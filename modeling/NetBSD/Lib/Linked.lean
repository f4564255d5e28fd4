import Mathlib.Data.List.Nodup
import Mathlib.Logic.Function.Basic
import Mathlib.Logic.Relation

/-! Chains through a table of successors.

`Linked next stop a l` says that `l` is what one sees when one starts at `a` and follows
`next` until an end mark. There is at most one such list and nothing is on it twice; a
change of the table elsewhere leaves it, a changed last entry lengthens it, and an end mark
written into the middle cuts it. -/
namespace NetBSD.Lib
open List Option

inductive Linked {α : Type*} (next : α → α) (stop : α → Prop) : α → List α → Prop where
  | last {a : α} : ¬stop a → stop (next a) → Linked next stop a [a]
  | link {a : α} {l : List α} : ¬stop a → Linked next stop (next a) l → Linked next stop a (a :: l)

namespace Linked
variable {α : Type*} {next next' : α → α} {stop : α → Prop} {a b c : α} {l l' r : List α}

section
variable (h : Linked next stop a l)
include h

theorem eq_cons : ∃ t, l = a :: t := by
  cases h with
  | last _ _ => exact ⟨[], rfl⟩
  | @link a t _ _ => exact ⟨t, rfl⟩

theorem mem_self : a ∈ l := by
  obtain ⟨t, rfl⟩ := h.eq_cons
  exact mem_cons_self

theorem not_stop : ∀ x ∈ l, ¬stop x := by
  induction h with
  | last ha _ =>
    intro x hx
    rw [mem_singleton.mp hx]
    exact ha
  | link ha _ ih =>
    intro x hx
    rcases mem_cons.mp hx with rfl | hx
    · exact ha
    · exact ih x hx

theorem next_mem : ∀ x ∈ l, next x ∈ l ∨ stop (next x) := by
  induction h with
  | last _ hs =>
    intro x hx
    rw [mem_singleton.mp hx]
    exact .inr hs
  | link _ hl ih =>
    intro x hx
    rcases mem_cons.mp hx with rfl | hx
    · exact .inl (mem_cons_of_mem _ hl.mem_self)
    · exact (ih x hx).imp_left (mem_cons_of_mem _)

theorem unique (h' : Linked next stop a l') : l = l' := by
  induction h generalizing l' with
  | last _ hs =>
    cases h' with
    | last _ _ => rfl
    | link _ hl => exact absurd hs (hl.not_stop _ hl.mem_self)
  | link _ hl ih =>
    cases h' with
    | last _ hs => exact absurd hs (hl.not_stop _ hl.mem_self)
    | link _ hl' => rw [ih hl']

theorem suffix (hc : c ∈ l) : ∃ l₁ l₂, l = l₁ ++ l₂ ∧ Linked next stop c l₂ := by
  induction h with
  | @last a ha hs =>
    rw [mem_singleton.mp hc]
    exact ⟨[], [a], rfl, .last ha hs⟩
  | @link a t ha hl ih =>
    rcases mem_cons.mp hc with rfl | hc
    · exact ⟨[], c :: t, rfl, .link ha hl⟩
    · obtain ⟨l₁, l₂, rfl, hl₂⟩ := ih hc
      exact ⟨a :: l₁, l₂, rfl, hl₂⟩

theorem nodup : l.Nodup := by
  induction h with
  | last _ _ => exact nodup_singleton _
  | @link a t ha hl ih =>
    refine nodup_cons.mpr ⟨fun hmem => ?_, ih⟩
    -- The chain from the second `a` on would be the whole chain and a part of its tail.
    obtain ⟨l₁, l₂, rfl, hl₂⟩ := hl.suffix hmem
    have heq := hl₂.unique (.link ha hl)
    have hlen := congrArg List.length heq
    rw [length_cons, length_append] at hlen
    omega

theorem congr (heq : ∀ x ∈ l, next' x = next x) : Linked next' stop a l := by
  induction h with
  | last ha hs =>
    refine .last ha ?_
    rw [heq _ (mem_singleton.mpr rfl)]
    exact hs
  | link ha _ ih =>
    refine .link ha ?_
    rw [heq _ mem_cons_self]
    exact ih fun x hx => heq x (mem_cons_of_mem _ hx)

theorem next_getElem? {i : Nat} (hc : l[i]? = some c) : l[i + 1]? = some (next c) ∨ i + 1 = l.length ∧ stop (next c) := by
  induction h generalizing i with
  | last _ hs =>
    cases i with
    | zero =>
      rw [← some.inj hc]
      exact .inr ⟨rfl, hs⟩
    | succ i => simp at hc
  | @link a t _ hl ih =>
    cases i with
    | zero =>
      rw [← some.inj hc]
      obtain ⟨t', rfl⟩ := hl.eq_cons
      exact .inl rfl
    | succ i =>
      rcases ih hc with hnext | ⟨hlen, hs⟩
      · exact .inl hnext
      · exact .inr ⟨by rw [length_cons, ← hlen], hs⟩

theorem last_stop (hlast : l.getLast? = some c) : stop (next c) := by
  induction h with
  | last _ hs =>
    obtain rfl := some.inj hlast
    exact hs
  | link _ hl ih =>
    obtain ⟨t, rfl⟩ := hl.eq_cons
    exact ih hlast

theorem append (hlast : l.getLast? = some c) (heq : ∀ x ∈ l, x ≠ c → next' x = next x)
    (hr : Linked next' stop (next' c) r) : Linked next' stop a (l ++ r) := by
  induction h with
  | @last a ha _ =>
    obtain rfl : a = c := some.inj hlast
    exact .link ha hr
  | @link a t ha hl ih =>
    have hnd := (Linked.link ha hl).nodup
    obtain ⟨b', t', rfl⟩ : ∃ b' t', t = b' :: t' := ⟨_, hl.eq_cons⟩
    have hac : a ≠ c := by
      rintro rfl
      exact (nodup_cons.mp hnd).1 (mem_of_getLast? hlast)
    refine .link ha ?_
    rw [heq a mem_cons_self hac]
    exact ih hlast fun x hx => heq x (mem_cons_of_mem _ hx)

end

theorem take (h : Linked next stop a l) {k : Nat} (hc : l[k]? = some c) (heq : ∀ x ∈ l, x ≠ c → next' x = next x)
    (hs : stop (next' c)) : Linked next' stop a (l.take (k + 1)) := by
  induction h generalizing k with
  | @last a ha _ =>
    cases k with
    | zero =>
      obtain rfl : a = c := some.inj hc
      exact .last ha hs
    | succ k => simp at hc
  | @link a t ha hl ih =>
    cases k with
    | zero =>
      obtain rfl : a = c := some.inj hc
      exact .last ha hs
    | succ k =>
      have hac : a ≠ c := by
        rintro rfl
        exact (nodup_cons.mp (Linked.link ha hl).nodup).1 (mem_of_getElem? hc)
      refine .link ha ?_
      rw [heq a mem_cons_self hac]
      exact ih hc fun x hx => heq x (mem_cons_of_mem _ hx)

theorem drop (h : Linked next stop a l) {k : Nat} (hc : l[k]? = some c) :
    stop (next c) ∧ l.drop (k + 1) = [] ∨ Linked next stop (next c) (l.drop (k + 1)) := by
  induction h generalizing k with
  | last _ hs =>
    cases k with
    | zero =>
      rw [← some.inj hc]
      exact .inl ⟨hs, rfl⟩
    | succ k => simp at hc
  | link _ hl ih =>
    cases k with
    | zero =>
      rw [← some.inj hc]
      exact .inr hl
    | succ k => exact ih hc

theorem range' {next : Nat → Nat} {stop : Nat → Prop} (n a : Nat) (hpos : 0 < n)
    (hnext : ∀ c, a ≤ c → c + 1 < a + n → next c = c + 1) (hlast : stop (next (a + n - 1)))
    (hstop : ∀ c, a ≤ c → c < a + n → ¬stop c) : Linked next stop a (List.range' a n) := by
  induction n generalizing a with
  | zero => exact absurd hpos (Nat.lt_irrefl 0)
  | succ n ih =>
    rcases Nat.eq_zero_or_pos n with rfl | hn
    · exact .last (hstop a (Nat.le_refl a) (by omega)) hlast
    refine .link (hstop a (Nat.le_refl a) (by omega)) ?_
    rw [hnext a (Nat.le_refl a) (by omega)]
    refine ih (a + 1) hn (fun c hle hlt => hnext c (by omega) (by omega)) ?_ fun c hle hlt => hstop c (by omega) (by omega)
    rw [show a + 1 + n - 1 = a + (n + 1) - 1 from by omega]
    exact hlast

end Linked

/-! Relations without cycles, and how they stay so.

A graph that loses edges keeps having no cycle, and one edge may be added when its end
does not lead back to its start. -/

open Relation

section Acyclic
variable {α : Type*} {r r' : α → α → Prop} {a b : α}

def Acyclic (r : α → α → Prop) : Prop := ∀ x, ¬TransGen r x x

theorem Acyclic.mono (h : Acyclic r) (hsub : ∀ x y, r' x y → r x y) : Acyclic r' := by
  intro x hx
  exact h x (TransGen.mono hsub _ _ hx)

theorem transGen_insert (hsub : ∀ x y, r' x y → r x y ∨ (x = a ∧ y = b)) {x y : α} (h : TransGen r' x y) :
    TransGen r x y ∨ (ReflTransGen r x a ∧ ReflTransGen r b y) := by
  induction h with
  | single hxy =>
    rcases hsub _ _ hxy with hr | ⟨rfl, rfl⟩
    · exact .inl (.single hr)
    · exact .inr ⟨.refl, .refl⟩
  | tail _ hyz ih =>
    rcases hsub _ _ hyz with hr | ⟨rfl, rfl⟩
    · exact ih.imp (fun hxy => hxy.tail hr) fun hvia => ⟨hvia.1, hvia.2.tail hr⟩
    rcases ih with hxy | hvia
    · exact .inr ⟨hxy.to_reflTransGen, .refl⟩
    · exact .inr ⟨hvia.1, .refl⟩

theorem Acyclic.insert (h : Acyclic r) (hsub : ∀ x y, r' x y → r x y ∨ (x = a ∧ y = b)) (hab : ¬ReflTransGen r b a) : Acyclic r' := by
  intro x hx
  rcases transGen_insert hsub hx with hcycle | ⟨hxa, hbx⟩
  · exact h x hcycle
  · exact hab (hbx.trans hxa)

end Acyclic

end NetBSD.Lib
