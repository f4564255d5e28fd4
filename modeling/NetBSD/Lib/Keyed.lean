import Mathlib.Tactic.Common

/-! Lists of nodes with keys.

A search takes the first node that has the key, and `put` replaces it where it is, or takes it out. `put_split` says how a
list looks around the node, and what is left of it after a `put`. -/
namespace NetBSD.Lib.Keyed
open List
variable {α κ : Type*} [DecidableEq κ] {key : α → κ} {k k' : κ} {x y : α} {xs : List α}

def find (key : α → κ) (k : κ) (xs : List α) : Option α := xs.find? fun x => key x = k

def put (key : α → κ) (k : κ) (new : Option α) : List α → List α
  | [] => []
  | x :: rest => if key x = k then new.toList ++ rest else x :: put key k new rest

theorem find_cons_self (h : key x = k) : find key k (x :: xs) = some x := by
  rw [find, find?_cons, decide_eq_true h]

theorem find_cons_ne (h : key x ≠ k) : find key k (x :: xs) = find key k xs := by
  rw [find, find?_cons, decide_eq_false h]
  rfl

theorem key_of_find (h : find key k xs = some x) : key x = k := by
  have hx := @List.find?_some _ _ _ _ h
  exact of_decide_eq_true hx

theorem put_split (h : find key k xs = some x) : ∃ pre post, xs = pre ++ x :: post ∧ (∀ y ∈ pre, key y ≠ k) ∧
    ∀ new, put key k new xs = pre ++ (new.toList ++ post) := by
  induction xs with
  | nil => cases h
  | cons y rest ih =>
    by_cases hy : key y = k
    · rw [find_cons_self hy] at h
      obtain rfl := Option.some.inj h
      exact ⟨[], rest, rfl, (fun _ h => nomatch h), fun new => if_pos hy⟩
    rw [find_cons_ne hy] at h
    obtain ⟨pre, post, rfl, hpre, hput⟩ := ih h
    refine ⟨y :: pre, post, rfl, forall_mem_cons.mpr ⟨hy, hpre⟩, fun new => ?_⟩
    rw [put, if_neg hy, hput]
    rfl

theorem find_append_of_ne {pre : List α} (h : ∀ y ∈ pre, key y ≠ k) : find key k (pre ++ xs) = find key k xs := by
  induction pre with
  | nil => rfl
  | cons y rest ih =>
    obtain ⟨hy, hrest⟩ := forall_mem_cons.mp h
    rw [cons_append, find_cons_ne hy, ih hrest]

theorem find_put_self (h : find key k xs = some x) (hy : key y = k) : find key k (put key k (some y) xs) = some y := by
  obtain ⟨pre, post, -, hpre, hput⟩ := put_split h
  rw [hput, find_append_of_ne hpre]
  exact find_cons_self hy

theorem find_put_of_ne (hne : k' ≠ k) {new : Option α} (hnew : ∀ y ∈ new, key y = k) : find key k' (put key k new xs) = find key k' xs := by
  induction xs with
  | nil => rfl
  | cons x rest ih =>
    rw [put]
    split
    · next hx =>
      have hold : key x ≠ k' := fun h => hne (h.symm.trans hx)
      rw [find_cons_ne hold]
      cases new with
      | none => rfl
      | some y => exact find_cons_ne fun h => hne (h.symm.trans (hnew y rfl))
    · by_cases hx : key x = k'
      · rw [find_cons_self hx, find_cons_self hx]
      · rw [find_cons_ne hx, find_cons_ne hx, ih]

section
variable (h : find key k xs = some x)
include h

theorem put_put (hy : key y = k) {new : Option α} : put key k new (put key k (some y) xs) = put key k new xs := by
  induction xs with
  | nil => rfl
  | cons z rest ih =>
    by_cases hz : key z = k
    · rw [put, if_pos hz, put, if_pos hz]
      exact if_pos hy
    · rw [find_cons_ne hz] at h
      rw [put, if_neg hz, put, if_neg hz, put, if_neg hz, ih h]

theorem put_self : put key k (some x) xs = xs := by
  obtain ⟨pre, post, rfl, -, hput⟩ := put_split h
  exact hput (some x)

theorem put_inj {new new' : Option α} : put key k new xs = put key k new' xs ↔ new = new' := by
  obtain ⟨pre, post, -, -, hput⟩ := put_split h
  rw [hput, hput, append_cancel_left_eq, append_cancel_right_eq]
  exact ⟨fun heq => Option.ext fun a => by rw [← Option.mem_toList, heq, Option.mem_toList], congrArg _⟩

end

theorem mem_of_mem_put {new : Option α} (h : y ∈ put key k new xs) : y ∈ new ∨ y ∈ xs := by
  induction xs with
  | nil => exact .inr h
  | cons x rest ih =>
    rw [put] at h
    split at h
    · obtain h | h := mem_append.mp h
      · exact .inl (Option.mem_toList.mp h)
      · exact .inr (mem_cons_of_mem _ h)
    · obtain rfl | h := mem_cons.mp h
      · exact .inr mem_cons_self
      · exact (ih h).imp_right (mem_cons_of_mem _)

end NetBSD.Lib.Keyed
