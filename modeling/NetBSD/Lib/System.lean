import Mathlib.Tactic.TypeStar

/-! Systems that move by labelled steps.

A component of the kernel is read as a `System`: the states it may start in and
what one step under a label can do. `Reach ok s` says that a run all of whose steps
meet `ok` ends in `s`; with no demand on the steps it is `Reachable`. The one
induction over runs is `Reach.invariant`: what holds initially and survives a step
holds in every state reached. -/
namespace NetBSD.Lib

structure System (σ α : Type*) where
  init : σ → Prop
  step : σ → α → σ → Prop

namespace System
variable {σ α : Type*} {S : System σ α} {ok : σ → α → Prop}

/-- The states reached by runs whose steps all meet `ok`, a condition on the state
before the step and its label. -/
inductive Reach (S : System σ α) (ok : σ → α → Prop) : σ → Prop where
  | init {s : σ} : S.init s → Reach S ok s
  | step {s s' : σ} {a : α} : Reach S ok s → ok s a → S.step s a s' → Reach S ok s'

/-- The states reached by any run. -/
def Reachable (S : System σ α) : σ → Prop := S.Reach fun _ _ => True

theorem Reach.invariant {Inv : σ → Prop} (h₀ : ∀ s, S.init s → Inv s)
    (hs : ∀ s a s', Inv s → ok s a → S.step s a s' → Inv s') {s : σ} (h : S.Reach ok s) : Inv s := by
  induction h with
  | init hi => exact h₀ _ hi
  | step _ ha hstep ih => exact hs _ _ _ ih ha hstep

theorem Reach.reachable {s : σ} (h : S.Reach ok s) : S.Reachable s := by
  induction h with
  | init hi => exact .init hi
  | step _ _ hstep ih => exact .step ih trivial hstep

/-- The system of a partial step function. -/
def ofStep (init : σ → Prop) (next : σ → α → Option σ) : System σ α :=
  ⟨init, fun s a s' => next s a = some s'⟩

/-- A run of a partial step function, label by label. -/
def run (next : σ → α → Option σ) (s : σ) : List α → Option σ
  | [] => some s
  | a :: rest => (next s a).bind fun s' => run next s' rest

/-- The step function restricted to the steps that meet `ok`. -/
def guarded (ok : σ → α → Prop) [∀ s a, Decidable (ok s a)] (next : σ → α → Option σ) (s : σ) (a : α) :
    Option σ :=
  if ok s a then next s a else none

/-- Where a run of guarded steps ends is reached, when each of them is a step of the
system that meets `ok`. -/
theorem Reach.run {P : σ → α → Prop} [∀ s a, Decidable (P s a)] {next : σ → α → Option σ} {s s' : σ} (h : S.Reach ok s)
    (as : List α) (hstep : ∀ s s', ∀ a ∈ as, P s a → next s a = some s' → ok s a ∧ S.step s a s')
    (hr : System.run (guarded P next) s as = some s') : S.Reach ok s' := by
  induction as generalizing s with
  | nil => exact Option.some.inj hr ▸ h
  | cons a rest ih =>
    obtain ⟨t, ht, hrest⟩ := Option.bind_eq_some_iff.mp hr
    by_cases ha : P s a
    · rw [guarded, if_pos ha] at ht
      obtain ⟨hok, hs⟩ := hstep s t a List.mem_cons_self ha ht
      exact ih (.step h hok hs) (fun s s' a' ha' => hstep s s' a' (List.mem_cons_of_mem _ ha')) hrest
    · simp [guarded, ha] at ht

theorem reach_of_run (S : System σ α) {P : σ → α → Prop} [∀ s a, Decidable (P s a)] {next : σ → α → Option σ} (s : σ)
    (as : List α) {s' : σ} (hstep : ∀ s s', ∀ a ∈ as, P s a → next s a = some s' → ok s a ∧ S.step s a s') (h : S.init s)
    (hr : run (guarded P next) s as = some s') : S.Reach ok s' := Reach.run (.init h) as hstep hr

theorem reach_run (init : σ → Prop) (ok : σ → α → Prop) [∀ s a, Decidable (ok s a)]
    (next : σ → α → Option σ) (s : σ) (as : List α) {s' : σ} (h : init s)
    (hr : run (guarded ok next) s as = some s') : (ofStep init next).Reach ok s' :=
  reach_of_run (ofStep init next) s as (fun _ _ _ _ ha hs => ⟨ha, hs⟩) h hr

end System

end NetBSD.Lib
