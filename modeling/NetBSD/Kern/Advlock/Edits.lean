import NetBSD.Kern.Advlock.Locklist
import Mathlib.Order.Nat
import Mathlib.Algebra.Order.Ring.Int

/-! What an edit of the lock list is, whichever loop makes it.

Each entry has a fate: it is kept, cut back on one side, dropped with its waiters woken,
or absorbed with its waiters moved to the new lock. `lf_clearlock` is a run of fates,
with at most one entry split in two (`Edits`); `lf_setlock` links its lock in front of
such a run, or finds that an entry will do (`Sets`). On a list whose entries are in order
both functions come to an end and are of this form, and the facts about them are proved
from it. -/
namespace NetBSD.Kern.Advlock
open List Option

/-! ### Ranges -/

def Lockf.Covers (lf : Lockf) (x : Int) : Prop := lf.lfStart ≤ x ∧ (lf.lfEnd = -1 ∨ x ≤ lf.lfEnd)

instance (lf : Lockf) (x : Int) : Decidable (lf.Covers x) := inferInstanceAs (Decidable (_ ∧ _))

/-- A range as `lf_advlock` makes it. -/
def Lockf.RangeOk (lf : Lockf) : Prop := 0 ≤ lf.lfStart ∧ (lf.lfEnd = -1 ∨ lf.lfStart ≤ lf.lfEnd)

instance (lf : Lockf) : Decidable lf.RangeOk := inferInstanceAs (Decidable (_ ∧ _))

/-- The range of `a` lies within that of `b`. -/
def Within (a b : Lockf) : Prop :=
  b.lfStart ≤ a.lfStart ∧ (b.lfEnd = -1 ∨ (a.lfEnd ≠ -1 ∧ a.lfEnd ≤ b.lfEnd))

def Before (a b : Lockf) : Prop := a.lfEnd ≠ -1 ∧ a.lfEnd < b.lfStart

/-- The locks of each owner are disjoint and in order. -/
def Sorted (list : List Lockf) : Prop := list.Pairwise fun a b => a.lfId = b.lfId → Before a b

def RangesOk (list : List Lockf) : Prop := ∀ lf ∈ list, lf.RangeOk

section Ranges
variable {lock lf a b c : Lockf} {x : Int}

theorem within_refl (a : Lockf) : Within a a := by
  unfold Within
  omega

theorem Before.within {a' b' : Lockf} (h : Before a b) (ha : Within a' a) (hb : Within b' b) : Before a' b' := by
  unfold Before Within at *
  omega

theorem Before.not_covers (h : Before a b) (ha : a.Covers x) : ¬b.Covers x := by
  unfold Before Lockf.Covers at *
  omega

theorem Within.covers (h : Within a b) (ha : a.Covers x) : b.Covers x := by
  unfold Within Lockf.Covers at *
  omega

theorem apart_iff (ha : lock.RangeOk) (hb : lf.RangeOk) : apart lock lf ↔ ∀ x, lf.Covers x → ¬lock.Covers x := by
  constructor
  · unfold apart Lockf.Covers at *
    omega
  intro h
  have h₁ := h lock.lfStart
  have h₂ := h lf.lfStart
  unfold apart Lockf.Covers Lockf.RangeOk at *
  omega

theorem ovcase_isSome (hlf : lf.RangeOk) (h : ¬apart lock lf) : (ovcase lock lf).isSome := by
  unfold apart at h
  unfold ovcase
  split_ifs
  all_goals first | rfl | omega

end Ranges

/-! ### Fates -/

def Lockf.left (lock lf : Lockf) : Lockf := {lf.quiet with lfEnd := lock.lfStart - 1}

def Lockf.right (lock lf : Lockf) : Lockf := {lf.quiet with lfStart := lock.lfEnd + 1}

/-- `lf` reaches beyond the lock on the left, or on the right. -/
def StartsBefore (lock lf : Lockf) : Prop := lf.lfStart < lock.lfStart
def EndsAfter (lock lf : Lockf) : Prop := lock.lfEnd ≠ -1 ∧ (lf.lfEnd = -1 ∨ lock.lfEnd < lf.lfEnd)

instance (lock lf : Lockf) : Decidable (StartsBefore lock lf) := inferInstanceAs (Decidable (_ < _))
instance (lock lf : Lockf) : Decidable (EndsAfter lock lf) := inferInstanceAs (Decidable (_ ∧ _))

/-- What becomes of an entry: the entries in its place, and its waiters woken or moved. -/
inductive Fate (lock lf : Lockf) : List Lockf → List Addr → List Addr → List Lockf → Prop where
  | kept (h : lf.lfId = lock.lfId → apart lock lf) : Fate lock lf [lf] [] [] []
  | left (hid : lf.lfId = lock.lfId) (hap : ¬apart lock lf) (hl : StartsBefore lock lf) (hr : ¬EndsAfter lock lf) :
    Fate lock lf [lock.left lf] lf.lfBlkhd [] []
  | right (hid : lf.lfId = lock.lfId) (hap : ¬apart lock lf) (hl : ¬StartsBefore lock lf) (hr : EndsAfter lock lf) :
    Fate lock lf [lock.right lf] lf.lfBlkhd [] []
  | dropped (hid : lf.lfId = lock.lfId) (hl : ¬StartsBefore lock lf) (hr : ¬EndsAfter lock lf) :
    Fate lock lf [] lf.lfBlkhd [] [lf.quiet]
  | absorbed (hid : lf.lfId = lock.lfId) (hl : ¬StartsBefore lock lf) (hr : ¬EndsAfter lock lf)
    (hd : ¬downgrades lock lf) : Fate lock lf [] [] lf.lfBlkhd [lf.quiet]

/-- None of the owner's entries overlaps the lock, or none starts before it. -/
def NoOverlap (lock : Lockf) (list : List Lockf) : Prop := ∀ lf ∈ list, lf.lfId = lock.lfId → apart lock lf
def NoneBefore (lock : Lockf) (list : List Lockf) : Prop := ∀ lf ∈ list, lf.lfId = lock.lfId → ¬StartsBefore lock lf

/-- The part of a split entry that gets the spare structure. -/
def Lockf.splitRight (lock lf spare : Lockf) : Lockf := {lock.right lf with addr := spare.addr}

inductive Edits (lock : Lockf) (spare : Option Lockf) : List Lockf → Edited → Prop where
  | stop {list : List Lockf} (h : NoOverlap lock list) :
    Edits lock spare list ⟨list, [], [], [], spare⟩
  | entry {lf : Lockf} {rest es freed : List Lockf} {woken moved : List Addr} {r : Edited}
    (hf : Fate lock lf es woken moved freed) (hr : Edits lock spare rest r) :
    Edits lock spare (lf :: rest) (r.behind es woken moved freed)
  | split {lf sp : Lockf} {rest : List Lockf} (hsp : spare = some sp) (hid : lf.lfId = lock.lfId)
    (hl : StartsBefore lock lf) (hr : EndsAfter lock lf) (h : NoOverlap lock rest) :
    Edits lock spare (lf :: rest) ⟨lock.left lf :: lock.splitRight lf sp :: rest, lf.lfBlkhd, [], [], none⟩

inductive Sets (lock : Lockf) (spare : Option Lockf) : List Lockf → Edited → Prop where
  /-- The lock goes here; its owner's locks from here on do not start before it. -/
  | link {list : List Lockf} {r : Edited} (h : NoneBefore lock list)
    (hr : Edits lock spare list r) : Sets lock spare list (r.link lock)
  | kept {lf : Lockf} {rest : List Lockf} {r : Edited} (h : lf.lfId = lock.lfId → Before lf lock)
    (hr : Sets lock spare rest r) : Sets lock spare (lf :: rest) (r.behind [lf] [] [] [])
  /-- The lock goes behind an entry it cuts back. -/
  | left {lf : Lockf} {rest : List Lockf} {r : Edited} (hid : lf.lfId = lock.lfId) (hap : ¬apart lock lf)
    (hl : StartsBefore lock lf) (hr : ¬EndsAfter lock lf)
    (h : NoneBefore lock rest) (he : Edits lock spare rest r) :
    Sets lock spare (lf :: rest) ((r.link lock).behind [lock.left lf] lf.lfBlkhd [] [])
  | split {lf sp : Lockf} {rest : List Lockf} (hsp : spare = some sp) (hid : lf.lfId = lock.lfId)
    (htype : lf.lfType ≠ lock.lfType) (hl : StartsBefore lock lf) (hr : EndsAfter lock lf)
    (h : NoOverlap lock rest) :
    Sets lock spare (lf :: rest) ⟨lock.left lf :: lock :: lock.splitRight lf sp :: rest, lf.lfBlkhd, [], [], none⟩
  /-- An entry with the same range takes the lock's type. -/
  | retype {lf : Lockf} {rest : List Lockf} {ws : List Addr} {woken : List Addr} (hid : lf.lfId = lock.lfId)
    (hs : lf.lfStart = lock.lfStart) (he : lf.lfEnd = lock.lfEnd)
    (hw : (ws = [] ∧ woken = lf.lfBlkhd) ∨ (ws = lf.lfBlkhd ∧ woken = [] ∧ ¬downgrades lock lf))
    (h : NoOverlap lock rest) :
    Sets lock spare (lf :: rest)
      ⟨{lf with lfType := lock.lfType, lfBlkhd := ws} :: rest, woken, [], [lock], spare⟩
  /-- An entry of the same type has the range already. -/
  | inside {lf : Lockf} {rest : List Lockf} (hid : lf.lfId = lock.lfId) (htype : lf.lfType = lock.lfType)
    (hw : Within lock lf) : Sets lock spare (lf :: rest) ⟨lf :: rest, [], [], [lock], spare⟩

/-! ### The loops make such edits -/

section Walks
variable {lock lf : Lockf} {spare : Option Lockf} {rest list : List Lockf}

theorem ovcase_sides {c : OvCase} (h : ovcase lock lf = some c) : match c with
    | .equal => lf.lfStart = lock.lfStart ∧ lf.lfEnd = lock.lfEnd
    | .contains => (StartsBefore lock lf ∨ lf.lfStart = lock.lfStart ∧ EndsAfter lock lf) ∧
        (EndsAfter lock lf ∨ lf.lfEnd = lock.lfEnd) ∧ lock.lfEnd ≠ -1
    | .contained => ¬StartsBefore lock lf ∧ ¬EndsAfter lock lf
    | .startsBefore => StartsBefore lock lf ∧ ¬EndsAfter lock lf
    | .endsAfter => ¬StartsBefore lock lf ∧ EndsAfter lock lf := by
  unfold ovcase at h
  split_ifs at h <;> cases h <;> simp only [StartsBefore, EndsAfter] <;> omega

theorem lfSplit_left (hs : lf.lfStart ≠ lock.lfStart) (he : lf.lfEnd = lock.lfEnd) :
    lfSplit lf lock spare = some ([{lf with lfEnd := lock.lfStart - 1}], [], spare) := by
  unfold lfSplit
  rw [if_neg hs, if_pos he]

theorem lfSplit_both {sp : Lockf} (hs : lf.lfStart ≠ lock.lfStart) (he : lf.lfEnd ≠ lock.lfEnd) :
    lfSplit lf lock (some sp) = some ([{lf with lfEnd := lock.lfStart - 1}],
      [{lf with addr := sp.addr, lfStart := lock.lfEnd + 1, lfBlkhd := []}], none) := by
  unfold lfSplit
  rw [if_neg hs, if_neg he]

theorem rest_apart (hs : Sorted (lf :: rest)) (hid : lf.lfId = lock.lfId) (hend : lf.lfEnd = -1 ∨ (lock.lfEnd ≠ -1 ∧ lock.lfEnd ≤ lf.lfEnd)) :
    NoOverlap lock rest := by
  intro e he heid
  have hb := rel_of_pairwise_cons hs he (hid.trans heid.symm)
  unfold Before at hb
  unfold apart
  omega

theorem noOverlap_beyond (hs : Sorted (lf :: rest)) (hid : lf.lfId = lock.lfId) (hlf : lf.RangeOk)
    (hend : lock.lfEnd ≠ -1) (hbeyond : lf.lfStart > lock.lfEnd) : NoOverlap lock (lf :: rest) := by
  intro e he heid
  rcases mem_cons.mp he with rfl | he
  · exact .inr ⟨hend, hbeyond⟩
  · unfold Lockf.RangeOk at hlf
    exact rest_apart hs hid (by omega) e he heid

/-- The owner's entries all start behind where the lock starts. -/
def AllBehind (lock : Lockf) (list : List Lockf) : Prop := ∀ lf ∈ list, lf.lfId = lock.lfId → lock.lfStart < lf.lfStart

theorem AllBehind.noneBefore (h : AllBehind lock list) : NoneBefore lock list := by
  intro e he heid
  exact not_lt.mpr (h e he heid).le

theorem noneBefore_cons (hs : Sorted (lf :: rest)) (hid : lf.lfId = lock.lfId) (hlf : lf.RangeOk)
    (hl : ¬StartsBefore lock lf) : NoneBefore lock (lf :: rest) := by
  intro e he heid
  rcases mem_cons.mp he with rfl | he
  · exact hl
  have hafter := rel_of_pairwise_cons hs he (hid.trans heid.symm)
  unfold Before at hafter
  unfold Lockf.RangeOk at hlf
  unfold StartsBefore at *
  omega

theorem rest_behind (hs : Sorted (lf :: rest)) (hid : lf.lfId = lock.lfId) (hb : ¬Before lf lock) : AllBehind lock rest := by
  intro e he heid
  have hafter := rel_of_pairwise_cons hs he (hid.trans heid.symm)
  unfold Before at hb hafter
  omega

theorem Edits.last {es freed : List Lockf} {woken moved : List Addr} (hf : Fate lock lf es woken moved freed) (h : NoOverlap lock rest) :
    Edits lock spare (lf :: rest) ⟨es ++ rest, woken, moved, freed, spare⟩ := by
  have hentry := Edits.entry hf (@Edits.stop lock spare rest h)
  simpa only [Edited.behind, append_nil] using hentry

theorem clearWalk_edits {unlock : Lockf} (hsp : spare.isSome ∨ unlock.lfEnd = -1) (hok : RangesOk list) (hs : Sorted list) :
    ∃ r, clearWalk unlock spare list = some r ∧ Edits unlock spare list r := by
  induction list with
  | nil => exact ⟨_, rfl, .stop fun lf hlf => absurd hlf not_mem_nil⟩
  | cons lf rest ih =>
    obtain ⟨r, hr, hedits⟩ := ih (fun e he => hok e (mem_cons_of_mem _ he)) (List.Pairwise.of_cons hs)
    have hlf := hok lf mem_cons_self
    rw [clearWalk]
    by_cases hid : lf.lfId = unlock.lfId
    swap
    · rw [if_pos hid, hr]
      exact ⟨_, rfl, .entry (.kept fun h => absurd h hid) hedits⟩
    rw [if_neg (not_not.mpr hid)]
    by_cases hap : apart unlock lf
    · rw [if_pos hap]
      split
      · next hstop =>
        exact ⟨_, rfl, .stop (noOverlap_beyond hs hid hlf hstop.1 hstop.2)⟩
      · rw [hr]
        exact ⟨_, rfl, .entry (.kept fun _ => hap) hedits⟩
    rw [if_neg hap]
    obtain ⟨c, hc⟩ := isSome_iff_exists.mp (ovcase_isSome hlf hap)
    have hsides := ovcase_sides hc
    rw [hc]
    cases c with
    | equal =>
      have hstop : NoOverlap unlock rest := rest_apart hs hid (by omega)
      have hlast : Edits unlock spare (lf :: rest) _ :=
        .last (.dropped hid (by unfold StartsBefore; omega) (by unfold EndsAfter; omega)) hstop
      exact ⟨_, rfl, hlast⟩
    | contains =>
      obtain ⟨hleft, hright, hend⟩ := hsides
      have hstop : NoOverlap unlock rest := rest_apart hs hid (by unfold EndsAfter at hright; omega)
      simp only
      split
      · next hstart =>
        have hl : ¬StartsBefore unlock lf := by unfold StartsBefore; omega
        have hlast : Edits unlock spare (lf :: rest) _ := .last (.right hid hap hl (hleft.resolve_left hl).2) hstop
        exact ⟨_, rfl, hlast⟩
      · next hstart =>
        have hl : StartsBefore unlock lf := hleft.resolve_right fun h => hstart h.1
        by_cases hends : lf.lfEnd = unlock.lfEnd
        · have hsplit : lfSplit lf.quiet unlock spare = _ := lfSplit_left hstart hends
          rw [hsplit]
          have hlast : Edits unlock spare (lf :: rest) _ :=
            .last (.left hid hap hl (by unfold EndsAfter; omega)) hstop
          exact ⟨_, rfl, hlast⟩
        · obtain ⟨sp, rfl⟩ := isSome_iff_exists.mp (hsp.resolve_right hend)
          have hsplit : lfSplit lf.quiet unlock (some sp) = _ := lfSplit_both hstart hends
          rw [hsplit]
          exact ⟨_, rfl, .split rfl hid hl (hright.resolve_right hends) hstop⟩
    | contained =>
      simp only [hr, map_some]
      exact ⟨_, rfl, .entry (.dropped hid hsides.1 hsides.2) hedits⟩
    | startsBefore =>
      simp only [hr, map_some]
      exact ⟨_, rfl, .entry (.left hid hap hsides.1 hsides.2) hedits⟩
    | endsAfter =>
      have hstop : NoOverlap unlock rest := rest_apart hs hid (by have := hsides.2; unfold EndsAfter at this; omega)
      have hlast : Edits unlock spare (lf :: rest) _ := .last (.right hid hap hsides.1 hsides.2) hstop
      exact ⟨_, rfl, hlast⟩

theorem absorbWalk_edits (hok : RangesOk list) (hs : Sorted list) (hb : AllBehind lock list) :
    ∃ r, absorbWalk lock spare list = some r ∧ Edits lock spare list r := by
  induction list with
  | nil => exact ⟨_, rfl, .stop fun lf hlf => absurd hlf not_mem_nil⟩
  | cons lf rest ih =>
    obtain ⟨r, hr, hedits⟩ := ih (fun e he => hok e (mem_cons_of_mem _ he)) (List.Pairwise.of_cons hs)
      (fun e he => hb e (mem_cons_of_mem _ he))
    have hlf := hok lf mem_cons_self
    rw [absorbWalk]
    by_cases hid : lf.lfId = lock.lfId
    swap
    · rw [if_pos hid, hr]
      exact ⟨_, rfl, .entry (.kept fun h => absurd h hid) hedits⟩
    have hstart := hb lf mem_cons_self hid
    rw [if_neg (not_not.mpr hid)]
    by_cases hap : apart lock lf
    · rw [if_pos hap]
      split
      · next hstop =>
        exact ⟨_, rfl, .stop (noOverlap_beyond hs hid hlf hstop.1 hstop.2)⟩
      · rw [hr]
        exact ⟨_, rfl, .entry (.kept fun _ => hap) hedits⟩
    rw [if_neg hap]
    obtain ⟨c, hc⟩ := isSome_iff_exists.mp (ovcase_isSome hlf hap)
    have hsides := ovcase_sides hc
    rw [hc]
    cases c with
    | equal => omega
    | contains =>
      unfold StartsBefore at hsides
      omega
    | contained =>
      simp only [hr, map_some]
      split
      · exact ⟨_, rfl, .entry (.dropped hid hsides.1 hsides.2) hedits⟩
      · next hd => exact ⟨_, rfl, .entry (.absorbed hid hsides.1 hsides.2 hd) hedits⟩
    | startsBefore =>
      unfold StartsBefore at hsides
      omega
    | endsAfter =>
      have hstop : NoOverlap lock rest := rest_apart hs hid (by have := hsides.2; unfold EndsAfter at this; omega)
      have hlast : Edits lock spare (lf :: rest) _ := .last (.right hid hap hsides.1 hsides.2) hstop
      exact ⟨_, rfl, hlast⟩

theorem link_unmoved {r : Edited} (h : r.moved = []) : r.link lock = {r with list := lock :: r.list} := by
  rw [Edited.link, h, append_nil]

theorem setWalk_sets (hlock : lock.RangeOk) (hsp : spare.isSome ∨ lock.lfEnd = -1) (hok : RangesOk list)
    (hs : Sorted list) : ∃ r, setWalk lock spare list = some r ∧ Sets lock spare list r := by
  induction list with
  | nil =>
    have hlink : Sets lock spare [] _ := .link (fun lf hlf => absurd hlf not_mem_nil)
      (.stop fun lf hlf => absurd hlf not_mem_nil)
    rw [link_unmoved rfl] at hlink
    exact ⟨_, rfl, hlink⟩
  | cons lf rest ih =>
    have hlf := hok lf mem_cons_self
    have hok' : RangesOk rest := fun e he => hok e (mem_cons_of_mem _ he)
    have hs' : Sorted rest := List.Pairwise.of_cons hs
    rw [setWalk]
    by_cases hid : lf.lfId = lock.lfId
    swap
    · obtain ⟨r, hr, hsets⟩ := ih hok' hs'
      rw [if_pos hid, hr]
      exact ⟨_, rfl, .kept (fun h => absurd h hid) hsets⟩
    rw [if_neg (not_not.mpr hid)]
    by_cases hap : apart lock lf
    · rw [if_pos hap]
      split
      · next hstop =>
        have hl : ¬StartsBefore lock lf := by
          unfold Lockf.RangeOk at hlock
          unfold StartsBefore
          omega
        have hlink : Sets lock spare (lf :: rest) _ :=
          .link (noneBefore_cons hs hid hlf hl) (.stop (noOverlap_beyond hs hid hlf hstop.1 hstop.2))
        rw [link_unmoved rfl] at hlink
        exact ⟨_, rfl, hlink⟩
      · next hstop =>
        obtain ⟨r, hr, hsets⟩ := ih hok' hs'
        rw [hr]
        exact ⟨_, rfl, .kept (fun _ => hap.resolve_right hstop) hsets⟩
    rw [if_neg hap]
    -- The lock goes here. What is behind an overlap starts behind the lock's start.
    have hbehind : AllBehind lock rest := rest_behind hs hid fun hb => hap (.inl hb)
    obtain ⟨r, hr, hedits⟩ := @absorbWalk_edits lock spare rest hok' hs' hbehind
    obtain ⟨c, hc⟩ := isSome_iff_exists.mp (ovcase_isSome hlf hap)
    have hsides := ovcase_sides hc
    rw [hc]
    cases c with
    | equal =>
      have hstop : NoOverlap lock rest := rest_apart hs hid (by omega)
      simp only
      split
      · exact ⟨_, rfl, .retype hid hsides.1 hsides.2 (.inl ⟨rfl, rfl⟩) hstop⟩
      · next hd => exact ⟨_, rfl, .retype hid hsides.1 hsides.2 (.inr ⟨rfl, rfl, hd⟩) hstop⟩
    | contains =>
      obtain ⟨hleft, hright, hend⟩ := hsides
      have hstop : NoOverlap lock rest := rest_apart hs hid (by unfold EndsAfter at hright; omega)
      simp only
      split
      · next htype =>
        refine ⟨_, rfl, .inside hid htype ?_⟩
        unfold StartsBefore EndsAfter at *
        unfold Within
        omega
      next htype =>
      split
      · next hstart =>
        have hl : ¬StartsBefore lock lf := by unfold StartsBefore; omega
        have hlast : Edits lock spare (lf :: rest) _ := .last (.right hid hap hl (hleft.resolve_left hl).2) hstop
        have hlink := Sets.link (noneBefore_cons hs hid hlf hl) hlast
        rw [link_unmoved rfl] at hlink
        exact ⟨_, rfl, hlink⟩
      · next hstart =>
        have hl : StartsBefore lock lf := hleft.resolve_right fun h => hstart h.1
        by_cases hends : lf.lfEnd = lock.lfEnd
        · rw [lfSplit_left hstart hends]
          have hset : Sets lock spare (lf :: rest) _ :=
            .left hid hap hl (by unfold EndsAfter; omega) hbehind.noneBefore (.stop hstop)
          rw [link_unmoved rfl] at hset
          simp only [Edited.behind, append_nil] at hset
          exact ⟨_, rfl, hset⟩
        · obtain ⟨sp, rfl⟩ := isSome_iff_exists.mp (hsp.resolve_right hend)
          rw [lfSplit_both hstart hends]
          have hset : Sets lock (some sp) (lf :: rest) _ :=
            .split rfl hid htype hl (hright.resolve_right hends) hstop
          exact ⟨_, rfl, hset⟩
    | contained =>
      have hnone := noneBefore_cons hs hid hlf hsides.1
      simp only [hr, map_some]
      split
      · exact ⟨_, rfl, Sets.link hnone (.entry (.dropped hid hsides.1 hsides.2) hedits)⟩
      · next hd => exact ⟨_, rfl, Sets.link hnone (.entry (.absorbed hid hsides.1 hsides.2 hd) hedits)⟩
    | startsBefore =>
      simp only [hr, map_some]
      exact ⟨_, rfl, .left hid hap hsides.1 hsides.2 hbehind.noneBefore hedits⟩
    | endsAfter =>
      have hstop : NoOverlap lock rest := rest_apart hs hid (by have := hsides.2; unfold EndsAfter at this; omega)
      have hlast : Edits lock spare (lf :: rest) _ := .last (.right hid hap hsides.1 hsides.2) hstop
      have hlink := Sets.link (noneBefore_cons hs hid hlf hsides.1) hlast
      rw [link_unmoved rfl] at hlink
      exact ⟨_, rfl, hlink⟩

theorem clearWalk_moved {r : Edited} (h : clearWalk lock spare list = some r) : r.moved = [] := by
  induction list generalizing r with
  | nil =>
    cases h
    rfl
  | cons lf rest ih =>
    have hrest : ∀ es woken freed, (clearWalk lock spare rest).map (.behind es woken [] freed) = some r → r.moved = [] := by
      intro es woken freed hmap
      obtain ⟨r', hr', rfl⟩ := map_eq_some_iff.mp hmap
      have hmoved : r'.moved = [] := ih hr'
      exact hmoved
    rw [clearWalk] at h
    by_cases hid : lf.lfId ≠ lock.lfId
    · rw [if_pos hid] at h
      exact hrest _ _ _ h
    rw [if_neg hid] at h
    by_cases hap : apart lock lf
    · rw [if_pos hap] at h
      split at h
      · cases h
        rfl
      · exact hrest _ _ _ h
    rw [if_neg hap] at h
    cases hc : ovcase lock lf with
    | none =>
      rw [hc] at h
      cases h
    | some c =>
      rw [hc] at h
      cases c with
      | equal | endsAfter =>
        cases h
        rfl
      | contained | startsBefore => exact hrest _ _ _ h
      | contains =>
        simp only at h
        split at h
        · cases h
          rfl
        · obtain ⟨parts, -, rfl⟩ := map_eq_some_iff.mp h
          rfl

theorem Edits.spare_none {r : Edited} (h : Edits lock spare list r) (hsp : spare = none) : r.spare = none := by
  induction h with
  | stop => exact hsp
  | entry _ _ ih => exact ih
  | split => rfl

theorem Fate.keeps {es freed : List Lockf} {woken moved : List Addr} (hf : Fate lock lf es woken moved freed)
    (hid : lf.lfId ≠ lock.lfId) : es = [lf] := by
  cases hf with
  | kept => rfl
  | left h | right h | dropped h | absorbed h => exact absurd h hid

theorem Edits.keeps {r : Edited} (h : Edits lock spare list r) : ∀ e ∈ list, e.lfId ≠ lock.lfId → e ∈ r.list := by
  induction h with
  | stop =>
    intro e he _
    exact he
  | entry hf _ ih =>
    intro e he hid
    rcases mem_cons.mp he with rfl | he
    · rw [hf.keeps hid]
      exact mem_cons_self
    · exact mem_append_right _ (ih e he hid)
  | split hsp hlf hl hr h =>
    intro e he hid
    rcases mem_cons.mp he with rfl | he
    · exact absurd hlf hid
    · exact mem_cons_of_mem _ (mem_cons_of_mem _ he)

theorem lfGetblock_eq (hok : RangesOk list) (lock : Lockf) : lfGetblock lock list = some (list.find? (Blocks lock)) := by
  refine getblockLoop_eq (Nat.lt_succ_self _) fun lf hlf => ?_
  by_cases hap : apart lock lf
  · exact .inl hap
  · exact .inr (ovcase_isSome (hok lf hlf) hap)

theorem lfSetlockGrant_sets (hlock : lock.RangeOk) (hsp : spare.isSome ∨ lock.lfEnd = -1) (hok : RangesOk list)
    (hs : Sorted list) : ∃ r, lfSetlockGrant lock spare list = some r ∧ Sets lock spare list r := by
  rw [lfSetlockGrant_eq]
  exact setWalk_sets hlock hsp hok hs

theorem lfClearlock_edits (hsp : spare.isSome ∨ lock.lfEnd = -1) (hok : RangesOk list) (hs : Sorted list) :
    ∃ r, lfClearlock lock spare list = some r ∧ Edits lock spare list r ∧ r.moved = [] := by
  rw [lfClearlock_eq]
  obtain ⟨r, hr, hedits⟩ := clearWalk_edits hsp hok hs
  exact ⟨r, hr, hedits, clearWalk_moved hr⟩

end Walks

end NetBSD.Kern.Advlock
