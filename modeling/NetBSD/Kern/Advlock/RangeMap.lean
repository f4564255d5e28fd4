import NetBSD.Kern.Advlock.Edits
import NetBSD.Lib.System

/-! The lock list as a map from owners and offsets to locks.

A list denotes, for each owner, what it has locked and how (`denote`). Granting a lock
overwrites its owner's part of the map on the range of the lock, unlocking erases it
there, and neither touches anything else. Both keep each owner's entries disjoint and in
order, without which `lf_findoverlap` would stop too soon. -/
namespace NetBSD.Kern.Advlock
open List
open Lib

/-- What is locked by `o` at `x`, if anything. -/
def denote (list : List Lockf) (o : Owner) (x : Int) : Option LockType :=
  (list.find? fun lf => lf.lfId = o ∧ lf.Covers x).map Lockf.lfType

/-- An owner's lock of some type covers `x`. -/
def Held (list : List Lockf) (o : Owner) (t : LockType) (x : Int) : Prop :=
  ∃ lf ∈ list, lf.lfId = o ∧ lf.lfType = t ∧ lf.Covers x

section Held
variable {lf : Lockf} {list rest : List Lockf} {o : Owner} {t : LockType} {x : Int}

theorem held_cons : Held (lf :: rest) o t x ↔ (lf.lfId = o ∧ lf.lfType = t ∧ lf.Covers x) ∨ Held rest o t x := by
  constructor
  · intro ⟨e, he, h⟩
    rcases mem_cons.mp he with rfl | he
    · exact .inl h
    · exact .inr ⟨e, he, h⟩
  intro h
  rcases h with h | ⟨e, he, h⟩
  · exact ⟨lf, mem_cons_self, h⟩
  · exact ⟨e, mem_cons_of_mem _ he, h⟩

theorem denote_eq_some_iff (hs : Sorted list) : denote list o x = some t ↔ Held list o t x := by
  unfold denote
  induction list with
  | nil => simp [Held]
  | cons lf rest ih =>
    have hrest := ih (List.Pairwise.of_cons hs)
    rw [find?_cons, held_cons]
    by_cases hlf : lf.lfId = o ∧ lf.Covers x
    · rw [decide_eq_true hlf]
      simp only [Option.map_some, Option.some.injEq]
      constructor
      · intro htype
        exact .inl ⟨hlf.1, htype, hlf.2⟩
      intro h
      rcases h with h | ⟨e, he, hid, -, hcov⟩
      · exact h.2.1
      · have hb := rel_of_pairwise_cons hs he (hlf.1.trans hid.symm)
        exact absurd hcov (hb.not_covers hlf.2)
    · rw [decide_eq_false hlf, hrest]
      constructor
      · intro h
        exact .inr h
      · intro h
        exact h.resolve_left fun h => hlf ⟨h.1, h.2.2⟩

theorem denote_eq_of_held (hs : Sorted list) {f : Option LockType} (h : ∀ t, Held list o t x ↔ f = some t) : denote list o x = f := by
  apply Option.ext
  intro t
  rw [denote_eq_some_iff hs, h t]

end Held

/-! ### Parts -/

/-- Both ends are at most `n`, as far as they are numbers. -/
def Fits (n : Int) (lf : Lockf) : Prop := lf.lfStart ≤ n + 1 ∧ lf.lfEnd ≤ n

/-- `p` is of the same owner and type as `lf`, and lies within it. -/
structure Part (lock lf p : Lockf) : Prop where
  id : p.lfId = lf.lfId
  type : p.lfType = lf.lfType
  within : Within p lf
  ok : p.RangeOk
  fits : ∀ n, Fits n lock → Fits n lf → Fits n p

section Parts
variable {lock lf p : Lockf} {spare : Option Lockf} {list es freed : List Lockf} {woken moved : List Addr} {r : Edited}

theorem part_refl (hlf : lf.RangeOk) : Part lock lf lf := ⟨rfl, rfl, within_refl lf, hlf, fun _ _ h => h⟩

theorem part_left (hlf : lf.RangeOk) (hap : ¬Before lf lock) (hl : StartsBefore lock lf) : Part lock lf (lock.left lf) := by
  unfold StartsBefore at hl
  unfold Lockf.RangeOk at hlf
  unfold Before at hap
  refine ⟨rfl, rfl, ?_, ?_, fun n hn hlfn => ?_⟩
  · simp only [Within, Lockf.left, Lockf.quiet]
    omega
  · simp only [Lockf.RangeOk, Lockf.left, Lockf.quiet]
    omega
  · simp only [Fits, Lockf.left, Lockf.quiet] at *
    omega

theorem part_right (hlf : lf.RangeOk) (hap : ¬apart lock lf) (hr : EndsAfter lock lf) : Part lock lf (lock.right lf) := by
  unfold EndsAfter at hr
  unfold Lockf.RangeOk at hlf
  unfold apart at hap
  refine ⟨rfl, rfl, ?_, ?_, fun n hn hlfn => ?_⟩
  · simp only [Within, Lockf.right, Lockf.quiet]
    omega
  · simp only [Lockf.RangeOk, Lockf.right, Lockf.quiet]
    omega
  · simp only [Fits, Lockf.right, Lockf.quiet] at *
    omega

theorem Part.addr (h : Part lock lf p) (a : Addr) : Part lock lf {p with addr := a} := ⟨h.id, h.type, h.within, h.ok, h.fits⟩

theorem not_apart_of_sides (hlock : lock.RangeOk) (hl : StartsBefore lock lf) (hr : EndsAfter lock lf) : ¬apart lock lf := by
  unfold StartsBefore at hl
  unfold EndsAfter at hr
  unfold Lockf.RangeOk at hlock
  unfold apart
  omega

theorem not_before_of_not_apart (h : ¬apart lock lf) : ¬Before lf lock := fun hb => h (.inl hb)

theorem apart_left (hlf : lf.RangeOk) (hl : StartsBefore lock lf) : apart lock (lock.left lf) := by
  unfold StartsBefore at hl
  unfold Lockf.RangeOk at hlf
  simp only [apart, Lockf.left, Lockf.quiet]
  omega

theorem apart_right (hr : EndsAfter lock lf) : apart lock (lock.right lf) := by
  unfold EndsAfter at hr
  simp only [apart, Lockf.right, Lockf.quiet]
  omega

theorem Fate.part (hf : Fate lock lf es woken moved freed) (hlf : lf.RangeOk) :
    ∀ p ∈ es, Part lock lf p ∧ (p.lfId = lock.lfId → apart lock p) := by
  intro p hp
  cases hf with
  | kept h =>
    rw [mem_singleton.mp hp]
    exact ⟨part_refl hlf, h⟩
  | left hid hap hl hr =>
    rw [mem_singleton.mp hp]
    exact ⟨part_left hlf (not_before_of_not_apart hap) hl, fun _ => apart_left hlf hl⟩
  | right hid hap hl hr =>
    rw [mem_singleton.mp hp]
    exact ⟨part_right hlf hap hr, fun _ => apart_right hr⟩
  | dropped hid hl hr => exact absurd hp not_mem_nil
  | absorbed hid hl hr hd => exact absurd hp not_mem_nil

theorem Edits.part (h : Edits lock spare list r) (hlock : lock.RangeOk) (hok : RangesOk list) :
    ∀ p ∈ r.list, (∃ lf ∈ list, Part lock lf p) ∧ (p.lfId = lock.lfId → apart lock p) := by
  induction h with
  | stop h =>
    intro p hp
    exact ⟨⟨p, hp, part_refl (hok p hp)⟩, h p hp⟩
  | entry hf _ ih =>
    intro p hp
    rcases mem_append.mp hp with hp | hp
    · obtain ⟨hpart, hap⟩ := hf.part (hok _ mem_cons_self) p hp
      exact ⟨⟨_, mem_cons_self, hpart⟩, hap⟩
    · obtain ⟨⟨lf, hlf, hpart⟩, hap⟩ := ih (fun e he => hok e (mem_cons_of_mem _ he)) p hp
      exact ⟨⟨lf, mem_cons_of_mem _ hlf, hpart⟩, hap⟩
  | @split lf sp rest hsp hid hl hr h =>
    intro p hp
    have hlf := hok lf mem_cons_self
    have hap := not_apart_of_sides hlock hl hr
    rcases mem_cons.mp hp with rfl | hp
    · exact ⟨⟨lf, mem_cons_self, part_left hlf (not_before_of_not_apart hap) hl⟩, fun _ => apart_left hlf hl⟩
    rcases mem_cons.mp hp with rfl | hp
    · exact ⟨⟨lf, mem_cons_self, (part_right hlf hap hr).addr _⟩, fun _ => apart_right hr⟩
    · exact ⟨⟨p, mem_cons_of_mem _ hp, part_refl (hok p (mem_cons_of_mem _ hp))⟩, h p hp⟩

/-- What a grant leaves are parts of what was there, and the lock. -/
theorem Sets.part (h : Sets lock spare list r) (hlock : lock.RangeOk) (hok : RangesOk list) :
    ∀ p ∈ r.list, (∃ lf ∈ list, Part lock lf p) ∨ Part lock lock p := by
  have hself : ∀ ws, Part lock lock {lock with lfBlkhd := ws} := fun ws =>
    ⟨rfl, rfl, within_refl lock, hlock, fun _ h _ => h⟩
  induction h with
  | link _ hr =>
    intro p hp
    rcases mem_cons.mp hp with rfl | hp
    · exact .inr (hself _)
    · exact .inl (hr.part hlock hok p hp).1
  | @kept lf rest r _ _ ih =>
    intro p hp
    rcases mem_cons.mp hp with rfl | hp
    · exact .inl ⟨p, mem_cons_self, part_refl (hok p mem_cons_self)⟩
    rcases ih (fun e he => hok e (mem_cons_of_mem _ he)) p hp with ⟨lf, hlf, hpart⟩ | hpart
    · exact .inl ⟨lf, mem_cons_of_mem _ hlf, hpart⟩
    · exact .inr hpart
  | @left lf rest r hid hap hl hr hb he =>
    intro p hp
    have hlf := hok lf mem_cons_self
    rcases mem_cons.mp hp with rfl | hp
    · exact .inl ⟨lf, mem_cons_self, part_left hlf (not_before_of_not_apart hap) hl⟩
    rcases mem_cons.mp hp with rfl | hp
    · exact .inr (hself _)
    · obtain ⟨⟨lf', hlf', hpart⟩, -⟩ := he.part hlock (fun e he => hok e (mem_cons_of_mem _ he)) p hp
      exact .inl ⟨lf', mem_cons_of_mem _ hlf', hpart⟩
  | @split lf sp rest hsp hid htype hl hr h =>
    intro p hp
    have hlf := hok lf mem_cons_self
    have hap := not_apart_of_sides hlock hl hr
    rcases mem_cons.mp hp with rfl | hp
    · exact .inl ⟨lf, mem_cons_self, part_left hlf (not_before_of_not_apart hap) hl⟩
    rcases mem_cons.mp hp with rfl | hp
    · exact .inr (hself _)
    rcases mem_cons.mp hp with rfl | hp
    · exact .inl ⟨lf, mem_cons_self, (part_right hlf hap hr).addr _⟩
    · exact .inl ⟨p, mem_cons_of_mem _ hp, part_refl (hok p (mem_cons_of_mem _ hp))⟩
  | @retype lf rest ws woken hid hs he hw h =>
    intro p hp
    rcases mem_cons.mp hp with rfl | hp
    · refine .inr ⟨hid, rfl, ?_, ?_, ?_⟩
      · simp only [Within, hs, he]
        omega
      · simpa only [Lockf.RangeOk, hs, he] using hlock
      · intro n hn _
        simpa only [Fits, hs, he] using hn
    · exact .inl ⟨p, mem_cons_of_mem _ hp, part_refl (hok p (mem_cons_of_mem _ hp))⟩
  | inside =>
    intro p hp
    exact .inl ⟨p, hp, part_refl (hok p hp)⟩

end Parts

/-! ### Order -/

section Order
variable {lock lf p q sp : Lockf} {spare : Option Lockf} {list rest : List Lockf} {r : Edited}

theorem before_edits (hs : Sorted (lf :: rest)) (hp : Part lock lf p) (hr : Edits lock spare rest r)
    (hlock : lock.RangeOk) (hok : RangesOk rest) : ∀ q ∈ r.list, p.lfId = q.lfId → Before p q := by
  intro q hq hid
  obtain ⟨⟨lf', hlf', hpart⟩, -⟩ := hr.part hlock hok q hq
  have hb := rel_of_pairwise_cons hs hlf' (by rw [← hp.id, hid, hpart.id])
  exact hb.within hp.within hpart.within

theorem before_rest (hs : Sorted (lf :: rest)) (hp : Part lock lf p) : ∀ q ∈ rest, p.lfId = q.lfId → Before p q := by
  intro q hq hid
  exact (rel_of_pairwise_cons hs hq (hp.id.symm.trans hid)).within hp.within (within_refl q)

theorem before_of_apart (hq : q.RangeOk) (hstart : lock.lfStart ≤ q.lfStart) (hap : apart lock q) : Before lock q := by
  unfold Lockf.RangeOk at hq
  unfold apart at hap
  unfold Before
  omega

theorem left_before (hlf : lf.RangeOk) (hl : StartsBefore lock lf) : Before (lock.left lf) lock := by
  unfold Lockf.RangeOk at hlf
  unfold StartsBefore at hl
  simp only [Before, Lockf.left, Lockf.quiet]
  omega

/-- What an edit leaves of the owner's entries, none of which starts before the lock, is behind it. -/
theorem lock_before_edits (h : Edits lock spare list r) (hlock : lock.RangeOk) (hok : RangesOk list)
    (hnone : NoneBefore lock list) : ∀ q ∈ r.list, lock.lfId = q.lfId → Before lock q := by
  intro q hq hid
  obtain ⟨⟨lf, hlf, hpart⟩, hap⟩ := h.part hlock hok q hq
  have hstart := hnone lf hlf (by rw [← hpart.id, hid])
  have hwithin := hpart.within.1
  refine before_of_apart hpart.ok ?_ (hap hid.symm)
  unfold StartsBefore at hstart
  omega

theorem lock_before_splitRight (hr : EndsAfter lock lf) : Before lock (lock.splitRight lf sp) := by
  unfold EndsAfter at hr
  simp only [Before, Lockf.splitRight, Lockf.right, Lockf.quiet]
  omega

theorem Before.trans {a b c : Lockf} (hab : Before a b) (hbc : Before b c) (hb : b.RangeOk) : Before a c := by
  unfold Before Lockf.RangeOk at *
  omega

section
variable (h : Edits lock spare list r) (hlock : lock.RangeOk) (hok : RangesOk list) (hs : Sorted list)
include h hlock hok hs

theorem Edits.sorted : Sorted r.list := by
  induction h with
  | stop _ => exact hs
  | @entry lf rest es freed woken moved r hf hr ih =>
    have hok' : RangesOk rest := fun e he => hok e (mem_cons_of_mem _ he)
    have hes : es.Pairwise fun a b => a.lfId = b.lfId → Before a b := by
      cases hf with
      | dropped => exact List.Pairwise.nil
      | absorbed => exact List.Pairwise.nil
      | _ => exact pairwise_singleton _ _
    refine pairwise_append.mpr ⟨hes, ih hok' (List.Pairwise.of_cons hs), ?_⟩
    intro p hp q hq
    exact before_edits hs (hf.part (hok _ mem_cons_self) p hp).1 hr hlock hok' q hq
  | @split lf sp rest hsp hid hl hr h =>
    have hlf := hok lf mem_cons_self
    have hap := not_apart_of_sides hlock hl hr
    have hleft := part_left hlf (not_before_of_not_apart hap) hl
    have hright : Part lock lf (lock.splitRight lf sp) := (part_right hlf hap hr).addr _
    refine pairwise_cons.mpr ⟨fun q hq => ?_, pairwise_cons.mpr ⟨before_rest hs hright, List.Pairwise.of_cons hs⟩⟩
    rcases mem_cons.mp hq with rfl | hq
    · intro _
      exact (left_before hlf hl).trans (lock_before_splitRight hr) hlock
    · exact before_rest hs hleft q hq

theorem sorted_link (hnone : NoneBefore lock list) : Sorted (r.link lock).list := by
  have hb := lock_before_edits h hlock hok hnone
  exact pairwise_cons.mpr ⟨hb, h.sorted hlock hok hs⟩

end

theorem Sets.sorted (h : Sets lock spare list r) (hlock : lock.RangeOk) (hok : RangesOk list) (hs : Sorted list) : Sorted r.list := by
  induction h with
  | link hnone hr => exact sorted_link hr hlock hok hs hnone
  | @kept lf rest r hb hr ih =>
    have hok' : RangesOk rest := fun e he => hok e (mem_cons_of_mem _ he)
    refine pairwise_cons.mpr ⟨fun q hq hid => ?_, ih hok' (List.Pairwise.of_cons hs)⟩
    rcases hr.part hlock hok' q hq with ⟨lf', hlf', hpart⟩ | hpart
    · exact (rel_of_pairwise_cons hs hlf' (hid.trans hpart.id)).within (within_refl lf) hpart.within
    · exact (hb (hid.trans hpart.id)).within (within_refl lf) hpart.within
  | @left lf rest r hid hap hl hr hnone he =>
    have hok' : RangesOk rest := fun e he => hok e (mem_cons_of_mem _ he)
    have hlf := hok lf mem_cons_self
    have hleft := part_left hlf (not_before_of_not_apart hap) hl
    refine pairwise_cons.mpr ⟨fun q hq => ?_, sorted_link he hlock hok' (List.Pairwise.of_cons hs) hnone⟩
    rcases mem_cons.mp hq with rfl | hq
    · intro _
      exact left_before hlf hl
    · exact before_edits hs hleft he hlock hok' q hq
  | @split lf sp rest hsp hid htype hl hr h =>
    have hlf := hok lf mem_cons_self
    have hap := not_apart_of_sides hlock hl hr
    have hleft := part_left hlf (not_before_of_not_apart hap) hl
    have hright : Part lock lf (lock.splitRight lf sp) := (part_right hlf hap hr).addr _
    refine pairwise_cons.mpr ⟨fun q hq => ?_, pairwise_cons.mpr ⟨fun q hq => ?_,
      pairwise_cons.mpr ⟨before_rest hs hright, List.Pairwise.of_cons hs⟩⟩⟩
    · rcases mem_cons.mp hq with rfl | hq
      · intro _
        exact left_before hlf hl
      rcases mem_cons.mp hq with rfl | hq
      · intro _
        exact (left_before hlf hl).trans (lock_before_splitRight hr) hlock
      · exact before_rest hs hleft q hq
    rcases mem_cons.mp hq with rfl | hq
    · intro _
      exact lock_before_splitRight hr
    intro hqid
    have hqok := hok q (mem_cons_of_mem _ hq)
    have hb := rel_of_pairwise_cons hs hq (hid.trans hqid)
    refine before_of_apart hqok ?_ (h q hq hqid.symm)
    have := hap
    unfold apart at this
    unfold Before at hb
    omega
  | @retype lf rest ws woken hid hstart hend hw h =>
    refine pairwise_cons.mpr ⟨fun q hq hqid => ?_, List.Pairwise.of_cons hs⟩
    exact rel_of_pairwise_cons hs hq hqid
  | inside => exact hs

end Order

/-! ### The map -/

section Map
variable {lock lf : Lockf} {spare : Option Lockf} {list rest es freed : List Lockf} {woken moved : List Addr}
  {r : Edited} {o : Owner} {t : LockType} {x : Int}

theorem left_covers (hlf : lf.Covers x) (hl : x < lock.lfStart) : (lock.left lf).Covers x := by
  unfold Lockf.Covers at hlf
  simp only [Lockf.Covers, Lockf.left, Lockf.quiet]
  omega

theorem right_covers (hlf : lf.Covers x) (hend : lock.lfEnd ≠ -1) (hr : lock.lfEnd < x) : (lock.right lf).Covers x := by
  unfold Lockf.Covers at hlf
  simp only [Lockf.Covers, Lockf.right, Lockf.quiet]
  omega

theorem Fate.covers (hf : Fate lock lf es woken moved freed) (hx : lf.Covers x) (hlock : lf.lfId = lock.lfId → ¬lock.Covers x) :
    ∃ p ∈ es, p.lfId = lf.lfId ∧ p.lfType = lf.lfType ∧ p.Covers x := by
  cases hf with
  | kept h => exact ⟨lf, mem_singleton_self _, rfl, rfl, hx⟩
  | left hid hap hl hr =>
    refine ⟨lock.left lf, mem_singleton_self _, rfl, rfl, left_covers hx ?_⟩
    have hnot := hlock hid
    unfold Lockf.Covers at hnot hx
    unfold EndsAfter at hr
    omega
  | right hid hap hl hr =>
    refine ⟨lock.right lf, mem_singleton_self _, rfl, rfl, right_covers hx hr.1 ?_⟩
    have hnot := hlock hid
    unfold Lockf.Covers at hnot hx
    unfold StartsBefore at hl
    omega
  | dropped hid hl hr =>
    have hnot := hlock hid
    unfold Lockf.Covers at hnot hx
    unfold StartsBefore at hl
    unfold EndsAfter at hr
    omega
  | absorbed hid hl hr hd =>
    have hnot := hlock hid
    unfold Lockf.Covers at hnot hx
    unfold StartsBefore at hl
    unfold EndsAfter at hr
    omega

theorem split_covers (sp : Lockf) (hx : lf.Covers x) (hend : lock.lfEnd ≠ -1) (hnot : ¬lock.Covers x) :
    (lock.left lf).Covers x ∨ (lock.splitRight lf sp).Covers x := by
  by_cases hl : x < lock.lfStart
  · exact .inl (left_covers hx hl)
  refine .inr (right_covers hx hend ?_)
  unfold Lockf.Covers at hnot
  omega

theorem Edits.covers (h : Edits lock spare list r) : ∀ lf ∈ list, lf.Covers x →
    (lf.lfId = lock.lfId → ¬lock.Covers x) → Held r.list lf.lfId lf.lfType x := by
  induction h with
  | stop h =>
    intro lf hlf hx _
    exact ⟨lf, hlf, rfl, rfl, hx⟩
  | entry hf _ ih =>
    intro lf hlf hx hlock
    rcases mem_cons.mp hlf with rfl | hlf
    · obtain ⟨p, hp, hpart⟩ := hf.covers hx hlock
      exact ⟨p, mem_append_left _ hp, hpart⟩
    · obtain ⟨p, hp, hpart⟩ := ih lf hlf hx hlock
      exact ⟨p, mem_append_right _ hp, hpart⟩
  | @split lf sp rest hsp hid hl hr h =>
    intro e he hx hlock
    rcases mem_cons.mp he with rfl | he
    · rcases split_covers sp hx hr.1 (hlock hid) with hcov | hcov
      · exact ⟨_, mem_cons_self, rfl, rfl, hcov⟩
      · exact ⟨_, mem_cons_of_mem _ mem_cons_self, rfl, rfl, hcov⟩
    · exact ⟨e, mem_cons_of_mem _ (mem_cons_of_mem _ he), rfl, rfl, hx⟩

theorem Edits.held (h : Edits lock spare list r) (hlock : lock.RangeOk) (hok : RangesOk list) :
    Held r.list o t x ↔ Held list o t x ∧ ¬(o = lock.lfId ∧ lock.Covers x) := by
  constructor
  · intro ⟨p, hp, hid, htype, hx⟩
    obtain ⟨⟨lf, hlf, hpart⟩, hap⟩ := h.part hlock hok p hp
    refine ⟨⟨lf, hlf, by rw [← hpart.id, hid], by rw [← hpart.type, htype], hpart.within.covers hx⟩, ?_⟩
    intro ⟨ho, hcov⟩
    exact (apart_iff hlock hpart.ok).mp (hap (hid.trans ho)) x hx hcov
  · intro ⟨⟨lf, hlf, hid, htype, hx⟩, hnot⟩
    have hleft := h.covers lf hlf hx fun hown hcov => hnot ⟨hid.symm.trans hown, hcov⟩
    rwa [hid, htype] at hleft

/-- What a map has after `lock` was written over it. -/
def Overwritten (list : List Lockf) (lock : Lockf) (o : Owner) (t : LockType) (x : Int) : Prop :=
  (o = lock.lfId ∧ lock.Covers x ∧ t = lock.lfType) ∨ (Held list o t x ∧ ¬(o = lock.lfId ∧ lock.Covers x))

theorem Edits.held_insert (h : Edits lock spare list r) (hlock : lock.RangeOk) (hok : RangesOk list) {e : Lockf}
    (hid : e.lfId = lock.lfId) (htype : e.lfType = lock.lfType) (hcov : e.Covers x ↔ lock.Covers x)
    {list' : List Lockf} (hmem : ∀ p, p ∈ list' ↔ p = e ∨ p ∈ r.list) :
    Held list' o t x ↔ Overwritten list lock o t x := by
  have hlist : Held list' o t x ↔ (e.lfId = o ∧ e.lfType = t ∧ e.Covers x) ∨ Held r.list o t x := by
    unfold Held
    simp [hmem, mem_cons]
  rw [hlist, h.held hlock hok, hid, htype, hcov]
  constructor
  · intro hheld
    rcases hheld with ⟨ho, ht, hx⟩ | hheld
    · exact .inl ⟨ho.symm, hx, ht.symm⟩
    · exact .inr hheld
  intro hheld
  rcases hheld with ⟨ho, hx, ht⟩ | hheld
  · exact .inl ⟨ho.symm, ht.symm, hx⟩
  · exact .inr hheld

/-- A grant overwrites its owner's part of the map on the range of the lock. -/
theorem Sets.held (h : Sets lock spare list r) (hlock : lock.RangeOk) (hok : RangesOk list) (hs : Sorted list) :
    Held r.list o t x ↔ Overwritten list lock o t x := by
  induction h with
  | @link list r hnone hr =>
    exact hr.held_insert hlock hok (e := {lock with lfBlkhd := lock.lfBlkhd ++ r.moved}) rfl rfl Iff.rfl
      fun p => mem_cons
  | @kept lf rest r hb hr ih =>
    have hrest := ih (fun e he => hok e (mem_cons_of_mem _ he)) (List.Pairwise.of_cons hs)
    have hlf : lf.lfId = o → lf.Covers x → ¬(o = lock.lfId ∧ lock.Covers x) := by
      intro hid hx hlk
      exact (hb (hid.trans hlk.1)).not_covers hx hlk.2
    show Held (lf :: r.list) o t x ↔ _
    rw [held_cons, hrest]
    unfold Overwritten
    rw [held_cons]
    constructor
    · intro h
      rcases h with ⟨hid, htype, hx⟩ | hnew | ⟨hheld, hnot⟩
      · exact .inr ⟨.inl ⟨hid, htype, hx⟩, hlf hid hx⟩
      · exact .inl hnew
      · exact .inr ⟨.inr hheld, hnot⟩
    intro h
    rcases h with hnew | ⟨hhere | hheld, hnot⟩
    · exact .inr (.inl hnew)
    · exact .inl hhere
    · exact .inr (.inr ⟨hheld, hnot⟩)
  | @left lf rest r hid hap hl hr hnone he =>
    have hedit : Edits lock spare (lf :: rest) (r.behind [lock.left lf] lf.lfBlkhd [] []) :=
      .entry (.left hid hap hl hr) he
    refine hedit.held_insert hlock hok (e := {lock with lfBlkhd := lock.lfBlkhd ++ r.moved}) rfl rfl Iff.rfl
      fun p => ?_
    simp only [Edited.behind, Edited.link, singleton_append, mem_cons]
    exact or_left_comm
  | @split lf sp rest hsp hid htype hl hr h =>
    have hedit : Edits lock spare (lf :: rest) _ := .split hsp hid hl hr h
    refine hedit.held_insert hlock hok (e := lock) rfl rfl Iff.rfl fun p => ?_
    simp only [mem_cons]
    exact or_left_comm
  | @retype lf rest ws woken hid hstart hend hw h =>
    have hedit : Edits lock spare (lf :: rest) _ :=
      .last (.dropped hid (by unfold StartsBefore; omega) (by unfold EndsAfter; omega)) h
    refine hedit.held_insert hlock hok (e := {lf with lfType := lock.lfType, lfBlkhd := ws}) hid rfl ?_
      fun p => mem_cons
    simp [Lockf.Covers, hstart, hend]
  | @inside lf rest hid htype hw =>
    by_cases hlk : o = lock.lfId ∧ lock.Covers x
    · -- The entry covers what the lock covers, and nothing behind it does.
      have hx := hw.covers hlk.2
      constructor
      · intro hheld
        obtain ⟨e, he, heid, hetype, hex⟩ := hheld
        rcases mem_cons.mp he with rfl | he
        · exact .inl ⟨hlk.1, hlk.2, by rw [← hetype, htype]⟩
        · have hb := rel_of_pairwise_cons hs he (by rw [hid, ← hlk.1, heid])
          exact absurd hex (hb.not_covers hx)
      · intro hheld
        rcases hheld with ⟨ho, -, ht⟩ | hheld
        · exact ⟨lf, mem_cons_self, by rw [hid, ho], by rw [htype, ht], hx⟩
        · exact absurd hlk hheld.2
    · constructor
      · intro hheld
        exact .inr ⟨hheld, hlk⟩
      intro hheld
      rcases hheld with ⟨ho, hcov, -⟩ | hheld
      · exact absurd ⟨ho, hcov⟩ hlk
      · exact hheld.1

end Map

section Denote
variable {lock : Lockf} {spare : Option Lockf} {list : List Lockf} {r : Edited}

theorem Edits.denote (h : Edits lock spare list r) (hlock : lock.RangeOk) (hok : RangesOk list) (hs : Sorted list) (o : Owner) (x : Int) :
    denote r.list o x = if o = lock.lfId ∧ lock.Covers x then none else denote list o x := by
  refine denote_eq_of_held (h.sorted hlock hok hs) fun t => ?_
  rw [h.held hlock hok]
  split
  · next hin => simp [hin]
  · next hout => rw [denote_eq_some_iff hs, and_iff_left hout]

theorem Sets.denote (h : Sets lock spare list r) (hlock : lock.RangeOk) (hok : RangesOk list) (hs : Sorted list) (o : Owner) (x : Int) :
    denote r.list o x = if o = lock.lfId ∧ lock.Covers x then some lock.lfType else denote list o x := by
  refine denote_eq_of_held (h.sorted hlock hok hs) fun t => ?_
  rw [h.held hlock hok hs, Overwritten]
  split
  · next hin => simp [hin, eq_comm]
  · next hout =>
    rw [denote_eq_some_iff hs, and_iff_left hout, or_iff_right]
    intro hin
    exact hout ⟨hin.1, hin.2.1⟩

end Denote

/-! ### Lists reached -/

/-- The most an `off_t` end can be: `lf_advlock` forms it as `start + l_len - 1`. -/
def maxEnd : Int := 2 ^ 63 - 2

/-- What `lf_advlock` passes on for a byte-range request. -/
structure PosixRequest (lock : Lockf) : Prop where
  range : lock.RangeOk
  fits : Fits maxEnd lock
  owner : ∃ p, lock.lfId = .proc p
  fresh : lock.lfBlkhd = []

/-- An operation on the list; `sp` is the spare structure. -/
inductive ListAct where
  | setlock (lock sp : Lockf)
  | clearlock (unlock sp : Lockf)
  /-- Requests come to wait on an entry, or give up. -/
  | queue (b : Addr) (waiters : List Addr)

/-- A list and whether the kernel has panicked. -/
structure Table where
  list : List Lockf
  panicked : Bool

/-- The table after an operation. -/
def Table.edit (s : Table) : Option Edited → Table
  | some r => {s with list := r.list}
  | none => {s with panicked := true}

def Table.next (s : Table) : ListAct → Option Table
  | .setlock lock sp => match lfGetblock lock s.list with
    | none => some {s with panicked := true}
    | some none => some (s.edit (lfSetlockGrant lock (some sp) s.list))
    -- The request waits or fails, and the list stays as it is.
    | some (some _) => some s
  | .clearlock unlock sp => some (s.edit (lfClearlock unlock (some sp) s.list))
  | .queue b waiters => some {s with list := requeue b (fun _ => waiters) s.list}

def tableSystem : System Table ListAct := .ofStep (fun s => s = ⟨[], false⟩) Table.next

/-- Every request is one for a byte range, and a lock is asked for to read or to write. -/
def PosixAct (_ : Table) : ListAct → Prop
  | .setlock lock _ => PosixRequest lock ∧ lock.lfType ≠ .unlck
  | .clearlock unlock _ => PosixRequest unlock
  | .queue _ _ => True

/-- What holds of every list reached. The numbers of an entry are those of an `off_t`, so
that none of the arithmetic overflows. -/
structure TableOk (s : Table) : Prop where
  ranges : RangesOk s.list
  sorted : Sorted s.list
  fits : ∀ lf ∈ s.list, Fits maxEnd lf
  running : s.panicked = false

section Reached
variable {s : Table} {lock sp : Lockf}

theorem setlock_ok (h : TableOk s) (hrange : lock.RangeOk) (hfits : Fits maxEnd lock) (sp : Lockf) :
    TableOk (s.edit (lfSetlockGrant lock (some sp) s.list)) := by
  obtain ⟨r, hr, hsets⟩ := @lfSetlockGrant_sets lock (some sp) _ hrange (.inl rfl) h.ranges h.sorted
  have hpart := hsets.part hrange h.ranges
  rw [hr]
  refine ⟨fun p hp => ?_, hsets.sorted hrange h.ranges h.sorted, fun p hp => ?_, h.running⟩
  · rcases hpart p hp with ⟨lf, hlf, hp⟩ | hp
    · exact hp.ok
    · exact hp.ok
  · rcases hpart p hp with ⟨lf, hlf, hp⟩ | hp
    · exact hp.fits _ hfits (h.fits lf hlf)
    · exact hp.fits _ hfits hfits

theorem clearlock_ok (h : TableOk s) (hrange : lock.RangeOk) (hfits : Fits maxEnd lock) (sp : Lockf) :
    TableOk (s.edit (lfClearlock lock (some sp) s.list)) := by
  obtain ⟨r, hr, hedits, -⟩ := @lfClearlock_edits lock (some sp) _ (.inl rfl) h.ranges h.sorted
  have hpart := hedits.part hrange h.ranges
  rw [hr]
  refine ⟨fun p hp => ?_, hedits.sorted hrange h.ranges h.sorted, fun p hp => ?_, h.running⟩
  · obtain ⟨⟨lf, hlf, hp⟩, -⟩ := hpart p hp
    exact hp.ok
  · obtain ⟨⟨lf, hlf, hp⟩, -⟩ := hpart p hp
    exact hp.fits _ hfits (h.fits lf hlf)

theorem part_requeue {b : Addr} {f : List Addr → List Addr} {list : List Lockf} (hok : RangesOk list) :
    ∀ p ∈ requeue b f list, ∃ lf ∈ list, Part p lf p := by
  intro p hp
  obtain ⟨lf, hlf, rfl⟩ := mem_map.mp hp
  refine ⟨lf, hlf, ?_⟩
  split
  · exact ⟨rfl, rfl, within_refl lf, hok lf hlf, fun _ h _ => h⟩
  · exact part_refl (hok lf hlf)

theorem sorted_requeue {b : Addr} {f : List Addr → List Addr} {list : List Lockf} (hs : Sorted list) : Sorted (requeue b f list) := by
  refine pairwise_map.mpr (hs.imp ?_)
  intro a c h
  split <;> split <;> exact h

theorem queue_ok (h : TableOk s) (b : Addr) (waiters : List Addr) : TableOk {s with list := requeue b (fun _ => waiters) s.list} := by
  have hsorted : Sorted (requeue b (fun _ => waiters) s.list) := sorted_requeue h.sorted
  have hparts : ∀ p ∈ requeue b (fun _ => waiters) s.list, _ := part_requeue h.ranges
  refine ⟨fun p hp => ?_, hsorted, fun p hp => ?_, h.running⟩
  · obtain ⟨lf, hlf, hpart⟩ := hparts p hp
    exact hpart.ok
  obtain ⟨lf, hlf, rfl⟩ := mem_map.mp hp
  have := h.fits lf hlf
  split <;> exact this

/-- An operation for a range that fits. -/
def ActFits : ListAct → Prop
  | .setlock lock _ | .clearlock lock _ => lock.RangeOk ∧ Fits maxEnd lock
  | .queue _ _ => True

theorem table_ok_of {ok : Table → ListAct → Prop} (hok : ∀ s a, ok s a → ActFits a) (h : tableSystem.Reach ok s) : TableOk s := by
  refine System.Reach.invariant ?_ ?_ h
  · intro s hs
    subst hs
    exact ⟨fun lf hlf => absurd hlf not_mem_nil, List.Pairwise.nil, fun lf hlf => absurd hlf not_mem_nil, rfl⟩
  intro s a s' hinv hact hstep
  have hfits := hok s a hact
  cases a with
  | setlock lock sp =>
    simp only [tableSystem, System.ofStep, Table.next, lfGetblock_eq hinv.ranges] at hstep
    split at hstep
    · exact absurd ‹_› (Option.some_ne_none _)
    · cases hstep
      exact setlock_ok hinv hfits.1 hfits.2 sp
    · cases hstep
      exact hinv
  | clearlock unlock sp =>
    cases hstep
    exact clearlock_ok hinv hfits.1 hfits.2 sp
  | queue b waiters =>
    cases hstep
    exact queue_ok hinv b waiters

theorem table_ok (h : tableSystem.Reach PosixAct s) : TableOk s := by
  refine table_ok_of (fun s a ha => ?_) h
  cases a with
  | setlock lock sp => exact ⟨ha.1.range, ha.1.fits⟩
  | clearlock unlock sp => exact ⟨ha.range, ha.fits⟩
  | queue b waiters => trivial

/-- The list is the range map of its owners: in every list reached, a lock that nothing
blocks is granted and changes its owner's part on its range to its type, unlocking
erases that range, nothing else changes, and each owner's entries are disjoint and in
order, so that `lf_findoverlap` never panics. -/
theorem lock_list_is_range_map (h : tableSystem.Reach PosixAct s) :
    (∀ o, (s.list.filter fun lf => lf.lfId = o).Pairwise Before) ∧ s.panicked = false ∧
    (∀ lock sp, PosixRequest lock → (∃ block, lfGetblock lock s.list = some block) ∧
      (lfGetblock lock s.list = some none → ∃ r, lfSetlockGrant lock (some sp) s.list = some r ∧
        ∀ o x, denote r.list o x = if o = lock.lfId ∧ lock.Covers x then some lock.lfType else denote s.list o x)) ∧
    (∀ unlock sp, PosixRequest unlock → ∃ r, lfClearlock unlock (some sp) s.list = some r ∧
      ∀ o x, denote r.list o x = if o = unlock.lfId ∧ unlock.Covers x then none else denote s.list o x) := by
  have hok := table_ok h
  refine ⟨fun o => ?_, hok.running, fun lock sp hreq => ⟨⟨_, lfGetblock_eq hok.ranges lock⟩, fun _ => ?_⟩,
    fun unlock sp hreq => ?_⟩
  · refine pairwise_filter.mpr (hok.sorted.imp ?_)
    intro a b hab ha hb
    exact hab ((of_decide_eq_true ha).trans (of_decide_eq_true hb).symm)
  · obtain ⟨r, hr, hsets⟩ := @lfSetlockGrant_sets lock (some sp) _ hreq.range (.inl rfl) hok.ranges hok.sorted
    exact ⟨r, hr, hsets.denote hreq.range hok.ranges hok.sorted⟩
  · obtain ⟨r, hr, hedits, -⟩ := @lfClearlock_edits unlock (some sp) _ (.inl rfl) hok.ranges hok.sorted
    exact ⟨r, hr, hedits.denote hreq.range hok.ranges hok.sorted⟩

end Reached

/-- A request of process 1 for the bytes `first` to `last`. -/
def sampleRequest (addr : Addr) (type : LockType) (first last : Int) : Lockf := ⟨addr, type, first, last, .proc 1, [], 1000⟩

theorem sampleRequest_posix {addr : Addr} {type : LockType} {first last : Int} (h : 0 ≤ first ∧ first ≤ last ∧ last ≤ maxEnd) :
    PosixRequest (sampleRequest addr type first last) :=
  ⟨⟨h.1, .inr h.2.1⟩, ⟨by simp only [sampleRequest]; omega, h.2.2⟩, ⟨1, rfl⟩, rfl⟩

/-- Bytes 10 to 20 of a lock on bytes 0 to 100 unlocked. -/
theorem lock_list_is_range_map_split : ∃ s, tableSystem.Reach PosixAct s ∧ s.list.map (fun lf => (lf.lfStart, lf.lfEnd)) = [(0, 9), (21, 100)] ∧
    (∀ o, (s.list.filter fun lf => lf.lfId = o).Pairwise Before) ∧ s.panicked = false := by
  have hset : PosixRequest (sampleRequest 1 .wrlck 0 100) := sampleRequest_posix (by decide)
  have hclear : PosixRequest (sampleRequest 3 .unlck 10 20) := sampleRequest_posix (by decide)
  have hreach : tableSystem.Reach PosixAct
      ⟨[sampleRequest 1 .wrlck 0 9, sampleRequest 4 .wrlck 21 100], false⟩ :=
    .step (a := .clearlock (sampleRequest 3 .unlck 10 20) (sampleRequest 4 .unlck 0 0))
      (.step (a := .setlock (sampleRequest 1 .wrlck 0 100) (sampleRequest 2 .unlck 0 0)) (.init rfl)
        ⟨hset, by decide⟩ rfl) hclear rfl
  obtain ⟨hdisjoint, hrunning, -⟩ := lock_list_is_range_map hreach
  exact ⟨_, hreach, rfl, hdisjoint, hrunning⟩

end NetBSD.Kern.Advlock
