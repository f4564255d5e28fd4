import NetBSD.Kern.SubrExtent.Search

/-! The regions of an extent map over whole runs. -/
namespace NetBSD.Kern.SubrExtent
open Option
open Lib

/-- Neither a candidate that is moved past a region nor a boundary line wraps to below where it was. -/
def Plain (ex : Extent) : Call → Prop
  | .allocSubregion1 q _ => q.PlainBoundary ∧ q.PlainRelocation ex
  | _ => True

instance (ex : Extent) (c : Call) : Decidable (Plain ex c) :=
  match c with
  | .allocSubregion1 q _ => inferInstanceAs (Decidable (q.PlainBoundary ∧ q.PlainRelocation ex))
  | .allocRegion _ _ _ _ => inferInstanceAs (Decidable True)
  | .free _ _ _ => inferInstanceAs (Decidable True)

/-- The `size` numbers from `start` on, none of them allocated before, have been added. -/
structure Allocated (ex ex' : Extent) (start size : Nat) : Prop where
  free : ∀ a, (added start size).Mem a → ¬Covered ex.regions a
  covered : ∀ a, Covered ex'.regions a ↔ Covered ex.regions a ∨ (added start size).Mem a

section
variable {ex ex' : Extent} {size r : Nat} {ans : Answer}

/-- What stays of an extent map, and that it stays sorted. -/
structure Kept (ex ex' : Extent) : Prop where
  exStart : ex'.exStart = ex.exStart
  exEnd : ex'.exEnd = ex.exEnd
  nocoalesce : ex'.nocoalesce = ex.nocoalesce
  sorted : Sorted ex'

theorem Sorted.kept (h : Sorted ex) : Kept ex ex := ⟨rfl, rfl, rfl, h⟩

theorem Sorted.set (h : Sorted ex) {l : List Interval} (hl : Chain ex.gap ex.exEnd ex.exStart l) :
    Kept ex { ex with regions := l } := ⟨rfl, rfl, rfl, h.end_lt, hl⟩

theorem insertAt_spec {flags : Flags} {found : Option Place} (hs : Sorted ex) (hf : ∀ p, found = some p → Fits ex size p)
    (h : insertAt ex size flags found = (ans, ex')) :
    Kept ex ex' ∧ ((∃ p, found = some p ∧ ans = .ok p.start ∧ Allocated ex ex' p.start size) ∨ ((∀ r, ans ≠ .ok r) ∧ ex' = ex)) := by
  cases found with
  | some p =>
    cases h
    have hfit := hf p rfl
    obtain ⟨hchain, hcov⟩ := inserted hs hfit
    exact ⟨hs.set hchain, .inl ⟨p, rfl, rfl, fun a => hfit.free hs, hcov⟩⟩
  | none =>
    cases h
    refine ⟨hs.kept, .inr ⟨fun r => ?_, rfl⟩⟩
    unfold noSpace
    split <;> exact nofun

theorem extentAllocRegion_spec {start : Nat} {flags : Flags} {mem : Bool} (hs : Sorted ex) (hsize : size < 2 ^ 64)
    (h : extentAllocRegion ex start size flags mem = some (ans, ex')) :
    Kept ex ex' ∧ ((ans = .ok start ∧ Allocated ex ex' start size) ∨ ((∀ r, ans ≠ .ok r) ∧ ex' = ex)) := by
  unfold extentAllocRegion at h
  dsimp only at h
  split at h
  · cases h
  case isFalse hv =>
    split at h
    · cases h
      exact ⟨hs.kept, .inr ⟨nofun, rfl⟩⟩
    have hend := hs.end_lt
    have hlast : ulong (start + sub size 1) = start + (size - 1) := by
      rw [sub_eq (by omega) hsize] at hv ⊢
      unfold ulong at hv ⊢
      omega
    rw [hlast] at hv h
    have hcursor : Cursor ex start [] ex.regions := ⟨rfl, by omega, by omega, fun r hr => by cases hr⟩
    have hfound : ∀ p, findRegion start (start + (size - 1)) [] ex.regions = some p → Fits ex size p ∧ p.start = start :=
      fun p hp => findRegion_fits (by omega) (by omega) hcursor hp
    obtain ⟨hkept, ⟨p, hp, hans, halloc⟩ | hno⟩ := insertAt_spec hs (fun p hp => (hfound p hp).1) (some.inj h)
    · rw [(hfound p hp).2] at hans halloc
      exact ⟨hkept, .inl ⟨hans, halloc⟩⟩
    · exact ⟨hkept, .inr hno⟩

theorem extentAllocSubregion1_spec {q : Request} {mem : Bool} (hs : Sorted ex) (hu : q.Ulongs) (hb : q.PlainBoundary)
    (hrel : q.PlainRelocation ex) (h : extentAllocSubregion1 ex q mem = some (ans, ex')) :
    Kept ex ex' ∧ ((∃ r, ans = .ok r ∧ Allocated ex ex' r q.size) ∨ ((∀ r, ans ≠ .ok r) ∧ ex' = ex)) := by
  unfold extentAllocSubregion1 at h
  split at h
  · cases h
  case isFalse hv =>
    split at h
    · cases h
      exact ⟨hs.kept, .inr ⟨nofun, rfl⟩⟩
    split at h
    · cases h
    case isFalse hstart =>
      have hv := not_not.1 hv
      have hex : ex.exStart < 2 ^ 64 := by
        have := hv.1
        have := hs.end_lt
        omega
      obtain ⟨hkept, ⟨p, -, hans, halloc⟩ | hno⟩ := insertAt_spec hs
        (fun p hp => findSubregion_fits hs hex hv hu hb hrel (not_lt.1 hstart) hp) (some.inj h)
      · exact ⟨hkept, .inl ⟨_, hans, halloc⟩⟩
      · exact ⟨hkept, .inr hno⟩

theorem extentFree_spec {start : Nat} (hs : Sorted ex) (hv : FreeValid ex start size) (mem : Bool) :
    (ex.nocoalesce = false ∧ mem = false ∧ extentFree ex start size mem = some (.nomem, ex)) ∨
    (Freeable (!ex.nocoalesce) start (freeEnd start size) ex.regions ∧
      ∃ ex', extentFree ex start size mem = some (.ok start, ex') ∧ Kept ex ex' ∧
        ∀ a, Covered ex'.regions a ↔ Covered ex.regions a ∧ ¬(start ≤ a ∧ a ≤ freeEnd start size)) ∨
    (¬Freeable (!ex.nocoalesce) start (freeEnd start size) ex.regions ∧ extentFree ex start size mem = none) := by
  unfold extentFree
  rw [if_neg (not_not.2 hv)]
  by_cases hm : ex.nocoalesce = false ∧ mem = false
  · exact .inl ⟨hm.1, hm.2, if_pos hm⟩
  rw [if_neg hm]
  right
  have hgap : ex.gap = if (!ex.nocoalesce) then 2 else 1 := by
    unfold Extent.gap
    cases ex.nocoalesce <;> rfl
  obtain ⟨hin, l, heq, hfreed⟩ | ⟨hnot, heq⟩ := freeRegion_eq hgap hv.2.2 hs.chain
  · rw [heq]
    exact .inl ⟨hin, _, rfl, hs.set hfreed.chain, hfreed.covered⟩
  · rw [heq]
    exact .inr ⟨hnot, rfl⟩

/-! ### Runs -/

theorem exec_kept {c : Call} (hs : Sorted ex) (hu : c.Ulongs) (hc : Plain ex c) (h : exec ex c = some (ans, ex')) : Kept ex ex' := by
  cases c with
  | allocRegion start size flags mem => exact (extentAllocRegion_spec hs hu.2 h).1
  | allocSubregion1 q mem => exact (extentAllocSubregion1_spec hs hu hc.1 hc.2 h).1
  | free start size mem =>
    have h : extentFree ex start size mem = some (ans, ex') := h
    have hv : FreeValid ex start size := by
      by_contra hv
      rw [extentFree, if_pos hv] at h
      cases h
    obtain ⟨-, -, heq⟩ | ⟨-, ex₁, heq, hkept, -⟩ | ⟨-, heq⟩ := extentFree_spec hs hv mem
    · rw [heq] at h
      cases h
      exact hs.kept
    · rw [heq] at h
      cases h
      exact hkept
    · rw [heq] at h
      cases h

theorem reach_sorted (h : system.Reach Plain ex) : Sorted ex := by
  refine System.Reach.invariant ?_ ?_ h
  · rintro ex ⟨hend, hcreate⟩
    unfold extentCreate at hcreate
    split at hcreate
    · cases hcreate
    · rw [← some.inj hcreate] at hend ⊢
      exact ⟨hend, trivial⟩
  intro ex c ex' hs hc hstep
  have hstep : next ex c = some ex' := hstep
  unfold next at hstep
  split at hstep
  case isTrue hu =>
    obtain ⟨⟨ans, ex₁⟩, hexec, rfl⟩ := Option.map_eq_some_iff.1 hstep
    exact (exec_kept hs hu hc hexec).sorted
  case isFalse => cases hstep

theorem Extent.gap_pos (ex : Extent) : 0 < ex.gap := by
  unfold Extent.gap
  split <;> decide

end

/-- The regions lie inside the extent, in order and apart; where they are coalesced none is
adjacent to the next. -/
structure Tidy (ex : Extent) : Prop where
  inside : ∀ r ∈ ex.regions, ex.exStart ≤ r.first ∧ r.first ≤ r.last ∧ r.last ≤ ex.exEnd
  sorted : ex.regions.Pairwise fun r s => r.last < s.first
  coalesced : ex.nocoalesce = false → ex.regions.Pairwise fun r s => r.last + 1 < s.first

theorem Sorted.tidy {ex : Extent} (h : Sorted ex) : Tidy ex := by
  refine ⟨fun r hr => h.chain.mem hr, ?_, fun hc => ?_⟩
  · refine h.chain.pairwise.imp fun {r s} hrs => ?_
    have := ex.gap_pos
    omega
  · refine h.chain.pairwise.imp fun {r s} hrs => ?_
    rw [Extent.gap, hc] at hrs
    exact hrs

/-- In every run of plain calls: the list is tidy, and with coalescing it is the only one for the
numbers that are allocated; an allocation adds the numbers it returns, all of them free before; a
range is freed exactly where it lies in one region, or is one when nothing is coalesced; the
other answers change nothing. -/
theorem regions_are_a_set (ex : Extent) (h : system.Reach Plain ex) : Tidy ex ∧
    (∀ ex', system.Reach Plain ex' → ex.nocoalesce = false → ex'.nocoalesce = false →
      (∀ a, Covered ex.regions a ↔ Covered ex'.regions a) → ex.regions = ex'.regions) ∧
    (∀ start size flags mem ans ex', (Call.allocRegion start size flags mem).Ulongs →
      extentAllocRegion ex start size flags mem = some (ans, ex') →
      (ans = .ok start ∧ Allocated ex ex' start size) ∨ ((∀ r, ans ≠ .ok r) ∧ ex' = ex)) ∧
    (∀ q mem ans ex', q.Ulongs → Plain ex (.allocSubregion1 q mem) → extentAllocSubregion1 ex q mem = some (ans, ex') →
      (∃ r, ans = .ok r ∧ Allocated ex ex' r q.size) ∨ ((∀ r, ans ≠ .ok r) ∧ ex' = ex)) ∧
    ∀ start size mem, (Call.free start size mem).Ulongs → FreeValid ex start size →
      (ex.nocoalesce = false ∧ mem = false ∧ extentFree ex start size mem = some (.nomem, ex)) ∨
      ((extentFree ex start size mem = none ↔ ¬Freeable (!ex.nocoalesce) start (freeEnd start size) ex.regions) ∧
        ∀ ans ex', extentFree ex start size mem = some (ans, ex') →
          ∀ a, Covered ex'.regions a ↔ Covered ex.regions a ∧ ¬(start ≤ a ∧ a ≤ freeEnd start size)) := by
  have hs := reach_sorted h
  refine ⟨hs.tidy, ?_, ?_, ?_, ?_⟩
  · intro ex' h' hc hc' heq
    have hchain := hs.chain
    have hchain' := (reach_sorted h').chain
    rw [Extent.gap, hc] at hchain
    rw [Extent.gap, hc'] at hchain'
    exact hchain.ext hchain' heq
  · intro start size flags mem ans ex' hu heq
    exact (extentAllocRegion_spec hs hu.2 heq).2
  · intro q mem ans ex' hu hp heq
    exact (extentAllocSubregion1_spec hs hu hp.1 hp.2 heq).2
  intro start size mem _ hv
  obtain hno | ⟨hin, ex₁, heq, -, hcov⟩ | ⟨hnot, heq⟩ := extentFree_spec hs hv mem
  · exact .inl hno
  · right
    rw [heq]
    refine ⟨iff_of_false nofun (not_not.2 hin), fun ans ex' h => ?_⟩
    cases h
    exact hcov
  · right
    rw [heq]
    exact ⟨iff_of_true rfl hnot, nofun⟩

/-- The whole range: two regions, then eight numbers between them at a multiple of 16. -/
theorem regions_are_a_set_gap : ∃ ex, system.Reach Plain ex ∧ ex.exEnd = 2 ^ 64 - 1 ∧
    ex.regions = [⟨0, 15⟩, ⟨32, 39⟩, ⟨48, 63⟩] ∧ Tidy ex := by
  have hrun : System.run (System.guarded Plain next) ⟨0, 2 ^ 64 - 1, false, []⟩
      [.allocRegion 0 10 {} true, .allocRegion 48 16 {} true, .allocRegion 10 6 {} true,
        .allocSubregion1 ⟨20, 60, 8, 16, 0, 0, { fast := true }⟩ true] =
      some ⟨0, 2 ^ 64 - 1, false, [⟨0, 15⟩, ⟨32, 39⟩, ⟨48, 63⟩]⟩ := by decide
  have hreach : system.Reach Plain _ := System.reach_run _ _ _ _ _ ⟨by decide, rfl⟩ hrun
  exact ⟨_, hreach, rfl, rfl, (regions_are_a_set _ hreach).1⟩

/-- Without coalescing, a part of a region is not freed but a panic. -/
theorem part_not_freed : ∃ ex, system.Reachable ex ∧ FreeValid ex 10 5 ∧
    (∃ r ∈ ex.regions, r.first ≤ 10 ∧ freeEnd 10 5 ≤ r.last) ∧ extentFree ex 10 5 true = none := by
  have hrun : System.run (System.guarded (fun _ _ => True) next) ⟨0, 99, true, []⟩ [.allocRegion 10 10 {} true] =
      some ⟨0, 99, true, [⟨10, 19⟩]⟩ := by decide
  refine ⟨_, System.reach_run _ _ _ _ _ ⟨by decide, rfl⟩ hrun, ?_⟩
  decide

end NetBSD.Kern.SubrExtent
