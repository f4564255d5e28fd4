import NetBSD.Kern.Descrip.Copy

/-! Descriptor tables over whole runs.

`maps_agree`: in every table that a run reaches the maps say what the table says, and a copy has
the files it should have; `freefile` is right in runs that copy no table with a half open
descriptor below it. `alloc_lowest`: in those runs `fd_alloc` gives the lowest descriptor there
is. -/
namespace NetBSD.Kern.Descrip
open Option
open Lib

/-- A table is not copied while a descriptor below its `freefile` is half open. -/
def WholeCopy (fdp : Filedesc) (c : Call) : Prop := c = .copy → ∀ fd, fd < fdp.freefile → halfOpen fdp fd = false

instance (fdp : Filedesc) (c : Call) : Decidable (WholeCopy fdp c) :=
  inferInstanceAs (Decidable (c = .copy → ∀ fd, fd < fdp.freefile → halfOpen fdp fd = false))

theorem agrees_fdInit : Agrees fdInit where
  size := .inl rfl
  used := by
    intro q
    cases hff : fdInit.ff q with
    | none =>
      rw [Filedesc.allocated, hff]
      exact mapBit_empty q
    | some ff =>
      rw [Filedesc.allocated, hff, (fdInit_ff q ff hff).2]
      exact mapBit_empty q
  file := by
    intro q ff hff hne
    rw [(fdInit_ff q ff hff).2] at hne
    exact absurd rfl hne
  beyond := by
    intro q hq
    have hq : 20 ≤ q := hq
    exact if_neg (by rw [show NDFDFILE = 6 from rfl]; omega)
  full := full_empty
  last := ⟨fun q h => absurd ((mapBit_empty q).symm.trans h) (by decide), .inl rfl⟩

theorem next_agrees {fdp fdp' : Filedesc} {c : Call} (h : Agrees fdp) (hn : next fdp c = some fdp') :
    Agrees fdp' ∧ (WholeCopy fdp c → FreeBelow fdp → FreeBelow fdp') := by
  cases c with
  | alloc lim want =>
    obtain ⟨⟨fdp₁, r⟩, ha, rfl⟩ := map_eq_some_iff.1 hn
    refine ⟨?_, fun _ hfree => FreeBelow.fdAlloc h hfree ha⟩
    obtain ⟨heq, -⟩ | ⟨fdp₂, i, w, heq, -, -, h₂, -⟩ := h.fdAlloc lim want
    · rw [heq] at ha
      cases ha
      exact h
    · rw [heq] at ha
      cases ha
      exact h₂
  | affix fp fd =>
    obtain ⟨h', hbit, hf⟩ := h.fdAffix hn
    exact ⟨h', fun _ hfree q hq => (hbit q).trans (hfree q (hf ▸ hq))⟩
  | abort fd =>
    obtain ⟨h', hfree⟩ := h.fdAbort hn
    exact ⟨h', fun _ => hfree⟩
  | closing fd =>
    obtain ⟨h', hbit, hf⟩ := h.fdClosing hn
    exact ⟨h', fun _ hfree q hq => (hbit q).trans (hfree q (hf ▸ hq))⟩
  | unused fd => exact ⟨(h.fdUnused hn).1, fun _ hfree => FreeBelow.fdUnused h hfree hn⟩
  | tryexpand =>
    cases hn
    obtain ⟨h', hbit, hf, -⟩ := h.fdTryexpand
    exact ⟨h', fun _ hfree q hq => (hbit q).trans (hfree q (hf ▸ hq))⟩
  | reserve newfd exclose =>
    obtain ⟨h', hfree⟩ := h.fdReserve hn
    exact ⟨h', fun _ => hfree⟩
  | dup2 fp newfd exclose =>
    obtain ⟨h', hfree⟩ := h.fdDup2 hn
    exact ⟨h', fun _ => hfree⟩
  | copy =>
    cases hn
    exact ⟨h.fdCopy, fun hwhole hfree => FreeBelow.fdCopy h hfree (hwhole rfl)⟩

theorem reach_agrees {ok : Filedesc → Call → Prop} {fdp : Filedesc} (h : system.Reach ok fdp) : Agrees fdp := by
  refine System.Reach.invariant ?_ ?_ h
  · rintro s rfl
    exact agrees_fdInit
  · intro s c s' hs _ hstep
    exact (next_agrees hs hstep).1

theorem reach_freeBelow {fdp : Filedesc} (h : system.Reach WholeCopy fdp) : Agrees fdp ∧ FreeBelow fdp := by
  have hstep (s : Filedesc) (c : Call) (s' : Filedesc) (hs : Agrees s ∧ FreeBelow s) (hok : WholeCopy s c)
      (hn : system.step s c s') : Agrees s' ∧ FreeBelow s' := by
    have hnext := next_agrees hs.1 hn
    exact ⟨hnext.1, hnext.2 hok hs.2⟩
  refine System.Reach.invariant ?_ hstep h
  rintro s rfl
  exact ⟨agrees_fdInit, fun q hq => absurd hq (Nat.not_lt_zero q)⟩

/-- The maps say what the table says, in every table reached, and a copy has the files it should
have; below `freefile` every descriptor is in use if no table was copied with a half open
descriptor below it. -/
theorem maps_agree (fdp : Filedesc) : (system.Reachable fdp → Agrees fdp ∧ ∀ fd fp exclose,
      (∃ ff, (fdCopy fdp).ff fd = some ff ∧ ff.file = some fp ∧ ff.exclose = exclose) ↔
        ∃ ff, fdp.ff fd = some ff ∧ ff.file = some fp ∧ ff.exclose = exclose ∧ fp.type ≠ .kqueue) ∧
    (system.Reach WholeCopy fdp → FreeBelow fdp) :=
  ⟨fun h => ⟨reach_agrees h, (reach_agrees h).copy_exact⟩, fun h => (reach_freeBelow h).2⟩

/-- Two files, one of them a kqueue that is left out of the copy. -/
theorem maps_agree_kqueue : ∃ fdp, system.Reach WholeCopy fdp ∧ fdp.freefile = 0 ∧ fdp.isused 1 = true ∧
    fdp.lastfile = 1 ∧ Agrees fdp ∧ FreeBelow fdp := by
  have hrun : (System.run (System.guarded WholeCopy next) fdInit
      [.alloc 64 0, .affix ⟨0, .kqueue⟩ 0, .alloc 64 0, .affix ⟨1, .vnode⟩ 1, .copy]).map
        (fun s => (s.freefile, s.isused 1, s.lastfile)) = some (0, true, 1) := by decide
  obtain ⟨fdp, hfdp, hobs⟩ := map_eq_some_iff.1 hrun
  obtain ⟨hfree, hused, hlast⟩ : fdp.freefile = 0 ∧ fdp.isused 1 = true ∧ fdp.lastfile = 1 := by simpa using hobs
  have hreach : system.Reach WholeCopy fdp := System.reach_run _ _ _ _ _ rfl hfdp
  exact ⟨fdp, hreach, hfree, hused, hlast, ((maps_agree fdp).1 hreach.reachable).1, (maps_agree fdp).2 hreach⟩

/-- A copy made while descriptor 0 is half open has it free below `freefile`. -/
theorem freefile_too_high : ∃ fdp, system.Reachable fdp ∧ ¬ FreeBelow fdp := by
  have hrun : (System.run (System.guarded (fun _ _ => True) next) fdInit [.alloc 64 0, .alloc 64 0, .affix ⟨1, .vnode⟩ 1, .copy]).map
      (fun s => (s.freefile, s.isused 0)) = some (1, false) := by decide
  obtain ⟨fdp, hfdp, hobs⟩ := map_eq_some_iff.1 hrun
  obtain ⟨hfree, hused⟩ : fdp.freefile = 1 ∧ fdp.isused 0 = false := by simpa using hobs
  refine ⟨fdp, System.reach_run _ _ _ _ _ rfl hfdp, fun h => ?_⟩
  rw [h 0 (by omega)] at hused
  cases hused

/-- What `fd_alloc` is to do: give the lowest descriptor that is free at or above `want` and
below the limit, and mark it and no other; where there is none, leave the table alone. -/
def AllocatesLowest (fdp : Filedesc) (lim want : Nat) : Prop :=
  (∃ fd fdp', fdAlloc fdp lim want = some (fdp', .ok fd) ∧
    FirstFree fdp want (min fdp.nfiles lim) (some fd) ∧ (∀ q, fdp'.isused q = (fdp.isused q || decide (q = fd))) ∧
    ∀ q, q ≠ fd → fdp'.ff q = fdp.ff q) ∨
  (fdAlloc fdp lim want = some (fdp, .error (if fdp.nfiles ≥ lim then .EMFILE else .ENOSPC)) ∧ FirstFree fdp want (min fdp.nfiles lim) none)

theorem alloc_lowest (fdp : Filedesc) (h : system.Reach WholeCopy fdp) (lim want : Nat) : AllocatesLowest fdp lim want := by
  obtain ⟨hagrees, hfree⟩ := reach_freeBelow h
  have hbelow (q : Nat) (hq : want ≤ q) (hqm : q < max want fdp.freefile) (hql : q < min fdp.nfiles lim) :
      fdp.isused q = true := hfree q (by omega)
  obtain ⟨heq, hnone⟩ | ⟨fdp', i, w, heq, hfirst, -, -, hbit, hff, -⟩ := hagrees.fdAlloc lim want
  · exact .inr ⟨heq, hnone.skip (le_max_left _ _) hbelow⟩
  · exact .inl ⟨i, fdp', heq, hfirst.skip (le_max_left _ _) hbelow, hbit, hff⟩

/-- Descriptor 0 was closed, and is the one a copy of the table gives out. -/
theorem alloc_lowest_reused : ∃ fdp, system.Reach WholeCopy fdp ∧ fdp.isused 0 = false ∧ fdp.isused 25 = true ∧
    (fdAlloc fdp 64 0).map (fun r => r.2.toOption) = some (some 0) ∧ AllocatesLowest fdp 64 0 := by
  have hrun : (System.run (System.guarded WholeCopy next) fdInit
      [.alloc 64 0, .affix ⟨0, .vnode⟩ 0, .dup2 ⟨1, .pipe⟩ 25 true, .closing 0, .unused 0, .copy]).map
        (fun s => (s.isused 0, s.isused 25, (fdAlloc s 64 0).map (fun r => r.2.toOption))) =
      some (false, true, some (some 0)) := by decide
  obtain ⟨fdp, hfdp, hobs⟩ := map_eq_some_iff.1 hrun
  obtain ⟨h0, h25, halloc⟩ : fdp.isused 0 = false ∧ fdp.isused 25 = true ∧
      (fdAlloc fdp 64 0).map (fun r => r.2.toOption) = some (some 0) := by simpa only [Prod.mk.injEq] using hobs
  have hreach : system.Reach WholeCopy fdp := System.reach_run _ _ _ _ _ rfl hfdp
  exact ⟨fdp, hreach, h0, h25, halloc, alloc_lowest fdp hreach 64 0⟩

/-- In a copy made while descriptor 0 was half open, 2 is given out and 0 is free. -/
theorem alloc_not_lowest : ∃ fdp, system.Reachable fdp ∧ ¬ AllocatesLowest fdp 64 0 := by
  have hrun : (System.run (System.guarded (fun _ _ => True) next) fdInit [.alloc 64 0, .alloc 64 0, .affix ⟨1, .vnode⟩ 1, .copy]).map
      (fun s => (s.isused 0, (fdAlloc s 64 0).map (fun r => r.2.toOption))) = some (false, some (some 2)) := by
    decide
  obtain ⟨fdp, hfdp, hobs⟩ := map_eq_some_iff.1 hrun
  obtain ⟨h0, halloc⟩ : fdp.isused 0 = false ∧ (fdAlloc fdp 64 0).map (fun r => r.2.toOption) = some (some 2) := by
    simpa only [Prod.mk.injEq] using hobs
  refine ⟨fdp, System.reach_run _ _ _ _ _ rfl hfdp, fun h => ?_⟩
  obtain ⟨fd, fdp', heq, hfirst, -⟩ | ⟨heq, -⟩ := h
  · rw [heq] at halloc
    have hfd : fd = 2 := by simpa [Except.toOption] using halloc
    have hused := hfirst.2.2.2 0 (le_refl _) (by omega)
    rw [h0] at hused
    cases hused
  · rw [heq] at halloc
    simp [Except.toOption] at halloc

end NetBSD.Kern.Descrip
