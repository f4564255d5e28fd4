import NetBSD.Uvm.Amap.Steps

/-! The arrays of every amap, over whole runs.

`arrays_packed`: in every run that extends amaps at their fronts only where the aref has all the
anons, the arrays of every amap are packed and both ways to wipe a range wipe it. -/
namespace NetBSD.Uvm.Amap
open List Option
open Lib

/-- Where the arrays of an amap slide up, all its anons are in slots of the aref. -/
def slideCovered (u : World) : Call → Bool
  | .extend k off len add false mem =>
    u.amaps[k]?.all fun am => !decide (Slides am off len add mem) || decide (Covers off len am)
  | _ => true

abbrev Covered (u : World) (c : Call) : Prop := slideCovered u c = true

def AllPacked (u : World) : Prop := ∀ am ∈ u.amaps, Packed am

section
variable {u u' : World}

theorem AllPacked.of_get (h : AllPacked u) {k : Nat} {am : VmAmap} (hk : u.amaps[k]? = some am) : Packed am :=
  h am (mem_of_getElem? hk)

theorem AllPacked.set (h : AllPacked u) (k : Nat) {am : VmAmap} (ham : Packed am) (anRef : Anon → Int) :
    AllPacked ⟨u.amaps.set k am, anRef⟩ := by
  intro am' hmem
  obtain hmem | rfl := mem_or_eq_of_mem_set hmem
  · exact h am' hmem
  · exact ham

theorem onAref_some {k off len : Nat} {f : Wiped → Option World} (h : u.onAref k off len f = some u') :
    ∃ am, u.amaps[k]? = some am ∧ off + len ≤ am.nslot ∧ f ⟨am, u.anRef, []⟩ = some u' := by
  obtain ⟨am, hk, h⟩ := bind_eq_some_iff.1 h
  split at h
  · cases h
  case isFalse hle => exact ⟨am, hk, by omega, h⟩

theorem amapExtend_packed {w w' : Wiped} (h : Packed w.amap) {off len add : Nat} {forwards : Bool} {mem : Mem}
    {r : Except Errno Nat} (hin : off + len ≤ w.amap.nslot)
    (hc : forwards = false → Slides w.amap off len add mem → Covers off len w.amap)
    (he : amapExtend w off len add forwards mem = some (w', r)) : Packed w'.amap := by
  unfold amapExtend at he
  split at he
  · cases he
  split at he
  · exact amapExtendForwards_packed h he
  case isFalse hf => exact amapExtendBackwards_packed h hin (hc (by simpa using hf)) he

theorem next_allPacked {c : Call} (h : AllPacked u) (hc : Covered u c) (hn : u.next c = some u') : AllPacked u' := by
  cases c with
  | alloc slots padslots =>
    cases hn
    intro am hmem
    obtain hmem | hmem := mem_append.1 hmem
    · exact h am hmem
    · rw [mem_singleton.1 hmem]
      exact packed_amapAlloc1 slots padslots
  | add k slot a replace =>
    obtain ⟨am, hk, hn⟩ := bind_eq_some_iff.1 hn
    obtain ⟨am', hadd, rfl⟩ := map_eq_some_iff.1 hn
    exact h.set k (packed_amapAdd (h.of_get hk) hadd) _
  | unadd k slot =>
    obtain ⟨am, hk, hn⟩ := bind_eq_some_iff.1 hn
    obtain ⟨am', hun, rfl⟩ := map_eq_some_iff.1 hn
    exact h.set k (packed_amapUnadd (h.of_get hk) hun) _
  | wiperange k off len =>
    rw [World.next] at hn
    obtain ⟨am, hk, -, hn⟩ := onAref_some hn
    obtain ⟨w', hw, rfl⟩ := map_eq_some_iff.1 hn
    obtain ⟨w₁, hw₁, hwipes⟩ := amapWiperange_wipes (w := ⟨am, u.anRef, []⟩) (h.of_get hk) off len
    rw [hw₁] at hw
    cases hw
    exact h.set k hwipes.packed _
  | ppAdjref k off len adjval =>
    rw [World.next] at hn
    obtain ⟨am, hk, -, hn⟩ := onAref_some hn
    obtain ⟨w', hw, rfl⟩ := map_eq_some_iff.1 hn
    exact h.set k (adjref_keeps (h.of_get hk) hw).packed _
  | extend k off len add forwards mem =>
    rw [World.next] at hn
    obtain ⟨am, hk, hin, hn⟩ := onAref_some hn
    obtain ⟨⟨w', r⟩, hw, rfl⟩ := map_eq_some_iff.1 hn
    refine h.set k (amapExtend_packed (h.of_get hk) hin ?_ hw) _
    rintro rfl hslides
    have hc : ((u.amaps[k]?).all fun am => !decide (Slides am off len add mem) || decide (Covers off len am)) = true := hc
    rw [hk] at hc
    simpa [hslides] using hc
  | copy k off len =>
    rw [World.next] at hn
    obtain ⟨am, hk, -, hn⟩ := onAref_some hn
    split at hn
    · cases hn
      exact h
    obtain ⟨⟨w', am'⟩, hcopy, rfl⟩ := map_eq_some_iff.1 hn
    obtain ⟨hsrc, hnew⟩ := amapCopy_packed (h.of_get hk) hcopy
    intro am'' hmem
    obtain hmem | hmem := mem_append.1 hmem
    · exact h.set k hsrc w'.anRef am'' hmem
    · rw [mem_singleton.1 hmem]
      exact hnew
  | ref k off len all mem =>
    rw [World.next] at hn
    obtain ⟨am, hk, -, hn⟩ := onAref_some hn
    obtain ⟨w', hw, rfl⟩ := map_eq_some_iff.1 hn
    exact h.set k (amapAdjrefAnons_packed (h.of_get hk) hw) _
  | unref k off len all mem =>
    rw [World.next] at hn
    obtain ⟨am, hk, -, hn⟩ := onAref_some hn
    split at hn
    · cases hn
      exact fun am' hmem => h am' (mem_of_mem_eraseIdx hmem)
    · obtain ⟨w', hw, rfl⟩ := map_eq_some_iff.1 hn
      exact h.set k (amapAdjrefAnons_packed (h.of_get hk) hw) _
  | splitref k off len mem =>
    rw [World.next] at hn
    obtain ⟨am, hk, -, hn⟩ := onAref_some hn
    cases hn
    exact h.set k (packed_amapSplitref (h.of_get hk) off mem) _

theorem reach_allPacked (h : system.Reach Covered u) : AllPacked u := by
  refine System.Reach.invariant ?_ ?_ h
  · intro s hs am hmem
    rw [show s.amaps = [] from hs] at hmem
    cases hmem
  · intro s c s' hs hok hstep
    exact next_allPacked hs hok hstep

end

/-- In every run whose slides are covered: the arrays of every amap are packed; and a range is
wiped whichever way is taken, with a reference dropped for each anon. -/
theorem arrays_packed (u : World) (h : system.Reach Covered u) (am : VmAmap) (hmem : am ∈ u.amaps) :
    Packed am ∧ ∀ off len tofree, off + len ≤ am.nslot →
      Wipes off len ⟨am, u.anRef, tofree⟩ (wipeByAnon len off ⟨am, u.anRef, tofree⟩) ∧
      (∃ w', wipeBySlots off (off + len) am.nused 0 ⟨am, u.anRef, tofree⟩ = some w' ∧ Wipes off len ⟨am, u.anRef, tofree⟩ w') ∧
      ∃ w', amapWiperange ⟨am, u.anRef, tofree⟩ off len = some w' ∧ Wipes off len ⟨am, u.anRef, tofree⟩ w' := by
  have hp := reach_allPacked h am hmem
  refine ⟨hp, fun off len tofree _ => ⟨?_, ?_, ?_⟩⟩
  · exact wipeByAnon_wipes len off _ hp rfl (le_refl _) fun s hs hsl => absurd hsl (by omega)
  · exact wipeBySlots_wipes am.nused 0 _ hp (zero_add _) fun i hi => absurd hi (by omega)
  · exact amapWiperange_wipes hp off len

/-- An amap of four slots with an anon in the second, extended by two slots at its front. -/
theorem arrays_packed_front : ∃ u am, system.Reach Covered u ∧ u.amaps = [am] ∧ am.nslot = 6 ∧ am.slots 0 = 3 ∧
    am.anon 3 = some 7 ∧ Packed am := by
  have hrun : (System.run (System.guarded Covered World.next) ⟨[], fun _ => 1⟩
      [.alloc 4 0, .add 0 1 7 false, .extend 0 0 4 2 false ⟨true, true⟩]).map
        (fun u => u.amaps.map fun am => (am.nslot, am.slots 0, am.anon 3)) = some [(6, 3, some 7)] := by decide
  obtain ⟨u, hu, hobs⟩ := map_eq_some_iff.1 hrun
  have hreach : system.Reach Covered u := System.reach_run _ _ _ _ _ rfl hu
  obtain ⟨am, ham, hfields⟩ : ∃ am, u.amaps = [am] ∧ (am.nslot, am.slots 0, am.anon 3) = (6, 3, some 7) := by
    simpa using hobs
  obtain ⟨h₁, h₂, h₃⟩ : am.nslot = 6 ∧ am.slots 0 = 3 ∧ am.anon 3 = some 7 := by simpa only [Prod.mk.injEq] using hfields
  exact ⟨u, am, hreach, ham, h₁, h₂, h₃, (arrays_packed u hreach am (by simp [ham])).1⟩

/-- An anon of a slot that nobody has any more: the array of references could not be made when
the amap was split, so it was not freed with its half. When the other half is extended at its
front, `slots` lists a slot that has no anon. -/
theorem stray_anon_not_packed : ∃ u am, system.Reachable u ∧ am ∈ u.amaps ∧ ¬ Packed am := by
  have hrun : (System.run (System.guarded (fun _ _ => True) World.next) ⟨[], fun _ => 1⟩
      [.alloc 4 0, .add 0 0 7 false, .splitref 0 0 4 false, .unref 0 0 2 false false, .extend 0 2 2 3 false ⟨true, true⟩]).map
        (fun u => u.amaps.map fun am => (am.nused, am.slots 0, am.anon 2)) = some [(1, 2, none)] := by decide
  obtain ⟨u, hu, hobs⟩ := map_eq_some_iff.1 hrun
  obtain ⟨am, ham, hfields⟩ : ∃ am, u.amaps = [am] ∧ (am.nused, am.slots 0, am.anon 2) = (1, 2, none) := by
    simpa using hobs
  obtain ⟨hn, hs, ha⟩ : am.nused = 1 ∧ am.slots 0 = 2 ∧ am.anon 2 = none := by simpa only [Prod.mk.injEq] using hfields
  refine ⟨u, am, System.reach_run _ _ _ _ _ rfl hu, by simp [ham], fun h => ?_⟩
  have hsome := h.anon 0 (by omega)
  rw [hs, ha] at hsome
  cases hsome

end NetBSD.Uvm.Amap
