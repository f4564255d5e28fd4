import NetBSD.Uvm.Amap.VmAmap
import Mathlib.Data.Finset.Card
import Mathlib.Order.Interval.Finset.Nat

/-! The three arrays of an amap.

`Packed` says that `slots` and `bckptr` list the slots that have an anon. A range is wiped
(`Wipes`) by taking out its anons one by one, in whatever order, until none is left. -/
namespace NetBSD.Uvm.Amap
open Function
open Lib

structure Packed (am : VmAmap) : Prop where
  nslot_le : am.nslot ≤ am.maxslot
  slot_lt : ∀ i, i < am.nused → am.slots i < am.nslot
  anon : ∀ i, i < am.nused → (am.anon (am.slots i)).isSome = true
  bckptr : ∀ i, i < am.nused → am.bckptr (am.slots i) = i
  listed : ∀ s, (am.anon s).isSome = true → ∃ i, i < am.nused ∧ am.slots i = s

section
variable {am : VmAmap}

theorem Packed.inj (h : Packed am) {i j : Nat} (hi : i < am.nused) (hj : j < am.nused) (he : am.slots i = am.slots j) : i = j := by
  rw [← h.bckptr i hi, he, h.bckptr j hj]

theorem Packed.lt_of_anon (h : Packed am) {s : Nat} (hs : (am.anon s).isSome = true) : s < am.nslot := by
  obtain ⟨i, hi, rfl⟩ := h.listed s hs
  exact h.slot_lt i hi

theorem removeSlot_eq (am : VmAmap) (slot : Nat) :
    (removeSlot am slot).anon = update am.anon slot none ∧ (removeSlot am slot).nused = am.nused - 1 ∧
      (removeSlot am slot).nslot = am.nslot ∧ (removeSlot am slot).maxslot = am.maxslot ∧
      (removeSlot am slot).ref = am.ref ∧ (removeSlot am slot).ppref = am.ppref := by
  unfold removeSlot
  dsimp only
  split <;> exact ⟨rfl, rfl, rfl, rfl, rfl, rfl⟩

theorem Packed.removeSlot (h : Packed am) {s : Nat} (hs : (am.anon s).isSome = true) : Packed (removeSlot am s) := by
  obtain ⟨p, hp, rfl⟩ := h.listed s hs
  have hne (i : Nat) (hi : i < am.nused) (hip : i ≠ p) : am.slots i ≠ am.slots p := fun he => hip (h.inj hi hp he)
  unfold Amap.removeSlot
  dsimp only
  rw [h.bckptr p hp]
  split
  case isTrue hlast =>
    refine ⟨h.nslot_le, fun i hi => ?_, fun i hi => ?_, fun i hi => ?_, fun s hs => ?_⟩ <;> dsimp only at *
    · by_cases hip : i = p
      · rw [hip, update_self]
        exact h.slot_lt _ (by omega)
      · rw [update_of_ne hip]
        exact h.slot_lt i (by omega)
    · by_cases hip : i = p
      · rw [hip, update_self, update_of_ne (hne _ (by omega) (Ne.symm hlast))]
        exact h.anon _ (by omega)
      · rw [update_of_ne hip, update_of_ne (hne i (by omega) hip)]
        exact h.anon i (by omega)
    · by_cases hip : i = p
      · rw [hip, update_self, update_self]
      have hil : am.slots i ≠ am.slots (am.nused - 1) := fun he => by
        have := h.inj (by omega) (by omega) he
        omega
      rw [update_of_ne hip, update_of_ne hil]
      exact h.bckptr i (by omega)
    have hsp : s ≠ am.slots p := by
      rintro rfl
      simp at hs
    rw [update_of_ne hsp] at hs
    obtain ⟨j, hj, rfl⟩ := h.listed s hs
    by_cases hjl : j = am.nused - 1
    · exact ⟨p, by omega, by rw [update_self, hjl]⟩
    · have hjp : j ≠ p := fun he => hsp (congrArg am.slots he)
      exact ⟨j, by omega, by rw [update_of_ne hjp]⟩
  case isFalse hlast =>
    refine ⟨h.nslot_le, fun i hi => h.slot_lt i ?_, fun i hi => ?_, fun i hi => h.bckptr i ?_, fun s hs => ?_⟩ <;>
      dsimp only at *
    · omega
    · rw [update_of_ne (hne i (by omega) (by omega))]
      exact h.anon i (by omega)
    · omega
    have hsp : s ≠ am.slots p := by
      rintro rfl
      simp at hs
    rw [update_of_ne hsp] at hs
    obtain ⟨j, hj, rfl⟩ := h.listed s hs
    have hjp : j ≠ p := fun he => hsp (congrArg am.slots he)
    exact ⟨j, by omega, rfl⟩

theorem Packed.append (h : Packed am) {s : Nat} (hs : s < am.nslot) (hfree : am.anon s = none) (a : Anon) : Packed { am with
      anon := update am.anon s (some a)
      bckptr := update am.bckptr s am.nused
      slots := update am.slots am.nused s
      nused := am.nused + 1 } := by
  have hne (i : Nat) (hi : i < am.nused) : am.slots i ≠ s := by
    rintro rfl
    have := h.anon i hi
    simp [hfree] at this
  refine ⟨h.nslot_le, fun i hi => ?_, fun i hi => ?_, fun i hi => ?_, fun q hq => ?_⟩ <;> dsimp only at *
  · by_cases hin : i = am.nused
    · rw [hin, update_self]
      exact hs
    · rw [update_of_ne hin]
      exact h.slot_lt i (by omega)
  · by_cases hin : i = am.nused
    · rw [hin, update_self, update_self]
      rfl
    · rw [update_of_ne hin, update_of_ne (hne i (by omega))]
      exact h.anon i (by omega)
  · by_cases hin : i = am.nused
    · rw [hin, update_self, update_self]
    · rw [update_of_ne hin, update_of_ne (hne i (by omega))]
      exact h.bckptr i (by omega)
  by_cases hqs : q = s
  · exact ⟨am.nused, by omega, by rw [update_self, hqs]⟩
  rw [update_of_ne hqs] at hq
  obtain ⟨i, hi, rfl⟩ := h.listed q hq
  exact ⟨i, by omega, by rw [update_of_ne (by omega : i ≠ am.nused)]⟩

end

/-! ### Wiping -/

/-- How many slots of a range have the anon. -/
def anonCount (off n : Nat) (anon : Nat → Option Anon) (a : Anon) : Nat :=
  ((Finset.Ico off (off + n)).filter fun s => anon s = some a).card

/-- The anons of the range are gone, a reference dropped for each, and nothing else. -/
structure Wipes (off n : Nat) (w w' : Wiped) : Prop where
  packed : Packed w'.amap
  anon : ∀ s, w'.amap.anon s = if off ≤ s ∧ s < off + n then none else w.amap.anon s
  anRef : ∀ a, w'.anRef a = w.anRef a - anonCount off n w.amap.anon a
  nslot : w'.amap.nslot = w.amap.nslot
  maxslot : w'.amap.maxslot = w.amap.maxslot
  ref : w'.amap.ref = w.amap.ref
  ppref : w'.amap.ppref = w.amap.ppref

section
variable {off n : Nat} {w w' : Wiped}

theorem Wipes.refl (h : Packed w.amap) (hnone : ∀ s, off ≤ s → s < off + n → w.amap.anon s = none) : Wipes off n w w where
  packed := h
  anon := by
    intro s
    split
    case isTrue hs => exact hnone s hs.1 hs.2
    · rfl
  anRef := by
    intro a
    have hz : anonCount off n w.amap.anon a = 0 := by
      rw [anonCount, Finset.card_eq_zero, Finset.filter_eq_empty_iff]
      intro s hs he
      rw [Finset.mem_Ico] at hs
      rw [hnone s hs.1 hs.2] at he
      cases he
    omega
  nslot := rfl
  maxslot := rfl
  ref := rfl
  ppref := rfl

theorem anonCount_update {s : Nat} (hs : off ≤ s ∧ s < off + n) {anon : Nat → Option Anon} {a : Anon} (ha : anon s = some a) (b : Anon) :
    anonCount off n anon b = anonCount off n (update anon s none) b + if b = a then 1 else 0 := by
  unfold anonCount
  have hmem : s ∈ Finset.Ico off (off + n) := Finset.mem_Ico.2 hs
  have herase : ((Finset.Ico off (off + n)).filter fun q => update anon s none q = some b) =
      ((Finset.Ico off (off + n)).filter fun q => anon q = some b).erase s := by
    ext q
    by_cases hq : q = s
    · simp [hq]
    · simp [hq]
  rw [herase]
  split
  case isTrue hb =>
    rw [Finset.card_erase_add_one (Finset.mem_filter.2 ⟨hmem, by rw [ha, hb]⟩)]
  case isFalse hb =>
    rw [Finset.erase_eq_of_notMem, add_zero]
    intro hin
    have := (Finset.mem_filter.1 hin).2
    rw [ha] at this
    exact hb (Option.some.inj this).symm

theorem Wipes.step {s : Nat} {a : Anon} (hs : off ≤ s ∧ s < off + n) (ha : w.amap.anon s = some a)
    (h : Wipes off n (wipeSlot w s a) w') : Wipes off n w w' := by
  obtain ⟨hanon, -, hnslot, hmax, href, hpp⟩ := removeSlot_eq w.amap s
  have hupd : (wipeSlot w s a).amap.anon = update w.amap.anon s none := hanon
  refine ⟨h.packed, fun q => ?_, fun b => ?_, h.nslot.trans hnslot, h.maxslot.trans hmax, h.ref.trans href, h.ppref.trans hpp⟩
  · rw [h.anon q, hupd]
    split
    · rfl
    case isFalse hq =>
      have hqs : q ≠ s := by
        rintro rfl
        exact hq hs
      rw [update_of_ne hqs]
  · rw [h.anRef b, hupd, anonCount_update hs ha b]
    show update w.anRef a (w.anRef a - 1) b - _ = _
    by_cases hb : b = a
    · rw [hb, update_self, if_pos rfl]
      omega
    · rw [update_of_ne hb, if_neg hb]
      omega

theorem packed_wipeSlot (h : Packed w.amap) {s : Nat} {a : Anon} (ha : w.amap.anon s = some a) :
    Packed (wipeSlot w s a).amap := h.removeSlot (by rw [ha]; rfl)

theorem wipeByAnon_wipes (m lcv : Nat) (w : Wiped) (h : Packed w.amap) (hlcv : lcv + m = off + n) (hoff : off ≤ lcv)
    (hdone : ∀ s, off ≤ s → s < lcv → w.amap.anon s = none) : Wipes off n w (wipeByAnon m lcv w) := by
  induction m generalizing lcv w with
  | zero => exact Wipes.refl h fun s hs hsn => hdone s hs (by omega)
  | succ m ih =>
    rw [wipeByAnon]
    split
    case h_1 hnone =>
      refine ih (lcv + 1) w h (by omega) (by omega) fun s hs hsl => ?_
      by_cases hsq : s = lcv
      · rw [hsq, hnone]
      · exact hdone s hs (by omega)
    case h_2 a ha =>
      refine Wipes.step (by omega) ha (ih (lcv + 1) _ (packed_wipeSlot h ha) (by omega) (by omega) fun s hs hsl => ?_)
      have hupd : (wipeSlot w lcv a).amap.anon = update w.amap.anon lcv none := (removeSlot_eq w.amap lcv).1
      rw [hupd]
      by_cases hsq : s = lcv
      · rw [hsq, update_self]
      · rw [update_of_ne hsq]
        exact hdone s hs (by omega)

/-- By `am_slots`: the slots listed before `lcv` are out of the range, and the last one listed
takes the place of one that is taken out. -/
theorem wipeBySlots_wipes (m lcv : Nat) (w : Wiped) (h : Packed w.amap) (hlcv : lcv + m = w.amap.nused)
    (hdone : ∀ i, i < lcv → ¬ (off ≤ w.amap.slots i ∧ w.amap.slots i < off + n)) :
    ∃ w', wipeBySlots off (off + n) m lcv w = some w' ∧ Wipes off n w w' := by
  induction m generalizing lcv w with
  | zero =>
    refine ⟨w, rfl, Wipes.refl h fun s hs hsn => ?_⟩
    cases ha : w.amap.anon s with
    | none => rfl
    | some a =>
      obtain ⟨i, hi, rfl⟩ := h.listed s (by rw [ha]; rfl)
      exact absurd ⟨hs, hsn⟩ (hdone i (by omega))
  | succ m ih =>
    rw [wipeBySlots]
    by_cases hout : w.amap.slots lcv < off ∨ w.amap.slots lcv ≥ off + n
    · rw [if_pos hout]
      refine ih (lcv + 1) w h (by omega) fun i hi => ?_
      by_cases hil : i = lcv
      · rw [hil]
        omega
      · exact hdone i (by omega)
    rw [if_neg hout]
    obtain ⟨a, ha⟩ := Option.isSome_iff_exists.1 (h.anon lcv (by omega))
    rw [ha]
    obtain ⟨-, hnused, -⟩ := removeSlot_eq w.amap (w.amap.slots lcv)
    have hslots (i : Nat) (hi : i < lcv) : (wipeSlot w (w.amap.slots lcv) a).amap.slots i = w.amap.slots i := by
      unfold wipeSlot removeSlot
      dsimp only
      rw [h.bckptr lcv (by omega)]
      split
      · exact update_of_ne (by omega) _ _
      · rfl
    have hnused : (wipeSlot w (w.amap.slots lcv) a).amap.nused = w.amap.nused - 1 := hnused
    obtain ⟨w', hw', hwipes⟩ := ih lcv (wipeSlot w (w.amap.slots lcv) a) (packed_wipeSlot h ha) (by omega) fun i hi => by
      rw [hslots i hi]
      exact hdone i hi
    exact ⟨w', hw', Wipes.step (by omega) ha hwipes⟩

theorem amapWiperange_wipes (h : Packed w.amap) (off n : Nat) : ∃ w', amapWiperange w off n = some w' ∧ Wipes off n w w' := by
  unfold amapWiperange
  split
  · exact ⟨_, rfl, wipeByAnon_wipes n off w h rfl (le_refl _) fun s hs hsl => absurd hsl (by omega)⟩
  · exact wipeBySlots_wipes w.amap.nused 0 w h (by omega) fun i hi => absurd hi (by omega)

end

end NetBSD.Uvm.Amap
