import NetBSD.Uvm.Amap.Packed

/-! The operations on an amap keep its arrays.

The references of pages only decide which ranges are wiped, so they need no invariant here. The
arrays slide up when an amap is extended at its front; every slot number is moved, but only the
anons of the aref are, so these have to be all (`Covers`). -/
namespace NetBSD.Uvm.Amap
open Function Option
open Lib

/-- The arrays are packed and their sizes are what they were. -/
structure Keeps (w w' : Wiped) : Prop where
  packed : Packed w'.amap
  nslot : w'.amap.nslot = w.amap.nslot
  maxslot : w'.amap.maxslot = w.amap.maxslot

section
variable {w w' : Wiped} {am : VmAmap}

theorem Keeps.refl (h : Packed w.amap) : Keeps w w := ⟨h, rfl, rfl⟩

theorem Keeps.trans {w'' : Wiped} (h : Keeps w w') (h' : Keeps w' w'') : Keeps w w'' :=
  ⟨h'.packed, h'.nslot.trans h.nslot, h'.maxslot.trans h.maxslot⟩

theorem Wipes.keeps {off n : Nat} (h : Wipes off n w w') : Keeps w w' := ⟨h.packed, h.nslot, h.maxslot⟩

theorem Packed.withPpref (h : Packed am) (ppref : Ppref) : Packed {am with ppref} :=
  ⟨h.nslot_le, h.slot_lt, h.anon, h.bckptr, h.listed⟩

theorem Packed.withRef (h : Packed am) (ref : Nat) : Packed {am with ref} :=
  ⟨h.nslot_le, h.slot_lt, h.anon, h.bckptr, h.listed⟩

/-! ### References of pages -/

theorem ppAdjust_keeps (stopslot : Nat) (adjval prevref : Int) (prevlcv prevlen n : Nat) (ppref : Nat → Int) (lcv : Nat)
    (w : Wiped) (h : Packed w.amap) (ha : ppAdjust stopslot adjval prevref prevlcv prevlen n ppref lcv w = some w') :
    Keeps w w' := by
  induction n generalizing ppref lcv w with
  | zero =>
    rw [ppAdjust] at ha
    split at ha
    · cases ha
    · cases ha
      exact ⟨h.withPpref _, rfl, rfl⟩
  | succ n ih =>
    rw [ppAdjust] at ha
    split at ha
    · dsimp only at ha
      split at ha
      · cases ha
      split at ha
      · cases ha
      split at ha
      · obtain ⟨w₁, hw₁, ha⟩ := bind_eq_some_iff.1 ha
        obtain ⟨w₂, hw₂, hwipes⟩ := amapWiperange_wipes h lcv _
        rw [hw₂] at hw₁
        cases hw₁
        exact hwipes.keeps.trans (ih _ _ _ hwipes.packed ha)
      · exact ih _ _ _ h ha
    · cases ha
      exact ⟨h.withPpref _, rfl, rfl⟩

theorem adjref_keeps (h : Packed w.amap) {cur len : Nat} {adjval : Int} (ha : adjref w cur len adjval = some w') : Keeps w w' := by
  unfold adjref at ha
  split at ha
  · obtain ⟨⟨ppref, lcv, prevlcv⟩, -, ha⟩ := bind_eq_some_iff.1 ha
    dsimp only at ha
    split at ha
    · cases ha
    split at ha
    · exact ppAdjust_keeps _ _ _ _ _ _ _ _ w h ha
    · exact ppAdjust_keeps _ _ _ _ _ _ _ _ w h ha
  · cases ha
    exact Keeps.refl h

theorem mapPpref_amap (w : Wiped) (f : (Nat → Int) → Nat → Int) : ∃ ppref, (mapPpref w f).amap = {w.amap with ppref} := by
  unfold mapPpref
  split
  · exact ⟨_, rfl⟩
  · exact ⟨w.amap.ppref, rfl⟩

theorem mapPpref_keeps (h : Packed w.amap) (f : (Nat → Int) → Nat → Int) : Keeps w (mapPpref w f) := by
  obtain ⟨ppref, heq⟩ := mapPpref_amap w f
  refine ⟨?_, ?_, ?_⟩
  · rw [heq]
    exact h.withPpref ppref
  · rw [heq]
  · rw [heq]

theorem packed_amapPpEstablish (h : Packed am) (off : Nat) (mem : Bool) : Packed (amapPpEstablish am off mem) := by
  unfold amapPpEstablish
  split
  · exact h.withPpref _
  · exact h.withPpref _

theorem packed_establishPart (h : Packed am) (off len : Nat) (all mem : Bool) : Packed (establishPart am off len all mem) := by
  unfold establishPart
  split
  · split
    · exact packed_amapPpEstablish h off mem
    · exact h
  · exact h

theorem amapAdjrefAnons_packed (h : Packed w.amap) {off len : Nat} {refv : Int} {all mem : Bool}
    (ha : amapAdjrefAnons w off len refv all mem = some w') : Packed w'.amap := by
  unfold amapAdjrefAnons at ha
  have hpacked := packed_establishPart h off len all mem
  generalize establishPart w.amap off len all mem = am at ha hpacked
  have hw : Packed {am with ref := (am.ref + refv).toNat} := hpacked.withRef _
  split at ha
  · exact (adjref_keeps hw ha).packed
  · exact (adjref_keeps hw ha).packed

theorem packed_amapSplitref (h : Packed am) (off : Nat) (mem : Bool) : Packed (amapSplitref am off mem) := by
  unfold amapSplitref
  split
  · exact (packed_amapPpEstablish h off mem).withRef _
  · exact h.withRef _

theorem packed_amapAlloc1 (slots padslots : Nat) : Packed (amapAlloc1 slots padslots) where
  nslot_le := by
    show slots ≤ amapRoundupSlots (slots + padslots)
    unfold amapRoundupSlots
    omega
  slot_lt := fun i hi => absurd hi (Nat.not_lt_zero i)
  anon := fun i hi => absurd hi (Nat.not_lt_zero i)
  bckptr := fun i hi => absurd hi (Nat.not_lt_zero i)
  listed := fun s hs => by cases hs

theorem packed_amapAdd (h : Packed am) {slot : Nat} {a : Anon} {replace : Bool} {am' : VmAmap}
    (ha : amapAdd am slot a replace = some am') : Packed am' := by
  unfold amapAdd at ha
  split at ha
  · cases ha
  case isFalse hlt =>
    split at ha
    · split at ha
      · cases ha
      case isFalse hold =>
        cases ha
        have hsome (s : Nat) : (update am.anon slot (some a) s).isSome = (am.anon s).isSome := by
          by_cases hs : s = slot
          · rw [hs, update_self]
            exact (isSome_iff_ne_none.2 hold).symm
          · rw [update_of_ne hs]
        refine ⟨h.nslot_le, h.slot_lt, fun i hi => ?_, h.bckptr, fun s hs => ?_⟩
        · exact (hsome _).trans (h.anon i hi)
        · exact h.listed s ((hsome s).symm.trans hs)
    · split at ha
      · cases ha
      case isFalse hok =>
        cases ha
        rw [not_or, not_not] at hok
        exact h.append (by omega) hok.1 a

theorem packed_amapUnadd (h : Packed am) {slot : Nat} {am' : VmAmap} (ha : amapUnadd am slot = some am') : Packed am' := by
  unfold amapUnadd at ha
  split at ha
  · cases ha
  case isFalse hok =>
    cases ha
    rw [not_or] at hok
    exact h.removeSlot (isSome_iff_ne_none.2 hok.2)

theorem copySlots_packed (src : VmAmap) (off n lcv : Nat) (am : VmAmap) (anRef : Anon → Int) (h : Packed am)
    (hn : lcv + n ≤ am.nslot) (hfree : ∀ s, lcv ≤ s → am.anon s = none) :
    Packed (copySlots src off n lcv am anRef).1 := by
  induction n generalizing lcv am anRef with
  | zero => exact h
  | succ n ih =>
    rw [copySlots]
    split
    · have hsame : update am.anon lcv none = am.anon := by
        rw [← hfree lcv (le_refl _), update_eq_self]
      rw [hsame]
      exact ih (lcv + 1) am anRef h (by omega) fun s hs => hfree s (by omega)
    case h_2 a ha =>
      refine ih (lcv + 1) _ _ (h.append (by omega) (hfree lcv (le_refl _)) a) (by dsimp only; omega) fun s hs => ?_
      dsimp only
      rw [update_of_ne (by omega)]
      exact hfree s (by omega)

theorem amapCopy_packed (h : Packed w.amap) {off len : Nat} (hc : amapCopy w off len = some (w', am)) : Packed w'.amap ∧ Packed am := by
  unfold amapCopy at hc
  generalize hcopy : copySlots w.amap off len 0 (amapAlloc1 len 0) w.anRef = r at hc
  have hnew := copySlots_packed w.amap off len 0 (amapAlloc1 len 0) w.anRef (packed_amapAlloc1 len 0)
    (by rw [zero_add]; exact le_refl _) fun s _ => rfl
  rw [hcopy] at hnew
  obtain ⟨w₁, hadj, heq⟩ := map_eq_some_iff.1 hc
  cases heq
  have hsrc : Packed {w.amap with ref := w.amap.ref - 1} := h.withRef _
  exact ⟨(adjref_keeps hsrc hadj).packed, hnew⟩

/-! ### Extending -/

theorem Packed.grow (h : Packed am) {nslot maxslot : Nat} (hn : am.nslot ≤ nslot) (hm : nslot ≤ maxslot) : Packed {am with nslot, maxslot} :=
  ⟨hm, fun i hi => lt_of_lt_of_le (h.slot_lt i hi) hn, h.anon, h.bckptr, h.listed⟩

theorem refForwards_keeps (h : Packed w.amap) {mapend slotneed : Nat} (hr : refForwards w mapend slotneed = some w') : Keeps w w' := by
  obtain ⟨w₁, hadj, rfl⟩ := map_eq_some_iff.1 hr
  have hw₁ : Keeps w w₁ := by
    split at hadj
    · exact adjref_keeps h hadj
    · cases hadj
      exact Keeps.refl h
  exact hw₁.trans (mapPpref_keeps hw₁.packed _)

theorem le_amapRoundupSlots (n : Nat) : n ≤ amapRoundupSlots n := by
  unfold amapRoundupSlots
  omega

theorem Packed.copied (h : Packed am) (ppref : Ppref) : Packed { am with
      slots := move 0 0 am.nused am.slots fun _ => 0
      anon := move 0 0 am.nslot am.anon fun _ => none
      bckptr := move 0 0 am.nslot am.bckptr fun _ => 0
      ppref } := by
  have hslots (i : Nat) (hi : i < am.nused) : move 0 0 am.nused am.slots (fun _ => 0) i = am.slots i := by
    simp [move, hi]
  have hanon (s : Nat) : move 0 0 am.nslot am.anon (fun _ => none) s = am.anon s := by
    by_cases hs : s < am.nslot
    · simp [move, hs]
    have hnone : am.anon s = none := by
      by_contra hne
      exact hs (h.lt_of_anon (isSome_iff_ne_none.2 hne))
    simp [move, hs, hnone]
  have hbck (s : Nat) (hs : s < am.nslot) : move 0 0 am.nslot am.bckptr (fun _ => 0) s = am.bckptr s := by
    simp [move, hs]
  refine ⟨h.nslot_le, fun i hi => ?_, fun i hi => ?_, fun i hi => ?_, fun s hs => ?_⟩ <;> dsimp only at *
  · rw [hslots i hi]
    exact h.slot_lt i hi
  · rw [hslots i hi, hanon]
    exact h.anon i hi
  · rw [hslots i hi, hbck _ (h.slot_lt i hi)]
    exact h.bckptr i hi
  rw [hanon] at hs
  obtain ⟨i, hi, rfl⟩ := h.listed s hs
  exact ⟨i, hi, hslots i hi⟩

theorem amapExtendForwards_packed (h : Packed w.amap) {off len add : Nat} {mem : Mem} {r : Except Errno Nat}
    (he : amapExtendForwards w off len add mem = some (w', r)) : Packed w'.amap := by
  unfold amapExtendForwards at he
  dsimp only at he
  split at he
  · obtain ⟨w₁, hadj, heq⟩ := map_eq_some_iff.1 he
    cases heq
    exact (adjref_keeps h hadj).packed
  case isFalse hn =>
    split at he
    case isTrue hm =>
      obtain ⟨w₁, href, heq⟩ := map_eq_some_iff.1 he
      cases heq
      have hk := refForwards_keeps h href
      have h₁ := hk.nslot
      have h₂ := hk.maxslot
      exact hk.packed.grow (by omega) (by omega)
    case isFalse hm =>
      split at he
      · cases he
        exact h
      split at he
      · cases he
        exact h
      obtain ⟨w₁, href, heq⟩ := map_eq_some_iff.1 he
      cases heq
      have hk := refForwards_keeps (h.copied _) href
      have h₁ : w₁.amap.nslot = w.amap.nslot := hk.nslot
      exact hk.packed.grow (by omega) (le_amapRoundupSlots _)

/-- Every anon of the amap is in a slot of the aref. -/
def Covers (off len : Nat) (am : VmAmap) : Prop := ∀ s, s < am.nslot → (am.anon s).isSome = true → off ≤ s ∧ s < off + len

instance (off len : Nat) (am : VmAmap) : Decidable (Covers off len am) :=
  inferInstanceAs (Decidable (∀ s, s < am.nslot → (am.anon s).isSome = true → off ≤ s ∧ s < off + len))

/-- An extension at the front has the arrays slide up. -/
def Slides (am : VmAmap) (off len add : Nat) (mem : Mem) : Prop :=
  off < add ∧ (add + len ≤ am.maxslot ∨ add + len < UVM_AMAP_LARGE ∧ mem.arrays = true)

instance (am : VmAmap) (off len add : Nat) (mem : Mem) : Decidable (Slides am off len add mem) :=
  inferInstanceAs (Decidable (off < add ∧ (add + len ≤ am.maxslot ∨ add + len < UVM_AMAP_LARGE ∧ mem.arrays = true)))

theorem Packed.slide (h : Packed am) {off len : Nat} (area : Nat) (hc : Covers off len am) (hoff : off ≤ area) {am' : VmAmap}
    (hnslot : am'.nslot = area + len) (hmax : am'.maxslot = area + len) (hnused : am'.nused = am.nused)
    (hslots : ∀ i, i < am.nused → am'.slots i = am.slots i + (area - off))
    (hanon : ∀ k, am'.anon k = if area ≤ k ∧ k < area + len then am.anon (k - area + off) else none)
    (hbck : ∀ k, area ≤ k → k < area + len → am'.bckptr k = am.bckptr (k - area + off)) : Packed am' := by
  have hin (i : Nat) (hi : i < am.nused) : off ≤ am.slots i ∧ am.slots i < off + len :=
    hc _ (h.slot_lt i hi) (h.anon i hi)
  have hback (i : Nat) (hi : i < am.nused) : am.slots i + (area - off) - area + off = am.slots i := by
    have := hin i hi
    omega
  refine ⟨by omega, fun i hi => ?_, fun i hi => ?_, fun i hi => ?_, fun k hk => ?_⟩
  · rw [hslots i (by omega)]
    have := hin i (by omega)
    omega
  · have := hin i (by omega)
    rw [hslots i (by omega), hanon, if_pos (by omega), hback i (by omega)]
    exact h.anon i (by omega)
  · have := hin i (by omega)
    rw [hslots i (by omega), hbck _ (by omega) (by omega), hback i (by omega)]
    exact h.bckptr i (by omega)
  rw [hanon k] at hk
  split at hk
  case isTrue hr =>
    obtain ⟨i, hi, he⟩ := h.listed _ hk
    exact ⟨i, by omega, by rw [hslots i hi]; omega⟩
  · cases hk

theorem Packed.anon_eq_none (h : Packed am) {off len : Nat} (hc : Covers off len am) {s : Nat}
    (hs : s < off ∨ off + len ≤ s) : am.anon s = none := by
  by_contra hne
  have hsome := isSome_iff_ne_none.2 hne
  have := hc s (h.lt_of_anon hsome) hsome
  omega

theorem amapExtendBackwards_packed (h : Packed w.amap) {off len add : Nat} (hin : off + len ≤ w.amap.nslot) {mem : Mem}
    {r : Except Errno Nat} (hc : Slides w.amap off len add mem → Covers off len w.amap)
    (he : amapExtendBackwards w off len add mem = some (w', r)) : Packed w'.amap := by
  have hle := h.nslot_le
  unfold amapExtendBackwards at he
  dsimp only at he
  split at he
  · obtain ⟨w₁, hadj, heq⟩ := map_eq_some_iff.1 he
    cases heq
    exact (adjref_keeps h hadj).packed
  case isFalse hadd =>
    split at he
    case isTrue hm =>
      have hc := hc ⟨by omega, .inl hm⟩
      cases he
      obtain ⟨ppref, heq⟩ := mapPpref_amap w fun ppref =>
        ppSetreflen (ppSetreflen (move (w.amap.maxslot - len) off len ppref ppref) 0 0 (w.amap.maxslot - len - add))
          (w.amap.maxslot - len - add) 1 add
      rw [heq]
      refine h.slide (w.amap.maxslot - len) hc (by omega) (by dsimp only; omega) (by dsimp only; omega) rfl
        (fun i hi => if_pos hi) (fun k => ?_) (fun k hk hk' => if_pos ⟨hk, hk'⟩)
      dsimp only
      rw [move]
      by_cases hk : w.amap.maxslot - len ≤ k ∧ k < w.amap.maxslot - len + len
      · rw [if_neg (by omega), if_pos hk, if_pos hk]
      rw [if_neg hk, if_neg hk, ite_eq_left_iff]
      intro hfront
      exact h.anon_eq_none hc (by omega)
    case isFalse hm =>
      split at he
      · cases he
        exact h
      case isFalse hlarge =>
        split at he
        · cases he
          exact h
        case isFalse hmem =>
          have hc := hc ⟨by omega, .inr ⟨Nat.not_le.1 hlarge, by simpa using hmem⟩⟩
          cases he
          have hround := le_amapRoundupSlots (add + len)
          exact h.slide (amapRoundupSlots (add + len) - len) hc (by omega) (by dsimp only; omega) (by dsimp only; omega) rfl
            (fun i hi => if_pos hi) (fun k => rfl) (fun k hk hk' => if_pos ⟨hk, hk'⟩)

end

end NetBSD.Uvm.Amap
