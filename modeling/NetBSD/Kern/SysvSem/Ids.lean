import NetBSD.Kern.SysvSem.Apart

/-! The id of a removed set.

A slot counts its allocations in `_seq`, modulo `2 ^ 15`, and an id names the slot and the
count. `semrealloc` copies the slots that are in use only: the count of a free slot begins
anew, and with it the ids it gives out. -/
namespace NetBSD.Kern.SysvSem
open Function Option
open Lib

section Steps
variable {w w' : World} {a : Act}

theorem next_sets (hs : Slices w.st) (hok : UndoOk w.st.semuList) (h : w.next a = some w') : (SameSets w.st w'.st ∧ w'.gen = w.gen) ∨
    (∃ ix key n, ix < w.st.semmni ∧ (w.st.sema ix).alloc = false ∧ 0 < n ∧ w'.st = w.st.createSet ix key n ∧
      w'.gen = update w.gen ix (w.gen ix + 1)) ∨
    (∃ ix, (w.st.sema ix).alloc = true ∧ w'.st = w.st.removeSet ix ∧ w'.gen = w.gen) ∨
    ∃ mni mns mnu, a = .reallocEnd ∧ w.st.reallocator = some (mni, mns, mnu) ∧
      w.st.reallocEnd mni mns mnu = (w'.st, none) ∧ w'.gen = w.gen := by
  cases next_did h with
  | refused => exact .inl ⟨.refl w.st, rfl⟩
  | created hix hfree hn => exact .inr (.inl ⟨_, _, _, hix, hfree, hn, rfl, rfl⟩)
  | removed hlook => exact .inr (.inr (.inl ⟨_, (lookup_eq_some hlook).2.2.1, rfl, rfl⟩))
  | set | gone | stopped | began => exact .inl ⟨⟨rfl, rfl, rfl⟩, rfl⟩
  | operated => exact .inl ⟨(semopLoop_frame hok _ _).1, rfl⟩
  | @again s =>
    have hloop := (@semopLoop_frame (w.st.awake s) hok s.call s.doUndos).1
    exact .inl ⟨⟨hloop.sema, hloop.semmni, hloop.semtot⟩, rfl⟩
  | exited hexit =>
    obtain ⟨st', hfold, rfl⟩ := map_eq_some_iff.mp hexit
    have hsets := applyUndos_sets hfold
    exact .inl ⟨⟨hsets.sema, hsets.semmni, hsets.semtot⟩, rfl⟩
  | @ended mni mns mnu hre =>
    rcases @reallocEnd_cases w.st hs mni mns mnu with heq | ⟨st', heq, -⟩
    · rw [heq]
      exact .inl ⟨⟨rfl, rfl, rfl⟩, rfl⟩
    · rw [heq]
      exact .inr (.inr (.inr ⟨mni, mns, mnu, rfl, hre, heq, rfl⟩))

/-- The copying `semrealloc` loses no count, and the ids stay apart. -/
def SeqKept (w : World) : Act → Prop
  | .reallocEnd => ∀ r ∈ w.st.reallocator, w.st.lsemid < r.1 ∧ w.st.semtot ≤ r.2.1 ∧ w.st.semuList.length ≤ r.2.2 →
      r.1 ≤ 2 ^ 16 ∧ ∀ i < w.st.semmni, (w.st.sema i).alloc = false → (w.st.sema i).seq = 0
  | _ => True

/-- Every slot counts its allocations. -/
structure IdInv (w : World) : Prop where
  slices : Slices w.st
  undo : UndoOk w.st.semuList
  small : w.st.semmni ≤ 2 ^ 16
  seq : ∀ i, (w.st.sema i).seq = w.gen i % 2 ^ 15
  beyond : ∀ i, w.st.semmni ≤ i → (w.st.sema i).seq = 0

theorem reallocEnd_fits {st st' : State} {mni mns mnu : Nat} (h : st.reallocEnd mni mns mnu = (st', none)) :
    st.lsemid < mni ∧ st.semtot ≤ mns ∧ st.semuList.length ≤ mnu := by
  unfold State.reallocEnd at h
  split at h
  · exact absurd (congrArg Prod.snd h) (by simp)
  · next hfit =>
    push Not at hfit
    exact hfit

theorem Slices.next (hs : Slices w.st) (hok : UndoOk w.st.semuList) (h : w.next a = some w') : Slices w'.st := by
  rcases next_sets hs hok h with ⟨hsets, -⟩ | ⟨ix, key, n, hix, hfree, hn, hst, -⟩ | ⟨ix, halloc, hst, -⟩ |
      ⟨mni, mns, mnu, -, -, hre, -⟩
  · exact hs.congr hsets
  · rw [hst]
    exact hs.createSet key hix hfree hn
  · rw [hst]
    exact hs.removeSet halloc
  rcases reallocEnd_cases hs mni mns mnu with heq | ⟨st', heq, hmni, h1, h2, -, -, hsema, -⟩
  · rw [heq] at hre
    exact absurd (congrArg Prod.snd hre) (by simp)
  · obtain rfl : st' = w'.st := congrArg Prod.fst (heq.symm.trans hre)
    exact hs.realloc hmni h1 h2 hsema

theorem IdInv.next (h : IdInv w) (hkept : SeqKept w a) (hs : w.next a = some w') : IdInv w' := by
  have hslices := h.slices.next h.undo hs
  have hundo := next_undoOk h.undo hs
  rcases next_sets h.slices h.undo hs with ⟨hsets, hgen⟩ | ⟨ix, key, n, hix, hfree, hn, hst, hgen⟩ | ⟨ix, halloc, hst, hgen⟩ |
      ⟨mni, mns, mnu, rfl, hsome, hre, hgen⟩
  · refine ⟨hslices, hundo, ?_, ?_, ?_⟩
    · rw [hsets.semmni]
      exact h.small
    · rw [hsets.sema, hgen]
      exact h.seq
    · rw [hsets.semmni, hsets.sema]
      exact h.beyond
  · have hmni : w'.st.semmni = w.st.semmni := by rw [hst]; rfl
    refine ⟨hslices, hundo, hmni ▸ h.small, fun i => ?_, fun i hi => ?_⟩
    · rw [hst, hgen, createSet_sema]
      by_cases hi : i = ix
      · subst hi
        rw [if_pos rfl, update_self, h.seq i]
        simp only
        omega
      · rw [if_neg hi, update_of_ne hi]
        exact h.seq i
    · rw [hmni] at hi
      rw [hst, createSet_sema, if_neg (by omega)]
      exact h.beyond i hi
  · have hmni : w'.st.semmni = w.st.semmni := by rw [hst]; rfl
    refine ⟨hslices, hundo, hmni ▸ h.small, fun i => ?_, fun i hi => ?_⟩
    · rw [hst, hgen, (removeSet_nsems ix i).2.1]
      exact h.seq i
    rw [hmni] at hi
    rw [hst, (removeSet_nsems ix i).2.1]
    exact h.beyond i hi
  have hkept' : mni ≤ 2 ^ 16 ∧ ∀ i < w.st.semmni, (w.st.sema i).alloc = false → (w.st.sema i).seq = 0 :=
    hkept (mni, mns, mnu) hsome (reallocEnd_fits hre)
  rcases reallocEnd_cases h.slices mni mns mnu with heq | ⟨st', heq, hmni, h1, -, -, -, hsema, -⟩
  · rw [heq] at hre
    exact absurd (congrArg Prod.snd hre) (by simp)
  obtain rfl : st' = w'.st := congrArg Prod.fst (heq.symm.trans hre)
  refine ⟨hslices, hundo, h1 ▸ hkept'.1, fun i => ?_, fun i hi => ?_⟩
  · rw [hsema, hgen]
    by_cases ha : (w.st.sema i).alloc = true
    · rw [if_pos ha]
      exact h.seq i
    -- A free slot begins anew; its count was 0 before.
    rw [if_neg ha, ← h.seq i]
    by_cases hi : i < w.st.semmni
    · exact (hkept'.2 i hi (Bool.eq_false_iff.mpr ha)).symm
    · exact (h.beyond i (not_lt.mp hi)).symm
  · by_cases ha : (w.st.sema i).alloc = true
    · have hlt := le_lsemid h.slices ha
      omega
    · rw [hsema, if_neg ha]
      rfl

theorem reach_idInv (h : semSystem.Reach SeqKept w) : IdInv w := by
  refine h.invariant (fun w hw => ?_) fun w a w' hinv hok hs => @IdInv.next w w' a hinv hok hs
  obtain rfl : w = booted := hw
  exact ⟨booted_slices, ⟨List.nodup_nil, fun x hx => absurd hx List.not_mem_nil⟩, by decide, fun i => rfl, fun i _ => rfl⟩

end Steps

/-! ### Dead ids -/

/-- No call accepts the id, and `semget` does not return it. -/
structure DeadId (st : State) (semid : Nat) : Prop where
  lookup : st.lookup semid = none
  semop : ∀ lwp p sops perm, ∃ e, st.sysSemop lwp p semid sops perm = (st, .error e)
  rmid : ∀ perm, st.ipcRmid semid perm = (st, some .EINVAL)
  setval : ∀ semnum val perm, st.setval semid semnum val perm = (st, some .EINVAL)
  setall : ∀ vals perm, st.setall semid vals perm = (st, some .EINVAL)
  semget : ∀ key nsems creat excl perm, (st.sysSemget key nsems creat excl perm).2 ≠ .ok semid

section Dead
variable {w w₁ w₂ : World} {semid : Nat}

/-- The set is gone: its slot has moved on, or is free. -/
structure Gone (ix g : Nat) (w : World) : Prop where
  le : g ≤ w.gen ix
  free : w.gen ix = g → (w.st.sema ix).alloc = false

theorem Gone.next {ix g : Nat} {a : Act} (h : Gone ix g w₁) (hinv : IdInv w₁) (hs : w₁.next a = some w₂) : Gone ix g w₂ := by
  rcases next_sets hinv.slices hinv.undo hs with ⟨hsets, hgen⟩ | ⟨ix', key, n, -, -, -, hst, hgen⟩ | ⟨ix', -, hst, hgen⟩ |
      ⟨mni, mns, mnu, rfl, -, hre, hgen⟩
  · refine ⟨hgen ▸ h.le, fun hg => ?_⟩
    rw [hsets.sema]
    exact h.free (hgen ▸ hg)
  · have hle := h.le
    by_cases hix : ix = ix'
    · subst hix
      have hmore : w₂.gen ix = w₁.gen ix + 1 := by rw [hgen, update_self]
      exact ⟨by omega, fun hg => by omega⟩
    have hsame : w₂.gen ix = w₁.gen ix := by rw [hgen, update_of_ne hix]
    refine ⟨by omega, fun hg => ?_⟩
    rw [hst, createSet_sema, if_neg hix]
    exact h.free (hsame ▸ hg)
  · refine ⟨hgen ▸ h.le, fun hg => ?_⟩
    rw [hst, Bool.eq_false_iff, ne_eq, removeSet_alloc, h.free (hgen ▸ hg)]
    exact fun ha => Bool.false_ne_true ha.2
  · refine ⟨hgen ▸ h.le, fun hg => ?_⟩
    rcases reallocEnd_cases hinv.slices mni mns mnu with heq | ⟨st', heq, -, -, -, -, -, hsema, -⟩
    · rw [heq] at hre
      exact absurd (congrArg Prod.snd hre) (by simp)
    obtain rfl : st' = w₂.st := congrArg Prod.fst (heq.symm.trans hre)
    rw [hsema, if_neg (Bool.eq_false_iff.mp (h.free (hgen ▸ hg)))]
    rfl

theorem deadId_of_lookup {st : State} (h : st.lookup semid = none)
    (hget : ∀ key nsems creat excl perm, (st.sysSemget key nsems creat excl perm).2 ≠ .ok semid) : DeadId st semid where
  lookup := h
  semop lwp p sops perm := by
    rcases @sysSemop_cases st lwp p semid sops perm with hfail | ⟨hlook, -⟩
    · exact hfail
    · exact absurd (hlook.symm.trans h) (by simp)
  rmid perm := by rw [State.ipcRmid, h]
  setval semnum val perm := by rw [State.setval, h]
  setall vals perm := by rw [State.setall, h]
  semget := hget

theorem Gone.deadId (h : Gone (ipcidToIx semid) g w) (hinv : IdInv w) (hseq : ipcidToSeq semid = g % 2 ^ 15)
    (hfew : w.gen (ipcidToIx semid) < g + (2 ^ 15 - 1)) : DeadId w.st semid := by
  have hle := h.le
  have hlook : w.st.lookup semid = none := by
    cases hl : w.st.lookup semid with
    | none => rfl
    | some ix =>
      obtain ⟨rfl, -, halloc, hsame⟩ := lookup_eq_some hl
      rw [hinv.seq] at hsame
      have hg : w.gen (ipcidToIx semid) = g := by omega
      exact absurd (halloc.symm.trans (h.free hg)) (by decide)
  refine deadId_of_lookup hlook fun key nsems creat excl perm hid => ?_
  rcases @sysSemget_cases w.st key nsems creat excl perm with ⟨e, heq⟩ | ⟨ix, hix, halloc, heq⟩ |
      ⟨ix, n, hix, hfree, hn, -, -, heq⟩
  · rw [heq] at hid
    exact absurd hid (by simp)
  all_goals
    have hsmall := hinv.small
    have hslot := hinv.seq ix
    rw [heq] at hid
    obtain rfl := Except.ok.inj hid
    rw [ipcid_ix (by omega)] at hfew hle
    rw [ipcid_seq (by omega)] at hseq
  · have hlive := @lookup_of_live w.st (ipcid ix (w.st.sema ix).seq) (by rw [ipcid_ix (by omega)]; exact hix)
      (by rw [ipcid_ix (by omega)]; exact halloc) (by rw [ipcid_ix (by omega), ipcid_seq (by omega)])
    exact absurd (hlive.symm.trans hlook) (by simp)
  · omega

theorem rmid_gone {perm : Bool} (hinv : IdInv w) (hrm : w.next (.rmid semid perm) = some w₁) (hdone : (w.st.ipcRmid semid perm).2 = none) :
    ipcidToSeq semid = w.gen (ipcidToIx semid) % 2 ^ 15 ∧ Gone (ipcidToIx semid) (w.gen (ipcidToIx semid)) w₁ := by
  have hnew : {w with
      st := (w.st.ipcRmid semid perm).1
      removed := if (w.st.ipcRmid semid perm).2 = none then (ipcidToIx semid, w.gen (ipcidToIx semid)) :: w.removed
        else w.removed} = w₁ := some.inj hrm
  rcases @ipcRmid_cases w.st semid perm with ⟨e, heq⟩ | ⟨ix, hlook, heq⟩
  · rw [heq] at hdone
    exact absurd hdone (by simp)
  obtain ⟨rfl, -, halloc, hseq⟩ := lookup_eq_some hlook
  rw [heq] at hnew
  subst hnew
  refine ⟨hseq.symm.trans (hinv.seq _), le_refl _, fun _ => ?_⟩
  rw [Bool.eq_false_iff, ne_eq, removeSet_alloc]
  exact fun ha => ha.1 rfl

/-- After a set was removed, its id is dead as long as its slot has been allocated fewer
than `2 ^ 15 - 1` further times, in every run in which no `semrealloc` copies a table that
has a free slot with a count, or makes room for more than `2 ^ 16` sets. -/
theorem removed_ids_stay_dead {perm : Bool} (h : semSystem.Reach SeqKept w) (hrm : w.next (.rmid semid perm) = some w₁)
    (hdone : (w.st.ipcRmid semid perm).2 = none) (hrun : (System.ofStep (· = w₁) World.next).Reach SeqKept w₂)
    (hfew : w₂.gen (ipcidToIx semid) < w.gen (ipcidToIx semid) + (2 ^ 15 - 1)) : DeadId w₂.st semid := by
  have hinv := reach_idInv h
  obtain ⟨hseq, hgone⟩ := rmid_gone hinv hrm hdone
  have hlater : IdInv w₂ ∧ Gone (ipcidToIx semid) (w.gen (ipcidToIx semid)) w₂ := by
    clear hfew
    induction hrun with
    | init hv =>
      obtain rfl := hv
      exact ⟨@IdInv.next w _ (.rmid semid perm) hinv trivial hrm, hgone⟩
    | step _ hok hs ih => exact ⟨ih.1.next hok hs, ih.2.next ih.1 hs⟩
  exact hlater.2.deadId hlater.1 hseq hfew

instance (w : World) : (a : Act) → Decidable (SeqKept w a)
  | .reallocEnd => inferInstanceAs (Decidable (∀ r ∈ w.st.reallocator, _ → _ ∧ ∀ i < w.st.semmni, _ → _))
  | .semget _ _ _ _ _ | .rmid _ _ | .setval _ _ _ _ | .setall _ _ _ | .semop _ _ _ _ _ | .wake _ _ | .exit _
  | .reallocBegin _ _ _ => inferInstanceAs (Decidable True)

/-- A set is removed, and the slot is given to another. -/
theorem removed_ids_stay_dead_nextSet : ∃ w w₁ w₂, semSystem.Reach SeqKept w ∧ w.next (.rmid 65536 true) = some w₁ ∧
    (System.ofStep (· = w₁) World.next).Reach SeqKept w₂ ∧ w₂.st.lookup 131072 = some 0 ∧ DeadId w₂.st 65536 := by
  have hrun : ((System.run (System.guarded SeqKept World.next) booted [.semget 0 1 false false true]).bind fun w =>
      (w.next (.rmid 65536 true)).bind fun w₁ =>
        (System.run (System.guarded SeqKept World.next) w₁ [.semget 0 1 false false true]).map fun w₂ =>
          decide (w.gen 0 = 1 ∧ w₂.gen 0 = 2 ∧ (w.st.ipcRmid 65536 true).2 = none ∧ w₂.st.lookup 131072 = some 0)) = some true := by
    decide
  obtain ⟨w, hw, hrest⟩ := bind_eq_some_iff.mp hrun
  obtain ⟨w₁, hw₁, hrest⟩ := bind_eq_some_iff.mp hrest
  obtain ⟨w₂, hw₂, hfacts⟩ := map_eq_some_iff.mp hrest
  obtain ⟨hg, hg₂, hdone, hlook⟩ := of_decide_eq_true hfacts
  have hreach := System.reach_run (· = booted) SeqKept World.next booted _ rfl hw
  have hlater := System.reach_run (· = w₁) SeqKept World.next w₁ _ rfl hw₂
  have hix : ipcidToIx 65536 = 0 := rfl
  exact ⟨w, w₁, w₂, hreach, hw₁, hlater, hlook, removed_ids_stay_dead hreach hw₁ hdone hlater (by rw [hix, hg, hg₂]; decide)⟩

/-- A `semrealloc` after the removal: the next set has the id of the removed one. -/
theorem realloc_revives_id : ¬∀ w semid perm w₁ w₂, semSystem.Reachable w → w.next (.rmid semid perm) = some w₁ →
    (w.st.ipcRmid semid perm).2 = none → (System.ofStep (· = w₁) World.next).Reachable w₂ →
    w₂.gen (ipcidToIx semid) < w.gen (ipcidToIx semid) + (2 ^ 15 - 1) → DeadId w₂.st semid := by
  intro h
  have hrun : ((runActs [.semget 0 1 false false true]).bind fun w => (w.next (.rmid 65536 true)).bind fun w₁ =>
      (System.run (System.guarded (fun _ _ => True) World.next) w₁ [.reallocBegin 20 60 30, .reallocEnd]).map fun w₂ =>
        decide (w.gen 0 = 1 ∧ w₂.gen 0 = 1 ∧ (w.st.ipcRmid 65536 true).2 = none ∧
          (w₂.st.sysSemget 0 1 false false true).2.toOption = some 65536)) = some true := by
    decide
  obtain ⟨w, hw, hrest⟩ := bind_eq_some_iff.mp hrun
  obtain ⟨w₁, hw₁, hrest⟩ := bind_eq_some_iff.mp hrest
  obtain ⟨w₂, hw₂, hfacts⟩ := map_eq_some_iff.mp hrest
  obtain ⟨hg, hg₂, hdone, hget⟩ := of_decide_eq_true hfacts
  have hreach := System.reach_run (· = booted) (fun _ _ => True) World.next booted _ rfl hw
  have hlater := System.reach_run (· = w₁) (fun _ _ => True) World.next w₁ _ rfl hw₂
  have hix : ipcidToIx 65536 = 0 := rfl
  have hdead := h w 65536 true w₁ w₂ hreach hw₁ hdone hlater (by rw [hix, hg, hg₂]; decide)
  cases hr : (w₂.st.sysSemget 0 1 false false true).2 with
  | error e =>
    rw [hr] at hget
    exact absurd hget (by simp [Except.toOption])
  | ok id =>
    rw [hr] at hget
    obtain rfl : id = 65536 := some.inj hget
    exact hdead.semget 0 1 false false true hr

end Dead

end NetBSD.Kern.SysvSem
