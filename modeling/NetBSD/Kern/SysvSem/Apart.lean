import NetBSD.Kern.SysvSem.Storage

/-! What a process sees of a set through its id, and what others can do to it.

The sets stay apart in every run in which `semget` does not hand out the id of a removed
set that a call still sleeps for. A sequence number has 15 bits, so in the end it does; the
call then takes the new set for its own, and operates on semaphores behind it. -/
namespace NetBSD.Kern.SysvSem
open Lib

/-- A semaphore as seen through the id of its set. -/
def State.semAt (st : State) (semid num : Nat) : Option Sem :=
  match st.lookup semid with
  | none => none
  | some ix => if num < (st.sema ix).semNsems then some (st.sem ((st.sema ix).semBase + num)) else none

section Views
variable {st st' : State}

theorem lookup_of_live {semid : Nat} (hlt : ipcidToIx semid < st.semmni) (halloc : (st.sema (ipcidToIx semid)).alloc = true)
    (hseq : (st.sema (ipcidToIx semid)).seq = ipcidToSeq semid) : st.lookup semid = some (ipcidToIx semid) := by
  unfold State.lookup
  rw [if_neg (not_le.mpr hlt)]
  simp [halloc, hseq]

theorem semAt_of_kept {keep : Nat → Prop} (hs : Slices st) (hs' : Slices st')
    (halloc : ∀ i, (st'.sema i).alloc = true ↔ keep i ∧ (st.sema i).alloc = true)
    (hsame : ∀ i, keep i → (st.sema i).alloc = true → (st'.sema i).seq = (st.sema i).seq ∧ (st'.sema i).semNsems = (st.sema i).semNsems)
    (hsem : ∀ i, keep i → (st.sema i).alloc = true → ∀ o < (st.sema i).semNsems,
      st'.sem ((st'.sema i).semBase + o) = st.sem ((st.sema i).semBase + o))
    {semid : Nat} (hkeep : ∀ i, st.lookup semid = some i → keep i) (num : Nat) : st'.semAt semid num = st.semAt semid num := by
  unfold State.semAt
  cases hl : st.lookup semid with
  | some ix =>
    obtain ⟨rfl, hlt, ha, hseq⟩ := lookup_eq_some hl
    have hk := hkeep _ hl
    obtain ⟨hseq', hnsems⟩ := hsame _ hk ha
    have ha' := (halloc _).mpr ⟨hk, ha⟩
    rw [lookup_of_live (hs'.lt _ ha') ha' (hseq'.trans hseq)]
    simp only [hnsems]
    split
    · next hnum => rw [hsem _ hk ha num hnum]
    · rfl
  | none =>
    cases hl' : st'.lookup semid with
    | none => rfl
    | some ix =>
      obtain ⟨rfl, hlt, ha', hseq⟩ := lookup_eq_some hl'
      obtain ⟨hk, ha⟩ := (halloc _).mp ha'
      have hold := lookup_of_live (hs.lt _ ha) ha ((hsame _ hk ha).1.symm.trans hseq)
      exact absurd (hold.symm.trans hl) (by simp)

theorem removeSet_semAt (hs : Slices st) {ix semid : Nat} (hix : (st.sema ix).alloc = true) (hne : st.lookup semid ≠ some ix)
    (num : Nat) : (st.removeSet ix).semAt semid num = st.semAt semid num := by
  apply @semAt_of_kept st (st.removeSet ix) (· ≠ ix) hs (hs.removeSet hix) (fun i => removeSet_alloc ix i)
  · exact fun i _ _ => ⟨(removeSet_nsems ix i).2.1, (removeSet_nsems ix i).1⟩
  · exact fun i hi ha o ho => removeSet_sem hs hix ha hi ho
  · rintro i hi rfl
    exact hne hi

theorem reallocEnd_semAt (hs : Slices st) {mni mns mnu : Nat} (h : st.reallocEnd mni mns mnu = (st', none)) (semid num : Nat) :
    st'.semAt semid num = st.semAt semid num := by
  rcases reallocEnd_cases hs mni mns mnu with heq | ⟨st'', heq, hmni, h1, h2, -, -, hsema, hsem⟩
  · rw [heq] at h
    exact absurd (congrArg Prod.snd h) (by simp)
  obtain rfl : st'' = st' := congrArg Prod.fst (heq.symm.trans h)
  apply @semAt_of_kept st st'' (fun _ => True) hs (hs.realloc hmni h1 h2 hsema)
  · intro i
    rw [hsema]
    by_cases ha : (st.sema i).alloc = true
    · rw [if_pos ha]
      exact ⟨fun _ => ⟨trivial, ha⟩, fun h => h.2⟩
    · rw [if_neg ha]
      exact iff_of_false Bool.false_ne_true fun h => ha h.2
  · intro i _ ha
    rw [hsema, if_pos ha]
    exact ⟨rfl, rfl⟩
  · intro i _ ha o ho
    rw [hsema, if_pos ha]
    exact hsem i ha o ho
  · exact fun _ _ => trivial

end Views

/-- No set has to do with the storage of another. -/
structure StorageApart (w : World) : Prop where
  disjoint : ∀ i j k, w.st.Owns i k → w.st.Owns j k → i = j
  exact : ∀ k, (∃ i, w.st.Owns i k) ↔ k < w.st.semtot
  rmid : ∀ semid perm st', w.st.ipcRmid semid perm = (st', none) → ∀ id, w.st.lookup id ≠ w.st.lookup semid →
    ∀ num, st'.semAt id num = w.st.semAt id num
  realloc : ∀ mni mns mnu st', w.st.reallocEnd mni mns mnu = (st', none) → ∀ id num, st'.semAt id num = w.st.semAt id num
  undo : ∀ suptr ∈ w.st.semuList, ∀ e ∈ suptr.unEnt, (w.st.sema e.unId).alloc = true ∧ e.unNum < (w.st.sema e.unId).semNsems
  /-- `semexit` does not panic, and what it adjusts the process has operated on. -/
  exit : ∀ p, ∃ st', w.st.semexit p = some st' ∧ ∀ k, st'.sem k ≠ w.st.sem k →
    ∃ id num, k = (w.st.sema id).semBase + num ∧ num < (w.st.sema id).semNsems ∧ (p, id, w.gen id, num) ∈ w.touched

section Apart
variable {w : World}

theorem StorageInv.semexit (h : StorageInv w) (p : Proc) : ∃ st', w.st.semexit p = some st' ∧
    ∀ k, st'.sem k ≠ w.st.sem k → ∃ id num, k = (w.st.sema id).semBase + num ∧ num < (w.st.sema id).semNsems ∧
      (p, id, w.gen id, num) ∈ w.touched := by
  obtain ⟨st', heq, -, -, -, hsem⟩ := applyUndos_spec (entsOf w.st.semuList p) fun e he => (h.entry he).1
  refine ⟨{st' with semuList := w.st.semuList.eraseP (·.unProc = p)}, ?_, fun k hk => ?_⟩
  · rw [State.semexit, heq]
    rfl
  obtain ⟨e, he, hke⟩ := hsem k hk
  obtain ⟨-, hnum, htouched⟩ := h.entry he
  exact ⟨e.unId, e.unNum, hke, hnum, htouched⟩

theorem StorageInv.apart (h : StorageInv w) : StorageApart w where
  disjoint := h.slices.disjoint
  exact k := ⟨fun ⟨i, hi⟩ => h.slices.top i k hi, h.slices.cover k⟩
  rmid semid perm st' hs id hne num := by
    rcases @ipcRmid_cases w.st semid perm with ⟨e, heq⟩ | ⟨ix, hlook, heq⟩
    · rw [heq] at hs
      exact absurd (congrArg Prod.snd hs) (by simp)
    rw [heq] at hs
    obtain rfl : w.st.removeSet ix = st' := congrArg Prod.fst hs
    rw [hlook] at hne
    exact removeSet_semAt h.slices (lookup_eq_some hlook).2.2.1 hne num
  realloc mni mns mnu st' hs := reallocEnd_semAt h.slices hs
  undo suptr hs e he := by
    have hadj : semadj w.st.semuList suptr.unProc e.unId e.unNum ≠ 0 :=
      (semadj_ne_zero h.undo).mpr ⟨suptr, hs, rfl, e, he, rfl, rfl⟩
    obtain ⟨h1, h2, -⟩ := h.entries _ _ _ hadj
    exact ⟨h1, h2⟩
  exit := h.semexit

/-- In every run in which `semget` never gives out the id of a removed set that a call
still sleeps for, the sets stay apart. -/
theorem storage_never_mixes (h : semSystem.Reach Unslept w) : StorageApart w := (reach_storageInv h).apart

/-- Two sets, and the first one removed. -/
def twoSetActs : List Act :=
  [.semget 0 2 false false true, .semget 0 1 false false true, .setval 65537 0 7 true, .rmid 65536 true]

instance (st : State) (c : Call) : Decidable (st.Live c) := inferInstanceAs (Decidable (_ ∧ _))

instance (w : World) : (a : Act) → Decidable (Unslept w a)
  | .semget _ _ _ _ _ => inferInstanceAs (Decidable (∀ s ∈ w.st.sleepers, ¬(_ ∧ _)))
  | .rmid _ _ | .setval _ _ _ _ | .setall _ _ _ | .semop _ _ _ _ _ | .wake _ _ | .exit _ | .reallocBegin _ _ _
  | .reallocEnd => inferInstanceAs (Decidable True)

theorem storage_never_mixes_twoSets : ∃ w, semSystem.Reach Unslept w ∧ w.st.semAt 65537 0 = some ⟨7, 0, 0, 0⟩ ∧ StorageApart w := by
  have hrun : ((System.run (System.guarded Unslept World.next) booted twoSetActs).map fun w => w.st.semAt 65537 0) =
      some (some ⟨7, 0, 0, 0⟩) := by decide
  obtain ⟨w, hw, hval⟩ := Option.map_eq_some_iff.mp hrun
  have hreach := System.reach_run (· = booted) Unslept World.next booted twoSetActs rfl hw
  exact ⟨w, hreach, hval, storage_never_mixes hreach⟩

end Apart

/-! ### An id that comes back -/

/-- The call that sleeps: it raises semaphore 1 when semaphore 0 is 0. -/
def lateCall : Call := ⟨1, 1, 0, 1, [⟨1, 1, false, true⟩, ⟨0, 0, false, false⟩]⟩
def lateSleeper (woken : Bool) : Sleeper := ⟨lateCall, [⟨1, 1, false, true⟩], ⟨0, 0, false, false⟩, true, woken⟩

/-- The first slot has been used up to the sequence number `seq`, while the call sleeps. -/
def worn (alloc : Bool) (seq nsems : Nat) (first : Sem) (woken : Bool) : State where
  semmni := 10
  semmns := 60
  semmnu := 30
  semtot := if alloc then nsems else 0
  sema i := if i = 0 then ⟨alloc, 0, seq, nsems, 0⟩ else .zero
  sem i := if i = 0 then first else .zero
  semuList := []
  sleepers := [lateSleeper woken]
  semReallocState := false
  reallocator := none

section Worn
variable {w : World} {seq nsems : Nat} {first : Sem} {woken : Bool}

theorem worn_semget : (worn false seq nsems first woken).sysSemget 0 1 false false true =
    (worn true ((seq + 1) % 2 ^ 15) 1 .zero woken, .ok (ipcid 0 ((seq + 1) % 2 ^ 15))) := by
  have hsema : ((worn false seq nsems first woken).createSet 0 0 1).sema = (worn true ((seq + 1) % 2 ^ 15) 1 .zero woken).sema := by
    funext i
    rw [createSet_sema]
    by_cases hi : i = 0
    · rw [hi]
      rfl
    · rw [worn, worn]
      simp [if_neg hi]
  have hsem : ((worn false seq nsems first woken).createSet 0 0 1).sem = (worn true ((seq + 1) % 2 ^ 15) 1 .zero woken).sem := by
    funext i
    by_cases hi : i = 0
    · simp [State.createSet, worn, hi]
    · simp [State.createSet, worn, hi]
  have hnew : (worn false seq nsems first woken).createSet 0 0 1 = worn true ((seq + 1) % 2 ^ 15) 1 .zero woken := by
    rw [State.mk.injEq]
    exact ⟨rfl, rfl, rfl, rfl, hsema, hsem, rfl, rfl, rfl, rfl⟩
  have hget : (worn false seq nsems first woken).sysSemget 0 1 false false true = ((worn false seq nsems first woken).createSet 0 0 1,
        .ok (ipcid 0 (((worn false seq nsems first woken).createSet 0 0 1).sema 0).seq)) := rfl
  rw [hget, hnew]
  rfl

theorem worn_rmid (h : seq < 2 ^ 15) : (worn true seq nsems first woken).ipcRmid (ipcid 0 seq) true = (worn false seq nsems first true, none) := by
  have hlook : (worn true seq nsems first woken).lookup (ipcid 0 seq) = some 0 := by
    unfold State.lookup
    rw [ipcid_ix (by decide), ipcid_seq h]
    simp [worn]
  have hsema : ((worn true seq nsems first woken).removeSet 0).sema = (worn false seq nsems first true).sema := by
    funext i
    by_cases hi : i = 0
    · simp [State.removeSet, State.cvBroadcast, worn, hi]
    · simp [State.removeSet, State.cvBroadcast, worn, hi, SemidDs.zero]
  have hsem : ((worn true seq nsems first woken).removeSet 0).sem = (worn false seq nsems first true).sem := by
    simp [State.removeSet, State.cvBroadcast, worn]
  have hsemtot : ((worn true seq nsems first woken).removeSet 0).semtot = 0 := by
    simp [State.removeSet, State.cvBroadcast, worn]
  have hgone : (worn true seq nsems first woken).removeSet 0 = worn false seq nsems first true := by
    rw [State.mk.injEq]
    exact ⟨rfl, rfl, rfl, hsemtot, hsema, hsem, rfl, rfl, rfl, rfl⟩
  rw [State.ipcRmid, hlook]
  simp [if_true, hgone]

theorem reachable_next {w' : World} {a : Act} (h : semSystem.Reachable w) (hs : w.next a = some w') : semSystem.Reachable w' := .step h trivial hs

theorem reachable_semget (h : semSystem.Reachable w) (hst : w.st = worn false seq nsems first woken) :
    ∃ w', semSystem.Reachable w' ∧ w'.st = worn true ((seq + 1) % 2 ^ 15) 1 .zero woken := by
  obtain ⟨w', hw', hst'⟩ : ∃ w', w.next (.semget 0 1 false false true) = some w' ∧
      w'.st = (w.st.sysSemget 0 1 false false true).1 := ⟨_, rfl, rfl⟩
  rw [hst, worn_semget] at hst'
  exact ⟨w', reachable_next h hw', hst'⟩

theorem reachable_rmid (h : semSystem.Reachable w) (hst : w.st = worn true seq nsems first woken) (hseq : seq < 2 ^ 15) :
    ∃ w', semSystem.Reachable w' ∧ w'.st = worn false seq nsems first true := by
  obtain ⟨w', hw', hst'⟩ : ∃ w', w.next (.rmid (ipcid 0 seq) true) = some w' ∧
      w'.st = (w.st.ipcRmid (ipcid 0 seq) true).1 := ⟨_, rfl, rfl⟩
  rw [hst, worn_rmid hseq] at hst'
  exact ⟨w', reachable_next h hw', hst'⟩

def lateActs : List Act := [.semget 0 2 false false true, .setval 65536 0 1 true, .semop 1 1 65536 lateCall.sops true]

theorem reachable_late : ∃ w, semSystem.Reachable w ∧ w.st = worn true 1 2 ⟨1, 0, 0, 1⟩ false := by
  obtain ⟨w, hw, hst⟩ : ∃ w, System.run (System.guarded (fun _ _ => True) World.next) booted lateActs = some w ∧
      w.st = worn true 1 2 ⟨1, 0, 0, 1⟩ false := by
    refine ⟨_, rfl, ?_⟩
    rw [State.mk.injEq]
    refine ⟨rfl, rfl, rfl, rfl, ?_, ?_, rfl, rfl, rfl, rfl⟩
    · funext i
      match i with
      | 0 => rfl
      | i + 1 => rfl
    funext i
    match i with
    | 0 => rfl
    | 1 => rfl
    | i + 2 => rfl
  exact ⟨w, System.reach_run (· = booted) (fun _ _ => True) World.next booted lateActs rfl hw, hst⟩

theorem reachable_worn (n : Nat) : ∃ w nsems first, semSystem.Reachable w ∧ w.st = worn false ((1 + n) % 2 ^ 15) nsems first true := by
  induction n with
  | zero =>
    obtain ⟨w, hw, hst⟩ := reachable_late
    obtain ⟨w', hw', hst'⟩ := reachable_rmid hw hst (by decide)
    exact ⟨w', _, _, hw', hst'⟩
  | succ n ih =>
    obtain ⟨w, nsems, first, hw, hst⟩ := ih
    obtain ⟨w₁, hw₁, hst₁⟩ := reachable_semget hw hst
    obtain ⟨w₂, hw₂, hst₂⟩ := reachable_rmid hw₁ hst₁ (Nat.mod_lt _ (by decide))
    have hseq : ((1 + n) % 2 ^ 15 + 1) % 2 ^ 15 = (1 + (n + 1)) % 2 ^ 15 := by omega
    rw [hseq] at hst₂
    exact ⟨w₂, 1, .zero, hw₂, hst₂⟩

/-- When the sequence number comes round, the new set has the id of the old one. Its one
semaphore is 0, so the call goes on, and it raises semaphore 1. -/
theorem woken_call_mixes_sets : ¬∀ w, semSystem.Reachable w → StorageApart w := by
  intro h
  obtain ⟨w, nsems, first, hw, hst⟩ := reachable_worn (2 ^ 15 - 1)
  obtain ⟨w₁, hw₁, hst₁⟩ := reachable_semget hw hst
  replace hst₁ : w₁.st = worn true 1 1 .zero true := hst₁
  have hmem : lateSleeper true ∈ w₁.st.sleepers := by
    rw [hst₁]
    exact List.mem_cons_self
  obtain ⟨w₂, hw₂, hst₂⟩ : ∃ w₂, w₁.next (.wake (lateSleeper true) false) = some w₂ ∧
      w₂.st = (w₁.st.semopWake (lateSleeper true) false).1 := ⟨_, if_pos ⟨hmem, .inl rfl⟩, rfl⟩
  have hbad : ∃ suptr ∈ ((worn true 1 1 .zero true).semopWake (lateSleeper true) false).1.semuList, ∃ e ∈ suptr.unEnt,
      (((worn true 1 1 .zero true).semopWake (lateSleeper true) false).1.sema e.unId).semNsems ≤ e.unNum := by decide
  rw [← hst₁, ← hst₂] at hbad
  obtain ⟨suptr, hs, e, he, hnum⟩ := hbad
  have hundo := (h w₂ (reachable_next hw₁ hw₂)).undo suptr hs e he
  exact absurd hundo.2 (not_lt.mpr hnum)

end Worn

end NetBSD.Kern.SysvSem
