import NetBSD.Kern.SysvSem.Atomic

/-! Resizing the tables of System V semaphores (`semrealloc`).

A call announces itself with `sem_realloc_state`, wakes all sleepers and waits for them to
leave before it looks whether the new tables are big enough. Where they are not it returns
`EBUSY` and leaves the flag set: every later `semop` waits for a reallocation that is over.
The other exits take back what they announced (`failed_resize_iff`). -/
namespace NetBSD.Kern.SysvSem
open Option
open Lib

inductive Resize where
  | done
  | EINVAL
  | ENOMEM
  | EBUSY

/-- Steps of others while the call waits. -/
inductive Others : World → World → Prop where
  | refl (w : World) : Others w w
  | step {w w₁ w₂ : World} {a : Act} : Others w w₁ → a ≠ .reallocEnd → w₁.next a = some w₂ → Others w w₂

/-- A call of `semrealloc` from `w` on, which ends in `w₂`; `mem` says whether there is memory
for the new tables. In `w₁` it has the lock for the last time. -/
inductive Resized (w : World) (newsemmni newsemmns newsemmnu : Int) : Bool → World → Resize → World → Prop where
  | invalid {mem : Bool} : newsemmni < 1 ∨ newsemmns < 1 ∨ newsemmnu < 1 → Resized w newsemmni newsemmns newsemmnu mem w .EINVAL w
  | noMemory : ¬(newsemmni < 1 ∨ newsemmns < 1 ∨ newsemmnu < 1) → Resized w newsemmni newsemmns newsemmnu false w .ENOMEM w
  | busy : ¬(newsemmni < 1 ∨ newsemmns < 1 ∨ newsemmnu < 1) → w.st.semReallocState = true →
      Resized w newsemmni newsemmns newsemmnu true w .EBUSY w
  | waited {w₀ w₁ w₂ : World} : w.next (.reallocBegin newsemmni.toNat newsemmns.toNat newsemmnu.toNat) = some w₀ →
      Others w₀ w₁ → w₁.next .reallocEnd = some w₂ →
      Resized w newsemmni newsemmns newsemmnu true w₁
        (if (w₁.st.reallocEnd newsemmni.toNat newsemmns.toNat newsemmnu.toNat).2 = none then .done else .EBUSY) w₂

structure SameTables (st st' : State) : Prop where
  sema : st'.sema = st.sema
  sem : st'.sem = st.sem
  semuList : st'.semuList = st.semuList
  semtot : st'.semtot = st.semtot
  semmni : st'.semmni = st.semmni
  semmns : st'.semmns = st.semmns
  semmnu : st'.semmnu = st.semmnu

/-- The call that ends in `w₂` has changed nothing: not the tables, nor the flag, and so no
`semop` waits that would not have waited before. -/
structure NothingChanged (w w₁ w₂ : World) : Prop where
  tables : SameTables w₁.st w₂.st
  flag : w₂.st.semReallocState = w.st.semReallocState
  semop : w.st.semReallocState = false → ∀ lwp p semid sops perm, (∀ s ∈ w₂.st.sleepers, s.call.lwp ≠ lwp) →
    (w₂.next (.semop lwp p semid sops perm)).isSome = true

/-- More is in use than there will be room for. -/
def TooSmall (st : State) (newsemmni newsemmns newsemmnu : Int) : Prop :=
  newsemmni ≤ st.lsemid ∨ newsemmns < st.semtot ∨ newsemmnu < st.semuList.length

section Wait
variable {w w₀ w₁ w₂ : World} {st : State} {newsemmni newsemmns newsemmnu : Int}

def State.announced (st : State) : Bool × Option (Nat × Nat × Nat) := (st.semReallocState, st.reallocator)

theorem semopLoop_announced (c : Call) (doUndos : Bool) : (st.semopLoop c doUndos).1.announced = st.announced := by
  have hdone (p : Pass) (l : List SemUndo) : (st.semopDone c p l).announced = st.announced := by
    unfold State.semopDone
    split <;> rfl
  unfold State.semopLoop
  simp only
  split
  · split <;> rfl
  split
  · split
    · exact hdone _ _
    · split <;> rfl
  · exact hdone _ _

theorem applyUndos_announced {st' : State} {ents : List SemUndoEntry} (h : ents.foldlM State.applyUndo st = some st') :
    st'.announced = st.announced := by
  induction ents generalizing st with
  | nil => exact some.inj h ▸ rfl
  | cons e rest ih =>
    obtain ⟨st₁, hone, hrest⟩ := bind_eq_some_iff.mp h
    unfold State.applyUndo at hone
    simp only at hone
    split at hone
    · exact absurd hone (by simp)
    · rw [ih hrest, ← some.inj hone]
      rfl

theorem next_announced {a : Act} (hs : w.next a = some w₁) (hne : a ≠ .reallocEnd) (hflag : w.st.semReallocState = true) :
    w₁.st.announced = w.st.announced := by
  cases next_did hs with
  | refused | created | removed | set | gone | stopped => rfl
  | operated hre | began hre => exact absurd hflag hre
  | again => exact semopLoop_announced _ _
  | exited hexit =>
    obtain ⟨st', hfold, rfl⟩ := map_eq_some_iff.mp hexit
    exact (applyUndos_announced hfold : st'.announced = w.st.announced)
  | ended => exact absurd rfl hne

theorem others_announced (h : Others w w₁) (hflag : w.st.semReallocState = true) : w₁.st.announced = w.st.announced := by
  induction h with
  | refl => rfl
  | step _ hne hs ih =>
    rw [next_announced hs hne ((congrArg Prod.fst ih).trans hflag), ih]

theorem waited_announced (hbegin : w.next (.reallocBegin newsemmni.toNat newsemmns.toNat newsemmnu.toNat) = some w₀)
    (hothers : Others w₀ w₁) : w.st.semReallocState = false ∧ ¬(newsemmni < 1 ∨ newsemmns < 1 ∨ newsemmnu < 1) ∧
      w₁.st.announced = (true, some (newsemmni.toNat, newsemmns.toNat, newsemmnu.toNat)) := by
  simp only [World.next] at hbegin
  split at hbegin
  · exact absurd hbegin (by simp)
  · next hgo =>
    obtain rfl := some.inj hbegin
    push Not at hgo
    refine ⟨by simpa using hgo.1, ?_, others_announced hothers rfl⟩
    omega

end Wait

/-! ### The exits -/

section Exits
variable {w w₁ w₂ : World} {newsemmni newsemmns newsemmnu : Int} {mem : Bool} {r : Resize}

theorem sameTables_refl (st : State) : SameTables st st := ⟨rfl, rfl, rfl, rfl, rfl, rfl, rfl⟩

theorem nothingChanged_refl (w : World) : NothingChanged w w w := by
  refine ⟨sameTables_refl w.st, rfl, fun hflag lwp p semid sops perm hawake => ?_⟩
  have hgo : ¬(w.st.semReallocState = true ∨ ∃ s ∈ w.st.sleepers, s.call.lwp = lwp) := by
    rintro (hset | ⟨s, hs, hlwp⟩)
    · rw [hflag] at hset
      exact absurd hset (by simp)
    · exact hawake s hs hlwp
  simp [World.next, if_neg hgo, isSome_some]

theorem reallocEnd_error {st : State} (hargs : ¬(newsemmni < 1 ∨ newsemmns < 1 ∨ newsemmnu < 1)) :
    ((st.reallocEnd newsemmni.toNat newsemmns.toNat newsemmnu.toNat).2 ≠ none ↔ TooSmall st newsemmni newsemmns newsemmnu) ∧
    (TooSmall st newsemmni newsemmns newsemmnu →
      (st.reallocEnd newsemmni.toNat newsemmns.toNat newsemmnu.toNat).1 = {st with reallocator := none}) := by
  have hsmall : st.lsemid ≥ newsemmni.toNat ∨ st.semtot > newsemmns.toNat ∨ st.semuList.length > newsemmnu.toNat ↔
      TooSmall st newsemmni newsemmns newsemmnu := by
    unfold TooSmall
    omega
  unfold State.reallocEnd
  rw [← hsmall]
  split
  · next h => exact ⟨⟨fun _ => h, fun _ => by simp⟩, fun _ => rfl⟩
  · next h => exact ⟨⟨fun hne => absurd rfl hne, fun hyes => absurd hyes h⟩, fun hyes => absurd hyes h⟩

/-- A call that fails has changed nothing exactly when it is refused before it waits, or need
not be refused: its arguments are no good, there is no memory, or another call is at work,
or what is in use fits. -/
theorem failed_resize_iff (h : Resized w newsemmni newsemmns newsemmnu mem w₁ r w₂) :
    (r ≠ .done → NothingChanged w w₁ w₂) ↔ ((newsemmni < 1 ∨ newsemmns < 1 ∨ newsemmnu < 1) ∨ mem = false ∨
      w.st.semReallocState = true ∨ ¬TooSmall w₁.st newsemmni newsemmns newsemmnu) := by
  cases h with
  | invalid hbad => exact ⟨fun _ => .inl hbad, fun _ _ => nothingChanged_refl w⟩
  | noMemory hargs => exact ⟨fun _ => .inr (.inl rfl), fun _ _ => nothingChanged_refl w⟩
  | busy hargs hflag => exact ⟨fun _ => .inr (.inr (.inl hflag)), fun _ _ => nothingChanged_refl w⟩
  | @waited w₀ w₁ w₂ hbegin hothers hend =>
    obtain ⟨hflag, hargs, hann⟩ := waited_announced hbegin hothers
    obtain ⟨herr, hkept⟩ := @reallocEnd_error newsemmni newsemmns newsemmnu w₁.st hargs
    have hset : w₁.st.semReallocState = true := congrArg Prod.fst hann
    have hcall : w₁.st.reallocator = some (newsemmni.toNat, newsemmns.toNat, newsemmnu.toNat) := congrArg Prod.snd hann
    simp only [World.next, hcall] at hend
    split at hend
    · obtain rfl := some.inj hend
      constructor
      · intro hsame
        by_contra hlate
        push Not at hlate
        have hsmall := hlate.2.2.2
        have hr := herr.mpr hsmall
        rw [if_neg hr] at hsame
        have hleft := (hsame (by simp)).flag
        -- The flag is still up.
        rw [hkept hsmall, hflag] at hleft
        rw [show ({w₁.st with reallocator := none} : State).semReallocState = true from hset] at hleft
        exact absurd hleft (by simp)
      · rintro (hbad | hmem | hyes | hfits) hfail
        · exact absurd hbad hargs
        · exact absurd hmem (by simp)
        · rw [hflag] at hyes
          exact absurd hyes (by simp)
        have hnone : (w₁.st.reallocEnd newsemmni.toNat newsemmns.toNat newsemmnu.toNat).2 = none := by
          by_contra hne
          exact hfits (herr.mp hne)
        rw [if_pos hnone] at hfail
        exact absurd rfl hfail
    · exact absurd hend (by simp)

/-- A second call while the first one is at work. -/
def resizing : World := {booted with st := booted.st.reallocBegin 20 60 30}

theorem failed_resize_iff_second : ∃ w, runActs [.reallocBegin 20 60 30] = some w ∧ Resized w 10 60 30 true w .EBUSY w ∧
    ((Resize.EBUSY ≠ .done → NothingChanged w w w) ↔ (((10 : Int) < 1 ∨ (60 : Int) < 1 ∨ (30 : Int) < 1) ∨ true = false ∨
      w.st.semReallocState = true ∨ ¬TooSmall w.st 10 60 30)) := by
  have hresized : Resized resizing 10 60 30 true resizing .EBUSY resizing := .busy (by decide) rfl
  exact ⟨resizing, rfl, hresized, failed_resize_iff hresized⟩

/-- Two sets, and a table of one. -/
def twoSets : List Act := [.semget 0 1 false false true, .semget 0 1 false false true]

theorem failed_resize_keeps_flag : ¬∀ w newsemmni newsemmns newsemmnu mem w₁ r w₂, semSystem.Reachable w →
    Resized w newsemmni newsemmns newsemmnu mem w₁ r w₂ → r ≠ .done → NothingChanged w w₁ w₂ := by
  intro h
  have hrun : ((runActs twoSets).bind fun w => (w.next (.reallocBegin 1 60 30)).bind fun w₁ => (w₁.next .reallocEnd).map fun w₂ =>
      decide (w.st.semReallocState = false ∧ (w₁.st.reallocEnd 1 60 30).2 = some .EBUSY ∧ w₂.st.semReallocState = true)) =
    some true := by decide
  obtain ⟨w, hw, hrest⟩ := bind_eq_some_iff.mp hrun
  obtain ⟨w₁, hbegin, hlast⟩ := bind_eq_some_iff.mp hrest
  obtain ⟨w₂, hend, hp⟩ := map_eq_some_iff.mp hlast
  obtain ⟨hbefore, herr, hafter⟩ := of_decide_eq_true hp
  have hreach : semSystem.Reachable w := System.reach_run (· = booted) (fun _ _ => True) World.next booted twoSets rfl hw
  have hresized := @Resized.waited w 1 60 30 w₁ w₁ w₂ hbegin (.refl w₁) hend
  have hfail : (w₁.st.reallocEnd (1 : Int).toNat (60 : Int).toNat (30 : Int).toNat).2 ≠ none := by
    rw [show w₁.st.reallocEnd (1 : Int).toNat (60 : Int).toNat (30 : Int).toNat = w₁.st.reallocEnd 1 60 30 from rfl, herr]
    simp
  rw [if_neg hfail] at hresized
  have hflag := (h w 1 60 30 true w₁ .EBUSY w₂ hreach hresized (by simp)).flag
  rw [hbefore, hafter] at hflag
  exact absurd hflag (by simp)

end Exits

end NetBSD.Kern.SysvSem
