import NetBSD.Kern.Descrip.Search

/-! The maps of a descriptor table and the table.

`Agrees` is what the operations keep: the low map has the descriptors that are allocated, the
high one the full words of the low one, and `lastfile` is the highest descriptor in use. -/
namespace NetBSD.Kern.Descrip
open Function
open Lib

/-- The descriptor is allocated. -/
def Filedesc.allocated (fdp : Filedesc) (fd : Nat) : Bool := (fdp.ff fd).any Fdfile.allocated

structure Agrees (fdp : Filedesc) : Prop where
  size : fdp.nfiles = NDFILE ∨ ∃ k, fdp.nfiles = NDEXTENT * 2 ^ k
  used : ∀ fd, fdp.isused fd = fdp.allocated fd
  file : ∀ fd ff, fdp.ff fd = some ff → ff.file ≠ none → ff.allocated = true
  beyond : ∀ fd, fdp.nfiles ≤ fd → fdp.ff fd = none
  full : Full fdp
  last : LastUsed fdp fdp.lastfile

/-- `freefile` is no higher than the first free descriptor. -/
def FreeBelow (fdp : Filedesc) : Prop := ∀ fd, fd < fdp.freefile → fdp.isused fd = true

/-! ### Bits -/

section
variable (map : Nat → Word)
include map

theorem mapBit_setBit (n q : Nat) : mapBit (setBit map n) q = (mapBit map q || decide (q = n)) :=
  mapBit_or n

theorem mapBit_clearBit (n q : Nat) : mapBit (clearBit map n) q = (mapBit map q && !decide (q = n)) :=
  mapBit_andNot n

theorem setBit_of_ne {n k : Nat} (h : k ≠ n / 32) : setBit map n k = map k := update_of_ne h _ _

theorem clearBit_of_ne {n k : Nat} (h : k ≠ n / 32) : clearBit map n k = map k :=
  update_of_ne h _ _

theorem setBit_full (n k : Nat) (h : map k = -1) : setBit map n k = -1 := by
  rw [word_full_iff] at h ⊢
  intro q hq hqk
  rw [mapBit_setBit, h q hq hqk]
  rfl

theorem clearBit_not_full (n : Nat) : clearBit map n (n / 32) ≠ -1 := by
  intro h
  have hbit := (word_full_iff (n / 32)).1 h n (by omega) (by omega)
  simp [mapBit_clearBit] at hbit

end

section Full
variable {lo hi : Nat → Word}

section
variable (h : ∀ k, mapBit hi k = true ↔ lo k = -1) (n k : Nat)
include h n k

theorem full_setBit : mapBit (if setBit lo n (n / 32) = -1 then setBit hi (n / 32) else hi) k = true ↔ setBit lo n k = -1 := by
  by_cases hk : k = n / 32
  · subst hk
    split
    case isTrue hf => simp [mapBit_setBit, hf]
    case isFalse hf =>
      rw [h]
      exact ⟨fun hlo => absurd (setBit_full lo n _ hlo) hf, fun hlo => absurd hlo hf⟩
  · rw [setBit_of_ne lo hk, ← h k]
    split
    · simp [mapBit_setBit, hk]
    · rfl

theorem full_clearBit : mapBit (if lo (n / 32) = -1 then clearBit hi (n / 32) else hi) k = true ↔ clearBit lo n k = -1 := by
  by_cases hk : k = n / 32
  · subst hk
    have hno := clearBit_not_full lo n
    split
    case isTrue hf => exact ⟨fun hbit => absurd hbit (by simp [mapBit_clearBit]), fun hlo => absurd hlo hno⟩
    case isFalse hf =>
      rw [h]
      exact ⟨fun hlo => absurd hlo hf, fun hlo => absurd hlo hno⟩
  · rw [clearBit_of_ne lo hk, ← h k]
    split
    · simp [mapBit_clearBit, hk]
    · rfl

end

end Full

/-! ### One descriptor -/

section Step
variable {fdp fdp' : Filedesc} {fd : Nat}

@[simp]
theorem setFf_ff_self (fdp : Filedesc) (fd : Nat) (ff : Fdfile) : (setFf fdp fd ff).ff fd = some ff :=
  update_self _ _ _

theorem setFf_ff_of_ne (fdp : Filedesc) (fd : Nat) (ff : Fdfile) {q : Nat} (h : q ≠ fd) : (setFf fdp fd ff).ff q = fdp.ff q := update_of_ne h _ _

@[simp]
theorem setFf_allocated (fdp : Filedesc) (fd : Nat) (ff : Fdfile) (q : Nat) :
    (setFf fdp fd ff).allocated q = if q = fd then ff.allocated else fdp.allocated q := by
  unfold Filedesc.allocated
  by_cases h : q = fd
  · rw [if_pos h, h, setFf_ff_self]
    rfl
  · rw [if_neg h, setFf_ff_of_ne _ _ _ h]

theorem Agrees.lt_of_ff (h : Agrees fdp) {ff : Fdfile} (hff : fdp.ff fd = some ff) : fd < fdp.nfiles := by
  by_contra hge
  rw [h.beyond fd (by omega)] at hff
  cases hff

theorem Agrees.setFf (h : Agrees fdp) (hfd : fd < fdp.nfiles) {ff : Fdfile}
    (halloc : ff.allocated = fdp.allocated fd) (hfile : ff.file ≠ none → ff.allocated = true) :
    Agrees (setFf fdp fd ff) where
  size := h.size
  used := by
    intro q
    rw [setFf_allocated]
    by_cases hq : q = fd
    · rw [if_pos hq, halloc, hq]
      exact h.used fd
    · rw [if_neg hq]
      exact h.used q
  file := by
    intro q ff' hff' hne
    by_cases hq : q = fd
    · subst hq
      rw [setFf_ff_self] at hff'
      cases hff'
      exact hfile hne
    · rw [setFf_ff_of_ne _ _ _ hq] at hff'
      exact h.file q ff' hff' hne
  beyond := by
    intro q hq
    have hne : q ≠ fd := by
      rintro rfl
      exact absurd hq (Nat.not_le.2 hfd)
    rw [setFf_ff_of_ne _ _ _ hne]
    exact h.beyond q hq
  full := h.full
  last := h.last

theorem fdUsed_some (h : fdUsed fdp fd = some fdp') :
    ∃ ff, fdp.ff fd = some ff ∧ ff.file = none ∧ ff.allocated = false ∧ fdp.isused fd = false ∧ fdp' =
        { setFf fdp fd {ff with allocated := true} with
          lomap := setBit fdp.lomap fd
          himap := if setBit fdp.lomap fd (fd / 32) = -1 then setBit fdp.himap (fd / 32) else fdp.himap
          lastfile := if (fd : Int) > fdp.lastfile then (fd : Int) else fdp.lastfile } := by
  obtain ⟨ff, hff, h⟩ := Option.bind_eq_some_iff.1 h
  split at h
  · cases h
  case isFalse hok =>
    rw [not_or, not_or, not_not] at hok
    refine ⟨ff, hff, hok.2.1, by simpa using hok.2.2, by simpa using hok.1, ?_⟩
    exact (Option.some.inj h).symm

theorem Agrees.fdUsed (h : Agrees fdp) (hu : fdUsed fdp fd = some fdp') :
    Agrees fdp' ∧ (∀ q, fdp'.isused q = (fdp.isused q || decide (q = fd))) ∧ fdp'.freefile = fdp.freefile ∧ fdp'.nfiles = fdp.nfiles := by
  obtain ⟨ff, hff, hfile, halloc, hfree, rfl⟩ := fdUsed_some hu
  have hbit (q : Nat) : mapBit (setBit fdp.lomap fd) q = (fdp.isused q || decide (q = fd)) := mapBit_setBit _ _ _
  refine ⟨?_, hbit, rfl, rfl⟩
  refine { size := h.size, used := ?_, file := ?_, beyond := ?_, full := ?_, last := ?_ }
  · intro q
    refine (hbit q).trans ?_
    refine Eq.trans ?_ (setFf_allocated fdp fd _ q).symm
    by_cases hq : q = fd
    · simp [hq]
    · simp [hq, h.used q]
  · intro q ff' hff' hne
    by_cases hq : q = fd
    · subst hq
      rw [setFf_ff_self] at hff'
      cases hff'
      rfl
    · rw [setFf_ff_of_ne _ _ _ hq] at hff'
      exact h.file q ff' hff' hne
  · intro q hq
    have hlt := h.lt_of_ff hff
    have hne : q ≠ fd := by
      rintro rfl
      exact absurd hq (Nat.not_le.2 hlt)
    exact (setFf_ff_of_ne _ _ _ hne).trans (h.beyond q hq)
  · exact full_setBit h.full fd
  have hle : ∀ q, fdp.isused q = true → (q : Int) ≤ fdp.lastfile := h.last.1
  constructor
  · intro q hq
    have hq : (fdp.isused q || decide (q = fd)) = true := (hbit q).symm.trans hq
    show (q : Int) ≤ if (fd : Int) > fdp.lastfile then (fd : Int) else fdp.lastfile
    rw [Bool.or_eq_true, decide_eq_true_eq] at hq
    obtain hq | rfl := hq
    · have := hle q hq
      split <;> omega
    · split <;> omega
  · show (if (fd : Int) > fdp.lastfile then (fd : Int) else fdp.lastfile) = -1 ∨
      ∃ p : Nat, (if (fd : Int) > fdp.lastfile then (fd : Int) else fdp.lastfile) = p ∧ mapBit (setBit fdp.lomap fd) p = true
    split
    · exact .inr ⟨fd, rfl, by simp [hbit]⟩
    obtain hl | ⟨p, hl, hp⟩ := h.last.2
    · exact .inl hl
    · exact .inr ⟨p, hl, by simp [hbit, hp]⟩

theorem fdUnused_some (h : fdUnused fdp fd = some fdp') : ∃ ff, fdp.ff fd = some ff ∧ ff.file = none ∧ ff.allocated = true ∧
      ∃ fdp₁ : Filedesc, fdp₁ = { setFf fdp fd {ff with allocated := false} with
            lomap := clearBit fdp.lomap fd
            himap := if fdp.lomap (fd / 32) = -1 then clearBit fdp.himap (fd / 32) else fdp.himap
            freefile := if fd < fdp.freefile then fd else fdp.freefile } ∧
        fdp' = if (fd : Int) = fdp.lastfile then {fdp₁ with lastfile := fdLastSet fdp₁ fd} else fdp₁ := by
  obtain ⟨ff, hff, h⟩ := Option.bind_eq_some_iff.1 h
  split at h
  · cases h
  case isFalse hok =>
    rw [not_or, not_or, not_not] at hok
    refine ⟨ff, hff, hok.1, by simpa using hok.2.1, _, rfl, ?_⟩
    exact (Option.some.inj h).symm

theorem Agrees.fdUnused (h : Agrees fdp) (hu : fdUnused fdp fd = some fdp') :
    Agrees fdp' ∧ (∀ q, fdp'.isused q = (fdp.isused q && !decide (q = fd))) ∧
      fdp'.freefile = (if fd < fdp.freefile then fd else fdp.freefile) ∧ fdp'.nfiles = fdp.nfiles := by
  obtain ⟨ff, hff, hfile, halloc, fdp₁, hfdp₁, rfl⟩ := fdUnused_some hu
  have hbit (q : Nat) : fdp₁.isused q = (fdp.isused q && !decide (q = fd)) := by
    rw [hfdp₁]
    exact mapBit_clearBit _ _ _
  have hff₁ : fdp₁.ff = (Descrip.setFf fdp fd {ff with allocated := false}).ff := by rw [hfdp₁]
  have hused (q : Nat) : fdp₁.isused q = fdp₁.allocated q := by
    rw [hbit q, Filedesc.allocated, hff₁]
    refine Eq.trans ?_ (setFf_allocated fdp fd _ q).symm
    by_cases hq : q = fd
    · simp [hq]
    · simp [hq, h.used q]
  have hfull : Full fdp₁ := by
    rw [hfdp₁]
    exact full_clearBit h.full fd
  have hfileOk : ∀ q ff', fdp₁.ff q = some ff' → ff'.file ≠ none → ff'.allocated = true := by
    intro q ff' hff' hne
    rw [hff₁] at hff'
    by_cases hq : q = fd
    · subst hq
      rw [setFf_ff_self] at hff'
      cases hff'
      exact absurd hfile hne
    · rw [setFf_ff_of_ne _ _ _ hq] at hff'
      exact h.file q ff' hff' hne
  have hbeyond : ∀ q, fdp.nfiles ≤ q → fdp₁.ff q = none := by
    intro q hq
    have hlt := h.lt_of_ff hff
    have hne : q ≠ fd := by
      rintro rfl
      exact absurd hq (Nat.not_le.2 hlt)
    rw [hff₁, setFf_ff_of_ne _ _ _ hne]
    exact h.beyond q hq
  have hn : fdp₁.nfiles = fdp.nfiles := by rw [hfdp₁]; rfl
  have hl : fdp₁.lastfile = fdp.lastfile := by rw [hfdp₁]; rfl
  have hfr : fdp₁.freefile = if fd < fdp.freefile then fd else fdp.freefile := by rw [hfdp₁]
  split
  case isTrue heq =>
    refine ⟨?_, hbit, hfr, hn⟩
    have hlast : ∀ q, fdp₁.isused q = true → q < fd := by
      intro q hq
      rw [hbit q, Bool.and_eq_true, Bool.not_eq_true', decide_eq_false_iff_not] at hq
      have := h.last.1 q hq.1
      omega
    exact ⟨hn ▸ h.size, hused, hfileOk, hn ▸ hbeyond, hfull, fdLastSet_lastUsed hused hlast⟩
  case isFalse hne =>
    refine ⟨⟨hn ▸ h.size, hused, hfileOk, hn ▸ hbeyond, hfull, ?_⟩, hbit, hfr, hn⟩
    rw [hl]
    constructor
    · intro q hq
      rw [hbit q, Bool.and_eq_true] at hq
      exact h.last.1 q hq.1
    obtain hnone | ⟨p, hp, hpu⟩ := h.last.2
    · exact .inl hnone
    refine .inr ⟨p, hp, ?_⟩
    have hpfd : p ≠ fd := by
      rintro rfl
      exact hne hp.symm
    simp [hbit, hpu, hpfd]

end Step

end NetBSD.Kern.Descrip
