import NetBSD.Kern.Descrip.Maps
import Mathlib.Tactic.Ring

/-! The operations on a descriptor table keep its maps.

Each operation that changes one descriptor keeps `Agrees` and `FreeBelow`; `fd_alloc`
finds the first free descriptor at or above `freefile`. -/
namespace NetBSD.Kern.Descrip
open Option
open Lib

section Step
variable {fdp fdp' : Filedesc} {fd : Nat}

theorem Agrees.allocated_of_ff {ff : Fdfile} (hff : fdp.ff fd = some ff) : fdp.allocated fd = ff.allocated := by
  rw [Filedesc.allocated, hff]
  rfl

section
variable (h : Agrees fdp)
include h

theorem Agrees.fdAffix {fp : File} (ha : fdAffix fdp fp fd = some fdp') :
    Agrees fdp' ∧ (∀ q, fdp'.isused q = fdp.isused q) ∧ fdp'.freefile = fdp.freefile := by
  obtain ⟨ff, hff, ha⟩ := bind_eq_some_iff.1 ha
  split at ha
  · cases ha
  case isFalse hok =>
    cases ha
    have halloc : ff.allocated = true := by
      rw [not_or, not_or] at hok
      simpa using hok.2.1
    exact ⟨h.setFf (h.lt_of_ff hff) (Agrees.allocated_of_ff hff).symm (fun _ => halloc), fun _ => rfl, rfl⟩

theorem Agrees.fdClosing (hc : fdClosing fdp fd = some fdp') :
    Agrees fdp' ∧ (∀ q, fdp'.isused q = fdp.isused q) ∧ fdp'.freefile = fdp.freefile := by
  obtain ⟨ff, hff, hc⟩ := bind_eq_some_iff.1 hc
  split at hc
  · cases hc
  · cases hc
    exact ⟨h.setFf (h.lt_of_ff hff) (Agrees.allocated_of_ff hff).symm (fun hne => absurd rfl hne), fun _ => rfl, rfl⟩

theorem FreeBelow.fdUnused (hfree : FreeBelow fdp) (hu : fdUnused fdp fd = some fdp') : FreeBelow fdp' := by
  obtain ⟨-, hbit, hf, -⟩ := h.fdUnused hu
  intro q hq
  rw [hf] at hq
  rw [hbit q, hfree q (by split at hq <;> omega), Bool.true_and, Bool.not_eq_true', decide_eq_false_iff_not]
  split at hq <;> omega

theorem FreeBelow.fdUsed (hfree : FreeBelow fdp) (hu : fdUsed fdp fd = some fdp') : FreeBelow fdp' := by
  obtain ⟨-, hbit, hf, -⟩ := h.fdUsed hu
  intro q hq
  rw [hf] at hq
  rw [hbit q, hfree q hq]
  rfl

theorem Agrees.setExclose {ff : Fdfile} (hff : fdp.ff fd = some ff) (exclose : Bool) : Agrees (Descrip.setFf fdp fd {ff with exclose}) :=
  h.setFf (h.lt_of_ff hff) (Agrees.allocated_of_ff hff).symm (h.file fd ff hff)

theorem Agrees.fdAbort (ha : fdAbort fdp fd = some fdp') : Agrees fdp' ∧ (FreeBelow fdp → FreeBelow fdp') := by
  obtain ⟨ff, hff, ha⟩ := bind_eq_some_iff.1 ha
  have h' := h.setExclose hff false
  exact ⟨(h'.fdUnused ha).1, fun hfree => FreeBelow.fdUnused h' hfree ha⟩

theorem Agrees.setGetD (hfd : fd < fdp.nfiles) : Agrees (Descrip.setFf fdp fd ((fdp.ff fd).getD {})) := by
  cases hff : fdp.ff fd with
  | none =>
    refine h.setFf hfd ?_ (fun hne => absurd rfl hne)
    rw [Filedesc.allocated, hff]
    rfl
  | some ff => exact h.setFf hfd (Agrees.allocated_of_ff hff).symm (h.file fd ff hff)

theorem Agrees.fdReserve {exclose : Bool} (hr : fdReserve fdp fd exclose = some fdp') : Agrees fdp' ∧ (FreeBelow fdp → FreeBelow fdp') := by
  unfold Descrip.fdReserve at hr
  split at hr
  · cases hr
  case isFalse hlt =>
    obtain ⟨fdp₁, hu, hr⟩ := bind_eq_some_iff.1 hr
    obtain ⟨ff, hff, hr⟩ := bind_eq_some_iff.1 hr
    cases hr
    have h₀ := h.setGetD (by omega : fd < fdp.nfiles)
    refine ⟨(h₀.fdUsed hu).1.setExclose hff exclose, fun hfree => ?_⟩
    have hfree₁ : FreeBelow fdp₁ := FreeBelow.fdUsed h₀ hfree hu
    exact hfree₁

end

/-! ### Growing -/

theorem mapBit_cut (map : Nat → Word) (m q : Nat) (h : m * 32 ≤ q → mapBit map q = false) :
    mapBit (fun k => if k < m then map k else 0) q = mapBit map q := by
  by_cases hq : q < m * 32
  · simp [mapBit, if_pos (show q / 32 < m by omega)]
  rw [h (by omega)]
  simp only [mapBit, if_neg (show ¬ q / 32 < m by omega)]
  exact BitVec.getLsbD_zero

section
variable (h : Agrees fdp)
include h

theorem Agrees.isused_lt {q : Nat} (hq : fdp.isused q = true) : q < fdp.nfiles := by
  by_contra hge
  rw [h.used q, Filedesc.allocated, h.beyond q (by omega)] at hq
  cases hq

theorem Agrees.himap_lt {k : Nat} (hk : mapBit fdp.himap k = true) : k * 32 + 31 < fdp.nfiles := by
  have hword := (h.full k).1 hk
  exact h.isused_lt ((word_full_iff k).1 hword (k * 32 + 31) (by omega) (by omega))

theorem Agrees.resize (hsize : fdp'.nfiles = NDFILE ∨ ∃ k, fdp'.nfiles = NDEXTENT * 2 ^ k)
    (hn : fdp.nfiles ≤ fdp'.nfiles) (hff : fdp'.ff = fdp.ff) (hlo : ∀ q, fdp'.isused q = fdp.isused q)
    (hhi : ∀ k, mapBit fdp'.himap k = mapBit fdp.himap k) (hlast : fdp'.lastfile = fdp.lastfile) : Agrees fdp' where
  size := hsize
  used := by
    intro q
    rw [hlo q, h.used q, Filedesc.allocated, Filedesc.allocated, hff]
  file := hff ▸ h.file
  beyond := by
    intro q hq
    rw [hff]
    exact h.beyond q (by omega)
  full := by
    intro k
    have hbits : ∀ q, mapBit fdp'.lomap q = mapBit fdp.lomap q := hlo
    rw [hhi k, h.full k, word_full_iff, word_full_iff]
    simp [hbits]
  last := by
    unfold LastUsed
    simp only [hlo, hlast]
    exact h.last

theorem Agrees.fdTryexpand : Agrees (fdTryexpand fdp) ∧ (∀ q, (fdTryexpand fdp).isused q = fdp.isused q) ∧
      (fdTryexpand fdp).freefile = fdp.freefile ∧ fdp.nfiles < (fdTryexpand fdp).nfiles := by
  have hff : (fun fd => if fd < fdp.nfiles then fdp.ff fd else none) = fdp.ff := by
    funext q
    split
    · rfl
    · exact (h.beyond q (by omega)).symm
  have hlo (q : Nat) : mapBit (fun k => if k < ndloslots fdp.nfiles then fdp.lomap k else 0) q = fdp.isused q := by
    refine mapBit_cut _ _ _ fun hq => ?_
    by_contra hbit
    have := h.isused_lt (Bool.not_eq_false _ ▸ hbit)
    unfold ndloslots at hq
    omega
  have hhi (k : Nat) : mapBit (fun k => if k < ndhislots fdp.nfiles then fdp.himap k else 0) k = mapBit fdp.himap k := by
    refine mapBit_cut _ _ _ fun hk => ?_
    by_contra hbit
    have := h.himap_lt (Bool.not_eq_false _ ▸ hbit)
    unfold ndhislots ndloslots at hk
    omega
  generalize hnum : (if fdp.nfiles < NDEXTENT then NDEXTENT else 2 * fdp.nfiles) = numfiles
  have hgrow : fdp.nfiles < numfiles ∧ (numfiles = NDFILE ∨ ∃ k, numfiles = NDEXTENT * 2 ^ k) := by
    subst hnum
    split
    case isTrue hlt => exact ⟨hlt, .inr ⟨0, rfl⟩⟩
    case isFalse hge =>
      rw [show NDEXTENT = 50 from rfl] at hge
      refine ⟨by omega, .inr ?_⟩
      obtain hn | ⟨k, hn⟩ := h.size
      · rw [hn] at hge
        exact absurd (by decide) hge
      · exact ⟨k + 1, by rw [hn]; ring⟩
  unfold Descrip.fdTryexpand
  dsimp only
  rw [hnum, hff]
  split
  · exact ⟨h.resize hgrow.2 hgrow.1.le rfl hlo hhi rfl, hlo, rfl, hgrow.1⟩
  · exact ⟨h.resize hgrow.2 hgrow.1.le rfl (fun _ => rfl) (fun _ => rfl) rfl, fun _ => rfl, rfl, hgrow.1⟩

theorem Agrees.expandTo (newfd n : Nat) : Agrees (expandTo newfd n fdp) ∧ (FreeBelow fdp → FreeBelow (expandTo newfd n fdp)) := by
  induction n generalizing fdp with
  | zero => exact ⟨h, id⟩
  | succ n ih =>
    rw [Descrip.expandTo]
    split
    · obtain ⟨h', hbit, hf, -⟩ := h.fdTryexpand
      have hfree : FreeBelow fdp → FreeBelow (Descrip.fdTryexpand fdp) := by
        intro hfree q hq
        rw [hbit q]
        exact hfree q (hf ▸ hq)
      exact ⟨(ih h').1, fun hb => (ih h').2 (hfree hb)⟩
    · exact ⟨h, id⟩

theorem Agrees.fdDup2 {fp : File} {newfd : Nat} {exclose : Bool}
    (hd : fdDup2 fdp fp newfd exclose = some fdp') : Agrees fdp' ∧ (FreeBelow fdp → FreeBelow fdp') := by
  obtain ⟨h₁, hfree₁⟩ := h.expandTo newfd (newfd + 1)
  unfold Descrip.fdDup2 at hd
  generalize Descrip.expandTo newfd (newfd + 1) fdp = fdp₁ at h₁ hfree₁ hd
  obtain ⟨fdp₂, hclose, hd⟩ := bind_eq_some_iff.1 hd
  obtain ⟨fdp₃, hres, haff⟩ := bind_eq_some_iff.1 hd
  have h₂ : Agrees fdp₂ ∧ (FreeBelow fdp₁ → FreeBelow fdp₂) := by
    unfold fdVacate at hclose
    split at hclose
    · obtain ⟨fdp₀, hc, hu⟩ := bind_eq_some_iff.1 hclose
      obtain ⟨h₀, hbit, hf⟩ := h₁.fdClosing hc
      refine ⟨(h₀.fdUnused hu).1, fun hfree => FreeBelow.fdUnused h₀ ?_ hu⟩
      intro q hq
      rw [hbit q]
      exact hfree q (hf ▸ hq)
    · cases hclose
      exact ⟨h₁, id⟩
  have h₃ := h₂.1.fdReserve hres
  obtain ⟨h₄, hbit, hf⟩ := h₃.1.fdAffix haff
  refine ⟨h₄, fun hfree q hq => ?_⟩
  rw [hbit q]
  exact h₃.2 (h₂.2 (hfree₁ hfree)) q (hf ▸ hq)

end

theorem fdUsed_isSome {ff : Fdfile} (hff : fdp.ff fd = some ff) (hfile : ff.file = none) (halloc : ff.allocated = false)
    (hused : fdp.isused fd = false) : ∃ fdp', fdUsed fdp fd = some fdp' := by
  simp [fdUsed, hff, hfile, halloc, hused]

theorem nfiles_le_losize (fdp : Filedesc) : fdp.nfiles ≤ fdp.losize * 32 := by
  unfold Filedesc.losize
  rw [show NDENTRIES = 32 from rfl]
  split
  case isTrue h =>
    unfold ndhislots ndloslots at h
    omega
  case isFalse h =>
    unfold ndloslots
    omega

theorem Agrees.fdAlloc (h : Agrees fdp) (lim want : Nat) :
    (fdAlloc fdp lim want = some (fdp, .error (if fdp.nfiles ≥ lim then .EMFILE else .ENOSPC)) ∧
      FirstFree fdp (max want fdp.freefile) (min fdp.nfiles lim) none) ∨
    ∃ fdp' i w, fdAlloc fdp lim want = some (fdp', .ok i) ∧
      FirstFree fdp (max want fdp.freefile) (min fdp.nfiles lim) (some i) ∧ (w = want ∨ fdp.freefile < w) ∧
      Agrees fdp' ∧ (∀ q, fdp'.isused q = (fdp.isused q || decide (q = i))) ∧ (∀ q, q ≠ i → fdp'.ff q = fdp.ff q) ∧
      fdp'.freefile = if w ≤ fdp.freefile then i else fdp.freefile := by
  generalize hlast : min fdp.nfiles lim = last
  have hsome := fdSearch_isSome fdp last ((last + 31) / 32 + 2) want (by omega) (by omega)
  obtain ⟨r, hr⟩ := isSome_iff_exists.1 hsome
  have hle := nfiles_le_losize fdp
  obtain ⟨hfree, hwant⟩ := fdSearch_firstFree h.full (by omega) _ want r hr
  cases r with
  | none =>
    refine .inl ⟨?_, hfree⟩
    simp only [Descrip.fdAlloc, hlast, hr]
    rfl
  | some p =>
    obtain ⟨i, w⟩ := p
    have hi : i < fdp.nfiles := by
      have := hfree.2.1
      omega
    have h₀ := h.setGetD hi
    -- A descriptor that is not in use is not allocated, and so has no file.
    have hunused : fdp.isused i = false := hfree.2.2.1
    have halloc : ((fdp.ff i).getD {}).allocated = false := by
      rw [h.used i, Filedesc.allocated] at hunused
      cases hff : fdp.ff i with
      | none => rfl
      | some ff => simpa [hff] using hunused
    have hfile : ((fdp.ff i).getD {}).file = none := by
      by_contra hne
      rw [h₀.file i _ (setFf_ff_self _ _ _) hne] at halloc
      cases halloc
    obtain ⟨fdp', hu⟩ := fdUsed_isSome (setFf_ff_self fdp i ((fdp.ff i).getD {})) hfile halloc hunused
    obtain ⟨h', hbit, -, -⟩ := h₀.fdUsed hu
    refine .inr ⟨{fdp' with freefile := if w ≤ fdp.freefile then i else fdp.freefile}, i, w, ?_, hfree, ?_, ?_, hbit, ?_, rfl⟩
    · simp only [Descrip.fdAlloc, hlast, hr]
      show (Descrip.fdUsed (Descrip.setFf fdp i ((fdp.ff i).getD {})) i).bind _ = _
      rw [hu]
      rfl
    · exact hwant (i, w) rfl
    · exact ⟨h'.size, h'.used, h'.file, h'.beyond, h'.full, h'.last⟩
    · intro q hq
      obtain ⟨ff, -, -, -, -, rfl⟩ := fdUsed_some hu
      rw [setFf_ff_of_ne _ _ _ hq, setFf_ff_of_ne _ _ _ hq]

theorem FreeBelow.fdAlloc (h : Agrees fdp) (hfree : FreeBelow fdp) {lim want : Nat} {r : Except Errno Nat}
    (ha : Descrip.fdAlloc fdp lim want = some (fdp', r)) : FreeBelow fdp' := by
  obtain ⟨heq, -⟩ | ⟨fdp₁, i, w, heq, hfirst, hw, -, hbit, -, hf⟩ := h.fdAlloc lim want
  · rw [heq] at ha
    cases ha
    exact hfree
  rw [heq] at ha
  cases ha
  intro q hq
  rw [hf] at hq
  rw [hbit q, Bool.or_eq_true]
  left
  split at hq
  case isTrue hle =>
    by_cases hqf : q < fdp.freefile
    · exact hfree q hqf
    · exact hfirst.2.2.2 q (by omega) hq
  case isFalse => exact hfree q hq

end Step

end NetBSD.Kern.Descrip
