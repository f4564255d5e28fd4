import NetBSD.Kern.Descrip.Steps
import Mathlib.Tactic.Linarith

/-! Copies of a descriptor table.

The copy has the open files that are no kqueues, in a table that may be smaller (`Copied`). Its
`freefile` is the original's, lowered to a kqueue that was left out but not to a half open
descriptor. -/
namespace NetBSD.Kern.Descrip
open Lib

/-- What the copy has for a descriptor, if anything. -/
def inherited (fdp : Filedesc) (q : Nat) : Option Fdfile :=
  match fdp.ff q with
  | none => none
  | some ff =>
    match ff.file with
    | none => none
    | some fp => if fp.type = .kqueue then none else some ⟨ff.exclose, true, some fp⟩

theorem inherited_some {fdp : Filedesc} {q : Nat} {ff' : Fdfile} (h : inherited fdp q = some ff') :
    ∃ ff fp, fdp.ff q = some ff ∧ ff.file = some fp ∧ fp.type ≠ .kqueue ∧ ff' = ⟨ff.exclose, true, some fp⟩ := by
  unfold inherited at h
  split at h
  · cases h
  case h_2 ff hff =>
    split at h
    · cases h
    case h_2 fp hfp =>
      split at h
      · cases h
      case isFalse hkq =>
        cases h
        exact ⟨ff, fp, hff, hfp, hkq, rfl⟩

theorem inherited_eq {fdp : Filedesc} {q : Nat} {ff : Fdfile} {fp : File} (hff : fdp.ff q = some ff)
    (hfp : ff.file = some fp) (hkq : fp.type ≠ .kqueue) : inherited fdp q = some ⟨ff.exclose, true, some fp⟩ := by
  simp [inherited, hff, hfp, hkq]

/-- The descriptor is one of a kqueue. -/
def IsKqueue (fdp : Filedesc) (q : Nat) : Prop := ∃ ff fp, fdp.ff q = some ff ∧ ff.file = some fp ∧ fp.type = .kqueue

theorem copyFd_cases (fdp new : Filedesc) (i : Nat) : (∃ ff', inherited fdp i = some ff' ∧ copyFd fdp new i = { setFf new i ff' with
        lomap := setBit new.lomap i
        himap := if setBit new.lomap i (i / 32) = -1 then setBit new.himap (i / 32) else new.himap
        lastfile := i }) ∨
    (inherited fdp i = none ∧ IsKqueue fdp i ∧ copyFd fdp new i = {new with freefile := if i < new.freefile then i else new.freefile}) ∨
    (inherited fdp i = none ∧ ¬ IsKqueue fdp i ∧ copyFd fdp new i = new) := by
  cases hff : fdp.ff i with
  | none => exact .inr (.inr ⟨by simp [inherited, hff], by simp [IsKqueue, hff], by simp [copyFd, hff]⟩)
  | some ff =>
    cases hfp : ff.file with
    | none => exact .inr (.inr ⟨by simp [inherited, hff, hfp], by simp [IsKqueue, hff, hfp], by simp [copyFd, hff, hfp]⟩)
    | some fp =>
      by_cases hkq : fp.type = .kqueue
      · exact .inr (.inl ⟨by simp [inherited, hff, hfp, hkq], ⟨ff, fp, hff, hfp, hkq⟩, by simp [copyFd, hff, hfp, hkq]⟩)
      · exact .inl ⟨_, inherited_eq hff hfp hkq, by simp [copyFd, hff, hfp, hkq]⟩

/-- The copy after the first `i` descriptors. -/
structure Copied (fdp : Filedesc) (n i : Nat) (new : Filedesc) : Prop where
  nfiles : new.nfiles = n
  ff : ∀ q, new.ff q = if q < i ∧ (inherited fdp q).isSome then inherited fdp q else fdInit.ff q
  used : ∀ q, new.isused q = (decide (q < i) && (inherited fdp q).isSome)
  full : Full new
  last : LastUsed new new.lastfile
  lower : new.freefile ≤ fdp.freefile
  kqueue : ∀ q, q < i → q < new.freefile → ¬ IsKqueue fdp q

theorem mapBit_empty (q : Nat) : mapBit (fun _ => 0) q = false := BitVec.getLsbD_zero

theorem full_empty (k : Nat) : mapBit (fun _ => 0) k = true ↔ (0 : Word) = -1 := by
  rw [mapBit_empty]
  decide

theorem copied_zero (fdp : Filedesc) (n : Nat) : Copied fdp n 0 {fdInit with nfiles := n, freefile := fdp.freefile} where
  nfiles := rfl
  ff := fun q => by simp
  used := fun q => by
    exact mapBit_empty q
  full := full_empty
  last := ⟨fun q h => absurd ((mapBit_empty q).symm.trans h) (by decide), .inl rfl⟩
  lower := le_refl _
  kqueue := fun q hq => by omega

theorem inherited_skip {fdp : Filedesc} {i : Nat} (hin : inherited fdp i = none) (q : Nat) :
    (if q < i ∧ (inherited fdp q).isSome then inherited fdp q else fdInit.ff q) =
        (if q < i + 1 ∧ (inherited fdp q).isSome then inherited fdp q else fdInit.ff q) ∧
      (decide (q < i) && (inherited fdp q).isSome) = (decide (q < i + 1) && (inherited fdp q).isSome) := by
  by_cases hq : q = i
  · simp [hq, hin]
  · simp [show q < i + 1 ↔ q < i by omega]

theorem Copied.step {fdp new : Filedesc} {n i : Nat} (h : Copied fdp n i new) : Copied fdp n (i + 1) (copyFd fdp new i) := by
  obtain ⟨ff', hin, heq⟩ | ⟨hin, hkq, heq⟩ | ⟨hin, hkq, heq⟩ := copyFd_cases fdp new i
  · have hbit (q : Nat) : mapBit (setBit new.lomap i) q = (decide (q < i + 1) && (inherited fdp q).isSome) := by
      rw [mapBit_setBit, show mapBit new.lomap q = new.isused q from rfl, h.used q]
      by_cases hq : q = i
      · simp [hq, hin]
      · simp [hq, show q < i + 1 ↔ q < i by omega]
    have hother (q : Nat) (hq : q ≠ i) : q < i + 1 ↔ q < i := by omega
    rw [heq]
    refine ⟨h.nfiles, fun q => ?_, hbit, full_setBit h.full i, ⟨fun q hq => ?_, .inr ⟨i, rfl, ?_⟩⟩, h.lower, ?_⟩
    · by_cases hq : q = i
      · subst hq
        rw [hin]
        simp
      · rw [setFf_ff_of_ne _ _ _ hq, h.ff q]
        simp [hother q hq]
    · have hq := (hbit q).symm.trans hq
      rw [Bool.and_eq_true, decide_eq_true_eq] at hq
      show (q : Int) ≤ i
      omega
    · exact (hbit i).trans (by simp [hin])
    intro q hq hqf hk
    by_cases hqi : q = i
    · subst hqi
      obtain ⟨ff, fp, hff, hfp, hkq⟩ := hk
      simp [inherited, hff, hfp, hkq] at hin
    · exact h.kqueue q (by omega) hqf hk
  · rw [heq]
    refine ⟨h.nfiles, fun q => ?_, fun q => ?_, h.full, h.last, ?_, fun q hq hqf => ?_⟩
    · exact (h.ff q).trans (inherited_skip hin q).1
    · exact (h.used q).trans (inherited_skip hin q).2
    · show (if i < new.freefile then i else new.freefile) ≤ fdp.freefile
      have := h.lower
      split <;> omega
    have hqf : q < if i < new.freefile then i else new.freefile := hqf
    split at hqf
    · exact h.kqueue q hqf (by omega)
    · exact h.kqueue q (by omega) hqf
  · rw [heq]
    refine ⟨h.nfiles, fun q => (h.ff q).trans (inherited_skip hin q).1, fun q => (h.used q).trans (inherited_skip hin q).2, h.full, h.last,
      h.lower, fun q hq hqf => ?_⟩
    by_cases hqi : q = i
    · subst hqi
      exact hkq
    · exact h.kqueue q (by omega) hqf

theorem copied_foldl (fdp : Filedesc) (n i : Nat) :
    Copied fdp n i ((List.range i).foldl (copyFd fdp) {fdInit with nfiles := n, freefile := fdp.freefile}) := by
  induction i with
  | zero => exact copied_zero fdp n
  | succ i ih =>
    rw [List.range_succ, List.foldl_append]
    exact ih.step

/-! ### The size of the copy -/

theorem shrink_size (last : Int) (n k : Nat) (hlast : last < NDEXTENT * 2 ^ k) :
    ∃ j, shrink last n (NDEXTENT * 2 ^ k) = NDEXTENT * 2 ^ j ∧ last < NDEXTENT * 2 ^ j := by
  induction n generalizing k with
  | zero => exact ⟨k, rfl, hlast⟩
  | succ n ih =>
    rw [shrink]
    split
    case isTrue hbig =>
      cases k with
      | zero => exact absurd hbig.1 (by decide)
      | succ k =>
        have hhalf : NDEXTENT * 2 ^ (k + 1) / 2 = NDEXTENT * 2 ^ k := by
          rw [pow_succ, ← mul_assoc]
          exact Nat.mul_div_cancel _ (by decide)
        rw [hhalf]
        have hgt := hbig.2
        push_cast [pow_succ] at hgt
        exact ih k (by push_cast; linarith)
    case isFalse => exact ⟨k, rfl, hlast⟩

theorem Agrees.lastfile_lt {fdp : Filedesc} (h : Agrees fdp) : fdp.lastfile < fdp.nfiles := by
  obtain hl | ⟨p, hl, hp⟩ := h.last.2
  · omega
  · have := h.isused_lt hp
    omega

theorem Agrees.copy_size {fdp : Filedesc} (h : Agrees fdp) {n : Nat}
    (hn : (if fdp.lastfile < NDFILE then NDFILE else shrink fdp.lastfile fdp.nfiles fdp.nfiles) = n) :
    (n = NDFILE ∨ ∃ k, n = NDEXTENT * 2 ^ k) ∧ fdp.lastfile < n ∧ NDFILE ≤ n := by
  split at hn
  case isTrue hsmall => exact ⟨.inl hn.symm, hn ▸ hsmall, hn.le⟩
  case isFalse hbig =>
    have hlt := h.lastfile_lt
    obtain heq | ⟨k, heq⟩ := h.size
    · rw [heq] at hlt
      exact absurd hlt hbig
    rw [heq] at hlt hn
    obtain ⟨j, hj, hjl⟩ := shrink_size fdp.lastfile (NDEXTENT * 2 ^ k) k (by exact_mod_cast hlt)
    rw [hj] at hn
    refine ⟨.inr ⟨j, hn.symm⟩, by rw [← hn]; exact_mod_cast hjl, ?_⟩
    rw [← hn]
    exact le_trans (by decide : NDFILE ≤ NDEXTENT * 1) (Nat.mul_le_mul_left _ (Nat.one_le_two_pow))

theorem fdCopy_copied (fdp : Filedesc) : Copied fdp (if fdp.lastfile < NDFILE then NDFILE else shrink fdp.lastfile fdp.nfiles fdp.nfiles)
      (fdp.lastfile + 1).toNat (fdCopy fdp) := copied_foldl fdp _ _

theorem Agrees.lt_of_file {fdp : Filedesc} (h : Agrees fdp) {q : Nat} {ff : Fdfile} (hff : fdp.ff q = some ff)
    (hfile : ff.file ≠ none) : q < (fdp.lastfile + 1).toNat := by
  have hused : fdp.isused q = true := by
    rw [h.used q, Agrees.allocated_of_ff hff]
    exact h.file q ff hff hfile
  have := h.last.1 q hused
  omega

theorem fdInit_ff (q : Nat) (ff : Fdfile) (h : fdInit.ff q = some ff) : q < NDFDFILE ∧ ff = {} := by
  have h : (if q < NDFDFILE then some ({} : Fdfile) else none) = some ff := h
  split at h
  case isTrue hq => exact ⟨hq, (Option.some.inj h).symm⟩
  · cases h

theorem Agrees.fdCopy {fdp : Filedesc} (h : Agrees fdp) : Agrees (fdCopy fdp) := by
  have hc := fdCopy_copied fdp
  obtain ⟨hsize, hlast, hbig⟩ := h.copy_size rfl
  generalize (if fdp.lastfile < NDFILE then NDFILE else shrink fdp.lastfile fdp.nfiles fdp.nfiles) = n at hc hsize hlast hbig
  refine ⟨hc.nfiles ▸ hsize, fun q => ?_, fun q ff hff hne => ?_, fun q hq => ?_, hc.full, hc.last⟩
  · rw [hc.used q, Filedesc.allocated, hc.ff q]
    by_cases hq : q < (fdp.lastfile + 1).toNat ∧ (inherited fdp q).isSome
    · obtain ⟨ff', hff'⟩ := Option.isSome_iff_exists.1 hq.2
      obtain ⟨ff, fp, -, -, -, rfl⟩ := inherited_some hff'
      rw [if_pos hq, hff', decide_eq_true hq.1]
      rfl
    have hoff : (fdInit.ff q).any Fdfile.allocated = false := by
      cases hff : fdInit.ff q with
      | none => rfl
      | some ff =>
        rw [(fdInit_ff q ff hff).2]
        rfl
    rw [if_neg hq, hoff, ← Bool.not_eq_true, Bool.and_eq_true, decide_eq_true_eq]
    exact hq
  · rw [hc.ff q] at hff
    split at hff
    · obtain ⟨-, -, -, -, -, rfl⟩ := inherited_some hff
      rfl
    · rw [(fdInit_ff q ff hff).2] at hne
      exact absurd rfl hne
  · rw [hc.nfiles] at hq
    rw [hc.ff q, if_neg (by omega)]
    exact if_neg (by rw [show NDFDFILE = 6 from rfl]; rw [show NDFILE = 20 from rfl] at hbig; omega)

theorem Agrees.copy_exact {fdp : Filedesc} (h : Agrees fdp) (fd : Nat) (fp : File) (exclose : Bool) :
    (∃ ff, (Descrip.fdCopy fdp).ff fd = some ff ∧ ff.file = some fp ∧ ff.exclose = exclose) ↔
      ∃ ff, fdp.ff fd = some ff ∧ ff.file = some fp ∧ ff.exclose = exclose ∧ fp.type ≠ .kqueue := by
  have hc := (fdCopy_copied fdp).ff fd
  constructor
  · rintro ⟨ff', hff', hfp, hex⟩
    rw [hc] at hff'
    split at hff'
    · obtain ⟨ff, fp', hff, hfile, hkq, rfl⟩ := inherited_some hff'
      cases hfp
      exact ⟨ff, hff, hfile, hex, hkq⟩
    · rw [(fdInit_ff fd ff' hff').2] at hfp
      cases hfp
  · rintro ⟨ff, hff, hfp, hex, hkq⟩
    have hin := inherited_eq hff hfp hkq
    refine ⟨⟨ff.exclose, true, some fp⟩, ?_, rfl, hex⟩
    rw [hc, if_pos ⟨h.lt_of_file hff (by simp [hfp]), by simp [hin]⟩, hin]

/-- The descriptor is allocated and has no file: it is opened or closed just now. -/
def halfOpen (fdp : Filedesc) (fd : Nat) : Bool := (fdp.ff fd).any fun ff => ff.allocated && ff.file.isNone

theorem FreeBelow.fdCopy {fdp : Filedesc} (h : Agrees fdp) (hfree : FreeBelow fdp)
    (hhalf : ∀ fd, fd < fdp.freefile → halfOpen fdp fd = false) : FreeBelow (Descrip.fdCopy fdp) := by
  have hc := fdCopy_copied fdp
  intro q hq
  have hlow := hc.lower
  have hused := hfree q (by omega)
  rw [h.used q, Filedesc.allocated, Option.any_eq_true] at hused
  obtain ⟨ff, hff, halloc⟩ := hused
  cases hfp : ff.file with
  | none =>
    have hno := hhalf q (by omega)
    simp [halfOpen, hff, halloc, hfp] at hno
  | some fp =>
    have hlt := h.lt_of_file hff (by simp [hfp])
    have hkq : fp.type ≠ .kqueue := fun hk => hc.kqueue q hlt hq ⟨ff, fp, hff, hfp, hk⟩
    rw [hc.used q, inherited_eq hff hfp hkq, decide_eq_true hlt]
    rfl

end NetBSD.Kern.Descrip
