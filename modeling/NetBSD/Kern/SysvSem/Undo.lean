import Mathlib.Data.List.Perm.Basic
import Mathlib.Data.List.Nodup
import Mathlib.Data.BitVec

/-! The undo structures of System V semaphores (`sys/kern/sysv_sem.c`).

A process that operates on semaphores with `SEM_UNDO` has one `struct sem_undo`, a table of
at most `SEMUME` adjustments by set and semaphore number. An adjustment that becomes 0 is
removed and the last one takes its place, so the order of the table says nothing: what
counts is `entsOf` up to permutation. An adjustment can always be taken back
(`adjustEnt_reverse`): where it filled a place the place is freed, and where it freed one
the place is still there. -/
namespace NetBSD.Kern.SysvSem
open List Option

abbrev Proc := Nat

inductive Errno where
  | EINVAL
  | EAGAIN
  | EINTR
  | EFBIG
  | ENOSPC
  | EIDRM
  | E2BIG
  | EACCES
  | ERANGE
  | EFAULT
  | ENOENT
  | EEXIST
  | EBUSY
  deriving DecidableEq

/-- Undo entries a process may have. -/
def SEMUME : Nat := 10

structure SemUndoEntry where
  unAdjval : BitVec 16
  unNum : Nat
  unId : Nat

structure SemUndo where
  unProc : Proc
  /-- The first `un_cnt` entries. -/
  unEnt : List SemUndoEntry

def SemUndoEntry.IsFor (e : SemUndoEntry) (id num : Nat) : Prop := e.unId = id ∧ e.unNum = num

instance (e : SemUndoEntry) (id num : Nat) : Decidable (e.IsFor id num) := inferInstanceAs (Decidable (_ ∧ _))

/-- The entries behind one that is deleted: the last one takes its place. -/
def moveLast {α : Type} : List α → List α
  | [] => []
  | x :: rest => (x :: rest).getLast (cons_ne_nil _ _) :: (x :: rest).dropLast

/-- Look for the requested entry and adjust it (delete if adjval becomes 0); `none` when
it is not there. -/
def adjustFound (id num : Nat) (adjval : BitVec 16) : List SemUndoEntry → Option (List SemUndoEntry)
  | [] => none
  | e :: rest =>
    if e.IsFor id num then
      some (if e.unAdjval + adjval = 0 then moveLast rest else {e with unAdjval := e.unAdjval + adjval} :: rest)
    else (adjustFound id num adjval rest).map (e :: ·)

/-- The same, or create it; `none` when there is no room. -/
def adjustEnt (ents : List SemUndoEntry) (id num : Nat) (adjval : BitVec 16) : Option (List SemUndoEntry) :=
  match adjustFound id num adjval ents with
  | some r => some r
  | none => if ents.length = SEMUME then none else some (ents ++ [⟨adjval, num, id⟩])

def entsOf (l : List SemUndo) (p : Proc) : List SemUndoEntry :=
  match l.find? (·.unProc = p) with
  | some suptr => suptr.unEnt
  | none => []

def setEnts (p : Proc) (ents : List SemUndoEntry) : List SemUndo → List SemUndo
  | [] => []
  | suptr :: rest => if suptr.unProc = p then {suptr with unEnt := ents} :: rest else suptr :: setEnts p ents rest

/-- `semu_alloc`: a free one of the `semmnu` structures, put on `semu_list`. When there is
none, those without entries are freed. -/
def semuAlloc (semmnu : Nat) (p : Proc) (l : List SemUndo) : Option (List SemUndo) :=
  if l.length < semmnu then some (⟨p, []⟩ :: l)
  else
    let l' := l.filter (·.unEnt ≠ [])
    if l'.length < l.length ∧ l'.length < semmnu then some (⟨p, []⟩ :: l') else none

/-- Look for the `sem_undo` of the process, or allocate it. -/
def semuFind (semmnu : Nat) (p : Proc) (l : List SemUndo) : Option (List SemUndo) :=
  if (l.find? (·.unProc = p)).isSome then some l else semuAlloc semmnu p l

def semundoAdjust (semmnu : Nat) (p : Proc) (id num : Nat) (adjval : BitVec 16) (l : List SemUndo) :
    List SemUndo × Option Errno :=
  match semuFind semmnu p l with
  | none => (l, some .ENOSPC)
  | some l => match adjustEnt (entsOf l p) id num adjval with
    | none => (l, some .EINVAL)
    | some ents => (setEnts p ents l, none)

/-- `semundo_clear` on one table with `semnum` -1: an entry that goes is looked at again,
since another one has taken its place. `n` rounds are enough when there are `n` entries. -/
def clearAll (id : Nat) : Nat → List SemUndoEntry → List SemUndoEntry
  | 0, ents => ents
  | _ + 1, [] => []
  | n + 1, e :: rest => if e.unId = id then clearAll id n (moveLast rest) else e :: clearAll id n rest

/-- The same with a semaphore number: there is at most one such entry. -/
def clearOne (id num : Nat) : List SemUndoEntry → List SemUndoEntry
  | [] => []
  | e :: rest => if e.IsFor id num then moveLast rest else e :: clearOne id num rest

/-- `semundo_clear`; `none` is -1. -/
def semundoClear (id : Nat) (semnum : Option Nat) (l : List SemUndo) : List SemUndo :=
  l.map fun suptr => {suptr with unEnt := match semnum with
    | none => clearAll id suptr.unEnt.length suptr.unEnt
    | some num => clearOne id num suptr.unEnt}

/-- The value of a table for a semaphore. -/
def entOf (ents : List SemUndoEntry) (id num : Nat) : BitVec 16 :=
  match ents.find? (·.IsFor id num) with
  | some e => e.unAdjval
  | none => 0

/-- The adjustment of a process for a semaphore. -/
def semadj (l : List SemUndo) (p : Proc) (id num : Nat) : BitVec 16 := entOf (entsOf l p) id num

/-! ### One table -/

/-- At most one entry for a semaphore, none of them 0, and no more than there is room for. -/
structure EntsOk (ents : List SemUndoEntry) : Prop where
  nodup : (ents.map fun e => (e.unId, e.unNum)).Nodup
  nonzero : ∀ e ∈ ents, e.unAdjval ≠ 0
  room : ents.length ≤ SEMUME

section Table
variable {ents ents' rest : List SemUndoEntry} {e : SemUndoEntry} {id num : Nat} {adjval : BitVec 16}

theorem moveLast_perm {α : Type} (l : List α) : (moveLast l).Perm l := by
  cases l with
  | nil => exact .nil
  | cons x rest =>
    have hsplit := dropLast_append_getLast (cons_ne_nil x rest)
    refine (perm_append_singleton _ _).symm.trans ?_
    rw [hsplit]

theorem EntsOk.perm (h : EntsOk ents) (hp : ents.Perm ents') : EntsOk ents' :=
  ⟨(hp.map _).nodup_iff.mp h.nodup, fun e he => h.nonzero e (hp.mem_iff.mpr he), hp.length_eq ▸ h.room⟩

theorem adjustFound_of_mem (hn : (ents.map fun e => (e.unId, e.unNum)).Nodup) (he : e ∈ ents) (hf : e.IsFor id num) :
    ∃ rest r, ents.Perm (e :: rest) ∧ adjustFound id num adjval ents = some r ∧
      r.Perm (if e.unAdjval + adjval = 0 then rest else {e with unAdjval := e.unAdjval + adjval} :: rest) := by
  induction ents with
  | nil => exact absurd he not_mem_nil
  | cons x xs ih =>
    rw [map_cons, nodup_cons] at hn
    rcases mem_cons.mp he with rfl | he
    · refine ⟨xs, _, .refl _, by rw [adjustFound, if_pos hf], ?_⟩
      split
      · exact moveLast_perm xs
      · exact .refl _
    have hx : ¬x.IsFor id num := by
      rintro ⟨rfl, rfl⟩
      refine hn.1 (mem_map.mpr ⟨e, he, ?_⟩)
      rw [hf.1, hf.2]
    obtain ⟨rest, r, hperm, hr, hrp⟩ := ih hn.2 he
    refine ⟨x :: rest, x :: r, (hperm.cons x).trans (.swap e x rest), by rw [adjustFound, if_neg hx, hr]; rfl, ?_⟩
    refine (hrp.cons x).trans ?_
    split
    · exact .refl _
    · exact .swap _ _ _

theorem adjustFound_of_not_mem (h : ∀ e ∈ ents, ¬e.IsFor id num) : adjustFound id num adjval ents = none := by
  induction ents with
  | nil => rfl
  | cons x xs ih =>
    rw [adjustFound, if_neg (h x mem_cons_self), ih fun e he => h e (mem_cons_of_mem _ he)]
    rfl

theorem adjustEnt_of_perm (hok : EntsOk ents) (hf : e.IsFor id num) (hperm : ents.Perm (e :: rest)) : ∃ r, adjustEnt ents id num adjval = some r ∧
      r.Perm (if e.unAdjval + adjval = 0 then rest else {e with unAdjval := e.unAdjval + adjval} :: rest) := by
  obtain ⟨rest', r, hperm', hr, hrp⟩ :=
    @adjustFound_of_mem ents e id num adjval hok.nodup (hperm.mem_iff.mpr mem_cons_self) hf
  have hrest : rest'.Perm rest := (perm_cons e).mp (hperm'.symm.trans hperm)
  refine ⟨r, by rw [adjustEnt, hr], hrp.trans ?_⟩
  split
  · exact hrest
  · exact hrest.cons _

theorem adjustEnt_of_not_mem (hnone : ∀ e ∈ ents, ¬e.IsFor id num) : adjustEnt ents id num adjval =
    if ents.length = SEMUME then none else some (ents ++ [⟨adjval, num, id⟩]) := by
  rw [adjustEnt, adjustFound_of_not_mem hnone]

theorem adjustEnt_cases {r : List SemUndoEntry} (hok : EntsOk ents) (h : adjustEnt ents id num adjval = some r) :
    (∃ e rest, e.IsFor id num ∧ ents.Perm (e :: rest) ∧
      r.Perm (if e.unAdjval + adjval = 0 then rest else {e with unAdjval := e.unAdjval + adjval} :: rest)) ∨
    (∀ e ∈ ents, ¬e.IsFor id num) ∧ ents.length < SEMUME ∧ r.Perm (⟨adjval, num, id⟩ :: ents) := by
  by_cases hmem : ∃ e ∈ ents, e.IsFor id num
  · obtain ⟨e, he, hf⟩ := hmem
    obtain ⟨a, b, rfl⟩ := append_of_mem he
    have hperm : (a ++ e :: b).Perm (e :: (a ++ b)) := perm_middle
    obtain ⟨r', hr, hrp⟩ := @adjustEnt_of_perm _ _ e id num adjval hok hf hperm
    obtain rfl : r' = r := some.inj (hr.symm.trans h)
    exact .inl ⟨e, a ++ b, hf, hperm, hrp⟩
  have hnone : ∀ e ∈ ents, ¬e.IsFor id num := fun e he hf => hmem ⟨e, he, hf⟩
  rw [adjustEnt_of_not_mem hnone] at h
  by_cases hfull : ents.length = SEMUME
  · rw [if_pos hfull] at h
    exact absurd h (by simp)
  rw [if_neg hfull] at h
  obtain rfl := some.inj h
  exact .inr ⟨hnone, Nat.lt_of_le_of_ne hok.room hfull, perm_append_singleton _ _⟩

theorem entOf_of_mem (hok : EntsOk ents) (he : e ∈ ents) (hf : e.IsFor id num) : entOf ents id num = e.unAdjval := by
  have hfind : ents.find? (·.IsFor id num) = some e := by
    have hn := hok.nodup
    clear hok
    induction ents with
    | nil => exact absurd he not_mem_nil
    | cons x xs ih =>
      rw [map_cons, nodup_cons] at hn
      rcases mem_cons.mp he with rfl | he
      · simp [hf]
      have hx : ¬x.IsFor id num := by
        rintro ⟨rfl, rfl⟩
        exact hn.1 (mem_map.mpr ⟨e, he, by rw [hf.1, hf.2]⟩)
      simp [hx, ih he hn.2]
  rw [entOf, hfind]

theorem entOf_of_not_mem (h : ∀ e ∈ ents, ¬e.IsFor id num) : entOf ents id num = 0 := by
  have hfind : ents.find? (·.IsFor id num) = none := find?_eq_none.mpr fun e he => by simpa using h e he
  rw [entOf, hfind]

theorem entOf_perm (hok : EntsOk ents) (hp : ents.Perm ents') (id num : Nat) : entOf ents id num = entOf ents' id num := by
  by_cases hmem : ∃ e ∈ ents, e.IsFor id num
  · obtain ⟨e, he, hf⟩ := hmem
    rw [entOf_of_mem hok he hf, entOf_of_mem (hok.perm hp) (hp.mem_iff.mp he) hf]
  · rw [entOf_of_not_mem fun e he hf => hmem ⟨e, he, hf⟩,
      entOf_of_not_mem fun e he hf => hmem ⟨e, hp.mem_iff.mpr he, hf⟩]

theorem entOf_cons_self (hok : EntsOk (e :: rest)) : entOf (e :: rest) e.unId e.unNum = e.unAdjval :=
  entOf_of_mem hok mem_cons_self ⟨rfl, rfl⟩

theorem entOf_cons_ne (hf : ¬e.IsFor id num) : entOf (e :: rest) id num = entOf rest id num := by
  simp [entOf, find?_cons, hf, decide_false]

theorem EntsOk.tail (hok : EntsOk (e :: rest)) : EntsOk rest :=
  ⟨(nodup_cons.mp hok.nodup).2, fun x hx => hok.nonzero x (mem_cons_of_mem _ hx),
    Nat.le_of_succ_le hok.room⟩

theorem EntsOk.not_mem_tail (hok : EntsOk (e :: rest)) : ∀ x ∈ rest, ¬x.IsFor e.unId e.unNum := by
  rintro x hx ⟨hid, hnum⟩
  exact (nodup_cons.mp hok.nodup).1 (mem_map.mpr ⟨x, hx, by rw [hid, hnum]⟩)

theorem EntsOk.setHead (hok : EntsOk (e :: rest)) (h0 : adjval ≠ 0) : EntsOk ({e with unAdjval := adjval} :: rest) := by
  refine ⟨hok.nodup, fun x hx => ?_, hok.room⟩
  rcases mem_cons.mp hx with rfl | hx
  · exact h0
  · exact hok.nonzero x (mem_cons_of_mem _ hx)

theorem EntsOk.create (hok : EntsOk ents) (hnone : ∀ e ∈ ents, ¬e.IsFor id num) (hroom : ents.length < SEMUME)
    (h0 : adjval ≠ 0) : EntsOk (⟨adjval, num, id⟩ :: ents) := by
  refine ⟨nodup_cons.mpr ⟨fun hmem => ?_, hok.nodup⟩, fun x hx => ?_, hroom⟩
  · obtain ⟨x, hx, heq⟩ := mem_map.mp hmem
    obtain ⟨hid, hnum⟩ := Prod.mk.inj heq
    exact hnone x hx ⟨hid, hnum⟩
  · rcases mem_cons.mp hx with rfl | hx
    · exact h0
    · exact hok.nonzero x hx

/-- The table after an adjustment that succeeds: right, and right for every semaphore. -/
theorem adjustEnt_spec {r : List SemUndoEntry} (hok : EntsOk ents) (h0 : adjval ≠ 0)
    (h : adjustEnt ents id num adjval = some r) : EntsOk r ∧ ∀ id' num',
      entOf r id' num' = entOf ents id' num' + if id' = id ∧ num' = num then adjval else 0 := by
  rcases adjustEnt_cases hok h with ⟨e, rest, ⟨rfl, rfl⟩, hperm, hrp⟩ | ⟨hnone, hroom, hrp⟩
  · have hcons := hok.perm hperm
    by_cases hz : e.unAdjval + adjval = 0
    · rw [if_pos hz] at hrp
      refine ⟨hcons.tail.perm hrp.symm, fun id' num' => ?_⟩
      rw [entOf_perm hok hperm, ← entOf_perm hcons.tail hrp.symm]
      by_cases hk : id' = e.unId ∧ num' = e.unNum
      · obtain ⟨rfl, rfl⟩ := hk
        rw [entOf_of_not_mem hcons.not_mem_tail, entOf_cons_self hcons, if_pos ⟨rfl, rfl⟩, hz]
      · rw [if_neg hk, add_zero, entOf_cons_ne fun hf => hk ⟨hf.1.symm, hf.2.symm⟩]
    rw [if_neg hz] at hrp
    have hset := hcons.setHead hz
    refine ⟨hset.perm hrp.symm, fun id' num' => ?_⟩
    rw [entOf_perm hok hperm, ← entOf_perm hset hrp.symm]
    by_cases hk : id' = e.unId ∧ num' = e.unNum
    · obtain ⟨rfl, rfl⟩ := hk
      rw [entOf_cons_self hcons, if_pos ⟨rfl, rfl⟩]
      exact entOf_cons_self hset
    · rw [if_neg hk, add_zero, entOf_cons_ne fun hf => hk ⟨hf.1.symm, hf.2.symm⟩]
      exact entOf_cons_ne fun hf => hk ⟨hf.1.symm, hf.2.symm⟩
  · have hnew := hok.create hnone hroom h0
    refine ⟨hnew.perm hrp.symm, fun id' num' => ?_⟩
    rw [← entOf_perm hnew hrp.symm]
    by_cases hk : id' = id ∧ num' = num
    · obtain ⟨rfl, rfl⟩ := hk
      rw [if_pos ⟨rfl, rfl⟩, entOf_of_not_mem hnone, zero_add]
      exact entOf_cons_self hnew
    · rw [if_neg hk, add_zero]
      exact entOf_cons_ne fun hf => hk ⟨hf.1.symm, hf.2.symm⟩

/-- An adjustment can be taken back, whatever the order the table has got. -/
theorem adjustEnt_reverse {r r' : List SemUndoEntry} (hok : EntsOk ents) (h0 : adjval ≠ 0)
    (h : adjustEnt ents id num adjval = some r) (hp : r.Perm r') :
    ∃ s, adjustEnt r' id num (-adjval) = some s ∧ s.Perm ents := by
  have hr' : EntsOk r' := (adjustEnt_spec hok h0 h).1.perm hp
  rcases adjustEnt_cases hok h with ⟨e, rest, hf, hperm, hrp⟩ | ⟨hnone, hroom, hrp⟩
  · have hcons := hok.perm hperm
    by_cases hz : e.unAdjval + adjval = 0
    · -- The entry was deleted and is created again.
      rw [if_pos hz] at hrp
      have hr'p : r'.Perm rest := hp.symm.trans hrp
      obtain ⟨rfl, rfl⟩ := hf
      have hnone : ∀ x ∈ r', ¬x.IsFor e.unId e.unNum := fun x hx => hcons.not_mem_tail x (hr'p.mem_iff.mp hx)
      have hlen : r'.length ≠ SEMUME := by
        have hroom := hcons.room
        rw [length_cons, ← hr'p.length_eq] at hroom
        exact ne_of_lt hroom
      have heq : e = ⟨-adjval, e.unNum, e.unId⟩ := by
        have hadj : e.unAdjval = -adjval := eq_neg_of_add_eq_zero_left hz
        cases e
        simp only at hadj
        rw [hadj]
      refine ⟨_, by rw [adjustEnt_of_not_mem hnone, if_neg hlen], ?_⟩
      rw [← heq]
      exact (perm_append_singleton _ _).trans ((hr'p.cons e).trans hperm.symm)
    · rw [if_neg hz] at hrp
      have hf' : SemUndoEntry.IsFor {e with unAdjval := e.unAdjval + adjval} id num := hf
      obtain ⟨s, hs, hsp⟩ := @adjustEnt_of_perm _ _ _ id num (-adjval) hr' hf' (hp.symm.trans hrp)
      simp only [add_neg_cancel_right, if_neg (hcons.nonzero e mem_cons_self)] at hsp
      exact ⟨s, hs, hsp.trans hperm.symm⟩
  · -- The entry was created and is deleted.
    have hf' : SemUndoEntry.IsFor ⟨adjval, num, id⟩ id num := ⟨rfl, rfl⟩
    obtain ⟨s, hs, hsp⟩ := @adjustEnt_of_perm _ _ _ id num (-adjval) hr' hf' (hp.symm.trans hrp)
    rw [if_pos (add_neg_cancel adjval)] at hsp
    exact ⟨s, hs, hsp⟩

end Table

/-! ### All tables -/

/-- A structure for each process at most, and all tables right. -/
structure UndoOk (l : List SemUndo) : Prop where
  nodup : (l.map SemUndo.unProc).Nodup
  ents : ∀ suptr ∈ l, EntsOk suptr.unEnt

section Tables
variable {l : List SemUndo} {p q : Proc} {ents : List SemUndoEntry} {semmnu : Nat}

theorem entsOk_nil : EntsOk [] := ⟨nodup_nil, fun _ he => absurd he not_mem_nil, Nat.zero_le _⟩

theorem entsOf_cons_self (suptr : SemUndo) : entsOf (suptr :: l) suptr.unProc = suptr.unEnt := by
  simp [entsOf]

theorem entsOf_cons_ne {suptr : SemUndo} (h : suptr.unProc ≠ p) : entsOf (suptr :: l) p = entsOf l p := by
  simp [entsOf, h]

theorem entsOf_of_mem {suptr : SemUndo} (hn : (l.map SemUndo.unProc).Nodup) (h : suptr ∈ l) : entsOf l suptr.unProc = suptr.unEnt := by
  induction l with
  | nil => exact absurd h not_mem_nil
  | cons x xs ih =>
    rw [map_cons, nodup_cons] at hn
    rcases mem_cons.mp h with rfl | h
    · exact entsOf_cons_self suptr
    · rw [entsOf_cons_ne fun heq => hn.1 (mem_map.mpr ⟨suptr, h, heq.symm⟩)]
      exact ih hn.2 h

theorem entsOf_of_not_mem (h : p ∉ l.map SemUndo.unProc) : entsOf l p = [] := by
  have hfind : l.find? (·.unProc = p) = none :=
    find?_eq_none.mpr fun x hx => by simpa using fun heq => h (mem_map.mpr ⟨x, hx, heq⟩)
  rw [entsOf, hfind]

theorem UndoOk.entsOf (h : UndoOk l) (p : Proc) : EntsOk (entsOf l p) := by
  by_cases hp : p ∈ l.map SemUndo.unProc
  · obtain ⟨suptr, hmem, rfl⟩ := mem_map.mp hp
    rw [entsOf_of_mem h.nodup hmem]
    exact h.ents suptr hmem
  · rw [entsOf_of_not_mem hp]
    exact entsOk_nil

theorem procs_setEnts : (setEnts p ents l).map SemUndo.unProc = l.map SemUndo.unProc := by
  induction l with
  | nil => rfl
  | cons x xs ih =>
    rw [setEnts]
    split
    · rfl
    · rw [map_cons, map_cons, ih]

theorem entsOf_setEnts (hp : p ∈ l.map SemUndo.unProc) : entsOf (setEnts p ents l) q = if q = p then ents else entsOf l q := by
  induction l with
  | nil => exact absurd hp not_mem_nil
  | cons x xs ih =>
    rw [setEnts]
    by_cases hx : x.unProc = p
    · subst hx
      rw [if_pos rfl]
      by_cases hq : q = x.unProc
      · subst hq
        rw [if_pos rfl]
        exact entsOf_cons_self _
      · rw [if_neg hq, entsOf_cons_ne (Ne.symm hq)]
        exact entsOf_cons_ne (Ne.symm hq)
    have hxs : p ∈ xs.map SemUndo.unProc := by
      rcases mem_cons.mp hp with h | h
      · exact absurd h.symm hx
      · exact h
    rw [if_neg hx]
    by_cases hq : x.unProc = q
    · subst hq
      rw [entsOf_cons_self, if_neg hx, entsOf_cons_self]
    · rw [entsOf_cons_ne hq, entsOf_cons_ne hq]
      exact ih hxs

theorem mem_setEnts {suptr : SemUndo} (h : suptr ∈ setEnts p ents l) : suptr ∈ l ∨ suptr.unEnt = ents := by
  induction l with
  | nil => exact absurd h not_mem_nil
  | cons x xs ih =>
    rw [setEnts] at h
    split at h
    · rcases mem_cons.mp h with rfl | h
      · exact .inr rfl
      · exact .inl (mem_cons_of_mem _ h)
    · rcases mem_cons.mp h with rfl | h
      · exact .inl mem_cons_self
      · exact (ih h).imp_left (mem_cons_of_mem _)

theorem UndoOk.setEnts (h : UndoOk l) (hents : EntsOk ents) : UndoOk (setEnts p ents l) := by
  refine ⟨by rw [procs_setEnts]; exact h.nodup, fun suptr hmem => ?_⟩
  rcases mem_setEnts hmem with hmem | heq
  · exact h.ents suptr hmem
  · exact heq ▸ hents

theorem entsOf_filter (h : UndoOk l) (q : Proc) : entsOf (l.filter (·.unEnt ≠ [])) q = entsOf l q := by
  have hn' : ((l.filter (·.unEnt ≠ [])).map SemUndo.unProc).Nodup :=
    h.nodup.sublist ((filter_sublist (l := l)).map _)
  by_cases hq : q ∈ l.map SemUndo.unProc
  · obtain ⟨suptr, hmem, rfl⟩ := mem_map.mp hq
    rw [entsOf_of_mem h.nodup hmem]
    by_cases hne : suptr.unEnt = []
    · rw [hne]
      refine entsOf_of_not_mem fun hmem' => ?_
      obtain ⟨x, hx, hxp⟩ := mem_map.mp hmem'
      obtain ⟨hxl, hxe⟩ := mem_filter.mp hx
      have heq : x = suptr := inj_on_of_nodup_map h.nodup hxl hmem hxp
      rw [heq, hne] at hxe
      simp at hxe
    · exact entsOf_of_mem hn' (mem_filter.mpr ⟨hmem, by simpa using hne⟩)
  · rw [entsOf_of_not_mem hq]
    refine entsOf_of_not_mem fun hmem' => hq ?_
    obtain ⟨x, hx, hxp⟩ := mem_map.mp hmem'
    exact mem_map.mpr ⟨x, (mem_filter.mp hx).1, hxp⟩

theorem semuAlloc_spec {l' : List SemUndo} (h : UndoOk l) (hp : p ∉ l.map SemUndo.unProc) (ha : semuAlloc semmnu p l = some l') :
    UndoOk l' ∧ p ∈ l'.map SemUndo.unProc ∧ ∀ q, entsOf l' q = entsOf l q := by
  -- Both times a structure without entries is put in front of tables that say the same.
  have hcons {k : List SemUndo} (hk : UndoOk k) (hpk : p ∉ k.map SemUndo.unProc) (heq : ∀ q, entsOf k q = entsOf l q) :
      UndoOk (⟨p, []⟩ :: k) ∧ p ∈ (⟨p, []⟩ :: k : List SemUndo).map SemUndo.unProc ∧
        ∀ q, entsOf (⟨p, []⟩ :: k) q = entsOf l q := by
    refine ⟨⟨nodup_cons.mpr ⟨hpk, hk.nodup⟩, fun x hx => ?_⟩, mem_cons_self, fun q => ?_⟩
    · rcases mem_cons.mp hx with rfl | hx
      · exact entsOk_nil
      · exact hk.ents x hx
    by_cases hq : p = q
    · subst hq
      rw [entsOf_of_not_mem hp]
      exact entsOf_cons_self _
    · rw [← heq q]
      exact entsOf_cons_ne hq
  unfold semuAlloc at ha
  split at ha
  · obtain rfl := some.inj ha
    exact hcons h hp fun _ => rfl
  simp only at ha
  split at ha
  · obtain rfl := some.inj ha
    refine hcons ⟨h.nodup.sublist ((filter_sublist (l := l)).map _), fun x hx => h.ents x (mem_filter.mp hx).1⟩
      (fun hmem => hp ?_) fun q => entsOf_filter h q
    obtain ⟨x, hx, hxp⟩ := mem_map.mp hmem
    exact mem_map.mpr ⟨x, (mem_filter.mp hx).1, hxp⟩
  · exact absurd ha (by simp)

theorem semuFind_of_mem (hp : p ∈ l.map SemUndo.unProc) : semuFind semmnu p l = some l := by
  obtain ⟨x, hx, hxp⟩ := mem_map.mp hp
  exact if_pos (find?_isSome.mpr ⟨x, hx, by simpa using hxp⟩)

theorem semuFind_spec {l' : List SemUndo} (h : UndoOk l) (ha : semuFind semmnu p l = some l') :
    UndoOk l' ∧ p ∈ l'.map SemUndo.unProc ∧ ∀ q, entsOf l' q = entsOf l q := by
  by_cases hp : p ∈ l.map SemUndo.unProc
  · rw [semuFind_of_mem hp] at ha
    obtain rfl := some.inj ha
    exact ⟨h, hp, fun _ => rfl⟩
  have hnone : ¬(l.find? (·.unProc = p)).isSome := by
    rw [find?_isSome]
    rintro ⟨x, hx, hxp⟩
    exact hp (mem_map.mpr ⟨x, hx, by simpa using hxp⟩)
  rw [semuFind, if_neg hnone] at ha
  exact semuAlloc_spec h hp ha

/-- What `semundo_adjust` does: the table of the process is adjusted, or it fails and no
table says anything else. -/
theorem semundoAdjust_cases (h : UndoOk l) (id num : Nat) (adjval : BitVec 16) :
    (∃ l' e, semundoAdjust semmnu p id num adjval l = (l', some e) ∧ UndoOk l' ∧
      (p ∈ l.map SemUndo.unProc → p ∈ l'.map SemUndo.unProc) ∧ ∀ q, entsOf l' q = entsOf l q) ∨
    ∃ l' r, semundoAdjust semmnu p id num adjval l = (setEnts p r l', none) ∧ UndoOk l' ∧ p ∈ l'.map SemUndo.unProc ∧
      (∀ q, entsOf l' q = entsOf l q) ∧ adjustEnt (entsOf l p) id num adjval = some r := by
  unfold semundoAdjust
  cases hf : semuFind semmnu p l with
  | none => exact .inl ⟨l, .ENOSPC, rfl, h, fun hp => hp, fun _ => rfl⟩
  | some l' =>
    obtain ⟨hok, hp, heq⟩ := semuFind_spec h hf
    simp only
    cases ha : adjustEnt (entsOf l' p) id num adjval with
    | none => exact .inl ⟨l', .EINVAL, rfl, hok, fun _ => hp, heq⟩
    | some r => exact .inr ⟨l', r, rfl, hok, hp, heq, heq p ▸ ha⟩

theorem clearAll_perm (id n : Nat) (ents : List SemUndoEntry) (hn : ents.length ≤ n) :
    (clearAll id n ents).Perm (ents.filter (·.unId ≠ id)) := by
  induction n generalizing ents with
  | zero =>
    obtain rfl := eq_nil_of_length_eq_zero (Nat.le_zero.mp hn)
    exact .nil
  | succ n ih =>
    cases ents with
    | nil => exact .nil
    | cons e rest =>
      have hrest : rest.length ≤ n := Nat.le_of_succ_le_succ hn
      rw [clearAll]
      by_cases he : e.unId = id
      · have hlast := moveLast_perm rest
        rw [if_pos he, filter_cons_of_neg (by simpa using he)]
        exact (ih _ (hlast.length_eq.trans_le hrest)).trans (hlast.filter _)
      · rw [if_neg he, filter_cons_of_pos (by simpa using he)]
        exact (ih _ hrest).cons e

theorem clearOne_perm (id num : Nat) (h : EntsOk ents) : (clearOne id num ents).Perm (ents.filter fun e => ¬e.IsFor id num) := by
  induction ents with
  | nil => exact .nil
  | cons e rest ih =>
    rw [clearOne]
    by_cases he : e.IsFor id num
    · obtain ⟨rfl, rfl⟩ := he
      rw [if_pos ⟨rfl, rfl⟩, filter_cons_of_neg (by simp [SemUndoEntry.IsFor]), filter_eq_self.mpr fun x hx => by simpa using h.not_mem_tail x hx]
      exact moveLast_perm rest
    · rw [if_neg he, filter_cons_of_pos (by simpa using he)]
      exact (ih h.tail).cons e

theorem EntsOk.filter (h : EntsOk ents) (f : SemUndoEntry → Bool) : EntsOk (ents.filter f) :=
  ⟨h.nodup.sublist ((filter_sublist (l := ents)).map _), fun e he => h.nonzero e (mem_filter.mp he).1,
    (length_filter_le f ents).trans h.room⟩

/-- The entries for a set, or for one semaphore of it, are gone from every table; the
others stay. -/
theorem semundoClear_spec (h : UndoOk l) (id : Nat) (semnum : Option Nat) : UndoOk (semundoClear id semnum l) ∧
    ∀ suptr ∈ semundoClear id semnum l, ∃ suptr' ∈ l, suptr'.unProc = suptr.unProc ∧
      suptr.unEnt.Perm (suptr'.unEnt.filter fun e => ¬(e.unId = id ∧ ∀ num, semnum = some num → e.unNum = num)) := by
  have hperm (suptr : SemUndo) (hs : suptr ∈ l) : (match semnum with
      | none => clearAll id suptr.unEnt.length suptr.unEnt
      | some num => clearOne id num suptr.unEnt).Perm
        (suptr.unEnt.filter fun e => ¬(e.unId = id ∧ ∀ num, semnum = some num → e.unNum = num)) := by
    cases semnum with
    | none =>
      have hp := clearAll_perm id _ suptr.unEnt (le_refl _)
      simpa using hp
    | some num =>
      have hp := clearOne_perm id num (h.ents suptr hs)
      simpa [SemUndoEntry.IsFor] using hp
  refine ⟨⟨?_, fun suptr hs => ?_⟩, fun suptr hs => ?_⟩
  · rw [semundoClear, List.map_map]
    exact h.nodup
  · obtain ⟨x, hx, rfl⟩ := mem_map.mp hs
    exact ((h.ents x hx).filter _).perm (hperm x hx).symm
  · obtain ⟨x, hx, rfl⟩ := mem_map.mp hs
    exact ⟨x, hx, rfl, hperm x hx⟩

theorem semadj_ne_zero (h : UndoOk l) {id num : Nat} : semadj l p id num ≠ 0 ↔
    ∃ suptr ∈ l, suptr.unProc = p ∧ ∃ e ∈ suptr.unEnt, e.IsFor id num := by
  constructor
  · intro hne
    by_contra hnone
    push Not at hnone
    refine hne (entOf_of_not_mem fun e he => ?_)
    by_cases hp : p ∈ l.map SemUndo.unProc
    · obtain ⟨suptr, hs, rfl⟩ := mem_map.mp hp
      rw [entsOf_of_mem h.nodup hs] at he
      exact hnone suptr hs rfl e he
    · rw [entsOf_of_not_mem hp] at he
      exact absurd he not_mem_nil
  · rintro ⟨suptr, hs, rfl, e, he, hf⟩
    rw [semadj, entsOf_of_mem h.nodup hs, entOf_of_mem (h.ents suptr hs) he hf]
    exact (h.ents suptr hs).nonzero e he

theorem semadj_semundoClear (h : UndoOk l) {id id' num : Nat} {semnum : Option Nat}
    (hne : semadj (semundoClear id semnum l) p id' num ≠ 0) : semadj l p id' num ≠ 0 ∧ (semnum = none → id' ≠ id) := by
  obtain ⟨hok, hspec⟩ := semundoClear_spec h id semnum
  obtain ⟨suptr, hs, rfl, e, he, hf⟩ := (semadj_ne_zero hok).mp hne
  obtain ⟨x, hx, hproc, hperm⟩ := hspec suptr hs
  obtain ⟨hmem, hkeep⟩ := mem_filter.mp (hperm.mem_iff.mp he)
  refine ⟨(semadj_ne_zero h).mpr ⟨x, hx, hproc, e, hmem, hf⟩, ?_⟩
  rintro rfl rfl
  simp [hf.1] at hkeep

end Tables

end NetBSD.Kern.SysvSem
