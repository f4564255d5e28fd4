import NetBSD.Kern.SysvSem.Steps

/-! `sys_semop` is all or nothing.

`semopLoop_cases` says what one round of its loop can do to the state: nothing, when an
operation can't be done and must not wait; one more waiter; nothing but another order of
the undo entries, when they run out; or all the operations and adjustments. -/
namespace NetBSD.Kern.SysvSem
open List Function Option
open Lib

/-! ### Values -/

section Values
variable {base : Nat} {sops : List Sembuf} {sem : Nat → Sem} {k : Nat}

/-- What the operations add to the semaphore at `k`. -/
def delta (base : Nat) (sops : List Sembuf) (k : Nat) : BitVec 16 :=
  (sops.map fun sop => if base + sop.semNum = k then sop.semOp else 0).sum

def addOps (base : Nat) (sops : List Sembuf) (sem : Nat → Sem) : Nat → Sem :=
  fun k => {sem k with semval := (sem k).semval + delta base sops k}

theorem delta_nil : delta base [] k = 0 := rfl

theorem delta_cons (sop : Sembuf) :
    delta base (sop :: sops) k = (if base + sop.semNum = k then sop.semOp else 0) + delta base sops k := by
  rw [delta, map_cons, sum_cons, delta]

theorem addVal_apply (num : Nat) (d : BitVec 16) : addVal base sem num d k =
    {sem k with semval := (sem k).semval + if base + num = k then d else 0} := by
  by_cases hk : base + num = k
  · subst hk
    rw [addVal, update_self, if_pos rfl]
  · rw [addVal, update_of_ne (Ne.symm hk), if_neg hk, add_zero]

theorem addOps_nil : addOps base [] sem = sem := by
  funext k
  rw [addOps, delta_nil, add_zero]

theorem addOps_cons (sop : Sembuf) : addOps base (sop :: sops) sem = addOps base sops (addVal base sem sop.semNum sop.semOp) := by
  funext k
  rw [addOps, addOps, addVal_apply, delta_cons, add_assoc]

theorem rollback_apply (done : List Sembuf) : rollback base done sem k = {sem k with semval := (sem k).semval - delta base done k} := by
  induction done with
  | nil => rw [delta_nil, sub_zero]; rfl
  | cons sop done ih =>
    rw [rollback, foldr_cons, ← rollback, addVal_apply, ih, delta_cons]
    by_cases hk : base + sop.semNum = k
    · simp [if_pos hk, ← sub_eq_add_neg, sub_sub, add_comm sop.semOp]
    · simp [if_neg hk, zero_add, add_zero]

theorem rollbackAll_apply (sops : List Sembuf) : rollbackAll base sops sem k = {sem k with semval := (sem k).semval - delta base sops k} := by
  induction sops generalizing sem with
  | nil => rw [delta_nil, sub_zero]; rfl
  | cons sop sops ih =>
    rw [rollbackAll, foldl_cons, ← rollbackAll, ih, addVal_apply, delta_cons]
    by_cases hk : base + sop.semNum = k
    · simp only [if_pos hk, sub_eq_add_neg, neg_add, add_assoc]
    · simp [if_neg hk, zero_add, add_zero]

theorem rollback_addOps : rollback base sops (addOps base sops sem) = sem := by
  funext k
  rw [rollback_apply, addOps]
  simp

theorem rollbackAll_addOps : rollbackAll base sops (addOps base sops sem) = sem := by
  funext k
  rw [rollbackAll_apply, addOps]
  simp

theorem setPids_apply (pid : Proc) : (setPids base pid sops sem k).semval = (sem k).semval ∧
    (setPids base pid sops sem k).semncnt = (sem k).semncnt ∧ (setPids base pid sops sem k).semzcnt = (sem k).semzcnt := by
  induction sops generalizing sem with
  | nil => exact ⟨rfl, rfl, rfl⟩
  | cons sop sops ih =>
    obtain ⟨h1, h2, h3⟩ := @ih (update sem (base + sop.semNum) {sem (base + sop.semNum) with sempid := pid})
    rw [setPids, foldl_cons, ← setPids, h1, h2, h3]
    by_cases hk : k = base + sop.semNum
    · subst hk
      rw [update_self]
      exact ⟨rfl, rfl, rfl⟩
    · rw [update_of_ne hk]
      exact ⟨rfl, rfl, rfl⟩

theorem tryOp_sem {sop : Sembuf} {p p' : Pass} (h : tryOp base sop p = some p') :
    p'.sem = addVal base p.sem sop.semNum sop.semOp ∧ (sop.Undoes ∨ p.doUndos = true → p'.doUndos = true) := by
  unfold tryOp at h
  simp only at h
  split_ifs at h with hneg hcan hzero hpos
  · obtain rfl := some.inj h
    refine ⟨rfl, ?_⟩
    rintro (⟨hu, -⟩ | hu) <;> simp [hu]
  · obtain rfl := some.inj h
    refine ⟨?_, ?_⟩
    · funext k
      rw [addVal_apply, hzero, ite_self, add_zero]
    rintro (⟨-, hne⟩ | hu)
    · exact absurd hzero hne
    · exact hu
  · obtain rfl := some.inj h
    refine ⟨rfl, ?_⟩
    rintro (⟨hu, -⟩ | hu) <;> simp [hu]

theorem tryOps_spec (before todo : List Sembuf) (p : Pass) : match tryOps base before todo p with
    | (p', none) => p'.sem = addOps base todo p.sem ∧ (p.doUndos = true ∨ (∃ sop ∈ todo, sop.Undoes) → p'.doUndos = true)
    | (p', some (before', sop)) => ∃ done rest, todo = done ++ sop :: rest ∧ before' = before ++ done ∧
        p'.sem = addOps base done p.sem ∧ tryOp base sop p' = none := by
  induction todo generalizing before p with
  | nil =>
    refine ⟨addOps_nil.symm, ?_⟩
    rintro (hu | ⟨sop, hs, -⟩)
    · exact hu
    · exact absurd hs not_mem_nil
  | cons sop rest ih =>
    rw [tryOps]
    cases ht : tryOp base sop p with
    | none => exact ⟨[], rest, rfl, by rw [append_nil], addOps_nil.symm, ht⟩
    | some q =>
      obtain ⟨hsem, hundo⟩ := tryOp_sem ht
      have hrest := ih (before ++ [sop]) q
      simp only
      generalize tryOps base (before ++ [sop]) rest q = r at hrest
      obtain ⟨p', fail⟩ := r
      cases fail with
      | none =>
        refine ⟨by rw [hrest.1, hsem, addOps_cons], fun h => hrest.2 ?_⟩
        rcases h with hu | ⟨s, hs, hu⟩
        · exact .inl (hundo (.inr hu))
        rcases mem_cons.mp hs with rfl | hs
        · exact .inl (hundo (.inl hu))
        · exact .inr ⟨s, hs, hu⟩
      | some stop =>
        obtain ⟨done, rest', hrest', hbefore, hsem', hnone⟩ := hrest
        exact ⟨sop :: done, rest', by rw [hrest']; rfl, by rw [hbefore]; simp, by rw [hsem', hsem, addOps_cons], hnone⟩

end Values

/-! ### Adjustments -/

section Undos
variable {semmnu : Nat} {p : Proc} {id : Nat} {l l' : List SemUndo}

/-- The tables say the same, up to the order in the one of `p`. -/
structure SameUndo (p : Proc) (l l' : List SemUndo) : Prop where
  others : ∀ q, q ≠ p → entsOf l' q = entsOf l q
  own : (entsOf l' p).Perm (entsOf l p)

theorem SameUndo.semadj (h : SameUndo p l l') (hok : UndoOk l') (q : Proc) (id num : Nat) : semadj l' q id num = semadj l q id num := by
  unfold SysvSem.semadj
  by_cases hq : q = p
  · subst hq
    exact entOf_perm (hok.entsOf q) h.own id num
  · rw [h.others q hq]

/-- From `l` the adjustments `done` can be rolled back to what `l₀` says. -/
def Undoable (semmnu : Nat) (p : Proc) (id : Nat) (l₀ : List SemUndo) (done : List Sembuf) (l : List SemUndo) : Prop :=
  ∀ l', UndoOk l' → SameUndo p l l' → (p ∈ l.map SemUndo.unProc → p ∈ l'.map SemUndo.unProc) →
    ∃ l'', unadjustOps semmnu p id done l' = some l'' ∧ UndoOk l'' ∧ SameUndo p l₀ l''

/-- What the adjustments subtract for a semaphore. -/
def undone (id : Nat) (sops : List Sembuf) (id' num : Nat) : BitVec 16 :=
  (sops.map fun sop => if sop.undo = true ∧ id' = id ∧ sop.semNum = num then sop.semOp else 0).sum

theorem adjust_ok {num : Nat} {d : BitVec 16} {r : List SemUndoEntry} (hok : UndoOk l) (hd : d ≠ 0)
    (hp : p ∈ l.map SemUndo.unProc) (hr : adjustEnt (entsOf l p) id num d = some r) :
    UndoOk (setEnts p r l) ∧ ∀ q id' num', semadj (setEnts p r l) q id' num' =
      semadj l q id' num' + if q = p ∧ id' = id ∧ num' = num then d else 0 := by
  obtain ⟨hents, hval⟩ := adjustEnt_spec (hok.entsOf p) hd hr
  refine ⟨hok.setEnts hents, fun q id' num' => ?_⟩
  rw [semadj, semadj, entsOf_setEnts hp]
  by_cases hq : q = p
  · subst hq
    rw [if_pos rfl, hval]
    simp
  · rw [if_neg hq, if_neg fun h => hq h.1, add_zero]

theorem semadj_congr (h : ∀ q, entsOf l' q = entsOf l q) (q : Proc) (id num : Nat) : semadj l' q id num = semadj l q id num := by
  rw [semadj, semadj, h q]

theorem Undoable.cons {l₀ l₁ : List SemUndo} {done : List Sembuf} {sop : Sembuf} {r : List SemUndoEntry}
    (h : Undoable semmnu p id l₀ done l) (hu : sop.Undoes) (hok : UndoOk l) (hp : p ∈ l₁.map SemUndo.unProc)
    (heq : ∀ q, entsOf l₁ q = entsOf l q) (hr : adjustEnt (entsOf l p) id sop.semNum (-sop.semOp) = some r) :
    Undoable semmnu p id l₀ (sop :: done) (setEnts p r l₁) := by
  intro l' hok' hsame hp'
  have hpl' : p ∈ l'.map SemUndo.unProc := hp' (by rw [procs_setEnts]; exact hp)
  have hown := hsame.own
  rw [entsOf_setEnts hp, if_pos rfl] at hown
  obtain ⟨s, hs, hsp⟩ := adjustEnt_reverse (hok.entsOf p) (neg_ne_zero.mpr hu.2) hr hown.symm
  rw [neg_neg] at hs
  have hback : semundoAdjust semmnu p id sop.semNum sop.semOp l' = (setEnts p s l', none) := by
    rw [semundoAdjust, semuFind_of_mem hpl']
    simp [hs]
  rw [unadjustOps, if_pos hu, hback]
  refine h _ (adjust_ok hok' hu.2 hpl' hs).1 ⟨fun q hq => ?_, ?_⟩ fun _ => by rw [procs_setEnts]; exact hpl'
  · rw [entsOf_setEnts hpl', if_neg hq, hsame.others q hq, entsOf_setEnts hp, if_neg hq, heq q]
  · rw [entsOf_setEnts hpl', if_pos rfl]
    exact hsp

theorem undone_cons (sop : Sembuf) (sops : List Sembuf) (id' num : Nat) : undone id (sop :: sops) id' num =
    (if sop.undo = true ∧ id' = id ∧ sop.semNum = num then sop.semOp else 0) + undone id sops id' num := by
  rw [undone, map_cons, sum_cons, undone]

/-- All adjustments are made, or those made can be rolled back. -/
theorem adjustOps_spec (l₀ : List SemUndo) (done todo : List Sembuf) (hok : UndoOk l) (hun : Undoable semmnu p id l₀ done l) :
    match adjustOps semmnu p id done todo l with
    | (l', none) => UndoOk l' ∧ ∀ q id' num, semadj l' q id' num = semadj l q id' num - if q = p then undone id todo id' num else 0
    | (l', some (_, done')) => ∃ l'', unadjustOps semmnu p id done' l' = some l'' ∧ UndoOk l'' ∧ SameUndo p l₀ l'' := by
  induction todo generalizing done l with
  | nil =>
    refine ⟨hok, fun q id' num => ?_⟩
    simp [undone]
  | cons sop rest ih =>
    rw [adjustOps]
    by_cases hu : sop.Undoes
    · rw [if_pos hu]
      rcases @semundoAdjust_cases l p semmnu hok id sop.semNum (-sop.semOp) with ⟨l₁, e, heq, hok₁, hp₁, hsame⟩ |
          ⟨l₁, r, heq, hok₁, hp₁, hsame, hr⟩
      · rw [heq]
        exact hun l₁ hok₁ ⟨fun q _ => hsame q, by rw [hsame p]⟩ hp₁
      rw [heq]
      have hr₁ : adjustEnt (entsOf l₁ p) id sop.semNum (-sop.semOp) = some r := by rw [hsame p]; exact hr
      obtain ⟨hok₂, hval⟩ := adjust_ok hok₁ (neg_ne_zero.mpr hu.2) hp₁ hr₁
      have hrest := ih (sop :: done) hok₂ (hun.cons hu hok hp₁ hsame hr)
      simp only
      generalize adjustOps semmnu p id (sop :: done) rest (setEnts p r l₁) = res at hrest
      obtain ⟨l', fail⟩ := res
      cases fail with
      | none =>
        refine ⟨hrest.1, fun q id' num => ?_⟩
        rw [hrest.2, hval, semadj_congr hsame, undone_cons]
        by_cases hq : q = p
        · by_cases hk : id' = id ∧ sop.semNum = num
          · obtain ⟨rfl, rfl⟩ := hk
            simp only [hq, hu.1, and_self, if_true, sub_eq_add_neg, neg_add, add_assoc]
          · have hk' : ¬(id' = id ∧ num = sop.semNum) := fun h => hk ⟨h.1, h.2.symm⟩
            simp [hq, hu.1, hk, hk', true_and, if_true, if_false, add_zero, zero_add]
        · simp [hq, false_and, if_false, add_zero]
      | some stop => exact hrest
    · rw [if_neg hu]
      have hskip : Undoable semmnu p id l₀ (sop :: done) l := by
        intro l' hok' hsame hp'
        rw [unadjustOps, if_neg hu]
        exact hun l' hok' hsame hp'
      have hrest := ih (sop :: done) hok hskip
      generalize adjustOps semmnu p id (sop :: done) rest l = res at hrest
      obtain ⟨l', fail⟩ := res
      cases fail with
      | none =>
        refine ⟨hrest.1, fun q id' num => ?_⟩
        have hzero : (if sop.undo = true ∧ id' = id ∧ sop.semNum = num then sop.semOp else 0) = 0 := by
          split
          · next h =>
            by_contra hne
            exact hu ⟨h.1, hne⟩
          · rfl
        rw [hrest.2, undone_cons, hzero, zero_add]
      | some stop => exact hrest

theorem undone_eq_zero {sops : List Sembuf} (h : ¬∃ sop ∈ sops, sop.Undoes) (id' num : Nat) : undone id sops id' num = 0 := by
  induction sops with
  | nil => rfl
  | cons sop rest ih =>
    have hzero : (if sop.undo = true ∧ id' = id ∧ sop.semNum = num then sop.semOp else 0) = 0 := by
      split
      · next hu =>
        by_contra hne
        exact h ⟨sop, mem_cons_self, hu.1, hne⟩
      · rfl
    rw [undone_cons, hzero, zero_add]
    exact ih fun ⟨s, hs, hu⟩ => h ⟨s, mem_cons_of_mem _ hs, hu⟩

end Undos

section Loop
variable {st : State}

theorem semopLoop_cases (hok : UndoOk st.semuList) (c : Call) (doUndos : Bool) : (∃ before sop rest p, c.sops = before ++ sop :: rest ∧
      tryOps (st.sema c.ix).semBase [] c.sops ⟨st.sem, false, doUndos⟩ = (p, some (before, sop)) ∧
      (st.semopLoop c doUndos = (st, .error .EAGAIN) ∨ st.semopLoop c doUndos = ({st with
        sem := addCount (st.sema c.ix).semBase sop 1 st.sem
        sleepers := ⟨c, before, sop, p.doUndos, false⟩ :: st.sleepers}, .sleep))) ∨
    (∃ l e, UndoOk l ∧ SameUndo c.proc st.semuList l ∧ st.semopLoop c doUndos = ({st with semuList := l}, .error e)) ∨
    ∃ p l, tryOps (st.sema c.ix).semBase [] c.sops ⟨st.sem, false, doUndos⟩ = (p, none) ∧ UndoOk l ∧ (∀ q id num, semadj l q id num =
        semadj st.semuList q id num - if q = c.proc then undone c.ix c.sops id num else 0) ∧
      st.semopLoop c doUndos = (st.semopDone c p l, .ok) := by
  have hspec := @tryOps_spec (st.sema c.ix).semBase [] c.sops ⟨st.sem, false, doUndos⟩
  unfold State.semopLoop
  simp only
  generalize htry : tryOps (st.sema c.ix).semBase [] c.sops ⟨st.sem, false, doUndos⟩ = r at hspec
  obtain ⟨p, fail⟩ := r
  cases fail with
  | some stop =>
    obtain ⟨before, sop⟩ := stop
    obtain ⟨done, rest, hsops, hbefore, hsem, hnone⟩ := hspec
    subst hbefore
    refine .inl ⟨before, sop, rest, p, hsops, rfl, ?_⟩
    simp only [hsem, rollback_addOps]
    split
    · exact .inl rfl
    · exact .inr rfl
  | none =>
    obtain ⟨hsem, hundos⟩ := hspec
    simp only
    by_cases hu : p.doUndos = true
    · have hid : Undoable st.semmnu c.proc c.ix st.semuList [] st.semuList := fun l' hok' hsame _ => ⟨l', rfl, hok', hsame⟩
      have hadj := @adjustOps_spec st.semmnu c.proc c.ix st.semuList st.semuList [] c.sops hok hid
      rw [if_pos hu]
      generalize adjustOps st.semmnu c.proc c.ix [] c.sops st.semuList = res at hadj
      obtain ⟨l, fail⟩ := res
      cases fail with
      | none => exact .inr (.inr ⟨p, l, rfl, hadj.1, hadj.2, rfl⟩)
      | some stop =>
        obtain ⟨e, done⟩ := stop
        obtain ⟨l', hback, hok', hsame⟩ := hadj
        refine .inr (.inl ⟨l', e, hok', hsame, ?_⟩)
        simp [hback, hsem, rollbackAll_addOps]
    · rw [if_neg hu]
      refine .inr (.inr ⟨p, st.semuList, rfl, hok, fun q id num => ?_, rfl⟩)
      rw [undone_eq_zero fun h => hu (hundos (.inr h)), ite_self, sub_zero]

theorem semopDone_eq (c : Call) (p : Pass) (l : List SemUndo) : st.semopDone c p l = {st with
    sem := setPids (st.sema c.ix).semBase c.proc c.sops p.sem
    semuList := l
    sleepers := st.sleepers.map fun s => if p.doWakeup = true ∧ s.call.ix = c.ix then {s with woken := true} else s} := by
  unfold State.semopDone
  by_cases hw : p.doWakeup = true
  · simp only [hw, if_true, true_and]
    rfl
  · simp [hw, Bool.false_eq_true, if_false, false_and, List.map_id']

/-- Nothing that `semop` is about has changed. -/
structure Untouched (st st' : State) : Prop where
  vals : ∀ k, (st'.sem k).semval = (st.sem k).semval
  ncnts : ∀ k, (st'.sem k).semncnt = (st.sem k).semncnt
  zcnts : ∀ k, (st'.sem k).semzcnt = (st.sem k).semzcnt
  adjs : ∀ q id num, semadj st'.semuList q id num = semadj st.semuList q id num

/-- Every operation and every adjustment is made. -/
structure Applied (st st' : State) (c : Call) : Prop where
  vals : ∀ k, (st'.sem k).semval = (st.sem k).semval + delta (st.sema c.ix).semBase c.sops k
  ncnts : ∀ k, (st'.sem k).semncnt = (st.sem k).semncnt
  zcnts : ∀ k, (st'.sem k).semzcnt = (st.sem k).semzcnt
  adjs : ∀ q id num, semadj st'.semuList q id num = semadj st.semuList q id num - if q = c.proc then undone c.ix c.sops id num else 0

/-- How a step of a call may end. When it sleeps, it counts as a waiter of one semaphore. -/
def AllOrNothing (st : State) (c : Call) : State × Ret → Prop
  | (st', .ok) => Applied st st' c
  | (st', .error _) | (st', .restart) => Untouched st st'
  | (st', .sleep) => ∃ sop ∈ c.sops, st'.sem = addCount (st.sema c.ix).semBase sop 1 st.sem ∧ st'.semuList = st.semuList
  | (_, .panic) => False

theorem Untouched.refl (st : State) : Untouched st st := ⟨fun _ => rfl, fun _ => rfl, fun _ => rfl, fun _ _ _ => rfl⟩

theorem semopLoop_allOrNothing (hok : UndoOk st.semuList) (c : Call) (doUndos : Bool) : AllOrNothing st c (st.semopLoop c doUndos) := by
  rcases semopLoop_cases hok c doUndos with ⟨before, sop, rest, p, hsops, -, heq | heq⟩ | ⟨l, e, hok', hsame, heq⟩ |
      ⟨p, l, htry, -, hadj, heq⟩
  · rw [heq]
    exact .refl st
  · rw [heq]
    exact ⟨sop, by rw [hsops]; simp, rfl, rfl⟩
  · rw [heq]
    exact ⟨fun _ => rfl, fun _ => rfl, fun _ => rfl, hsame.semadj hok'⟩
  have hspec := @tryOps_spec (st.sema c.ix).semBase [] c.sops ⟨st.sem, false, doUndos⟩
  rw [htry] at hspec
  rw [heq, semopDone_eq]
  have hpids (k : Nat) := @setPids_apply (st.sema c.ix).semBase c.sops p.sem k c.proc
  refine ⟨fun k => ?_, fun k => ?_, fun k => ?_, hadj⟩
  · rw [(hpids k).1, hspec.1, addOps]
  · rw [(hpids k).2.1, hspec.1, addOps]
  · rw [(hpids k).2.2, hspec.1, addOps]

end Loop

/-! ### Every call -/

section Steps
variable {st : State} {w w' : World}

/-- The state as a sleeper finds it, with its own count given back if its set still
exists. -/
def State.givenBack (st : State) (s : Sleeper) : State :=
  if (st.sema s.call.ix).alloc = false ∨ (st.sema s.call.ix).seq ≠ s.call.seq then st
  else {st with sem := addCount (st.sema s.call.ix).semBase s.sop (-1) st.sem}

theorem sysSemop_allOrNothing (hok : UndoOk st.semuList) (lwp : Nat) (p : Proc) (semid : Nat) (sops : List Sembuf) (perm : Bool) :
    AllOrNothing st ⟨lwp, p, ipcidToIx semid, ipcidToSeq semid, sops⟩ (st.sysSemop lwp p semid sops perm) := by
  rcases @sysSemop_cases st lwp p semid sops perm with ⟨e, heq⟩ | ⟨-, -, heq⟩
  · rw [heq]
    exact .refl st
  · rw [heq]
    exact semopLoop_allOrNothing hok _ _

theorem semopWake_allOrNothing (hok : UndoOk st.semuList) (s : Sleeper) (sig : Bool) : AllOrNothing (st.givenBack s) s.call (st.semopWake s sig) := by
  rcases @semopWake_cases st s sig with ⟨hgone, heq⟩ | ⟨halloc, hseq, st', rfl, heq | heq | heq⟩
  · rw [heq, State.givenBack, if_pos hgone]
    exact ⟨fun _ => rfl, fun _ => rfl, fun _ => rfl, fun _ _ _ => rfl⟩
  all_goals
    have hlive : ¬((st.sema s.call.ix).alloc = false ∨ (st.sema s.call.ix).seq ≠ s.call.seq) := by
      simp [halloc, hseq]
    rw [heq, State.givenBack, if_neg hlive]
  · exact ⟨fun _ => rfl, fun _ => rfl, fun _ => rfl, fun _ _ _ => rfl⟩
  · exact ⟨fun _ => rfl, fun _ => rfl, fun _ => rfl, fun _ _ _ => rfl⟩
  have hloop := @semopLoop_allOrNothing {st with
    sleepers := st.sleepers.erase s
    sem := addCount (st.sema s.call.ix).semBase s.sop (-1) st.sem} hok s.call s.doUndos
  generalize State.semopLoop _ s.call s.doUndos = r at hloop
  obtain ⟨st'', ret⟩ := r
  -- Who sleeps does not matter to what a call does.
  cases ret with
  | ok => exact ⟨hloop.vals, hloop.ncnts, hloop.zcnts, hloop.adjs⟩
  | error e => exact ⟨hloop.vals, hloop.ncnts, hloop.zcnts, hloop.adjs⟩
  | restart => exact ⟨hloop.vals, hloop.ncnts, hloop.zcnts, hloop.adjs⟩
  | sleep => exact hloop
  | panic => exact hloop

theorem semopLoop_undoOk (hok : UndoOk st.semuList) (c : Call) (doUndos : Bool) : UndoOk (st.semopLoop c doUndos).1.semuList := by
  rcases semopLoop_cases hok c doUndos with ⟨before, sop, rest, p, -, -, heq | heq⟩ | ⟨l, e, hok', -, heq⟩ |
      ⟨p, l, -, hok', -, heq⟩
  · rw [heq]
    exact hok
  · rw [heq]
    exact hok
  · rw [heq]
    exact hok'
  · rw [heq, semopDone_eq]
    exact hok'

theorem UndoOk.sublist {l l' : List SemUndo} (hok : UndoOk l) (h : l'.Sublist l) : UndoOk l' :=
  ⟨hok.nodup.sublist (h.map _), fun x hx => hok.ents x (h.subset hx)⟩

theorem UndoOk.reverse {l : List SemUndo} (hok : UndoOk l) : UndoOk l.reverse :=
  ⟨by rw [map_reverse]; exact nodup_reverse.mpr hok.nodup, fun x hx => hok.ents x (mem_reverse.mp hx)⟩

theorem next_undoOk {a : Act} (hok : UndoOk w.st.semuList) (hs : w.next a = some w') : UndoOk w'.st.semuList := by
  cases next_did hs with
  | refused | created | gone | stopped | began => exact hok
  | removed => exact (semundoClear_spec hok _ none).1
  | @set _ _ _ _ num => exact (semundoClear_spec hok _ num).1
  | operated => exact semopLoop_undoOk hok _ _
  | again => exact @semopLoop_undoOk (w.st.awake _) hok _ _
  | exited hexit =>
    obtain ⟨st', -, rfl⟩ := Option.map_eq_some_iff.mp hexit
    exact hok.sublist eraseP_sublist
  | ended =>
    unfold State.reallocEnd
    split
    · exact hok
    · exact hok.reverse

theorem reachable_undoOk (h : semSystem.Reachable w) : UndoOk w.st.semuList := by
  refine h.invariant (fun w hw => ?_) fun w a w' hok _ hs => @next_undoOk w w' a hok hs
  obtain rfl : w = booted := hw
  exact ⟨nodup_nil, fun x hx => absurd hx not_mem_nil⟩

/-- In every state reached a call of `semop`, begun or woken there, makes all its
operations and adjustments or none of them, whatever error it ends with. -/
theorem semop_all_or_nothing (h : semSystem.Reachable w) :
    (∀ lwp p semid sops perm, AllOrNothing w.st ⟨lwp, p, ipcidToIx semid, ipcidToSeq semid, sops⟩
      (w.st.sysSemop lwp p semid sops perm)) ∧
    ∀ s ∈ w.st.sleepers, ∀ sig, AllOrNothing (w.st.givenBack s) s.call (w.st.semopWake s sig) :=
  ⟨sysSemop_allOrNothing (reachable_undoOk h), fun s _ sig => semopWake_allOrNothing (reachable_undoOk h) s sig⟩

end Steps

/-- The state after a list of steps. -/
def runActs (as : List Act) : Option World := System.run World.next booted as

theorem reachable_runActs {as : List Act} {p : World → Bool} (h : (runActs as).map p = some true) : ∃ w, semSystem.Reachable w ∧ p w := by
  obtain ⟨w, hw, hp⟩ := Option.map_eq_some_iff.mp h
  refine ⟨w, ?_, hp⟩
  exact System.reach_run (· = booted) (fun _ _ => True) World.next booted as rfl hw

/-- A set of one semaphore, with the id 65536, and a process that waits to get it down. -/
def lowerOne : Sembuf := ⟨0, -1, false, false⟩
def sleeperActs : List Act := [.semget 0 1 false false true, .semop 1 1 65536 [lowerOne] true]

/-- It sleeps, and the value and the adjustments are as they were. -/
theorem semop_all_or_nothing_sleeper : ∃ w, semSystem.Reachable w ∧ w.st.sleepers.length = 1 ∧
    AllOrNothing w.st ⟨2, 2, 0, 1, [lowerOne]⟩ (w.st.sysSemop 2 2 65536 [lowerOne] true) := by
  obtain ⟨w, hw, hp⟩ := @reachable_runActs sleeperActs (fun w => w.st.sleepers.length = 1) (by decide)
  exact ⟨w, hw, by simpa using hp, (semop_all_or_nothing hw).1 2 2 65536 [lowerOne] true⟩

/-- A signal ends the sleep with `EINTR`, and `semncnt`, 1 when it was woken, is 0. -/
theorem interrupted_sleeper_is_not_counted : ¬∀ w, semSystem.Reachable w → ∀ s ∈ w.st.sleepers, ∀ sig,
    (w.st.semopWake s sig).2 = .error .EINTR → ∀ k, ((w.st.semopWake s sig).1.sem k).semncnt = (w.st.sem k).semncnt := by
  intro h
  obtain ⟨w, hw, hp⟩ := @reachable_runActs sleeperActs
    (fun w => w.st.sleepers.any fun s => decide ((w.st.semopWake s true).2 = .error .EINTR ∧
      ((w.st.semopWake s true).1.sem 0).semncnt ≠ (w.st.sem 0).semncnt)) (by decide)
  obtain ⟨s, hs, hwoken⟩ := any_eq_true.mp hp
  obtain ⟨hintr, hcount⟩ := of_decide_eq_true hwoken
  exact hcount (h w hw s hs true hintr 0)

end NetBSD.Kern.SysvSem
