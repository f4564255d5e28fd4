import NetBSD.Kern.SysvSem.Sem

/-! What each call can do to the semaphores.

One lemma for each call: it fails and changes nothing, or it does the one thing it is for.
The proofs about whole runs go through these. -/
namespace NetBSD.Kern.SysvSem
open List Function

section Calls
variable {st : State}

theorem lookup_eq_some {semid ix : Nat} (h : st.lookup semid = some ix) :
    ix = ipcidToIx semid ∧ ix < st.semmni ∧ (st.sema ix).alloc = true ∧ (st.sema ix).seq = ipcidToSeq semid := by
  unfold State.lookup at h
  simp only at h
  split_ifs at h with hrange hlive
  obtain rfl := Option.some.inj h
  push Not at hlive
  exact ⟨rfl, not_le.mp hrange, by simpa using hlive.1, hlive.2⟩

theorem ipcid_ix {ix seq : Nat} (hix : ix < 2 ^ 16) : ipcidToIx (ipcid ix seq) = ix := by
  unfold ipcidToIx ipcid
  omega

theorem ipcid_seq {ix seq : Nat} (hseq : seq < 2 ^ 15) : ipcidToSeq (ipcid ix seq) = seq := by
  unfold ipcidToSeq ipcid
  omega

theorem sysSemget_cases (key nsems : Int) (creat excl perm : Bool) : (∃ e, st.sysSemget key nsems creat excl perm = (st, .error e)) ∨
    (∃ ix, ix < st.semmni ∧ (st.sema ix).alloc = true ∧ st.sysSemget key nsems creat excl perm = (st, .ok (ipcid ix (st.sema ix).seq))) ∨
    ∃ ix n, ix < st.semmni ∧ (st.sema ix).alloc = false ∧ 0 < n ∧ n ≤ SEMMSL ∧ st.semtot + n ≤ st.semmns ∧
      st.sysSemget key nsems creat excl perm = (st.createSet ix key n, .ok (ipcid ix (((st.sema ix).seq + 1) % 2 ^ 15))) := by
  unfold State.sysSemget
  generalize hfound : (if key ≠ 0 then (List.range st.semmni).find? fun i => (st.sema i).alloc = true ∧ (st.sema i).key = key
    else none) = found
  cases found with
  | some ix =>
    have hmem : (List.range st.semmni).find? (fun i => (st.sema i).alloc = true ∧ (st.sema i).key = key) = some ix := by
      split at hfound
      · exact hfound
      · exact absurd hfound (by simp)
    have hrange := mem_range.mp (mem_of_find?_eq_some hmem)
    have halloc := find?_some hmem
    simp only [decide_eq_true_eq] at halloc
    simp only
    split_ifs
    · exact .inl ⟨_, rfl⟩
    · exact .inl ⟨_, rfl⟩
    · exact .inl ⟨_, rfl⟩
    · exact .inr (.inl ⟨ix, hrange, halloc.1, rfl⟩)
  | none =>
    simp only
    split_ifs with hcreate hrange hspace
    · exact .inl ⟨_, rfl⟩
    · exact .inl ⟨_, rfl⟩
    · cases hfree : (List.range st.semmni).find? fun i => (st.sema i).alloc = false with
      | none => exact .inl ⟨_, rfl⟩
      | some ix =>
        have hlt := mem_range.mp (mem_of_find?_eq_some hfree)
        have halloc := find?_some hfree
        simp only [decide_eq_true_eq] at halloc
        refine .inr (.inr ⟨ix, nsems.toNat, hlt, halloc, by omega, by omega, by omega, ?_⟩)
        simp [State.createSet]
    · exact .inl ⟨_, rfl⟩

theorem ipcRmid_cases (semid : Nat) (perm : Bool) : (∃ e, st.ipcRmid semid perm = (st, some e)) ∨
    ∃ ix, st.lookup semid = some ix ∧ st.ipcRmid semid perm = (st.removeSet ix, none) := by
  unfold State.ipcRmid
  cases hl : st.lookup semid with
  | none => exact .inl ⟨_, rfl⟩
  | some ix =>
    cases perm with
    | false => exact .inl ⟨_, rfl⟩
    | true => exact .inr ⟨ix, rfl, rfl⟩

/-- Values given to semaphores of a set: nothing else of it changes, and no value is above
`SEMVMX` that was not. -/
structure SetVals (st : State) (ix : Nat) (sem : Nat → Sem) : Prop where
  others : ∀ k, ¬((st.sema ix).semBase ≤ k ∧ k < (st.sema ix).semBase + (st.sema ix).semNsems) → sem k = st.sem k
  counts : ∀ k, (sem k).semncnt = (st.sem k).semncnt ∧ (sem k).semzcnt = (st.sem k).semzcnt
  small : ∀ k, (sem k).semval = (st.sem k).semval ∨ (sem k).semval.toNat ≤ SEMVMX

theorem setVals_update {ix num val : Nat} {sem : Nat → Sem} (h : SetVals st ix sem) (hnum : num < (st.sema ix).semNsems)
    (hval : val ≤ SEMVMX) : SetVals st ix (update sem ((st.sema ix).semBase + num)
      {sem ((st.sema ix).semBase + num) with semval := BitVec.ofNat 16 val}) := by
  refine ⟨fun k hk => ?_, fun k => ?_, fun k => ?_⟩
  · rw [update_of_ne fun heq => hk (by omega)]
    exact h.others k hk
  all_goals
    by_cases hk : k = (st.sema ix).semBase + num
  · subst hk
    rw [update_self]
    exact h.counts _
  · rw [update_of_ne hk]
    exact h.counts k
  · subst hk
    rw [update_self]
    simp only [BitVec.toNat_ofNat]
    omega
  · rw [update_of_ne hk]
    exact h.small k

theorem setVals_refl (ix : Nat) : SetVals st ix st.sem := ⟨fun _ _ => rfl, fun _ => ⟨rfl, rfl⟩, fun _ => .inl rfl⟩

theorem setAllVals_spec {ix : Nat} (left num : Nat) (vals : List Nat) (sem : Nat → Sem) (h : SetVals st ix sem)
    (hnum : num + left = (st.sema ix).semNsems) :
    SetVals st ix (State.setAllVals left ((st.sema ix).semBase + num) vals sem).1 := by
  induction left generalizing num vals sem with
  | zero => exact h
  | succ left ih =>
    cases vals with
    | nil => exact h
    | cons val rest =>
      rw [State.setAllVals]
      split
      · exact h
      · next hval => exact ih (num + 1) rest _ (setVals_update h (by omega) (not_lt.mp hval)) (by omega)

theorem setval_cases (semid semnum val : Nat) (perm : Bool) : (∃ e, st.setval semid semnum val perm = (st, some e)) ∨
    ∃ ix sem, st.lookup semid = some ix ∧ SetVals st ix sem ∧ st.setval semid semnum val perm =
      (State.cvBroadcast {st with sem := sem, semuList := semundoClear ix (some semnum) st.semuList} ix, none) := by
  unfold State.setval
  cases hl : st.lookup semid with
  | none => exact .inl ⟨_, rfl⟩
  | some ix =>
    simp only
    split_ifs with hperm hnum hval
    · exact .inl ⟨_, rfl⟩
    · exact .inl ⟨_, rfl⟩
    · exact .inl ⟨_, rfl⟩
    · exact .inr ⟨ix, _, rfl, setVals_update (setVals_refl ix) (not_le.mp hnum) (not_lt.mp hval), rfl⟩

theorem setall_cases (semid : Nat) (vals : List Nat) (perm : Bool) : (∃ e, st.setall semid vals perm = (st, some e)) ∨
    ∃ ix sem e, st.lookup semid = some ix ∧ SetVals st ix sem ∧ st.setall semid vals perm =
      (State.cvBroadcast {st with sem := sem, semuList := semundoClear ix none st.semuList} ix, e) := by
  unfold State.setall
  cases hl : st.lookup semid with
  | none => exact .inl ⟨_, rfl⟩
  | some ix =>
    split_ifs with hperm
    · exact .inl ⟨_, rfl⟩
    · exact .inr ⟨ix, _, _, rfl, setAllVals_spec _ 0 vals st.sem (setVals_refl ix) (zero_add _), rfl⟩

theorem sysSemop_cases (lwp : Nat) (p : Proc) (semid : Nat) (sops : List Sembuf) (perm : Bool) :
    (∃ e, st.sysSemop lwp p semid sops perm = (st, .error e)) ∨
    (st.lookup semid = some (ipcidToIx semid) ∧ (∀ sop ∈ sops, sop.semNum < (st.sema (ipcidToIx semid)).semNsems) ∧
      st.sysSemop lwp p semid sops perm = st.semopLoop ⟨lwp, p, ipcidToIx semid, ipcidToSeq semid, sops⟩ false) := by
  unfold State.sysSemop State.lookup
  by_cases hlen : ¬(sops.length ≤ SMALL_SOPS ∨ sops.length ≤ SEMOPM)
  · rw [if_pos hlen]
    exact .inl ⟨_, rfl⟩
  rw [if_neg hlen]
  by_cases hix : ipcidToIx semid ≥ st.semmni
  · rw [if_pos hix]
    exact .inl ⟨_, rfl⟩
  rw [if_neg hix, if_neg hix]
  by_cases hlive : (st.sema (ipcidToIx semid)).alloc = false ∨ (st.sema (ipcidToIx semid)).seq ≠ ipcidToSeq semid
  · rw [if_pos hlive]
    exact .inl ⟨_, rfl⟩
  rw [if_neg hlive, if_neg hlive]
  by_cases hperm : perm = false
  · rw [if_pos hperm]
    exact .inl ⟨_, rfl⟩
  rw [if_neg hperm]
  by_cases hbig : ∃ sop ∈ sops, (st.sema (ipcidToIx semid)).semNsems ≤ sop.semNum
  · rw [if_pos hbig]
    exact .inl ⟨_, rfl⟩
  rw [if_neg hbig]
  push Not at hbig
  exact .inr ⟨rfl, hbig, rfl⟩

theorem semopWake_cases (s : Sleeper) (sig : Bool) : (((st.sema s.call.ix).alloc = false ∨ (st.sema s.call.ix).seq ≠ s.call.seq) ∧
      st.semopWake s sig = ({st with sleepers := st.sleepers.erase s}, .error .EIDRM)) ∨
    ((st.sema s.call.ix).alloc = true ∧ (st.sema s.call.ix).seq = s.call.seq ∧ ∃ st', st' = {st with
        sleepers := st.sleepers.erase s
        sem := addCount (st.sema s.call.ix).semBase s.sop (-1) st.sem} ∧
      (st.semopWake s sig = (st', .restart) ∨ st.semopWake s sig = (st', .error .EINTR) ∨
        st.semopWake s sig = st'.semopLoop s.call s.doUndos)) := by
  unfold State.semopWake
  simp only
  split_ifs with hgone hre hsig
  · exact .inl ⟨hgone, rfl⟩
  all_goals
    push Not at hgone
    refine .inr ⟨by simpa using hgone.1, hgone.2, _, rfl, ?_⟩
  · exact .inl rfl
  · exact .inr (.inl rfl)
  · exact .inr (.inr rfl)

theorem createSet_sema (ix : Nat) (key : Int) (n i : Nat) : (st.createSet ix key n).sema i =
    if i = ix then ⟨true, key, ((st.sema ix).seq + 1) % 2 ^ 15, n, st.semtot⟩ else st.sema i := by
  by_cases hi : i = ix
  · subst hi
    simp [State.createSet]
  · simp [State.createSet, hi]

end Calls

/-- The set a sleeper waits for still exists. -/
def State.Live (st : State) (c : Call) : Prop := (st.sema c.ix).alloc = true ∧ (st.sema c.ix).seq = c.seq

/-- A sleeper that has the lock again, and its set is still there. -/
def State.awake (st : State) (s : Sleeper) : State :=
  { st with sleepers := st.sleepers.erase s, sem := addCount (st.sema s.call.ix).semBase s.sop (-1) st.sem }

/-- What a step comes to: a call is refused, or does the one thing it is for. -/
inductive World.Did (w : World) : Act → World → Prop where
  | refused {a : Act} : w.Did a w
  | created {key nsems : Int} {creat excl perm : Bool} {ix n : Nat} (hix : ix < w.st.semmni) (hfree : (w.st.sema ix).alloc = false)
      (hn : 0 < n) (hget : (w.st.sysSemget key nsems creat excl perm).1 = w.st.createSet ix key n) :
      w.Did (.semget key nsems creat excl perm) { w with st := w.st.createSet ix key n, gen := update w.gen ix (w.gen ix + 1) }
  | removed {semid : Nat} {perm : Bool} {ix : Nat} (hlook : w.st.lookup semid = some ix) :
      w.Did (.rmid semid perm)
        { w with st := w.st.removeSet ix, removed := (ipcidToIx semid, w.gen (ipcidToIx semid)) :: w.removed }
  | set {a : Act} {semid ix : Nat} {sem : Nat → Sem} {num : Option Nat} (hlook : w.st.lookup semid = some ix)
      (hset : SetVals w.st ix sem) :
      w.Did a { w with st := State.cvBroadcast { w.st with sem := sem, semuList := semundoClear ix num w.st.semuList } ix }
  | operated {lwp : Nat} {p : Proc} {semid : Nat} {sops : List Sembuf} {perm : Bool} (hre : ¬w.st.semReallocState = true)
      (hlook : w.st.lookup semid = some (ipcidToIx semid)) (hnums : ∀ sop ∈ sops, sop.semNum < (w.st.sema (ipcidToIx semid)).semNsems) :
      w.Did (.semop lwp p semid sops perm) (w.touch ⟨lwp, p, ipcidToIx semid, ipcidToSeq semid, sops⟩
        (w.st.semopLoop ⟨lwp, p, ipcidToIx semid, ipcidToSeq semid, sops⟩ false))
  | gone {s : Sleeper} {sig : Bool} (hgone : ¬w.st.Live s.call) :
      w.Did (.wake s sig) { w with st := { w.st with sleepers := w.st.sleepers.erase s } }
  | stopped {s : Sleeper} {sig : Bool} (hmem : s ∈ w.st.sleepers) (hlive : w.st.Live s.call) :
      w.Did (.wake s sig) { w with st := w.st.awake s }
  | again {s : Sleeper} {sig : Bool} (hmem : s ∈ w.st.sleepers) (hlive : w.st.Live s.call) :
      w.Did (.wake s sig) (w.touch s.call ((w.st.awake s).semopLoop s.call s.doUndos))
  | exited {p : Proc} {st : State} (hexit : w.st.semexit p = some st) : w.Did (.exit p) { w with st := st }
  | began {mni mns mnu : Nat} (hre : ¬w.st.semReallocState = true) :
      w.Did (.reallocBegin mni mns mnu) { w with st := w.st.reallocBegin mni mns mnu }
  | ended {mni mns mnu : Nat} (hre : w.st.reallocator = some (mni, mns, mnu)) (hnil : w.st.sleepers = []) :
      w.Did .reallocEnd { w with st := (w.st.reallocEnd mni mns mnu).1 }

theorem next_did {w w' : World} {a : Act} (h : w.next a = some w') : w.Did a w' := by
  cases a with
  | semget key nsems creat excl perm =>
    have hnew : {w with
        st := (w.st.sysSemget key nsems creat excl perm).1
        gen := fun i => if (w.st.sema i).alloc = false ∧ ((w.st.sysSemget key nsems creat excl perm).1.sema i).alloc = true then
          w.gen i + 1 else w.gen i} = w' := Option.some.inj h
    have hkeep : (fun i => if (w.st.sema i).alloc = false ∧ (w.st.sema i).alloc = true then w.gen i + 1 else w.gen i) = w.gen := by
      funext i
      exact if_neg fun hi => absurd (hi.1.symm.trans hi.2) Bool.false_ne_true
    subst hnew
    rcases @sysSemget_cases w.st key nsems creat excl perm with ⟨e, heq⟩ | ⟨ix, -, -, heq⟩ |
        ⟨ix, n, hix, hfree, hn, -, -, heq⟩
    · rw [heq, hkeep]
      exact .refused
    · rw [heq, hkeep]
      exact .refused
    have hdid := @World.Did.created w key nsems creat excl perm ix n hix hfree hn (congrArg Prod.fst heq)
    have hgen : update w.gen ix (w.gen ix + 1) =
        fun i => if (w.st.sema i).alloc = false ∧ ((w.st.createSet ix key n).sema i).alloc = true then w.gen i + 1 else w.gen i := by
      funext i
      rw [createSet_sema]
      by_cases hi : i = ix
      · subst hi
        simp [hfree]
      · rw [if_neg hi, update_of_ne hi]
        exact (congrFun hkeep i).symm
    rw [heq]
    rwa [hgen] at hdid
  | rmid semid perm =>
    have hnew : {w with
        st := (w.st.ipcRmid semid perm).1
        removed := if (w.st.ipcRmid semid perm).2 = none then (ipcidToIx semid, w.gen (ipcidToIx semid)) :: w.removed
          else w.removed} = w' := Option.some.inj h
    subst hnew
    rcases @ipcRmid_cases w.st semid perm with ⟨e, heq⟩ | ⟨ix, hlook, heq⟩
    · rw [heq]
      exact .refused
    · rw [heq]
      exact .removed hlook
  | setval semid semnum val perm =>
    obtain rfl := Option.some.inj h
    rcases @setval_cases w.st semid semnum val perm with ⟨e, heq⟩ | ⟨ix, sem, hlook, hset, heq⟩
    · rw [heq]
      exact .refused
    · rw [heq]
      exact .set hlook hset
  | setall semid vals perm =>
    obtain rfl := Option.some.inj h
    rcases @setall_cases w.st semid vals perm with ⟨e, heq⟩ | ⟨ix, sem, e, hlook, hset, heq⟩
    · rw [heq]
      exact .refused
    · rw [heq]
      exact .set hlook hset
  | semop lwp p semid sops perm =>
    rw [World.next] at h
    split at h
    · cases h
    · next hbusy =>
      obtain rfl := Option.some.inj h
      rcases @sysSemop_cases w.st lwp p semid sops perm with ⟨e, heq⟩ | ⟨hlook, hnums, heq⟩
      · rw [heq]
        exact .refused
      · rw [heq]
        exact .operated (fun hre => hbusy (.inl hre)) hlook hnums
  | wake s sig =>
    rw [World.next] at h
    split at h
    · next hmem =>
      obtain rfl := Option.some.inj h
      rcases @semopWake_cases w.st s sig with ⟨hgone, heq⟩ | ⟨halloc, hseq, st', rfl, heq | heq | heq⟩
      · rw [heq]
        refine .gone fun hlive => hgone.elim (fun hfree => ?_) fun hne => hne hlive.2
        exact Bool.false_ne_true (hfree.symm.trans hlive.1)
      · rw [heq]
        exact .stopped hmem.1 ⟨halloc, hseq⟩
      · rw [heq]
        exact .stopped hmem.1 ⟨halloc, hseq⟩
      · rw [heq]
        exact .again hmem.1 ⟨halloc, hseq⟩
    · cases h
  | exit p =>
    obtain ⟨st, hexit, rfl⟩ := Option.map_eq_some_iff.mp h
    exact .exited hexit
  | reallocBegin mni mns mnu =>
    rw [World.next] at h
    split at h
    · cases h
    · next hbusy =>
      obtain rfl := Option.some.inj h
      exact .began fun hre => hbusy (.inl hre)
  | reallocEnd =>
    rw [World.next] at h
    split at h
    · cases h
    · next mni mns mnu hre =>
      split at h
      · next hnil =>
        obtain rfl := Option.some.inj h
        exact .ended hre hnil
      · cases h

end NetBSD.Kern.SysvSem
