import NetBSD.Kern.SysvSem.Wakeup
import Mathlib.Data.BitVec

/-! Values and adjustments that stay in range.

`SETVAL` and `SETALL` refuse a value above `SEMVMX`; `sys_semop` and `semexit` look at no
limit and add in 16 bits. `Fits` says for each step, in whole numbers and from the state
before it, that nothing is raised too far: no operation past what 16 bits hold, no vector
as a whole and no adjustment of a process that exits past `SEMVMX`, and no adjustment out of
a `short`. In every run of such steps all values are in range, and every operation adds
just what it says (`values_in_range`). -/
namespace NetBSD.Kern.SysvSem
open Function
open Lib

/-- What the operations take from the adjustment for semaphore `num`. -/
def undoOn (num : Nat) (sops : List Sembuf) : Int :=
  (sops.map fun sop => if sop.undo = true ∧ sop.semNum = num then sop.semOp.toInt else 0).sum

/-- The number is one of a `short`. -/
def IsShort (n : Int) : Prop := -2 ^ 15 ≤ n ∧ n < 2 ^ 15

/-- With these values the operations can be done one after the other. -/
def CanDo (val : Nat → Int) (sops : List Sembuf) : Prop := ∀ pre sop, pre ++ [sop] <+: sops →
  (sop.semOp.toInt < 0 → 0 ≤ val sop.semNum + sumOn sop.semNum pre + sop.semOp.toInt) ∧
  (sop.semOp = 0 → val sop.semNum + sumOn sop.semNum pre = 0)

/-- The values of the set of a call. -/
def State.valsOf (st : State) (c : Call) : Nat → Int := valOf (st.sema c.ix).semBase st.sem

/-- The operations of a call raise nothing too far. -/
structure CallFits (st : State) (c : Call) : Prop where
  raises : ∀ pre sop, pre ++ [sop] <+: c.sops → CanDo (st.valsOf c) pre → 0 < sop.semOp.toInt →
    st.valsOf c sop.semNum + sumOn sop.semNum pre + sop.semOp.toInt < 2 ^ 16
  total : CanDo (st.valsOf c) c.sops → ∀ num, st.valsOf c num + sumOn num c.sops ≤ SEMVMX
  adjusts : CanDo (st.valsOf c) c.sops → ∀ pre, pre <+: c.sops → ∀ num, IsShort ((semadj st.semuList c.proc c.ix num).toInt - undoOn num pre)

/-- `sys_semop` gets past its checks. -/
def State.Accepts (st : State) (semid : Nat) (sops : List Sembuf) (perm : Bool) : Prop :=
  sops.length ≤ SEMOPM ∧ st.lookup semid = some (ipcidToIx semid) ∧ perm = true ∧
    ∀ sop ∈ sops, sop.semNum < (st.sema (ipcidToIx semid)).semNsems

/-- What the entries of a process that exits make of the value at `k`. -/
def State.exitVal (st : State) (ents : List SemUndoEntry) (k : Nat) : Int :=
  ents.foldl (fun v e => if (st.sema e.unId).semBase + e.unNum = k then max 0 (v + e.unAdjval.toInt) else v)
    ((st.sem k).semval.toNat : Int)

def ExitFits (st : State) (ents : List SemUndoEntry) : Prop := ∀ pre e, pre ++ [e] <+: ents →
  st.exitVal (pre ++ [e]) ((st.sema e.unId).semBase + e.unNum) ≤ SEMVMX

/-- A step that raises nothing too far. -/
def Fits (w : World) : Act → Prop
  | .semop lwp p semid sops perm => w.st.Accepts semid sops perm → CallFits w.st ⟨lwp, p, ipcidToIx semid, ipcidToSeq semid, sops⟩
  | .wake s sig => w.st.Live s.call → w.st.semReallocState = false → sig = false → CallFits w.st s.call
  | .exit p => ExitFits w.st (entsOf w.st.semuList p)
  | _ => True

/-- Each operation that is tried, and each adjustment that is made, is exact. -/
structure ExactOps (st : State) (c : Call) : Prop where
  vals : ∀ doUndos pre sop q q', pre ++ [sop] <+: c.sops →
    tryOps (st.sema c.ix).semBase [] pre ⟨st.sem, false, doUndos⟩ = (q, none) → tryOp (st.sema c.ix).semBase sop q = some q' →
    ∀ num, valOf (st.sema c.ix).semBase q'.sem num = valOf (st.sema c.ix).semBase q.sem num + if sop.semNum = num then sop.semOp.toInt else 0
  adjs : ∀ doUndos q pre l, tryOps (st.sema c.ix).semBase [] c.sops ⟨st.sem, false, doUndos⟩ = (q, none) →
    pre <+: c.sops → adjustOps st.semmnu c.proc c.ix [] pre st.semuList = (l, none) →
    ∀ num, (semadj l c.proc c.ix num).toInt = (semadj st.semuList c.proc c.ix num).toInt - undoOn num pre

/-- A call that is done adds what its operations say, and one that is not adds nothing. -/
structure ExactCall (st : State) (c : Call) (r : State × Ret) : Prop where
  vals : r.2 = .ok → ∀ num, valOf (st.sema c.ix).semBase r.1.sem num = st.valsOf c num + sumOn num c.sops
  le : r.2 = .ok → ∀ num, st.valsOf c num + sumOn num c.sops ≤ SEMVMX
  below : r.2 = .ok → ∀ k < (st.sema c.ix).semBase, (r.1.sem k).semval = (st.sem k).semval
  adjs : r.2 = .ok → ∀ num, (semadj r.1.semuList c.proc c.ix num).toInt = (semadj st.semuList c.proc c.ix num).toInt - undoOn num c.sops
  others : r.2 = .ok → ∀ q id, ¬(q = c.proc ∧ id = c.ix) → ∀ num, semadj r.1.semuList q id num = semadj st.semuList q id num
  failed : r.2 ≠ .ok → (∀ k, (r.1.sem k).semval = (st.sem k).semval) ∧
    ∀ q id num, semadj r.1.semuList q id num = semadj st.semuList q id num

section Sums
variable {base num id : Nat} {sops : List Sembuf}

theorem sumOn_append (pre sops : List Sembuf) : sumOn num (pre ++ sops) = sumOn num pre + sumOn num sops := by
  rw [sumOn, List.map_append, List.sum_append, sumOn, sumOn]

theorem sumOn_snoc (pre : List Sembuf) (sop : Sembuf) :
    sumOn num (pre ++ [sop]) = sumOn num pre + if sop.semNum = num then sop.semOp.toInt else 0 := by
  rw [sumOn_append, sumOn_cons, sumOn_nil, add_zero]

theorem ofInt_ite {p : Prop} [Decidable p] (d : BitVec 16) : BitVec.ofInt 16 (if p then d.toInt else 0) = if p then d else 0 := by
  split
  · exact BitVec.ofInt_toInt
  · rfl

theorem undoOn_cons (sop : Sembuf) : undoOn num (sop :: sops) =
    (if sop.undo = true ∧ sop.semNum = num then sop.semOp.toInt else 0) + undoOn num sops := by
  rw [undoOn, List.map_cons, List.sum_cons, undoOn]

theorem undone_eq_ofInt : undone id sops id num = BitVec.ofInt 16 (undoOn num sops) := by
  induction sops with
  | nil => rfl
  | cons sop rest ih =>
    rw [undone_cons, ih, undoOn_cons, BitVec.ofInt_add, ofInt_ite]
    simp

theorem toInt_sub_ofInt {adj : BitVec 16} {n : Int} (h : IsShort (adj.toInt - n)) : (adj - BitVec.ofInt 16 n).toInt = adj.toInt - n := by
  obtain ⟨hlow, hhigh⟩ := h
  have heq : adj - BitVec.ofInt 16 n = BitVec.ofInt 16 (adj.toInt - n) := by
    rw [Int.sub_eq_add_neg, BitVec.ofInt_add, BitVec.ofInt_toInt, BitVec.ofInt_neg, BitVec.sub_eq_add_neg]
  rw [heq, BitVec.toInt_ofInt]
  exact Int.bmod_eq_of_le_mul_two (by omega) (by omega)

end Sums

section Vector
variable {base num : Nat} {bf sops pre : List Sembuf} {sop : Sembuf} {p p' : Pass}

theorem valOf_lt (sem : Nat → Sem) : valOf base sem num < 2 ^ 16 := by
  rw [valOf]
  omega

theorem tryOps_done_snoc (h : tryOps base bf (pre ++ [sop]) p = (p', none)) :
    ∃ q, tryOps base bf pre p = (q, none) ∧ tryOp base sop q = some p' := by
  rw [tryOps_append] at h
  generalize hpre : tryOps base bf pre p = r at h
  obtain ⟨q, fail⟩ := r
  cases fail with
  | some stop => exact absurd (congrArg Prod.snd h) (by simp)
  | none =>
    obtain ⟨q', ht, hnil⟩ := tryOps_done_cons h
    obtain rfl := tryOps_done_nil hnil
    exact ⟨q, rfl, ht⟩

theorem canDo_snoc {val : Nat → Int} (h : CanDo val pre)
    (hlow : sop.semOp.toInt < 0 → 0 ≤ val sop.semNum + sumOn sop.semNum pre + sop.semOp.toInt)
    (hzero : sop.semOp = 0 → val sop.semNum + sumOn sop.semNum pre = 0) : CanDo val (pre ++ [sop]) := by
  intro l s hl
  rcases List.prefix_concat_iff.mp hl with heq | hl
  · obtain ⟨rfl, hs⟩ := List.append_inj' heq rfl
    obtain rfl := List.singleton_inj.mp hs
    exact ⟨hlow, hzero⟩
  · exact h l s hl

/-- What is done could be done, and no value passes 16 bits on the way. -/
theorem done_canDo (hraise : ∀ pre sop, pre ++ [sop] <+: sops → CanDo (valOf base p.sem) pre → 0 < sop.semOp.toInt →
      valOf base p.sem sop.semNum + sumOn sop.semNum pre + sop.semOp.toInt < 2 ^ 16)
    (hpre : pre <+: sops) (h : tryOps base bf pre p = (p', none)) : CanDo (valOf base p.sem) pre ∧
      ∀ num l, l <+: pre → valOf base p.sem num + sumOn num l < 2 ^ 16 := by
  induction pre using List.reverseRecOn generalizing p' with
  | nil =>
    refine ⟨fun l s hl => absurd (List.prefix_nil.mp hl) (by simp), fun num l hl => ?_⟩
    rw [List.prefix_nil.mp hl, sumOn_nil, add_zero]
    exact valOf_lt p.sem
  | append_singleton l s ih =>
    obtain ⟨q, hl, ht⟩ := tryOps_done_snoc h
    obtain ⟨hcan, hroom⟩ := ih ((List.prefix_append l [s]).trans hpre) hl
    have hq := @tryOps_valOf base s.semNum bf l p q hl (hroom s.semNum)
    refine ⟨canDo_snoc hcan (fun hneg => ?_) (fun hz => ?_), fun num l' hl' => ?_⟩
    · rcases tryOp_some ht with ⟨-, hlow, -⟩ | ⟨hz, -⟩ | ⟨hpos, -⟩
      · rw [← hq]
        exact hlow
      · rw [hz] at hneg
        exact absurd hneg (by decide)
      · exact absurd hneg (not_lt.mpr hpos.le)
    · rcases tryOp_some ht with ⟨hneg, -⟩ | ⟨-, hval, -⟩ | ⟨hpos, -⟩
      · rw [hz] at hneg
        exact absurd hneg (by decide)
      · rw [← hq]
        exact hval
      · rw [hz] at hpos
        exact absurd hpos (by decide)
    rcases List.prefix_concat_iff.mp hl' with rfl | hl'
    · have hbefore := hroom num l (List.prefix_refl l)
      rw [sumOn_snoc, ← add_assoc]
      by_cases hn : s.semNum = num
      · subst hn
        rw [if_pos rfl]
        by_cases hpos : 0 < s.semOp.toInt
        · exact hraise l s hpre hcan hpos
        · omega
      · rw [if_neg hn, add_zero]
        exact hbefore
    · exact hroom num l' hl'

end Vector

/-! ### A call -/

section Calls
variable {st : State} {c : Call}

theorem CallFits.room (h : CallFits st c) {doUndos : Bool} {pre : List Sembuf} {q : Pass} (hpre : pre <+: c.sops)
    (hq : tryOps (st.sema c.ix).semBase [] pre ⟨st.sem, false, doUndos⟩ = (q, none)) :
    CanDo (st.valsOf c) pre ∧ ∀ num, valOf (st.sema c.ix).semBase q.sem num = st.valsOf c num + sumOn num pre := by
  obtain ⟨hcan, hroom⟩ := @done_canDo (st.sema c.ix).semBase [] c.sops pre ⟨st.sem, false, doUndos⟩ q h.raises hpre hq
  exact ⟨hcan, fun num => tryOps_valOf hq (hroom num)⟩

theorem CallFits.exactOps (h : CallFits st c) (hok : UndoOk st.semuList) : ExactOps st c := by
  refine ⟨fun doUndos pre sop q q' hpre hq ht num => ?_, fun doUndos q pre l hq hpre hadj num => ?_⟩
  · have hsnoc : tryOps (st.sema c.ix).semBase [] (pre ++ [sop]) ⟨st.sem, false, doUndos⟩ = (q', none) := by
      rw [tryOps_append, hq]
      simp [tryOps, ht]
    rw [(h.room hpre hsnoc).2 num, (h.room ((List.prefix_append pre [sop]).trans hpre) hq).2 num, sumOn_snoc, add_assoc]
  have hcan := (h.room (List.prefix_refl c.sops) hq).1
  have hid : Undoable st.semmnu c.proc c.ix st.semuList [] st.semuList := fun l' hok' hsame _ => ⟨l', rfl, hok', hsame⟩
  have hspec := @adjustOps_spec st.semmnu c.proc c.ix st.semuList st.semuList [] pre hok hid
  rw [hadj] at hspec
  rw [hspec.2, if_pos rfl, undone_eq_ofInt]
  exact toInt_sub_ofInt (h.adjusts hcan pre hpre num)

theorem exactCall_of_untouched {r : State × Ret} (hr : r.2 ≠ .ok) (hvals : ∀ k, (r.1.sem k).semval = (st.sem k).semval)
    (hadjs : ∀ q id num, semadj r.1.semuList q id num = semadj st.semuList q id num) : ExactCall st c r :=
  ⟨fun h => absurd h hr, fun h => absurd h hr, fun h => absurd h hr, fun h => absurd h hr, fun h => absurd h hr,
    fun _ => ⟨hvals, hadjs⟩⟩

theorem delta_below {base k : Nat} (hk : k < base) (sops : List Sembuf) : delta base sops k = 0 := by
  induction sops with
  | nil => rfl
  | cons sop rest ih => rw [delta_cons, if_neg (by omega), ih, add_zero]

theorem CallFits.loop (h : CallFits st c) (hok : UndoOk st.semuList) (doUndos : Bool) : ExactCall st c (st.semopLoop c doUndos) := by
  rcases semopLoop_cases hok c doUndos with ⟨before, sop, rest, p, -, -, heq | heq⟩ | ⟨l, e, hok', hsame, heq⟩ |
      ⟨p, l, htry, -, hadj, heq⟩
  · rw [heq]
    exact exactCall_of_untouched (by simp) (fun _ => rfl) fun _ _ _ => rfl
  · rw [heq]
    exact exactCall_of_untouched (by simp) (fun k => (addCount_apply _ sop 1 st.sem k).1) fun _ _ _ => rfl
  · rw [heq]
    exact exactCall_of_untouched (by simp) (fun _ => rfl) (hsame.semadj hok')
  obtain ⟨hcan, hval⟩ := h.room (List.prefix_refl c.sops) htry
  have hpids (k : Nat) := @setPids_apply (st.sema c.ix).semBase c.sops p.sem k c.proc
  have hsem := @tryOps_spec (st.sema c.ix).semBase [] c.sops ⟨st.sem, false, doUndos⟩
  rw [htry] at hsem
  rw [heq, semopDone_eq]
  refine ⟨fun _ num => ?_, fun _ => h.total hcan, fun _ k hk => ?_, fun _ num => ?_, fun _ q id hne num => ?_,
    fun hne => absurd rfl hne⟩
  · rw [← hval num]
    exact valOf_congr (fun k => (hpids k).1) num
  · rw [(hpids k).1, hsem.1, addOps]
    rw [delta_below hk, add_zero]
  · rw [hadj, if_pos rfl, undone_eq_ofInt]
    exact toInt_sub_ofInt (h.adjusts hcan c.sops (List.prefix_refl c.sops) num)
  rw [hadj]
  by_cases hq : q = c.proc
  · have hzero : undone c.ix c.sops id num = 0 := by
      by_contra hu
      exact hne ⟨hq, (undone_ne_zero hu).1⟩
    rw [hzero, ite_self, sub_zero]
  · rw [if_neg hq, sub_zero]

theorem sysSemop_accepts (lwp : Nat) (p : Proc) (semid : Nat) (sops : List Sembuf) (perm : Bool) :
    (∃ e, st.sysSemop lwp p semid sops perm = (st, .error e)) ∨ (st.Accepts semid sops perm ∧
      st.sysSemop lwp p semid sops perm = st.semopLoop ⟨lwp, p, ipcidToIx semid, ipcidToSeq semid, sops⟩ false) := by
  rcases @sysSemop_cases st lwp p semid sops perm with hfail | ⟨hlookup, hnums, hloop⟩
  · exact .inl hfail
  by_cases hlen : sops.length ≤ SEMOPM
  · cases perm with
    | true => exact .inr ⟨⟨hlen, hlookup, rfl, hnums⟩, hloop⟩
    | false =>
      obtain ⟨-, hix, halloc, hseq⟩ := lookup_eq_some hlookup
      unfold State.sysSemop
      simp [ge_iff_le, hlen, or_true, not_true, if_false, not_le.mpr hix, halloc, hseq, Bool.true_eq_false, ne_eq, or_self, if_true]
  have hsmall : ¬(sops.length ≤ SMALL_SOPS ∨ sops.length ≤ SEMOPM) := by
    have h8 : SMALL_SOPS = 8 := rfl
    have h100 : SEMOPM = 100 := rfl
    omega
  unfold State.sysSemop
  simp [hsmall, not_false_iff, if_true]

theorem sysSemop_exact (hok : UndoOk st.semuList) {lwp : Nat} {p : Proc} {semid : Nat} {sops : List Sembuf} {perm : Bool}
    (h : st.Accepts semid sops perm → CallFits st ⟨lwp, p, ipcidToIx semid, ipcidToSeq semid, sops⟩) :
    ExactCall st ⟨lwp, p, ipcidToIx semid, ipcidToSeq semid, sops⟩ (st.sysSemop lwp p semid sops perm) := by
  rcases @sysSemop_accepts st lwp p semid sops perm with ⟨e, heq⟩ | ⟨hacc, heq⟩
  · rw [heq]
    exact exactCall_of_untouched (by simp) (fun _ => rfl) fun _ _ _ => rfl
  · rw [heq]
    exact (h hacc).loop hok false

theorem CallFits.congr {st' : State} (h : CallFits st c) (hsema : st'.sema = st.sema)
    (hvals : ∀ k, (st'.sem k).semval = (st.sem k).semval) (hlist : st'.semuList = st.semuList) : CallFits st' c := by
  have heq : st'.valsOf c = st.valsOf c := by
    funext num
    rw [State.valsOf, hsema]
    exact valOf_congr hvals num
  refine ⟨?_, ?_, ?_⟩
  · rw [heq]
    exact h.raises
  · rw [heq]
    exact h.total
  · rw [heq, hlist]
    exact h.adjusts

theorem ExactCall.congr {st' : State} {r : State × Ret} (h : ExactCall st' c r) (hsema : st'.sema = st.sema)
    (hvals : ∀ k, (st'.sem k).semval = (st.sem k).semval) (hlist : st'.semuList = st.semuList) : ExactCall st c r := by
  have heq : st'.valsOf c = st.valsOf c := by
    funext num
    rw [State.valsOf, hsema]
    exact valOf_congr hvals num
  refine ⟨?_, ?_, fun hr k hk => ?_, ?_, ?_, fun hr => ⟨fun k => ?_, ?_⟩⟩
  · rw [← hsema, ← heq]
    exact h.vals
  · rw [← heq]
    exact h.le
  · rw [← hsema] at hk
    rw [h.below hr k hk, hvals]
  · rw [← hlist]
    exact h.adjs
  · rw [← hlist]
    exact h.others
  · rw [(h.failed hr).1, hvals]
  · rw [← hlist]
    exact (h.failed hr).2

theorem semopWake_exact (hok : UndoOk st.semuList) {s : Sleeper} {sig : Bool}
    (h : st.Live s.call → st.semReallocState = false → sig = false → CallFits st s.call) :
    ExactCall st s.call (st.semopWake s sig) := by
  have hcount (k : Nat) := (addCount_apply (st.sema s.call.ix).semBase s.sop (-1) st.sem k).1
  unfold State.semopWake
  simp only
  split_ifs with hgone hre hsig
  · exact exactCall_of_untouched (by simp) (fun _ => rfl) fun _ _ _ => rfl
  · exact exactCall_of_untouched (by simp) hcount fun _ _ _ => rfl
  · exact exactCall_of_untouched (by simp) hcount fun _ _ _ => rfl
  push Not at hgone
  have hfits := h ⟨by simpa using hgone.1, hgone.2⟩ (by simpa using hre) (by simpa using hsig)
  refine ((hfits.congr ?_ ?_ ?_).loop ?_ s.doUndos).congr ?_ ?_ ?_
  · rfl
  · exact hcount
  · rfl
  · exact hok
  · rfl
  · exact hcount
  · rfl

def State.InLimit (st : State) : Prop := ∀ k, (st.sem k).semval.toNat ≤ SEMVMX

theorem ExactCall.inLimit {r : State × Ret} (h : ExactCall st c r) (hst : st.InLimit) : r.1.InLimit := by
  intro k
  by_cases hr : r.2 = .ok
  · by_cases hk : k < (st.sema c.ix).semBase
    · rw [h.below hr k hk]
      exact hst k
    obtain ⟨num, rfl⟩ := Nat.exists_eq_add_of_le (not_lt.mp hk)
    have hval := h.vals hr num
    have hle := h.le hr num
    rw [valOf] at hval
    omega
  · rw [(h.failed hr).1 k]
    exact hst k

end Calls

section Exit
variable {st st' : State} {ents pre : List SemUndoEntry} {e : SemUndoEntry}

theorem exitVal_snoc (k : Nat) : st.exitVal (pre ++ [e]) k =
    if (st.sema e.unId).semBase + e.unNum = k then max 0 (st.exitVal pre k + e.unAdjval.toInt) else st.exitVal pre k := by
  rw [State.exitVal, List.foldl_append, List.foldl_cons, List.foldl_nil, ← State.exitVal]

theorem undoVal_exact {v adj : BitVec 16} (h : (v.toNat : Int) + adj.toInt < 2 ^ 16) :
    ((State.undoVal v adj).toNat : Int) = max 0 (v.toNat + adj.toInt) := by
  unfold State.undoVal
  split
  · next hneg =>
    have hzero : ((0 : BitVec 16).toNat : Int) = 0 := rfl
    omega
  · next hnot =>
    have hlow : 0 ≤ (v.toNat : Int) + adj.toInt := by
      by_contra hlt
      exact hnot ⟨by omega, by omega⟩
    rw [toNat_add_op v adj hlow h, max_eq_right hlow]

/-- The adjustments are exact, and leave the values in range. -/
theorem applyUndos_exact (hfits : ExitFits st ents) (hst : st.InLimit) (h : ents.foldlM State.applyUndo st = some st') :
    st'.sema = st.sema ∧ ∀ k, ((st'.sem k).semval.toNat : Int) = st.exitVal ents k ∧ st.exitVal ents k ≤ SEMVMX := by
  induction ents using List.reverseRecOn generalizing st' with
  | nil =>
    obtain rfl := Option.some.inj h
    refine ⟨rfl, fun k => ⟨rfl, ?_⟩⟩
    have hk := hst k
    show ((st.sem k).semval.toNat : Int) ≤ SEMVMX
    omega
  | append_singleton pre e ih =>
    rw [List.foldlM_append] at h
    obtain ⟨st₁, hpre, hlast⟩ := Option.bind_eq_some_iff.mp h
    obtain ⟨hsema, hvals⟩ := ih (fun l x hl => hfits l x (hl.trans (List.prefix_append pre [e]))) hpre
    obtain ⟨st₂, hone, hnil⟩ := Option.bind_eq_some_iff.mp hlast
    obtain rfl := Option.some.inj hnil
    have hmax : SEMVMX = 32767 := rfl
    have hfit := hfits pre e (List.prefix_refl _)
    rw [exitVal_snoc, if_pos rfl] at hfit
    unfold State.applyUndo at hone
    simp only at hone
    split at hone
    · exact absurd hone (by simp)
    obtain rfl := Option.some.inj hone
    refine ⟨hsema, fun k => ?_⟩
    rw [exitVal_snoc]
    by_cases hk : (st.sema e.unId).semBase + e.unNum = k
    · subst hk
      rw [if_pos rfl]
      refine ⟨?_, hfit⟩
      have hval := (hvals ((st.sema e.unId).semBase + e.unNum)).1
      show ((update st₁.sem ((st₁.sema e.unId).semBase + e.unNum) _ _).semval.toNat : Int) = _
      rw [hsema, Function.update_self]
      rw [← hval]
      exact undoVal_exact (by omega)
    · rw [if_neg hk]
      show ((update st₁.sem ((st₁.sema e.unId).semBase + e.unNum) _ k).semval.toNat : Int) = _ ∧ _
      rw [hsema, Function.update_of_ne (Ne.symm hk)]
      exact hvals k

theorem semexit_exact {p : Proc} (hfits : ExitFits st (entsOf st.semuList p)) (hst : st.InLimit) (h : st.semexit p = some st') : st'.InLimit ∧
      ∀ k, ((st'.sem k).semval.toNat : Int) = st.exitVal (entsOf st.semuList p) k := by
  obtain ⟨st₁, hfold, rfl⟩ := Option.map_eq_some_iff.mp h
  obtain ⟨-, hvals⟩ := applyUndos_exact hfits hst hfold
  refine ⟨fun k => ?_, fun k => (hvals k).1⟩
  obtain ⟨hval, hle⟩ := hvals k
  show (st₁.sem k).semval.toNat ≤ SEMVMX
  omega

end Exit

/-! ### Every run -/

section Runs
variable {w w' : World}

theorem copySets_sem (st : State) (n k : Nat) : ((List.range n).foldl st.copySet (0, fun _ => .zero, fun _ => .zero)).2.2 k = .zero ∨
      ∃ k', ((List.range n).foldl st.copySet (0, fun _ => .zero, fun _ => .zero)).2.2 k = st.sem k' := by
  induction n with
  | zero => exact .inl rfl
  | succ n ih =>
    rw [List.range_succ, List.foldl_append, List.foldl_cons, List.foldl_nil]
    unfold State.copySet
    simp only at ih ⊢
    split
    · simp only
      split
      · exact .inr ⟨_, rfl⟩
      · exact ih
    · exact ih

theorem InLimit.next {a : Act} (hst : w.st.InLimit) (hok : UndoOk w.st.semuList) (hfits : Fits w a) (hs : w.next a = some w') : w'.st.InLimit := by
  have hset (ix : Nat) (sem : Nat → Sem) (h : SetVals w.st ix sem) (k : Nat) : (sem k).semval.toNat ≤ SEMVMX := by
    rcases h.small k with heq | hle
    · rw [heq]
      exact hst k
    · exact hle
  cases a with
  | semget key nsems creat excl perm =>
    obtain rfl := Option.some.inj hs
    show (w.st.sysSemget key nsems creat excl perm).1.InLimit
    rcases @sysSemget_cases w.st key nsems creat excl perm with ⟨e, heq⟩ | ⟨ix, -, -, heq⟩ | ⟨ix, n, -, -, -, -, -, heq⟩
    · rw [heq]
      exact hst
    · rw [heq]
      exact hst
    rw [heq]
    intro k
    show (if w.st.semtot ≤ k ∧ k < w.st.semtot + n then Sem.zero else w.st.sem k).semval.toNat ≤ SEMVMX
    split
    · exact Nat.zero_le _
    · exact hst k
  | rmid semid perm =>
    obtain rfl := Option.some.inj hs
    show (w.st.ipcRmid semid perm).1.InLimit
    rcases @ipcRmid_cases w.st semid perm with ⟨e, heq⟩ | ⟨ix, -, heq⟩
    · rw [heq]
      exact hst
    rw [heq]
    intro k
    show (if (w.st.sema ix).semBase ≤ k ∧ k < w.st.semtot - (w.st.sema ix).semNsems
      then w.st.sem (k + (w.st.sema ix).semNsems) else w.st.sem k).semval.toNat ≤ SEMVMX
    split
    · exact hst _
    · exact hst k
  | setval semid semnum val perm =>
    obtain rfl := Option.some.inj hs
    rcases @setval_cases w.st semid semnum val perm with ⟨e, heq⟩ | ⟨ix, sem, -, hvals, heq⟩
    · rw [heq]
      exact hst
    · rw [heq]
      exact hset ix sem hvals
  | setall semid vals perm =>
    obtain rfl := Option.some.inj hs
    rcases @setall_cases w.st semid vals perm with ⟨e, heq⟩ | ⟨ix, sem, e, -, hvals, heq⟩
    · rw [heq]
      exact hst
    · rw [heq]
      exact hset ix sem hvals
  | semop lwp p semid sops perm =>
    simp only [World.next] at hs
    split at hs
    · exact absurd hs (by simp)
    · obtain rfl := Option.some.inj hs
      exact (sysSemop_exact hok hfits).inLimit hst
  | wake s sig =>
    simp only [World.next] at hs
    split at hs
    · obtain rfl := Option.some.inj hs
      exact (semopWake_exact hok hfits).inLimit hst
    · exact absurd hs (by simp)
  | exit p =>
    obtain ⟨st, hst', rfl⟩ := Option.map_eq_some_iff.mp hs
    exact (semexit_exact hfits hst hst').1
  | reallocBegin mni mns mnu =>
    simp only [World.next] at hs
    split at hs
    · exact absurd hs (by simp)
    · obtain rfl := Option.some.inj hs
      exact hst
  | reallocEnd =>
    simp only [World.next] at hs
    split at hs
    · exact absurd hs (by simp)
    split at hs
    · obtain rfl := Option.some.inj hs
      unfold State.reallocEnd
      split
      · exact hst
      intro k
      rcases copySets_sem w.st (w.st.lsemid + 1) k with hzero | ⟨k', hcopy⟩
      · show (((List.range (w.st.lsemid + 1)).foldl w.st.copySet (0, fun _ => .zero, fun _ => .zero)).2.2 k).semval.toNat ≤ _
        rw [hzero]
        exact Nat.zero_le _
      · show (((List.range (w.st.lsemid + 1)).foldl w.st.copySet (0, fun _ => .zero, fun _ => .zero)).2.2 k).semval.toNat ≤ _
        rw [hcopy]
        exact hst k'
    · exact absurd hs (by simp)

theorem reach_inLimit (h : semSystem.Reach Fits w) : UndoOk w.st.semuList ∧ w.st.InLimit := by
  induction h with
  | init hw =>
    obtain rfl : _ = booted := hw
    exact ⟨⟨List.nodup_nil, fun x hx => absurd hx List.not_mem_nil⟩, fun k => Nat.zero_le _⟩
  | step _ hfits hs ih => exact ⟨next_undoOk ih.1 hs, InLimit.next ih.2 ih.1 hfits hs⟩

theorem callFits_raise {st : State} {c : Call} {sop : Sembuf} (hst : st.InLimit) (hc : c.sops = [sop]) (hundo : sop.undo = false)
    (hpos : 0 < sop.semOp.toInt) (hval : st.valsOf c sop.semNum + sop.semOp.toInt ≤ SEMVMX) : CallFits st c := by
  have hmax : SEMVMX = 32767 := rfl
  refine ⟨fun pre s hpre _ _ => ?_, fun _ num => ?_, fun _ pre hpre num => ?_⟩
  · rw [hc] at hpre
    obtain ⟨rest, hrest⟩ := hpre
    obtain rfl : pre = [] := List.length_eq_zero_iff.mp (by
      have hlen := congrArg List.length hrest
      simp only [List.length_append, List.length_singleton] at hlen
      omega)
    obtain rfl : s = sop := (List.cons_eq_cons.mp hrest).1
    rw [sumOn_nil]
    omega
  · rw [hc, sumOn_cons, sumOn_nil, add_zero]
    by_cases hn : sop.semNum = num
    · subst hn
      rw [if_pos rfl]
      exact hval
    · have hk := hst ((st.sema c.ix).semBase + num)
      rw [State.valsOf, valOf]
      omega
  · have hzero : undoOn num pre = 0 := by
      rw [hc] at hpre
      refine List.sum_eq_zero fun x hx => ?_
      obtain ⟨s, hs, rfl⟩ := List.mem_map.mp hx
      rw [List.mem_singleton.mp (hpre.subset hs), hundo]
      rfl
    rw [hzero, Int.sub_zero]
    exact ⟨BitVec.le_toInt _, BitVec.toInt_lt⟩

/-- All values are in range, and each step that raises nothing too far keeps them so and
adds just what its operations, or the adjustments of the process, say. -/
structure ValuesInRange (w : World) : Prop where
  le : w.st.InLimit
  ops : ∀ c, CallFits w.st c → ExactOps w.st c
  semop : ∀ lwp p semid sops perm, Fits w (.semop lwp p semid sops perm) →
    ExactCall w.st ⟨lwp, p, ipcidToIx semid, ipcidToSeq semid, sops⟩ (w.st.sysSemop lwp p semid sops perm)
  wake : ∀ s sig, Fits w (.wake s sig) → ExactCall w.st s.call (w.st.semopWake s sig)
  exit : ∀ p st', Fits w (.exit p) → w.st.semexit p = some st' →
    ∀ k, ((st'.sem k).semval.toNat : Int) = w.st.exitVal (entsOf w.st.semuList p) k

/-- In every run of steps that raise nothing too far. -/
theorem values_in_range (h : semSystem.Reach Fits w) : ValuesInRange w := by
  obtain ⟨hok, hst⟩ := reach_inLimit h
  exact ⟨hst, fun c hc => hc.exactOps hok, fun lwp p semid sops perm hfits => sysSemop_exact hok hfits,
    fun s sig hfits => semopWake_exact hok hfits, fun p st' hfits hs => (semexit_exact hfits hst hs).2⟩

/-- A set of one semaphore, which is 5, and then raised by 3. -/
def raiseOp : Sembuf := ⟨0, 3, false, false⟩
def raiseAct : Act := .semop 1 1 65536 [raiseOp] true

theorem values_in_range_raised : ∃ w, semSystem.Reach Fits w ∧ (w.st.sem 0).semval = 8 ∧ ValuesInRange w := by
  have hrun : ((booted.next (.semget 0 1 false false true)).bind fun w₁ => (w₁.next (.setval 65536 0 5 true)).bind fun w₂ =>
      (w₂.next raiseAct).map fun w₃ => decide ((w₂.st.sem 0).semval = 5 ∧ (w₂.st.sema 0).semBase = 0 ∧
        (w₃.st.sem 0).semval = 8)) = some true := by decide
  obtain ⟨w₁, hw₁, hrest⟩ := Option.bind_eq_some_iff.mp hrun
  obtain ⟨w₂, hw₂, hlast⟩ := Option.bind_eq_some_iff.mp hrest
  obtain ⟨w₃, hw₃, hvals⟩ := Option.map_eq_some_iff.mp hlast
  obtain ⟨hfive, hbase, height⟩ := of_decide_eq_true hvals
  have hone : semSystem.Reach Fits w₁ := .step (a := .semget 0 1 false false true) (.init rfl) trivial hw₁
  have hreach : semSystem.Reach Fits w₂ := .step (a := .setval 65536 0 5 true) hone trivial hw₂
  have hfits : Fits w₂ raiseAct := by
    intro _
    apply callFits_raise (reach_inLimit hreach).2 rfl rfl (by decide)
    show valOf (w₂.st.sema 0).semBase w₂.st.sem 0 + 3 ≤ SEMVMX
    rw [hbase, valOf, hfive]
    decide
  have hraised : semSystem.Reach Fits w₃ := .step hreach hfits hw₃
  exact ⟨w₃, hraised, height, values_in_range hraised⟩

/-- A semaphore at `SEMVMX`: one more takes it past the limit, and two raises take it round
to 0. -/
def fullActs : List Act := [.semget 0 1 false false true, .setval 65536 0 32767 true]

theorem raise_past_semvmx : ¬(∀ w, semSystem.Reachable w → ∀ k, (w.st.sem k).semval.toNat ≤ SEMVMX) ∧
    ¬∀ w, semSystem.Reachable w → ∀ lwp p semid sops perm, (w.st.sysSemop lwp p semid sops perm).2 = .ok →
      (∀ sop ∈ sops, 0 < sop.semOp.toInt) →
      ∀ k, (w.st.sem k).semval.toNat ≤ ((w.st.sysSemop lwp p semid sops perm).1.sem k).semval.toNat := by
  refine ⟨fun h => ?_, fun h => ?_⟩
  · obtain ⟨w, hw, hp⟩ := @reachable_runActs (fullActs ++ [.semop 1 1 65536 [⟨0, 1, false, false⟩] true])
      (fun w => decide (¬(w.st.sem 0).semval.toNat ≤ SEMVMX)) (by decide)
    exact of_decide_eq_true hp (h w hw 0)
  obtain ⟨w, hw, hp⟩ := @reachable_runActs fullActs
    (fun w => decide ((w.st.sysSemop 1 1 65536 [⟨0, 32767, false, false⟩, ⟨0, 2, false, false⟩] true).2 = .ok ∧
      ¬(w.st.sem 0).semval.toNat ≤
        ((w.st.sysSemop 1 1 65536 [⟨0, 32767, false, false⟩, ⟨0, 2, false, false⟩] true).1.sem 0).semval.toNat)) (by decide)
  obtain ⟨hok, hless⟩ := of_decide_eq_true hp
  exact hless (h w hw 1 1 65536 _ true hok (by decide) 0)

end Runs

end NetBSD.Kern.SysvSem
