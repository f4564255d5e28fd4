import NetBSD.Kern.SysvSem.Stuck
import NetBSD.Kern.SysvSem.Apart

/-! No call sleeps that could go on.

`Watch` says that the counts of a semaphore are those of the calls asleep for it, and that
a call that nobody has woken is stuck. What a call does in silence leaves the others stuck
(`Stuck.quiet`), and everything else wakes all that sleep for the set. This fails where a
vector waits for a semaphore to become 0 after operations of its own that lower it: it can go
on when the value is what they take away, and nobody looks at that. -/
namespace NetBSD.Kern.SysvSem
open List Function Option
open Lib

def Sem.cnt (s : Sem) (zero : Bool) : BitVec 16 := if zero then s.semzcnt else s.semncnt

/-- Calls asleep for semaphore `num` of the set in slot `ix`, to become 0 or to be raised. -/
def State.waits (st : State) (ix num : Nat) (zero : Bool) : Nat :=
  st.sleepers.countP fun s => s.call.ix = ix ∧ s.call.seq = (st.sema ix).seq ∧ s.sop.semNum = num ∧
    decide (s.sop.semOp = 0) = zero

/-- The value of a semaphore of a set. -/
def State.val (st : State) (ix num : Nat) : Int := valOf (st.sema ix).semBase st.sem num

structure Watch (st : State) : Prop where
  slices : Slices st
  vals : ∀ ix, (st.sema ix).alloc = true → ∀ num < (st.sema ix).semNsems, st.val ix num ≤ SEMVMX
  cnts : ∀ ix, (st.sema ix).alloc = true → ∀ num < (st.sema ix).semNsems, ∀ zero,
    (st.sem ((st.sema ix).semBase + num)).cnt zero = BitVec.ofNat 16 (st.waits ix num zero)
  few : st.sleepers.length < 2 ^ 16
  calls : ∀ s ∈ st.sleepers, NotLowered s.call.sops ∧ ∃ rest, s.call.sops = s.before ++ s.sop :: rest
  nums : ∀ s ∈ st.sleepers, st.Live s.call → ∀ sop ∈ s.call.sops, sop.semNum < (st.sema s.call.ix).semNsems
  stuck : ∀ s ∈ st.sleepers, s.woken = false → st.Live s.call ∧ Stuck (st.sema s.call.ix).semBase st.sem s.before s.sop

section Watch
variable {st st' : State}

theorem Slices.index_inj (hs : Slices st) {i j a b : Nat} (hi : (st.sema i).alloc = true) (hj : (st.sema j).alloc = true)
    (ha : a < (st.sema i).semNsems) (hb : b < (st.sema j).semNsems)
    (h : (st.sema i).semBase + a = (st.sema j).semBase + b) : i = j ∧ a = b := by
  obtain rfl : i = j := hs.disjoint i j ((st.sema i).semBase + a) ⟨hi, by omega, by omega⟩ ⟨hj, by omega, by omega⟩
  exact ⟨rfl, by omega⟩

theorem Watch.sop_mem (h : Watch st) {s : Sleeper} (hs : s ∈ st.sleepers) : s.sop ∈ s.call.sops := by
  obtain ⟨-, rest, hsops⟩ := h.calls s hs
  rw [hsops]
  simp

theorem Watch.counted (h : Watch st) {s : Sleeper} (hs : s ∈ st.sleepers) (hlive : st.Live s.call) :
    if s.sop.semOp = 0 then 0 < (st.sem ((st.sema s.call.ix).semBase + s.sop.semNum)).semzcnt
    else 0 < (st.sem ((st.sema s.call.ix).semBase + s.sop.semNum)).semncnt := by
  have hnum := h.nums s hs hlive s.sop (h.sop_mem hs)
  have hcount (zero : Bool) (hz : decide (s.sop.semOp = 0) = zero) :
      0 < (st.sem ((st.sema s.call.ix).semBase + s.sop.semNum)).cnt zero := by
    have hpos : 0 < st.waits s.call.ix s.sop.semNum zero :=
      countP_pos_iff.mpr ⟨s, hs, by simpa [hlive.2] using hz⟩
    have hle : st.waits s.call.ix s.sop.semNum zero ≤ st.sleepers.length := countP_le_length
    have hfew := h.few
    rw [h.cnts _ hlive.1 _ hnum, BitVec.lt_def, BitVec.toNat_ofNat, Nat.mod_eq_of_lt (by omega)]
    exact hpos
  split
  · next hz => exact hcount true (by simpa using hz)
  · next hz => exact hcount false (by simpa using hz)

/-- A step that leaves the counts as they are, and wakes those that sleep for a semaphore
whose value changes. -/
theorem Watch.frame (h : Watch st) (hs : Slices st') {f : Sleeper → Sleeper}
    (hf : ∀ s, f s = s ∨ f s = {s with woken := true}) (hsleep : st'.sleepers = st.sleepers.map f)
    (hsets : ∀ ix, (st'.sema ix).alloc = true → (st.sema ix).alloc = true ∧ (st'.sema ix).seq = (st.sema ix).seq ∧
      (st'.sema ix).semNsems = (st.sema ix).semNsems)
    (hsem : ∀ ix, (st'.sema ix).alloc = true → ∀ num < (st.sema ix).semNsems,
      (∀ zero, (st'.sem ((st'.sema ix).semBase + num)).cnt zero = (st.sem ((st.sema ix).semBase + num)).cnt zero) ∧
      st'.val ix num ≤ SEMVMX)
    (hquiet : ∀ s ∈ st.sleepers, (f s).woken = false → st.Live s.call → Stuck (st.sema s.call.ix).semBase st.sem s.before s.sop →
      st'.Live s.call ∧ Stuck (st'.sema s.call.ix).semBase st'.sem s.before s.sop) : Watch st' := by
  have hcall (s : Sleeper) : (f s).call = s.call ∧ (f s).sop = s.sop ∧ (f s).before = s.before := by
    rcases hf s with hs | hs <;> rw [hs] <;> exact ⟨rfl, rfl, rfl⟩
  have hwoken (s : Sleeper) (hw : (f s).woken = false) : s.woken = false := by
    rcases hf s with hs | hs
    · rw [← hs]
      exact hw
    · rw [hs] at hw
      exact absurd hw (by simp)
  have hwaits (ix num : Nat) (zero : Bool) (hix : (st'.sema ix).alloc = true) : st'.waits ix num zero = st.waits ix num zero := by
    unfold State.waits
    rw [hsleep, countP_map, (hsets ix hix).2.1]
    congr 1
    funext s
    rw [comp_apply, (hcall s).1, (hcall s).2.1]
  have hmem (s : Sleeper) (hs : s ∈ st'.sleepers) : ∃ s₀ ∈ st.sleepers, f s₀ = s := by
    rw [hsleep] at hs
    exact mem_map.mp hs
  refine ⟨hs, fun ix hix num hnum => ?_, fun ix hix num hnum zero => ?_, ?_, fun s hs => ?_, fun s hs hlive => ?_,
    fun s hs hw => ?_⟩
  · rw [(hsets ix hix).2.2] at hnum
    exact (hsem ix hix num hnum).2
  · rw [(hsets ix hix).2.2] at hnum
    rw [(hsem ix hix num hnum).1, hwaits ix num zero hix]
    exact h.cnts ix (hsets ix hix).1 num hnum zero
  · rw [hsleep, length_map]
    exact h.few
  · obtain ⟨s₀, hs₀, rfl⟩ := hmem s hs
    rw [(hcall s₀).1, (hcall s₀).2.1, (hcall s₀).2.2]
    exact h.calls s₀ hs₀
  · obtain ⟨s₀, hs₀, rfl⟩ := hmem s hs
    rw [(hcall s₀).1] at hlive ⊢
    obtain ⟨h1, h2, h3⟩ := hsets _ hlive.1
    rw [h3]
    exact h.nums s₀ hs₀ ⟨h1, h2 ▸ hlive.2⟩
  · obtain ⟨s₀, hs₀, rfl⟩ := hmem s hs
    obtain ⟨hlive, hstuck⟩ := h.stuck s₀ hs₀ (hwoken s₀ hw)
    rw [(hcall s₀).1, (hcall s₀).2.1, (hcall s₀).2.2]
    exact hquiet s₀ hs₀ hw hlive hstuck

/-! ### Going to sleep, and waking up -/

theorem addCount_apply (base : Nat) (sop : Sembuf) (d : BitVec 16) (sem : Nat → Sem) (k : Nat) :
    (addCount base sop d sem k).semval = (sem k).semval ∧ ∀ zero, (addCount base sop d sem k).cnt zero =
      (sem k).cnt zero + if base + sop.semNum = k ∧ decide (sop.semOp = 0) = zero then d else 0 := by
  unfold addCount Sem.cnt
  by_cases hk : base + sop.semNum = k
  · subst hk
    rw [update_self]
    by_cases hz : sop.semOp = 0
    · rw [if_pos hz]
      refine ⟨rfl, fun zero => ?_⟩
      cases zero <;> simp [hz]
    rw [if_neg hz]
    refine ⟨rfl, fun zero => ?_⟩
    rw [decide_eq_false hz]
    cases zero <;> simp
  · rw [update_of_ne (Ne.symm hk)]
    simp [hk]

theorem valOf_congr {base : Nat} {sem sem' : Nat → Sem} (h : ∀ k, (sem' k).semval = (sem k).semval) (num : Nat) :
    valOf base sem' num = valOf base sem num := by
  rw [valOf, h, valOf]

theorem Stuck.congr {base base' : Nat} {sem sem' : Nat → Sem} {before : List Sembuf} {sop : Sembuf}
    (h : Stuck base sem before sop) (hval : valOf base' sem' sop.semNum = valOf base sem sop.semNum) :
    Stuck base' sem' before sop := by
  refine ⟨h.room, ?_⟩
  rw [hval]
  exact h.blocked

theorem addCount_place (hs : Slices st) {s : Sleeper} (hlive : st.Live s.call)
    (hnum : s.sop.semNum < (st.sema s.call.ix).semNsems) {ix num : Nat} (hix : (st.sema ix).alloc = true)
    (hn : num < (st.sema ix).semNsems) (d : BitVec 16) (zero : Bool) :
    (addCount (st.sema s.call.ix).semBase s.sop d st.sem ((st.sema ix).semBase + num)).cnt zero = (st.sem ((st.sema ix).semBase + num)).cnt zero +
        if s.call.ix = ix ∧ s.call.seq = (st.sema ix).seq ∧ s.sop.semNum = num ∧ decide (s.sop.semOp = 0) = zero then d else 0 := by
  rw [(addCount_apply _ _ _ _ _).2]
  congr 1
  refine if_congr ⟨?_, ?_⟩ rfl rfl
  · rintro ⟨heq, hz⟩
    obtain ⟨rfl, rfl⟩ := hs.index_inj hlive.1 hix hnum hn heq
    exact ⟨rfl, hlive.2.symm, rfl, hz⟩
  · rintro ⟨rfl, -, rfl, hz⟩
    exact ⟨rfl, hz⟩

theorem Watch.sleep (h : Watch st) {s : Sleeper} (hlive : st.Live s.call) (hfew : st.sleepers.length < 2 ^ 16 - 1)
    (hlow : NotLowered s.call.sops) {rest : List Sembuf} (hsops : s.call.sops = s.before ++ s.sop :: rest)
    (hnums : ∀ sop ∈ s.call.sops, sop.semNum < (st.sema s.call.ix).semNsems)
    (hstuck : Stuck (st.sema s.call.ix).semBase st.sem s.before s.sop) : Watch {st with
      sem := addCount (st.sema s.call.ix).semBase s.sop 1 st.sem
      sleepers := s :: st.sleepers} := by
  have hcount := addCount_apply (st.sema s.call.ix).semBase s.sop 1 st.sem
  have hval (ix num : Nat) := @valOf_congr (st.sema ix).semBase _ _ (fun k => (hcount k).1) num
  have hnum : s.sop.semNum < (st.sema s.call.ix).semNsems := hnums s.sop (by rw [hsops]; simp)
  refine ⟨h.slices.congr ⟨rfl, rfl, rfl⟩, fun ix hix num hn => ?_, fun ix hix num hn zero => ?_, ?_, fun x hx => ?_,
    fun x hx hl => ?_, fun x hx hw => ?_⟩
  · rw [State.val, hval]
    exact h.vals ix hix num hn
  · refine (addCount_place h.slices hlive hnum hix hn 1 zero).trans ?_
    rw [h.cnts ix hix num hn zero]
    unfold State.waits
    rw [countP_cons, BitVec.ofNat_add]
    simp only [decide_eq_true_eq]
    split <;> rfl
  · rw [length_cons]
    omega
  · rcases mem_cons.mp hx with rfl | hx
    · exact ⟨hlow, rest, hsops⟩
    · exact h.calls x hx
  · rcases mem_cons.mp hx with rfl | hx
    · exact hnums
    · exact h.nums x hx hl
  · rcases mem_cons.mp hx with rfl | hx
    · exact ⟨hlive, hstuck.congr (hval _ _)⟩
    · obtain ⟨hl, hst⟩ := h.stuck x hx hw
      exact ⟨hl, hst.congr (hval _ _)⟩

theorem ofNat_add_neg_one {n : Nat} (h : 0 < n) : BitVec.ofNat 16 n + -1 = BitVec.ofNat 16 (n - 1) := by
  obtain ⟨m, rfl⟩ := Nat.exists_eq_add_of_lt h
  rw [BitVec.ofNat_add]
  exact add_neg_cancel_right _ _

theorem Watch.rise (h : Watch st) {s : Sleeper} (hs : s ∈ st.sleepers) (hlive : st.Live s.call) : Watch {st with
    sleepers := st.sleepers.erase s
    sem := addCount (st.sema s.call.ix).semBase s.sop (-1) st.sem} := by
  have hcount := addCount_apply (st.sema s.call.ix).semBase s.sop (-1) st.sem
  have hval (ix num : Nat) := @valOf_congr (st.sema ix).semBase _ _ (fun k => (hcount k).1) num
  have hnum : s.sop.semNum < (st.sema s.call.ix).semNsems := h.nums s hs hlive s.sop (h.sop_mem hs)
  have hmem (x : Sleeper) (hx : x ∈ st.sleepers.erase s) : x ∈ st.sleepers := mem_of_mem_erase hx
  refine ⟨h.slices.congr ⟨rfl, rfl, rfl⟩, fun ix hix num hn => ?_, fun ix hix num hn zero => ?_, ?_,
    fun x hx => h.calls x (hmem x hx), fun x hx hl => h.nums x (hmem x hx) hl, fun x hx hw => ?_⟩
  · rw [State.val, hval]
    exact h.vals ix hix num hn
  · refine (addCount_place h.slices hlive hnum hix hn (-1) zero).trans ?_
    rw [h.cnts ix hix num hn zero]
    unfold State.waits
    rw [countP_erase]
    by_cases hp : s.call.ix = ix ∧ s.call.seq = (st.sema ix).seq ∧ s.sop.semNum = num ∧ decide (s.sop.semOp = 0) = zero
    · have hpos : 0 < st.waits ix num zero := countP_pos_iff.mpr ⟨s, hs, decide_eq_true hp⟩
      rw [if_pos hp, if_pos ⟨hs, decide_eq_true hp⟩]
      exact ofNat_add_neg_one hpos
    · rw [if_neg hp, if_neg (by simpa using fun _ => hp), add_zero, Nat.sub_zero]
  · have hle := length_erase_le (a := s) (l := st.sleepers)
    have hfew := h.few
    show (st.sleepers.erase s).length < 2 ^ 16
    omega
  · obtain ⟨hl, hst⟩ := h.stuck x (hmem x hx) hw
    exact ⟨hl, hst.congr (hval _ _)⟩

theorem Watch.riseGone (h : Watch st) {s : Sleeper} (hgone : ¬st.Live s.call) : Watch {st with sleepers := st.sleepers.erase s} := by
  have hmem (x : Sleeper) (hx : x ∈ st.sleepers.erase s) : x ∈ st.sleepers := mem_of_mem_erase hx
  refine ⟨h.slices.congr ⟨rfl, rfl, rfl⟩, h.vals, fun ix hix num hn zero => ?_, ?_,
    fun x hx => h.calls x (hmem x hx), fun x hx hl => h.nums x (hmem x hx) hl, fun x hx hw => h.stuck x (hmem x hx) hw⟩
  · refine (h.cnts ix hix num hn zero).trans ?_
    unfold State.waits
    have hp : ¬(s.call.ix = ix ∧ s.call.seq = (st.sema ix).seq ∧ s.sop.semNum = num ∧ decide (s.sop.semOp = 0) = zero) := by
      rintro ⟨rfl, hseq, -⟩
      exact hgone ⟨hix, hseq.symm⟩
    rw [countP_erase, if_neg (by simpa using fun _ => hp), Nat.sub_zero]
  · have hle := length_erase_le (a := s) (l := st.sleepers)
    have hfew := h.few
    show (st.sleepers.erase s).length < 2 ^ 16
    omega

theorem InRange.congr {base : Nat} {sops : List Sembuf} {sem sem' : Nat → Sem} (h : InRange base sops sem)
    (hval : ∀ k, (sem' k).semval = (sem k).semval) : InRange base sops sem' := by
  induction sops generalizing sem sem' with
  | nil => trivial
  | cons sop rest ih =>
    have hsome : (tryOp base sop ⟨sem', false, false⟩).isSome = (tryOp base sop ⟨sem, false, false⟩).isSome := by
      unfold tryOp
      simp only [hval]
      split_ifs <;> rfl
    refine ⟨?_, fun hdone => ih (h.2 (hsome ▸ hdone)) fun k => ?_⟩
    · rw [valOf_congr hval]
      exact h.1
    · rw [addVal_apply, addVal_apply, hval]

theorem tryOps_others {base : Nat} {bf todo : List Sembuf} {p p' : Pass} (h : tryOps base bf todo p = (p', none)) {k : Nat}
    (hk : ∀ sop ∈ todo, base + sop.semNum ≠ k) : p'.sem k = p.sem k := by
  have hspec := @tryOps_spec base bf todo p
  rw [h] at hspec
  have hzero : delta base todo k = 0 := sum_eq_zero fun x hx => by
    obtain ⟨sop, hs, rfl⟩ := mem_map.mp hx
    exact if_neg (hk sop hs)
  rw [hspec.1, addOps, hzero, add_zero]

theorem Watch.loop (h : Watch st) (hok : UndoOk st.semuList) {c : Call} (doUndos : Bool) (hlive : st.Live c)
    (hnums : ∀ sop ∈ c.sops, sop.semNum < (st.sema c.ix).semNsems) (hfew : st.sleepers.length < 2 ^ 16 - 1)
    (hlow : NotLowered c.sops) (hr : InRange (st.sema c.ix).semBase c.sops st.sem) : Watch (st.semopLoop c doUndos).1 := by
  rcases semopLoop_cases hok c doUndos with ⟨before, sop, rest, p, hsops, htry, heq | heq⟩ | ⟨l, e, -, -, heq⟩ |
      ⟨p, l, htry, -, -, heq⟩
  · rw [heq]
    exact h
  · rw [heq]
    have hv : st.val c.ix sop.semNum ≤ SEMVMX := h.vals c.ix hlive.1 _ (hnums sop (by rw [hsops]; simp))
    have hstuck := stuck_of_blocked htry hr hlow hv
    exact @Watch.sleep st h ⟨c, before, sop, p.doUndos, false⟩ hlive hfew hlow rest hsops hnums hstuck
  · rw [heq]
    exact ⟨h.slices.congr ⟨rfl, rfl, rfl⟩, h.vals, h.cnts, h.few, h.calls, h.nums, h.stuck⟩
  rw [heq, semopDone_eq]
  have hpids (k : Nat) := @setPids_apply (st.sema c.ix).semBase c.sops p.sem k c.proc
  have hcounts := tryOps_counts htry
  have hval (ix num : Nat) : valOf (st.sema ix).semBase (setPids (st.sema c.ix).semBase c.proc c.sops p.sem) num =
      valOf (st.sema ix).semBase p.sem num := valOf_congr (fun k => (hpids k).1) num
  -- The other sets are not touched.
  have hother (ix num : Nat) (hix : (st.sema ix).alloc = true) (hn : num < (st.sema ix).semNsems) (hne : ix ≠ c.ix) :
      valOf (st.sema ix).semBase p.sem num = valOf (st.sema ix).semBase st.sem num := by
    have hsame := @tryOps_others _ _ _ _ _ htry ((st.sema ix).semBase + num) fun sop hs hk =>
      hne (h.slices.index_inj hlive.1 hix (hnums sop hs) hn hk).1.symm
    rw [valOf, hsame, valOf]
  refine h.frame (h.slices.congr ⟨rfl, rfl, rfl⟩) (fun s => ?_) rfl (fun ix hix => ⟨hix, rfl, rfl⟩) (fun ix hix num hn => ?_)
    (fun s hs hw hl hst => ⟨hl, ?_⟩)
  · split
    · exact .inr rfl
    · exact .inl rfl
  · refine ⟨fun zero => ?_, ?_⟩
    · unfold Sem.cnt
      rw [(hpids _).2.1, (hpids _).2.2, (hcounts _).1, (hcounts _).2]
    refine (hval ix num).trans_le ?_
    by_cases hc : ix = c.ix
    · subst hc
      have hmax : SEMVMX = 32767 := rfl
      have hroom := @InRange.room _ num [] c.sops _ p hr htry (h.vals c.ix hlive.1 num hn)
      rw [@tryOps_valOf _ num [] c.sops _ p htry fun pre hpre => by
        have := hroom pre hpre
        omega]
      exact hroom c.sops (prefix_refl _)
    · rw [hother ix num hix hn hc]
      exact h.vals ix hix num hn
  have hnum := h.nums s hs hl s.sop (h.sop_mem hs)
  by_cases hc : s.call.ix = c.ix
  · -- It sleeps for this set, and nobody was woken.
    have hquiet : p.doWakeup = false := by
      cases hpw : p.doWakeup with
      | false => rfl
      | true =>
        rw [if_pos ⟨hpw, hc⟩] at hw
        exact absurd hw (by simp)
    have hcount := h.counted hs hl
    have hv := h.vals _ hl.1 _ hnum
    simp only [hc] at hst hcount hv ⊢
    exact (hst.quiet hr htry hquiet hv hcount).congr (hval c.ix _)
  · exact hst.congr ((hval _ _).trans (hother _ _ hl.1 hnum hc))

/-! ### The other calls -/

theorem broadcast_eq (ix : Nat) (s : Sleeper) : (if s.call.ix = ix then {s with woken := true} else s) = s ∨
    (if s.call.ix = ix then {s with woken := true} else s) = {s with woken := true} := by
  split
  · exact .inr rfl
  · exact .inl rfl

theorem broadcast_quiet {ix : Nat} {s : Sleeper} (h : (if s.call.ix = ix then {s with woken := true} else s).woken = false) : s.call.ix ≠ ix := by
  intro hix
  rw [if_pos hix] at h
  exact absurd h (by simp)

section
variable (h : Watch st)
include h

theorem Watch.setVals {ix : Nat} (hix : (st.sema ix).alloc = true) {sem : Nat → Sem} (hset : SetVals st ix sem)
    (l : List SemUndo) : Watch (State.cvBroadcast {st with sem := sem, semuList := l} ix) := by
  have hval (i num : Nat) (hi : (st.sema i).alloc = true) (hn : num < (st.sema i).semNsems) (hne : i ≠ ix) :
      valOf (st.sema i).semBase sem num = valOf (st.sema i).semBase st.sem num := by
    have hout : ¬((st.sema ix).semBase ≤ (st.sema i).semBase + num ∧
        (st.sema i).semBase + num < (st.sema ix).semBase + (st.sema ix).semNsems) := fun hin =>
      hne (h.slices.disjoint i ix ((st.sema i).semBase + num) ⟨hi, by omega, by omega⟩ ⟨hix, hin.1, hin.2⟩)
    rw [valOf, hset.others _ hout, valOf]
  refine h.frame (h.slices.congr ⟨rfl, rfl, rfl⟩) (broadcast_eq ix) rfl (fun i hi => ⟨hi, rfl, rfl⟩) (fun i hi num hn => ?_)
    (fun s hs hw hl hst => ⟨hl, ?_⟩)
  · refine ⟨fun zero => ?_, ?_⟩
    · have hcounts := hset.counts ((st.sema i).semBase + num)
      show (sem ((st.sema i).semBase + num)).cnt zero = _
      unfold Sem.cnt
      rw [hcounts.1, hcounts.2]
    show valOf (st.sema i).semBase sem num ≤ SEMVMX
    rcases hset.small ((st.sema i).semBase + num) with hsame | hsmall
    · rw [valOf, hsame]
      exact h.vals i hi num hn
    · rw [valOf]
      exact_mod_cast hsmall
  · exact hst.congr (hval _ _ hl.1 (h.nums s hs hl s.sop (h.sop_mem hs)) (broadcast_quiet hw))

theorem Watch.removeSet {ix : Nat} (hix : (st.sema ix).alloc = true) : Watch (st.removeSet ix) := by
  have hsem (i num : Nat) (hi : ((st.removeSet ix).sema i).alloc = true) (hn : num < (st.sema i).semNsems) :
      (st.removeSet ix).sem (((st.removeSet ix).sema i).semBase + num) = st.sem ((st.sema i).semBase + num) := by
    obtain ⟨hne, ha⟩ := (removeSet_alloc ix i).mp hi
    exact removeSet_sem h.slices hix ha hne hn
  refine h.frame (h.slices.removeSet hix) (broadcast_eq ix) rfl (fun i hi => ?_) (fun i hi num hn => ?_) (fun s hs hw hl hst => ?_)
  · exact ⟨((removeSet_alloc ix i).mp hi).2, (removeSet_nsems ix i).2.1, (removeSet_nsems ix i).1⟩
  · rw [State.val, valOf, hsem i num hi hn]
    exact ⟨fun _ => rfl, h.vals i ((removeSet_alloc ix i).mp hi).2 num hn⟩
  have hi : ((st.removeSet ix).sema s.call.ix).alloc = true := (removeSet_alloc ix _).mpr ⟨broadcast_quiet hw, hl.1⟩
  refine ⟨⟨hi, (removeSet_nsems ix _).2.1.trans hl.2⟩, hst.congr ?_⟩
  rw [valOf, hsem _ _ hi (h.nums s hs hl s.sop (h.sop_mem hs)), valOf]

theorem Watch.realloc {mni mns mnu : Nat} (hnil : st.sleepers = []) (hre : st.reallocEnd mni mns mnu = (st', none)) : Watch st' := by
  rcases reallocEnd_cases h.slices mni mns mnu with heq | ⟨st'', heq, hmni, h1, h2, -, hsleep, hsema, hsem⟩
  · rw [heq] at hre
    exact absurd (congrArg Prod.snd hre) (by simp)
  obtain rfl : st'' = st' := congrArg Prod.fst (heq.symm.trans hre)
  have halloc (i : Nat) (hi : (st''.sema i).alloc = true) : (st.sema i).alloc = true := by
    by_contra ha
    rw [hsema, if_neg ha] at hi
    exact Bool.false_ne_true hi
  refine h.frame (h.slices.realloc hmni h1 h2 hsema) (fun s => .inl rfl) (hsleep.trans (map_id' _).symm) (fun i hi => ?_)
    (fun i hi num hn => ?_) (fun s hs => ?_)
  · rw [hsema, if_pos (halloc i hi)]
    exact ⟨halloc i hi, rfl, rfl⟩
  · have hplace := hsem i (halloc i hi) num hn
    rw [State.val, hsema, if_pos (halloc i hi), valOf]
    rw [hplace]
    exact ⟨fun _ => rfl, h.vals i (halloc i hi) num hn⟩
  · rw [hnil] at hs
    exact absurd hs not_mem_nil

theorem Watch.createSet {ix n : Nat} (key : Int) (hix : ix < st.semmni) (hfree : (st.sema ix).alloc = false)
    (hn : 0 < n) (hnew : ∀ s ∈ st.sleepers, ¬((st.sema s.call.ix).alloc = false ∧ (st.createSet ix key n).Live s.call)) :
    Watch (st.createSet ix key n) := by
  have hsema := @createSet_sema st ix key n
  have hsem (k : Nat) : (st.createSet ix key n).sem k = if st.semtot ≤ k ∧ k < st.semtot + n then Sem.zero else st.sem k := rfl
  have hold (i num : Nat) (hi : (st.sema i).alloc = true) (hnum : num < (st.sema i).semNsems) :
      (st.createSet ix key n).sem ((st.sema i).semBase + num) = st.sem ((st.sema i).semBase + num) := by
    have := h.slices.top i _ ⟨hi, Nat.le_add_right _ num, by omega⟩
    rw [hsem, if_neg (by omega)]
  have hzero (num : Nat) (hnum : num < ((st.createSet ix key n).sema ix).semNsems) :
      (st.createSet ix key n).sem (((st.createSet ix key n).sema ix).semBase + num) = .zero := by
    rw [hsema, if_pos rfl] at hnum ⊢
    simp only at hnum ⊢
    rw [hsem, if_pos (by omega)]
  -- A sleeper whose set exists now has one that existed before.
  have hlives (s : Sleeper) (hs : s ∈ st.sleepers) (hl : (st.createSet ix key n).Live s.call) : s.call.ix ≠ ix ∧ st.Live s.call := by
    have hne : s.call.ix ≠ ix := by
      intro heq
      exact hnew s hs ⟨heq ▸ hfree, hl⟩
    rw [State.Live, hsema, if_neg hne] at hl
    exact ⟨hne, hl⟩
  refine ⟨h.slices.createSet key hix hfree hn, fun i hi num hnum => ?_, fun i hi num hnum zero => ?_, h.few, h.calls,
    fun s hs hl => ?_, fun s hs hw => ?_⟩
  · by_cases hc : i = ix
    · subst hc
      rw [State.val, valOf, hzero num hnum]
      decide
    · rw [hsema, if_neg hc] at hi hnum
      rw [State.val, hsema, if_neg hc, valOf, hold i num hi hnum]
      exact h.vals i hi num hnum
  · by_cases hc : i = ix
    · subst hc
      have hnone : (st.createSet i key n).waits i num zero = 0 := countP_eq_zero.mpr fun s hs hp => by
        obtain ⟨rfl, hseq, -⟩ := of_decide_eq_true hp
        exact (hlives s hs ⟨hi, hseq.symm⟩).1 rfl
      rw [hzero num hnum, hnone]
      cases zero <;> rfl
    rw [hsema, if_neg hc] at hi hnum
    have hwaits : (st.createSet ix key n).waits i num zero = st.waits i num zero := by
      unfold State.waits
      rw [hsema, if_neg hc]
      rfl
    rw [hwaits, hsema, if_neg hc, hold i num hi hnum]
    exact h.cnts i hi num hnum zero
  · obtain ⟨hne, hl'⟩ := hlives s hs hl
    rw [hsema, if_neg hne]
    exact h.nums s hs hl'
  · obtain ⟨hl, hst⟩ := h.stuck s hs hw
    have hne : s.call.ix ≠ ix := by
      intro heq
      rw [State.Live, heq, hfree] at hl
      exact Bool.false_ne_true hl.1
    have hnum := h.nums s hs hl s.sop (h.sop_mem hs)
    rw [State.Live, hsema, if_neg hne]
    refine ⟨hl, hst.congr ?_⟩
    rw [valOf, hold _ _ hl.1 hnum, valOf]

theorem Watch.applyUndo {e : SemUndoEntry} (halloc : (st.sema e.unId).alloc = true)
    (hnum : e.unNum < (st.sema e.unId).semNsems) (hr : st.val e.unId e.unNum + e.unAdjval.toInt ≤ SEMVMX)
    (hs : st.applyUndo e = some st') : Watch st' := by
  have hne : ¬((st.sema e.unId).alloc = false ∧ (st.sema e.unId).semNsems ≤ e.unNum) := fun hgone => by omega
  rw [State.applyUndo] at hs
  simp only [if_neg hne] at hs
  obtain rfl := some.inj hs
  apply h.setVals halloc
  refine ⟨fun k hk => ?_, fun k => ?_, fun k => ?_⟩
  · rw [update_of_ne fun heq => hk (by omega)]
  · by_cases hk : k = (st.sema e.unId).semBase + e.unNum
    · rw [hk, update_self]
      exact ⟨rfl, rfl⟩
    · rw [update_of_ne hk]
      exact ⟨rfl, rfl⟩
  by_cases hk : k = (st.sema e.unId).semBase + e.unNum
  · right
    rw [hk, update_self]
    show (State.undoVal _ _).toNat ≤ SEMVMX
    unfold State.undoVal
    split
    · decide
    · next hlow =>
      have hmax : SEMVMX = 32767 := rfl
      rw [State.val, valOf] at hr
      have hadd := toNat_add_op (st.sem ((st.sema e.unId).semBase + e.unNum)).semval e.unAdjval (by omega) (by omega)
      omega
  · left
    rw [update_of_ne hk]

end

theorem Watch.applyUndos (ents : List SemUndoEntry) (h : Watch st) (hkeys : (ents.map fun e => (e.unId, e.unNum)).Nodup)
    (hents : ∀ e ∈ ents, (st.sema e.unId).alloc = true ∧ e.unNum < (st.sema e.unId).semNsems)
    (hr : ∀ e ∈ ents, st.val e.unId e.unNum + e.unAdjval.toInt ≤ SEMVMX) (hs : ents.foldlM State.applyUndo st = some st') :
    Watch st' := by
  induction ents generalizing st with
  | nil => exact some.inj hs ▸ h
  | cons e rest ih =>
    obtain ⟨st₁, hone, hrest⟩ := bind_eq_some_iff.mp hs
    obtain ⟨halloc, hnum⟩ := hents e mem_cons_self
    obtain ⟨st₂, hfold, hsets, -, -, hsem⟩ := @applyUndos_spec st [e] (by simpa using halloc)
    obtain rfl : st₂ = st₁ := some.inj (hfold.symm.trans (by simp [hone]))
    rw [map_cons, nodup_cons] at hkeys
    refine ih (h.applyUndo halloc hnum (hr e mem_cons_self) hone) hkeys.2 (fun x hx => ?_) (fun x hx => ?_) hrest
    · rw [hsets.sema]
      exact hents x (mem_cons_of_mem _ hx)
    obtain ⟨hxalloc, hxnum⟩ := hents x (mem_cons_of_mem _ hx)
    -- It is for another semaphore.
    have hsame : st₂.sem ((st.sema x.unId).semBase + x.unNum) = st.sem ((st.sema x.unId).semBase + x.unNum) := by
      by_contra hne
      obtain ⟨y, hy, heq⟩ := hsem _ hne
      obtain rfl := mem_singleton.mp hy
      obtain ⟨hid, hn⟩ := h.slices.index_inj hxalloc halloc hxnum hnum heq
      exact hkeys.1 (mem_map.mpr ⟨x, hx, by rw [hid, hn]⟩)
    rw [State.val, hsets.sema, valOf, hsame]
    exact hr x (mem_cons_of_mem _ hx)

end Watch

/-! ### Every run -/

/-- What a step must not do: wait for 0 after lowering the semaphore, pass `SEMVMX`, take a
new set for an old one, or overflow the 16 bits of the counts. -/
def Watchful (w : World) : Act → Prop
  | .semget key nsems creat excl perm => Unslept w (.semget key nsems creat excl perm)
  | .semop _ _ semid sops _ => w.st.lookup semid = some (ipcidToIx semid) →
      w.st.sleepers.length < 2 ^ 16 - 1 ∧ NotLowered sops ∧ InRange (w.st.sema (ipcidToIx semid)).semBase sops w.st.sem
  | .wake s _ => w.st.Live s.call → InRange (w.st.sema s.call.ix).semBase s.call.sops w.st.sem
  | .exit p => ∀ e ∈ entsOf w.st.semuList p, w.st.val e.unId e.unNum + e.unAdjval.toInt ≤ SEMVMX
  | _ => True

section Runs
variable {w w' : World} {a : Act}

theorem Watchful.unslept (h : Watchful w a) : Unslept w a := by
  cases a with
  | semget key nsems creat excl perm => exact h
  | rmid _ _ | setval _ _ _ _ | setall _ _ _ | semop _ _ _ _ _ | wake _ _ | exit _ | reallocBegin _ _ _ | reallocEnd => trivial

theorem Watch.next (h : Watch w.st) (hinv : StorageInv w) (hok : Watchful w a) (hs : w.next a = some w') : Watch w'.st := by
  cases next_did hs with
  | refused => exact h
  | @created key nsems creat excl perm ix n hix hfree hn hget =>
    have hnew : ∀ s ∈ w.st.sleepers, ¬((w.st.sema s.call.ix).alloc = false ∧ (w.st.sysSemget key nsems creat excl perm).1.Live s.call) := hok
    rw [hget] at hnew
    exact h.createSet key hix hfree hn hnew
  | removed hlook => exact h.removeSet (lookup_eq_some hlook).2.2.1
  | set hlook hset => exact h.setVals (lookup_eq_some hlook).2.2.1 hset _
  | operated _ hlook hnums =>
    obtain ⟨hfew, hlow, hr⟩ := hok hlook
    obtain ⟨-, -, halloc, hseq⟩ := lookup_eq_some hlook
    exact h.loop hinv.undo false ⟨halloc, hseq⟩ hnums hfew hlow hr
  | gone hgone => exact h.riseGone hgone
  | stopped hmem hlive => exact h.rise hmem hlive
  | @again s sig hmem hlive =>
    have hvals := addCount_apply (w.st.sema s.call.ix).semBase s.sop (-1) w.st.sem
    have hfew : (w.st.sleepers.erase s).length < 2 ^ 16 - 1 := by
      have hlen := length_erase_of_mem hmem
      have := h.few
      omega
    exact (h.rise hmem hlive).loop hinv.undo s.doUndos hlive (h.nums s hmem hlive) hfew (h.calls s hmem).1
      ((hok hlive).congr fun k => (hvals k).1)
  | @exited p _ hexit =>
    obtain ⟨st', hfold, rfl⟩ := map_eq_some_iff.mp hexit
    have hexit := h.applyUndos (entsOf w.st.semuList p) (hinv.undo.entsOf p).nodup
      (fun e he => ⟨(hinv.entry he).1, (hinv.entry he).2.1⟩) hok hfold
    exact ⟨hexit.slices.congr ⟨rfl, rfl, rfl⟩, hexit.vals, hexit.cnts, hexit.few, hexit.calls, hexit.nums, hexit.stuck⟩
  | began =>
    refine h.frame (h.slices.congr ⟨rfl, rfl, rfl⟩) (fun s => ?_) rfl (fun i hi => ⟨hi, rfl, rfl⟩)
      (fun i hi num hn => ⟨fun _ => rfl, h.vals i hi num hn⟩) (fun s hs hw hl hst => ⟨hl, hst⟩)
    split
    · exact .inr rfl
    · exact .inl rfl
  | @ended mni mns mnu _ hnil =>
    rcases @reallocEnd_cases w.st h.slices mni mns mnu with heq | ⟨st', heq, -⟩
    · rw [heq]
      exact ⟨h.slices.congr ⟨rfl, rfl, rfl⟩, h.vals, h.cnts, h.few, h.calls, h.nums, h.stuck⟩
    · rw [heq]
      exact h.realloc hnil heq

theorem reach_watch (h : semSystem.Reach Watchful w) : StorageInv w ∧ Watch w.st := by
  induction h with
  | init hw =>
    obtain rfl := hw
    have hfree (i : Nat) : ¬(booted.st.sema i).alloc = true := Bool.false_ne_true
    refine ⟨reach_storageInv (.init rfl), booted_slices, fun i hi => absurd hi (hfree i), fun i hi => absurd hi (hfree i),
      by decide, fun s hs => absurd hs not_mem_nil, fun s hs => absurd hs not_mem_nil,
      fun s hs => absurd hs not_mem_nil⟩
  | step _ hok hs ih => exact ⟨ih.1.next hok.unslept hs, ih.2.next ih.1 hok hs⟩

/-- Nobody sleeps, with no wakeup on its way, that could carry out all its operations. -/
def NoLostWakeup (w : World) : Prop := ∀ s ∈ w.st.sleepers, s.woken = false →
  (tryOps (w.st.sema s.call.ix).semBase [] s.call.sops ⟨w.st.sem, false, false⟩).2 ≠ none

/-- In every run of watchful steps no wakeup is lost. -/
theorem no_lost_wakeup (h : semSystem.Reach Watchful w) : NoLostWakeup w := by
  obtain ⟨-, hwatch⟩ := reach_watch h
  intro s hs hw
  obtain ⟨hlive, hstuck⟩ := hwatch.stuck s hs hw
  obtain ⟨-, rest, hsops⟩ := hwatch.calls s hs
  have hval := hwatch.vals _ hlive.1 _ (hwatch.nums s hs hlive s.sop (hwatch.sop_mem hs))
  rw [hsops]
  exact @Stuck.not_done _ s.before [] rest s.sop ⟨w.st.sem, false, false⟩ hstuck hval

end Runs

instance decidableInRange (base : Nat) : (sops : List Sembuf) → (sem : Nat → Sem) → Decidable (InRange base sops sem)
  | [], _ => isTrue trivial
  | sop :: rest, sem =>
    have := decidableInRange base rest (addVal base sem sop.semNum sop.semOp)
    inferInstanceAs (Decidable ((_ → _) ∧ (_ → _)))

instance (sops : List Sembuf) : Decidable (NotLowered sops) :=
  inferInstanceAs (Decidable (∀ _ : Fin _, _ → _))

instance (w : World) : (a : Act) → Decidable (Watchful w a)
  | .semget key nsems creat excl perm => inferInstanceAs (Decidable (Unslept w (.semget key nsems creat excl perm)))
  | .semop _ _ _ _ _ => inferInstanceAs (Decidable (_ → _ ∧ _ ∧ _))
  | .wake _ _ => inferInstanceAs (Decidable (_ → _))
  | .exit p => inferInstanceAs (Decidable (∀ _ ∈ entsOf w.st.semuList p, _))
  | .rmid _ _ | .setval _ _ _ _ | .setall _ _ _ | .reallocBegin _ _ _ | .reallocEnd => inferInstanceAs (Decidable True)

/-- One call waits to get the semaphore down, and another finds that it is 0. -/
theorem no_lost_wakeup_sleeper : ∃ w, semSystem.Reach Watchful w ∧
    w.st.sleepers = [⟨⟨1, 1, 0, 1, [lowerOne]⟩, [], lowerOne, false, false⟩] ∧ NoLostWakeup w := by
  have hrun : ((System.run (System.guarded Watchful World.next) booted
      (sleeperActs ++ [.semop 2 2 65536 [⟨0, 0, false, false⟩] true])).map fun w => w.st.sleepers) =
        some [⟨⟨1, 1, 0, 1, [lowerOne]⟩, [], lowerOne, false, false⟩] := by
    decide
  obtain ⟨w, hw, hsleep⟩ := map_eq_some_iff.mp hrun
  have hreach := System.reach_run (· = booted) Watchful World.next booted _ rfl hw
  exact ⟨w, hreach, hsleep, no_lost_wakeup hreach⟩

/-- A semaphore that is 2; a call that lowers it and then waits for 0 sleeps. Another call
lowers it to 1 and wakes nobody, though the first could now go on. -/
def lostActs : List Act :=
  [.semget 0 1 false false true, .setval 65536 0 2 true, .semop 1 1 65536 [lowerOne, ⟨0, 0, false, false⟩] true, .semop 2 2 65536 [lowerOne] true]

theorem lowered_waiter_is_not_woken : ¬∀ w, semSystem.Reachable w → NoLostWakeup w := by
  intro h
  obtain ⟨w, hw, hp⟩ := @reachable_runActs lostActs (fun w => ∃ s ∈ w.st.sleepers, s.woken = false ∧
    (tryOps (w.st.sema s.call.ix).semBase [] s.call.sops ⟨w.st.sem, false, false⟩).2 = none) (by decide)
  obtain ⟨s, hs, hwoken, hdone⟩ := of_decide_eq_true hp
  exact h w hw s hs hwoken hdone

end NetBSD.Kern.SysvSem
