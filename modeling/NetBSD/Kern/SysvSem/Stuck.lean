import NetBSD.Kern.SysvSem.Atomic

/-! Where a vector of operations gets stuck.

A call sleeps at the first operation that can't be done, after the operations before it
were rolled back. `Stuck` says in whole numbers why: the value, with what the earlier
operations add to it, is not 0, or too low. As long as no value passes `SEMVMX` this is what
the 16-bit arithmetic finds, and another call that raises no semaphore with `semncnt` and
brings none with `semzcnt` to 0 does not change it (`Stuck.quiet`). -/
namespace NetBSD.Kern.SysvSem
open Option

/-- What the operations add to semaphore `num`. -/
def sumOn (num : Nat) (sops : List Sembuf) : Int :=
  (sops.map fun sop => if sop.semNum = num then sop.semOp.toInt else 0).sum

/-- The value of semaphore `num` of the set at `base`. -/
def valOf (base : Nat) (sem : Nat → Sem) (num : Nat) : Int := ((sem (base + num)).semval.toNat : Int)

/-- No operation that is tried raises a value above `SEMVMX`. -/
def InRange (base : Nat) : List Sembuf → (Nat → Sem) → Prop
  | [], _ => True
  | sop :: rest, sem => (0 < sop.semOp.toInt → valOf base sem sop.semNum + sop.semOp.toInt ≤ SEMVMX) ∧
    ((tryOp base sop ⟨sem, false, false⟩).isSome = true → InRange base rest (addVal base sem sop.semNum sop.semOp))

/-- No operation waits for 0 where the earlier ones together lower the semaphore. -/
def NotLowered (sops : List Sembuf) : Prop :=
  ∀ i : Fin sops.length, (sops.get i).semOp = 0 → 0 ≤ sumOn (sops.get i).semNum (sops.take i)

section Sums
variable {num : Nat} {sops : List Sembuf}

theorem sumOn_nil : sumOn num [] = 0 := rfl

theorem sumOn_cons (sop : Sembuf) : sumOn num (sop :: sops) = (if sop.semNum = num then sop.semOp.toInt else 0) + sumOn num sops := by
  rw [sumOn, List.map_cons, List.sum_cons, sumOn]

theorem NotLowered.before {before rest : List Sembuf} {sop : Sembuf} (h : NotLowered (before ++ sop :: rest))
    (hz : sop.semOp = 0) : 0 ≤ sumOn sop.semNum before := by
  have hlt : before.length < (before ++ sop :: rest).length := by simp
  have hget : (before ++ sop :: rest).get ⟨before.length, hlt⟩ = sop := by simp
  have hat := h ⟨before.length, hlt⟩
  rw [hget] at hat
  simpa using hat hz

end Sums

section Op
variable {base num : Nat} {sop : Sembuf} {p p' : Pass}

theorem toNat_add_op (v op : BitVec 16) (hlow : 0 ≤ (v.toNat : Int) + op.toInt) (hhigh : (v.toNat : Int) + op.toInt < 2 ^ 16) :
    ((v + op).toNat : Int) = v.toNat + op.toInt := by
  rw [BitVec.toInt_eq_toNat_cond] at hlow hhigh ⊢
  rw [BitVec.toNat_add]
  split at hlow <;> rename_i hsign <;> simp only [hsign, if_true, if_false] at hhigh ⊢ <;> omega

theorem valOf_addVal {sem : Nat → Sem} (hlow : 0 ≤ valOf base sem sop.semNum + sop.semOp.toInt)
    (hhigh : valOf base sem sop.semNum + sop.semOp.toInt < 2 ^ 16) : valOf base (addVal base sem sop.semNum sop.semOp) num =
      valOf base sem num + if sop.semNum = num then sop.semOp.toInt else 0 := by
  rw [valOf, addVal_apply]
  by_cases hn : sop.semNum = num
  · subst hn
    simp only [if_true]
    exact toNat_add_op _ _ hlow hhigh
  · simp only [Nat.add_left_cancel_iff, hn, if_false, add_zero]
    rfl

theorem tryOp_some (h : tryOp base sop p = some p') :
    (sop.semOp.toInt < 0 ∧ 0 ≤ valOf base p.sem sop.semNum + sop.semOp.toInt ∧ (p'.doWakeup = false → p.doWakeup = false ∧
      ((p.sem (base + sop.semNum)).semval + sop.semOp = 0 → ¬0 < (p.sem (base + sop.semNum)).semzcnt))) ∨
    (sop.semOp = 0 ∧ valOf base p.sem sop.semNum = 0 ∧ p' = p) ∨
    (0 < sop.semOp.toInt ∧ (p'.doWakeup = false → p.doWakeup = false ∧ ¬0 < (p.sem (base + sop.semNum)).semncnt)) := by
  unfold tryOp at h
  simp only at h
  split_ifs at h with hneg hcan hzero hpos
  · obtain rfl := some.inj h
    refine .inl ⟨hneg, not_lt.mp hcan, fun hw => ?_⟩
    simp only [Bool.or_eq_false_iff, Bool.and_eq_false_iff, decide_eq_false_iff_not] at hw
    exact ⟨hw.1, fun h0 => hw.2.resolve_left fun hne => hne h0⟩
  · refine .inr (.inl ⟨hzero, ?_, (some.inj h).symm⟩)
    have hval : (p.sem (base + sop.semNum)).semval = 0 := by
      rw [BitVec.lt_def] at hpos
      exact BitVec.eq_of_toNat_eq (by simpa using hpos)
    rw [valOf, hval]
    rfl
  · obtain rfl := some.inj h
    have hne : sop.semOp.toInt ≠ 0 := fun h0 => hzero (BitVec.eq_of_toInt_eq h0)
    refine .inr (.inr ⟨by omega, fun hw => ?_⟩)
    simpa using hw

theorem tryOp_none (h : tryOp base sop p = none) : (sop.semOp.toInt < 0 ∧ valOf base p.sem sop.semNum + sop.semOp.toInt < 0) ∨
    (sop.semOp = 0 ∧ 0 < valOf base p.sem sop.semNum) := by
  unfold tryOp at h
  simp only at h
  split_ifs at h with hneg hcan hzero hpos
  · exact .inl ⟨hneg, hcan⟩
  refine .inr ⟨hzero, ?_⟩
  rw [BitVec.lt_def] at hpos
  rw [valOf]
  omega

theorem tryOp_isSome (sem : Nat → Sem) (w u : Bool) :
    (tryOp base sop ⟨sem, w, u⟩).isSome = (tryOp base sop ⟨sem, false, false⟩).isSome := by
  unfold tryOp
  simp only
  split_ifs <;> rfl

theorem tryOp_valOf (h : tryOp base sop p = some p') (hrange : 0 < sop.semOp.toInt → valOf base p.sem sop.semNum + sop.semOp.toInt < 2 ^ 16) :
    valOf base p'.sem num = valOf base p.sem num + if sop.semNum = num then sop.semOp.toInt else 0 := by
  have hbound : valOf base p.sem sop.semNum < 2 ^ 16 := by
    rw [valOf]
    omega
  rw [(tryOp_sem h).1]
  rcases tryOp_some h with ⟨hneg, hcan, -⟩ | ⟨hzero, hval, -⟩ | ⟨hpos, -⟩
  · exact valOf_addVal hcan (by omega)
  · have hint : sop.semOp.toInt = 0 := by rw [hzero]; rfl
    exact valOf_addVal (by omega) (by omega)
  · have : 0 ≤ valOf base p.sem sop.semNum := Int.natCast_nonneg _
    exact valOf_addVal (by omega) (hrange hpos)

end Op

/-! ### A vector -/

section Vector
variable {base num : Nat} {before bf todo rest : List Sembuf} {sop : Sembuf} {p p' : Pass} {sem : Nat → Sem}

theorem tryOps_append (todo' : List Sembuf) (p : Pass) : tryOps base bf (todo ++ todo') p = match tryOps base bf todo p with
    | (q, none) => tryOps base (bf ++ todo) todo' q
    | r => r := by
  induction todo generalizing bf p with
  | nil => rw [List.nil_append, List.append_nil, tryOps]
  | cons sop rest ih =>
    rw [List.cons_append, tryOps, tryOps]
    cases tryOp base sop p with
    | none => rfl
    | some q =>
      simp only
      rw [ih, List.append_assoc, List.singleton_append]

theorem tryOps_blocked {bf' : List Sembuf} (h : tryOps base bf todo p = (p', some (bf', sop))) :
    ∃ done rest, todo = done ++ sop :: rest ∧ bf' = bf ++ done ∧ tryOps base bf done p = (p', none) ∧ tryOp base sop p' = none := by
  induction todo generalizing bf p with
  | nil => exact absurd (congrArg Prod.snd h) (by simp [tryOps])
  | cons s rest ih =>
    rw [tryOps] at h
    cases ht : tryOp base s p with
    | none =>
      rw [ht] at h
      simp only [Prod.mk.injEq, Option.some.injEq] at h
      obtain ⟨rfl, rfl, rfl⟩ := h
      exact ⟨[], rest, rfl, (List.append_nil bf).symm, rfl, ht⟩
    | some q =>
      rw [ht] at h
      obtain ⟨done, rest', hrest, hbf, hdone, hnone⟩ := ih h
      refine ⟨s :: done, rest', by rw [hrest]; rfl, by rw [hbf, List.append_assoc]; rfl, ?_, hnone⟩
      rw [tryOps, ht]
      exact hdone

theorem InRange.prefix (h : InRange base (todo ++ rest) sem) : InRange base todo sem := by
  induction todo generalizing sem with
  | nil => trivial
  | cons sop todo ih => exact ⟨h.1, fun hsome => ih (h.2 hsome)⟩

theorem InRange.next (h : InRange base (sop :: rest) p.sem) (ht : tryOp base sop p = some p') : InRange base rest p'.sem := by
  rw [(tryOp_sem ht).1]
  apply h.2
  have hsome := @tryOp_isSome base sop p.sem p.doWakeup p.doUndos
  rw [← hsome]
  rw [ht]
  rfl

theorem valOf_nonneg (sem : Nat → Sem) : 0 ≤ valOf base sem num := Int.natCast_nonneg _

theorem tryOps_done_nil (h : tryOps base bf [] p = (p', none)) : p = p' := congrArg Prod.fst h

theorem tryOps_done_cons (h : tryOps base bf (sop :: rest) p = (p', none)) :
    ∃ q, tryOp base sop p = some q ∧ tryOps base (bf ++ [sop]) rest q = (p', none) := by
  rw [tryOps] at h
  cases ht : tryOp base sop p with
  | none =>
    rw [ht] at h
    exact absurd (congrArg Prod.snd h) (by simp)
  | some q =>
    rw [ht] at h
    exact ⟨q, rfl, h⟩

theorem tryOps_valOf (h : tryOps base bf todo p = (p', none)) (hroom : ∀ pre, pre <+: todo → valOf base p.sem num + sumOn num pre < 2 ^ 16) :
    valOf base p'.sem num = valOf base p.sem num + sumOn num todo := by
  induction todo generalizing bf p with
  | nil =>
    obtain rfl := tryOps_done_nil h
    rw [sumOn_nil, add_zero]
  | cons sop rest ih =>
    obtain ⟨q, ht, h⟩ := tryOps_done_cons h
    have hq : valOf base q.sem num = valOf base p.sem num + if sop.semNum = num then sop.semOp.toInt else 0 := by
      by_cases hn : sop.semNum = num
      · apply tryOp_valOf ht
        have hone := hroom [sop] (by simp)
        rw [sumOn_cons, sumOn_nil, ← hn] at hone
        omega
      · rw [(tryOp_sem ht).1, valOf, addVal_apply]
        simp only [Nat.add_left_cancel_iff, hn, if_false, add_zero]
        rfl
    rw [ih h, sumOn_cons, hq, add_assoc]
    intro pre hpre
    have hmore := hroom (sop :: pre) (List.cons_prefix_cons.mpr ⟨rfl, hpre⟩)
    rw [sumOn_cons] at hmore
    omega

section
variable (hr : InRange base (sop :: rest) p.sem) (ht : tryOp base sop p = some p')
include hr ht

theorem InRange.valOf : valOf base p'.sem num = valOf base p.sem num + if sop.semNum = num then sop.semOp.toInt else 0 := by
  apply tryOp_valOf ht
  intro hpos
  have hle := hr.1 hpos
  have hmax : SEMVMX = 32767 := rfl
  omega

theorem InRange.valOf_le (hv : SysvSem.valOf base p.sem num ≤ SEMVMX) : SysvSem.valOf base p'.sem num ≤ SEMVMX := by
  rw [hr.valOf ht]
  by_cases hn : sop.semNum = num
  · subst hn
    rw [if_pos rfl]
    by_cases hpos : 0 < sop.semOp.toInt
    · exact hr.1 hpos
    · omega
  · omega

end

theorem InRange.room (hr : InRange base todo p.sem) (h : tryOps base bf todo p = (p', none)) (hv : SysvSem.valOf base p.sem num ≤ SEMVMX) :
    ∀ pre, pre <+: todo → SysvSem.valOf base p.sem num + sumOn num pre ≤ SEMVMX := by
  induction todo generalizing bf p with
  | nil =>
    intro pre hpre
    rw [List.prefix_nil.mp hpre]
    exact hv
  | cons sop rest ih =>
    intro pre hpre
    cases pre with
    | nil =>
      exact hv
    | cons s pre =>
      obtain ⟨rfl, hpre'⟩ := List.cons_prefix_cons.mp hpre
      obtain ⟨q, ht, h⟩ := tryOps_done_cons h
      have hrest := ih (hr.next ht) h (hr.valOf_le ht hv) pre hpre'
      rw [hr.valOf ht] at hrest
      rw [sumOn_cons, ← add_assoc]
      exact hrest

theorem tryOps_doWakeup (h : tryOps base bf todo p = (p', none)) (hw : p'.doWakeup = false) : p.doWakeup = false := by
  induction todo generalizing bf p with
  | nil =>
    obtain rfl := tryOps_done_nil h
    exact hw
  | cons sop rest ih =>
    obtain ⟨q, ht, h⟩ := tryOps_done_cons h
    have hq := ih h
    rcases tryOp_some ht with ⟨-, -, hback⟩ | ⟨-, -, rfl⟩ | ⟨-, hback⟩
    · exact (hback hq).1
    · exact hq
    · exact (hback hq).1

theorem tryOps_counts (h : tryOps base bf todo p = (p', none)) (k : Nat) :
    (p'.sem k).semncnt = (p.sem k).semncnt ∧ (p'.sem k).semzcnt = (p.sem k).semzcnt := by
  have hspec := @tryOps_spec base bf todo p
  rw [h] at hspec
  rw [hspec.1]
  exact ⟨rfl, rfl⟩

/-- A call that wakes nobody raises no semaphore that others wait for, and brings none to 0
that others wait for to become 0. -/
theorem tryOps_quiet (hr : InRange base todo p.sem) (h : tryOps base bf todo p = (p', none)) (hw : p'.doWakeup = false)
    (hv : valOf base p.sem num ≤ SEMVMX) :
    (0 < (p.sem (base + num)).semncnt → valOf base p'.sem num ≤ valOf base p.sem num) ∧
    (0 < (p.sem (base + num)).semzcnt → 0 < valOf base p.sem num → 0 < valOf base p'.sem num) := by
  induction todo generalizing bf p with
  | nil =>
    obtain rfl := tryOps_done_nil h
    exact ⟨fun _ => le_refl _, fun _ hpos => hpos⟩
  | cons sop rest ih =>
    obtain ⟨q, ht, h⟩ := tryOps_done_cons h
    have hcounts : (q.sem (base + num)).semncnt = (p.sem (base + num)).semncnt ∧ (q.sem (base + num)).semzcnt = (p.sem (base + num)).semzcnt := by
      rw [(tryOp_sem ht).1, addVal_apply]
      exact ⟨rfl, rfl⟩
    obtain ⟨hdown, hzero⟩ := ih (hr.next ht) h (hr.valOf_le ht hv)
    rw [hcounts.1] at hdown
    rw [hcounts.2] at hzero
    have hq := @InRange.valOf base num rest sop p q hr ht
    have hqw := tryOps_doWakeup h hw
    by_cases hn : sop.semNum = num
    · subst hn
      rcases tryOp_some ht with ⟨hneg, hcan, hback⟩ | ⟨-, hval, rfl⟩ | ⟨hpos, hback⟩
      · refine ⟨fun hc => ?_, fun hc hv0 => hzero hc ?_⟩
        · have := hdown hc
          omega
        -- It would have woken those that wait for 0.
        by_contra hnot
        have hq0 : valOf base q.sem sop.semNum = 0 := by omega
        have h0 : (p.sem (base + sop.semNum)).semval + sop.semOp = 0 := by
          rw [(tryOp_sem ht).1, valOf, addVal_apply] at hq0
          simp only [if_true] at hq0
          exact BitVec.eq_of_toNat_eq (Int.ofNat_inj.mp hq0)
        exact (hback hqw).2 h0 hc
      · exact ⟨hdown, hzero⟩
      · refine ⟨fun hc => absurd hc (hback hqw).2, fun hc hv0 => hzero hc ?_⟩
        omega
    · rw [if_neg hn] at hq
      rw [hq] at hdown hzero
      exact ⟨hdown, hzero⟩

end Vector

/-- With what the operations before it add, the semaphore is not 0, or too low. -/
structure Stuck (base : Nat) (sem : Nat → Sem) (before : List Sembuf) (sop : Sembuf) : Prop where
  room : ∀ pre, pre <+: before → sumOn sop.semNum pre ≤ SEMVMX
  blocked : (sop.semOp = 0 ∧ 0 ≤ sumOn sop.semNum before ∧ 0 < valOf base sem sop.semNum + sumOn sop.semNum before) ∨
    (sop.semOp.toInt < 0 ∧ valOf base sem sop.semNum + sumOn sop.semNum before + sop.semOp.toInt < 0)

section Stuck
variable {base : Nat} {before bf todo rest : List Sembuf} {sop : Sembuf} {p p' : Pass} {sem : Nat → Sem}

theorem Stuck.not_done (h : Stuck base p.sem before sop) (hv : valOf base p.sem sop.semNum ≤ SEMVMX) :
    (tryOps base bf (before ++ sop :: rest) p).2 ≠ none := by
  intro hdone
  rw [tryOps_append] at hdone
  generalize hb : tryOps base bf before p = r at hdone
  obtain ⟨q, fail⟩ := r
  cases fail with
  | some stop => exact absurd hdone (by simp)
  | none =>
    have hmax : SEMVMX = 32767 := rfl
    have hval := @tryOps_valOf base sop.semNum bf before p q hb fun pre hpre => by
      have := h.room pre hpre
      omega
    have hnone : tryOp base sop q = none := by
      cases ht : tryOp base sop q with
      | none => rfl
      | some q' =>
        rcases tryOp_some ht with ⟨hneg, hcan, -⟩ | ⟨hz, hz0, -⟩ | ⟨hpos, -⟩ <;>
          rcases h.blocked with ⟨hz', -, hpos'⟩ | ⟨hneg', hlow⟩
        · rw [hz'] at hneg
          exact absurd hneg (by decide)
        · omega
        · omega
        · rw [hz] at hneg'
          exact absurd hneg' (by decide)
        · rw [hz'] at hpos
          exact absurd hpos (by decide)
        · omega
    simp only [tryOps, hnone] at hdone
    exact absurd hdone (by simp)

theorem stuck_of_blocked {sops : List Sembuf} (h : tryOps base [] sops p = (p', some (before, sop)))
    (hr : InRange base sops p.sem) (hlow : NotLowered sops) (hv : valOf base p.sem sop.semNum ≤ SEMVMX) :
    Stuck base p.sem before sop := by
  obtain ⟨done, rest, rfl, hbf, hdone, hnone⟩ := tryOps_blocked h
  subst hbf
  have hroom := hr.prefix.room hdone hv
  have hmax : SEMVMX = 32767 := rfl
  have hnonneg := @valOf_nonneg base sop.semNum p.sem
  refine ⟨fun pre hpre => ?_, ?_⟩
  · have := hroom pre hpre
    omega
  have hval := @tryOps_valOf base sop.semNum [] before p p' hdone fun pre hpre => by
    have := hroom pre hpre
    omega
  rcases tryOp_none hnone with ⟨hneg, hlt⟩ | ⟨hz, hpos⟩
  · exact .inr ⟨hneg, by omega⟩
  · exact .inl ⟨hz, hlow.before hz, by omega⟩

theorem Stuck.quiet (h : Stuck base p.sem before sop) (hr : InRange base todo p.sem)
    (hdone : tryOps base bf todo p = (p', none)) (hw : p'.doWakeup = false) (hv : valOf base p.sem sop.semNum ≤ SEMVMX)
    (hcount : if sop.semOp = 0 then 0 < (p.sem (base + sop.semNum)).semzcnt else 0 < (p.sem (base + sop.semNum)).semncnt) :
    Stuck base p'.sem before sop := by
  obtain ⟨hdown, hzero⟩ := tryOps_quiet hr hdone hw hv
  have hnonneg := @valOf_nonneg base sop.semNum p'.sem
  refine ⟨h.room, ?_⟩
  rcases h.blocked with ⟨hz, hsum, hpos⟩ | ⟨hneg, hlow⟩
  · rw [if_pos hz] at hcount
    refine .inl ⟨hz, hsum, ?_⟩
    by_cases hv0 : 0 < valOf base p.sem sop.semNum
    · have := hzero hcount hv0
      omega
    · omega
  have hne : ¬sop.semOp = 0 := fun hz => by
    rw [hz] at hneg
    exact absurd hneg (by decide)
  rw [if_neg hne] at hcount
  have := hdown hcount
  exact .inr ⟨hneg, by omega⟩

end Stuck

end NetBSD.Kern.SysvSem
