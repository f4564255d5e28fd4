import NetBSD.Lib.Serial
import NetBSD.Lib.System
import Mathlib.Logic.Function.Basic
import Mathlib.Tactic.IntervalCases
import Mathlib.Tactic.NormNum

/-! Callouts of one CPU (`sys/kern/kern_timeout.c`).

A callout waits in one of 1024 buckets, four wheels of 256, or on the work list. A tick
moves the buckets that have come round to the work list, and the soft interrupt takes it
from there: what is due is invoked, and the rest is filed by how far away it is.

The lock is given up while a callout runs, so one round of the loop of `callout_softclock`
is a step of its own, and a callout that runs may schedule others. `World` adds what only
the proofs look at: the ticks counted without wrapping, what each callout was last scheduled
for, and what was invoked when. -/
namespace NetBSD.Kern.Callout
open List Function
open Lib

abbrev Id := Nat

/-- A function with its argument. -/
abbrev Func := Nat

def INT_MAX : Nat := 2 ^ 31 - 1

structure CalloutImpl where
  cFunc : Option Func
  cTime : BitVec 32
  /-- `CALLOUT_PENDING`, `CALLOUT_FIRED` and `CALLOUT_INVOKING` of `c_flags`. -/
  pending : Bool
  fired : Bool
  invoking : Bool

structure CalloutCpu where
  ccTicks : BitVec 32
  ccTodo : List Id
  ccWheel : Nat → List Id
  ccActive : Option Id
  ccCancel : Option Id
  callouts : Id → CalloutImpl

def WHEELBITS : Nat := 8
def WHEELSIZE : Nat := 256
def WHEELMASK : BitVec 32 := 255

def maskWheel (wheel : Nat) (time : BitVec 32) : Nat := ((time.sshiftRight (wheel * WHEELBITS)) &&& WHEELMASK).toNat

def bucket (rel : Int) (abs : BitVec 32) : Nat :=
  if rel ≤ 2 ^ (2 * WHEELBITS) then
    if rel ≤ 2 ^ WHEELBITS then maskWheel 0 abs else maskWheel 1 abs + WHEELSIZE
  else if rel ≤ 2 ^ (3 * WHEELBITS) then maskWheel 2 abs + 2 * WHEELSIZE
  else maskWheel 3 abs + 3 * WHEELSIZE

namespace CalloutCpu
variable (cc : CalloutCpu)

def moveBucket (wheel : Nat) (time : BitVec 32) : CalloutCpu :=
  let b := maskWheel wheel time + wheel * WHEELSIZE
  {cc with ccTodo := cc.ccTodo ++ cc.ccWheel b, ccWheel := update cc.ccWheel b []}

/-- `CIRCQ_REMOVE`: a callout is on one queue at most. -/
def remove (c : Id) : CalloutCpu :=
  {cc with ccTodo := cc.ccTodo.filter (· ≠ c), ccWheel := fun b => (cc.ccWheel b).filter (· ≠ c)}

def setCallout (c : Id) (impl : CalloutImpl) : CalloutCpu := {cc with callouts := update cc.callouts c impl}

/-- `callout_schedule_locked`, on the callout's own CPU. -/
def scheduleLocked (c : Id) (toTicks : BitVec 32) : CalloutCpu :=
  let impl := {cc.callouts c with fired := false, invoking := false}
  let time := toTicks + cc.ccTicks
  if impl.pending then
    -- Moved earlier it is rescheduled now, otherwise it is left in place.
    if (time - impl.cTime).toInt < 0 then
      let cc := cc.remove c
      {cc with ccTodo := cc.ccTodo ++ [c]}.setCallout c {impl with cTime := time}
    else cc.setCallout c {impl with cTime := time}
  else {cc with ccTodo := cc.ccTodo ++ [c]}.setCallout c {impl with cTime := time, pending := true}

/-- `callout_stop`, with whether the callout has expired. -/
def stop (c : Id) : CalloutCpu × Bool :=
  let impl := cc.callouts c
  let cc := if impl.pending then cc.remove c else cc
  let cc := cc.setCallout c {impl with pending := false, fired := false}
  (if cc.ccActive = some c then {cc with ccCancel := some c} else cc, impl.fired)

/-- `callout_hardclock`, with whether there is work to be done. -/
def hardclock : CalloutCpu × Bool :=
  let ticks := cc.ccTicks + 1
  let cc := {cc with ccTicks := ticks}.moveBucket 0 ticks
  let cc := if maskWheel 0 ticks = 0 then
      let cc := cc.moveBucket 1 ticks
      if maskWheel 1 ticks = 0 then
        let cc := cc.moveBucket 2 ticks
        if maskWheel 2 ticks = 0 then cc.moveBucket 3 ticks else cc
      else cc
    else cc
  (cc, cc.ccTodo ≠ [])

/-- One round of the loop of `callout_softclock`, with the callout it invokes. If due run
it, otherwise insert it into the right bucket. -/
def softclock : CalloutCpu × Option Id :=
  match cc.ccTodo with
  | [] => (cc, none)
  | c :: rest =>
    let impl := cc.callouts c
    let cc := {cc with ccTodo := rest}
    if impl.cTime.toInt > cc.ccTicks.toInt then
      let delta := (impl.cTime - cc.ccTicks).toInt
      let b := bucket delta impl.cTime
      ({cc with ccWheel := update cc.ccWheel b (cc.ccWheel b ++ [c])}, none)
    else
      ({cc with ccActive := some c}.setCallout c {impl with pending := false, fired := true, invoking := true}, some c)

end CalloutCpu

/-! ### Runs -/

/-- What a callout was last scheduled for. -/
structure Job where
  /-- The calls that schedule are counted. -/
  serial : Nat
  since : Nat
  delay : Nat
  /-- `callout_softclock` was running. -/
  running : Bool
  deriving DecidableEq

/-- The tick whose `callout_softclock` is to invoke it. -/
def Job.due (j : Job) : Nat := if j.delay = 0 ∧ j.running = false then j.since + 1 else j.since + j.delay

structure Invocation where
  callout : Id
  job : Option Job
  tick : Nat
  deriving DecidableEq

structure World where
  cc : CalloutCpu
  /-- The soft interrupt was scheduled, and has not returned. -/
  softint : Bool
  now : Nat
  serial : Nat
  job : Id → Option Job
  log : List Invocation

inductive Act where
  | schedule (c : Id) (toTicks : Nat)
  | reset (c : Id) (toTicks : Nat) (func : Func)
  | stop (c : Id)
  | hardclock
  /-- One round of the loop of `callout_softclock`, or its return. -/
  | softclock
  /-- The callout that was invoked returns. -/
  | funcReturn

namespace World
variable (w : World)

/-- A callout scheduled on `cc`, the state its function was set in. -/
def scheduled (cc : CalloutCpu) (c : Id) (toTicks : Nat) : World :=
  {w with
    cc := cc.scheduleLocked c (BitVec.ofNat 32 toTicks)
    serial := w.serial + 1
    job := update w.job c (some ⟨w.serial, w.now, toTicks, w.softint⟩)}

/-- `callout_softclock` runs after every `callout_hardclock` that found work, and before the
next one. -/
def next : Act → Option World
  | .schedule c toTicks =>
    if toTicks ≤ INT_MAX ∧ (w.cc.callouts c).cFunc ≠ none then some (w.scheduled w.cc c toTicks) else none
  | .reset c toTicks func =>
    if toTicks ≤ INT_MAX then
      some (w.scheduled (w.cc.setCallout c {w.cc.callouts c with cFunc := some func}) c toTicks)
    else none
  | .stop c => some {w with cc := (w.cc.stop c).1, job := update w.job c none}
  | .hardclock =>
    if w.softint then none
    else some {w with cc := w.cc.hardclock.1, softint := w.cc.hardclock.2, now := w.now + 1}
  | .softclock =>
    if w.softint = false ∨ w.cc.ccActive ≠ none then none
    else if w.cc.ccTodo = [] then some {w with softint := false}
    else match w.cc.softclock with
      | (cc, none) => some {w with cc := cc}
      | (cc, some c) => some {w with
          cc := cc
          job := update w.job c none
          log := ⟨c, w.job c, w.now⟩ :: w.log}
  | .funcReturn => if w.cc.ccActive = none then none else some {w with cc := {w.cc with ccActive := none}}

end World

/-- After `callout_startup`; the callouts are as `callout_init` leaves them. -/
def booted : World where
  cc := ⟨0, [], fun _ => [], none, none, fun _ => ⟨none, 0, false, false, false⟩⟩
  softint := false
  now := 0
  serial := 0
  job _ := none
  log := []

def calloutSystem : System World Act := .ofStep (· = booted) World.next

/-! The queues of the wheel.

A callout is on one queue at most (`Queued`). A tick moves the buckets `dumped` to the work
list, and where a callout is filed, a tick that moves its bucket comes after now and not
after its time (`bucket_dumped`): however often it is filed on the way, it is on the work
list when it is due. -/

theorem maskWheel_eq {wheel : Nat} (time : BitVec 32) (h : wheel ≤ 3) : maskWheel wheel time = time.toNat / 256 ^ wheel % 256 := by
  have hint := @BitVec.toInt_sshiftRight 32 time (wheel * 8)
  unfold maskWheel WHEELBITS WHEELMASK
  generalize time.sshiftRight (wheel * 8) = y at hint ⊢
  have hand : (y &&& 255).toNat = y.toNat % 256 := by
    exact Nat.and_two_pow_sub_one_eq_mod _ 8
  rw [Int.shiftRight_eq_div_pow, BitVec.toInt_eq_toNat_cond, BitVec.toInt_eq_toNat_cond] at hint
  rw [hand]
  interval_cases wheel <;> norm_num at hint ⊢ <;> split at hint <;> split at hint <;> omega

theorem maskWheel_ofNat {wheel : Nat} (n : Nat) (h : wheel ≤ 3) : maskWheel wheel (BitVec.ofNat 32 n) = n / 256 ^ wheel % 256 := by
  rw [maskWheel_eq _ h]
  interval_cases wheel <;> norm_num <;> omega

/-- The buckets that a tick moves to the work list. -/
def dumped (ticks : BitVec 32) : List Nat :=
  maskWheel 0 ticks ::
    if maskWheel 0 ticks = 0 then (maskWheel 1 ticks + WHEELSIZE) ::
      if maskWheel 1 ticks = 0 then (maskWheel 2 ticks + 2 * WHEELSIZE) ::
        if maskWheel 2 ticks = 0 then [maskWheel 3 ticks + 3 * WHEELSIZE] else []
      else []
    else []

theorem bucket_dumped {now due : Nat} (h : now < due) : ∃ tick, now < tick ∧ tick ≤ due ∧
    bucket ((due : Int) - now) (BitVec.ofNat 32 due) ∈ dumped (BitVec.ofNat 32 tick) := by
  have h0 (n : Nat) := @maskWheel_ofNat 0 n (by decide)
  have h1 (n : Nat) := @maskWheel_ofNat 1 n (by decide)
  have h2 (n : Nat) := @maskWheel_ofNat 2 n (by decide)
  have h3 (n : Nat) := @maskWheel_ofNat 3 n (by decide)
  norm_num at h0 h1 h2 h3
  unfold bucket WHEELBITS
  split_ifs with hb hs hm
  · exact ⟨due, h, le_refl _, mem_cons_self⟩
  · -- The tick that begins its 256 ticks; the bytes above are the same.
    refine ⟨due - due % 256, by omega, by omega, ?_⟩
    have hz : maskWheel 0 (BitVec.ofNat 32 (due - due % 256)) = 0 := by rw [h0]; omega
    have hsame : maskWheel 1 (BitVec.ofNat 32 (due - due % 256)) = maskWheel 1 (BitVec.ofNat 32 due) := by
      rw [h1, h1]
      omega
    rw [dumped, if_pos hz, hsame]
    exact mem_cons_of_mem _ mem_cons_self
  · refine ⟨due - due % 65536, by omega, by omega, ?_⟩
    have hz : maskWheel 0 (BitVec.ofNat 32 (due - due % 65536)) = 0 := by rw [h0]; omega
    have hz' : maskWheel 1 (BitVec.ofNat 32 (due - due % 65536)) = 0 := by rw [h1]; omega
    have hsame : maskWheel 2 (BitVec.ofNat 32 (due - due % 65536)) = maskWheel 2 (BitVec.ofNat 32 due) := by
      rw [h2, h2]
      omega
    rw [dumped, if_pos hz, if_pos hz', hsame]
    exact mem_cons_of_mem _ (mem_cons_of_mem _ mem_cons_self)
  refine ⟨due - due % 16777216, by omega, by omega, ?_⟩
  have hz : maskWheel 0 (BitVec.ofNat 32 (due - due % 16777216)) = 0 := by rw [h0]; omega
  have hz' : maskWheel 1 (BitVec.ofNat 32 (due - due % 16777216)) = 0 := by rw [h1]; omega
  have hz'' : maskWheel 2 (BitVec.ofNat 32 (due - due % 16777216)) = 0 := by rw [h2]; omega
  have hsame : maskWheel 3 (BitVec.ofNat 32 (due - due % 16777216)) = maskWheel 3 (BitVec.ofNat 32 due) := by
    rw [h3, h3]
    omega
  rw [dumped, if_pos hz, if_pos hz', if_pos hz'', hsame]
  exact mem_cons_of_mem _ (mem_cons_of_mem _ (mem_cons_of_mem _ mem_cons_self))

/-! ### Queues -/

/-- No callout is on a queue twice, or on two queues. -/
structure Queued (cc : CalloutCpu) : Prop where
  todo : cc.ccTodo.Nodup
  wheel : ∀ b, (cc.ccWheel b).Nodup
  apart : ∀ c ∈ cc.ccTodo, ∀ b, c ∉ cc.ccWheel b
  single : ∀ c b b', c ∈ cc.ccWheel b → c ∈ cc.ccWheel b' → b = b'

def CalloutCpu.OnQueue (cc : CalloutCpu) (c : Id) : Prop := c ∈ cc.ccTodo ∨ ∃ b, c ∈ cc.ccWheel b

section Queues
variable {cc : CalloutCpu}

/-- A bucket appended to the work list. -/
def CalloutCpu.dump (cc : CalloutCpu) (b : Nat) : CalloutCpu :=
  {cc with ccTodo := cc.ccTodo ++ cc.ccWheel b, ccWheel := update cc.ccWheel b []}

theorem moveBucket_eq (wheel : Nat) (time : BitVec 32) : cc.moveBucket wheel time = cc.dump (maskWheel wheel time + wheel * WHEELSIZE) := rfl

theorem hardclock_eq : cc.hardclock.1 = (dumped (cc.ccTicks + 1)).foldl CalloutCpu.dump {cc with ccTicks := cc.ccTicks + 1} := by
  unfold CalloutCpu.hardclock dumped
  simp only [moveBucket_eq, zero_mul, one_mul, add_zero]
  split_ifs <;> rfl

theorem mem_dump_wheel {b b' : Nat} {c : Id} : c ∈ (cc.dump b).ccWheel b' ↔ b' ≠ b ∧ c ∈ cc.ccWheel b' := by
  show c ∈ update cc.ccWheel b [] b' ↔ _
  by_cases hb : b' = b
  · subst hb
    simp
  · simp [hb]

theorem Queued.dump (h : Queued cc) (b : Nat) : Queued (cc.dump b) := by
  refine ⟨nodup_append.mpr ⟨h.todo, h.wheel b, fun x hx y hy hxy => h.apart x hx b (hxy ▸ hy)⟩, fun b' => ?_,
    fun c hc b' hb' => ?_, fun c b₁ b₂ h₁ h₂ => h.single c b₁ b₂ (mem_dump_wheel.mp h₁).2 (mem_dump_wheel.mp h₂).2⟩
  · show (update cc.ccWheel b [] b').Nodup
    by_cases hb : b' = b
    · subst hb
      simp
    · rw [update_of_ne hb]
      exact h.wheel b'
  · obtain ⟨hne, hmem⟩ := mem_dump_wheel.mp hb'
    rcases mem_append.mp hc with hc | hc
    · exact h.apart c hc b' hmem
    · exact hne (h.single c b' b hmem hc)

theorem onQueue_dump (b : Nat) (c : Id) : (cc.dump b).OnQueue c ↔ cc.OnQueue c := by
  constructor
  · rintro (hc | ⟨b', hc⟩)
    · rcases mem_append.mp hc with hc | hc
      · exact .inl hc
      · exact .inr ⟨b, hc⟩
    · exact .inr ⟨b', (mem_dump_wheel.mp hc).2⟩
  rintro (hc | ⟨b', hc⟩)
  · exact .inl (mem_append_left _ hc)
  by_cases hb : b' = b
  · subst hb
    exact .inl (mem_append_right _ hc)
  · exact .inr ⟨b', mem_dump_wheel.mpr ⟨hb, hc⟩⟩

theorem dumps_spec (bs : List Nat) (h : Queued cc) :
    Queued (bs.foldl CalloutCpu.dump cc) ∧ (∀ c, (bs.foldl CalloutCpu.dump cc).OnQueue c ↔ cc.OnQueue c) ∧
    (∀ c ∈ (bs.foldl CalloutCpu.dump cc).ccTodo, c ∈ cc.ccTodo ∨ ∃ b, c ∈ cc.ccWheel b) ∧
    (∀ b c, c ∈ (bs.foldl CalloutCpu.dump cc).ccWheel b → b ∉ bs ∧ c ∈ cc.ccWheel b) ∧
    (bs.foldl CalloutCpu.dump cc).callouts = cc.callouts ∧ (bs.foldl CalloutCpu.dump cc).ccTicks = cc.ccTicks := by
  induction bs generalizing cc with
  | nil => exact ⟨h, fun _ => .rfl, fun c hc => .inl hc, fun b c hc => ⟨not_mem_nil, hc⟩, rfl, rfl⟩
  | cons b bs ih =>
    obtain ⟨hq, hon, htodo, hwheel, hcall, hticks⟩ := ih (h.dump b)
    refine ⟨hq, fun c => (hon c).trans (onQueue_dump b c), fun c hc => ?_, fun b' c hc => ?_, hcall, hticks⟩
    · exact (onQueue_dump b c).mp (htodo c hc)
    obtain ⟨hne, hmem⟩ := hwheel b' c hc
    obtain ⟨hb, hmem'⟩ := mem_dump_wheel.mp hmem
    refine ⟨fun hin => ?_, hmem'⟩
    rcases mem_cons.mp hin with heq | hin
    · exact hb heq
    · exact hne hin

theorem Queued.remove (h : Queued cc) (c : Id) : Queued (cc.remove c) := by
  refine ⟨h.todo.filter _, fun b => (h.wheel b).filter _, fun x hx b hb => ?_, fun x b b' hb hb' => ?_⟩
  · exact h.apart x (mem_filter.mp hx).1 b (mem_filter.mp hb).1
  · exact h.single x b b' (mem_filter.mp hb).1 (mem_filter.mp hb').1

theorem onQueue_remove (c x : Id) : (cc.remove c).OnQueue x ↔ x ≠ c ∧ cc.OnQueue x := by
  unfold CalloutCpu.OnQueue CalloutCpu.remove
  simp only [mem_filter, decide_eq_true_eq, ne_eq]
  constructor
  · rintro (⟨hx, hne⟩ | ⟨b, hx, hne⟩)
    · exact ⟨hne, .inl hx⟩
    · exact ⟨hne, .inr ⟨b, hx⟩⟩
  · rintro ⟨hne, hx | ⟨b, hx⟩⟩
    · exact .inl ⟨hx, hne⟩
    · exact .inr ⟨b, hx, hne⟩

theorem Queued.insert (h : Queued cc) {c : Id} (hc : ¬cc.OnQueue c) : Queued {cc with ccTodo := cc.ccTodo ++ [c]} := by
  refine ⟨?_, h.wheel, fun x hx b => ?_, h.single⟩
  · rw [nodup_append]
    refine ⟨h.todo, by simp, fun x hx y hy hxy => hc (.inl ?_)⟩
    rw [← mem_singleton.mp hy, ← hxy]
    exact hx
  rcases mem_append.mp hx with hx | hx
  · exact h.apart x hx b
  · obtain rfl := mem_singleton.mp hx
    exact fun hb => hc (.inr ⟨b, hb⟩)

theorem Queued.file (h : Queued cc) {c : Id} {rest : List Id} (hc : cc.ccTodo = c :: rest) (b : Nat) :
    Queued {cc with ccTodo := rest, ccWheel := update cc.ccWheel b (cc.ccWheel b ++ [c])} := by
  have hnodup := h.todo
  rw [hc, nodup_cons] at hnodup
  have hhead := h.apart c (hc ▸ mem_cons_self)
  have hrest (x : Id) (hx : x ∈ rest) : x ∈ cc.ccTodo := hc ▸ mem_cons_of_mem _ hx
  have hmem (x : Id) (b' : Nat) : x ∈ update cc.ccWheel b (cc.ccWheel b ++ [c]) b' ↔ x ∈ cc.ccWheel b' ∨ (b' = b ∧ x = c) := by
    by_cases hb : b' = b
    · subst hb
      simp
    · simp [hb]
  refine ⟨hnodup.2, fun b' => ?_, fun x hx b' hb' => ?_, fun x b₁ b₂ h₁ h₂ => ?_⟩
  · show (update cc.ccWheel b (cc.ccWheel b ++ [c]) b').Nodup
    by_cases hb : b' = b
    · subst hb
      rw [update_self, nodup_append]
      refine ⟨h.wheel b', by simp, fun x hx y hy hxy => hhead b' ?_⟩
      rw [← mem_singleton.mp hy, ← hxy]
      exact hx
    · rw [update_of_ne hb]
      exact h.wheel b'
  · rcases (hmem x b').mp hb' with hb' | ⟨-, rfl⟩
    · exact h.apart x (hrest x hx) b' hb'
    · exact hnodup.1 hx
  · rcases (hmem x b₁).mp h₁ with h₁ | ⟨hb₁, hx₁⟩ <;> rcases (hmem x b₂).mp h₂ with h₂ | ⟨hb₂, hx₂⟩
    · exact h.single x b₁ b₂ h₁ h₂
    · exact absurd (hx₂ ▸ h₁) (hhead b₁)
    · exact absurd (hx₁ ▸ h₂) (hhead b₂)
    · rw [hb₁, hb₂]

end Queues

end NetBSD.Kern.Callout
