import NetBSD.Kern.Callout.Wheel

/-! Callouts are invoked when they are due.

A pending callout is on the work list, or in a bucket that a tick moves there before it is
due (`Placed`). So `callout_softclock` finds it in time, and invokes it then and not before,
provided that the comparison of `c_time` with `cc_ticks` says what their difference says. It
does not when the two are on different sides of `INT_MAX`. -/
namespace NetBSD.Kern.Callout
open List Function Option
open Lib

/-- The calls whose callout was invoked. -/
def World.served (w : World) : List Nat := w.log.filterMap fun i => i.job.map Job.serial

structure Counted (w : World) : Prop where
  jobs : ∀ c j, w.job c = some j → j.serial < w.serial ∧ j.serial ∉ w.served
  inj : ∀ c c' j j', w.job c = some j → w.job c' = some j' → j.serial = j'.serial → c = c'
  served : ∀ s ∈ w.served, s < w.serial
  once : w.served.Nodup

section Counted
variable {w w' : World}

theorem Counted.congr (h : Counted w) (hserial : w'.serial = w.serial) (hlog : w'.log = w.log)
    (hjob : ∀ c j, w'.job c = some j → w.job c = some j) : Counted w' := by
  have hserved : w'.served = w.served := by rw [World.served, hlog, World.served]
  refine ⟨fun c j hj => ?_, fun c c' j j' hj hj' => h.inj c c' j j' (hjob c j hj) (hjob c' j' hj'), ?_, ?_⟩
  · rw [hserial, hserved]
    exact h.jobs c j (hjob c j hj)
  · rw [hserial, hserved]
    exact h.served
  · rw [hserved]
    exact h.once

theorem update_none {job : Id → Option Job} {c x : Id} {j : Job} (h : update job c none x = some j) : x ≠ c ∧ job x = some j := by
  by_cases hx : x = c
  · rw [hx] at h
    exact absurd h (by simp)
  · rw [update_of_ne hx] at h
    exact ⟨hx, h⟩

theorem Counted.schedule (h : Counted w) {c : Id} {j : Job} (hj : j.serial = w.serial) (hserial : w'.serial = w.serial + 1)
    (hlog : w'.log = w.log) (hjob : w'.job = update w.job c (some j)) : Counted w' := by
  have hserved : w'.served = w.served := by rw [World.served, hlog, World.served]
  have hcases (x : Id) (k : Job) (hk : w'.job x = some k) : (x = c ∧ k = j) ∨ (x ≠ c ∧ w.job x = some k) := by
    rw [hjob] at hk
    by_cases hx : x = c
    · rw [hx, update_self] at hk
      exact .inl ⟨hx, (some.inj hk).symm⟩
    · rw [update_of_ne hx] at hk
      exact .inr ⟨hx, hk⟩
  refine ⟨fun x k hk => ?_, fun x x' k k' hk hk' hs => ?_, fun s hs => ?_, hserved ▸ h.once⟩
  · rw [hserved]
    rcases hcases x k hk with ⟨-, rfl⟩ | ⟨-, hk⟩
    · refine ⟨by omega, fun hs => ?_⟩
      have := h.served _ hs
      omega
    · obtain ⟨hlt, hnot⟩ := h.jobs x k hk
      exact ⟨by omega, hnot⟩
  · rcases hcases x k hk with ⟨rfl, rfl⟩ | ⟨-, hk⟩ <;> rcases hcases x' k' hk' with ⟨rfl, rfl⟩ | ⟨-, hk'⟩
    · rfl
    · have := (h.jobs x' k' hk').1
      omega
    · have := (h.jobs x k hk).1
      omega
    · exact h.inj x x' k k' hk hk' hs
  · rw [hserved] at hs
    have := h.served s hs
    omega

theorem Counted.invoke (h : Counted w) {c : Id} {j : Job} {tick : Nat} (hj : w.job c = some j) (hserial : w'.serial = w.serial)
    (hlog : w'.log = ⟨c, some j, tick⟩ :: w.log) (hjob : w'.job = update w.job c none) : Counted w' := by
  have hserved : w'.served = j.serial :: w.served := by rw [World.served, hlog]; rfl
  obtain ⟨hlt, hnot⟩ := h.jobs c j hj
  refine ⟨fun x k hk => ?_, fun x x' k k' hk hk' => ?_, fun s hs => ?_, ?_⟩
  · rw [hjob] at hk
    obtain ⟨hne, hk⟩ := update_none hk
    obtain ⟨hklt, hknot⟩ := h.jobs x k hk
    rw [hserial, hserved]
    refine ⟨hklt, fun hs => ?_⟩
    rcases mem_cons.mp hs with hs | hs
    · exact hne (h.inj x c k j hk hj hs)
    · exact hknot hs
  · rw [hjob] at hk hk'
    exact h.inj x x' k k' (update_none hk).2 (update_none hk').2
  · rw [hserved] at hs
    rw [hserial]
    rcases mem_cons.mp hs with rfl | hs
    · exact hlt
    · exact h.served s hs
  · rw [hserved]
    exact nodup_cons.mpr ⟨hnot, h.once⟩

end Counted

structure Placed (w : World) (c : Id) (j : Job) : Prop where
  time : (w.cc.callouts c).cTime = BitVec.ofNat 32 (j.since + j.delay)
  delay : j.delay ≤ INT_MAX
  since : j.since ≤ w.now
  place : (c ∈ w.cc.ccTodo ∧ if w.softint = true then w.now ≤ j.due ∧ (j.running = false → j.since < w.now)
      else j.since = w.now ∧ j.running = false) ∨
    ∃ b, c ∈ w.cc.ccWheel b ∧ ∃ tick, w.now < tick ∧ tick ≤ j.since + j.delay ∧ b ∈ dumped (BitVec.ofNat 32 tick)

structure Inv (w : World) : Prop where
  ticks : w.cc.ccTicks = BitVec.ofNat 32 w.now
  queued : Queued w.cc
  idle : ∀ c, (w.cc.callouts c).pending = false → w.job c = none ∧ ¬w.cc.OnQueue c
  placed : ∀ c, (w.cc.callouts c).pending = true → ∃ j, w.job c = some j ∧ Placed w c j
  counted : Counted w
  log : ∀ i ∈ w.log, ∃ j, i.job = some j ∧ i.tick = j.due

section Inv
variable {w w' : World} {c : Id} {j : Job}

theorem Job.le_due (j : Job) : j.since + j.delay ≤ j.due := by
  unfold Job.due
  split <;> omega

theorem Placed.congr (h : Placed w c j) (hnow : w'.now = w.now) (hsoft : w'.softint = w.softint)
    (htime : (w'.cc.callouts c).cTime = (w.cc.callouts c).cTime) (htodo : c ∈ w.cc.ccTodo → c ∈ w'.cc.ccTodo)
    (hwheel : ∀ b, c ∈ w.cc.ccWheel b → c ∈ w'.cc.ccWheel b) : Placed w' c j := by
  refine ⟨htime.trans h.time, h.delay, hnow ▸ h.since, ?_⟩
  rw [hnow, hsoft]
  rcases h.place with ⟨hc, hin⟩ | ⟨b, hc, hin⟩
  · exact .inl ⟨htodo hc, hin⟩
  · exact .inr ⟨b, hwheel b hc, hin⟩

theorem placed_todo (htodo : c ∈ w.cc.ccTodo) (htime : (w.cc.callouts c).cTime = BitVec.ofNat 32 (w.now + j.delay))
    (hd : j.delay ≤ INT_MAX) (hsince : j.since = w.now) (hrun : j.running = w.softint) : Placed w c j := by
  refine ⟨hsince ▸ htime, hd, hsince.le, .inl ⟨htodo, ?_⟩⟩
  split
  · next hs =>
    have := j.le_due
    refine ⟨by omega, fun hr => ?_⟩
    rw [hrun, hs] at hr
    exact absurd hr (by simp)
  · next hs => exact ⟨hsince, hrun.trans (by simpa using hs)⟩

/-! ### Scheduling -/

/-- The queues after a callout was scheduled. -/
def CalloutCpu.requeue (cc : CalloutCpu) (c : Id) (toTicks : BitVec 32) : CalloutCpu :=
  if (cc.callouts c).pending then
    if (toTicks + cc.ccTicks - (cc.callouts c).cTime).toInt < 0 then
      {cc.remove c with ccTodo := (cc.remove c).ccTodo ++ [c]}
    else cc
  else {cc with ccTodo := cc.ccTodo ++ [c]}

theorem scheduleLocked_eq (cc : CalloutCpu) (c : Id) (toTicks : BitVec 32) : cc.scheduleLocked c toTicks =
    (cc.requeue c toTicks).setCallout c {cc.callouts c with
      cTime := toTicks + cc.ccTicks, pending := true, fired := false, invoking := false} := by
  unfold CalloutCpu.scheduleLocked CalloutCpu.requeue
  simp only
  by_cases hp : (cc.callouts c).pending = true
  · split_ifs <;> simp only [CalloutCpu.setCallout, hp]
  · rw [if_neg hp, if_neg hp]

theorem requeue_others (cc : CalloutCpu) {c x : Id} (toTicks : BitVec 32) (hx : x ≠ c) :
    (x ∈ (cc.requeue c toTicks).ccTodo ↔ x ∈ cc.ccTodo) ∧ ∀ b, x ∈ (cc.requeue c toTicks).ccWheel b ↔ x ∈ cc.ccWheel b := by
  unfold CalloutCpu.requeue
  split_ifs
  · simp [CalloutCpu.remove, hx]
  · exact ⟨.rfl, fun _ => .rfl⟩
  · simp [hx]

theorem requeue_fields (cc : CalloutCpu) (c : Id) (toTicks : BitVec 32) : (cc.requeue c toTicks).callouts = cc.callouts ∧
    (cc.requeue c toTicks).ccTicks = cc.ccTicks := by
  unfold CalloutCpu.requeue
  split_ifs <;> exact ⟨rfl, rfl⟩

theorem Queued.requeue {cc : CalloutCpu} (h : Queued cc) (toTicks : BitVec 32)
    (hidle : (cc.callouts c).pending = false → ¬cc.OnQueue c) : Queued (cc.requeue c toTicks) := by
  unfold CalloutCpu.requeue
  split_ifs with hp
  · apply (h.remove c).insert
    rw [onQueue_remove]
    exact fun hc => hc.1 rfl
  · exact h
  · exact h.insert (hidle (by simpa using hp))

section
variable (h : Inv w)
include h

theorem requeue_place {d : Nat} (hd : d ≤ INT_MAX) :
    c ∈ (w.cc.requeue c (BitVec.ofNat 32 d)).ccTodo ∨ ∃ b, c ∈ (w.cc.requeue c (BitVec.ofNat 32 d)).ccWheel b ∧
      ∃ tick, w.now < tick ∧ tick ≤ w.now + d ∧ b ∈ dumped (BitVec.ofNat 32 tick) := by
  unfold CalloutCpu.requeue
  split_ifs with hp hdiff
  · exact .inl (by simp)
  · obtain ⟨j, -, hj⟩ := h.placed c hp
    rcases hj.place with ⟨hc, -⟩ | ⟨b, hc, tick, hlt, hle, hb⟩
    · exact .inl hc
    have hmax : INT_MAX = 2147483647 := rfl
    have hdelay := hj.delay
    have hsince := hj.since
    rw [hj.time, h.ticks, ← BitVec.ofNat_add, Serial.toInt_sub_ofNat (by omega) (by omega)] at hdiff
    exact .inr ⟨b, hc, tick, hlt, by omega, hb⟩
  · exact .inl (by simp)

theorem Inv.scheduled (c : Id) {d : Nat} (hd : d ≤ INT_MAX) : Inv (w.scheduled w.cc c d) := by
  obtain ⟨hcall, hticks⟩ := requeue_fields w.cc c (BitVec.ofNat 32 d)
  have hcc := scheduleLocked_eq w.cc c (BitVec.ofNat 32 d)
  have htime : BitVec.ofNat 32 d + w.cc.ccTicks = BitVec.ofNat 32 (w.now + d) := by
    rw [h.ticks, ← BitVec.ofNat_add, add_comm]
  have hother (x : Id) (hx : x ≠ c) : (w.cc.scheduleLocked c (BitVec.ofNat 32 d)).callouts x = w.cc.callouts x := by
    rw [hcc, CalloutCpu.setCallout]
    simp only
    rw [update_of_ne hx, hcall]
  have hself : (w.cc.scheduleLocked c (BitVec.ofNat 32 d)).callouts c = {w.cc.callouts c with
      cTime := BitVec.ofNat 32 d + w.cc.ccTicks, pending := true, fired := false, invoking := false} := by
    rw [hcc, CalloutCpu.setCallout]
    simp only
    rw [update_self]
  have hqueue : (w.cc.scheduleLocked c (BitVec.ofNat 32 d)).ccTodo = (w.cc.requeue c (BitVec.ofNat 32 d)).ccTodo ∧
      (w.cc.scheduleLocked c (BitVec.ofNat 32 d)).ccWheel = (w.cc.requeue c (BitVec.ofNat 32 d)).ccWheel := by
    rw [hcc]
    exact ⟨rfl, rfl⟩
  have hq := h.queued.requeue (BitVec.ofNat 32 d) fun hp => (h.idle c hp).2
  refine ⟨?_, ?_, fun x hp => ?_, fun x hp => ?_, ?_, h.log⟩
  · show (w.cc.scheduleLocked c (BitVec.ofNat 32 d)).ccTicks = _
    rw [hcc]
    exact hticks.trans h.ticks
  · exact ⟨hqueue.1 ▸ hq.todo, hqueue.2 ▸ hq.wheel, hqueue.1 ▸ hqueue.2 ▸ hq.apart, hqueue.2 ▸ hq.single⟩
  · have hx : x ≠ c := by
      rintro rfl
      rw [show ((w.scheduled w.cc x d).cc.callouts x).pending = true from congrArg CalloutImpl.pending hself] at hp
      exact absurd hp (by simp)
    rw [show (w.scheduled w.cc c d).cc.callouts x = w.cc.callouts x from hother x hx] at hp
    obtain ⟨hjob, hnot⟩ := h.idle x hp
    obtain ⟨htodo, hwheel⟩ := requeue_others w.cc (BitVec.ofNat 32 d) hx
    refine ⟨(update_of_ne hx _ _).trans hjob, ?_⟩
    rintro (hmem | ⟨b, hmem⟩)
    · exact hnot (.inl (htodo.mp (hqueue.1 ▸ hmem)))
    · exact hnot (.inr ⟨b, (hwheel b).mp (hqueue.2 ▸ hmem)⟩)
  · by_cases hx : x = c
    · subst hx
      refine ⟨_, update_self _ _ _, ?_⟩
      have htime' : ((w.scheduled w.cc x d).cc.callouts x).cTime = BitVec.ofNat 32 (w.now + d) :=
        (congrArg CalloutImpl.cTime hself).trans htime
      rcases @requeue_place w x h d hd with hmem | ⟨b, hmem, hin⟩
      · exact placed_todo (hqueue.1 ▸ hmem) htime' hd rfl rfl
      · exact ⟨htime', hd, le_refl _, .inr ⟨b, hqueue.2 ▸ hmem, hin⟩⟩
    · rw [show (w.scheduled w.cc c d).cc.callouts x = w.cc.callouts x from hother x hx] at hp
      obtain ⟨j, hj, hplaced⟩ := h.placed x hp
      obtain ⟨htodo, hwheel⟩ := requeue_others w.cc (BitVec.ofNat 32 d) hx
      refine ⟨j, (update_of_ne hx _ _).trans hj, ?_⟩
      exact hplaced.congr rfl rfl (congrArg CalloutImpl.cTime (hother x hx)) (fun hm => hqueue.1 ▸ htodo.mpr hm)
        fun b hm => hqueue.2 ▸ (hwheel b).mpr hm
  · exact h.counted.schedule rfl rfl rfl rfl

theorem Inv.congr {cc : CalloutCpu} (hticks : cc.ccTicks = w.cc.ccTicks) (htodo : cc.ccTodo = w.cc.ccTodo)
    (hwheel : cc.ccWheel = w.cc.ccWheel) (hcall : ∀ c, (cc.callouts c).pending = (w.cc.callouts c).pending ∧
      (cc.callouts c).cTime = (w.cc.callouts c).cTime) : Inv {w with cc := cc} := by
  have hon (c : Id) : cc.OnQueue c ↔ w.cc.OnQueue c := by
    unfold CalloutCpu.OnQueue
    rw [htodo, hwheel]
  refine ⟨hticks.trans h.ticks, ⟨htodo ▸ h.queued.todo, hwheel ▸ h.queued.wheel, htodo ▸ hwheel ▸ h.queued.apart,
    hwheel ▸ h.queued.single⟩, fun c hp => ?_, fun c hp => ?_, h.counted.congr rfl rfl fun _ _ hj => hj, h.log⟩
  · obtain ⟨hjob, hnot⟩ := h.idle c ((hcall c).1 ▸ hp)
    exact ⟨hjob, fun hmem => hnot ((hon c).mp hmem)⟩
  · obtain ⟨j, hj, hplaced⟩ := h.placed c ((hcall c).1 ▸ hp)
    exact ⟨j, hj, hplaced.congr rfl rfl (hcall c).2 (fun hm => htodo ▸ hm) fun b hm => hwheel ▸ hm⟩

theorem Inv.cancel (hw' : w'.now = w.now ∧ w'.softint = w.softint ∧ w'.job = update w.job c none)
    (hticks : w'.cc.ccTicks = w.cc.ccTicks) (hq : Queued w'.cc) (htodo : ∀ x, x ∈ w'.cc.ccTodo ↔ x ≠ c ∧ x ∈ w.cc.ccTodo)
    (hwheel : ∀ x b, x ∈ w'.cc.ccWheel b ↔ x ≠ c ∧ x ∈ w.cc.ccWheel b)
    (hcall : ∀ x, x ≠ c → w'.cc.callouts x = w.cc.callouts x) (hc : (w'.cc.callouts c).pending = false)
    (hcounted : Counted w') (hlog : ∀ i ∈ w'.log, ∃ j, i.job = some j ∧ i.tick = j.due) : Inv w' := by
  obtain ⟨hnow, hsoft, hjob⟩ := hw'
  refine ⟨by rw [hnow, hticks, h.ticks], hq, fun x hp => ?_, fun x hp => ?_, hcounted, hlog⟩
  · rw [hjob]
    by_cases hx : x = c
    · subst hx
      refine ⟨update_self _ _ _, ?_⟩
      rintro (hm | ⟨b, hm⟩)
      · exact ((htodo x).mp hm).1 rfl
      · exact ((hwheel x b).mp hm).1 rfl
    rw [hcall x hx] at hp
    obtain ⟨hj, hnot⟩ := h.idle x hp
    refine ⟨(update_of_ne hx _ _).trans hj, ?_⟩
    rintro (hm | ⟨b, hm⟩)
    · exact hnot (.inl ((htodo x).mp hm).2)
    · exact hnot (.inr ⟨b, ((hwheel x b).mp hm).2⟩)
  · have hx : x ≠ c := by
      rintro rfl
      exact Bool.false_ne_true (hc.symm.trans hp)
    rw [hcall x hx] at hp
    obtain ⟨j, hj, hplaced⟩ := h.placed x hp
    refine ⟨j, hjob ▸ (update_of_ne hx _ _).trans hj, ?_⟩
    exact hplaced.congr hnow hsoft (by rw [hcall x hx]) (fun hm => (htodo x).mpr ⟨hx, hm⟩) fun b hm => (hwheel x b).mpr ⟨hx, hm⟩

theorem Inv.stop (c : Id) : Inv {w with cc := (w.cc.stop c).1, job := update w.job c none} := by
  have hcc : ∃ q : CalloutCpu, q = (if (w.cc.callouts c).pending then w.cc.remove c else w.cc) ∧
      (w.cc.stop c).1.ccTicks = q.ccTicks ∧ (w.cc.stop c).1.ccTodo = q.ccTodo ∧ (w.cc.stop c).1.ccWheel = q.ccWheel ∧
      (w.cc.stop c).1.callouts = update q.callouts c {w.cc.callouts c with pending := false, fired := false} := by
    refine ⟨_, rfl, ?_⟩
    unfold CalloutCpu.stop
    simp only
    split_ifs <;> exact ⟨rfl, rfl, rfl, rfl⟩
  obtain ⟨q, hq, hticks, htodo, hwheel, hcall⟩ := hcc
  have hspec : Queued q ∧ q.ccTicks = w.cc.ccTicks ∧ q.callouts = w.cc.callouts ∧
      (∀ x, x ∈ q.ccTodo ↔ x ≠ c ∧ x ∈ w.cc.ccTodo) ∧ ∀ x b, x ∈ q.ccWheel b ↔ x ≠ c ∧ x ∈ w.cc.ccWheel b := by
    subst hq
    by_cases hp : (w.cc.callouts c).pending = true
    · rw [if_pos hp]
      refine ⟨h.queued.remove c, rfl, rfl, fun x => ?_, fun x b => ?_⟩ <;>
        simp [CalloutCpu.remove, and_comm]
    rw [if_neg hp]
    have hnot := (h.idle c (by simpa using hp)).2
    refine ⟨h.queued, rfl, rfl, fun x => ⟨fun hm => ⟨?_, hm⟩, fun hm => hm.2⟩, fun x b => ⟨fun hm => ⟨?_, hm⟩, fun hm => hm.2⟩⟩
    · rintro rfl
      exact hnot (.inl hm)
    · rintro rfl
      exact hnot (.inr ⟨b, hm⟩)
  obtain ⟨hqueued, hqticks, hqcall, hqtodo, hqwheel⟩ := hspec
  refine h.cancel ⟨rfl, rfl, rfl⟩ (hticks.trans hqticks) ⟨htodo ▸ hqueued.todo, hwheel ▸ hqueued.wheel,
    htodo ▸ hwheel ▸ hqueued.apart, hwheel ▸ hqueued.single⟩ (fun x => htodo ▸ hqtodo x) (fun x b => hwheel ▸ hqwheel x b)
    (fun x hx => ?_) ?_ (h.counted.congr rfl rfl fun x j hj => (update_none hj).2) h.log
  · rw [hcall, update_of_ne hx, hqcall]
  · rw [hcall, update_self]

theorem Inv.hardclock (hsoft : w.softint = false) : Inv {w with cc := w.cc.hardclock.1, softint := w.cc.hardclock.2, now := w.now + 1} := by
  have hticks : w.cc.ccTicks + 1 = BitVec.ofNat 32 (w.now + 1) := by
    rw [h.ticks, BitVec.ofNat_add]
    rfl
  have hq₀ : Queued {w.cc with ccTicks := w.cc.ccTicks + 1} := ⟨h.queued.todo, h.queued.wheel, h.queued.apart, h.queued.single⟩
  obtain ⟨hq, hon, htodo, hwheel, hcall, hsame⟩ := dumps_spec (dumped (w.cc.ccTicks + 1)) hq₀
  rw [← hardclock_eq] at hq hon htodo hwheel hcall hsame
  refine ⟨hsame.trans hticks, hq, fun c hp => ?_, fun c hp => ?_, h.counted.congr rfl rfl fun _ _ hj => hj, h.log⟩
  · rw [hcall] at hp
    obtain ⟨hjob, hnot⟩ := h.idle c hp
    exact ⟨hjob, fun hm => hnot ((hon c).mp hm)⟩
  have hp' : (w.cc.callouts c).pending = true := by
    rw [hcall] at hp
    exact hp
  obtain ⟨j, hj, hplaced⟩ := h.placed c hp'
  refine ⟨j, hj, ⟨?_, hplaced.delay, Nat.le_succ_of_le hplaced.since, ?_⟩⟩
  · rw [hcall]
    exact hplaced.time
  have hle := j.le_due
  have hdue : w.now + 1 ≤ j.due ∧ (j.running = false → j.since < w.now + 1) := by
    have hs := hplaced.since
    rcases hplaced.place with ⟨-, hin⟩ | ⟨b, -, tick, hlt, htick, -⟩
    · rw [hsoft] at hin
      simp only [Bool.false_eq_true, if_false] at hin
      have : j.due = if j.delay = 0 ∧ j.running = false then j.since + 1 else j.since + j.delay := rfl
      by_cases hd : j.delay = 0
      · rw [if_pos ⟨hd, hin.2⟩] at this
        omega
      · omega
    · omega
  have hmem : w.cc.hardclock.1.OnQueue c := by
    rw [hon]
    rcases hplaced.place with ⟨hm, -⟩ | ⟨b, hm, -⟩
    · exact .inl hm
    · exact .inr ⟨b, hm⟩
  rcases hmem with hm | ⟨b, hm⟩
  · refine .inl ⟨hm, ?_⟩
    have hne : w.cc.hardclock.2 = true := by
      exact decide_eq_true (ne_nil_of_mem hm)
    simp only [hne, if_true]
    exact hdue
  -- It has not come round: a later tick moves it.
  obtain ⟨hnot, hold⟩ := hwheel b c hm
  rcases hplaced.place with ⟨hm', -⟩ | ⟨b', hm', tick, hlt, htick, hdump⟩
  · exact absurd hold (h.queued.apart c hm' b)
  obtain rfl := h.queued.single c b' b hm' hold
  refine .inr ⟨b', hm, tick, ?_, htick, hdump⟩
  have hne : tick ≠ w.now + 1 := by
    rintro rfl
    rw [hticks] at hnot
    exact hnot hdump
  show w.now + 1 < tick
  omega

end

/-! ### The soft interrupt -/

/-- The comparison of the callout's time with the tick says what their difference says. -/
def SignOk (w : World) : Act → Prop
  | .softclock => ∀ c ∈ w.cc.ccTodo.head?, (w.cc.callouts c).cTime.toInt - w.cc.ccTicks.toInt = ((w.cc.callouts c).cTime - w.cc.ccTicks).toInt
  | _ => True

theorem Inv.todo_job (h : Inv w) (hsoft : w.softint = true) (hc : c ∈ w.cc.ccTodo) :
    ∃ j, w.job c = some j ∧ (w.cc.callouts c).cTime = BitVec.ofNat 32 (j.since + j.delay) ∧ j.delay ≤ INT_MAX ∧
      j.since ≤ w.now ∧ w.now ≤ j.due ∧ (j.running = false → j.since < w.now) := by
  have hp : (w.cc.callouts c).pending = true := by
    by_contra hnot
    exact (h.idle c (by simpa using hnot)).2 (.inl hc)
  obtain ⟨j, hj, hplaced⟩ := h.placed c hp
  refine ⟨j, hj, hplaced.time, hplaced.delay, hplaced.since, ?_⟩
  rcases hplaced.place with ⟨-, hin⟩ | ⟨b, hm, -⟩
  · rw [if_pos hsoft] at hin
    exact hin
  · exact absurd hm (h.queued.apart c hc b)

theorem Inv.file (h : Inv w) {rest : List Id} (htodo : w.cc.ccTodo = c :: rest) (hj : w.job c = some j)
    (htime : (w.cc.callouts c).cTime = BitVec.ofNat 32 (j.since + j.delay)) (hd : j.delay ≤ INT_MAX) (hs : j.since ≤ w.now)
    (hlt : w.now < j.since + j.delay) : Inv {w with cc := {w.cc with
      ccTodo := rest
      ccWheel := update w.cc.ccWheel (bucket (((j.since + j.delay : Nat) : Int) - w.now) (w.cc.callouts c).cTime)
        (w.cc.ccWheel (bucket (((j.since + j.delay : Nat) : Int) - w.now) (w.cc.callouts c).cTime) ++ [c])}} := by
  obtain ⟨tick, hnow, hle, hdump⟩ := bucket_dumped hlt
  rw [← htime] at hdump
  generalize bucket (((j.since + j.delay : Nat) : Int) - w.now) (w.cc.callouts c).cTime = b at hdump ⊢
  have hmem (x : Id) (b' : Nat) : x ∈ update w.cc.ccWheel b (w.cc.ccWheel b ++ [c]) b' ↔
      x ∈ w.cc.ccWheel b' ∨ (b' = b ∧ x = c) := by
    by_cases hb : b' = b
    · subst hb
      simp
    · simp [hb]
  have hrest (x : Id) (hx : x ≠ c) : x ∈ w.cc.ccTodo ↔ x ∈ rest := by
    rw [htodo]
    simp [hx]
  have hpend : (w.cc.callouts c).pending = true := by
    by_contra hnot
    exact (h.idle c (by simpa using hnot)).2 (.inl (htodo ▸ mem_cons_self))
  refine ⟨h.ticks, h.queued.file htodo b, fun x hp => ?_, fun x hp => ?_, h.counted.congr rfl rfl fun _ _ hj => hj, h.log⟩
  · have hx : x ≠ c := by
      rintro rfl
      exact Bool.false_ne_true (hp.symm.trans hpend)
    obtain ⟨hjob, hnot⟩ := h.idle x hp
    refine ⟨hjob, ?_⟩
    rintro (hm | ⟨b', hm⟩)
    · exact hnot (.inl ((hrest x hx).mpr hm))
    rcases (hmem x b').mp hm with hm | ⟨-, hxc⟩
    · exact hnot (.inr ⟨b', hm⟩)
    · exact hx hxc
  · by_cases hx : x = c
    · subst hx
      exact ⟨j, hj, htime, hd, hs, .inr ⟨b, (hmem x b).mpr (.inr ⟨rfl, rfl⟩), tick, hnow, hle, hdump⟩⟩
    · obtain ⟨j', hj', hplaced⟩ := h.placed x hp
      exact ⟨j', hj', hplaced.congr rfl rfl rfl (fun hm => (hrest x hx).mp hm) fun b' hm => (hmem x b').mpr (.inl hm)⟩

theorem Inv.softclock (h : Inv w) (hsign : SignOk w .softclock) (hs : w.next .softclock = some w') : Inv w' := by
  simp only [World.next] at hs
  split_ifs at hs with hoff hempty
  · -- The work list is empty: the soft interrupt returns.
    obtain rfl := some.inj hs
    refine ⟨h.ticks, h.queued, h.idle, fun c hp => ?_, h.counted.congr rfl rfl fun _ _ hj => hj, h.log⟩
    obtain ⟨j, hj, hplaced⟩ := h.placed c hp
    refine ⟨j, hj, hplaced.time, hplaced.delay, hplaced.since, ?_⟩
    rcases hplaced.place with ⟨hm, -⟩ | hwheel
    · rw [hempty] at hm
      exact absurd hm not_mem_nil
    · exact .inr hwheel
  push Not at hoff
  have hsoft : w.softint = true := by simpa using hoff.1
  cases htodo : w.cc.ccTodo with
  | nil => exact absurd htodo hempty
  | cons c rest =>
    have hmem : c ∈ w.cc.ccTodo := htodo ▸ mem_cons_self
    obtain ⟨j, hj, htime, hd, hsince, hdue, hearly⟩ := h.todo_job hsoft hmem
    have hmax : INT_MAX = 2147483647 := rfl
    have hlow : w.now ≤ j.since + j.delay + 1 := by
      unfold Job.due at hdue
      split at hdue <;> omega
    have hdiff : ((w.cc.callouts c).cTime - w.cc.ccTicks).toInt = ((j.since + j.delay : Nat) : Int) - w.now := by
      rw [htime, h.ticks]
      exact Serial.toInt_sub_ofNat (by omega) (by omega)
    have hcmp : (w.cc.callouts c).cTime.toInt - w.cc.ccTicks.toInt = ((j.since + j.delay : Nat) : Int) - w.now := by
      rw [← hdiff]
      exact hsign c (by rw [htodo]; rfl)
    unfold CalloutCpu.softclock at hs
    rw [htodo] at hs
    simp only at hs
    split_ifs at hs with hlater
    · obtain rfl := some.inj hs
      rw [hdiff]
      exact h.file htodo hj htime hd hsince (by omega)
    obtain rfl := some.inj hs
    -- It is due, and not late.
    have htick : w.now = j.due := by
      unfold Job.due at hdue ⊢
      split at hdue
      · next hzero =>
        have := hearly hzero.2
        rw [if_pos hzero]
        omega
      · next hzero =>
        rw [if_neg hzero]
        omega
    have hnodup := h.queued.todo
    rw [htodo, nodup_cons] at hnodup
    have hwheel := h.queued.apart c hmem
    refine h.cancel ⟨rfl, rfl, rfl⟩ rfl ⟨hnodup.2, h.queued.wheel,
      fun x hx => h.queued.apart x (htodo ▸ mem_cons_of_mem _ hx), h.queued.single⟩ (fun x => ?_) (fun x b => ?_)
      (fun x hx => update_of_ne hx _ _) (by simp [CalloutCpu.setCallout])
      (h.counted.invoke hj rfl (by rw [hj]) rfl) fun i hi => ?_
    · rw [htodo, mem_cons]
      constructor
      · intro hx
        refine ⟨?_, .inr hx⟩
        rintro rfl
        exact hnodup.1 hx
      · rintro ⟨hne, hx | hx⟩
        · exact absurd hx hne
        · exact hx
    · refine ⟨fun hx => ⟨?_, hx⟩, fun hx => hx.2⟩
      rintro rfl
      exact hwheel b hx
    · rcases mem_cons.mp hi with rfl | hi
      · exact ⟨j, hj, htick⟩
      · exact h.log i hi

theorem Inv.next {a : Act} (h : Inv w) (hsign : SignOk w a) (hs : w.next a = some w') : Inv w' := by
  cases a with
  | schedule c d =>
    simp only [World.next] at hs
    split at hs
    · next hd =>
      obtain rfl := some.inj hs
      exact h.scheduled c hd.1
    · exact absurd hs (by simp)
  | reset c d func =>
    simp only [World.next] at hs
    split at hs
    · next hd =>
      obtain rfl := some.inj hs
      have hset : Inv {w with cc := w.cc.setCallout c {w.cc.callouts c with cFunc := some func}} := by
        refine h.congr rfl rfl rfl fun x => ?_
        by_cases hx : x = c
        · subst hx
          simp [CalloutCpu.setCallout]
        · simp [CalloutCpu.setCallout, hx]
      exact hset.scheduled c hd
    · exact absurd hs (by simp)
  | stop c =>
    obtain rfl := some.inj hs
    exact h.stop c
  | hardclock =>
    simp only [World.next] at hs
    split at hs
    · exact absurd hs (by simp)
    · next hsoft =>
      obtain rfl := some.inj hs
      exact h.hardclock (by simpa using hsoft)
  | softclock => exact h.softclock hsign hs
  | funcReturn =>
    simp only [World.next] at hs
    split at hs
    · exact absurd hs (by simp)
    · obtain rfl := some.inj hs
      exact h.congr rfl rfl rfl fun x => ⟨rfl, rfl⟩

theorem reach_inv (h : calloutSystem.Reach SignOk w) : Inv w := by
  refine h.invariant (fun w hw => ?_) fun w a w' hinv hok hs => @Inv.next w w' a hinv hok hs
  obtain rfl : w = booted := hw
  refine ⟨rfl, ⟨nodup_nil, fun _ => nodup_nil, fun c hc => absurd hc not_mem_nil,
    fun c b b' hc => absurd hc not_mem_nil⟩, fun c _ => ⟨rfl, ?_⟩, fun c hp => absurd hp Bool.false_ne_true,
    ⟨fun c j hj => absurd hj (by simp [booted]), fun c c' j j' hj => absurd hj (by simp [booted]),
      fun s hs => absurd hs not_mem_nil, nodup_nil⟩, fun i hi => absurd hi not_mem_nil⟩
  rintro (hc | ⟨b, hc⟩)
  · exact absurd hc not_mem_nil
  · exact absurd hc not_mem_nil

/-- Callouts fire exactly once and when they are due, unless they are stopped or scheduled
anew before. -/
structure OnTime (w : World) : Prop where
  /-- What was invoked was scheduled, and the tick was right. -/
  invoked : ∀ i ∈ w.log, ∃ j, i.job = some j ∧ i.tick = j.due
  /-- No call was answered twice. -/
  once : w.served.Nodup
  /-- What waits has not been invoked, and its time has not gone by: it is still to come, or
  the `callout_softclock` that will invoke it is not done. -/
  waits : ∀ c j, w.job c = some j → j.serial ∉ w.served ∧ if w.softint = true then w.now ≤ j.due else w.now < j.due

theorem Placed.due (h : Placed w c j) : if w.softint = true then w.now ≤ j.due else w.now < j.due := by
  have hle := j.le_due
  rcases h.place with ⟨-, hin⟩ | ⟨b, -, tick, hlt, htick, -⟩
  · split
    · next hsoft =>
      rw [if_pos hsoft] at hin
      exact hin.1
    · next hsoft =>
      rw [if_neg hsoft] at hin
      unfold Job.due
      split <;> rename_i hzero
      · omega
      · have hd : j.delay ≠ 0 := fun hd => hzero ⟨hd, hin.2⟩
        omega
  · split <;> omega

/-- In every run in which no callout is looked at from the other side of `INT_MAX`, callouts
are on time. -/
theorem callouts_on_time (h : calloutSystem.Reach SignOk w) : OnTime w := by
  have hinv := reach_inv h
  refine ⟨hinv.log, hinv.counted.once, fun c j hj => ⟨(hinv.counted.jobs c j hj).2, ?_⟩⟩
  have hp : (w.cc.callouts c).pending = true := by
    by_contra hnot
    rw [(hinv.idle c (by simpa using hnot)).1] at hj
    exact absurd hj (by simp)
  obtain ⟨j', hj', hplaced⟩ := hinv.placed c hp
  obtain rfl : j' = j := some.inj (hj'.symm.trans hj)
  exact hplaced.due

end Inv

instance (w : World) : (a : Act) → Decidable (SignOk w a)
  | .softclock => inferInstanceAs (Decidable (∀ c ∈ w.cc.ccTodo.head?, _ = _))
  | .schedule _ _ | .reset _ _ _ | .stop _ | .hardclock | .funcReturn => inferInstanceAs (Decidable True)

/-- A callout with a delay of 2: filed at the next tick, invoked at the one after. -/
theorem callouts_on_time_two : ∃ w, calloutSystem.Reach SignOk w ∧ w.log = [⟨5, some ⟨0, 0, 2, false⟩, 2⟩] ∧ OnTime w := by
  have hrun : ((System.run (System.guarded SignOk World.next) booted
      [.reset 5 2 1, .hardclock, .softclock, .softclock, .hardclock, .softclock]).map World.log) = some [⟨5, some ⟨0, 0, 2, false⟩, 2⟩] := by
    decide
  obtain ⟨w, hw, hlog⟩ := Option.map_eq_some_iff.mp hrun
  have hreach := System.reach_run (· = booted) SignOk World.next booted _ rfl hw
  exact ⟨w, hreach, hlog, callouts_on_time hreach⟩

/-- Nothing but ticks has happened. -/
def ticked (n : Nat) : World := {booted with cc := {booted.cc with ccTicks := BitVec.ofNat 32 n}, now := n}

theorem dumps_empty {cc : CalloutCpu} (bs : List Nat) (htodo : cc.ccTodo = []) (hwheel : cc.ccWheel = fun _ => []) :
    bs.foldl CalloutCpu.dump cc = cc := by
  induction bs with
  | nil => rfl
  | cons b bs ih =>
    have hone : cc.dump b = cc := by
      obtain ⟨ticks, todo, wheel, active, cancel, callouts⟩ := cc
      obtain rfl : wheel = fun _ => [] := hwheel
      unfold CalloutCpu.dump
      simp
    rw [foldl_cons, hone]
    exact ih

theorem reachable_ticked (n : Nat) : calloutSystem.Reachable (ticked n) := by
  induction n with
  | zero => exact .init rfl
  | succ n ih =>
    have hticks : BitVec.ofNat 32 n + 1 = BitVec.ofNat 32 (n + 1) := (BitVec.ofNat_add n 1).symm
    have hcc : (ticked n).cc.hardclock.1 = (ticked (n + 1)).cc := by
      rw [hardclock_eq, dumps_empty _ rfl rfl]
      show CalloutCpu.mk (BitVec.ofNat 32 n + 1) _ _ _ _ _ = _
      rw [hticks]
      rfl
    have hwork : (ticked n).cc.hardclock.2 = false := by
      rw [show (ticked n).cc.hardclock.2 = decide ((ticked n).cc.hardclock.1.ccTodo ≠ []) from rfl, hcc]
      rfl
    refine .step ih trivial (a := .hardclock) ?_
    show some _ = some _
    rw [hcc, hwork]
    rfl

/-- One tick before `INT_MAX` a callout is scheduled for two ticks later. Its `c_time` is
negative, and at the next tick it is taken to be due. -/
theorem callout_fires_early : ¬∀ w, calloutSystem.Reachable w → OnTime w := by
  intro h
  have hrun : ((System.run (System.guarded (fun _ _ => True) World.next) (ticked (2 ^ 31 - 2))
      [.reset 5 2 1, .hardclock, .softclock]).map World.log) = some [⟨5, some ⟨0, 2 ^ 31 - 2, 2, false⟩, 2 ^ 31 - 1⟩] := by
    decide
  obtain ⟨w, hw, hlog⟩ := Option.map_eq_some_iff.mp hrun
  have hreach : calloutSystem.Reachable w :=
    System.Reach.run (reachable_ticked (2 ^ 31 - 2)) _ (fun _ _ _ _ _ hs => ⟨trivial, hs⟩) hw
  obtain ⟨j, hj, htick⟩ := (h w hreach).invoked ⟨5, some ⟨0, 2 ^ 31 - 2, 2, false⟩, 2 ^ 31 - 1⟩ (by rw [hlog]; exact mem_cons_self)
  obtain rfl := some.inj hj
  exact absurd htick (by decide)

end NetBSD.Kern.Callout
