import Mathlib.Tactic.Ring
import NetBSD.Kern.SubrTime
import NetBSD.Kern.SysMqueue.Mqueue

/-! The timed waits of `mq_recv1` and `mq_send1`.

Both loops have `ts2timo` convert the caller's `ts`, which it makes relative in place: a call that goes around again takes what was left
for a time since the epoch. Up to there (`Once`) no call gives up before its deadline, unless it is further than an `int` of ticks. -/
namespace NetBSD.Kern.SysMqueue
open SubrTime (Kernel Timespec INT_MAX)

/-- Once around a loop: what the queue is found to be, the clock at `ts2timo`, the answer of `cv_timedwait_sig`, whether the queue is
unlinked then, and the clock when it returns. -/
structure Round where
  ready : Bool
  nonblock : Bool
  now : Timespec
  error : Option Errno
  unlinked : Bool
  back : Timespec

/-- How far a call is: it still waits, has a queue that is ready, has left with an error (or with none) at a time, or came to no end. -/
inductive Waited where
  | waits
  | go
  | leaves (error : Option Errno) (time : Timespec)
  | stopped

/-- The loop; `woken` is what is made of the answer of the wait. -/
def waitLoop (k : Kernel) (woken : Option Errno → Option Errno) (ts : Timespec) : List Round → Waited
  | [] => .waits
  | r :: rest =>
    if r.ready then .go
    else if r.nonblock then .leaves (some .EAGAIN) r.now
    else
      match k.ts2timo r.now true ts with
      | .error .EINVAL => .leaves (some .EINVAL) r.now
      | .error .ETIMEDOUT => .leaves (some .ETIMEDOUT) r.now
      | .error .overflow => .stopped
      | .error .assertion => .stopped
      | .ok (_, ts) => if r.error.isSome ∨ r.unlinked then .leaves (woken r.error) r.back else waitLoop k woken ts rest

def recvWait (k : Kernel) : Timespec → List Round → Waited :=
  waitLoop k fun error => some (if error = some EWOULDBLOCK then .ETIMEDOUT else .EINTR)

def sendWait (k : Kernel) : Timespec → List Round → Waited :=
  waitLoop k fun error => if error = some EWOULDBLOCK then some .ETIMEDOUT else error

/-- What clock and condition variable promise: the time goes on, and a wait that is not woken or interrupted takes its ticks. -/
def Possible (k : Kernel) (ts : Timespec) (since : Int) : List Round → Prop
  | [] => True
  | r :: rest => since ≤ r.now.ns ∧ r.now.ns ≤ r.back.ns ∧ r.now.Valid ∧ r.error ∈ [none, some .EINTR, some .ERESTART, some EWOULDBLOCK] ∧
    ∀ t ts', k.ts2timo r.now true ts = .ok (t, ts') →
      (r.error = some EWOULDBLOCK → r.now.ns + t * (k.tick * 1000) ≤ r.back.ns) ∧ Possible k ts' r.back.ns rest

/-- The wait is gone into no more than once. -/
def Once (rounds : List Round) : Prop := ∀ r ∈ rounds.tail, r.ready = true ∨ r.nonblock = true

/-- The deadline is not further than the largest number of ticks. -/
def Near (k : Kernel) (ts : Timespec) (rounds : List Round) : Prop :=
  ∀ r ∈ rounds.head?, ts.ns - r.now.ns ≤ INT_MAX * (k.tick * 1000)

variable {k : Kernel} {now ts ts' : Timespec} {t : Int} {rounds : List Round}

theorem ts2timo_cases (h : k.Ok) :
    k.ts2timo now true ts = .error .overflow ∨ k.ts2timo now true ts = .error .EINVAL ∨ k.ts2timo now true ts = .error .assertion ∨
      (k.ts2timo now true ts = .error .ETIMEDOUT ∧ ts.ns ≤ now.ns) ∨
      ∃ t ts', k.ts2timo now true ts = .ok (t, ts') ∧ (t = INT_MAX ∨ ts.ns - now.ns ≤ t * (k.tick * 1000)) := by
  obtain ⟨hlo, -⟩ := h.tick_pos
  by_cases hno : k.NoOverflow now ts
  · obtain ⟨d, hd, hns, -⟩ := SubrTime.timespecsub_spec h hno
    rw [SubrTime.ts2timo_abstime hd]
    by_cases hvalid : d.Valid
    · by_cases hpast : d.ns ≤ 0
      · exact .inr (.inr (.inr (.inl ⟨SubrTime.ts2timo_past hvalid hpast, by omega⟩)))
      have hdns : d.ns = d.sec * 1000000000 + d.nsec := rfl
      obtain ⟨hnlo, hnhi⟩ := hvalid
      by_cases hsmall : d.sec = 0 ∧ d.nsec < k.tick * 1000
      · rw [SubrTime.ts2timo_small h hsmall.1 (by omega) hsmall.2 hnhi]
        split
        · exact .inr (.inr (.inl rfl))
        · exact .inr (.inr (.inr (.inr ⟨2, _, rfl, .inr (by omega)⟩)))
      have hbig : d.sec = 0 → k.tick * 1000 ≤ d.nsec := fun hzero => Int.not_lt.mp fun hlt => hsmall ⟨hzero, hlt⟩
      obtain ⟨t, ht, -, -, hcount⟩ := @SubrTime.ts2timo_count k now d h ⟨hnlo, hnhi⟩ (Int.not_le.mp hpast) hbig
      refine .inr (.inr (.inr (.inr ⟨t, d, ht, hcount.imp_right fun hcount => ?_⟩)))
      have hprod : t * (k.tick * 1000) = ((t - 1) * k.tick + k.tick) * 1000 := by ring
      omega
    · exact .inr (.inl (SubrTime.ts2timo_invalid hvalid))
  · refine .inl ?_
    rw [Kernel.ts2timo, SubrTime.timespecsub_overflow hno]
    rfl

theorem waitLoop_once {woken : Option Errno → Option Errno} {time : Timespec} (honce : ∀ r ∈ rounds, r.ready = true ∨ r.nonblock = true) :
    waitLoop k woken ts rounds ≠ .leaves (some .ETIMEDOUT) time := by
  cases rounds with
  | nil => exact fun heq => Waited.noConfusion heq
  | cons r rest =>
    rw [waitLoop]
    split
    · exact fun heq => Waited.noConfusion heq
    · next hready =>
      rw [if_pos ((honce r List.mem_cons_self).resolve_left hready)]
      exact fun heq => absurd (Waited.leaves.inj heq).1 (by decide)

theorem waitLoop_late {woken : Option Errno → Option Errno} {since : Int} {time : Timespec} (h : k.Ok)
    (hwoken : ∀ error ∈ [none, some .EINTR, some .ERESTART, some EWOULDBLOCK], woken error = some .ETIMEDOUT → error = some EWOULDBLOCK)
    (hpossible : Possible k ts since rounds) (honce : Once rounds) (hnear : Near k ts rounds)
    (hleaves : waitLoop k woken ts rounds = .leaves (some .ETIMEDOUT) time) : ts.ns ≤ time.ns := by
  cases rounds with
  | nil => cases hleaves
  | cons r rest =>
    obtain ⟨-, hback, -, herror, hlasts⟩ := hpossible
    rw [waitLoop] at hleaves
    split at hleaves
    · cases hleaves
    split at hleaves
    · exact absurd (Waited.leaves.inj hleaves).1 (by decide)
    obtain heq | heq | heq | ⟨heq, hlate⟩ | ⟨t, ts', heq, hcount⟩ := @ts2timo_cases k r.now ts h
    · rw [heq] at hleaves
      cases hleaves
    · rw [heq] at hleaves
      exact absurd (Waited.leaves.inj hleaves).1 (by decide)
    · rw [heq] at hleaves
      cases hleaves
    · rw [heq] at hleaves
      obtain ⟨-, rfl⟩ := Waited.leaves.inj hleaves
      exact hlate
    rw [heq] at hleaves
    dsimp only at hleaves
    split at hleaves
    · obtain ⟨hetimedout, rfl⟩ := Waited.leaves.inj hleaves
      have hwait := (hlasts t ts' heq).1 (hwoken r.error herror hetimedout)
      obtain rfl | hcount := hcount
      · have := hnear r rfl
        omega
      · omega
    · exact absurd hleaves (waitLoop_once honce)

/-- **Deadlines.** A call that goes into the wait no more than once, with a deadline that is not further than the largest number of ticks,
times out at its deadline or after it. -/
theorem times_out_late {since : Int} {time : Timespec} (h : k.Ok) (hpossible : Possible k ts since rounds) (honce : Once rounds)
    (hnear : Near k ts rounds)
    (hleaves : recvWait k ts rounds = .leaves (some .ETIMEDOUT) time ∨ sendWait k ts rounds = .leaves (some .ETIMEDOUT) time) :
    ts.ns ≤ time.ns := by
  obtain hleaves | hleaves := hleaves
  · exact waitLoop_late h (by decide) hpossible honce hnear hleaves
  · exact waitLoop_late h (by decide) hpossible honce hnear hleaves

/-- Nobody sends for the ten seconds up to the deadline. -/
def quiet : List Round := [⟨false, false, ⟨1000, 0⟩, some EWOULDBLOCK, false, ⟨1010, 10000000⟩⟩]

theorem times_out_late_ten : recvWait ⟨100, 10000, 64, true⟩ ⟨1010, 0⟩ quiet = .leaves (some .ETIMEDOUT) ⟨1010, 10000000⟩ ∧
    (⟨1010, 0⟩ : Timespec).ns ≤ (⟨1010, 10000000⟩ : Timespec).ns := by
  have hleaves : recvWait ⟨100, 10000, 64, true⟩ ⟨1010, 0⟩ quiet = .leaves (some .ETIMEDOUT) ⟨1010, 10000000⟩ := rfl
  have hpossible : Possible ⟨100, 10000, 64, true⟩ ⟨1010, 0⟩ 0 quiet := by
    refine ⟨by decide, by decide, by decide, by decide, fun t ts' heq => ?_⟩
    obtain ⟨rfl, rfl⟩ := Prod.mk.inj (Except.ok.inj heq)
    exact ⟨fun _ => by decide, trivial⟩
  refine ⟨hleaves, times_out_late ⟨by decide, by decide, .inr rfl⟩ hpossible ?_ ?_ (.inl hleaves)⟩
  · exact fun r hr => absurd hr List.not_mem_nil
  intro r hr
  obtain rfl := Option.some.inj hr
  decide

/-- A message comes after one of ten seconds and another process takes it. -/
def stolen : List Round :=
  [⟨false, false, ⟨1000, 0⟩, none, false, ⟨1001, 0⟩⟩, ⟨false, false, ⟨1001, 0⟩, none, false, ⟨1001, 0⟩⟩]

/-- The call times out at once. -/
theorem times_out_early : Possible ⟨100, 10000, 64, true⟩ ⟨1010, 0⟩ 0 stolen ∧
    recvWait ⟨100, 10000, 64, true⟩ ⟨1010, 0⟩ stolen = .leaves (some .ETIMEDOUT) ⟨1001, 0⟩ ∧
    sendWait ⟨100, 10000, 64, true⟩ ⟨1010, 0⟩ stolen = .leaves (some .ETIMEDOUT) ⟨1001, 0⟩ ∧
    (⟨1001, 0⟩ : Timespec).ns < (⟨1010, 0⟩ : Timespec).ns := by
  refine ⟨⟨by decide, by decide, by decide, by decide, fun t ts' heq => ⟨fun hblock => ?_, ?_⟩⟩, rfl, rfl, by decide⟩
  · cases hblock
  obtain ⟨rfl, rfl⟩ := Prod.mk.inj (Except.ok.inj heq)
  refine ⟨by decide, by decide, by decide, by decide, fun t ts' heq => ?_⟩
  cases heq

end NetBSD.Kern.SysMqueue
