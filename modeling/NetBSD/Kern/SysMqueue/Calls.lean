import NetBSD.Lib.System
import NetBSD.Kern.SysMqueue.Mqueue

/-! Calls on a message queue.

A call runs under the mutex of the queue up to where it waits on a condition variable or returns, and what it does
outside the mutex is a step of its own. A wait can end at any time, with or without an error. The log has, newest first,
what was put into the queue and taken from it, and which senders have left their wait without either an error or a place
in the queue. -/
namespace NetBSD.Kern.SysMqueue
open Function
open Lib

/-- How far a call is. `sending` has a message that is not in the queue, `sendFail` has one and an error, and `holding`
has one that was taken. -/
inductive Phase where
  | idle
  | sending (msg : MqMsg)
  | sendWait (msg : MqMsg)
  | sendFail (msg : MqMsg) (error : Errno)
  | sent (error : Option Errno) (notify : Option Nat)
  | recvWait
  | holding (msg : MqMsg)
  | received (error : Option Errno)
  deriving DecidableEq

inductive Event where
  | put (msg : MqMsg)
  | take (call : Nat) (msg : MqMsg)
  | quit (call : Nat)
  deriving DecidableEq

/-- The messages in the queue, in the order of their arrival. -/
def inQueue : List Event → List MqMsg
  | [] => []
  | .put msg :: log => inQueue log ++ [msg]
  | .take _ msg :: log => (inQueue log).erase msg
  | .quit _ :: log => inQueue log

/-- The limits that sysctl sets. -/
structure Limits where
  mqPrioMax : Nat
  mqMaxMsgsize : Nat

/-- `live` says whether the message that a call has allocated is still there. -/
structure World where
  limits : Limits
  linked : Bool
  mq : Mqueue
  phase : Nat → Phase
  live : Nat → Bool
  log : List Event

def World.goto (w : World) (c : Nat) (p : Phase) : World := { w with phase := update w.phase c p }

def sizeofMqMsg : Nat := 32

/-- The answer of `ts2timo`: there is no timeout or some time left, none left, or the time is not valid. -/
inductive Timo where
  | left
  | expired
  | invalid

/-- The answer of a look at the queue: to go on, to wait, or an error. -/
inductive Look where
  | go
  | wait
  | fail (error : Errno)

def look (attr : MqAttr) (ready : Bool) (timo : Timo) : Look :=
  if ready then .go
  else if attr.nonblock then .fail .EAGAIN
  else
    match timo with
    | .left => .wait
    | .expired => .fail .ETIMEDOUT
    | .invalid => .fail .EINVAL

/-- `mq_send1` before it has the queue. -/
def sendStart (w : World) (c prio : Nat) (data : List (BitVec 8)) (fault : Bool) : World :=
  if prio ≥ w.limits.mqPrioMax then w.goto c (.sent (some .EINVAL) none)
  else if (sizeofMqMsg + data.length) % 2 ^ 64 > w.limits.mqMaxMsgsize then w.goto c (.sent (some .EMSGSIZE) none)
  else
    let msg : MqMsg := ⟨c, prio, data⟩
    { w with live := update w.live c true }.goto c (if fault then .sendFail msg .EFAULT else .sending msg)

/-- From the test whether the queue is full. -/
def sendLoop (w : World) (c : Nat) (msg : MqMsg) (timo : Timo) : World :=
  match look w.mq.mqAttrib (decide (w.mq.mqAttrib.mqCurmsgs < w.mq.mqAttrib.mqMaxmsg)) timo with
  | .go => { w with mq := (send w.mq msg).1, log := .put msg :: w.log }.goto c (.sent none (send w.mq msg).2)
  | .wait => w.goto c (.sendWait msg)
  | .fail error => w.goto c (.sendFail msg error)

/-- `found` says whether the descriptor is one of a queue that can be written. -/
def sendEnter (w : World) (c : Nat) (msg : MqMsg) (found : Bool) (timo : Timo) : World :=
  if found = false then w.goto c (.sendFail msg .EBADF)
  else if msg.msgPtr.length = 0 ∨ msg.msgPtr.length > w.mq.mqAttrib.mqMsgsize then w.goto c (.sendFail msg .EMSGSIZE)
  else sendLoop w c msg timo

/-- `error` is the answer of the wait. Only an error frees the message. -/
def sendWake (w : World) (c : Nat) (msg : MqMsg) (error : Option Errno) (timo : Timo) : World :=
  if error.isSome ∨ w.mq.mqAttrib.unlinked then
    match if error = some EWOULDBLOCK then some .ETIMEDOUT else error with
    | some error => w.goto c (.sendFail msg error)
    | none => { w with log := .quit c :: w.log }.goto c (.sent none none)
  else sendLoop w c msg timo

/-- The message is freed, and the call returns. -/
def sendFree (w : World) (c : Nat) (msg : MqMsg) (error : Errno) : World :=
  { w with live := update w.live msg.id false }.goto c (.sent (some error) none)

def World.setReceive (w : World) (receive : Bool) : World :=
  { w with mq := { w.mq with mqAttrib := { w.mq.mqAttrib with receive := receive } } }

/-- From the test whether the queue is empty. -/
def recvLoop (w : World) (c : Nat) (timo : Timo) : Option World :=
  match look w.mq.mqAttrib (decide (w.mq.mqAttrib.mqCurmsgs ≠ 0)) timo with
  | .go => (receive w.mq).map fun r => { w with mq := r.2, log := .take c r.1 :: w.log }.goto c (.holding r.1)
  | .wait => some ((w.setReceive true).goto c .recvWait)
  | .fail error => some (w.goto c (.received (some error)))

def recvEnter (w : World) (c msgLen : Nat) (found : Bool) (timo : Timo) : Option World :=
  if found = false then some (w.goto c (.received (some .EBADF)))
  else if msgLen < w.mq.mqAttrib.mqMsgsize then some (w.goto c (.received (some .EMSGSIZE)))
  else recvLoop w c timo

def recvWake (w : World) (c : Nat) (error : Option Errno) (timo : Timo) : Option World :=
  let w := w.setReceive false
  if error.isSome ∨ w.mq.mqAttrib.unlinked then
    some (w.goto c (.received (some (if error = some EWOULDBLOCK then .ETIMEDOUT else .EINTR))))
  else recvLoop w c timo

/-- The message is copied out and freed, in this order, whether or not the copy fails. -/
def recvOut (w : World) (c : Nat) (msg : MqMsg) (fault : Bool) : World :=
  { w with live := update w.live msg.id false }.goto c (.received (if fault then some .EFAULT else none))

/-- The waiters are woken, which they can be at any time. -/
def mqUnlink (w : World) (allowed : Bool) : World :=
  if w.linked ∧ allowed then
    { w with linked := false, mq := { w.mq with mqAttrib := { w.mq.mqAttrib with unlinked := true } } }
  else w

inductive Label where
  | sysctl (limits : Limits)
  | setattr (nonblock : Bool)
  | notify (proc : Option Nat)
  | unlink (allowed : Bool)
  | sendStart (c prio : Nat) (data : List (BitVec 8)) (fault : Bool)
  | sendEnter (c : Nat) (found : Bool) (timo : Timo)
  | sendWake (c : Nat) (error : Option Errno) (timo : Timo)
  | sendFree (c : Nat)
  | recvEnter (c msgLen : Nat) (found : Bool) (timo : Timo)
  | recvWake (c : Nat) (error : Option Errno) (timo : Timo)
  | recvOut (c : Nat) (fault : Bool)

/-- A step of a call, from the phase it is in, or of somebody else. -/
def next (w : World) : Label → Option World
  | .sysctl limits => some { w with limits := limits }
  | .setattr nonblock => some { w with mq := { w.mq with mqAttrib := { w.mq.mqAttrib with nonblock := nonblock } } }
  | .notify proc => some { w with mq := { w.mq with mqNotifyProc := proc } }
  | .unlink allowed => some (mqUnlink w allowed)
  | .sendStart c prio data fault =>
    match w.phase c with
    | .idle => some (sendStart w c prio data fault)
    | _ => none
  | .sendEnter c found timo =>
    match w.phase c with
    | .sending msg => some (sendEnter w c msg found timo)
    | _ => none
  | .sendWake c error timo =>
    match w.phase c with
    | .sendWait msg => some (sendWake w c msg error timo)
    | _ => none
  | .sendFree c =>
    match w.phase c with
    | .sendFail msg error => some (sendFree w c msg error)
    | _ => none
  | .recvEnter c msgLen found timo =>
    match w.phase c with
    | .idle => recvEnter w c msgLen found timo
    | _ => none
  | .recvWake c error timo =>
    match w.phase c with
    | .recvWait => recvWake w c error timo
    | _ => none
  | .recvOut c fault =>
    match w.phase c with
    | .holding msg => some (recvOut w c msg fault)
    | _ => none

/-- A queue that was made with these limits. -/
def created (attr : MqAttr) (limits : Limits) : World :=
  ⟨limits, true, ⟨{ attr with unlinked := false, receive := false, mqCurmsgs := 0 }, none, fun _ => [], 0⟩, fun _ => .idle,
    fun _ => false, []⟩

def init (w : World) : Prop := ∃ attr limits, w = created attr limits

def system : System World Label := .ofStep init next

/-! ### What a step does -/

/-- The same messages, places and limit. -/
structure SameQueue (mq mq' : Mqueue) : Prop where
  head : mq'.mqHead = mq.mqHead
  bitmap : mq'.mqBitmap = mq.mqBitmap
  curmsgs : mq'.mqAttrib.mqCurmsgs = mq.mqAttrib.mqCurmsgs
  maxmsg : mq'.mqAttrib.mqMaxmsg = mq.mqAttrib.mqMaxmsg

theorem SameQueue.refl (mq : Mqueue) : SameQueue mq mq := ⟨rfl, rfl, rfl, rfl⟩

/-- The message of a sender that is not in the queue. -/
def Phase.sends : Phase → Option MqMsg
  | .sending msg => some msg
  | .sendWait msg => some msg
  | .sendFail msg _ => some msg
  | _ => none

/-- What a step can be: somebody else's; a refusal; an allocation; a sender that has looked, put its message, left it or
freed it; a receiver that has looked, taken a message or freed it. -/
inductive Move (w w' : World) : Prop where
  | other : SameQueue w.mq w'.mq → w'.phase = w.phase → w'.live = w.live → w'.log = w.log → Move w w'
  | refuse (c : Nat) (error : Errno) : w.phase c = .idle → w' = w.goto c (.sent (some error) none) → Move w w'
  | alloc (c : Nat) (msg : MqMsg) (p : Phase) : w.phase c = .idle → msg.id = c → p.sends = some msg →
      w' = { w with live := update w.live c true }.goto c p → Move w w'
  | look (c : Nat) (msg : MqMsg) (p : Phase) : (w.phase c).sends = some msg → p.sends = some msg → w' = w.goto c p → Move w w'
  | put (c : Nat) (msg : MqMsg) : (w.phase c).sends = some msg → w.mq.mqAttrib.mqCurmsgs < w.mq.mqAttrib.mqMaxmsg →
      w' = { w with mq := (send w.mq msg).1, log := .put msg :: w.log }.goto c (.sent none (send w.mq msg).2) → Move w w'
  | quit (c : Nat) (msg : MqMsg) : w.phase c = .sendWait msg → w.mq.mqAttrib.unlinked = true →
      w' = { w with log := .quit c :: w.log }.goto c (.sent none none) → Move w w'
  | free (c : Nat) (msg : MqMsg) (error : Errno) : w.phase c = .sendFail msg error →
      w' = { w with live := update w.live msg.id false }.goto c (.sent (some error) none) → Move w w'
  | wait (c : Nat) (receive : Bool) : w.phase c = .idle ∨ w.phase c = .recvWait → w' = (w.setReceive receive).goto c .recvWait → Move w w'
  | fail (c : Nat) (receive : Bool) (error : Errno) : w.phase c = .idle ∨ w.phase c = .recvWait → error ≠ .EFAULT →
      w' = (w.setReceive receive).goto c (.received (some error)) → Move w w'
  | take (c : Nat) (msg : MqMsg) (mq mq' : Mqueue) : w.phase c = .idle ∨ w.phase c = .recvWait → SameQueue w.mq mq →
      mq.mqAttrib.mqCurmsgs ≠ 0 → receive mq = some (msg, mq') →
      w' = { w with mq := mq', log := .take c msg :: w.log }.goto c (.holding msg) → Move w w'
  | out (c : Nat) (msg : MqMsg) (fault : Bool) : w.phase c = .holding msg →
      w' = { w with live := update w.live msg.id false }.goto c (.received (if fault then some .EFAULT else none)) →
      Move w w'

theorem look_cases (attr : MqAttr) (ready : Bool) (timo : Timo) : look attr ready timo = .go ∧ ready = true ∨ look attr ready timo = .wait ∨
      ∃ error, look attr ready timo = .fail error ∧ error ≠ .EFAULT := by
  rw [look.eq_def]
  split
  · next h => exact .inl ⟨rfl, h⟩
  split
  · exact .inr (.inr ⟨_, rfl, by decide⟩)
  cases timo
  · exact .inr (.inl rfl)
  · exact .inr (.inr ⟨_, rfl, by decide⟩)
  · exact .inr (.inr ⟨_, rfl, by decide⟩)

variable {w w' : World} {c : Nat} {msg : MqMsg}

theorem sendLoop_move (h : (w.phase c).sends = some msg) (timo : Timo) : Move w (sendLoop w c msg timo) := by
  rw [sendLoop]
  obtain ⟨hlook, hready⟩ | hlook | ⟨error, hlook, -⟩ :=
    look_cases w.mq.mqAttrib (decide (w.mq.mqAttrib.mqCurmsgs < w.mq.mqAttrib.mqMaxmsg)) timo
  · rw [hlook]
    exact .put c msg h (of_decide_eq_true hready) rfl
  · rw [hlook]
    exact .look c msg _ h rfl rfl
  · rw [hlook]
    exact .look c msg _ h rfl rfl

theorem sendStart_move (h : w.phase c = .idle) (prio : Nat) (data : List (BitVec 8)) (fault : Bool) : Move w (sendStart w c prio data fault) := by
  rw [sendStart]
  split
  · exact .refuse c _ h rfl
  split
  · exact .refuse c _ h rfl
  cases fault
  · exact .alloc c _ _ h rfl rfl rfl
  · exact .alloc c _ _ h rfl rfl rfl

theorem sendEnter_move (h : w.phase c = .sending msg) (found : Bool) (timo : Timo) : Move w (sendEnter w c msg found timo) := by
  have hsends : (w.phase c).sends = some msg := by rw [h]; rfl
  rw [sendEnter]
  split
  · exact .look c msg _ hsends rfl rfl
  split
  · exact .look c msg _ hsends rfl rfl
  · exact sendLoop_move hsends timo

theorem sendWake_move (h : w.phase c = .sendWait msg) (error : Option Errno) (timo : Timo) : Move w (sendWake w c msg error timo) := by
  have hsends : (w.phase c).sends = some msg := by rw [h]; rfl
  rw [sendWake]
  split
  · next hleave =>
    cases error with
    | none => exact .quit c msg h (hleave.resolve_left (by decide)) rfl
    | some e =>
      split
      · exact .look c msg _ hsends rfl rfl
      · next hnone =>
        split at hnone
        · cases hnone
        · cases hnone
  · exact sendLoop_move hsends timo

theorem recvLoop_move (h : w.phase c = .idle ∨ w.phase c = .recvWait) (receive : Bool) (timo : Timo)
    (hstep : recvLoop (w.setReceive receive) c timo = some w') : Move w w' := by
  rw [recvLoop] at hstep
  obtain ⟨hlook, hready⟩ | hlook | ⟨error, hlook, herror⟩ := look_cases (w.setReceive receive).mq.mqAttrib
    (decide ((w.setReceive receive).mq.mqAttrib.mqCurmsgs ≠ 0)) timo
  · rw [hlook] at hstep
    obtain ⟨⟨msg, mq'⟩, hrecv, rfl⟩ := Option.map_eq_some_iff.mp hstep
    exact .take c msg (w.setReceive receive).mq mq' h ⟨rfl, rfl, rfl, rfl⟩ (of_decide_eq_true hready) hrecv rfl
  · rw [hlook] at hstep
    cases hstep
    exact .wait c true h rfl
  · rw [hlook] at hstep
    cases hstep
    exact .fail c receive error h herror rfl

theorem recvEnter_move (h : w.phase c = .idle) (msgLen : Nat) (found : Bool) (timo : Timo)
    (hstep : recvEnter w c msgLen found timo = some w') : Move w w' := by
  rw [recvEnter] at hstep
  split at hstep
  · cases hstep
    exact .fail c w.mq.mqAttrib.receive .EBADF (.inl h) (by decide) rfl
  split at hstep
  · cases hstep
    exact .fail c w.mq.mqAttrib.receive .EMSGSIZE (.inl h) (by decide) rfl
  · exact recvLoop_move (.inl h) w.mq.mqAttrib.receive timo hstep

theorem recvWake_move (h : w.phase c = .recvWait) (error : Option Errno) (timo : Timo) (hstep : recvWake w c error timo = some w') : Move w w' := by
  rw [recvWake] at hstep
  split at hstep
  · cases hstep
    exact .fail c false _ (.inr h) (by split <;> decide) rfl
  · exact recvLoop_move (.inr h) false timo hstep

theorem next_move {a : Label} (h : next w a = some w') : Move w w' := by
  cases a with
  | sysctl limits =>
    cases h
    exact .other (.refl _) rfl rfl rfl
  | setattr nonblock =>
    cases h
    exact .other ⟨rfl, rfl, rfl, rfl⟩ rfl rfl rfl
  | notify proc =>
    cases h
    exact .other ⟨rfl, rfl, rfl, rfl⟩ rfl rfl rfl
  | unlink allowed =>
    cases h
    rw [mqUnlink]
    split
    · exact .other ⟨rfl, rfl, rfl, rfl⟩ rfl rfl rfl
    · exact .other (.refl _) rfl rfl rfl
  | sendStart c prio data fault =>
    cases hp : w.phase c <;> simp only [next, hp, Option.some.injEq, reduceCtorEq] at h
    subst h
    exact sendStart_move hp prio data fault
  | sendEnter c found timo =>
    cases hp : w.phase c <;> simp only [next, hp, Option.some.injEq, reduceCtorEq] at h
    subst h
    exact sendEnter_move hp found timo
  | sendWake c error timo =>
    cases hp : w.phase c <;> simp only [next, hp, Option.some.injEq, reduceCtorEq] at h
    subst h
    exact sendWake_move hp error timo
  | sendFree c =>
    cases hp : w.phase c <;> simp only [next, hp, Option.some.injEq, reduceCtorEq] at h
    subst h
    exact .free c _ _ hp rfl
  | recvEnter c msgLen found timo =>
    cases hp : w.phase c <;> simp only [next, hp, reduceCtorEq] at h
    exact recvEnter_move hp msgLen found timo h
  | recvWake c error timo =>
    cases hp : w.phase c <;> simp only [next, hp, reduceCtorEq] at h
    exact recvWake_move hp error timo h
  | recvOut c fault =>
    cases hp : w.phase c <;> simp only [next, hp, Option.some.injEq, reduceCtorEq] at h
    subst h
    exact .out c _ fault hp rfl

end NetBSD.Kern.SysMqueue
