import NetBSD.Lib.Words
import Mathlib.Algebra.BigOperators.Group.Finset.Basic
import Mathlib.Data.List.Perm.Basic

/-! The queue of a POSIX message queue.

A message of one of the priorities below 32 is in the list of its priority, and a bitmap says which of these lists are not
empty; the higher priorities share one list, which is sorted. What this is for is a plain list of messages in the order of
their arrival, from which the first of the highest priority is taken: `Holds` says that the lists are such a list. -/
namespace NetBSD.Kern.SysMqueue
open List Function
open Lib

inductive Errno where
  | EINTR
  | EBADF
  | EFAULT
  | EINVAL
  | EAGAIN
  | EMSGSIZE
  | ETIMEDOUT
  | ERESTART
  deriving DecidableEq

def EWOULDBLOCK : Errno := .EAGAIN

/-- A message; `id` is the call that has allocated it. -/
structure MqMsg where
  id : Nat
  msgPrio : Nat
  msgPtr : List (BitVec 8)
  deriving DecidableEq

structure MqAttr where
  nonblock : Bool
  unlinked : Bool
  receive : Bool
  mqMaxmsg : Nat
  mqMsgsize : Nat
  mqCurmsgs : Nat

/-- `mqNotifyProc` is the process to be notified by a signal. -/
structure Mqueue where
  mqAttrib : MqAttr
  mqNotifyProc : Option Nat
  mqHead : Nat → List MqMsg
  mqBitmap : Word

def MQ_PQSIZE : Nat := 32

def MQ_PQRESQ : Nat := 0

/-- A message put before the first of a lower priority. -/
def linearInsert (msg : MqMsg) : List MqMsg → List MqMsg
  | [] => [msg]
  | mit :: rest => if msg.msgPrio > mit.msgPrio then msg :: mit :: rest else mit :: linearInsert msg rest

def mqueueLinearInsert (mq : Mqueue) (msg : MqMsg) : Mqueue :=
  { mq with mqHead := update mq.mqHead MQ_PQRESQ (linearInsert msg (mq.mqHead MQ_PQRESQ)) }

/-- The message is in the list of its priority. -/
def insert (mq : Mqueue) (msg : MqMsg) : Mqueue :=
  if msg.msgPrio < MQ_PQSIZE then
    let idx := MQ_PQSIZE - msg.msgPrio
    { mq with
      mqHead := update mq.mqHead idx (mq.mqHead idx ++ [msg])
      mqBitmap := mq.mqBitmap ||| 1#32 <<< (idx - 1) }
  else mqueueLinearInsert mq msg

/-- The message is in the queue; with the process to be notified. -/
def send (mq : Mqueue) (msg : MqMsg) : Mqueue × Option Nat :=
  let notify := if mq.mqAttrib.mqCurmsgs = 0 ∧ mq.mqAttrib.receive = false then mq.mqNotifyProc else none
  ({ insert mq msg with
      mqNotifyProc := if notify.isSome then none else mq.mqNotifyProc
      mqAttrib := { mq.mqAttrib with mqCurmsgs := mq.mqAttrib.mqCurmsgs + 1 } }, notify)

/-- The index of the list that is taken from. -/
def pick (mq : Mqueue) : Nat := if mq.mqHead MQ_PQRESQ = [] then ffs mq.mqBitmap else MQ_PQRESQ

/-- A message of the highest priority is taken; `none` is a list without one. -/
def receive (mq : Mqueue) : Option (MqMsg × Mqueue) :=
  match mq.mqHead (pick mq) with
  | [] => none
  | msg :: rest => some (msg, { mq with
      mqHead := update mq.mqHead (pick mq) rest
      mqBitmap := if pick mq ≠ 0 ∧ rest = [] then mq.mqBitmap &&& ~~~(1#32 <<< (pick mq - 1)) else mq.mqBitmap
      mqAttrib := { mq.mqAttrib with mqCurmsgs := mq.mqAttrib.mqCurmsgs - 1 } })

/-- The number of messages in all lists. -/
def Mqueue.queued (mq : Mqueue) : Nat := ∑ k ∈ Finset.range (MQ_PQSIZE + 1), (mq.mqHead k).length

/-- The message is the oldest of those of the highest priority. -/
def Oldest (q : List MqMsg) (msg : MqMsg) : Prop :=
  (∀ m ∈ q, m.msgPrio ≤ msg.msgPrio) ∧ ∃ older newer, q = older ++ msg :: newer ∧ ∀ m ∈ older, m.msgPrio < msg.msgPrio

/-- The lists hold the messages, each those of its priorities; the bitmap and the number go with them. -/
structure Holds (mq : Mqueue) (q : List MqMsg) : Prop where
  lists : ∀ prio < MQ_PQSIZE, mq.mqHead (MQ_PQSIZE - prio) = q.filter (·.msgPrio = prio)
  reserved : ∀ prio, MQ_PQSIZE ≤ prio → (mq.mqHead MQ_PQRESQ).filter (·.msgPrio = prio) = q.filter (·.msgPrio = prio)
  above : ∀ m ∈ mq.mqHead MQ_PQRESQ, MQ_PQSIZE ≤ m.msgPrio
  sorted : (mq.mqHead MQ_PQRESQ).Pairwise fun m m' => m'.msgPrio ≤ m.msgPrio
  bitmap : ∀ i < MQ_PQSIZE, (mq.mqBitmap.getLsbD i = true ↔ mq.mqHead (i + 1) ≠ [])
  length : mq.mqAttrib.mqCurmsgs = q.length
  curmsgs : mq.mqAttrib.mqCurmsgs = mq.queued

variable {mq : Mqueue} {q : List MqMsg} {msg : MqMsg}

theorem holds_empty (attr : MqAttr) (notify : Option Nat) (h : attr.mqCurmsgs = 0) : Holds ⟨attr, notify, fun _ => [], 0⟩ [] :=
  ⟨fun _ _ => rfl, fun _ _ => rfl, fun _ hm => absurd hm not_mem_nil, .nil, fun i _ => by simp, h,
    h.trans (Finset.sum_eq_zero fun _ _ => rfl).symm⟩

theorem Holds.congr (h : Holds mq q) {mq' : Mqueue} (hhead : mq'.mqHead = mq.mqHead) (hbitmap : mq'.mqBitmap = mq.mqBitmap)
    (hcur : mq'.mqAttrib.mqCurmsgs = mq.mqAttrib.mqCurmsgs) : Holds mq' q := by
  refine ⟨?_, ?_, ?_, ?_, ?_, ?_, ?_⟩
  · rw [hhead]
    exact h.lists
  · rw [hhead]
    exact h.reserved
  · rw [hhead]
    exact h.above
  · rw [hhead]
    exact h.sorted
  · rw [hhead, hbitmap]
    exact h.bitmap
  · rw [hcur]
    exact h.length
  · rw [hcur, Mqueue.queued, hhead]
    exact h.curmsgs

theorem sum_update (head : Nat → List MqMsg) {k : Nat} (hk : k ≤ MQ_PQSIZE) (l : List MqMsg) :
    (∑ i ∈ Finset.range (MQ_PQSIZE + 1), (update head k l i).length) + (head k).length =
      (∑ i ∈ Finset.range (MQ_PQSIZE + 1), (head i).length) + l.length := by
  have hmem : k ∈ Finset.range (MQ_PQSIZE + 1) := Finset.mem_range.mpr (Nat.lt_succ_of_le hk)
  rw [← Finset.add_sum_erase _ _ hmem, ← Finset.add_sum_erase _ (fun i => (head i).length) hmem, update_self,
    Finset.sum_congr rfl fun i hi => by rw [update_of_ne (Finset.ne_of_mem_erase hi)]]
  omega

theorem mem_linearInsert {m : MqMsg} (l : List MqMsg) : m ∈ linearInsert msg l ↔ m = msg ∨ m ∈ l := by
  induction l with
  | nil => exact mem_cons
  | cons mit rest ih =>
    rw [linearInsert]
    split
    · exact mem_cons
    · rw [mem_cons, ih, mem_cons, or_left_comm]

theorem length_linearInsert (l : List MqMsg) : (linearInsert msg l).length = l.length + 1 := by
  induction l with
  | nil => rfl
  | cons mit rest ih =>
    rw [linearInsert]
    split
    · rfl
    · rw [length_cons, ih, length_cons]

section
variable {l : List MqMsg} (h : l.Pairwise fun m m' => m'.msgPrio ≤ m.msgPrio)
include h

theorem sorted_linearInsert : (linearInsert msg l).Pairwise fun m m' => m'.msgPrio ≤ m.msgPrio := by
  induction l with
  | nil => exact pairwise_singleton _ _
  | cons mit rest ih =>
    obtain ⟨hmit, hrest⟩ := pairwise_cons.mp h
    rw [linearInsert]
    split
    · next hgt =>
      refine pairwise_cons.mpr ⟨?_, h⟩
      intro m hm
      rcases mem_cons.mp hm with rfl | hm
      · exact le_of_lt hgt
      · exact le_trans (hmit m hm) (le_of_lt hgt)
    · next hle =>
      refine pairwise_cons.mpr ⟨?_, ih hrest⟩
      intro m hm
      rcases (mem_linearInsert rest).mp hm with rfl | hm
      · exact Nat.not_lt.mp hle
      · exact hmit m hm

theorem filter_linearInsert (prio : Nat) : (linearInsert msg l).filter (·.msgPrio = prio) = (l ++ [msg]).filter (·.msgPrio = prio) := by
  induction l with
  | nil => rfl
  | cons mit rest ih =>
    obtain ⟨hmit, hrest⟩ := pairwise_cons.mp h
    rw [linearInsert]
    split
    · next hgt =>
      by_cases hprio : msg.msgPrio = prio
      · -- What follows is lower, and so of another priority.
        have hnone : (mit :: rest).filter (·.msgPrio = prio) = [] := by
          rw [filter_eq_nil_iff]
          intro m hm heq
          have heq := of_decide_eq_true heq
          rcases mem_cons.mp hm with rfl | hm
          · omega
          · have hle := hmit m hm
            omega
        rw [filter_append, filter_cons_of_pos (by simpa using hprio), hnone, filter_cons_of_pos (by simpa using hprio)]
        rfl
      · rw [filter_append, filter_cons_of_neg (by simpa using hprio), filter_cons_of_neg (l := []) (by simpa using hprio), filter_nil, append_nil]
    · rw [cons_append, filter_cons, filter_cons, ih hrest]

end

theorem filter_append_ne {prio : Nat} (h : msg.msgPrio ≠ prio) : (q ++ [msg]).filter (·.msgPrio = prio) = q.filter (·.msgPrio = prio) := by
  rw [filter_append, filter_cons_of_neg (by simpa using h), filter_nil, append_nil]

theorem filter_append_eq {prio : Nat} (h : msg.msgPrio = prio) : (q ++ [msg]).filter (·.msgPrio = prio) = q.filter (·.msgPrio = prio) ++ [msg] := by
  rw [filter_append, filter_cons_of_pos (by simpa using h), filter_nil]

theorem Holds.send (h : Holds mq q) (msg : MqMsg) : Holds (send mq msg).1 (q ++ [msg]) := by
  have hlen : mq.mqAttrib.mqCurmsgs + 1 = (q ++ [msg]).length := by rw [length_append, h.length, length_singleton]
  rw [SysMqueue.send]
  dsimp only
  by_cases hlow : msg.msgPrio < MQ_PQSIZE
  · rw [insert, if_pos hlow]
    have hres : MQ_PQRESQ ≠ MQ_PQSIZE - msg.msgPrio := by
      simp only [MQ_PQRESQ, MQ_PQSIZE] at hlow ⊢
      omega
    refine ⟨?_, ?_, ?_, ?_, ?_, hlen, ?_⟩
    · intro prio hprio
      dsimp only
      by_cases heq : msg.msgPrio = prio
      · rw [heq, update_self, filter_append_eq heq, h.lists prio hprio]
      · rw [update_of_ne (by simp only [MQ_PQSIZE] at *; omega), filter_append_ne heq, h.lists prio hprio]
    · intro prio hprio
      dsimp only
      rw [update_of_ne hres, filter_append_ne (by omega), h.reserved prio hprio]
    · dsimp only
      rw [update_of_ne hres]
      exact h.above
    · dsimp only
      rw [update_of_ne hres]
      exact h.sorted
    · intro i hi
      dsimp only
      rw [BitVec.getLsbD_or, getLsbD_one_shiftLeft (by simp only [MQ_PQSIZE] at *; omega), Bool.or_eq_true, decide_eq_true_eq, h.bitmap i hi]
      by_cases heq : i + 1 = MQ_PQSIZE - msg.msgPrio
      · rw [heq, update_self]
        exact iff_of_true (.inr (by omega)) (by simp)
      · rw [update_of_ne heq, or_iff_left (by omega)]
    · have hsum := sum_update mq.mqHead (show MQ_PQSIZE - msg.msgPrio ≤ MQ_PQSIZE by omega)
        (mq.mqHead (MQ_PQSIZE - msg.msgPrio) ++ [msg])
      have hcur := h.curmsgs
      rw [length_append, length_singleton] at hsum
      dsimp only [Mqueue.queued] at hcur ⊢
      omega
  · rw [insert, if_neg hlow, mqueueLinearInsert]
    have hhigh := Nat.not_lt.mp hlow
    refine ⟨?_, ?_, ?_, ?_, ?_, hlen, ?_⟩
    · intro prio hprio
      dsimp only
      rw [update_of_ne (by simp only [MQ_PQRESQ, MQ_PQSIZE] at *; omega), filter_append_ne (by omega), h.lists prio hprio]
    · intro prio hprio
      dsimp only
      rw [update_self, filter_linearInsert h.sorted, filter_append, h.reserved prio hprio, filter_append]
    · intro m hm
      rcases (mem_linearInsert _).mp hm with rfl | hm
      · exact hhigh
      · exact h.above m hm
    · exact sorted_linearInsert h.sorted
    · intro i hi
      dsimp only
      rw [update_of_ne (by simp only [MQ_PQRESQ]; omega), h.bitmap i hi]
    have hsum := sum_update mq.mqHead (Nat.zero_le MQ_PQSIZE) (linearInsert msg (mq.mqHead MQ_PQRESQ))
    have hcur := h.curmsgs
    rw [length_linearInsert] at hsum
    dsimp only [Mqueue.queued, MQ_PQRESQ] at hcur hsum ⊢
    omega

/-! ### A message is taken -/

theorem filter_head {prio : Nat} {rest : List MqMsg} (h : q.filter (·.msgPrio = prio) = msg :: rest) :
    msg.msgPrio = prio ∧ (∃ older newer, q = older ++ msg :: newer ∧ ∀ m ∈ older, m.msgPrio ≠ prio) ∧
      (q.erase msg).filter (·.msgPrio = prio) = rest ∧
      ∀ prio' ≠ prio, (q.erase msg).filter (·.msgPrio = prio') = q.filter (·.msgPrio = prio') := by
  obtain ⟨older, newer, rfl, hold, hmsg, hnew⟩ := filter_eq_cons_iff.mp h
  have hmsg := of_decide_eq_true hmsg
  have hold : ∀ m ∈ older, m.msgPrio ≠ prio := fun m hm heq => hold m hm (decide_eq_true heq)
  have hfresh : msg ∉ older := fun hm => hold msg hm hmsg
  have herase : (older ++ msg :: newer).erase msg = older ++ newer := by
    rw [erase_append_right _ hfresh, erase_cons_head]
  refine ⟨hmsg, ⟨older, newer, rfl, hold⟩, ?_, ?_⟩
  · have hnil : older.filter (·.msgPrio = prio) = [] :=
      filter_eq_nil_iff.mpr fun m hm heq => hold m hm (of_decide_eq_true heq)
    rw [herase, filter_append, hnil, nil_append, hnew]
  · intro prio' hne
    rw [herase, filter_append, filter_append, filter_cons_of_neg (by simpa using fun heq : msg.msgPrio = prio' => hne (heq.symm.trans hmsg))]

theorem Holds.mem_list (h : Holds mq q) (hmem : msg ∈ q) (hlow : msg.msgPrio < MQ_PQSIZE) : msg ∈ mq.mqHead (MQ_PQSIZE - msg.msgPrio) := by
  rw [h.lists _ hlow]
  exact mem_filter.mpr ⟨hmem, decide_eq_true rfl⟩

theorem Holds.mem_reserved (h : Holds mq q) (hmem : msg ∈ q) (hhigh : MQ_PQSIZE ≤ msg.msgPrio) : msg ∈ mq.mqHead MQ_PQRESQ := by
  have hmsg : msg ∈ q.filter (·.msgPrio = msg.msgPrio) := mem_filter.mpr ⟨hmem, decide_eq_true rfl⟩
  rw [← h.reserved _ hhigh] at hmsg
  exact (mem_filter.mp hmsg).1

theorem Oldest.of_filter {prio : Nat} {rest : List MqMsg} (h : q.filter (·.msgPrio = prio) = msg :: rest)
    (hmax : ∀ m ∈ q, m.msgPrio ≤ prio) : Oldest q msg := by
  obtain ⟨rfl, ⟨older, newer, heq, hold⟩, -, -⟩ := filter_head h
  refine ⟨hmax, older, newer, heq, ?_⟩
  intro m hm
  have hle := hmax m (heq ▸ mem_append_left _ hm)
  have hne := hold m hm
  omega

theorem Holds.taken (h : Holds mq q) {k : Nat} (hk : k ≤ MQ_PQSIZE) {rest : List MqMsg} (hhead : mq.mqHead k = msg :: rest)
    (hmem : msg ∈ q) : mq.mqAttrib.mqCurmsgs - 1 = (q.erase msg).length ∧
      mq.mqAttrib.mqCurmsgs - 1 = ∑ i ∈ Finset.range (MQ_PQSIZE + 1), (update mq.mqHead k rest i).length := by
  have hsum := sum_update mq.mqHead hk rest
  have hcur := h.curmsgs
  rw [hhead, length_cons] at hsum
  rw [Mqueue.queued] at hcur
  rw [length_erase_of_mem hmem]
  rw [← h.length]
  omega

/-- The first of the shared list is the oldest of the highest priority. -/
theorem Holds.receive_reserved (h : Holds mq q) {rest : List MqMsg} (hhead : mq.mqHead MQ_PQRESQ = msg :: rest) :
    ∃ mq', receive mq = some (msg, mq') ∧ Oldest q msg ∧ Holds mq' (q.erase msg) := by
  have hhigh : MQ_PQSIZE ≤ msg.msgPrio := h.above msg (hhead ▸ mem_cons_self)
  have hfilter : q.filter (·.msgPrio = msg.msgPrio) = msg :: rest.filter (·.msgPrio = msg.msgPrio) := by
    rw [← h.reserved _ hhigh, hhead, filter_cons_of_pos (by simp)]
  have hsorted := h.sorted
  rw [hhead] at hsorted
  obtain ⟨hle, hrest⟩ := pairwise_cons.mp hsorted
  have hmax : ∀ m ∈ q, m.msgPrio ≤ msg.msgPrio := by
    intro m hm
    by_cases hlow : m.msgPrio < MQ_PQSIZE
    · omega
    have hres := h.mem_reserved hm (Nat.not_lt.mp hlow)
    rw [hhead] at hres
    rcases mem_cons.mp hres with rfl | hres
    · exact le_refl _
    · exact hle m hres
  have hpick : pick mq = MQ_PQRESQ := if_neg (by rw [hhead]; exact cons_ne_nil _ _)
  obtain ⟨-, ⟨older, newer, heq, -⟩, hself, hothers⟩ := filter_head hfilter
  obtain ⟨hlen, hcur⟩ := h.taken (Nat.zero_le _) hhead (heq ▸ mem_append_right _ mem_cons_self)
  refine ⟨_, by rw [receive, hpick, hhead], .of_filter hfilter hmax, ?_, ?_, ?_, ?_, ?_, hlen, hcur⟩
  · intro prio hprio
    dsimp only
    rw [update_of_ne (by simp only [MQ_PQRESQ, MQ_PQSIZE] at *; omega), hothers prio (by omega), h.lists prio hprio]
  · intro prio hprio
    dsimp only
    rw [update_self]
    by_cases hp : prio = msg.msgPrio
    · rw [hp, hself]
    have hold := h.reserved prio hprio
    rw [hhead, filter_cons_of_neg (by simpa using Ne.symm hp)] at hold
    rw [hothers prio hp, hold]
  · exact fun m hm => h.above m (hhead ▸ mem_cons_of_mem _ hm)
  · exact hrest
  · intro i hi
    exact h.bitmap i hi

/-- With the shared list empty, the lowest bit is of the list of the highest priority. -/
theorem Holds.receive_list (h : Holds mq q) (hne : q ≠ []) (hhead : mq.mqHead MQ_PQRESQ = []) :
    ∃ msg mq', receive mq = some (msg, mq') ∧ Oldest q msg ∧ Holds mq' (q.erase msg) := by
  have hlow : ∀ m ∈ q, m.msgPrio < MQ_PQSIZE := by
    intro m hm
    by_contra hhigh
    have hres := h.mem_reserved hm (Nat.not_lt.mp hhigh)
    rw [hhead] at hres
    cases hres
  have hset : ∀ m ∈ q, mq.mqBitmap.getLsbD (MQ_PQSIZE - m.msgPrio - 1) = true := by
    intro m hm
    have hprio := hlow m hm
    rw [h.bitmap _ (by omega), show MQ_PQSIZE - m.msgPrio - 1 + 1 = MQ_PQSIZE - m.msgPrio by omega]
    exact ne_nil_of_mem (h.mem_list hm hprio)
  have hbitmap : mq.mqBitmap ≠ 0 := by
    obtain ⟨m, hm⟩ := exists_mem_of_ne_nil q hne
    intro hzero
    have hbit := hset m hm
    rw [hzero, BitVec.ofNat_eq_ofNat, BitVec.getLsbD_zero] at hbit
    cases hbit
  obtain ⟨k, hk, hffs, hbit, hbelow⟩ := ffs_of_ne_zero hbitmap
  have hpick : pick mq = k + 1 := (if_pos hhead).trans hffs
  have hprio : MQ_PQSIZE - 1 - k < MQ_PQSIZE := by simp only [MQ_PQSIZE]; omega
  have hidx : MQ_PQSIZE - (MQ_PQSIZE - 1 - k) = k + 1 := by simp only [MQ_PQSIZE]; omega
  have hlist := h.lists _ hprio
  rw [hidx] at hlist
  cases hq : mq.mqHead (k + 1) with
  | nil => exact absurd hq ((h.bitmap k hk).mp hbit)
  | cons msg rest =>
    rw [hq] at hlist
    have hmax : ∀ m ∈ q, m.msgPrio ≤ MQ_PQSIZE - 1 - k := by
      intro m hm
      by_contra hgt
      have hm32 := hlow m hm
      have hclear := hbelow (MQ_PQSIZE - m.msgPrio - 1) (by omega)
      rw [hset m hm] at hclear
      cases hclear
    obtain ⟨hmsg, ⟨older, newer, heq, -⟩, hself, hothers⟩ := filter_head hlist.symm
    obtain ⟨hlen, hcur⟩ := h.taken (show k + 1 ≤ MQ_PQSIZE by simp only [MQ_PQSIZE]; omega) hq
      (heq ▸ mem_append_right _ mem_cons_self)
    refine ⟨msg, _, by rw [receive, hpick, hq], .of_filter hlist.symm hmax, ?_, ?_, ?_, ?_, ?_, hlen, hcur⟩
    · intro prio hlt
      dsimp only
      by_cases hp : prio = MQ_PQSIZE - 1 - k
      · rw [hp, hidx, update_self, hself]
      · rw [update_of_ne (by simp only [MQ_PQSIZE] at *; omega), hothers prio hp, h.lists prio hlt]
    · intro prio hge
      dsimp only
      rw [update_of_ne (by simp only [MQ_PQRESQ]; omega), hothers prio (by omega), h.reserved prio hge]
    · dsimp only
      rw [update_of_ne (by simp only [MQ_PQRESQ]; omega)]
      exact h.above
    · dsimp only
      rw [update_of_ne (by simp only [MQ_PQRESQ]; omega)]
      exact h.sorted
    intro i hi
    dsimp only
    -- Only the bit of the list is cleared, and only with its last message.
    have hclear : ∀ j < 32, (mq.mqBitmap &&& ~~~(1#32 <<< k)).getLsbD j = (mq.mqBitmap.getLsbD j && !decide (j = k)) := by
      intro j hj
      rw [BitVec.getLsbD_and, BitVec.getLsbD_not, getLsbD_one_shiftLeft hk, decide_eq_true hj, Bool.true_and]
    by_cases hik : i = k
    · subst hik
      rw [update_self]
      by_cases hnil : rest = []
      · simp [hnil]
      · rw [if_neg (fun hc => hnil hc.2)]
        exact iff_of_true hbit hnil
    · rw [update_of_ne (by omega)]
      split
      · rw [Nat.add_sub_cancel, hclear i hi, decide_eq_false hik, Bool.not_false, Bool.and_true]
        exact h.bitmap i hi
      · exact h.bitmap i hi

theorem Holds.receive (h : Holds mq q) (hne : q ≠ []) : ∃ msg mq', receive mq = some (msg, mq') ∧ Oldest q msg ∧ Holds mq' (q.erase msg) := by
  cases hhead : mq.mqHead MQ_PQRESQ with
  | nil => exact h.receive_list hne hhead
  | cons msg rest => exact ⟨msg, h.receive_reserved hhead⟩

end NetBSD.Kern.SysMqueue
