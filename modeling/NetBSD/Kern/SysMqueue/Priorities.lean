import NetBSD.Kern.SysMqueue.Calls

/-! Messages are received by priority and in order.

Over any run of calls the lists hold what was put in and not yet taken, and each message that was taken was the oldest of
the highest priority at that time. -/
namespace NetBSD.Kern.SysMqueue
open Lib

structure Delivers (w : World) : Prop where
  holds : Holds w.mq (inQueue w.log)
  maxmsg : w.mq.mqAttrib.mqCurmsgs ≤ w.mq.mqAttrib.mqMaxmsg
  order : ∀ newer c msg older, w.log = newer ++ .take c msg :: older → Oldest (inQueue older) msg

variable {w w' : World}

theorem receive_spec {mq mq' : Mqueue} {q : List MqMsg} {msg : MqMsg} (h : Holds mq q) (hcur : mq.mqAttrib.mqCurmsgs ≠ 0)
    (hrecv : receive mq = some (msg, mq')) :
    Oldest q msg ∧ Holds mq' (q.erase msg) ∧ mq'.mqAttrib.mqMaxmsg = mq.mqAttrib.mqMaxmsg ∧
      mq'.mqAttrib.mqCurmsgs ≤ mq.mqAttrib.mqCurmsgs := by
  have hne : q ≠ [] := by
    rintro rfl
    exact hcur h.length
  obtain ⟨msg', mq'', hrecv', hold, hholds⟩ := h.receive hne
  rw [hrecv] at hrecv'
  cases hrecv'
  refine ⟨hold, hholds, ?_, ?_⟩
  · rw [receive] at hrecv
    split at hrecv
    · cases hrecv
    · cases hrecv
      rfl
  rw [receive] at hrecv
  split at hrecv
  · cases hrecv
  · cases hrecv
    exact Nat.sub_le _ _

theorem Delivers.order_cons (h : Delivers w) {e : Event} (he : ∀ c msg, e ≠ .take c msg) :
    ∀ newer c msg older, e :: w.log = newer ++ .take c msg :: older → Oldest (inQueue older) msg := by
  intro newer c msg older hlog
  cases newer with
  | nil => exact absurd (List.cons.inj hlog).1 (he c msg)
  | cons e' newer => exact h.order newer c msg older (List.cons.inj hlog).2

theorem Delivers.same (h : Delivers w) (hmq : SameQueue w.mq w'.mq) (hlog : w'.log = w.log) : Delivers w' := by
  refine ⟨?_, ?_, ?_⟩
  · rw [hlog]
    exact h.holds.congr hmq.head hmq.bitmap hmq.curmsgs
  · rw [hmq.curmsgs, hmq.maxmsg]
    exact h.maxmsg
  · rw [hlog]
    exact h.order

theorem Delivers.move (h : Delivers w) (hmove : Move w w') : Delivers w' := by
  cases hmove with
  | other hmq _ _ hlog => exact h.same hmq hlog
  | refuse c error _ hw' => exact hw' ▸ h.same (.refl _) rfl
  | alloc c msg p _ _ _ hw' => exact hw' ▸ h.same (.refl _) rfl
  | look c msg p _ _ hw' => exact hw' ▸ h.same (.refl _) rfl
  | put c msg _ hroom hw' =>
    subst hw'
    refine ⟨h.holds.send msg, ?_, h.order_cons fun _ _ he => nomatch he⟩
    exact hroom
  | quit c msg _ _ hw' => exact hw' ▸ ⟨h.holds, h.maxmsg, h.order_cons fun _ _ he => nomatch he⟩
  | free c msg error _ hw' => exact hw' ▸ h.same (.refl _) rfl
  | wait c receive _ hw' => exact hw' ▸ h.same ⟨rfl, rfl, rfl, rfl⟩ rfl
  | fail c receive error _ _ hw' => exact hw' ▸ h.same ⟨rfl, rfl, rfl, rfl⟩ rfl
  | take c msg mq mq' _ hmq hcur hrecv hw' =>
    obtain ⟨hold, hholds, hmax, hle⟩ := receive_spec (h.holds.congr hmq.head hmq.bitmap hmq.curmsgs) hcur hrecv
    subst hw'
    refine ⟨hholds, ?_, ?_⟩
    · show mq'.mqAttrib.mqCurmsgs ≤ mq'.mqAttrib.mqMaxmsg
      have hmaxmsg := h.maxmsg
      rw [hmax, hmq.maxmsg]
      rw [hmq.curmsgs] at hle
      exact le_trans hle hmaxmsg
    intro newer c' msg' older hlog
    cases newer with
    | nil =>
      cases hlog
      exact hold
    | cons e newer => exact h.order newer c' msg' older (List.cons.inj hlog).2
  | out c msg fault _ hw' => exact hw' ▸ h.same (.refl _) rfl

theorem reachable_delivers (h : system.Reachable w) : Delivers w := by
  apply h.invariant
  · rintro w ⟨attr, limits, rfl⟩
    refine ⟨holds_empty _ _ rfl, Nat.zero_le _, ?_⟩
    intro newer c msg older hlog
    exact absurd hlog.symm (List.append_ne_nil_of_right_ne_nil _ (List.cons_ne_nil _ _))
  · intro w a w' hinv _ hstep
    exact hinv.move (next_move hstep)

/-- Every message taken was the oldest of the highest priority; with a message there one is taken; and the lists, the
bitmap and the number go together. -/
theorem received_by_priority (h : system.Reachable w) :
    (∀ newer c msg older, w.log = newer ++ .take c msg :: older → Oldest (inQueue older) msg) ∧
    (w.mq.mqAttrib.mqCurmsgs ≠ 0 → ∃ msg mq, receive w.mq = some (msg, mq) ∧ Oldest (inQueue w.log) msg) ∧
    (∀ i < MQ_PQSIZE, w.mq.mqBitmap.getLsbD i = true ↔ w.mq.mqHead (i + 1) ≠ []) ∧
    (∀ k, 1 ≤ k → k ≤ MQ_PQSIZE → ∀ msg ∈ w.mq.mqHead k, msg.msgPrio = MQ_PQSIZE - k) ∧
    (w.mq.mqHead MQ_PQRESQ).Pairwise (fun msg msg' => msg'.msgPrio ≤ msg.msgPrio) ∧
    w.mq.mqAttrib.mqCurmsgs = w.mq.queued ∧ w.mq.mqAttrib.mqCurmsgs = (inQueue w.log).length ∧
    w.mq.mqAttrib.mqCurmsgs ≤ w.mq.mqAttrib.mqMaxmsg := by
  obtain ⟨hholds, hmax, horder⟩ := reachable_delivers h
  refine ⟨horder, ?_, hholds.bitmap, ?_, hholds.sorted, hholds.curmsgs, hholds.length, hmax⟩
  · intro hcur
    have hne : inQueue w.log ≠ [] := by
      intro hnil
      rw [hholds.length, hnil] at hcur
      exact hcur rfl
    obtain ⟨msg, mq, hrecv, hold, -⟩ := hholds.receive hne
    exact ⟨msg, mq, hrecv, hold⟩
  · intro k hk hle msg hmsg
    have hlist := hholds.lists (MQ_PQSIZE - k) (by omega)
    rw [show MQ_PQSIZE - (MQ_PQSIZE - k) = k by omega] at hlist
    rw [hlist] at hmsg
    exact of_decide_eq_true (List.mem_filter.mp hmsg).2

/-- A message of a high priority overtakes one of a low. -/
theorem received_by_priority_overtakes :
    let low : MqMsg := ⟨0, 3, [1]⟩
    let high : MqMsg := ⟨1, 40, [2]⟩
    ∃ w, system.Reachable w ∧ w.log = [.take 2 high, .put high, .put low] ∧ Oldest [low, high] high ∧ w.mq.mqAttrib.mqCurmsgs = 1 := by
  intro low high
  have hrun : (System.run (System.guarded (fun _ _ => True) next) (created ⟨false, false, false, 2, 100, 0⟩ ⟨64, 16384⟩)
      [.sendStart 0 3 [1] false, .sendEnter 0 true .left, .sendStart 1 40 [2] false, .sendEnter 1 true .left,
        .recvEnter 2 100 true .left]).map (·.log) = some [.take 2 high, .put high, .put low] := by decide
  obtain ⟨w, hw, hlog⟩ := Option.map_eq_some_iff.mp hrun
  have hreach : system.Reachable w := System.reach_run _ _ _ _ _ ⟨_, _, rfl⟩ hw
  obtain ⟨horder, -, -, -, -, -, hlength, -⟩ := received_by_priority hreach
  refine ⟨w, hreach, hlog, horder [] 2 high [.put high, .put low] hlog, ?_⟩
  rw [hlength, hlog]
  decide

end NetBSD.Kern.SysMqueue
