import NetBSD.Net.Npf.StateTcp

/-! The window over whole runs.

`World` adds to the connection which directions have had a segment that was passed. As long as no segment of such a
direction finds its end at 0, every one that is passed is within the window before it, and no end that is known moves
back. An end at 0 is taken for a direction not seen: the segment starts its record anew, wherever it lies. -/
namespace NetBSD.Net.Npf
open Lib

structure World where
  nst : State
  seen : Dir → Bool

def unseen : TcpSt := ⟨0, 0, 0, 0⟩

/-- The connection before its first segment. -/
def fresh : State := ⟨.closed, unseen, unseen⟩

def World.init (w : World) : Prop := w.nst = fresh ∧ ∀ d, w.seen d = false

/-- A segment comes in a direction. -/
def next (w : World) (a : Cache × Dir) : World :=
  let (ok, nst) := npfStateTcp a.1 w.nst a.2
  ⟨nst, if ok then Function.update w.seen a.2 true else w.seen⟩

def system : System World (Cache × Dir) := ⟨World.init, fun w a w' => w' = next w a⟩

/-- The segment does not find the end of a direction that is in use at 0. -/
def EndKnown (w : World) (a : Cache × Dir) : Prop := w.seen a.2 = true → (w.nst.get a.2).nstEnd ≠ 0

/-- Nothing has been seen, or both directions have a window. -/
structure Inv (w : World) : Prop where
  windows : (w.nst = fresh ∧ ∀ d, w.seen d = false) ∨ ∀ d, (w.nst.get d).nstMaxwin ≠ 0
  scales : ∀ d, (w.nst.get d).nstWscale ≤ 14

theorem window_ne_zero (npc : Cache) {fstate : TcpSt} (h : fstate.nstWscale ≤ 14) : npc.window fstate ≠ 0 := by
  rw [Cache.window]
  split
  · decide
  · next hwin =>
    intro heq
    apply hwin
    have hnat := congrArg BitVec.toNat heq
    have hpow : 2 ^ fstate.nstWscale ≤ 2 ^ 14 := Nat.pow_le_pow_right (by decide) h
    have hle : npc.win.toNat * 2 ^ fstate.nstWscale ≤ 2 ^ 16 * 2 ^ 14 := Nat.mul_le_mul (by omega) hpow
    rw [BitVec.toNat_shiftLeft, BitVec.toNat_setWidth_of_le (by decide), Nat.shiftLeft_eq, Nat.mod_eq_of_lt (by omega)] at hnat
    have hzero : npc.win.toNat = 0 := (Nat.mul_eq_zero.mp hnat).resolve_right (Nat.two_pow_pos _).ne'
    exact BitVec.eq_of_toNat_eq hzero

theorem noteOwn_maxwin {fstate : TcpSt} (h : fstate.nstMaxwin ≠ 0) (n : Numbers) (win : BitVec 32) : (noteOwn fstate n win).nstMaxwin ≠ 0 := by
  rw [noteOwn]
  dsimp only
  split
  · next hlt =>
    rintro rfl
    exact BitVec.not_lt_zero hlt
  · exact h

theorem forall_dir {p : Dir → Prop} (d : Dir) : (∀ d, p d) ↔ p d ∧ p d.other := by
  constructor
  · exact fun h => ⟨h d, h d.other⟩
  · rintro ⟨h, h'⟩ (_ | _) <;> cases d <;> assumption

theorem judge_scale {w : World} (h : Inv w) (npc : Cache) (di : Dir) : (w.nst.judge npc di).nstWscale ≤ 14 := by
  rw [State.judge]
  split
  · rw [started]
    split
    · exact npfFetchTcpopts_le npc
    · exact Nat.zero_le _
  · exact h.scales di

theorem judge_maxwin {w : World} (h : Inv w) {npc : Cache} {di : Dir} (hwin : (w.nst.get di).nstMaxwin ≠ 0) :
    (w.nst.judge npc di).nstMaxwin ≠ 0 := by
  rw [State.judge]
  split
  · exact window_ne_zero npc (h.scales di)
  · exact hwin

theorem Inv.other_maxwin {w : World} (h : Inv w) {di : Dir} (hwin : (w.nst.get di).nstMaxwin ≠ 0) (d : Dir) : (w.nst.get d).nstMaxwin ≠ 0 := by
  rcases h.windows with ⟨hfresh, -⟩ | hall
  · rw [hfresh] at hwin
    cases di <;> exact absurd rfl hwin
  · exact hall d

/-- Records written in both directions, each with a window and a scale that the options can have. -/
theorem Inv.put {w : World} {di : Dir} {f t : TcpSt} {st : TcpState} {seen : Dir → Bool} (hf : f.nstMaxwin ≠ 0)
    (ht : t.nstMaxwin ≠ 0) (hf' : f.nstWscale ≤ 14) (ht' : t.nstWscale ≤ 14) :
    Inv ⟨{ w.nst.put di f t with nstState := st }, seen⟩ := by
  have hget : ∀ d, ({ w.nst.put di f t with nstState := st } : State).get d = (w.nst.put di f t).get d := fun d => by cases d <;> rfl
  constructor
  · refine .inr ((forall_dir di).mpr ?_)
    rw [hget, hget, get_put_self, get_put_other]
    exact ⟨hf, ht⟩
  · refine (forall_dir di).mpr ?_
    rw [hget, hget, get_put_self, get_put_other]
    exact ⟨hf', ht'⟩

theorem Inv.next {w : World} (h : Inv w) (a : Cache × Dir) : Inv (next w a) := by
  obtain ⟨npc, di⟩ := a
  rw [Npf.next]
  by_cases hwin : (w.nst.get di).nstMaxwin = 0
  · rw [npfStateTcp_first hwin]
    exact .put (window_ne_zero npc (h.scales di)) (by decide) (npfFetchTcpopts_le npc) (by decide)
  by_cases hpass : w.nst.Passes npc di
  · rw [npfStateTcp_passed hwin hpass]
    exact .put (noteOwn_maxwin (judge_maxwin h hwin) _ _) (h.other_maxwin hwin _) (judge_scale h npc di) (h.scales _)
  · rw [npfStateTcp_rejected hwin hpass]
    exact .put (judge_maxwin h hwin) (h.other_maxwin hwin _) (judge_scale h npc di) (h.scales _)

theorem reach_inv {ok : World → Cache × Dir → Prop} {w : World} (h : system.Reach ok w) : Inv w := by
  apply h.invariant
  · rintro w ⟨hnst, hseen⟩
    refine ⟨.inl ⟨hnst, hseen⟩, ?_⟩
    rw [hnst]
    rintro (_ | _) <;> decide
  · rintro w a _ hw - rfl
    exact hw.next a

/-! ### Segments that are passed -/

theorem noteOwn_forward (fstate : TcpSt) (n : Numbers) (win : BitVec 32) : ¬Serial.lt (noteOwn fstate n win).nstEnd fstate.nstEnd := by
  rw [noteOwn]
  dsimp only
  split
  · next hgt =>
    rw [Serial.lt]
    rw [Serial.gt] at hgt
    omega
  · rw [Serial.lt, BitVec.sub_self]
    decide

theorem notePeer_forward {fstate tstate : TcpSt} {n : Numbers} (h : InWindow fstate tstate n) (win : BitVec 32) :
    ¬Serial.lt (notePeer tstate n win).nstEnd tstate.nstEnd := by
  rw [notePeer]
  dsimp only
  split
  · next hskew =>
    have hlow := h.ackLow
    have hneg : (n.ack - tstate.nstEnd).toInt = -(tstate.nstEnd - n.ack).toInt := by
      rw [← neg_sub tstate.nstEnd n.ack]
      apply BitVec.toInt_neg_of_ne_intMin
      intro heq
      rw [heq] at hlow
      exact absurd hlow (by decide)
    rw [Serial.lt]
    omega
  · rw [Serial.lt, BitVec.sub_self]
    decide

/-- The end of a direction is known when a segment of it has been passed, or its peer has acknowledged one. -/
def Known (w : World) (d : Dir) : Prop := w.seen d = true ∨ (w.nst.get d).nstEnd ≠ 0

/-- In every run in which no segment finds the end of its direction at 0 once that is in use, what is passed in such a
direction is within the window before it, and no end that is known moves back. -/
theorem window_sound {w : World} (h : system.Reach EndKnown w) {npc : Cache} {di : Dir} (hknown : EndKnown w (npc, di))
    (hpassed : (npfStateTcp npc w.nst di).1 = true) :
    (w.seen di = true → (w.nst.get di).nstMaxwin ≠ 0 ∧
      InWindow (w.nst.get di) (w.nst.get di.other) (numbers npc w.nst.nstState (w.nst.get di) (w.nst.get di.other))) ∧
      ∀ d, Known w d → ¬Serial.lt (((npfStateTcp npc w.nst di).2.get d).nstEnd) (w.nst.get d).nstEnd := by
  have hinv := reach_inv h
  by_cases hwin : (w.nst.get di).nstMaxwin = 0
  · -- The first segment of all: nothing is known.
    rcases hinv.windows with ⟨hfresh, hseen⟩ | hall
    · refine ⟨fun hs => absurd hs (by rw [hseen]; decide), ?_⟩
      rintro d (hs | hne)
      · exact absurd hs (by rw [hseen]; decide)
      · rw [hfresh] at hne
        cases d <;> exact absurd rfl hne
    · exact absurd hwin (hall di)
  have hpass : w.nst.Passes npc di := by
    by_contra hpass
    rw [npfStateTcp_rejected hwin hpass] at hpassed
    cases hpassed
  have hget : ∀ f t d, ({ w.nst.put di f t with nstState := w.nst.after npc di } : State).get d = (w.nst.put di f t).get d :=
    fun f t d => by cases d <;> rfl
  rw [npfStateTcp_passed hwin hpass, forall_dir di]
  simp only [hget, get_put_self, get_put_other]
  have hpeer := notePeer_forward hpass.2 (npc.window (w.nst.get di))
  by_cases hend : (w.nst.get di).nstEnd = 0
  · -- The direction has seen none, so that its end is not known.
    have hseen : ¬w.seen di = true := fun hs => hknown hs hend
    refine ⟨fun hs => absurd hs hseen, ?_, fun _ => hpeer⟩
    rintro (hs | hne)
    · exact absurd hs hseen
    · exact absurd hend hne
  · have hjudge : w.nst.judge npc di = w.nst.get di := if_neg hend
    have hwindow := hpass.2
    rw [State.numbers, hjudge] at hwindow
    rw [hjudge]
    exact ⟨fun _ => ⟨hwin, hwindow⟩, fun _ => noteOwn_forward _ _ _, fun _ => hpeer⟩

/-- A segment with nothing but its numbers and flags. -/
def segment (seq ack : BitVec 32) (flags : BitVec 8) : Cache := ⟨seq, ack, 5, flags, 1000, .v4 40, 20, none⟩

def after (segs : List (Cache × Dir)) : World := segs.foldl next ⟨fresh, fun _ => false⟩

/-- A connection is opened; its first data is within the window. -/
theorem window_sound_opened :
    let w := after [(segment 100 0 0x02, .forw), (segment 500 101 0x12, .back)]
    Serial.le (segment 101 501 0x10).lastSeq (w.nst.get .forw).nstMaxend ∧
      ¬Serial.lt ((npfStateTcp (segment 101 501 0x10) w.nst .forw).2.get .back).nstEnd (w.nst.get .back).nstEnd := by
  intro w
  have hreach : system.Reach EndKnown w := by
    refine .step (s := after [(segment 100 0 0x02, .forw)]) (a := (segment 500 101 0x12, .back))
      (.step (s := after []) (a := (segment 100 0 0x02, .forw)) (.init ⟨rfl, fun _ => rfl⟩) ?_ rfl) ?_ rfl
    · exact fun hs => absurd hs (by decide)
    · exact fun hs => absurd hs (by decide)
  have hknown : EndKnown w (segment 101 501 0x10, .forw) := fun _ => by decide
  obtain ⟨hwindow, hforward⟩ := window_sound hreach hknown (by decide)
  exact ⟨(hwindow (by decide)).2.upper, hforward .back (.inl (by decide))⟩

/-- The end of a direction comes to 0, and a segment far beyond the window is passed in it. -/
theorem end_zero_passes : ∃ w, system.Reachable w ∧ w.seen .forw = true ∧ (npfStateTcp (segment 0x70000000 501 0x10) w.nst .forw).1 = true ∧
    ¬Serial.le (segment 0x70000000 501 0x10).lastSeq (w.nst.get .forw).nstMaxend := by
  refine ⟨after [(segment 0xffffffff 0 0x02, .forw), (segment 500 0 0x12, .back)], ?_, by decide, by decide, by decide⟩
  exact .step (s := after [(segment 0xffffffff 0 0x02, .forw)]) (a := (segment 500 0 0x12, .back))
    (.step (s := after []) (a := (segment 0xffffffff 0 0x02, .forw)) (.init ⟨rfl, fun _ => rfl⟩) trivial rfl) trivial rfl

end NetBSD.Net.Npf
