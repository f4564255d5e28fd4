import NetBSD.Lib.Serial
import NetBSD.Lib.System
import Mathlib.Tactic.IntervalCases

/-! The packet filter's record of a TCP connection.

For each direction the filter keeps the largest end, upper bound and window it has seen of the segments it passed. A
segment is judged by the record of its own direction and that of its peer; what it tells is then noted in both. A window
of 0 says that no segment has been seen at all, an end of 0 that none has in this direction. -/
namespace NetBSD.Net.Npf
open Lib

/-- NPF_FLOW_FORW, NPF_FLOW_BACK. -/
inductive Dir where
  | forw | back
  deriving DecidableEq

def Dir.other : Dir → Dir
  | .forw => .back
  | .back => .forw

/-- NPF_TCPS_*, without NPF_TCPS_OK. -/
inductive TcpState where
  | closed | synSent | simsynSent | synReceived | established | finSent | finReceived | closeWait | finWait | closing
  | lastAck | timeWait
  deriving DecidableEq

structure TcpSt where
  nstEnd : BitVec 32
  nstMaxend : BitVec 32
  nstMaxwin : BitVec 32
  nstWscale : Nat
  deriving DecidableEq

structure State where
  nstState : TcpState
  forw : TcpSt
  back : TcpSt
  deriving DecidableEq

def State.get (nst : State) : Dir → TcpSt
  | .forw => nst.forw
  | .back => nst.back

/-- The record of the direction and that of its peer are written. -/
def State.put (nst : State) (di : Dir) (fstate tstate : TcpSt) : State :=
  match di with
  | .forw => { nst with forw := fstate, back := tstate }
  | .back => { nst with forw := tstate, back := fstate }

/-- The length in the IP header. -/
inductive IpLen where
  | v4 (len : BitVec 16)
  | v6 (plen : BitVec 16)
  | other

/-- The parts of `npf_cache_t` that are read. `opts` are the bytes of the options, if the packet has them all. -/
structure Cache where
  seq : BitVec 32
  ack : BitVec 32
  off : BitVec 4
  flags : BitVec 8
  win : BitVec 16
  ip : IpLen
  hlen : BitVec 32
  opts : Option (List UInt8)

def TH_FIN : BitVec 8 := 0x01
def TH_SYN : BitVec 8 := 0x02
def TH_RST : BitVec 8 := 0x04
def TH_ACK : BitVec 8 := 0x10

def Cache.has (npc : Cache) (fl : BitVec 8) : Bool := npc.flags &&& fl != 0

def npfTcpsaw (npc : Cache) : BitVec 32 :=
  let thlen := npc.off.setWidth 32 <<< 2
  match npc.ip with
  | .v4 len => len.setWidth 32 - npc.hlen - thlen
  | .v6 plen => plen.setWidth 32 - (npc.hlen - 40) - thlen
  | .other => 0

/-- The scan of the options, for the window scale; a round goes over one option. -/
def scanTcpopts : Nat → List UInt8 → Nat → Nat
  | 0, _, wscale => wscale
  | _, [], wscale => wscale
  | rounds + 1, opt :: rest, wscale =>
    if opt = 0 then wscale
    else if opt = 1 then scanTcpopts rounds rest wscale
    else
      match rest with
      | [] => wscale
      | optlen :: vals =>
        if optlen < 2 ∨ optlen.toNat > vals.length + 2 then wscale
        else
          let wscale := if opt = 3 ∧ optlen = 3 then min 14 (vals.headD 0).toNat else wscale
          scanTcpopts rounds (vals.drop (optlen.toNat - 2)) wscale

/-- The window scale that `npf_fetch_tcpopts` leaves in a field that was 0. -/
def npfFetchTcpopts (npc : Cache) : Nat :=
  let cnt := npc.off.toNat * 4 - 20
  match npc.opts with
  | none => 0
  | some bytes => scanTcpopts cnt (bytes.take cnt) 0

/-! ### npf_tcp_inwindow -/

def NPF_TCP_MAXACKWIN : BitVec 32 := 66000

def npfStrictOrderRst : Bool := true

/-- The sequence numbers a segment is judged by. -/
structure Numbers where
  seq : BitVec 32
  ack : BitVec 32
  lastSeq : BitVec 32

/-- The end of the segment: SYN and FIN count. -/
def Cache.lastSeq (npc : Cache) : BitVec 32 :=
  npc.seq + npfTcpsaw npc + (if npc.has TH_SYN then 1 else 0) + (if npc.has TH_FIN then 1 else 0)

def Cache.window (npc : Cache) (fstate : TcpSt) : BitVec 32 :=
  if npc.win = 0 then 1 else npc.win.setWidth 32 <<< fstate.nstWscale

/-- The record started by a segment in a direction that has seen none. -/
def started (npc : Cache) (fstate : TcpSt) : TcpSt :=
  ⟨npc.lastSeq, npc.lastSeq + 1, npc.window fstate, if npc.has TH_SYN then npfFetchTcpopts npc else 0⟩

/-- The acknowledgement and, for a RST to the initial SYN, the sequence number are made up where the segment has none. -/
def numbers (npc : Cache) (state : TcpState) (fstate tstate : TcpSt) : Numbers :=
  let ack := if npc.has TH_ACK = false ∨ npc.has TH_RST = true ∧ npc.ack = 0 then tstate.nstEnd else npc.ack
  if npc.has TH_RST ∧ npc.seq = 0 ∧ state = .synSent then ⟨fstate.nstEnd, ack, fstate.nstEnd⟩
  else ⟨npc.seq, ack, npc.lastSeq⟩

/-- `NPF_TCP_MAXACKWIN << nst_wscale`, as an `int`. -/
def maxAckskew (fstate : TcpSt) : Int := (NPF_TCP_MAXACKWIN <<< fstate.nstWscale).toInt

/-- RST packets come strictly in order. -/
def rstOrder (npc : Cache) (fstate : TcpSt) (n : Numbers) : Prop :=
  npc.has TH_RST = true → npfStrictOrderRst = true → fstate.nstEnd - n.seq ≤ 1

structure InWindow (fstate tstate : TcpSt) (n : Numbers) : Prop where
  upper : Serial.le n.lastSeq fstate.nstMaxend
  lower : Serial.ge n.seq (fstate.nstEnd - tstate.nstMaxwin)
  ackLow : -66000 ≤ (tstate.nstEnd - n.ack).toInt
  ackHigh : (tstate.nstEnd - n.ack).toInt ≤ maxAckskew fstate

instance (npc : Cache) (fstate : TcpSt) (n : Numbers) : Decidable (rstOrder npc fstate n) :=
  inferInstanceAs (Decidable (_ → _ → _))

instance (fstate tstate : TcpSt) (n : Numbers) : Decidable (InWindow fstate tstate n) :=
  decidable_of_iff (Serial.le n.lastSeq fstate.nstMaxend ∧ Serial.ge n.seq (fstate.nstEnd - tstate.nstMaxwin) ∧
    -66000 ≤ (tstate.nstEnd - n.ack).toInt ∧ (tstate.nstEnd - n.ack).toInt ≤ maxAckskew fstate)
    ⟨fun ⟨h1, h2, h3, h4⟩ => ⟨h1, h2, h3, h4⟩, fun ⟨h1, h2, h3, h4⟩ => ⟨h1, h2, h3, h4⟩⟩

/-- What a segment that is passed tells of its own direction. -/
def noteOwn (fstate : TcpSt) (n : Numbers) (win : BitVec 32) : TcpSt :=
  { fstate with
    nstMaxwin := if fstate.nstMaxwin < win then win else fstate.nstMaxwin
    nstEnd := if Serial.gt n.lastSeq fstate.nstEnd then n.lastSeq else fstate.nstEnd }

def notePeer (tstate : TcpSt) (n : Numbers) (win : BitVec 32) : TcpSt :=
  { tstate with
    nstEnd := if (tstate.nstEnd - n.ack).toInt < 0 then n.ack else tstate.nstEnd
    nstMaxend := if Serial.ge (n.ack + win) tstate.nstMaxend then n.ack + win else tstate.nstMaxend }

/-- The answer, and the connection after it. -/
def npfTcpInwindow (npc : Cache) (nst : State) (di : Dir) : Bool × State :=
  let fstate := nst.get di
  let tstate := nst.get di.other
  let win := npc.window fstate
  if fstate.nstMaxwin = 0 then
    (true, nst.put di ⟨npc.lastSeq, npc.lastSeq, win, npfFetchTcpopts npc⟩ ⟨0, 0, 1, 0⟩)
  else
    let fstate := if fstate.nstEnd = 0 then started npc fstate else fstate
    let n := numbers npc nst.nstState fstate tstate
    if rstOrder npc fstate n ∧ InWindow fstate tstate n then
      (true, nst.put di (noteOwn fstate n win) (notePeer tstate n win))
    -- The record that was started stays.
    else (false, nst.put di fstate tstate)

inductive FlagCase where
  | invalid | syn | synack | ack | fin

def caseOf : Nat → Option FlagCase
  | 0 => some .invalid
  | 1 => some .syn
  | 2 => some .synack
  | 3 => some .ack
  | 4 => some .fin
  | _ => none

def npfTcpfl2case (tcpfl : BitVec 8) : Option FlagCase :=
  let i := ((tcpfl &&& (TH_SYN ||| TH_FIN)) ||| ((tcpfl &&& TH_ACK) >>> 2)).toNat
  caseOf ((0x2430140 >>> (i <<< 2)) &&& 7)

/-- The table of transitions; `none` is NPF_TCPS_OK, and an entry that is missing is the state 0. -/
def npfTcpFsm : TcpState → Dir → FlagCase → Option TcpState
  | .closed, .forw, .syn => some .synSent
  | .synSent, .forw, .syn => none
  | .synSent, .back, .synack => some .synReceived
  | .synSent, .back, .syn => some .simsynSent
  | .simsynSent, .forw, .syn => none
  | .simsynSent, .forw, .synack => some .synReceived
  | .simsynSent, .back, .syn => none
  | .simsynSent, .back, .synack => some .synReceived
  | .simsynSent, .back, .fin => some .finReceived
  | .synReceived, .forw, .ack => some .established
  | .synReceived, .forw, .fin => some .finSent
  | .synReceived, .forw, .syn => none
  | .synReceived, .back, .synack => none
  | .synReceived, .back, .ack => none
  | .synReceived, .back, .fin => some .finReceived
  | .established, _, .ack => none
  | .established, .forw, .fin => some .finSent
  | .established, .back, .fin => some .finReceived
  | .finSent, .forw, .ack => none
  | .finSent, .forw, .fin => none
  | .finSent, .back, .ack => some .finWait
  | .finSent, .back, .fin => some .closing
  | .finReceived, .forw, .ack => some .closeWait
  | .finReceived, .forw, .fin => some .closing
  | .finReceived, .back, .ack => none
  | .finReceived, .back, .fin => none
  | .closeWait, _, .ack => none
  | .closeWait, _, .fin => some .lastAck
  | .finWait, _, .ack => none
  | .finWait, _, .fin => some .lastAck
  | .closing, _, .ack => some .lastAck
  | .lastAck, _, .ack => some .timeWait
  | .timeWait, .forw, .syn => some .synSent
  | _, _, _ => some .closed

/-- The state a segment leads to, if it belongs to the connection. -/
def nextState (npc : Cache) (state : TcpState) (di : Dir) : Option TcpState :=
  if npc.has TH_RST then if state = .timeWait then none else some .closed
  else (npfTcpfl2case npc.flags).elim none (npfTcpFsm state di)

/-- The answer, and the connection after it. -/
def npfStateTcp (npc : Cache) (nst : State) (di : Dir) : Bool × State :=
  let nstate := nextState npc nst.nstState di
  match npfTcpInwindow npc nst di with
  | (false, nst) => (false, nst)
  | (true, nst) => (true, { nst with nstState := nstate.getD nst.nstState })

/-! ### What a segment does -/

@[simp] theorem get_put_self (nst : State) (di : Dir) (f t : TcpSt) : (nst.put di f t).get di = f := by cases di <;> rfl

@[simp] theorem get_put_other (nst : State) (di : Dir) (f t : TcpSt) : (nst.put di f t).get di.other = t := by cases di <;> rfl

@[simp] theorem put_nstState (nst : State) (di : Dir) (f t : TcpSt) : (nst.put di f t).nstState = nst.nstState := by
  cases di <;> rfl

theorem put_eq_self (nst : State) (di : Dir) (f : TcpSt) : nst.put di f (nst.get di.other) = nst ↔ f = nst.get di := by
  constructor
  · intro h
    rw [← h, get_put_self]
  · rintro rfl
    cases di <;> rfl

/-- The record the segment is judged by: a direction that has seen none starts with this one. -/
def State.judge (nst : State) (npc : Cache) (di : Dir) : TcpSt :=
  if (nst.get di).nstEnd = 0 then started npc (nst.get di) else nst.get di

/-- The numbers the segment is judged by. -/
def State.numbers (nst : State) (npc : Cache) (di : Dir) : Numbers :=
  Npf.numbers npc nst.nstState (nst.judge npc di) (nst.get di.other)

/-- The tests the segment has to pass. -/
def State.Passes (nst : State) (npc : Cache) (di : Dir) : Prop :=
  rstOrder npc (nst.judge npc di) (nst.numbers npc di) ∧ InWindow (nst.judge npc di) (nst.get di.other) (nst.numbers npc di)

instance (nst : State) (npc : Cache) (di : Dir) : Decidable (nst.Passes npc di) := inferInstanceAs (Decidable (_ ∧ _))

/-- The state after a segment that is passed. -/
def State.after (nst : State) (npc : Cache) (di : Dir) : TcpState := (nextState npc nst.nstState di).getD nst.nstState

section
variable {npc : Cache} {nst : State} {di : Dir}

theorem npfStateTcp_first (h : (nst.get di).nstMaxwin = 0) :
    npfStateTcp npc nst di = (true, { nst.put di ⟨npc.lastSeq, npc.lastSeq, npc.window (nst.get di), npfFetchTcpopts npc⟩
      ⟨0, 0, 1, 0⟩ with nstState := nst.after npc di }) := by
  rw [npfStateTcp, npfTcpInwindow, if_pos h]
  simp only [put_nstState]
  rfl

theorem npfTcpInwindow_later (h : (nst.get di).nstMaxwin ≠ 0) : npfTcpInwindow npc nst di = if nst.Passes npc di then
      (true, nst.put di (noteOwn (nst.judge npc di) (nst.numbers npc di) (npc.window (nst.get di)))
        (notePeer (nst.get di.other) (nst.numbers npc di) (npc.window (nst.get di))))
      else (false, nst.put di (nst.judge npc di) (nst.get di.other)) := by
  rw [npfTcpInwindow, if_neg h]
  rfl

theorem npfStateTcp_passed (h : (nst.get di).nstMaxwin ≠ 0) (hpass : nst.Passes npc di) : npfStateTcp npc nst di = (true, { nst.put di
      (noteOwn (nst.judge npc di) (nst.numbers npc di) (npc.window (nst.get di)))
      (notePeer (nst.get di.other) (nst.numbers npc di) (npc.window (nst.get di))) with nstState := nst.after npc di }) := by
  rw [npfStateTcp, npfTcpInwindow_later h, if_pos hpass]
  simp only [put_nstState]
  rfl

theorem npfStateTcp_rejected (h : (nst.get di).nstMaxwin ≠ 0) (hpass : ¬nst.Passes npc di) :
    npfStateTcp npc nst di = (false, nst.put di (nst.judge npc di) (nst.get di.other)) := by
  rw [npfStateTcp, npfTcpInwindow_later h, if_neg hpass]

end

/-! ### Rejected segments -/

/-- The sequence numbers the segment takes; none if it is a RST to the initial SYN without a sequence number. -/
def seqLen (npc : Cache) (nst : State) : BitVec 32 :=
  if npc.has TH_RST ∧ npc.seq = 0 ∧ nst.nstState = .synSent then 0 else npc.lastSeq - npc.seq

/-- The segment acknowledges something. -/
def Cache.acks (npc : Cache) : Prop := npc.has TH_ACK = true ∧ (npc.has TH_RST = true → npc.ack ≠ 0)

instance (npc : Cache) : Decidable npc.acks := inferInstanceAs (Decidable (_ ∧ (_ → _)))

/-- The segment fits the record of the peer: it is no RST with more than one number, no longer than the peer's window, and
acknowledges what the peer has sent. -/
structure Fits (npc : Cache) (nst : State) (di : Dir) : Prop where
  order : npc.has TH_RST = true → seqLen npc nst ≤ 1
  length : 0 ≤ ((nst.get di.other).nstMaxwin - seqLen npc nst).toInt
  ack : npc.acks → -66000 ≤ ((nst.get di.other).nstEnd - npc.ack).toInt ∧
    ((nst.get di.other).nstEnd - npc.ack).toInt ≤ maxAckskew (started npc (nst.get di))

theorem scanTcpopts_le (rounds : Nat) : ∀ (bytes : List UInt8) (wscale : Nat), wscale ≤ 14 → scanTcpopts rounds bytes wscale ≤ 14 := by
  induction rounds with
  | zero => exact fun bytes wscale h => by simpa [scanTcpopts] using h
  | succ rounds ih =>
    intro bytes wscale h
    cases bytes with
    | nil => exact h
    | cons opt rest =>
      rw [scanTcpopts.eq_def]
      dsimp only
      split
      · exact h
      split
      · exact ih _ _ h
      cases rest with
      | nil => exact h
      | cons optlen vals =>
        dsimp only
        split
        · exact h
        apply ih
        split
        · exact min_le_left _ _
        · exact h

section
variable (npc : Cache)
include npc

theorem npfFetchTcpopts_le : npfFetchTcpopts npc ≤ 14 := by
  rw [npfFetchTcpopts]
  split
  · exact Nat.zero_le _
  · exact scanTcpopts_le _ _ _ (Nat.zero_le _)

theorem maxAckskew_started (fstate : TcpSt) : 0 ≤ maxAckskew (started npc fstate) := by
  have hscale : (started npc fstate).nstWscale ≤ 14 := by
    rw [started]
    split
    · exact npfFetchTcpopts_le npc
    · exact Nat.zero_le _
  rw [maxAckskew]
  generalize (started npc fstate).nstWscale = k at hscale
  interval_cases k <;> decide

theorem numbers_ack (state : TcpState) (fstate tstate : TcpSt) :
    (numbers npc state fstate tstate).ack = if npc.acks then npc.ack else tstate.nstEnd := by
  have hack : (numbers npc state fstate tstate).ack =
      if npc.has TH_ACK = false ∨ npc.has TH_RST = true ∧ npc.ack = 0 then tstate.nstEnd else npc.ack := by
    rw [numbers]
    split <;> rfl
  rw [hack]
  cases h1 : npc.has TH_ACK <;> cases h2 : npc.has TH_RST <;> by_cases h3 : npc.ack = 0 <;> simp [Cache.acks, h1, h2, h3]

theorem numbers_started (state : TcpState) (fstate tstate : TcpSt) : (numbers npc state (started npc fstate) tstate).lastSeq = npc.lastSeq := by
  rw [numbers]
  split <;> rfl

theorem numbers_seq (nst : State) (fstate tstate : TcpSt) :
    npc.lastSeq - (numbers npc nst.nstState (started npc fstate) tstate).seq = seqLen npc nst := by
  rw [numbers, seqLen]
  split
  · exact BitVec.sub_self _
  · rfl

end

theorem passes_iff_fits {npc : Cache} {nst : State} {di : Dir} (h : (nst.get di).nstEnd = 0) : nst.Passes npc di ↔ Fits npc nst di := by
  have hjudge : nst.judge npc di = started npc (nst.get di) := if_pos h
  have hseq := numbers_seq npc nst (nst.get di) (nst.get di.other)
  have hlast := numbers_started npc nst.nstState (nst.get di) (nst.get di.other)
  have hack := numbers_ack npc nst.nstState (started npc (nst.get di)) (nst.get di.other)
  -- One number lies between the end and the bound of the record that is started.
  have hupper : Serial.le npc.lastSeq (started npc (nst.get di)).nstMaxend := by
    show (npc.lastSeq - (npc.lastSeq + 1)).toInt ≤ 0
    rw [sub_add_cancel_left]
    decide
  have hlower : (numbers npc nst.nstState (started npc (nst.get di)) (nst.get di.other)).seq -
      (npc.lastSeq - (nst.get di.other).nstMaxwin) = (nst.get di.other).nstMaxwin - seqLen npc nst := by
    rw [← hseq]
    rw [sub_sub_eq_add_sub, sub_sub_eq_add_sub, add_comm]
  rw [State.Passes, State.numbers, hjudge]
  constructor
  · rintro ⟨horder, -, hlow, hack1, hack2⟩
    refine ⟨?_, ?_, ?_⟩
    · intro hrst
      rw [← hseq]
      exact horder hrst rfl
    · rw [← hlower]
      exact hlow
    · intro hacks
      rw [hack, if_pos hacks] at hack1 hack2
      exact ⟨hack1, hack2⟩
  rintro ⟨horder, hlen, hacks⟩
  have hskew : -66000 ≤ ((nst.get di.other).nstEnd - (if npc.acks then npc.ack else (nst.get di.other).nstEnd)).toInt ∧
      ((nst.get di.other).nstEnd - (if npc.acks then npc.ack else (nst.get di.other).nstEnd)).toInt ≤ maxAckskew (started npc (nst.get di)) := by
    split
    · next h => exact hacks h
    · rw [BitVec.sub_self]
      exact ⟨by decide, maxAckskew_started npc _⟩
  refine ⟨?_, ?_, ?_, ?_, ?_⟩
  · intro hrst _
    have horder := horder hrst
    rw [← hseq] at horder
    exact horder
  · rw [hlast]
    exact hupper
  · show (_ - (npc.lastSeq - _)).toInt ≥ 0
    rw [hlower]
    exact hlen
  · rw [hack]
    exact hskew.1
  · rw [hack]
    exact hskew.2

/-- A rejected segment leaves the connection as it was, except one that starts the record of a direction that has seen
none, and does not fit the record of the peer. -/
theorem rejected_unchanged_iff (npc : Cache) (nst : State) (di : Dir) : ((npfStateTcp npc nst di).1 = false → (npfStateTcp npc nst di).2 = nst) ↔
      (nst.get di).nstMaxwin = 0 ∨ (nst.get di).nstEnd ≠ 0 ∨ Fits npc nst di ∨ started npc (nst.get di) = nst.get di := by
  by_cases hwin : (nst.get di).nstMaxwin = 0
  · rw [npfStateTcp_first hwin]
    exact iff_of_true (fun h => Bool.noConfusion h) (.inl hwin)
  by_cases hpass : nst.Passes npc di
  · rw [npfStateTcp_passed hwin hpass]
    refine iff_of_true (fun h => Bool.noConfusion h) (.inr ?_)
    by_cases hend : (nst.get di).nstEnd = 0
    · exact .inr (.inl ((passes_iff_fits hend).mp hpass))
    · exact .inl hend
  rw [npfStateTcp_rejected hwin hpass]
  have hsame := put_eq_self nst di (nst.judge npc di)
  by_cases hend : (nst.get di).nstEnd = 0
  · have hjudge : nst.judge npc di = started npc (nst.get di) := if_pos hend
    have hfits : ¬Fits npc nst di := fun hf => hpass ((passes_iff_fits hend).mpr hf)
    rw [hjudge] at hsame ⊢
    constructor
    · intro h
      exact .inr (.inr (.inr (hsame.mp (h rfl))))
    rintro (h | h | h | h)
    · exact absurd h hwin
    · exact absurd hend h
    · exact absurd h hfits
    · exact fun _ => hsame.mpr h
  · have hjudge : nst.judge npc di = nst.get di := if_neg hend
    exact iff_of_true (fun _ => hsame.mpr hjudge) (.inr (.inl hend))

/-- After a SYN with end 101, a SYN-ACK of somebody who does not know it: it is rejected and its record stays. -/
theorem forged_synack_stays :
    let nst : State := ⟨.synSent, ⟨101, 101, 1000, 0⟩, ⟨0, 0, 1, 0⟩⟩
    let npc : Cache := ⟨5000, 900000, 5, 0x12, 10, .v4 40, 20, none⟩
    (npfStateTcp npc nst .back).1 = false ∧ (npfStateTcp npc nst .back).2 ≠ nst := by
  decide

end NetBSD.Net.Npf
