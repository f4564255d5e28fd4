import Mathlib.Data.List.DropRight
import NetBSD.Lib.Serial
import NetBSD.Lib.System

/-! The TCP SACK scoreboard (`sys/netinet/tcp_sack.c`).

The sender keeps the list of *holes*, the ranges of sequence numbers the peer has not
acknowledged although it has data beyond them. `tcp_sack_option` reads the blocks of a
SACK option into the list, `tcp_del_sackholes` drops what the cumulative
acknowledgement covers, `tcp_free_sackholes` clears it.

The list is a tail queue walked by a cursor that the blocks of one option share. Here
the queue under the cursor is a `Scan`: the holes passed and the holes from the cursor
on. `pool_get` may fail; its answers are part of the state, so that a run says which
allocations fail. -/
namespace NetBSD.Netinet.TcpSack
open Lib

abbrev Seq := BitVec 32

structure Sackhole where
  start : Seq
  «end» : Seq
  rxmit : Seq
  deriving DecidableEq

structure Sackblk where
  left : Seq
  right : Seq
  deriving DecidableEq

/-- What `struct tcpcb` keeps for the scoreboard. -/
structure Tcpcb where
  /-- `TCP_SACK_ENABLED(tp)`. -/
  sackEnabled : Bool
  sndUna : Seq
  sndMax : Seq
  sndFack : Seq
  rcvLastsack : Seq
  sndHoles : List Sackhole
  sndNumholes : Int
  deriving DecidableEq

structure Board where
  tp : Tcpcb
  tcpSackTpMaxholes : Int
  tcpSackGlobalmaxholes : Int
  tcpSackGlobalholes : Int
  /-- What the next calls of `pool_get(&sackhole_pool, PR_NOWAIT)` answer. -/
  pool : List Bool
  deriving DecidableEq

structure Tcphdr where
  /-- `th_flags & TH_ACK`. -/
  ackFlag : Bool
  thAck : Seq

/-- `sack_allochole`: whether there is a hole to be had, and the counts after it. -/
def sackAllochole (b : Board) : Bool × Board :=
  if b.tp.sndNumholes ≥ b.tcpSackTpMaxholes ∨ b.tcpSackGlobalholes ≥ b.tcpSackGlobalmaxholes then (false, b)
  else if b.pool.headD true then
    (true, {b with
      pool := b.pool.tail
      tcpSackGlobalholes := b.tcpSackGlobalholes + 1
      tp := {b.tp with sndNumholes := b.tp.sndNumholes + 1}})
  else (false, {b with pool := b.pool.tail})

/-- The counts after `sack_removehole`. -/
def sackRemovehole (b : Board) : Board :=
  {b with
    tcpSackGlobalholes := b.tcpSackGlobalholes - 1
    tp := {b.tp with sndNumholes := b.tp.sndNumholes - 1}}

/-- The scoreboard under the cursor: the holes before `cur` and those from it on. The
list in `b` is out of date while the scan runs. -/
structure Scan where
  b : Board
  before : List Sackhole
  cur : List Sackhole

def Scan.holes (s : Scan) : List Sackhole := s.before ++ s.cur

/-- The scoreboard as the scan leaves it. -/
def Scan.close (s : Scan) : Board := {s.b with tp := {s.b.tp with sndHoles := s.holes}}

/-- How the work on one block ends. -/
inductive Outcome where
  /-- On to the next block. -/
  | next (s : Scan)
  /-- A hole could not be allocated: `tcp_sack_option` returns. -/
  | enobufs (s : Scan)
  /-- The walk stays on a hole that none of its tests matches. -/
  | spin

/-- `sack_inserthole(tp, start, end, prev)` behind `prev`, the last hole of `before`
(behind the whole list when `prev` is `NULL`): the new hole is under the cursor. -/
def sackInserthole (b : Board) (start «end» : Seq) (before after : List Sackhole) : Outcome :=
  match sackAllochole b with
  | (false, b) => .enobufs ⟨b, before, after⟩
  | (true, b) => .next ⟨b, before, ⟨start, «end», start⟩ :: after⟩

/-- The `while (cur)` loop over the holes from the cursor on. -/
def walkHoles (sack : Sackblk) (b : Board) (before : List Sackhole) : List Sackhole → Outcome
  | [] => .next ⟨b, before, []⟩
  | cur :: rest =>
    if Serial.le sack.right cur.start then .next ⟨b, before, cur :: rest⟩
    else if Serial.ge sack.left cur.end then walkHoles sack b (before ++ [cur]) rest
    else if Serial.le sack.left cur.start then
      if Serial.ge sack.right cur.end then .next ⟨sackRemovehole b, before, rest⟩
      else .next ⟨b, before, {cur with start := sack.right, rxmit := Serial.smax cur.rxmit sack.right} :: rest⟩
    else
      -- The part of the hole below the block, when it ends it early.
      let low : Sackhole := {cur with «end» := sack.left, rxmit := Serial.smin cur.rxmit sack.left}
      if Serial.ge sack.right cur.end then .next ⟨b, before ++ [low], rest⟩
      else if Serial.lt cur.start sack.left ∧ Serial.gt cur.end sack.right then
        match sackInserthole b sack.right cur.end (before ++ [cur]) rest with
        | .next s => .next ⟨s.b, before ++ [low], ⟨sack.right, cur.end, Serial.smax cur.rxmit sack.right⟩ :: rest⟩
        | stop => stop
      else .spin

/-- `rcv_lastsack` follows the highest data known to have arrived. -/
def raiseLastsack (sack : Sackblk) (s : Scan) : Scan :=
  if Serial.lt s.b.tp.rcvLastsack sack.right then
    {s with b := {s.b with tp := {s.b.tp with rcvLastsack := sack.right}}}
  else s

/-- After the walk: a block beyond that data leaves a hole behind it. -/
def appendHole (sack : Sackblk) (s : Scan) : Outcome :=
  if Serial.lt s.b.tp.rcvLastsack sack.left then
    match sackInserthole s.b s.b.tp.rcvLastsack sack.left s.holes [] with
    | .next s => .next (raiseLastsack sack s)
    | stop => stop
  else .next (raiseLastsack sack s)

/-- FACK: `snd_fack` follows the forward-most data held by the receiver. -/
def updateFack (sack : Sackblk) (b : Board) : Board :=
  if Serial.ge sack.right b.tp.sndFack then {b with tp := {b.tp with sndFack := sack.right}} else b

/-- The body of the scoreboard loop for one block. -/
def sackBlock (thAck : Seq) (s : Scan) (sack : Sackblk) : Outcome :=
  if s.holes = [] then
    match sackInserthole (updateFack sack s.b) thAck sack.left [] [] with
    | .next s => .next {s with b := {s.b with tp := {s.b.tp with rcvLastsack := sack.right}}}
    | stop => stop
  else match walkHoles sack (updateFack sack s.b) s.before s.cur with
    | .next s => appendHole sack s
    | stop => stop

/-- The loop over the blocks; `none` when it never ends. -/
def sackBlocks (thAck : Seq) : Scan → List Sackblk → Option Scan
  | s, [] => some s
  | s, sack :: rest => match sackBlock thAck s sack with
    | .next s => sackBlocks thAck s rest
    | .enobufs s => some s
    | .spin => none

/-! ### The option -/

/-- `memcpy` and `ntohl` of the four bytes at `i`. -/
def be32 (cp : List (BitVec 8)) (i : Nat) : BitVec 32 :=
  cp.getD i 0 ++ cp.getD (i + 1) 0 ++ cp.getD (i + 2) 0 ++ cp.getD (i + 3) 0

/-- The blocks as they stand in the option, behind its kind and length. -/
def rawBlocks (cp : List (BitVec 8)) : List Sackblk :=
  (List.range (cp.length / 8)).map fun i => ⟨be32 cp (2 + 8 * i), be32 cp (2 + 8 * i + 4)⟩

/-- SACK entry that's old, or invalid. -/
def staleBlock (acked sndMax : Seq) (sack : Sackblk) : Prop :=
  Serial.le sack.right acked ∨ Serial.gt sack.right sndMax ∨ Serial.ge sack.left sack.right

instance (acked sndMax : Seq) (sack : Sackblk) : Decidable (staleBlock acked sndMax sack) :=
  inferInstanceAs (Decidable (_ ∨ _ ∨ _))

/-- One round of the insertion sort by left edge, from the far end of `t_sack_block`. -/
def insertBlock (t : List Sackblk) (sack : Sackblk) : List Sackblk :=
  t.rdropWhile (fun x => Serial.lt sack.left x.left) ++
    sack :: t.rtakeWhile (fun x => Serial.lt sack.left x.left)

/-- Where `tcp_sack_option` returns before it reads a block: SACK is off, this is not an
ACK, the length is invalid, no holes are wanted, the ACK is outside [snd_una, snd_max]. -/
def IgnoresOption (b : Board) (th : Tcphdr) (cp : List (BitVec 8)) : Prop :=
  (b.tp.sackEnabled = false ∨ th.ackFlag = false ∨ cp.length % 8 ≠ 2 ∨ cp.length < 10) ∨
  (b.tcpSackGlobalmaxholes = 0 ∨ b.tcpSackTpMaxholes = 0) ∨
  (Serial.lt th.thAck b.tp.sndUna ∨ Serial.gt th.thAck b.tp.sndMax)

instance (b : Board) (th : Tcphdr) (cp : List (BitVec 8)) : Decidable (IgnoresOption b th cp) :=
  inferInstanceAs (Decidable (_ ∨ _ ∨ _))

/-- `acked`, and `lastack` of `tcp_del_sackholes`: the later of `th_ack` and `snd_una`,
because this could be an older ack that just arrived. -/
def ackedBy (b : Board) (th : Tcphdr) : Seq :=
  if Serial.gt th.thAck b.tp.sndUna then th.thAck else b.tp.sndUna

/-- `t_sack_block` as `tcp_sack_option` fills it. -/
def tSackBlock (b : Board) (th : Tcphdr) (cp : List (BitVec 8)) : List Sackblk :=
  if IgnoresOption b th cp then []
  else (rawBlocks cp).foldl
    (fun t sack => if staleBlock (ackedBy b th) b.tp.sndMax sack then t else insertBlock t sack) []

/-- `tcp_sack_option` on the option bytes `cp`, `optlen` of them. -/
def tcpSackOption (b : Board) (th : Tcphdr) (cp : List (BitVec 8)) : Option Board :=
  (sackBlocks th.thAck ⟨b, [], b.tp.sndHoles⟩ (tSackBlock b th cp)).map Scan.close

/-- The loop of `tcp_del_sackholes`: the holes left, and how many were removed. -/
def delHoles (lastack : Seq) : List Sackhole → List Sackhole × Nat
  | [] => ([], 0)
  | cur :: rest =>
    if Serial.le cur.end lastack then ((delHoles lastack rest).1, (delHoles lastack rest).2 + 1)
    else if Serial.lt cur.start lastack then
      ({cur with
          start := lastack
          rxmit := if Serial.lt cur.rxmit lastack then lastack else cur.rxmit} :: rest, 0)
    else (cur :: rest, 0)

def tcpDelSackholes (b : Board) (th : Tcphdr) : Board :=
  let deleted := delHoles (ackedBy b th) b.tp.sndHoles
  {b with
    tcpSackGlobalholes := b.tcpSackGlobalholes - deleted.2
    tp := {b.tp with sndHoles := deleted.1, sndNumholes := b.tp.sndNumholes - deleted.2}}

def tcpFreeSackholes (b : Board) : Board :=
  {b with
    tcpSackGlobalholes := b.tcpSackGlobalholes - b.tp.sndHoles.length
    tp := {b.tp with sndHoles := [], sndNumholes := b.tp.sndNumholes - b.tp.sndHoles.length}}

/-! ### Runs -/

/-- A segment: its header, its SACK options as they follow in the option area, whether
the tests `tcp_input` makes on the way from the options to the acknowledgement let it
through, and what `pool_get` answers while it is processed. -/
structure Segment where
  th : Tcphdr
  options : List (List (BitVec 8))
  kept : Bool
  pool : List Bool

/-- `tcp_dooptions`, as far as SACK goes. -/
def tcpDooptions (b : Board) (th : Tcphdr) (options : List (List (BitVec 8))) : Option Board :=
  options.foldlM (fun b cp => tcpSackOption b th cp) b

/-- `snd_una` moves when the acknowledgement is new and in range. -/
def advanceUna (b : Board) (seg : Segment) : Board :=
  if seg.kept ∧ seg.th.ackFlag ∧ Serial.gt seg.th.thAck b.tp.sndUna ∧ Serial.le seg.th.thAck b.tp.sndMax then
    {b with tp := {b.tp with sndUna := seg.th.thAck}}
  else b

/-- What `tcp_input` does with an acknowledgement: options, then the cumulative part,
then the advance of `snd_una`. -/
def tcpInputAck (b : Board) (seg : Segment) : Option Board := do
  let b ← tcpDooptions {b with pool := seg.pool} seg.th seg.options
  return advanceUna (if b.tp.sackEnabled then tcpDelSackholes b seg.th else b) seg

inductive Action where
  /-- A segment arrives. -/
  | ack (seg : Segment)
  /-- The scoreboard is cleared: the connection closes, or a timer gives it up. -/
  | free
  /-- `tcp_output` sends `len` new bytes. -/
  | send (len : Nat)
  /-- `tcp_output` retransmits `len` bytes of the `i`-th hole. -/
  | rexmit (i len : Nat)

/-- The send window stays below `2^30`. -/
def window : Nat := 2 ^ 30

def step (b : Board) : Action → Option Board
  | .ack seg => tcpInputAck b seg
  | .free => some (tcpFreeSackholes b)
  | .send len =>
    if Serial.pos b.tp.sndUna b.tp.sndMax + len < window then
      some {b with tp := {b.tp with sndMax := b.tp.sndMax + BitVec.ofNat 32 len}}
    else none
  | .rexmit i len => match b.tp.sndHoles[i]? with
    | none => none
    | some p =>
      if len ≤ Serial.pos p.rxmit p.end then
        some {b with tp := {b.tp with
          sndHoles := b.tp.sndHoles.set i {p with rxmit := p.rxmit + BitVec.ofNat 32 len}}}
      else none

/-- A connection with nothing on its scoreboard. -/
def Idle (b : Board) : Prop :=
  Serial.pos b.tp.sndUna b.tp.sndMax < window ∧ b.tp.sndHoles = [] ∧ b.tp.sndNumholes = 0

def sackSystem : System Board Action := .ofStep Idle step

end NetBSD.Netinet.TcpSack
