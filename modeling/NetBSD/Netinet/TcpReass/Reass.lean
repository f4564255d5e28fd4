import Mathlib.Data.BitVec
import NetBSD.Lib.Serial
import NetBSD.Lib.System

/-! TCP reassembly (`tcp_reass` in `sys/netinet/tcp_input.c`).

Segments that are not the next of the stream wait as blocks in a queue. A segment that arrives is merged with the blocks that it
overlaps or touches, one of whose entries it takes over; then the block that begins at `rcv_nxt`, if there is one, is passed on.

An mbuf chain is the list of its bytes, and an entry is known by its address. The connection is established, and its socket
takes data. -/
namespace NetBSD.Netinet.TcpReass
open Lib Serial

abbrev Byte := BitVec 8
abbrev Seq := BitVec 32

def thFin : BitVec 8 := 0x01

/-- A range of the stream with what is in it: a segment, or what an entry holds. -/
structure Block where
  seq : Seq
  len : BitVec 32
  flags : BitVec 8
  m : List Byte
  deriving DecidableEq

def Block.stop (b : Block) : Seq := b.seq + b.len

/-- `struct ipqent`; `id` is its address. -/
structure Ipqent extends Block where
  id : Nat
  deriving DecidableEq

/-- Of `struct tcpcb`, what `tcp_reass` works on. -/
structure Tcpcb where
  rcvNxt : Seq
  segq : List Ipqent
  timeq : List Nat
  tSegqlen : Int
  deriving DecidableEq

def mAdj (m : List Byte) (n : Int) : List Byte := if n ≥ 0 then m.drop n.toNat else m.take (m.length - (-n).toNat)

/-- `TAILQ_REMOVE` from both queues. -/
def Tcpcb.unlink (tp : Tcpcb) (id : Nat) : Tcpcb :=
  { tp with segq := tp.segq.filter fun q => q.id ≠ id, timeq := tp.timeq.erase id, tSegqlen := tp.tSegqlen - 1 }

/-- `TAILQ_INSERT_AFTER`, or `TAILQ_INSERT_HEAD` without a `p`. -/
def insertAfter (p : Option Nat) (e : Ipqent) (segq : List Ipqent) : List Ipqent :=
  match p with
  | none => e :: segq
  | some id => segq.flatMap fun q => if q.id = id then [q, e] else [q]

/-- What `tcp_reass` returns, and what it passes to `sbappendstream`. -/
structure Result where
  tp : Tcpcb
  appended : List Byte
  ret : BitVec 8

def present (tp : Tcpcb) : Result :=
  match tp.segq with
  | [] => ⟨tp, [], 0⟩
  | q :: _ =>
    if q.seq ≠ tp.rcvNxt then ⟨tp, [], 0⟩
    else ⟨{ tp.unlink q.id with rcvNxt := tp.rcvNxt + q.len }, q.m, q.flags &&& thFin⟩

/-- What the loop works on: `pkt_seq`, `pkt_len`, `pkt_flags` and `m` are `pkt`. -/
structure Scan where
  tp : Tcpcb
  pkt : Block
  tiqe : Option Nat
  p : Option Nat

/-- What follows a round: the next, the end of the loop, or `out`. -/
inductive Round where
  | next (l : Scan)
  | stop (l : Scan)
  | out (tp : Tcpcb)

/-- `free_ipqe`: the entry is kept for the segment, unless there is one. -/
def Scan.freeIpqe (l : Scan) (q : Ipqent) : Scan := { l with tp := l.tp.unlink q.id, tiqe := l.tiqe.or (some q.id) }

/-- The bytes at the end of the segment that the entry has are dropped. -/
def trimTail (pkt q : Block) : Block :=
  if gt q.seq pkt.seq ∧ lt q.seq pkt.stop then
    let overlap := (pkt.stop - q.seq).toInt
    { pkt with len := pkt.len - BitVec.ofInt 32 overlap, m := mAdj pkt.m (-overlap) }
  else pkt

def examine (q : Ipqent) (l : Scan) : Round :=
  let pkt := l.pkt
  -- right after this entry
  if q.stop = pkt.seq then
    .next ({ l with pkt := ⟨q.seq, pkt.len + q.len, pkt.flags ||| q.flags, q.m ++ pkt.m⟩ }.freeIpqe q)
  -- past this entry
  else if lt q.stop pkt.seq then .next { l with p := some q.id }
  -- in front of this entry
  else if gt q.seq pkt.stop then .stop l
  -- a duplicate
  else if le q.seq pkt.seq ∧ ge q.stop pkt.stop then .out l.tp
  -- the entry is a duplicate
  else if ge q.seq pkt.seq ∧ le q.stop pkt.stop then .next (l.freeIpqe q)
  else if lt q.seq pkt.seq ∧ gt q.stop pkt.seq then
    let overlap := (q.stop - pkt.seq).toInt
    .next ({ l with pkt := ⟨q.seq, pkt.len + (q.len - BitVec.ofInt 32 overlap), pkt.flags, q.m ++ mAdj pkt.m overlap⟩ }.freeIpqe q)
  else
    let pkt := trimTail pkt q.toBlock
    if q.seq = pkt.stop then
      .stop ({ l with pkt := ⟨pkt.seq, pkt.len + q.len, pkt.flags ||| q.flags, pkt.m ++ q.m⟩ }.freeIpqe q)
    else if le q.seq pkt.seq then .next { l with pkt := pkt, p := some q.id }
    else .next { l with pkt := pkt }

/-- The loop from an entry on; `nq` is taken before the entry is removed. -/
def scan : List Ipqent → Scan → Round
  | [], l => .stop l
  | q :: nq, l =>
    match examine q l with
    | .next l => scan nq l
    | r => r

/-- From `insert_it:` on; `alloc` is what `tcpipqent_alloc` gives. -/
def insertIt (l : Scan) (alloc : Option Nat) : Result :=
  match l.tiqe.or alloc with
  | none => ⟨l.tp, [], 0⟩
  | some id =>
    present { l.tp with
      segq := insertAfter l.p ⟨l.pkt, id⟩ l.tp.segq
      timeq := id :: l.tp.timeq
      tSegqlen := l.tp.tSegqlen + 1 }

/-- An entry that was changed in place is the last that was touched. -/
def Tcpcb.touch (tp : Tcpcb) (segq : List Ipqent) (id : Nat) : Tcpcb :=
  { tp with segq := segq, timeq := id :: tp.timeq.erase id }

/-- From "Find a segment which begins after this one does" on. -/
def search (tp : Tcpcb) (pkt : Block) (alloc : Option Nat) : Result :=
  match scan tp.segq ⟨tp, pkt, none, none⟩ with
  | .next l | .stop l => insertIt l alloc
  | .out tp => ⟨tp, [], 0⟩

/-- From the test of the first entry on. -/
def reassFirst (tp : Tcpcb) (pkt : Block) (alloc : Option Nat) : Result :=
  match tp.segq with
  | [] => search tp pkt alloc
  | q :: rest =>
    if pkt.stop = q.seq then
      present (tp.touch (⟨⟨pkt.seq, q.len + pkt.len, q.flags ||| pkt.flags, pkt.m ++ q.m⟩, q.id⟩ :: rest) q.id)
    else search tp pkt alloc

/-- `tcp_reass`, with a segment. -/
def tcpReass (tp : Tcpcb) (pkt : Block) (alloc : Option Nat) : Result :=
  match tp.segq.getLast? with
  | none => reassFirst tp pkt alloc
  | some p =>
    if pkt.seq = p.stop then
      present (tp.touch (tp.segq.dropLast ++ [⟨⟨p.seq, p.len + pkt.len, p.flags ||| pkt.flags, p.m ++ pkt.m⟩, p.id⟩]) p.id)
    else if gt pkt.seq p.stop then insertIt ⟨tp, pkt, none, some p.id⟩ alloc
    else reassFirst tp pkt alloc

/-- A connection, with what was passed to `sbappendstream` since the start, and the segments that were accepted, by their place
in the stream; one for which there was no memory is not. -/
structure State where
  tp : Tcpcb
  appended : List Byte
  accepted : List (Nat × Nat)
  deriving DecidableEq

/-- A segment, with the entry that can be allocated for it; and a call without one. -/
inductive Act where
  | segment (seq : Seq) (m : List Byte) (flags : BitVec 8) (alloc : Option Nat)
  | present

/-- Where in the stream a number is. -/
def State.place (s : State) (seq : Seq) : Nat := s.appended.length + pos s.tp.rcvNxt seq

def State.take (s : State) (r : Result) : State := { s with tp := r.tp, appended := s.appended ++ r.appended }

def next (s : State) : Act → Option State
  | .segment seq m flags alloc =>
    if ∀ q ∈ s.tp.segq, q.id ∉ alloc then
      some { s.take (tcpReass s.tp ⟨seq, BitVec.ofNat 32 m.length, flags, m⟩ alloc) with
        accepted := if alloc.isSome then (s.place seq, m.length) :: s.accepted else s.accepted }
    else none
  | .present => some (s.take (TcpReass.present s.tp))

def reassSystem (isn : Seq) : System State Act := .ofStep (· = ⟨⟨isn, [], [], 0⟩, [], []⟩) next

end NetBSD.Netinet.TcpReass
