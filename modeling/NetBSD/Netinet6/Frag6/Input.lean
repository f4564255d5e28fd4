import NetBSD.Lib.Keyed
import NetBSD.Lib.System
import Mathlib.Data.BitVec
import Mathlib.Algebra.BigOperators.Group.List.Basic

/-! IPv6 reassembly (`sys/netinet6/frag6.c`).

A fragment is an mbuf chain with a fragment header at `offset`. `frag6_input` keeps it in the queue of its source, destination
and identification, unless a limit, an overlap or an allocation that fails is in the way, and when the queue holds a packet
without a gap, returns it as one chain with the fragment header taken out. `frag6_slowtimo` ages the queues.

A chain is the list of the contents of its mbufs, as `IP6_EXTHDR_GET` leaves it: with the IPv6 header in the first of them. -/
namespace NetBSD.Netinet6.Frag6
open Lib

abbrev Byte := BitVec 8
abbrev Chain := List (List Byte)

def ipv6Maxpacket : Nat := 65535
def ipv6Fragttl : Nat := 120
def ipprotoFragment : Nat := 44
def ipprotoAh : Nat := 51

def byteAt (b : List Byte) (i : Nat) : Byte := b.getD i 0

def ntohs (b : List Byte) (i : Nat) : Nat := (byteAt b i).toNat * 256 + (byteAt b (i + 1)).toNat

def htons (v : Int) : List Byte := [BitVec.ofInt 8 (v / 256), BitVec.ofInt 8 v]

/-- `m_adj`, for a number of bytes at the head. -/
def mAdj : Nat → Chain → Chain
  | _, [] => []
  | n, b :: rest => if b.length ≤ n then [] :: mAdj (n - b.length) rest else b.drop n :: rest

/-- `m_split`, the allocation apart. -/
def mSplit : Nat → Chain → Option (Chain × Chain)
  | _, [] => none
  | n, b :: rest =>
    if n > b.length then (mSplit (n - b.length) rest).map fun (head, tail) => (b :: head, tail)
    else some ([b.take n], b.drop n :: rest)

/-- A byte is stored in a chain. -/
def chainSet (v : Byte) : Nat → Chain → Chain
  | _, [] => []
  | i, b :: rest => if i < b.length then b.set i v :: rest else b :: chainSet v (i - b.length) rest

def chainWrite (m : Chain) (i : Nat) : List Byte → Chain
  | [] => m
  | v :: vs => chainWrite (chainSet v i m) (i + 1) vs

/-! ### Packets and queues -/

/-- What queues are told apart by. -/
structure Key where
  ident : List Byte
  src : List Byte
  dst : List Byte
  deriving DecidableEq

/-- The fields that are looked at of `struct ip6_hdr` and of the `struct ip6_frag` at an offset. -/
structure Header where
  plen : Nat
  key : Key
  nxt : Byte
  fragoff : Nat
  mff : Bool

def field (b : List Byte) (i k : Nat) : List Byte := (b.drop i).take k

def header (b : List Byte) (offset : Nat) : Header where
  plen := ntohs b 4
  key := ⟨field b (offset + 4) 4, field b 8 16, field b 24 16⟩
  nxt := byteAt b offset
  fragoff := ntohs b (offset + 2) &&& 0xfff8
  mff := ntohs b (offset + 2) % 2 = 1

/-- `struct ip6asfrag`; `offset` is that of the data in the chain. -/
structure Asfrag where
  m : Chain
  offset : Nat
  frglen : Int
  off : Nat
  mff : Bool
  deriving DecidableEq

def Asfrag.stop (af6 : Asfrag) : Int := af6.off + af6.frglen

/-- `struct ip6q`. Before the first fragment has arrived `unfrglen` is -1. -/
structure Queue where
  key : Key
  nxt : Byte
  ttl : Nat
  unfrglen : Int
  nfrag : Nat
  ipsec : BitVec 2
  frags : List Asfrag
  deriving DecidableEq

/-- The static variables. `headFreed` says that `frag6_freef` was called on the list head. -/
structure Reass6 where
  queues : List Queue
  nfragpackets : Nat
  nfrags : Nat
  maxfrags : Int
  maxfragpackets : Int
  headFreed : Bool

def Reass6.findQueue (s : Reass6) (key : Key) : Option Queue := Keyed.find Queue.key key s.queues

/-- The queue is as it has become. -/
def Reass6.put (s : Reass6) (q6 : Queue) : Reass6 := { s with queues := Keyed.put Queue.key q6.key (some q6) s.queues }

/-- A queue that is off the list is off the counts. -/
def Reass6.uncount (s : Reass6) (q6 : Queue) : Reass6 :=
  { s with nfrags := s.nfrags - q6.nfrag, nfragpackets := s.nfragpackets - 1 }

def frag6Remque (s : Reass6) (q6 : Queue) : Reass6 :=
  { s with queues := Keyed.put Queue.key q6.key none s.queues }.uncount q6

/-! ### The reassembled packet -/

/-- Where the data ends when it has no gap. -/
def contiguous : Int → List Asfrag → Option Int
  | next, [] => some next
  | next, af6 :: rest => if af6.off ≠ next then none else contiguous (next + af6.frglen) rest

/-- The check for complete reassembly. -/
def complete (frags : List Asfrag) : Option Int :=
  match contiguous 0 frags, frags.getLast? with
  | some next, some last => if last.mff then none else some next
  | _, _ => none

/-- The length of an extension header that has `ip6e_len`. -/
def extLen (nxt : Nat) (len : Nat) : Nat :=
  if nxt = ipprotoFragment then 8 else if nxt = ipprotoAh then (len + 2) * 4 else (len + 1) * 8

/-- The loop of `ip6_get_prevhdr`. A header has 8 bytes at least, so `off` rounds are enough. -/
def prevhdrLoop (b : List Byte) (off : Nat) : Nat → Nat → Nat → Nat → Nat
  | 0, len, nlen, _ => len - nlen
  | fuel + 1, len, nlen, nxt =>
    if len < off then
      let nlen := extLen nxt (byteAt b (len + 1)).toNat
      prevhdrLoop b off fuel (len + nlen) nlen (byteAt b len).toNat
    else len - nlen

/-- `ip6_get_prevhdr`, for an offset that is not in the IPv6 header. -/
def ip6GetPrevhdr (b : List Byte) (off : Nat) : Nat :=
  if off = 40 then 6 else prevhdrLoop b off off 40 0 (byteAt b 6).toNat

/-- What comes of a fragment: kept, dropped, answered with an ICMP parameter problem or, without its header, lost; or a packet
with the offset and the number of its next header. `len` is `m_pkthdr.len`. -/
inductive Answer where
  | held
  | dropfrag
  | icmp6Error (pointer : Nat)
  | gone
  | packet (m : Chain) (len : Nat) (offp : Nat) (nxt : Byte)
  deriving DecidableEq

/-- Whether the allocations succeed: for the fragment header, the queue, the fragment, the split and the next header field. -/
structure Alloc where
  exthdr : Bool
  q6 : Bool
  af6 : Bool
  split : Bool
  prevhdr : Bool

/-- The first fragment, with the data of the others behind it. -/
def concatenate (ip6af : Asfrag) (rest : List Asfrag) : Chain := ip6af.m ++ rest.flatMap fun af6 => mAdj af6.offset af6.m

/-- The IPv6 header of the packet: its length, and the addresses. -/
def restoreHeader (m : Chain) (plen : Int) (key : Key) : Chain :=
  chainWrite (chainWrite (chainWrite m 4 (htons plen)) 8 key.src) 24 key.dst

def deleteHeader (m : Chain) (offset : Nat) (split : Bool) : Option Chain :=
  match m with
  | [] => none
  | b :: rest =>
    if b.length ≥ offset + 8 then some ((b.take offset ++ b.drop (offset + 8)) :: rest)
    else if split = false then none
    else (mSplit offset (b :: rest)).map fun (m, t) => m ++ mAdj 8 t

def reassembled (q6 : Queue) (ip6af : Asfrag) (rest : List Asfrag) (next : Int) (alloc : Alloc) : Answer :=
  let offset := ip6af.offset - 8
  let m := restoreHeader (concatenate ip6af rest) (next + offset - 40) q6.key
  match deleteHeader m offset alloc.split with
  | none => .dropfrag
  | some m =>
    let prvnxt := ip6GetPrevhdr m.flatten offset
    if alloc.prevhdr = false ∨ m.flatten.length ≤ prvnxt then .dropfrag
    else .packet (chainSet q6.nxt prvnxt m) m.flatten.length offset q6.nxt

/-! ### frag6_input -/

/-- A fragment between those before and behind it, unless it overlaps one of them. -/
def place (ip6af : Asfrag) (frags : List Asfrag) : Option (List Asfrag) :=
  let before := frags.takeWhile fun af6 => af6.off ≤ ip6af.off
  let after := frags.dropWhile fun af6 => af6.off ≤ ip6af.off
  if (∃ up ∈ before.getLast?, up.stop - ip6af.off > 0) ∨ (∃ af6 ∈ after.head?, ip6af.stop - af6.off > 0) then none
  else some (before ++ ip6af :: after)

def finish (s : Reass6) (q6 : Queue) (alloc : Alloc) : Answer × Reass6 :=
  match complete q6.frags, q6.frags with
  | some next, ip6af :: rest => (reassembled q6 ip6af rest next alloc, frag6Remque (s.put q6) q6)
  | _, _ => (.held, s.put q6)

/-- The length of the unfragmentable part and the next header, which the first fragment tells. -/
def Queue.first (q6 : Queue) (h : Header) (offset : Nat) : Queue :=
  if h.fragoff = 0 then { q6 with unfrglen := (offset : Int) - 48, nxt := h.nxt } else q6

/-- The reassembled packet would exceed 65535 bytes. -/
def Queue.exceeds (q6 : Queue) (fragoff : Nat) (frgpartlen : Int) : Prop :=
  (if 0 ≤ q6.unfrglen then q6.unfrglen else 0) + fragoff + frgpartlen > ipv6Maxpacket

instance (q6 : Queue) (fragoff : Nat) (frgpartlen : Int) : Decidable (q6.exceeds fragoff frgpartlen) :=
  inferInstanceAs (Decidable (_ > _))

/-- The check for each stored fragment, when the first one has come. -/
def Queue.recheck (q6 : Queue) (h : Header) : Queue :=
  if h.fragoff = 0 then
    { q6 with frags := q6.frags.filter fun af6 => q6.unfrglen + af6.off + af6.frglen ≤ ipv6Maxpacket }
  else q6

def newAsfrag (m : Chain) (h : Header) (offset : Nat) : Asfrag := ⟨m, offset, 40 + h.plen - offset, h.fragoff, h.mff⟩

/-- A fragment with its queue, which is on the list. `offset` is that of the data. -/
def enter (s : Reass6) (q6 : Queue) (m : Chain) (h : Header) (offset : Nat) (alloc : Alloc) : Answer × Reass6 :=
  let q6 := q6.first h offset
  let ip6af := newAsfrag m h offset
  if q6.exceeds h.fragoff ip6af.frglen then (.icmp6Error (offset - 8 + 2), s.put q6)
  else
    let q6 := q6.recheck h
    if alloc.af6 = false then (.dropfrag, s.put q6)
    else
      match place ip6af q6.frags with
      | none => (.dropfrag, s.put q6)
      | some frags => finish { s with nfrags := s.nfrags + 1 } { q6 with frags := frags, nfrag := q6.nfrag + 1 } alloc

/-- The first fragment to arrive creates a queue. -/
def newQueue (key : Key) (ipsecflags : BitVec 2) : Queue := ⟨key, 0, ipv6Fragttl, -1, 0, ipsecflags, []⟩

def frag6Insque (s : Reass6) (q6 : Queue) : Reass6 := { s with queues := q6 :: s.queues }

/-- Under the lock: the limits, and the search for the queue. -/
def locked (s : Reass6) (m : Chain) (ipsecflags : BitVec 2) (h : Header) (offset : Nat) (alloc : Alloc) : Answer × Reass6 :=
  if 0 ≤ s.maxfrags ∧ s.maxfrags ≤ s.nfrags then (.dropfrag, s)
  else
    match s.findQueue h.key with
    | some q6 => if q6.ipsec ≠ ipsecflags then (.dropfrag, s) else enter s q6 m h offset alloc
    | none =>
      if 0 ≤ s.maxfragpackets ∧ s.maxfragpackets ≤ s.nfragpackets then (.dropfrag, s)
      else
        let s := { s with nfragpackets := s.nfragpackets + 1 }
        if alloc.q6 = false then (.dropfrag, s)
        else
          let q6 := newQueue h.key ipsecflags
          enter (frag6Insque s q6) q6 m h offset alloc

/-- A fragment's length must be a multiple of 8, and not zero: what is tested of a fragment that more are to follow. -/
def badLength (h : Header) (offset : Nat) : Prop := (h.plen : Int) - offset = 0 ∨ ((h.plen : Int) - offset) % 8 ≠ 0

instance (h : Header) (offset : Nat) : Decidable (badLength h offset) := inferInstanceAs (Decidable (_ ∨ _))

/-- `frag6_input`; `ipsecflags` are `m_flags & (M_DECRYPTED|M_AUTHIPHDR)`. -/
def frag6Input (s : Reass6) (m : Chain) (ipsecflags : BitVec 2) (offset : Nat) (alloc : Alloc) : Answer × Reass6 :=
  if alloc.exthdr = false ∨ m.flatten.length < offset + 8 then (.gone, s)
  else
    let h := header m.flatten offset
    if h.plen = 0 then (.icmp6Error offset, s)
    else if h.mff = true ∧ badLength h offset then (.icmp6Error 4, s)
    else if h.fragoff = 0 ∧ h.mff = false then (.packet m m.flatten.length (offset + 8) h.nxt, s)
    else locked s m ipsecflags h (offset + 8) alloc

/-! ### Timer, drain and limits -/

/-- The first loop of `frag6_slowtimo`, on the queues that are left to look at. -/
def ageLoop (s : Reass6) (before : List Queue) : List Queue → Reass6
  | [] => { s with queues := before }
  | q6 :: rest =>
    if q6.ttl - 1 = 0 then ageLoop (s.uncount q6) before rest
    else ageLoop s (before ++ [{ q6 with ttl := q6.ttl - 1 }]) rest

/-- `(u_int)ip6_maxfragpackets`. -/
def Reass6.limit (s : Reass6) : Nat := (s.maxfragpackets % 2 ^ 32).toNat

/-- Drain off enough to get down to the new limit: each round takes one off the count. -/
def overflowLoop : Nat → Reass6 → Reass6
  | 0, s => s
  | fuel + 1, s =>
    if s.nfragpackets > s.limit then
      match s.queues.getLast? with
      | none => { s with headFreed := true }
      | some q6 => overflowLoop fuel ({ s with queues := s.queues.dropLast }.uncount q6)
    else s

def frag6Slowtimo (s : Reass6) : Reass6 :=
  let s := ageLoop s [] s.queues
  overflowLoop s.nfragpackets s

def drainLoop (s : Reass6) : List Queue → Reass6
  | [] => { s with queues := [] }
  | q6 :: rest => drainLoop (s.uncount q6) rest

def frag6Drain (s : Reass6) : Reass6 := drainLoop s s.queues

inductive Action where
  | input (m : Chain) (ipsecflags : BitVec 2) (offset : Nat) (alloc : Alloc)
  | slowtimo
  /-- Without the lock nothing is drained. -/
  | drain (locked : Bool)
  | sysctl (maxfrags maxfragpackets : Int)

def step (s : Reass6) : Action → Reass6
  | .input m ipsecflags offset alloc => (frag6Input s m ipsecflags offset alloc).2
  | .slowtimo => frag6Slowtimo s
  | .drain locked => if locked then frag6Drain s else s
  | .sysctl maxfrags maxfragpackets => { s with maxfrags := maxfrags, maxfragpackets := maxfragpackets }

def frag6Init (maxfrags maxfragpackets : Int) : Reass6 := ⟨[], 0, 0, maxfrags, maxfragpackets, false⟩

def frag6System : System Reass6 Action :=
  ⟨fun s => ∃ maxfrags maxfragpackets, s = frag6Init maxfrags maxfragpackets, fun s a s' => s' = step s a⟩

end NetBSD.Netinet6.Frag6
