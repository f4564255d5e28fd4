import Mathlib.Algebra.Ring.Nat
import Mathlib.Data.List.Basic
import Mathlib.Data.List.FinRange
import NetBSD.Lib.System

/-! IPv4 reassembly (`sys/netinet/ip_reass.c`).

Fragments wait in queues, one for each datagram under reassembly, kept in a hash table
of 64 lists. `ip_reass_packet` tests a fragment and puts it into its queue, trimming or
dropping what overlaps; a queue that has become a whole datagram is taken out and
returned as one packet. `ip_reass_ttl_decr` ages the queues and serves the timer
(`ip_reass_slowtimo`) and the drop under memory pressure (`ip_reass_drain`).

An mbuf chain is the list of its bytes. Offsets and lengths are 16-bit fields in the
source; the tests of `ip_reass_packet` keep every sum of them below `2^16`, so they are
numbers here. `ipq_nfrags` stays a 16-bit counter. -/
namespace NetBSD.Netinet.IpReass
open Lib

abbrev Byte := BitVec 8

def ipMaxpacket : Nat := 65535
def ipMinfragsize : Nat := 69
def ipfragttl : Nat := 60
abbrev ipreassHashSize : Nat := 64

/-- `struct ip`; `off` is the offset in units of eight bytes. -/
structure Ip where
  hl : BitVec 4
  tos : BitVec 8
  len : Nat
  id : BitVec 16
  mf : Bool
  off : BitVec 13
  p : BitVec 8
  src : BitVec 32
  dst : BitVec 32
  deriving DecidableEq

def Ip.hlen (ip : Ip) : Nat := 4 * ip.hl.toNat

/-- What a datagram is told apart by. -/
structure Key where
  src : BitVec 32
  dst : BitVec 32
  p : BitVec 8
  id : BitVec 16
  deriving DecidableEq

def Ip.key (ip : Ip) : Key := ⟨ip.src, ip.dst, ip.p, ip.id⟩

/-- A packet: header and payload. -/
structure Packet where
  ip : Ip
  data : List Byte
  deriving DecidableEq

/-- A packet as `ip_input` hands it over: its length field is its length. -/
structure Fragment extends Packet where
  /-- `m_flags & (M_DECRYPTED|M_AUTHIPHDR)`. -/
  ipsecflags : BitVec 2
  len_eq : ip.len = ip.hlen + data.length
  len_le : ip.len ≤ ipMaxpacket

structure Qent where
  ip : Ip
  m : List Byte
  mff : Bool
  off : Nat
  len : Nat
  deriving DecidableEq

structure Queue where
  fragq : List Qent
  ttl : Nat
  key : Key
  nfrags : BitVec 16
  tos : BitVec 8
  ipsec : BitVec 2
  deriving DecidableEq

/-- The file's static variables. -/
structure Reass where
  ipFrags : Fin ipreassHashSize → List Queue
  ipNfragpackets : Int
  ipNfrags : Int
  ipMaxfragpackets : Int
  ipMaxfrags : Int
  ipNmbclusters : Int
  dropscanidx : Fin ipreassHashSize

def ipreassHash (key : Key) : Fin ipreassHashSize :=
  let x := key.src
  Fin.ofNat 64 ((((x &&& 0xf) ||| (((x >>> 8) &&& 0xf) <<< 4)) ^^^ key.id.setWidth 32).toNat)

/-- All queues, in the order of a scan of the table. -/
def Reass.queues (s : Reass) : List Queue := (List.finRange ipreassHashSize).flatMap s.ipFrags

/-! ### One queue -/

/-- `m_adj(m, i)` with the fields to match. -/
def Qent.adj (q : Qent) (i : Nat) : Qent := {q with off := q.off + i, len := q.len - i, m := q.m.drop i}

/-- How far the data of `p` reaches into the data at `off`. -/
def overlap (p : Qent) (off : Nat) : Int := (p.off + p.len : Nat) - off

/-- Look at the preceding segment: trim the newcomer, or drop it. -/
def trimByPreceding (ipqe : Qent) : Option Qent → Option Qent
  | none => some ipqe
  | some p =>
    if 0 < overlap p ipqe.off ∧ overlap p ipqe.off ≥ ipqe.len then none
    else if p.mff = false then none
    else if 0 < overlap p ipqe.off then some (ipqe.adj (overlap p ipqe.off).toNat)
    else some ipqe

/-- Look at the segments that follow: those from `q` on that stay, the first of them
perhaps trimmed, and how many are dequeued. -/
def trimFollowing (ipqe : Qent) : List Qent → List Qent × Nat
  | [] => ([], 0)
  | q :: rest =>
    if overlap ipqe q.off ≤ 0 then (q :: rest, 0)
    else if overlap ipqe q.off < q.len then (q.adj (overlap ipqe q.off).toNat :: rest, 0)
    else ((trimFollowing ipqe rest).1, (trimFollowing ipqe rest).2 + 1)

/-- A queue after the search for a place for a fragment. -/
structure Placement where
  fragq : List Qent
  removed : Nat
  dropped : Bool

/-- From "Find a segment which begins after this one does" to the insertion, or to
`dropfrag`: then the entries dequeued before are gone all the same. -/
def place (ipqe : Qent) (fragq : List Qent) : Placement :=
  let before := fragq.takeWhile fun q => q.off ≤ ipqe.off
  let after := fragq.dropWhile fun q => q.off ≤ ipqe.off
  match trimByPreceding ipqe before.getLast? with
  | none => ⟨fragq, 0, true⟩
  | some ipqe =>
    let (rest, removed) := trimFollowing ipqe after
    if rest ≠ [] ∧ ipqe.mff = false then ⟨before ++ rest, removed, true⟩
    else ⟨before ++ ipqe :: rest, removed, false⟩

/-- The check for complete reassembly: where the data ends when it has no gap. -/
def contiguous : Nat → List Qent → Option Nat
  | next, [] => some next
  | next, q :: rest => if q.off ≠ next then none else contiguous (next + q.len) rest

/-- The first entry and the length of the data, when the queue holds it all. -/
def complete (fragq : List Qent) : Option (Qent × Nat) :=
  match contiguous 0 fragq, fragq.head?, fragq.getLast? with
  | some next, some q, some p => if p.mff then none else some (q, next)
  | _, _, _ => none

/-! ### The table -/

/-- A list with the first queue of that key replaced, or removed. -/
def putQueue (key : Key) (new : Option Queue) : List Queue → List Queue
  | [] => []
  | fp :: rest => if fp.key = key then new.toList ++ rest else fp :: putQueue key new rest

def Reass.setList (s : Reass) (i : Fin ipreassHashSize) (fps : List Queue) : Reass :=
  {s with ipFrags := Function.update s.ipFrags i fps}

def Reass.put (s : Reass) (key : Key) (new : Option Queue) : Reass :=
  s.setList (ipreassHash key) (putQueue key new (s.ipFrags (ipreassHash key)))

def Reass.addNfrags (s : Reass) (n : Int) : Reass := {s with ipNfrags := s.ipNfrags + n}

/-- `LIST_REMOVE` of a queue, with its fragments off the counts: `ip_freef`, and the end
of a reassembly. -/
def ipFreef (s : Reass) (fp : Queue) : Reass :=
  {s.put fp.key none with
    ipNfrags := s.ipNfrags - fp.nfrags.toNat
    ipNfragpackets := s.ipNfragpackets - 1}

/-- The queue after an insertion: still waiting, bogus, or a packet. -/
def finishQueue (s : Reass) (fp : Queue) : Option Packet × Reass :=
  match complete fp.fragq with
  | none => (none, s)
  | some (q, next) =>
    if next + q.ip.hlen > ipMaxpacket then (none, ipFreef s fp)
    else (some ⟨{q.ip with len := q.ip.hlen + next, src := fp.key.src, dst := fp.key.dst}, fp.fragq.flatMap Qent.m⟩, ipFreef s fp)

/-- The queue made for the first fragment to arrive. -/
def newQueue (ipqe : Qent) (ipsecflags : BitVec 2) : Queue :=
  ⟨[ipqe], ipfragttl, ipqe.ip.key, 1, ipqe.ip.tos, ipsecflags⟩

/-- The table with a new queue at the head of its list. -/
def insertQueue (s : Reass) (fp : Queue) : Reass :=
  {s.setList (ipreassHash fp.key) (fp :: s.ipFrags (ipreassHash fp.key)) with
    ipNfragpackets := s.ipNfragpackets + 1}

/-- The queue found, after the search for a place. -/
def placedQueue (fp : Queue) (spot : Placement) : Queue :=
  {fp with
    fragq := spot.fragq
    nfrags := fp.nfrags + 1 - BitVec.ofNat 16 spot.removed - if spot.dropped then 1 else 0}

/-- `ip_reass`; `malloc` says whether a queue can be allocated. -/
def ipReass (s : Reass) (ipqe : Qent) (ipsecflags : BitVec 2) (malloc : Bool) : Option Queue → Option Packet × Reass
  | none =>
    if (0 ≤ s.ipMaxfragpackets ∧ s.ipNfragpackets ≥ s.ipMaxfragpackets) ∨ malloc = false then
      (none, (s.addNfrags 1).addNfrags (-1))
    else finishQueue (insertQueue (s.addNfrags 1) (newQueue ipqe ipsecflags)) (newQueue ipqe ipsecflags)
  | some fp =>
    let spot := place ipqe fp.fragq
    let fp' := placedQueue fp spot
    let s' := ((s.addNfrags 1).addNfrags (-spot.removed)).put fp.key (some fp')
    if spot.dropped then (none, s'.addNfrags (-1)) else finishQueue s' fp'

inductive Errno where
  | einval
  | enomem

/-- Whether the allocations on the way succeed. -/
structure Alloc where
  poolCacheGet : Bool
  malloc : Bool

/-- The offset of a fragment in bytes. -/
def Ip.offBytes (ip : Ip) : Nat := 8 * ip.off.toNat

/-- The tests a fragment must pass before its queue is looked for. -/
def badFragment (ip : Ip) : Prop :=
  (if ip.offBytes > 0 then ip.offBytes + ip.hlen else ip.len) < ipMinfragsize - 1 ∨
  ip.offBytes + ip.len > ipMaxpacket ∨
  ip.mf = true ∧ (ip.len - ip.hlen = 0 ∨ (ip.len - ip.hlen) % 8 ≠ 0)

instance (ip : Ip) : Decidable (badFragment ip) := inferInstanceAs (Decidable (_ ∨ _ ∨ _))

def newQent (f : Fragment) : Qent := ⟨f.ip, f.data, f.ip.mf, f.ip.offBytes, f.ip.len - f.ip.hlen⟩

/-- `LIST_FOREACH` over the list of the fragment's hash. -/
def Reass.findQueue (s : Reass) (key : Key) : Option Queue :=
  (s.ipFrags (ipreassHash key)).find? fun fp => fp.key = key

/-- `ip_reass_packet`: what it returns and leaves in `*m0`. -/
def ipReassPacket (s : Reass) (f : Fragment) (alloc : Alloc) : Except Errno (Option Packet) × Reass :=
  if badFragment f.ip then (.error .einval, s)
  else if ∃ fp ∈ s.findQueue f.ip.key, fp.ipsec ≠ f.ipsecflags ∨ fp.tos ≠ f.ip.tos then (.error .einval, s)
  else if alloc.poolCacheGet = false then (.error .enomem, s)
  else
    let r := ipReass s (newQent f) f.ipsecflags alloc.malloc (s.findQueue f.ip.key)
    (.ok r.1, r.2)

/-! ### Ageing -/

def Queue.age (ticks : Nat) (fp : Queue) : Queue :=
  {fp with ttl := if fp.ttl ≤ ticks then 0 else fp.ttl - ticks}

/-- The fragments of these queues. -/
def nfragsOf (fps : List Queue) : Nat := (fps.map fun fp => fp.nfrags.toNat).sum

/-- The queues whose time is up are freed, the others age. -/
def ageQueues (ticks : Nat) (s : Reass) : Reass :=
  let freed := (s.queues.map (Queue.age ticks)).filter fun fp => fp.ttl = 0
  {s with
    ipFrags := fun i => ((s.ipFrags i).map (Queue.age ticks)).filter fun fp => fp.ttl ≠ 0
    ipNfrags := s.ipNfrags - nfragsOf freed
    ipNfragpackets := s.ipNfragpackets - freed.length}

def fragttlHisto (s : Reass) (ttl : Nat) : Nat := nfragsOf (s.queues.filter fun fp => fp.ttl = ttl)

/-- The loop down the histogram. It ends at a TTL; below 0 the result wraps. -/
def medianLoop (histo : Nat → Nat) (keepfraction : Nat) : Nat → Nat → Nat
  | i, median =>
    if median + histo i ≥ keepfraction then i
    else match i with
      | 0 => 2 ^ 32 - 1
      | i + 1 => medianLoop histo keepfraction i (median + histo (i + 1))

/-- The median TTL over all fragments. -/
def medianTtl (s : Reass) : Nat :=
  medianLoop (fragttlHisto s) (s.ipNfrags - s.ipNfrags.tdiv 2).toNat ipfragttl 0

def ipReassTtlDecr (ticks : Nat) (s : Reass) : Nat × Reass :=
  (medianTtl (ageQueues ticks s), ageQueues ticks s)

def ipReassDrophalf (s : Reass) : Reass :=
  let (medianTicks, s) := ipReassTtlDecr 0 s
  (ipReassTtlDecr medianTicks s).2

/-- `ip_reass_drain`: `mutex_tryenter` succeeds, as no other call is under way. -/
def ipReassDrain (s : Reass) : Reass := ipReassDrophalf s

/-- `while (LIST_FIRST(&ip_frags[i]) != NULL) ip_freef(...)`. -/
def freeList (s : Reass) (i : Fin ipreassHashSize) : Reass :=
  {s.setList i [] with
    ipNfrags := s.ipNfrags - nfragsOf (s.ipFrags i)
    ipNfragpackets := s.ipNfragpackets - (s.ipFrags i).length}

/-- The scan that drains lists down to the limit. It is back at `dropscanidx`, and
`wrapped`, when it has seen as many lists as the table has. -/
def dropScan : Nat → Fin ipreassHashSize → Reass → Reass
  | 0, i, s => {s with dropscanidx := i}
  | lists + 1, i, s =>
    if s.ipNfragpackets > s.ipMaxfragpackets then dropScan lists (i + 1) (freeList s i)
    else {s with dropscanidx := i}

def checkNmbclusterParams (nmbclusters : Int) (s : Reass) : Reass :=
  if s.ipNmbclusters ≠ nmbclusters then
    {s with ipMaxfrags := nmbclusters.tdiv 4, ipNmbclusters := nmbclusters}
  else s

/-- If we have too many fragments, drop the older half. -/
def dropOlder (medianTtl : Nat) (s : Reass) : Reass :=
  if s.ipNfrags > s.ipMaxfrags then (ipReassTtlDecr medianTtl s).2 else s

/-- If we are over the maximum number of fragmented packets (due to the limit being
lowered), drain off enough to get down to the new limit. -/
def drainToLimit (s : Reass) : Reass :=
  if s.ipMaxfragpackets < 0 then s else dropScan ipreassHashSize s.dropscanidx s

def ipReassSlowtimo (nmbclusters : Int) (s : Reass) : Reass :=
  let (medianTtl, s) := ipReassTtlDecr 1 s
  drainToLimit (dropOlder medianTtl (checkNmbclusterParams nmbclusters s))

inductive Action where
  | packet (f : Fragment) (alloc : Alloc)
  | slowtimo (nmbclusters : Int)
  | drain
  /-- `net.inet.ip.maxfragpackets` is set. -/
  | sysctl (maxfragpackets : Int)

def step (s : Reass) : Action → Reass
  | .packet f alloc => (ipReassPacket s f alloc).2
  | .slowtimo nmbclusters => ipReassSlowtimo nmbclusters s
  | .drain => ipReassDrain s
  | .sysctl maxfragpackets => {s with ipMaxfragpackets := maxfragpackets}

def ipReassInit (nmbclusters : Int) : Reass where
  ipFrags := fun _ => []
  ipNfragpackets := 0
  ipNfrags := 0
  ipMaxfragpackets := 200
  ipMaxfrags := nmbclusters.tdiv 4
  ipNmbclusters := nmbclusters
  dropscanidx := 0

def reassSystem : System Reass Action :=
  .ofStep (fun s => ∃ nmbclusters, s = ipReassInit nmbclusters) fun s a => some (step s a)

end NetBSD.Netinet.IpReass
