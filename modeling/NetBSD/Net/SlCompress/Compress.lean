import NetBSD.Lib.System
import NetBSD.Lib.Fields

/-! Van Jacobson header compression.

Both ends of a serial line keep the header of the last packet of each connection, as the memory that it is copied into. A
packet is its bytes, and words are read as on a big-endian machine. The circular list of the sender's states is the list of
their ids from the newest, which `last_cs` points at, to the oldest. -/
namespace NetBSD.Net.SlCompress
open Function
open Lib.Fields

def maxStates : Nat := 16
def maxHdr : Nat := 456

inductive PacketType where
  | ip
  | uncompressedTcp
  | compressedTcp
  | error
  deriving DecidableEq

def newC : BitVec 8 := 0x40
def newI : BitVec 8 := 0x20
def newS : BitVec 8 := 0x08
def newA : BitVec 8 := 0x04
def newW : BitVec 8 := 0x02
def newU : BitVec 8 := 0x01
def specialI : BitVec 8 := newS ||| newW ||| newU
def specialD : BitVec 8 := newS ||| newA ||| newW ||| newU
def specialsMask : BitVec 8 := newS ||| newA ||| newW ||| newU
def tcpPushBit : BitVec 8 := 0x10

def TH_FIN : BitVec 8 := 0x01
def TH_SYN : BitVec 8 := 0x02
def TH_RST : BitVec 8 := 0x04
def TH_PUSH : BitVec 8 := 0x08
def TH_ACK : BitVec 8 := 0x10
def TH_URG : BitVec 8 := 0x20
def TH_ECE : BitVec 8 := 0x40
def TH_CWR : BitVec 8 := 0x80
def IPPROTO_TCP : BitVec 8 := 6

/-- A state of the receiver: the header and its size. -/
structure Cstate where
  csHlen : Nat
  csHdr : Mem

structure Slcompress where
  lru : List Nat
  lastRecv : Nat
  lastXmit : Nat
  toss : Bool
  tstate : Nat → Mem
  rstate : Nat → Cstate

/-- -1 is for the largest number of states. -/
def slCompressSetup (maxState : Int) : Slcompress :=
  let maxState := if maxState = -1 then maxStates - 1 else maxState.toNat
  ⟨(List.range (maxState + 1)).reverse, 255, 255, true, fun _ _ => 0, fun _ => ⟨0, fun _ => 0⟩⟩

/-! ### Headers -/

def mem (p : List (BitVec 8)) : Mem := fun i => p.getD i 0

def memcpy (dst src : Mem) (len : Nat) : Mem := fun i => if i < len then src i else dst i

def ipV (ip : Mem) : Nat := (ip 0).toNat / 16

/-- The size of the IP header in bytes, which is where the TCP header begins. -/
def ipHlen (ip : Mem) : Nat := (ip 0).toNat % 16 * 4

def ipLen (ip : Mem) : BitVec 16 := get16 ip 2
def ipId (ip : Mem) : BitVec 16 := get16 ip 4
def ipOff (ip : Mem) : BitVec 16 := get16 ip 6
def ipSum (ip : Mem) : BitVec 16 := get16 ip 10
def thSeq (ip : Mem) (th : Nat) : BitVec 32 := get32 ip (th + 4)
def thAck (ip : Mem) (th : Nat) : BitVec 32 := get32 ip (th + 8)

/-- The size of the TCP header in bytes. -/
def thHlen (ip : Mem) (th : Nat) : Nat := (ip (th + 12)).toNat / 16 * 4

def thFlags (ip : Mem) (th : Nat) : BitVec 8 := ip (th + 13)
def thWin (ip : Mem) (th : Nat) : BitVec 16 := get16 ip (th + 14)
def thSum (ip : Mem) (th : Nat) : BitVec 16 := get16 ip (th + 16)
def thUrp (ip : Mem) (th : Nat) : BitVec 16 := get16 ip (th + 18)

def wordSum (ip : Mem) : Nat → Nat
  | 0 => 0
  | n + 1 => wordSum ip n + (get16 ip (2 * n)).toNat

def fold (changes : Nat) : Nat := changes % 2 ^ 16 + changes / 2 ^ 16

/-- The sum of the words of the IP header, to 16 bits. -/
def headerSum (ip : Mem) (hlen : Nat) : Nat := fold (fold (wordSum ip (hlen / 2)))

def encode (n : BitVec 16) : List (BitVec 8) :=
  if n.toNat ≥ 256 then [0, n.extractLsb' 8 8, n.extractLsb' 0 8] else [n.extractLsb' 0 8]

def encodeZ (n : BitVec 16) : List (BitVec 8) :=
  if n.toNat ≥ 256 ∨ n = 0 then [0, n.extractLsb' 8 8, n.extractLsb' 0 8] else [n.extractLsb' 0 8]

/-- A number of one or three bytes, and what is behind it. -/
def decode (cp : List (BitVec 8)) : Option (BitVec 16 × List (BitVec 8)) :=
  match cp with
  | [] => none
  | n :: cp =>
    if n = 0 then
      match cp with
      | hi :: lo :: cp => some (hi ++ lo, cp)
      | _ => none
    else some (n.setWidth 16, cp)

def decodeL (f : Nat) (m : Mem × List (BitVec 8)) : Option (Mem × List (BitVec 8)) := do
  let (n, cp) ← decode m.2
  return (set32 m.1 f (get32 m.1 f + n.setWidth 32), cp)

def decodeS (f : Nat) (m : Mem × List (BitVec 8)) : Option (Mem × List (BitVec 8)) := do
  let (n, cp) ← decode m.2
  return (set16 m.1 f (get16 m.1 f + n), cp)

def decodeU (f : Nat) (m : Mem × List (BitVec 8)) : Option (Mem × List (BitVec 8)) := do
  let (n, cp) ← decode m.2
  return (set16 m.1 f n, cp)

/-! ### sl_compress_tcp -/

def sameConnection (ip cs : Mem) : Bool :=
  get32 ip 12 = get32 cs 12 ∧ get32 ip 16 = get32 cs 16 ∧ get32 ip (ipHlen ip) = get32 cs (ipHlen cs)

def sameBytes (ip cs : Mem) (a k : Nat) : Bool := ∀ i < k, ip (a + i) = cs (a + i)

/-- Something changed that is not expected to. -/
def unexpected (ip cs : Mem) (th : Nat) : Bool :=
  get16 ip 0 ≠ get16 cs 0 ∨ get16 ip 6 ≠ get16 cs 6 ∨ get16 ip 8 ≠ get16 cs 8 ∨ thHlen ip th ≠ thHlen cs th ∨
    (th > 20 ∧ ¬ sameBytes ip cs 20 (th - 20)) ∨
    (thHlen ip th > 20 ∧ ¬ sameBytes ip cs (th + 20) (thHlen ip th - 20))

/-- The bytes that a packet of the connection had behind its header of `hlen` bytes. -/
def dataLen (cs : Mem) (hlen : Nat) : BitVec 32 := (ipLen cs).setWidth 32 - BitVec.ofNat 32 hlen

/-- Which of the fields changed, and their changes as they are sent; `none` if the packet is sent uncompressed. -/
def changed (ip cs : Mem) (th hlen : Nat) : Option (BitVec 8 × List (BitVec 8)) :=
  let urg := thFlags ip th &&& TH_URG ≠ 0
  let deltaW := thWin ip th - thWin cs th
  let deltaA := thAck ip th - thAck cs th
  let deltaS := thSeq ip th - thSeq cs th
  if ¬ urg ∧ thUrp ip th ≠ thUrp cs th then none
  else if deltaA.toNat > 0xffff then none
  else if deltaS.toNat > 0xffff then none
  else
    let changes := (if urg then newU else 0) ||| (if deltaW ≠ 0 then newW else 0) ||| (if deltaA ≠ 0 then newA else 0) |||
      (if deltaS ≠ 0 then newS else 0)
    let newSeq := (if urg then encodeZ (thUrp ip th) else []) ++ (if deltaW ≠ 0 then encode deltaW else []) ++
      (if deltaA ≠ 0 then encode (deltaA.setWidth 16) else []) ++ (if deltaS ≠ 0 then encode (deltaS.setWidth 16) else [])
    if changes = 0 then
      if ipLen ip ≠ ipLen cs ∧ (ipLen cs).toNat = hlen then some (changes, newSeq) else none
    else if changes = specialI ∨ changes = specialD then none
    else if changes = newS ||| newA ∧ deltaS = deltaA ∧ deltaS = dataLen cs hlen then some (specialI, [])
    else if changes = newS ∧ deltaS = dataLen cs hlen then some (specialD, [])
    else some (changes, newSeq)

/-- The packet with the id of the connection for its protocol. -/
def uncompressed (comp : Slcompress) (p : List (BitVec 8)) (c hlen : Nat) : Slcompress × PacketType × List (BitVec 8) :=
  ({ comp with tstate := update comp.tstate c (memcpy (comp.tstate c) (mem p) hlen), lastXmit := c },
    .uncompressedTcp, p.set 9 (BitVec.ofNat 8 c))

/-- The header is replaced by the mask of changes, the id if it is not implicit, the checksum and the changes. -/
def compressed (comp : Slcompress) (p : List (BitVec 8)) (c hlen : Nat) (compressCid : Bool) (changes : BitVec 8)
    (newSeq : List (BitVec 8)) : Slcompress × PacketType × List (BitVec 8) :=
  let ip := mem p
  let cs := comp.tstate c
  let th := ipHlen ip
  let deltaI := (ipId ip).setWidth 32 - (ipId cs).setWidth 32
  let newSeq := newSeq ++ if deltaI ≠ (1 : BitVec 32) then encodeZ (deltaI.setWidth 16) else []
  let changes := changes ||| (if deltaI ≠ (1 : BitVec 32) then newI else 0) |||
    (if thFlags ip th &&& TH_PUSH ≠ 0 then tcpPushBit else 0)
  let start := if compressCid = false ∨ comp.lastXmit ≠ c then [changes ||| newC, BitVec.ofNat 8 c] else [changes]
  let sum := [(thSum ip th).extractLsb' 8 8, (thSum ip th).extractLsb' 0 8]
  ({ comp with tstate := update comp.tstate c (memcpy cs ip hlen), lastXmit := c }, .compressedTcp, start ++ sum ++ newSeq ++ p.drop hlen)

def slCompressTcp (comp : Slcompress) (p : List (BitVec 8)) (compressCid : Bool) :
    Slcompress × PacketType × List (BitVec 8) :=
  let ip := mem p
  let th := ipHlen ip
  let hlen := th + thHlen ip th
  if ipOff ip &&& (0x3fff : BitVec 16) ≠ 0 ∨ p.length < 40 then (comp, .ip, p)
  else if thFlags ip th &&& (TH_SYN ||| TH_FIN ||| TH_RST ||| TH_ACK) ≠ TH_ACK then (comp, .ip, p)
  else
    match comp.lru.find? fun c => sameConnection ip (comp.tstate c) with
    | none =>
      -- the oldest state is used again
      let c := comp.lru.getLastD 0
      let comp := { comp with lru := c :: comp.lru.dropLast }
      if hlen > p.length then (comp, .ip, p) else uncompressed comp p c hlen
    | some c =>
      let comp := { comp with lru := c :: comp.lru.erase c }
      if hlen > p.length then (comp, .ip, p)
      else if unexpected ip (comp.tstate c) th then uncompressed comp p c hlen
      else
        match changed ip (comp.tstate c) th hlen with
        | none => uncompressed comp p c hlen
        | some (changes, newSeq) => compressed comp p c hlen compressCid changes newSeq

/-- The receiver discards packets until there is an explicit id. -/
def bad (comp : Slcompress) : Slcompress × Option (List (BitVec 8)) := ({ comp with toss := true }, none)

def syncHeader (comp : Slcompress) (buf : List (BitVec 8)) : Slcompress × Option (List (BitVec 8)) :=
  let ipP := mem buf 9
  if ipP.toNat ≥ maxStates then bad comp
  else
    let comp := { comp with lastRecv := ipP.toNat, toss := false }
    let buf := buf.set 9 IPPROTO_TCP
    let ip := mem buf
    let th := ipHlen ip
    if th + 20 > buf.length then bad comp
    else
      let hlen := th + thHlen ip th
      if hlen > maxHdr ∨ hlen > buf.length then bad comp
      else
        let cs := comp.rstate ipP.toNat
        ({ comp with rstate := update comp.rstate ipP.toNat ⟨hlen, memcpy cs.csHdr ip hlen⟩ }, some buf)

/-- The numbers behind the checksum, and the flag that goes with the first. -/
def decodeChanges (changes : BitVec 8) (th csHlen : Nat) (m : Mem × List (BitVec 8)) : Option (Mem × List (BitVec 8)) :=
  if changes &&& specialsMask = specialI then
    let i := dataLen m.1 csHlen
    let ack := set32 m.1 (th + 8) (thAck m.1 th + i)
    some (set32 ack (th + 4) (thSeq ack th + i), m.2)
  else if changes &&& specialsMask = specialD then
    some (set32 m.1 (th + 4) (thSeq m.1 th + dataLen m.1 csHlen), m.2)
  else do
    let m ← (if changes &&& newU ≠ 0 then decodeU (th + 18) (update m.1 (th + 13) (thFlags m.1 th ||| TH_URG), m.2)
      else some (update m.1 (th + 13) (thFlags m.1 th &&& ~~~TH_URG), m.2))
    let m ← (if changes &&& newW ≠ 0 then decodeS (th + 14) m else some m)
    let m ← (if changes &&& newA ≠ 0 then decodeL (th + 8) m else some m)
    if changes &&& newS ≠ 0 then decodeL (th + 4) m else some m

def decodeId (changes : BitVec 8) (m : Mem × List (BitVec 8)) : Option (Mem × List (BitVec 8)) :=
  if changes &&& newI ≠ 0 then decodeS 4 m else some (set16 m.1 4 (ipId m.1 + 1), m.2)

/-- The header that a compressed packet stands for, and the data; `cp` is behind the id. `none` is a read behind the
packet. -/
def rebuild (cs : Cstate) (changes : BitVec 8) (cp : List (BitVec 8)) : Option (Mem × List (BitVec 8)) := do
  let th := ipHlen cs.csHdr
  match cp with
  | hi :: lo :: cp =>
    let m := set16 cs.csHdr (th + 16) (hi ++ lo)
    let flags := if changes &&& tcpPushBit ≠ 0 then thFlags m th ||| TH_PUSH else thFlags m th &&& ~~~TH_PUSH
    let m ← decodeChanges changes th cs.csHlen (update m (th + 13) flags, cp)
    let (m, cp) ← decodeId changes m
    let m := set16 m 2 (BitVec.ofNat 16 (cs.csHlen + cp.length))
    let m := set16 m 10 0
    return (set16 m 10 (~~~BitVec.ofNat 16 (headerSum m th)), cp)
  | _ => none

/-- With `lastRecv` set to the id of the packet. -/
def uncompressHeader (comp : Slcompress) (changes : BitVec 8) (cp : List (BitVec 8)) : Slcompress × Option (List (BitVec 8)) :=
  let cs := comp.rstate comp.lastRecv
  match rebuild cs changes cp with
  | none => bad comp
  | some (m, cp) =>
    ({ comp with rstate := update comp.rstate comp.lastRecv { cs with csHdr := m } }, some ((List.range cs.csHlen).map m ++ cp))

def slUncompressTcp (comp : Slcompress) (buf : List (BitVec 8)) (type : PacketType) :
    Slcompress × Option (List (BitVec 8)) :=
  match type with
  | .uncompressedTcp => syncHeader comp buf
  | .compressedTcp =>
    match buf with
    | [] => bad comp
    | changes :: cp =>
      if changes &&& newC ≠ 0 then
        match cp with
        | [] => bad comp
        | c :: cp =>
          if c.toNat ≥ maxStates then bad comp
          else uncompressHeader { comp with toss := false, lastRecv := c.toNat } changes cp
      else if comp.toss then (comp, none)
      else uncompressHeader comp changes cp
  | _ => bad comp

/-- The two ends, and the packets that were sent, each with what came out for it. -/
structure Line where
  xmit : Slcompress
  recv : Slcompress
  log : List (List (BitVec 8) × Option (List (BitVec 8)))

/-- A packet of the type IP is passed on as it is. -/
def deliver (comp : Slcompress) (type : PacketType) (p : List (BitVec 8)) : Slcompress × Option (List (BitVec 8)) :=
  if type = .ip then (comp, some p) else slUncompressTcp comp p type

/-- A packet and whether the ids of connections may be left out. -/
def send (line : Line) (a : List (BitVec 8) × Bool) : Line :=
  let (xmit, type, q) := slCompressTcp line.xmit a.1 a.2
  let (recv, out) := deliver line.recv type q
  ⟨xmit, recv, (a.1, out) :: line.log⟩

def Setup (maxState : Int) : Prop := maxState = -1 ∨ 0 ≤ maxState ∧ maxState < maxStates

instance (maxState : Int) : Decidable (Setup maxState) := inferInstanceAs (Decidable (_ ∨ _))

/-- Either end may have another number of states. -/
def init (line : Line) : Prop :=
  ∃ maxState maxState', Setup maxState ∧ Setup maxState' ∧ line = ⟨slCompressSetup maxState, slCompressSetup maxState', []⟩

def system : Lib.System Line (List (BitVec 8) × Bool) := .ofStep init fun line a => some (send line a)

end NetBSD.Net.SlCompress
