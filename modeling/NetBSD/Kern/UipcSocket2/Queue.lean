import Mathlib.Algebra.Ring.Nat
import NetBSD.Lib.System
import Mathlib.Data.List.Basic

/-! The queue of a socket buffer: records of mbufs.

The queue is the list of its records, linked by the `m_nextpkt` of their first mbufs; a record is the list of its
mbufs, linked by `m_next`. An mbuf is known by its address, so that `sb_lastrecord`, `sb_mbtail` and the place to
append at are pointers as they are in the source: one that points nowhere is `none`, and so is a panic or a failed
assertion. Of an mbuf that is not the first of its record the field `nextpkt` is the pointer it has all the same.
What the other holders of a cluster do is not known here: which clusters are read-only is an answer a call gets. -/
namespace NetBSD.Kern.UipcSocket2

abbrev Addr := Nat

inductive MType where
  | free | data | header | soname | soopts | ftable | control | oobdata
  deriving DecidableEq

/-- `ext` is the size of the external storage, `room` the space behind the data, `pkthdr` the length in the packet
header. -/
structure Mbuf where
  addr : Addr
  type : MType
  data : List UInt8
  eor : Bool
  pkthdr : Option Nat
  ext : Option Nat
  room : Nat
  nextpkt : Option Addr
  deriving DecidableEq

abbrev Record := List Mbuf

structure Sockbuf where
  mb : List Record
  cc : Nat
  mbcnt : Nat
  lastrecord : Option Addr
  mbtail : Option Addr
  hiwat : Nat
  mbmax : Nat
  deriving DecidableEq

def MSIZE : Nat := 512
def MCLBYTES : Nat := 2048
def MLEN : Nat := 456
def MHLEN : Nat := 400

def Mbuf.len (m : Mbuf) : Nat := m.data.length

/-- What an mbuf is charged for: itself and its external storage. -/
def Mbuf.storage (m : Mbuf) : Nat := MSIZE + m.ext.getD 0

/-- `M_TRAILINGSPACE`: none in a cluster that is read-only. -/
def Mbuf.trailingspace (ro : Addr → Bool) (m : Mbuf) : Nat := if m.ext.isSome && ro m.addr then 0 else m.room

def Record.first (r : Record) : Option Addr := r.head?.map Mbuf.addr

def sballoc (sb : Sockbuf) (m : Mbuf) : Sockbuf := { sb with cc := sb.cc + m.len, mbcnt := sb.mbcnt + m.storage }

def sbfree (sb : Sockbuf) (m : Mbuf) : Sockbuf := { sb with cc := sb.cc - m.len, mbcnt := sb.mbcnt - m.storage }

def sbspace (sb : Sockbuf) : Nat :=
  if sb.hiwat ≤ sb.cc ∨ sb.mbmax ≤ sb.mbcnt then 0 else min (sb.hiwat - sb.cc) (sb.mbmax - sb.mbcnt)

def emptyFixup (sb : Sockbuf) : Sockbuf := if sb.mb = [] then { sb with mbtail := none, lastrecord := none } else sb

def find (q : List Record) (n : Addr) : Option Mbuf := q.flatten.find? (·.addr = n)

def modify (n : Addr) (f : Mbuf → Mbuf) (q : List Record) : List Record :=
  q.map fun r => r.map fun m => if m.addr = n then f m else m

/-- `n->m_next = m`, where nothing is behind `m`: in the record of `n`, what was behind it is cut off. -/
def setNext (n : Addr) (m : Mbuf) : Record → Record
  | [] => []
  | x :: r => if x.addr = n then [x, m] else x :: setNext n m r

def setNextpkt (n : Addr) (rs : List Record) : List Record → Option (List Record)
  | [] => none
  | r :: q => if Record.first r = some n then some (r :: rs) else (setNextpkt n rs q).map (r :: ·)

def linkRecordChain (sb : Sockbuf) (rs : List Record) (mlast : Option Addr) : Option Sockbuf :=
  match sb.lastrecord with
  | some l => (setNextpkt l rs sb.mb).map fun q => { sb with mb := q, lastrecord := mlast }
  | none => some { sb with mb := rs, lastrecord := mlast }

def linkRecord (sb : Sockbuf) (r : Record) : Option Sockbuf := linkRecordChain sb [r] (Record.first r)

/-- An empty mbuf is freed: no mark is to be kept, or `o` of the same type will carry it. -/
def freed (eor : Bool) (m : Mbuf) (o : Option Mbuf) : Bool :=
  m.data.isEmpty && (!eor || o.any fun o => o.type == m.type)

/-- The data of `m` is copied behind that of `n`. -/
def copied (ro : Addr → Bool) (n m : Mbuf) : Bool :=
  !n.eor && m.len ≤ MCLBYTES / 4 && m.len ≤ n.trailingspace ro && n.type == m.type

def Mbuf.take (n m : Mbuf) : Mbuf := { n with data := n.data ++ m.data, room := n.room - m.len }

def Mbuf.setEor (b : Bool) (m : Mbuf) : Mbuf := { m with eor := b }

/-- `m` becomes the mbuf behind `n`, or the queue. -/
def link (sb : Sockbuf) (n : Option Addr) (m : Mbuf) : Sockbuf :=
  let q := match n with
    | some n => sb.mb.map (setNext n (m.setEor false))
    | none => [[m.setEor false]]
  sballoc { sb with mb := q, mbtail := some m.addr } m

/-- The test reads the mbuf `n` only when `m` is the last: `none` if it is then not there. -/
def freeTest (q : List Record) (n : Option Addr) (eor : Bool) (m : Mbuf) (rest : List Mbuf) : Option Bool :=
  match rest, n with
  | o :: _, _ => some (freed eor m (some o))
  | [], none => some (freed eor m none)
  | [], some n => if m.data.isEmpty && eor then (find q n).map fun o => freed eor m (some o) else some (freed eor m none)

def sbcompress (ro : Addr → Bool) (sb : Sockbuf) (n : Option Addr) (eor : Bool) : List Mbuf → Option Sockbuf
  | [] =>
    match eor, n with
    | true, some n => (find sb.mb n).map fun _ => { sb with mb := modify n (Mbuf.setEor true) sb.mb }
    -- The mark is lost, with a message.
    | true, none => some sb
    | false, _ => some sb
  | m :: rest => do
    let eor := eor || m.eor
    if ← freeTest sb.mb n eor m rest then
      let sb := if sb.lastrecord = some m.addr then { sb with lastrecord := Record.first rest } else sb
      sbcompress ro sb n eor rest
    else
      match n with
      | none => sbcompress ro (link sb none m) (some m.addr) eor rest
      | some a =>
        let o ← find sb.mb a
        if copied ro o m then
          sbcompress ro { sb with mb := modify a (·.take m) sb.mb, cc := sb.cc + m.len } n eor rest
        else
          sbcompress ro (link sb n m) (some m.addr) eor rest

/-! ### Appending -/

/-- The mark of the first mbuf is moved to the one behind it. -/
def moveEor (m0 : Mbuf) (m : List Mbuf) : Mbuf × List Mbuf :=
  match m with
  | [] => (m0, [])
  | o :: rest => if m0.eor then (m0.setEor false, o.setEor true :: rest) else (m0, o :: rest)

def sbappendrecord (ro : Addr → Bool) (sb : Sockbuf) : List Mbuf → Option Sockbuf
  | [] => some sb
  | m0 :: m => do
    let (m0, m) := moveEor m0 m
    let sb ← linkRecord (sballoc sb m0) [m0]
    sbcompress ro sb (some m0.addr) false m

def sbappend (ro : Addr → Bool) (sb : Sockbuf) (m : List Mbuf) : Option Sockbuf :=
  if m = [] then some sb else
  match sb.lastrecord with
  | none => sbcompress ro { sb with lastrecord := Record.first m } none false m
  | some l => do
    let r ← sb.mb.find? (Record.first · = some l)
    if r.any Mbuf.eor then sbappendrecord ro sb m
    else sbcompress ro sb (r.getLast?.map Mbuf.addr) false m

def sbappendstream (ro : Addr → Bool) (sb : Sockbuf) (m : List Mbuf) : Option Sockbuf :=
  if (sb.mb.head?.bind Record.first) = sb.lastrecord then
    (sbcompress ro sb sb.mbtail false m).map fun sb => { sb with lastrecord := sb.mb.head?.bind Record.first }
  else none

/-- A record to be skipped: behind its control mbufs is out-of-band data. -/
def oobTrain : Record → Bool
  | [] => false
  | m :: r =>
    match m.type with
    | .oobdata => true
    | .control => oobTrain r
    | _ => false

def sbinsertoob (ro : Addr → Bool) (sb : Sockbuf) : List Mbuf → Option Sockbuf
  | [] => some sb
  | m0 :: m =>
    let before := sb.mb.takeWhile oobTrain
    let behind := sb.mb.dropWhile oobTrain
    let (m0, m) := moveEor m0 m
    let sb := sballoc sb m0
    let sb := { sb with mb := before ++ [m0] :: behind, lastrecord := if behind = [] then some m0.addr else sb.lastrecord }
    sbcompress ro sb (some m0.addr) false m

/-- m_get, and MEXTMALLOC for a name that does not fit: the address and the size they answer with. -/
structure Alloc where
  get : Option Addr
  ext : Option Nat

/-- The mbuf with the name; `asa` are its `sa_len` bytes. -/
def sonameMbuf (asa : List UInt8) (a : Alloc) : Option Mbuf := do
  let addr ← a.get
  if asa.length > MLEN then
    let size ← a.ext
    return ⟨addr, .soname, asa, false, none, some size, size - asa.length, none⟩
  else return ⟨addr, .soname, asa, false, none, none, MLEN - asa.length, none⟩

/-- The record is charged and linked as it is. -/
def putRecord (sb : Sockbuf) (r : Record) : Option Sockbuf :=
  (linkRecord (r.foldl sballoc sb) r).map fun sb => { sb with mbtail := r.getLast?.map Mbuf.addr }

/-- The length in the packet header of the data; with data there must be one. -/
def hdrLen : List Mbuf → Option Nat
  | [] => some 0
  | m :: _ => m.pkthdr

/-- The answer says whether the record was appended. -/
def sbappendaddr (sb : Sockbuf) (asa : List UInt8) (m0 control : List Mbuf) (a : Alloc) : Option (Bool × Sockbuf) := do
  let len ← hdrLen m0
  if asa.length + len + (control.map Mbuf.len).sum > sbspace sb then return (false, sb)
  match sonameMbuf asa a with
  | none => return (false, sb)
  | some m => (putRecord sb (m :: (control ++ m0))).map (true, ·)

def sbappendcontrol (sb : Sockbuf) (m0 control : List Mbuf) : Option (Bool × Sockbuf) :=
  if control = [] then none
  else if ((control ++ m0).map Mbuf.len).sum > sbspace sb then some (false, sb)
  else (putRecord sb (control ++ m0)).map (true, ·)

/-- m_prepend_sockaddr. The first mbuf of the record `m` keeps its pointer to the record `next`. -/
def prependSockaddr (asa : List UInt8) (addr : Addr) (m : Record) (next : Option Addr) : Option Record :=
  match m with
  | [] => none
  | m0 :: rest =>
    if asa.length > MHLEN then none
    else m0.pkthdr.map fun len =>
      ⟨addr, .soname, asa, false, some (asa.length + len), none, MHLEN - asa.length, none⟩ :: { m0 with nextpkt := next } :: rest

/-- The records of the chain, each with the name in front, are charged as they are made. The answers of m_gethdr come
one for each record; the last answer says whether all of them were made. -/
def prependAll (asa : List UInt8) (sb : Sockbuf) (made : List Record) :
    List Record → List (Option Addr) → Option (Sockbuf × List Record × Bool)
  | [], _ => some (sb, made, true)
  | m :: rest, some addr :: answers => do
    let n ← prependSockaddr asa addr m (rest.head?.bind Record.first)
    prependAll asa (n.foldl sballoc sb) (made ++ [n]) rest answers
  | _ :: _, _ => some (sb, made, false)

def sbappendaddrchain (sb : Sockbuf) (asa : List UInt8) (m0 : List Record) (answers : List (Option Addr)) :
    Option (Bool × Sockbuf) := do
  let (sb, made, all) ← prependAll asa sb [] m0 answers
  if all then
    let last ← made.getLast?
    let sb ← linkRecordChain sb made (Record.first last)
    return (true, { sb with mbtail := last.getLast?.map Mbuf.addr })
  else return (false, made.foldl (fun sb n => n.foldl sbfree sb) sb)

/-! ### Dropping -/

/-- The loop of sbdrop within a record: what is left of the length and of the record. -/
def dropMbufs (sb : Sockbuf) (len : Nat) : List Mbuf → Sockbuf × Nat × List Mbuf
  | [] => (sb, len, [])
  | m :: rest =>
    if len = 0 then (sb, 0, m :: rest)
    else if m.len > len then ({ sb with cc := sb.cc - len }, 0, { m with data := m.data.drop len } :: rest)
    else dropMbufs (sbfree sb m) (len - m.len) rest

/-- The records after the loop: what is left of the one it stopped in, and those behind. -/
def dropRecords (sb : Sockbuf) (len : Nat) : List Record → Option (Sockbuf × Record × List Record)
  | [] => if len = 0 then some (sb, [], []) else none
  | r :: next =>
    match dropMbufs sb len r with
    | (sb, len, []) => if len = 0 then some (sb, [], next) else dropRecords sb len next
    | (sb, _, m) => some (sb, m, next)

def dropEmpty (sb : Sockbuf) : List Mbuf → Sockbuf × List Mbuf
  | [] => (sb, [])
  | m :: rest => if m.len = 0 then dropEmpty (sbfree sb m) rest else (sb, m :: rest)

/-- The front of the queue: the pointer to the next record is now that of `m`. -/
def setFront (next : List Record) : List Mbuf → List Record
  | [] => next
  | m :: rest => ({ m with nextpkt := none } :: rest) :: next

def sbdrop (sb : Sockbuf) (len : Int) : Option Sockbuf :=
  (dropRecords sb len.toNat sb.mb).map fun (sb, m, next) =>
    let (sb, m) := dropEmpty sb m
    match setFront next m with
    | [] => { sb with mb := [], mbtail := none, lastrecord := none }
    | [r] => { sb with mb := [r], lastrecord := Record.first r }
    | q => { sb with mb := q }

def sbdroprecord (sb : Sockbuf) : Sockbuf :=
  match sb.mb with
  | [] => emptyFixup sb
  | r :: q => emptyFixup (r.foldl sbfree { sb with mb := q })

def toInt (n : Nat) : Int := (n : Int).bmod (2 ^ 32)

/-- `none` also when the loop has not ended within the rounds. -/
def sbflush (rounds : Nat) (sb : Sockbuf) : Option Sockbuf :=
  if sb.mbcnt = 0 then
    if sb.cc = 0 ∧ sb.mb = [] ∧ sb.mbtail = none ∧ sb.lastrecord = none then some sb else none
  else
    match rounds with
    | 0 => none
    | rounds + 1 => (sbdrop sb (toInt sb.cc)).bind (sbflush rounds)

end NetBSD.Kern.UipcSocket2
