import NetBSD.Lib.Slices
import Mathlib.Algebra.Ring.Nat
import Mathlib.Logic.Function.Basic

/-! Copying data back into an mbuf chain.

An mbuf has its data in itself or in external storage, which other mbufs may share, in the chain or outside of it; `refcnt` counts
them. A chain is a list, with the mbuf at `*mp` and those before it kept apart (`Cursor`) while `m_copyback_internal` goes along.
Memory that is not written yet has any contents. Where an assertion fails the result is `none`. -/
namespace NetBSD.Kern.UipcMbuf
open Function
open Lib

def MLEN : Nat := 456
def MHLEN : Nat := 400
def MCLBYTES : Nat := 2048
def MINCLSIZE : Nat := MHLEN + MLEN + 1

abbrev Byte := BitVec 8

structure Ext where
  refcnt : Nat
  buf : Nat → Byte
  size : Nat

/-- All external storage; that from `fresh` on is not used. -/
structure Heap where
  ext : Nat → Ext
  fresh : Nat

/-- Without M_EXT the data is in the mbuf. `romap` and `rw` are M_EXT_ROMAP and M_EXT_RW. -/
inductive Store where
  | dat (buf : Nat → Byte)
  | ext (ref : Nat) (romap rw : Bool)

/-- `data` is from the start of the data area or the storage, `pkthdr` the length in the header, with M_PKTHDR. -/
structure Mbuf where
  type : Nat
  data : Nat
  len : Nat
  pkthdr : Option Nat
  store : Store

section
variable (h : Heap) (m : Mbuf)

def Mbuf.ref : Option Nat :=
  match m.store with
  | .dat _ => none
  | .ext x _ _ => some x

def buffer : Nat → Byte :=
  match m.store with
  | .dat buf => buf
  | .ext x _ _ => (h.ext x).buf

def bytes : List Byte := slice (buffer h m) m.data m.len

def chainBytes (chain : List Mbuf) : List Byte := chain.flatMap (bytes h)

def mLength (chain : List Mbuf) : Nat := (chain.map Mbuf.len).sum

def readonly : Bool :=
  match m.store with
  | .dat _ => false
  | .ext x romap rw => !(rw && !romap) || decide (1 < (h.ext x).refcnt)

def trailingspace : Nat :=
  if readonly h m then 0
  else
    match m.store with
    | .dat _ => MLEN - (m.data + m.len)
    | .ext x _ _ => (h.ext x).size - (m.data + m.len)

/-- `memcpy` and `memset` into the data, from its byte `i` on. -/
def write (i : Nat) (l : List Byte) : Heap × Mbuf :=
  match m.store with
  | .dat buf => (h, {m with store := .dat (poke buf (m.data + i) l)})
  | .ext x _ _ => ({h with ext := update h.ext x {h.ext x with buf := poke (h.ext x).buf (m.data + i) l}}, m)

/-! ### Allocation -/

/-- A new mbuf without a packet header; `junk` is what was in the memory. -/
def mGet (junk : Nat → Byte) (type : Nat) : Mbuf where
  type := type
  data := 0
  len := 0
  pkthdr := none
  store := .dat junk

/-- MCLGET, where there is a cluster. -/
def mClget (junk : Nat → Byte) : Heap × Mbuf :=
  (⟨update h.ext h.fresh ⟨1, junk, MCLBYTES⟩, h.fresh + 1⟩, {m with data := 0, store := .ext h.fresh false true})

def mayClget (want : Bool) (junk : Nat → Byte) : Heap × Mbuf := if want then mClget h m junk else (h, m)

def setRefcnt (x n : Nat) : Heap := {h with ext := update h.ext x {h.ext x with refcnt := n}}

/-- MCLADDREFERENCE, of the storage of `m`. -/
def addReference : Heap :=
  match m.store with
  | .dat _ => h
  | .ext x _ _ => setRefcnt h x ((h.ext x).refcnt + 1)

def mFree : Heap :=
  match m.store with
  | .dat _ => h
  | .ext x _ _ => setRefcnt h x ((h.ext x).refcnt - 1)

def mFreem : Heap → List Mbuf → Heap := List.foldl mFree

end

/-- The first gets the packet header of the other. -/
def mMovePkthdr (dst src : Mbuf) : Mbuf × Mbuf := ({dst with data := MLEN - MHLEN, pkthdr := src.pkthdr}, {src with pkthdr := none})

structure Mem where
  mbuf : Bool
  cluster : Bool

/-- `m_split_internal` without a header: the chain up to `len0`, and what is behind it. -/
def mSplitInternal (mem : Mem) (junk : Nat → Byte) (h : Heap) : List Mbuf → Nat → Option (Heap × List Mbuf × List Mbuf)
  | [], _ => none
  | m :: rest, len =>
    if len > m.len then (mSplitInternal mem junk h rest (len - m.len)).map fun (h, front, n) => (h, m :: front, n)
    else
      let remain := m.len - len
      if remain = 0 then some (h, [m], rest)
      else if mem.mbuf = false then none
      else
        let n := {mGet junk m.type with data := (MLEN - remain) / 8 * 8}
        let (h, n) := match m.store with
          | .ext x romap rw => (addReference h m, {n with data := m.data + len, store := .ext x romap rw})
          | .dat _ => write h n 0 ((bytes h m).drop len)
        some (h, [{m with len := len}], {n with len := remain} :: rest)

/-! ### m_copyback_internal -/

structure Flags where
  copyback : Bool
  preserve : Bool
  extend : Bool
  cow : Bool

/-- The mbufs before `*mp`, the one there and those behind it. -/
structure Cursor where
  heap : Heap
  pre : List Mbuf
  m : Mbuf
  rest : List Mbuf
  off : Nat
  len : Nat
  totlen : Nat
  cp : List Byte

/-- Where a round goes on: in the first loop, in the second, behind both, or at `enobufs`. -/
inductive Next where
  | seek (c : Cursor)
  | copy (c : Cursor)
  | out (c : Cursor)
  | enobufs (c : Cursor)

/-- `extend`: the chain is at its end. -/
def extend (f : Flags) (mem : Mem) (junk : Nat → Byte) (c : Cursor) : Next :=
  if f.extend = false then .out c
  else
    let need := c.off + c.len
    let (h, m) := mayClget c.heap c.m (decide (need ≥ MINCLSIZE ∧ c.m.ref = none ∧ c.m.len = 0) && mem.cluster) junk
    let tspace := trailingspace h m
    if tspace > 0 then
      let tspace := min tspace need
      let (h, m) := write h m m.len (List.replicate (min c.off tspace) 0)
      .seek {c with heap := h, m := {m with len := m.len + tspace}, off := c.off + c.m.len, totlen := c.totlen - c.m.len}
    else if mem.mbuf = false ∨ (need ≥ MINCLSIZE ∧ mem.cluster = false) then .out {c with heap := h, m := m}
    else
      let (h, n) := mayClget h (mGet junk m.type) (decide (need ≥ MINCLSIZE)) junk
      let len := min (trailingspace h n) need
      let (h, n) := write h n 0 (List.replicate (min len c.off) 0)
      .seek {c with heap := h, pre := c.pre ++ [m], m := {n with len := len}}

def seekRound (f : Flags) (mem : Mem) (junk : Nat → Byte) (c : Cursor) : Next :=
  if c.off > c.m.len then
    let c := {c with off := c.off - c.m.len, totlen := c.totlen + c.m.len}
    match c.rest with
    | [] => extend f mem junk c
    | m :: rest => .seek {c with pre := c.pre ++ [c.m], m := m, rest := rest}
  else .copy c

/-- The mbufs that a new one of a type takes the place of: what is left, how much there was not, and the data. -/
def eat (type : Nat) : Heap → List Mbuf → Nat → Heap × List Mbuf × Nat × List Byte
  | h, [], eatlen => (h, [], eatlen, [])
  | h, m :: rest, eatlen =>
    if readonly h m ∧ type = m.type ∧ eatlen > 0 then
      let mlen := min eatlen m.len
      let m' := {m with data := m.data + mlen, len := m.len - mlen}
      if m'.len = 0 then
        let (h', rest', eatlen', data) := eat type (mFree h m') rest (eatlen - mlen)
        (h', rest', eatlen', (bytes h m).take mlen ++ data)
      -- `eatlen` is 0 then.
      else (h, m' :: rest, eatlen - mlen, (bytes h m).take mlen)
    else (h, m :: rest, eatlen, [])

/-- A new mbuf in front of `c.m`, with its packet header if it has one: the heap, it and what `c.m` is then. -/
def newFront (mem : Mem) (junk : Nat → Byte) (c : Cursor) : Heap × Mbuf × Mbuf :=
  let n := mGet junk c.m.type
  if c.m.pkthdr.isSome then
    let (n, m) := mMovePkthdr n c.m
    (c.heap, {n with len := MHLEN}, m)
  else
    let (h, n) := mayClget c.heap n (decide (c.len ≥ MINCLSIZE) && mem.cluster) junk
    (h, {n with len := if n.ref.isSome then MCLBYTES else MLEN}, c.m)

/-- A writable mbuf for the front of the range, in the place of those it was in. -/
def overwritten (f : Flags) (mem : Mem) (junk : Nat → Byte) (c : Cursor) : Next :=
  if mem.mbuf = false then .enobufs c
  else
    let (h, n, m) := newFront mem junk c
    let n := {n with len := min n.len c.len}
    let (h, rest, eatlen, data) := eat n.type h (m :: c.rest) n.len
    let (h, n) := if f.preserve then write h n 0 data else (h, n)
    .copy {c with heap := h, m := {n with len := n.len - eatlen}, rest := rest}

def copyRound (f : Flags) (mem : Mem) (junk : Nat → Byte) (c : Cursor) : Option Next :=
  if c.len = 0 then some (.out c)
  else if c.m.len - c.off ≠ 0 ∧ readonly c.heap c.m then
    if f.cow = false then none
    else if c.off > 0 then
      match mSplitInternal mem junk c.heap (c.m :: c.rest) c.off with
      | some (h, m :: _, n :: rest) => some (.copy {c with heap := h, pre := c.pre ++ [m], m := n, rest := rest, off := 0})
      | _ => some (.enobufs c)
    else some (overwritten f mem junk c)
  else
    let mlen := min (c.m.len - c.off) c.len
    let (h, m) := if f.copyback then write c.heap c.m c.off (c.cp.take mlen) else (c.heap, c.m)
    let c := {c with
      heap := h
      m := m
      cp := c.cp.drop mlen
      len := c.len - mlen
      totlen := c.totlen + (mlen + c.off)
      off := 0 }
    if c.len = 0 then some (.out c)
    else
      match c.rest with
      | [] => some (extend f mem junk c)
      | m :: rest => some (.copy {c with pre := c.pre ++ [c.m], m := m, rest := rest})

/-- `out`: the header gets the length. -/
def finish (f : Flags) (c : Cursor) : Option (List Mbuf) :=
  match c.pre ++ c.m :: c.rest with
  | [] => none
  | m :: rest =>
    match m.pkthdr with
    | some len =>
      if len < c.totlen then if f.extend then some ({m with pkthdr := some c.totlen} :: rest) else none
      else some (m :: rest)
    | none => some (m :: rest)

/-- The errno, and what there is then. -/
structure Result where
  enobufs : Bool
  heap : Heap
  chain : List Mbuf

/-- The rounds; `mem` and `junk` say for each how it gets memory. -/
def rounds (f : Flags) (mem : Nat → Mem) (junk : Nat → Nat → Byte) : Nat → Next → Option Result
  | 0, _ => none
  | n + 1, .seek c => rounds f mem junk n (seekRound f (mem n) (junk n) c)
  | n + 1, .copy c => (copyRound f (mem n) (junk n) c).bind (rounds f mem junk n)
  | _ + 1, .out c => (finish f c).map fun chain => ⟨false, c.heap, chain⟩
  | _ + 1, .enobufs c => some ⟨true, c.heap, c.pre ++ c.m :: c.rest⟩

/-- `len` is `none` for M_COPYALL, and `vp` is empty for NULL. -/
def mCopybackInternal (f : Flags) (mem : Nat → Mem) (junk : Nat → Nat → Byte) (fuel : Nat) (h : Heap) (mp0 : List Mbuf) (off : Nat)
    (len : Option Nat) (vp : List Byte) : Option Result :=
  match mp0 with
  | [] => none
  | m :: rest =>
    if f.extend ∧ f.cow then none
    else
      let len := len.getD (mLength mp0 - off)
      rounds f mem junk fuel (.seek ⟨h, [], m, rest, off, len, 0, vp⟩)

def mCopyback (mem : Nat → Mem) (junk : Nat → Nat → Byte) (fuel : Nat) (h : Heap) (m0 : List Mbuf) (off len : Nat) (cp : List Byte) :
    Option Result :=
  if m0 = [] then some ⟨false, h, []⟩
  else mCopybackInternal ⟨true, false, true, false⟩ mem junk fuel h m0 off (some len) cp

/-- The chain is freed where there is no memory. -/
def mCopybackCow (mem : Nat → Mem) (junk : Nat → Nat → Byte) (fuel : Nat) (h : Heap) (m0 : List Mbuf) (off len : Nat) (cp : List Byte) :
    Option Result :=
  (mCopybackInternal ⟨true, false, false, true⟩ mem junk fuel h m0 off (some len) cp).map fun r =>
    if r.enobufs then ⟨true, mFreem r.heap r.chain, []⟩ else r

def mMakewritable (mem : Nat → Mem) (junk : Nat → Nat → Byte) (fuel : Nat) (h : Heap) (mp : List Mbuf) (off : Nat) (len : Option Nat) :
    Option Result :=
  mCopybackInternal ⟨false, true, false, true⟩ mem junk fuel h mp off len []

end NetBSD.Kern.UipcMbuf
