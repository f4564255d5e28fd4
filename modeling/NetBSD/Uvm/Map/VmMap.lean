import Mathlib.Algebra.Ring.Nat
import NetBSD.Lib.MaxTree

/-! Maps of virtual memory (`sys/uvm/uvm_map.c`).

A map has its entries on a list, sorted by address, and in a search tree in which each entry has
the free space behind it (`gap`) and the most free space behind an entry of its subtree
(`maxgap`). A pointer to an entry is its place on the list, counted from 1; 0 is the header, which
ends where the map begins and begins where the map ends. An address has 64 bits. The map is
written by lookups only at its hint. -/
namespace NetBSD.Uvm.Map
open Lib

structure VmMapEntry where
  start : Nat
  stop : Nat
  gap : Nat
  maxgap : Nat

structure VmMap where
  vmMapMin : Nat
  vmMapMax : Nat
  entries : List VmMapEntry
  rbTree : MaxTree
  nentries : Nat
  hint : Nat
  firstFree : Nat
  topdown : Bool

namespace VmMap
variable (m : VmMap)

def header : VmMapEntry := ⟨m.vmMapMax, m.vmMapMin, 0, 0⟩

def entry : Nat → VmMapEntry
  | 0 => m.header
  | p + 1 => m.entries.getD p m.header

def start (p : Nat) : Nat := (m.entry p).start

def stop (p : Nat) : Nat := (m.entry p).stop

def gap (p : Nat) : Nat := (m.entry p).gap

def maxgap (p : Nat) : Nat := (m.entry p).maxgap

def next (p : Nat) : Nat := if p < m.entries.length then p + 1 else 0

def prev (p : Nat) : Nat := if p = 0 then m.entries.length else p - 1

/-- The walk down the tree; `prev` is the last entry that began at or before the address. -/
def uvmMapLookupEntryBytree (address : Nat) : MaxTree → Nat → Bool × Nat
  | .nil, prev => (false, prev)
  | .node left cur right, prev =>
    if address ≥ m.start cur then
      if address < m.stop cur then (true, cur) else uvmMapLookupEntryBytree address right cur
    else uvmMapLookupEntryBytree address left prev

/-- The search along the list, for as many rounds as there are entries and the header. -/
def lookupList (address : Nat) : Nat → Nat → Bool × Nat
  | 0, cur => (false, m.prev cur)
  | n + 1, cur =>
    if cur = 0 then (false, m.prev cur)
    else if m.stop cur > address then if address ≥ m.start cur then (true, cur) else (false, m.prev cur)
    else lookupList address n (m.next cur)

/-- Whether there is an entry at the address, it or the one before, and the map. -/
def uvmMapLookupEntry (address : Nat) : Bool × Nat × VmMap :=
  let cur := if m.hint = 0 then m.next m.hint else m.hint
  if address ≥ m.start cur ∧ cur ≠ 0 ∧ m.stop cur > address then (true, cur, m)
  else
    let useTree : Bool := if address ≥ m.start cur then m.nentries > 15 else true
    let found := if useTree then m.uvmMapLookupEntryBytree address m.rbTree 0 else m.lookupList address (m.entries.length + 1) cur
    (found.1, found.2, { m with hint := found.2 })

/-! ### Well-formed maps -/

/-- The entries are in order, and the gaps and the tree are right. Nothing is free in front of the
entry `first_free`. -/
structure WellFormed : Prop where
  max_lt : m.vmMapMax < 2 ^ 64
  nentries : m.nentries = m.entries.length
  hint : m.hint ≤ m.entries.length
  firstFree : m.firstFree ≤ m.entries.length
  nonempty : ∀ p, 0 < p → p ≤ m.entries.length → m.start p < m.stop p
  apart : ∀ p ≤ m.entries.length, m.stop p ≤ m.start (m.next p)
  gap : ∀ p, 0 < p → p ≤ m.entries.length → m.gap p = m.start (m.next p) - m.stop p
  spans : m.rbTree.Spans 1 (m.entries.length + 1)
  maxgap : m.rbTree.Augmented m.gap m.maxgap
  full : ∀ p < m.firstFree, m.stop p = m.start (m.next p)

/-- The address is in the entry. -/
def Contains (p : Nat) (address : Nat) : Prop := 0 < p ∧ p ≤ m.entries.length ∧ m.start p ≤ address ∧ address < m.stop p

end VmMap

/-- Two entries, with free space in front of them, between them and behind them. -/
def smallMap (topdown : Bool) : VmMap where
  vmMapMin := 0x1000
  vmMapMax := 0x100000
  entries := [⟨0x4000, 0x5000, 0x1000, 0xf8000⟩, ⟨0x6000, 0x8000, 0xf8000, 0xf8000⟩]
  rbTree := .node .nil 1 (.node .nil 2 .nil)
  nentries := 2
  hint := 0
  firstFree := 0
  topdown := topdown

theorem smallMap_wellFormed (topdown : Bool) : (smallMap topdown).WellFormed := by
  have hlength : (smallMap topdown).entries.length = 2 := rfl
  have hplace (p : Nat) (hp : 0 < p) (hle : p ≤ (smallMap topdown).entries.length) : p = 1 ∨ p = 2 := by omega
  refine ⟨show 0x100000 < 2 ^ 64 by decide, rfl, Nat.zero_le _, Nat.zero_le _, ?_, ?_, ?_, ⟨rfl, rfl, rfl⟩, ⟨trivial, ⟨trivial, trivial, rfl⟩, rfl⟩, ?_⟩
  · intro p hp hle
    rcases hplace p hp hle with rfl | rfl
    · show 0x4000 < 0x5000
      decide
    · show 0x6000 < 0x8000
      decide
  · intro p hle
    rcases Nat.eq_zero_or_pos p with rfl | hp
    · show 0x1000 ≤ 0x4000
      decide
    rcases hplace p hp hle with rfl | rfl
    · show 0x5000 ≤ 0x6000
      decide
    · show 0x8000 ≤ 0x100000
      decide
  · intro p hp hle
    rcases hplace p hp hle with rfl | rfl
    · show 0x1000 = 0x6000 - 0x5000
      decide
    · show 0xf8000 = 0x100000 - 0x8000
      decide
  · intro p hp
    exact absurd hp (Nat.not_lt_zero p)

/-! The search for free space (`uvm_map_findspace` in `sys/uvm/uvm_map.c`).

The model is of a kernel without `PMAP_PREFER`, and of calls without `UVM_FLAG_COLORMATCH`. A
subtree that is a NULL pointer is `nil`. -/

def vaddr (x : Nat) : Nat := x % 2 ^ 64

def vsub (x y : Nat) : Nat := vaddr (x + (2 ^ 64 - y))

def roundup (x y : Nat) : Nat := vaddr (x + (y - 1)) / y * y

inductive Avail where
  | fits
  | no
  | wraps

/-- `stuck`: the search goes on for ever, or follows a NULL pointer. -/
inductive Answer where
  | found (entry result : Nat)
  | null
  | stuck
  deriving DecidableEq

/-- A node that `uvm_map_findspace` has a pointer to. -/
structure TreeNode where
  left : MaxTree
  place : Nat
  right : MaxTree

namespace VmMap
variable (m : VmMap)

/-- The start address on the alignment. -/
def aligned (align start : Nat) : Nat :=
  if align ≠ 0 ∧ start &&& (align - 1) ≠ 0 then if m.topdown then start &&& (2 ^ 64 - align) else roundup start align
  else start

/-- The start address afterwards, and whether the space there is free. -/
def uvmMapSpaceAvail (start length align entry : Nat) : Nat × Avail :=
  let start := m.aligned align start
  let stop := vaddr (start + length)
  if stop < start then (start, .wraps)
  else if m.start (m.next entry) ≥ stop ∧ start ≥ m.stop entry then (start, .fits)
  else (start, .no)

/-- The address at the edge of the gap behind an entry. -/
def edge (length entry : Nat) : Nat := if m.topdown then vsub (m.start (m.next entry)) length else m.stop entry

/-- The space at `hint`, or what is done when it is not free. -/
def tryAt (hint length align entry : Nat) (otherwise : Nat → Answer) : Answer :=
  match m.uvmMapSpaceAvail hint length align entry with
  | (hint, .fits) => .found entry hint
  | (hint, .no) => otherwise hint
  | (_, .wraps) => .null

/-- At `listsearch`: one gap after the other, from the one behind `entry` on. -/
def listsearch (length align : Nat) : Nat → Nat → Answer
  | 0, _ => .stuck
  | n + 1, entry =>
    m.tryAt (m.edge length entry) length align entry fun _ =>
      if m.topdown then if entry = 0 then .null else listsearch length align n (m.prev entry)
      else if m.next entry = 0 then .null else listsearch length align n (m.next entry)

/-- Whether a node becomes the candidate `prev`. -/
def remember (hint length : Nat) (tmp : TreeNode) (prev : Option TreeNode) : Option TreeNode :=
  let nearer : Bool :=
    if m.topdown then
      m.start (m.next tmp.place) < vaddr (hint + length) && prev.all fun prev => m.stop tmp.place > m.stop prev.place
    else m.stop tmp.place ≥ hint && prev.all fun prev => m.stop tmp.place < m.stop prev.place
  let child := if m.topdown then tmp.left else tmp.right
  if nearer ∧ (m.gap tmp.place ≥ length ∨ child ≠ .nil ∧ child.top m.maxgap ≥ length) then some tmp else prev

/-- The first way down the tree: an entry close to `hint`, and the candidate. -/
def descend (hint length : Nat) : MaxTree → TreeNode → Option TreeNode → TreeNode × Option TreeNode
  | .nil, parent, prev => (parent, prev)
  | .node left cur right, _, prev =>
    let tmp : TreeNode := ⟨left, cur, right⟩
    let prev := m.remember hint length tmp prev
    if m.start (m.next cur) < vaddr (hint + length) then
      if right.top m.maxgap < length then (tmp, prev) else descend hint length right tmp prev
    else if m.stop cur > hint then
      if left.top m.maxgap < length then (tmp, prev) else descend hint length left tmp prev
    else if m.gap cur ≥ length then (tmp, prev)
    else if m.topdown then
      if left.top m.maxgap < length then (tmp, prev) else descend hint length left tmp prev
    else if right.top m.maxgap < length then (tmp, prev) else descend hint length right tmp prev

/-- The second way down, in a subtree of the candidate. -/
def dig (length : Nat) : MaxTree → Option Nat
  | .nil => none
  | .node left cur right =>
    if m.topdown then
      if right ≠ .nil ∧ right.top m.maxgap ≥ length then dig length right
      else if m.gap cur ≥ length then some cur
      else dig length left
    else if left ≠ .nil ∧ left.top m.maxgap ≥ length then dig length left
    else if m.gap cur ≥ length then some cur
    else dig length right

def listsearchFrom (length align entry : Nat) : Answer := m.listsearch length align (m.entries.length + 1) entry

/-- What the candidate is good for. -/
def fromCandidate (length align entry : Nat) : Option TreeNode → Answer
  | none => .null
  | some prev =>
    m.tryAt (m.edge length prev.place) length align prev.place fun _ =>
      if m.gap prev.place ≥ length then m.listsearchFrom length align entry
      else
        match m.dig length (if m.topdown then prev.left else prev.right) with
        | none => .stuck
        | some tmp => m.tryAt (m.edge length tmp) length align tmp fun _ => m.listsearchFrom length align entry

def nextgap (hint length align entry : Nat) : Answer :=
  match m.rbTree with
  | .nil => .null
  | .node left root right =>
    if m.maxgap root < length then .null
    else
      let (tmp, prev) := m.descend hint length (.node left root right) ⟨left, root, right⟩ none
      if m.start tmp.place < hint ∧ hint < m.start (m.next tmp.place) then
        let hint :=
          if m.topdown then
            if hint > vsub (m.start (m.next tmp.place)) length then vsub (m.start (m.next tmp.place)) length else hint
          else if hint < m.stop tmp.place then m.stop tmp.place
          else hint
        m.tryAt hint length align tmp.place fun _ =>
          if m.gap tmp.place ≥ length then m.listsearchFrom length align entry else m.fromCandidate length align entry prev
      else m.fromCandidate length align entry prev

/-- From the edge of the gap behind `entry` on. -/
def fromEntry (length align entry : Nat) : Answer :=
  m.tryAt (m.edge length entry) length align entry fun hint => m.nextgap hint length align entry

def findspaceAt (hint length align : Nat) (fixed : Bool) : Answer × VmMap :=
  if fixed = false ∧ hint = m.vmMapMin then (m.fromEntry length align m.firstFree, m)
  else
    let (inUse, entry, m') := m.uvmMapLookupEntry hint
    let answer :=
      if inUse then if fixed then .null else m.fromEntry length align (if m.topdown then m.prev entry else entry)
      else if fixed then
        if m.start (m.next entry) ≥ vaddr (hint + length) ∧ vaddr (hint + length) > hint then .found entry hint else .null
      else
        m.tryAt hint length align entry fun hint =>
          if m.topdown then m.fromEntry length align entry
          else if m.next entry = 0 then .null
          else m.nextgap hint length align (m.next entry)
    (answer, m')

def uvmMapFindspace (hint length align : Nat) (fixed : Bool) : Answer × VmMap :=
  if hint < m.vmMapMin ∧ fixed then (.null, m)
  else
    let hint := if hint < m.vmMapMin then m.vmMapMin else hint
    if hint > m.vmMapMax then (.null, m)
    else
      match m.findspaceAt hint length align fixed with
      | (.found entry result, m) => (.found entry result, { m with hint := entry })
      | (answer, m) => (answer, m)

end VmMap

end NetBSD.Uvm.Map
