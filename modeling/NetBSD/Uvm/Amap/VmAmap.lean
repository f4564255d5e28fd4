import NetBSD.Lib.System
import Mathlib.Logic.Function.Basic

/-! Anonymous maps.

An amap has a slot for each page; `anon` is the page of a slot. The slots that have one are
packed in `slots`, `bckptr` says where in it each of them is. `ppref` counts the references to
the slots, in chunks; it may not be there.

An anon is known by its number, and its references are counted outside of the amaps, since a
copy shares the anons. Where the code leaves an array or an assertion fails, the result is
`none`. -/
namespace NetBSD.Uvm.Amap
open Function
open Lib

abbrev UVM_AMAP_LARGE : Nat := 256

abbrev Anon := Nat

/-- `PPREF_NONE` is that there was no memory for the array. -/
inductive Ppref where
  | null
  | none
  | array (ppref : Nat → Int)

structure VmAmap where
  ref : Nat
  maxslot : Nat
  nslot : Nat
  nused : Nat
  slots : Nat → Nat
  bckptr : Nat → Nat
  anon : Nat → Option Anon
  ppref : Ppref

/-- The arrays are of ints, in pieces of eight bytes. -/
def amapRoundupSlots (slots : Nat) : Nat := (slots * 4 + 7) / 8 * 8 / 4

def amapAlloc1 (slots padslots : Nat) : VmAmap where
  ref := 1
  maxslot := amapRoundupSlots (slots + padslots)
  nslot := slots
  nused := 0
  slots := fun _ => 0
  bckptr := fun _ => 0
  anon := fun _ => none
  ppref := .null

def ppGetreflen (ppref : Nat → Int) (offset : Nat) : Int × Int :=
  if ppref offset > 0 then (ppref offset - 1, 1) else (ppref offset * -1 - 1, ppref (offset + 1))

def ppSetreflen (ppref : Nat → Int) (offset : Nat) (ref : Int) (len : Nat) : Nat → Int :=
  if len = 0 then ppref
  else if len = 1 then update ppref offset (ref + 1)
  else update (update ppref offset ((ref + 1) * -1)) (offset + 1) len

/-! ### Removing -/

/-- An amap with the counts of the anons and those to be freed. -/
structure Wiped where
  amap : VmAmap
  anRef : Anon → Int
  tofree : List Anon

/-- The anon of a slot is taken out; the last slot of `slots` goes in its place. -/
def removeSlot (am : VmAmap) (slot : Nat) : VmAmap :=
  let ptr := am.bckptr slot
  let last := am.nused - 1
  if ptr ≠ last then
    { am with
      anon := update am.anon slot none
      slots := update am.slots ptr (am.slots last)
      bckptr := update am.bckptr (am.slots last) ptr
      nused := last }
  else {am with anon := update am.anon slot none, nused := last}

/-- `amap_wiperange`'s loop body, for a slot that has an anon. -/
def wipeSlot (w : Wiped) (slot : Nat) (a : Anon) : Wiped where
  amap := removeSlot w.amap slot
  anRef := update w.anRef a (w.anRef a - 1)
  tofree := if w.anRef a - 1 = 0 then a :: w.tofree else w.tofree

/-- By `am_anon`: `n` slots from `lcv` on. -/
def wipeByAnon : Nat → Nat → Wiped → Wiped
  | 0, _, w => w
  | n + 1, lcv, w =>
    match w.amap.anon lcv with
    | none => wipeByAnon n (lcv + 1) w
    | some a => wipeByAnon n (lcv + 1) (wipeSlot w lcv a)

/-- By `am_slots`: `n` is `stop - lcv`. `none` if a slot has no anon. -/
def wipeBySlots (slotoff slotend : Nat) : Nat → Nat → Wiped → Option Wiped
  | 0, _, w => some w
  | n + 1, lcv, w =>
    let curslot := w.amap.slots lcv
    if curslot < slotoff ∨ curslot ≥ slotend then wipeBySlots slotoff slotend n (lcv + 1) w
    else
      match w.amap.anon curslot with
      | none => none
      | some a => wipeBySlots slotoff slotend n lcv (wipeSlot w curslot a)

def amapWiperange (w : Wiped) (slotoff slots : Nat) : Option Wiped :=
  if slots < w.amap.nused then some (wipeByAnon slots slotoff w)
  else wipeBySlots slotoff (slotoff + slots) w.amap.nused 0 w

/-- The way to `curslot`: the chunk that goes past it is split. The chunk before, or -1. A chunk
without a length has no end. -/
def ppAdvance (curslot : Nat) : Nat → (Nat → Int) → Nat → Nat → Option ((Nat → Int) × Nat × Nat)
  | 0, ppref, lcv, prevlcv => if lcv < curslot then none else some (ppref, lcv, prevlcv)
  | n + 1, ppref, lcv, prevlcv =>
    if lcv < curslot then
      let (ref, len) := ppGetreflen ppref lcv
      if len ≤ 0 then none
      else if lcv + len > curslot then
        let ppref := ppSetreflen ppref lcv ref (curslot - lcv)
        let ppref := ppSetreflen ppref curslot ref (len.toNat - (curslot - lcv))
        ppAdvance curslot n ppref curslot lcv
      else ppAdvance curslot n ppref (lcv + len.toNat) lcv
    else some (ppref, lcv, prevlcv)

/-- The loop over the range. -/
def ppAdjust (stopslot : Nat) (adjval prevref : Int) (prevlcv prevlen : Nat) :
    Nat → (Nat → Int) → Nat → Wiped → Option Wiped
  | 0, ppref, lcv, w => if lcv < stopslot then none else some {w with amap := {w.amap with ppref := .array ppref}}
  | n + 1, ppref, lcv, w =>
    if lcv < stopslot then
      let (ref, len) := ppGetreflen ppref lcv
      if len ≤ 0 then none
      else
        let past := lcv + len > stopslot
        let ppref := if past then ppSetreflen ppref lcv ref (stopslot - lcv) else ppref
        let ppref := if past then ppSetreflen ppref stopslot ref (len.toNat - (stopslot - lcv)) else ppref
        let len := if past then stopslot - lcv else len.toNat
        let ref := ref + adjval
        if ref < 0 ∨ ref > w.amap.ref then none
        else
          let ppref := if lcv = prevlcv + prevlen ∧ ref = prevref then ppSetreflen ppref prevlcv ref (prevlen + len)
            else ppSetreflen ppref lcv ref len
          if ref = 0 then
            (amapWiperange w lcv len).bind fun w => ppAdjust stopslot adjval prevref prevlcv prevlen n ppref (lcv + len) w
          else ppAdjust stopslot adjval prevref prevlcv prevlen n ppref (lcv + len) w
    else some {w with amap := {w.amap with ppref := .array ppref}}

def amapPpAdjref (w : Wiped) (ppref : Nat → Int) (curslot slotlen : Nat) (adjval : Int) : Option Wiped :=
  (ppAdvance curslot curslot ppref 0 0).bind fun (ppref, lcv, prevlcv) =>
    if lcv ≠ curslot then none
    else if lcv = 0 then ppAdjust (curslot + slotlen) adjval (-1) 0 0 slotlen ppref lcv w
    else
      let (prevref, prevlen) := ppGetreflen ppref prevlcv
      ppAdjust (curslot + slotlen) adjval prevref prevlcv prevlen.toNat slotlen ppref lcv w

/-- `amap_pp_adjref`, where there is an array. -/
def adjref (w : Wiped) (curslot slotlen : Nat) (adjval : Int) : Option Wiped :=
  match w.amap.ppref with
  | .array ppref => amapPpAdjref w ppref curslot slotlen adjval
  | _ => some w

/-- `amap_pp_establish`; `mem` is whether there was memory. -/
def amapPpEstablish (am : VmAmap) (offset : Nat) (mem : Bool) : VmAmap :=
  if mem then
    let ppref := ppSetreflen (fun _ => 0) 0 0 offset
    {am with ppref := .array (ppSetreflen ppref offset am.ref (am.nslot - offset))}
  else {am with ppref := .none}

def amapAdd (am : VmAmap) (slot : Nat) (a : Anon) (replace : Bool) : Option VmAmap :=
  if slot ≥ am.nslot then none
  else if replace then
    if am.anon slot = none then none else some {am with anon := update am.anon slot (some a)}
  else if am.anon slot ≠ none ∨ am.nused ≥ am.maxslot then none
  else
    some { am with
      anon := update am.anon slot (some a)
      bckptr := update am.bckptr slot am.nused
      slots := update am.slots am.nused slot
      nused := am.nused + 1 }

def amapUnadd (am : VmAmap) (slot : Nat) : Option VmAmap :=
  if slot ≥ am.nslot ∨ am.anon slot = none then none else some (removeSlot am slot)

/-! ### Extending -/

inductive Errno where
  | E2BIG | ENOMEM

/-- What memory there is: for the array of references, and for the others. -/
structure Mem where
  ppref : Bool
  arrays : Bool

def mapPpref (w : Wiped) (f : (Nat → Int) → Nat → Int) : Wiped :=
  match w.amap.ppref with
  | .array ppref => {w with amap := {w.amap with ppref := .array (f ppref)}}
  | _ => w

/-- The references of the slots behind the mapped ones, when `nslot` grows to `slotneed`. -/
def refForwards (w : Wiped) (mapend slotneed : Nat) : Option Wiped :=
  let nslot := w.amap.nslot
  (if mapend < nslot then adjref w mapend (nslot - mapend) 1 else some w).map fun w =>
    mapPpref w fun ppref => ppSetreflen ppref nslot 1 (slotneed - nslot)

/-- `memmove`, or `memcpy`, of `n` elements. -/
def move {α : Type} (first start n : Nat) (src dst : Nat → α) : Nat → α := fun k =>
  if first ≤ k ∧ k < first + n then src (k - first + start) else dst k

/-- The result is the new `ar_pageoff`. Memory that was not written is 0; nothing reads it. -/
def amapExtendForwards (w : Wiped) (slotoff slotmapped slotadd : Nat) (mem : Mem) : Option (Wiped × Except Errno Nat) :=
  let am := w.amap
  let slotneed := slotoff + slotmapped + slotadd
  if am.nslot ≥ slotneed then (adjref w (slotoff + slotmapped) slotadd 1).map fun w => (w, .ok slotoff)
  else if am.maxslot ≥ slotneed then
    (refForwards w (slotoff + slotmapped) slotneed).map fun w =>
      ({w with amap := {w.amap with nslot := slotneed}}, .ok slotoff)
  else if slotneed ≥ UVM_AMAP_LARGE then some (w, .error .E2BIG)
  else if mem.arrays = false then some (w, .error .ENOMEM)
  else
    let am := { am with
      slots := move 0 0 am.nused am.slots fun _ => 0
      anon := move 0 0 am.nslot am.anon fun _ => none
      bckptr := move 0 0 am.nslot am.bckptr fun _ => 0
      ppref := match am.ppref with
        | .array ppref => if mem.ppref then .array (move 0 0 am.nslot ppref fun _ => 0) else .none
        | p => p }
    (refForwards {w with amap := am} (slotoff + slotmapped) slotneed).map fun w =>
      ({w with amap := {w.amap with nslot := slotneed, maxslot := amapRoundupSlots slotneed}}, .ok slotoff)

def amapExtendBackwards (w : Wiped) (slotoff slotmapped slotadd : Nat) (mem : Mem) : Option (Wiped × Except Errno Nat) :=
  let am := w.amap
  let slotneed := slotadd + slotmapped
  if slotadd ≤ slotoff then
    (adjref w (slotoff - slotadd) slotadd 1).map fun w => (w, .ok (slotoff - slotadd))
  else if am.maxslot ≥ slotneed then
    let slotarea := am.maxslot - slotmapped
    let w := mapPpref w fun ppref =>
      let ppref := move slotarea slotoff slotmapped ppref ppref
      let ppref := ppSetreflen ppref 0 0 (slotarea - slotadd)
      ppSetreflen ppref (slotarea - slotadd) 1 slotadd
    let anon := move slotarea slotoff slotmapped am.anon am.anon
    let am := { w.amap with
      anon := fun k => if slotoff ≤ k ∧ k < slotarea then none else anon k
      bckptr := move slotarea slotoff slotmapped am.bckptr am.bckptr
      slots := fun i => if i < am.nused then am.slots i + (slotarea - slotoff) else am.slots i
      nslot := am.maxslot }
    some ({w with amap := am}, .ok (slotarea - slotadd))
  else if slotneed ≥ UVM_AMAP_LARGE then some (w, .error .E2BIG)
  else if mem.arrays = false then some (w, .error .ENOMEM)
  else
    let slotalloc := amapRoundupSlots slotneed
    let slotarea := slotalloc - slotmapped
    let am := { am with
      slots := fun i => if i < am.nused then am.slots i + (slotarea - slotoff) else 0
      anon := move slotarea slotoff slotmapped am.anon fun _ => none
      bckptr := move slotarea slotoff slotmapped am.bckptr fun _ => 0
      ppref := match am.ppref with
        | .array ppref =>
          if mem.ppref then
            let ppref := move slotarea slotoff slotmapped ppref fun _ => 0
            let ppref := ppSetreflen ppref 0 0 (slotalloc - slotneed)
            .array (ppSetreflen ppref (slotalloc - slotneed) 1 (slotneed - slotmapped))
          else .none
        | p => p
      nslot := slotalloc
      maxslot := slotalloc }
    some ({w with amap := am}, .ok (slotarea - slotadd))

def amapExtend (w : Wiped) (slotoff slotmapped slotadd : Nat) (forwards : Bool) (mem : Mem) :
    Option (Wiped × Except Errno Nat) :=
  if w.amap.ref ≠ 1 then none
  else if forwards then amapExtendForwards w slotoff slotmapped slotadd mem
  else amapExtendBackwards w slotoff slotmapped slotadd mem

/-- The loop of `amap_copy`: `n` slots from `lcv` on. -/
def copySlots (src : VmAmap) (pageoff : Nat) : Nat → Nat → VmAmap → (Anon → Int) → VmAmap × (Anon → Int)
  | 0, _, am, anRef => (am, anRef)
  | n + 1, lcv, am, anRef =>
    match src.anon (pageoff + lcv) with
    | none => copySlots src pageoff n (lcv + 1) {am with anon := update am.anon lcv none} anRef
    | some a =>
      copySlots src pageoff n (lcv + 1)
        { am with
          anon := update am.anon lcv (some a)
          bckptr := update am.bckptr lcv am.nused
          slots := update am.slots am.nused lcv
          nused := am.nused + 1 }
        (update anRef a (anRef a + 1))

/-- The source and its copy, where more than one has the source. -/
def amapCopy (w : Wiped) (pageoff slots : Nat) : Option (Wiped × VmAmap) :=
  let (am, anRef) := copySlots w.amap pageoff slots 0 (amapAlloc1 slots 0) w.anRef
  let src := {w.amap with ref := w.amap.ref - 1}
  (adjref ⟨src, anRef, w.tofree⟩ pageoff slots (-1)).map fun w => (w, am)

/-- The array is made before the first reference to a part of the amap. -/
def establishPart (am : VmAmap) (offset len : Nat) (all mem : Bool) : VmAmap :=
  match am.ppref with
  | .null => if all = false ∧ len ≠ am.nslot then amapPpEstablish am offset mem else am
  | _ => am

def amapAdjrefAnons (w : Wiped) (offset len : Nat) (refv : Int) (all mem : Bool) : Option Wiped :=
  let am := establishPart w.amap offset len all mem
  let w := {w with amap := {am with ref := (am.ref + refv).toNat}}
  if all then adjref w 0 am.nslot refv else adjref w offset len refv

def amapSplitref (am : VmAmap) (pageoff : Nat) (mem : Bool) : VmAmap :=
  let am := match am.ppref with
    | .null => amapPpEstablish am pageoff mem
    | _ => am
  {am with ref := am.ref + 1}

def wipeoutRefs (am : VmAmap) : Nat → (Anon → Int) → Anon → Int
  | 0, anRef => anRef
  | n + 1, anRef =>
    match am.anon (am.slots n) with
    | none => wipeoutRefs am n anRef
    | some a => wipeoutRefs am n (update anRef a (anRef a - 1))

structure World where
  amaps : List VmAmap
  anRef : Anon → Int

/-- An amap is named by its place. The slots of an aref are `len` from `off` on. -/
inductive Call where
  | alloc (slots padslots : Nat)
  | add (k slot : Nat) (a : Anon) (replace : Bool)
  | unadd (k slot : Nat)
  | wiperange (k off len : Nat)
  | ppAdjref (k off len : Nat) (adjval : Int)
  | extend (k off len add : Nat) (forwards : Bool) (mem : Mem)
  | copy (k off len : Nat)
  | ref (k off len : Nat) (all mem : Bool)
  | unref (k off len : Nat) (all mem : Bool)
  | splitref (k off len : Nat) (mem : Bool)

namespace World

def put (u : World) (k : Nat) (w : Wiped) : World := ⟨u.amaps.set k w.amap, w.anRef⟩

/-- An operation on the slots of an aref, which lie inside the amap. -/
def onAref (u : World) (k off len : Nat) (f : Wiped → Option World) : Option World :=
  u.amaps[k]?.bind fun am => if off + len > am.nslot then none else f ⟨am, u.anRef, []⟩

def next (u : World) : Call → Option World
  | .alloc slots padslots => some {u with amaps := u.amaps ++ [amapAlloc1 slots padslots]}
  | .add k slot a replace =>
    u.amaps[k]?.bind fun am => (amapAdd am slot a replace).map fun am => {u with amaps := u.amaps.set k am}
  | .unadd k slot => u.amaps[k]?.bind fun am => (amapUnadd am slot).map fun am => {u with amaps := u.amaps.set k am}
  | .wiperange k off len => u.onAref k off len fun w => (amapWiperange w off len).map (u.put k)
  | .ppAdjref k off len adjval => u.onAref k off len fun w => (adjref w off len adjval).map (u.put k)
  | .extend k off len add forwards mem =>
    u.onAref k off len fun w => (amapExtend w off len add forwards mem).map fun r => u.put k r.1
  | .copy k off len =>
    u.onAref k off len fun w =>
      if w.amap.ref = 1 then some u
      else (amapCopy w off len).map fun (w, am) => {u.put k w with amaps := (u.put k w).amaps ++ [am]}
  | .ref k off len all mem => u.onAref k off len fun w => (amapAdjrefAnons w off len 1 all mem).map (u.put k)
  | .unref k off len all mem =>
    u.onAref k off len fun w =>
      if w.amap.ref = 1 then some ⟨u.amaps.eraseIdx k, wipeoutRefs w.amap w.amap.nused u.anRef⟩
      else (amapAdjrefAnons w off len (-1) all mem).map (u.put k)
  | .splitref k off len mem => u.onAref k off len fun w => some (u.put k {w with amap := amapSplitref w.amap off mem})

end World

def system : System World Call := System.ofStep (·.amaps = []) World.next

end NetBSD.Uvm.Amap
