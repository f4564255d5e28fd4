import NetBSD.Lib.Intervals
import NetBSD.Lib.System

/-! The extent manager: `extent_alloc_region`, `extent_alloc_subregion1` and `extent_free`.

An `u_long` is a number below 2^64 and its arithmetic is taken modulo 2^64. The regions are a list;
a pointer `last` into it is a `Place`: the regions up to `last`, from `last` down, and those behind.
A panic is `none`. The kernel is one with DIAGNOSTIC. -/
namespace NetBSD.Kern.SubrExtent
open Lib

def ulong (x : Nat) : Nat := x % 2 ^ 64

def sub (x y : Nat) : Nat := ulong (x + (2 ^ 64 - y))

/-- EXTENT_ALIGN: `-align` is `2 ^ 64 - align`. -/
def extentAlign (start align skew : Nat) : Nat :=
  ulong ((ulong (sub start skew + sub align 1) &&& ulong (2 ^ 64 - align)) + skew)

/-- LE_OV: `x + y <= z`, and no overflow. -/
def leOv (x y z : Nat) : Bool := ulong (x + y) ≥ x && ulong (x + y) ≤ z

structure Extent where
  exStart : Nat
  exEnd : Nat
  nocoalesce : Bool
  regions : List Interval
  deriving DecidableEq

def extentCreate (start last : Nat) (nocoalesce : Bool) : Option Extent :=
  if last < start then none else some ⟨start, last, nocoalesce, []⟩

/-- Where a region is to go: its first number, the regions before it, the nearest one first, and
the regions behind it. -/
structure Place where
  start : Nat
  before : List Interval
  behind : List Interval

/-- The new region `rp` at the head of the list. -/
def insertHead (nocoalesce : Bool) (start size : Nat) (rp : Interval) : List Interval → List Interval
  | [] => [rp]
  | next :: rest =>
    if nocoalesce = false ∧ ulong (start + size) = next.first then { next with first := start } :: rest
    else rp :: next :: rest

/-- The new region `rp` between `after` and the regions behind it. -/
def insertAfter (nocoalesce : Bool) (start size : Nat) (rp after : Interval) (behind : List Interval) : List Interval :=
  if nocoalesce then after :: rp :: behind
  else
    let appended : Bool := ulong (after.last + 1) = start
    let after := if appended then { after with last := rp.last } else after
    match behind with
    | next :: rest =>
      if ulong (start + size) = next.first then
        if appended then { after with last := next.last } :: rest else after :: { next with first := start } :: rest
      else if appended then after :: next :: rest
      else after :: rp :: next :: rest
    | [] => if appended then [after] else [after, rp]

/-- The region list with the new region after the first of `before`, or at the head of the list. -/
def extentInsertAndOptimize (nocoalesce : Bool) (size : Nat) (p : Place) : List Interval :=
  let rp : Interval := ⟨p.start, ulong (p.start + (size - 1))⟩
  match p.before with
  | [] => insertHead nocoalesce p.start size rp p.behind
  | after :: before => before.reverse ++ insertAfter nocoalesce p.start size rp after p.behind

/-- `asleep`: the thread waits for space and then calls again, or has caught a signal. -/
inductive Answer where
  | ok (start : Nat)
  | again
  | nomem
  | asleep
  deriving DecidableEq

structure Flags where
  fast : Bool := false
  waitspace : Bool := false
  boundzero : Bool := false

def noSpace (flags : Flags) : Answer := if flags.waitspace then .asleep else .again

/-- The region is inserted, at the place that was found if any. -/
def insertAt (ex : Extent) (size : Nat) (flags : Flags) : Option Place → Answer × Extent
  | some p => (.ok p.start, { ex with regions := extentInsertAndOptimize ex.nocoalesce size p })
  | none => (noSpace flags, ex)

/-- The walk over the regions; none where one conflicts. -/
def findRegion (start last : Nat) (before : List Interval) : List Interval → Option Place
  | [] => some ⟨start, before, []⟩
  | rp :: rest =>
    if rp.first > last then some ⟨start, before, rp :: rest⟩
    else if rp.last ≥ start then none
    else findRegion start last (rp :: before) rest

/-- `mem`: a region descriptor is to be had. -/
def extentAllocRegion (ex : Extent) (start size : Nat) (flags : Flags) (mem : Bool) : Option (Answer × Extent) :=
  let last := ulong (start + sub size 1)
  if size < 1 ∨ last < start ∨ start < ex.exStart ∨ last > ex.exEnd then none
  else if !mem then some (.nomem, ex)
  else some (insertAt ex size flags (findRegion start last [] ex.regions))

/-! ### extent_alloc_subregion1 -/

structure Request where
  substart : Nat
  subend : Nat
  size : Nat
  alignment : Nat
  skew : Nat
  boundary : Nat
  flags : Flags

/-- The best chunk so far; there is none where `ovh` is 0. -/
structure Best where
  ovh : Nat
  place : Place

/-- What becomes of one chunk of free space. -/
inductive Chunk where
  | found (p : Place)
  | skip (best : Best)
  | fail

/-- What the boundary check makes of a candidate. -/
inductive Bounded where
  | fits (newstart : Nat)
  | skip
  | fail

/-- The boundary check, for a candidate that must end so that `LE_OV(newstart, len, lim)`. -/
def boundaryCheck (ex : Extent) (q : Request) (newstart len lim : Nat) : Bounded :=
  if q.boundary = 0 then .fits newstart
  else
    let newend := ulong (newstart + (q.size - 1))
    let dontcross := sub (extentAlign (ulong (newstart + 1)) q.boundary (if q.flags.boundzero then 0 else ex.exStart)) 1
    if dontcross < ex.exStart then runsPast newstart ex.exEnd
    else if newend > dontcross then
      -- The leading part is thrown away.
      if leOv (ulong (dontcross + 1)) len lim then runsPast (ulong (dontcross + 1)) (ulong (dontcross + q.boundary)) else .skip
    else runsPast newstart dontcross
where
  runsPast (newstart dontcross : Nat) : Bounded :=
    if ulong (newstart + (q.size - 1)) > ex.exEnd ∨ dontcross < newstart then .fail else .fits newstart

/-- A chunk that the request fits into with `ovh` to spare. -/
def weigh (q : Request) (ovh : Nat) (p : Place) (best : Best) : Chunk :=
  if q.flags.fast ∨ ovh = 0 then .found p
  else if best.ovh = 0 ∨ ovh < best.ovh then .skip ⟨ovh, p⟩
  else .skip best

/-- The chunk before the region `rp`. -/
def chunkBefore (ex : Extent) (q : Request) (newstart : Nat) (before : List Interval) (rp : Interval)
    (rest : List Interval) (best : Best) : Chunk :=
  if leOv newstart q.size rp.first then
    match boundaryCheck ex q newstart q.size rp.first with
    | .fits newstart => weigh q (sub (sub rp.first newstart) q.size) ⟨newstart, before, rp :: rest⟩ best
    | .skip => .skip best
    | .fail => .fail
  else .skip best

/-- The final check, up to the end of the subregion. -/
def finalChunk (ex : Extent) (q : Request) (newstart exend : Nat) (before behind : List Interval) (best : Best) : Chunk :=
  if leOv newstart (q.size - 1) q.subend then
    match boundaryCheck ex q newstart (q.size - 1) q.subend with
    | .fits newstart => weigh q (sub (sub exend newstart) (q.size - 1)) ⟨newstart, before, behind⟩ best
    | .skip => .fail
    | .fail => .fail
  else .skip best

/-- At `fail`: the best chunk there was. -/
def giveUp (q : Request) (best : Best) : Option Place :=
  if q.flags.fast = false ∧ best.ovh ≠ 0 then some best.place else none

def finish (q : Request) (best : Best) : Chunk → Option Place
  | .found p => some p
  | .skip best => giveUp q best
  | .fail => giveUp q best

/-- The loop over the regions from the candidate on. -/
def findChunk (ex : Extent) (q : Request) (newstart : Nat) (before : List Interval) (best : Best) :
    List Interval → Option Place
  | [] => finish q best (finalChunk ex q newstart ex.exEnd before [] best)
  | rp :: rest =>
    if rp.first > q.subend then finish q best (finalChunk ex q newstart rp.first before (rp :: rest) best)
    else
      match chunkBefore ex q newstart before rp rest best with
      | .found p => some p
      | .fail => giveUp q best
      | .skip best =>
        let newstart := extentAlign (ulong (rp.last + 1)) q.alignment q.skew
        if newstart < rp.last then giveUp q best else findChunk ex q newstart (rp :: before) best rest

/-- The first region that begins on or after the candidate. -/
def seek (newstart : Nat) (before : List Interval) : List Interval → Place
  | [] => ⟨newstart, before, []⟩
  | rp :: rest => if rp.first ≥ newstart then ⟨newstart, before, rp :: rest⟩ else seek newstart (rp :: before) rest

/-- The candidate is moved past the region before it. -/
def relocate (q : Request) (p : Place) : Place :=
  match p.before with
  | last :: _ =>
    if last.last ≥ p.start then { p with start := extentAlign (ulong (last.last + 1)) q.alignment q.skew } else p
  | [] => p

def findSubregion (ex : Extent) (q : Request) : Option Place :=
  let p := relocate q (seek (extentAlign q.substart q.alignment q.skew) [] ex.regions)
  findChunk ex q p.start p.before ⟨0, 0, [], []⟩ p.behind

/-- The arguments pass the checks; the last one is made on the aligned start. -/
def Request.Valid (ex : Extent) (q : Request) : Prop :=
  ¬(q.substart < ex.exStart ∨ q.substart > ex.exEnd ∨ q.subend > ex.exEnd ∨ q.subend < ex.exStart) ∧
    ¬(q.size < 1 ∨ q.size - 1 > sub q.subend q.substart) ∧ q.alignment ≠ 0 ∧
    ¬(q.boundary ≠ 0 ∧ q.boundary < q.size)

instance (ex : Extent) (q : Request) : Decidable (q.Valid ex) :=
  inferInstanceAs (Decidable (_ ∧ _ ∧ _ ∧ _))

def extentAllocSubregion1 (ex : Extent) (q : Request) (mem : Bool) : Option (Answer × Extent) :=
  if ¬q.Valid ex then none
  else if !mem then some (.nomem, ex)
  else if extentAlign q.substart q.alignment q.skew < ex.exStart then none
  else some (insertAt ex q.size q.flags (findSubregion ex q))

/-- The walk over the regions; none where it finds nothing to free. -/
def freeRegion (coalesce : Bool) (start last : Nat) : List Interval → Option (List Interval)
  | [] => none
  | rp :: rest =>
    if rp.last < start then (freeRegion coalesce start last rest).map (rp :: ·)
    else if rp.first > last then none
    else if start = rp.first ∧ last = rp.last then some rest
    else if !coalesce then (freeRegion coalesce start last rest).map (rp :: ·)
    else if start = rp.first ∧ last < rp.last then some ({ rp with first := last + 1 } :: rest)
    else if start > rp.first ∧ last = rp.last then some ({ rp with last := start - 1 } :: rest)
    else if start > rp.first ∧ last < rp.last then
      some ({ rp with last := start - 1 } :: ⟨last + 1, rp.last⟩ :: rest)
    else (freeRegion coalesce start last rest).map (rp :: ·)

/-- The last number that is freed. -/
def freeEnd (start size : Nat) : Nat := ulong (start + sub size 1)

/-- The arguments pass the checks. -/
def FreeValid (ex : Extent) (start size : Nat) : Prop :=
  ex.exStart ≤ start ∧ freeEnd start size ≤ ex.exEnd ∧ start ≤ freeEnd start size

instance (ex : Extent) (start size : Nat) : Decidable (FreeValid ex start size) :=
  inferInstanceAs (Decidable (_ ∧ _ ∧ _))

def extentFree (ex : Extent) (start size : Nat) (mem : Bool) : Option (Answer × Extent) :=
  if ¬FreeValid ex start size then none
  else if ex.nocoalesce = false ∧ mem = false then some (.nomem, ex)
  else (freeRegion (!ex.nocoalesce) start (freeEnd start size) ex.regions).map fun l => (.ok start, { ex with regions := l })

/-! ### Calls -/

inductive Call where
  | allocRegion (start size : Nat) (flags : Flags) (mem : Bool)
  | allocSubregion1 (q : Request) (mem : Bool)
  | free (start size : Nat) (mem : Bool)

/-- The request's numbers are `u_long`s. -/
structure Request.Ulongs (q : Request) : Prop where
  substart : q.substart < 2 ^ 64
  subend : q.subend < 2 ^ 64
  size : q.size < 2 ^ 64
  alignment : q.alignment < 2 ^ 64
  skew : q.skew < 2 ^ 64
  boundary : q.boundary < 2 ^ 64

instance (q : Request) : Decidable q.Ulongs :=
  decidable_of_iff (q.substart < 2 ^ 64 ∧ q.subend < 2 ^ 64 ∧ q.size < 2 ^ 64 ∧ q.alignment < 2 ^ 64 ∧
    q.skew < 2 ^ 64 ∧ q.boundary < 2 ^ 64)
    ⟨fun ⟨h₁, h₂, h₃, h₄, h₅, h₆⟩ => ⟨h₁, h₂, h₃, h₄, h₅, h₆⟩, fun h => ⟨h.1, h.2, h.3, h.4, h.5, h.6⟩⟩

/-- The arguments are `u_long`s. -/
def Call.Ulongs : Call → Prop
  | .allocRegion start size _ _ => start < 2 ^ 64 ∧ size < 2 ^ 64
  | .allocSubregion1 q _ => q.Ulongs
  | .free start size _ => start < 2 ^ 64 ∧ size < 2 ^ 64

instance : DecidablePred Call.Ulongs
  | .allocRegion _ _ _ _ => inferInstanceAs (Decidable (_ ∧ _))
  | .allocSubregion1 q _ => inferInstanceAs (Decidable q.Ulongs)
  | .free _ _ _ => inferInstanceAs (Decidable (_ ∧ _))

def exec (ex : Extent) : Call → Option (Answer × Extent)
  | .allocRegion start size flags mem => extentAllocRegion ex start size flags mem
  | .allocSubregion1 q mem => extentAllocSubregion1 ex q mem
  | .free start size mem => extentFree ex start size mem

def next (ex : Extent) (c : Call) : Option Extent :=
  if c.Ulongs then (exec ex c).map Prod.snd else none

/-- Runs start with a new extent map. -/
def system : System Extent Call :=
  .ofStep (fun ex => ex.exEnd < 2 ^ 64 ∧ extentCreate ex.exStart ex.exEnd ex.nocoalesce = some ex) next

end NetBSD.Kern.SubrExtent
