import NetBSD.Lib.System
import NetBSD.Lib.Words

/-! The bitmap allocator of the swap code.

The radix tree lies in one array: a node at `scan` of level `l + 1` is followed by its sixteen
children of level `l`, each with everything below it. Leaves are of level 0. The radix and the skip
the functions are passed are those of the level. The two members of the union in a node are kept
apart: which of them is in use follows from the level. A panic is `none`, and so is a loop that has
not come to its end within the rounds it is given. -/
namespace NetBSD.Kern.SubrBlist
open Lib

/-- `(blist_blkno_t)-1`, the hint of a terminator. -/
def terminator : Nat := 2 ^ 32 - 1

structure Blmeta where
  avail : Nat
  bitmap : Word
  bighint : Nat
  deriving DecidableEq

/-- The array `bl_root` points to. -/
abbrev Tree := Nat → Blmeta

def Tree.set (t : Tree) (i : Nat) (b : Blmeta) : Tree := Function.update t i b

/-- The blocks a node of the level covers. -/
def radix : Nat → Nat
  | 0 => 32
  | l + 1 => radix l * 16

/-- The nodes below a node of the level. -/
def skip : Nat → Nat
  | 0 => 0
  | l + 1 => (skip l + 1) * 16

/-- From one child of a node of level `l + 1` to the next. -/
def nextSkip (l : Nat) : Nat := skip (l + 1) / 16

/-- The search for the lowest set bit, with `j` going down from `2 ^ k`. -/
def lowestBit : Nat → Word → Word → Nat → Nat
  | 0, mask, orig, r => if orig &&& mask = 0 then r + 1 else r
  | k + 1, mask, orig, r =>
    if orig &&& mask = 0 then lowestBit k (mask >>> 2 ^ k) (orig >>> 2 ^ (k + 1)) (r + 2 ^ (k + 1))
    else lowestBit k (mask >>> 2 ^ k) orig r

/-- The search for a place `j` where the mask fits, with so many places to go. -/
def fitMask (orig : Word) : Nat → Nat → Word → Option (Nat × Word)
  | 0, _, _ => none
  | places + 1, j, mask => if orig &&& mask = mask then some (j, mask) else fitMask orig places (j + 1) (mask <<< 1)

def blstLeafAlloc (scan : Blmeta) (blk count : Nat) : Option Nat × Blmeta :=
  if scan.bitmap = 0 then (none, { scan with bighint := 0 })
  else if count = 1 then
    let r := lowestBit 4 ((-1 : Word) >>> 16) scan.bitmap 0
    (some (blk + r), { scan with bitmap := scan.bitmap &&& ~~~(1#32 <<< r) })
  else if count ≤ 32 then
    match fitMask scan.bitmap (32 - count + 1) 0 ((-1 : Word) >>> (32 - count)) with
    | some (j, mask) => (some (blk + j), { scan with bitmap := scan.bitmap &&& ~~~mask })
    | none => (none, { scan with bighint := count - 1 })
  else (none, { scan with bighint := count - 1 })

/-- The bits of `count` blocks from `blk` on. -/
def leafMask (blk count : Nat) : Word :=
  let n := blk % 32
  ((-1 : Word) <<< n) &&& ((-1 : Word) >>> (32 - count - n))

def blstLeafFree (scan : Blmeta) (blk count : Nat) : Option Blmeta :=
  if scan.bitmap &&& leafMask blk count ≠ 0 then none
  else some { scan with bitmap := scan.bitmap ||| leafMask blk count, bighint := 32 }

def countBits : Nat → Word → Nat → Nat
  | 0, _, nblks => nblks
  | rounds + 1, bitmap, nblks => if bitmap = 0 then nblks else countBits rounds (bitmap &&& (bitmap - 1)) (nblks + 1)

def blstLeafFill (scan : Blmeta) (blk count : Nat) : Nat × Blmeta :=
  (countBits 33 (scan.bitmap &&& leafMask blk count) 0, { scan with bitmap := scan.bitmap &&& ~~~leafMask blk count })

/-- A child of level `l` that is all free or all allocated. -/
def mark (l : Nat) (free : Bool) (b : Blmeta) : Blmeta :=
  match l, free with
  | 0, true => { b with bitmap := -1, bighint := 32 }
  | 0, false => { b with bitmap := 0, bighint := 0 }
  | _ + 1, true => { b with avail := radix l, bighint := radix l }
  | _ + 1, false => { b with avail := 0, bighint := 0 }

/-- The children of a collapsed node are initialized, up to the terminator. -/
def expand (l : Nat) (free : Bool) (scan : Nat) : Nat → Tree → Nat → Tree
  | 0, t, _ => t
  | rounds + 1, t, i =>
    if i ≤ skip (l + 1) then
      if (t (scan + i)).bighint = terminator then t
      else expand l free scan rounds (t.set (scan + i) (mark l free (t (scan + i)))) (i + nextSkip l)
    else t

section
variable (child : Tree → Nat → Nat → Option (Option Nat × Tree)) (l scan count : Nat)

/-- Nothing was found below the node. -/
def lowerHint (t : Tree) : Tree :=
  if (t scan).bighint ≥ count then t.set scan { t scan with bighint := count - 1 } else t

/-- The blocks were found below the node. -/
def takeAvail (t : Tree) : Tree :=
  let avail := (t scan).avail - count
  t.set scan { t scan with avail := avail, bighint := if (t scan).bighint > avail then avail else (t scan).bighint }

def allocLoop : Nat → Tree → Nat → Nat → Option (Option Nat × Tree)
  | 0, _, _, _ => none
  | rounds + 1, t, i, blk =>
    if i ≤ skip (l + 1) then
      if (t (scan + i)).bighint = terminator then some (none, lowerHint scan count t)
      else if count ≤ (t (scan + i)).bighint then
        match child t (scan + i) blk with
        | none => none
        | some (some r, t) => some (some r, takeAvail scan count t)
        | some (none, t) => allocLoop rounds t (i + nextSkip l) (blk + radix l)
      else if count > radix l then none
      else allocLoop rounds t (i + nextSkip l) (blk + radix l)
    else some (none, lowerHint scan count t)

end

/-- `child` is the allocation in a child of level `l`. -/
def blstMetaAlloc (child : Tree → Nat → Nat → Option (Option Nat × Tree)) (l : Nat) (t : Tree) (scan blk count : Nat) :
    Option (Option Nat × Tree) :=
  if (t scan).avail = 0 then some (none, t.set scan { t scan with bighint := count })
  else
    let t := if (t scan).avail = radix (l + 1) then expand l true scan 17 t 1 else t
    allocLoop child l scan count 17 t 1 blk

def blstAlloc : Nat → Tree → Nat → Nat → Nat → Option (Option Nat × Tree)
  | 0, t, scan, blk, count => some ((blstLeafAlloc (t scan) blk count).1, t.set scan (blstLeafAlloc (t scan) blk count).2)
  | l + 1, t, scan, blk, count => blstMetaAlloc (fun t scan blk => blstAlloc l t scan blk count) l t scan blk count

section
variable (child : Tree → Nat → Nat → Nat → Nat → Option Tree) (l scan : Nat)

/-- The hint of the node is raised to that of the child. -/
def raiseHint (t : Tree) (i : Nat) : Tree :=
  if (t scan).bighint < (t (scan + i)).bighint then t.set scan { t scan with bighint := (t (scan + i)).bighint } else t

def freeLoop : Nat → Tree → Nat → Nat → Nat → Nat → Option Tree
  | 0, _, _, _, _, _ => none
  | rounds + 1, t, i, freeBlk, count, blk =>
    if i ≤ skip (l + 1) ∧ blk < freeBlk + count then
      let v := if blk + radix l - freeBlk > count then count else blk + radix l - freeBlk
      if (t scan).bighint = terminator then none
      else
        match child t (scan + i) freeBlk v blk with
        | none => none
        | some t => freeLoop rounds (raiseHint scan t i) (i + nextSkip l) (freeBlk + v) (count - v) (blk + radix l)
    else some t

end

/-- The node's own counter and hint, and its children where it was all allocated. -/
def freeAvail (l : Nat) (t : Tree) (scan count : Nat) : Tree :=
  if (t scan).avail = 0 then
    let t := t.set scan { t scan with avail := count, bighint := count }
    if count ≠ radix (l + 1) then expand l false scan 17 t 1 else t
  else t.set scan { t scan with avail := (t scan).avail + count }

def blstMetaFree (child : Tree → Nat → Nat → Nat → Nat → Option Tree) (l : Nat) (t : Tree) (scan freeBlk count blk : Nat) :
    Option Tree :=
  let t := freeAvail l t scan count
  if (t scan).avail = radix (l + 1) then some t
  else if (t scan).avail > radix (l + 1) then none
  else
    let i := (freeBlk - blk) / radix l
    freeLoop child l scan 17 t (i * nextSkip l + 1) freeBlk count (blk + i * radix l)

def blstFree : Nat → Tree → Nat → Nat → Nat → Nat → Option Tree
  | 0, t, scan, freeBlk, count, _ => (blstLeafFree (t scan) freeBlk count).map (t.set scan)
  | l + 1, t, scan, freeBlk, count, blk => blstMetaFree (blstFree l) l t scan freeBlk count blk

section
variable (child : Tree → Nat → Nat → Nat → Nat → Option (Nat × Tree)) (l scan : Nat)

def fillLoop : Nat → Tree → Nat → Nat → Nat → Nat → Nat → Option (Nat × Tree)
  | 0, _, _, _, _, _, _ => none
  | rounds + 1, t, i, allocBlk, count, blk, nblks =>
    if i ≤ skip (l + 1) ∧ blk < allocBlk + count then
      let v := if blk + radix l - allocBlk > count then count else blk + radix l - allocBlk
      if (t scan).bighint = terminator then none
      else
        match child t (scan + i) allocBlk v blk with
        | none => none
        | some (n, t) => fillLoop rounds t (i + nextSkip l) (allocBlk + v) (count - v) (blk + radix l) (nblks + n)
    else some (nblks, t.set scan { t scan with avail := (t scan).avail - nblks })

end

def blstMetaFill (child : Tree → Nat → Nat → Nat → Nat → Option (Nat × Tree)) (l : Nat) (t : Tree)
    (scan allocBlk count blk : Nat) : Option (Nat × Tree) :=
  if count = radix (l + 1) ∨ (t scan).avail = 0 then
    some ((t scan).avail, t.set scan { t scan with avail := 0, bighint := count })
  else if count > radix (l + 1) then none
  else
    let t := if (t scan).avail = radix (l + 1) then expand l true scan 17 t 1 else t
    let i := (allocBlk - blk) / radix l
    fillLoop child l scan 17 t (i * nextSkip l + 1) allocBlk count (blk + i * radix l) 0

def blstFill : Nat → Tree → Nat → Nat → Nat → Nat → Option (Nat × Tree)
  | 0, t, scan, allocBlk, count, _ =>
    some ((blstLeafFill (t scan) allocBlk count).1, t.set scan (blstLeafFill (t scan) allocBlk count).2)
  | l + 1, t, scan, allocBlk, count, blk => blstMetaFill (blstFill l) l t scan allocBlk count blk

/-! ### Creation -/

section
variable (child : Tree → Nat → Nat → Nat × Tree) (l scan : Nat)

/-- The children of a node; `memindex` is the index of the last node so far. -/
def initLoop : Nat → Tree → Nat → Nat → Nat → Nat × Tree
  | 0, t, i, memindex, _ => (if memindex < i then i else memindex, t)
  | rounds + 1, t, i, memindex, count =>
    if i ≤ skip (l + 1) then
      if count ≥ radix l then
        initLoop rounds (child t (scan + i) (radix l)).2 (i + nextSkip l) (i + (child t (scan + i) (radix l)).1)
          (count - radix l)
      else if count > 0 then
        initLoop rounds (child t (scan + i) count).2 (i + nextSkip l) (i + (child t (scan + i) count).1) 0
      else (if memindex < i then i else memindex, t.set (scan + i) { t (scan + i) with bighint := terminator })
    else (if memindex < i then i else memindex, t)

end

/-- The number of nodes below, and the tree with the node and those below initialized. -/
def blstRadixInit : Nat → Tree → Nat → Nat → Nat × Tree
  | 0, t, scan, _ => (0, t.set scan { t scan with bighint := 0, bitmap := 0 })
  | l + 1, t, scan, count => initLoop (blstRadixInit l) l scan 17 (t.set scan { t scan with bighint := 0, avail := 0 }) 1 0 count

/-- The loop that finds the radix, in 32 bits, and the level that it is the radix of. -/
def radixLoop (blocks : Nat) : Nat → Nat → Nat → Option Nat
  | 0, _, _ => none
  | rounds + 1, rad, level =>
    if rad < blocks then radixLoop blocks rounds (rad * 16 % 2 ^ 32) (level + 1) else some level

structure Blist where
  blocks : Nat
  level : Nat
  free : Nat
  rootblks : Nat
  root : Tree

/-- `mem` is the memory that is allocated for the tree, with whatever it held before. -/
def blistCreate (rounds : Nat) (mem : Tree) (blocks : Nat) : Option Blist :=
  (radixLoop blocks rounds 32 0).map fun level =>
    ⟨blocks, level, 0, 1 + (blstRadixInit level mem 0 blocks).1, (blstRadixInit level mem 0 blocks).2⟩

def blistAlloc (bl : Blist) (count : Nat) : Option (Option Nat × Blist) :=
  (blstAlloc bl.level bl.root 0 0 count).map fun (blk, root) =>
    (blk, { bl with root := root, free := if blk.isSome then bl.free - count else bl.free })

def blistFree (bl : Blist) (blkno count : Nat) : Option Blist :=
  (blstFree bl.level bl.root 0 blkno count 0).map fun root => { bl with root := root, free := bl.free + count }

def blistFill (bl : Blist) (blkno count : Nat) : Option (Nat × Blist) :=
  (blstFill bl.level bl.root 0 blkno count 0).map fun (filled, root) =>
    (filled, { bl with root := root, free := bl.free - filled })

end NetBSD.Kern.SubrBlist
