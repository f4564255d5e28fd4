import NetBSD.Lib.Words
import NetBSD.Lib.System
import Mathlib.Logic.Function.Basic

/-! The descriptor table of a process.

A descriptor has an `Fdfile`; `lomap` has a bit for each descriptor in use and `himap` one for
each word of `lomap` that is full. `lastfile` is the highest descriptor in use and below
`freefile` none is free. A descriptor is half open from the time it is allocated until it gets a
file, and again while it is closed.

Every operation here is done under the lock of the table, or on a descriptor that nobody else
can have, so any order of them is an order the threads of a process can bring about. -/
namespace NetBSD.Kern.Descrip
open Function
open Lib

abbrev NDFILE : Nat := 20
abbrev NDEXTENT : Nat := 50
abbrev NDENTRIES : Nat := 32
abbrev NDFDFILE : Nat := 6

def ndloslots (x : Nat) : Nat := (x + 31) / 32

def ndhislots (x : Nat) : Nat := (ndloslots x + 31) / 32

inductive Dtype where
  | vnode | socket | pipe | kqueue | misc | crypto | mqueue | sem
  deriving DecidableEq

structure File where
  id : Nat
  type : Dtype
  deriving DecidableEq

structure Fdfile where
  exclose : Bool := false
  allocated : Bool := false
  file : Option File := none

inductive Errno where
  | EMFILE | ENOSPC

/-- `nfiles` and `ff` are the table's `dt_nfiles` and `dt_ff`. -/
structure Filedesc where
  nfiles : Nat
  ff : Nat → Option Fdfile
  lomap : Nat → Word
  himap : Nat → Word
  lastfile : Int
  freefile : Nat

/-- `filedesc_ctor`: the first descriptors have their `Fdfile` in the structure. -/
def fdInit : Filedesc where
  nfiles := NDFILE
  ff := fun fd => if fd < NDFDFILE then some {} else none
  lomap := fun _ => 0
  himap := fun _ => 0
  lastfile := -1
  freefile := 0

namespace Filedesc
variable (fdp : Filedesc)

def isused (fd : Nat) : Bool := mapBit fdp.lomap fd

/-- How many words the low map has: the ones in the structure, or as many as it needs. -/
def losize : Nat := if ndhislots fdp.nfiles ≤ 1 then NDENTRIES else ndloslots fdp.nfiles

/-- A word of the low map. Where the maps are allocated, the high one is behind it. -/
def loword (k : Nat) : Word := if k < fdp.losize then fdp.lomap k else fdp.himap (k - fdp.losize)

end Filedesc

/-- The first word that is not full, of `n` from `off` on. -/
def nextZeroLoop (bitmap : Nat → Word) : Nat → Nat → Option Nat
  | 0, _ => none
  | n + 1, off =>
    if bitmap off ≠ -1 then some (off * 32 + ffs (~~~ bitmap off) - 1) else nextZeroLoop bitmap n (off + 1)

def fdNextZero (bitmap : Nat → Word) (want bits : Nat) : Option Nat :=
  if want > bits then none
  else
    let off := want / 32
    let i := want % 32
    let sub := bitmap off ||| (-1 : Word) >>> (NDENTRIES - i)
    if i = 0 then nextZeroLoop bitmap (ndloslots bits - off) off
    else if sub ≠ -1 then some (off * 32 + ffs (~~~ sub) - 1)
    else nextZeroLoop bitmap (ndloslots bits - (off + 1)) (off + 1)

/-- The last word of `n` that is not empty. -/
def lastWord (bitmap : Nat → Word) : Nat → Option Nat
  | 0 => none
  | n + 1 => if bitmap n ≠ 0 then some n else lastWord bitmap n

/-- The last descriptor from `i` down that is allocated, or 0. -/
def lastAllocated (ff : Nat → Option Fdfile) : Nat → Nat
  | 0 => 0
  | i + 1 => if (ff (i + 1)).any Fdfile.allocated then i + 1 else lastAllocated ff i

def fdLastSet (fdp : Filedesc) (last : Nat) : Int :=
  match lastWord fdp.lomap ((last + 31) / 32) with
  | none => -1
  | some off => lastAllocated fdp.ff (min ((off + 1) * 32 - 1) (last - 1))

def setBit (map : Nat → Word) (n : Nat) : Nat → Word :=
  update map (n / 32) (map (n / 32) ||| 1#32 <<< (n % 32))

def clearBit (map : Nat → Word) (n : Nat) : Nat → Word :=
  update map (n / 32) (map (n / 32) &&& ~~~(1#32 <<< (n % 32)))

def setFf (fdp : Filedesc) (fd : Nat) (ff : Fdfile) : Filedesc := {fdp with ff := update fdp.ff fd (some ff)}

/-- `none` where an assertion fails. -/
def fdUsed (fdp : Filedesc) (fd : Nat) : Option Filedesc := do
  let ff ← fdp.ff fd
  if fdp.isused fd ∨ ff.file ≠ none ∨ ff.allocated then none
  else
    let lomap := setBit fdp.lomap fd
    let himap := if lomap (fd / 32) = -1 then setBit fdp.himap (fd / 32) else fdp.himap
    let lastfile := if (fd : Int) > fdp.lastfile then (fd : Int) else fdp.lastfile
    some {setFf fdp fd {ff with allocated := true} with lomap, himap, lastfile}

def fdUnused (fdp : Filedesc) (fd : Nat) : Option Filedesc := do
  let ff ← fdp.ff fd
  if ff.file ≠ none ∨ ff.allocated = false ∨ fdp.isused fd = false then none
  else
    let freefile := if fd < fdp.freefile then fd else fdp.freefile
    let himap := if fdp.lomap (fd / 32) = -1 then clearBit fdp.himap (fd / 32) else fdp.himap
    let fdp := {setFf fdp fd {ff with allocated := false} with lomap := clearBit fdp.lomap fd, himap, freefile}
    some (if (fd : Int) = fdp.lastfile then {fdp with lastfile := fdLastSet fdp fd} else fdp)

/-! ### Allocating -/

/-- The loop of `fd_alloc`: the descriptor that is free and what `want` has become, or that there
is none below `last`. `none` is that `n` rounds were not enough. -/
def fdSearch (fdp : Filedesc) (last : Nat) : Nat → Nat → Option (Option (Nat × Nat))
  | 0, _ => none
  | n + 1, want =>
    let i := if want < fdp.freefile then fdp.freefile else want
    let off := i / 32
    match fdNextZero fdp.himap off ((last + 31) / 32) with
    | none => some none
    | some hi =>
      match fdNextZero (fun k => fdp.loword (hi + k)) (if hi > off then 0 else i % 32) NDENTRIES with
      -- The free descriptor of this word is below `want`.
      | none => fdSearch fdp last n ((hi + 1) * 32)
      | some j => if j + hi * 32 ≥ last then some none else some (some (j + hi * 32, want))

def fdAlloc (fdp : Filedesc) (lim want : Nat) : Option (Filedesc × Except Errno Nat) := do
  let last := min fdp.nfiles lim
  match ← fdSearch fdp last ((last + 31) / 32 + 2) want with
  | none => some (fdp, .error (if fdp.nfiles ≥ lim then .EMFILE else .ENOSPC))
  | some (i, want) =>
    let fdp' ← fdUsed (setFf fdp i ((fdp.ff i).getD {})) i
    some ({fdp' with freefile := if want ≤ fdp.freefile then i else fdp.freefile}, .ok i)

def fdTryexpand (fdp : Filedesc) : Filedesc :=
  let numfiles := if fdp.nfiles < NDEXTENT then NDEXTENT else 2 * fdp.nfiles
  let ff := fun fd => if fd < fdp.nfiles then fdp.ff fd else none
  if ndhislots numfiles > ndhislots fdp.nfiles then
    { fdp with
      nfiles := numfiles
      ff := ff
      himap := fun k => if k < ndhislots fdp.nfiles then fdp.himap k else 0
      lomap := fun k => if k < ndloslots fdp.nfiles then fdp.lomap k else 0 }
  else {fdp with nfiles := numfiles, ff := ff}

def fdAffix (fdp : Filedesc) (fp : File) (fd : Nat) : Option Filedesc := do
  let ff ← fdp.ff fd
  if ff.file ≠ none ∨ ff.allocated = false ∨ fdp.isused fd = false then none
  else some (setFf fdp fd {ff with file := some fp})

def fdAbort (fdp : Filedesc) (fd : Nat) : Option Filedesc := do
  let ff ← fdp.ff fd
  fdUnused (setFf fdp fd {ff with exclose := false}) fd

/-- The first half of `fd_close`; the second, when nobody uses the file any more, is `fdUnused`. -/
def fdClosing (fdp : Filedesc) (fd : Nat) : Option Filedesc := do
  let ff ← fdp.ff fd
  if ff.file = none then none else some (setFf fdp fd {ff with file := none, exclose := false})

/-- `while (newfd >= dt_nfiles) fd_tryexpand()`; every round makes the table larger. -/
def expandTo (newfd : Nat) : Nat → Filedesc → Filedesc
  | 0, fdp => fdp
  | n + 1, fdp => if newfd ≥ fdp.nfiles then expandTo newfd n (fdTryexpand fdp) else fdp

/-- What `fd_dup2` does with a free descriptor under the lock, and its flag. -/
def fdReserve (fdp : Filedesc) (newfd : Nat) (exclose : Bool) : Option Filedesc :=
  if newfd ≥ fdp.nfiles then none
  else do
    let fdp ← fdUsed (setFf fdp newfd ((fdp.ff newfd).getD {})) newfd
    let ff ← fdp.ff newfd
    some (setFf fdp newfd {ff with exclose})

/-- `while (fd_isused(newfd)) fd_close(newfd)`; `none` where it has to wait for a half open
descriptor. -/
def fdVacate (fdp : Filedesc) (newfd : Nat) : Option Filedesc :=
  if fdp.isused newfd then (fdClosing fdp newfd).bind fun fdp => fdUnused fdp newfd else some fdp

def fdDup2 (fdp : Filedesc) (fp : File) (newfd : Nat) (exclose : Bool) : Option Filedesc := do
  let fdp ← fdVacate (expandTo newfd (newfd + 1) fdp) newfd
  let fdp ← fdReserve fdp newfd exclose
  fdAffix fdp fp newfd

/-- `while (i >= 2 * NDEXTENT && i > lastfile * 2) i /= 2`. -/
def shrink (lastfile : Int) : Nat → Nat → Nat
  | 0, i => i
  | n + 1, i => if i ≥ 2 * NDEXTENT ∧ (i : Int) > lastfile * 2 then shrink lastfile n (i / 2) else i

/-- One round of the loop of `fd_copy`. -/
def copyFd (fdp : Filedesc) (new : Filedesc) (i : Nat) : Filedesc :=
  match fdp.ff i with
  | none => new
  | some ff =>
    match ff.file with
    | none => new
    | some fp =>
      if fp.type = .kqueue then {new with freefile := if i < new.freefile then i else new.freefile}
      else
        let lomap := setBit new.lomap i
        let himap := if lomap (i / 32) = -1 then setBit new.himap (i / 32) else new.himap
        {setFf new i ⟨ff.exclose, true, some fp⟩ with lomap, himap, lastfile := i}

def fdCopy (fdp : Filedesc) : Filedesc :=
  let nfiles := if fdp.lastfile < NDFILE then NDFILE else shrink fdp.lastfile fdp.nfiles fdp.nfiles
  (List.range (fdp.lastfile + 1).toNat).foldl (copyFd fdp) {fdInit with nfiles, freefile := fdp.freefile}

inductive Call where
  | alloc (lim want : Nat)
  | affix (fp : File) (fd : Nat)
  | abort (fd : Nat)
  | closing (fd : Nat)
  | unused (fd : Nat)
  | tryexpand
  | reserve (newfd : Nat) (exclose : Bool)
  | dup2 (fp : File) (newfd : Nat) (exclose : Bool)
  /-- The run goes on in the copy. -/
  | copy
  deriving DecidableEq

def next (fdp : Filedesc) : Call → Option Filedesc
  | .alloc lim want => (fdAlloc fdp lim want).map Prod.fst
  | .affix fp fd => fdAffix fdp fp fd
  | .abort fd => fdAbort fdp fd
  | .closing fd => fdClosing fdp fd
  | .unused fd => fdUnused fdp fd
  | .tryexpand => some (fdTryexpand fdp)
  | .reserve newfd exclose => fdReserve fdp newfd exclose
  | .dup2 fp newfd exclose => fdDup2 fdp fp newfd exclose
  | .copy => some (fdCopy fdp)

def system : System Filedesc Call := System.ofStep (· = fdInit) next

end NetBSD.Kern.Descrip
