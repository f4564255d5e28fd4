import NetBSD.Fs.Msdosfs.Entries
import NetBSD.Fs.Msdosfs.Chains

/-! The table on the disk.

The functions of `msdosfs_fat.c` on the blocks of the table, down to the bytes. `entry` is what
an entry is on the disk, whichever block it is in; when every entry is inside its block, what the
functions read and write is said by `entry` alone, and the model of the table as a function on
cluster numbers is the same. The copies of the table and the FSInfo block, which `updatefats`
writes too, and the map of clusters in use are left out. -/
namespace NetBSD.Fs.Msdosfs
open Nat
open Lib.Bytes

abbrev Disk : Type := Nat → BitVec 8

namespace Msdosfsmount
variable (p : Msdosfsmount)

/-- A block of `size` bytes from sector `bn` on. -/
def bread (disk : Disk) (bn size : Nat) : Buf := ⟨fun i => disk (bn * p.bytesPerSec + i), size⟩

/-- The block goes back to the disk. -/
def updatefats (disk : Disk) (bp : Buf) (fatbn : Nat) : Disk := fun a =>
  if fatbn * p.bytesPerSec ≤ a ∧ a < fatbn * p.bytesPerSec + bp.size then bp.data (a - fatbn * p.bytesPerSec) else disk a

/-- `old` and `set` say what is asked of it, `FAT_GET` and `FAT_SET`. -/
def fatentry (disk : Disk) (old set : Bool) (cn newcontents : Nat) : Option (Except Errno (Option Nat) × Disk) :=
  if old = false ∧ set = false then some (.error .einval, disk)
  else if cn < CLUST_FIRST ∨ p.maxcluster < cn then some (.error .einval, disk)
  else
    let (bn, bsize, bo) := p.fatblock (p.fatofs cn)
    let bp := p.bread disk bn bsize
    (if old then (bp.getEntry p.fatType bo cn).map some else some none).bind fun oldcontents =>
      if set then (bp.setEntry p.fatType bo cn newcontents).map fun bp => (.ok oldcontents, p.updatefats disk bp bn)
      else some (.ok oldcontents, disk)

/-- How far `fatchain` moves on in the block; `start` is the cluster behind. -/
def step (start : Nat) : Nat :=
  match p.fatType with
  | .fat12 => if start &&& 1 ≠ 0 then 1 else 2
  | .fat16 => 2
  | .fat32 => 4

/-- The loops of `fatchain` on the block `bp` at `bn`: the inner one ends with the block or with
the chain. -/
def chainLoop (fillwith : Nat) : (count start bn : Nat) → (bp : Buf) → (bo : Nat) → (disk : Disk) → Option Disk
  | 0, _, _, _, _, disk => some disk
  | count + 1, start, bn, bp, bo, disk =>
    let start := start + 1
    let newc := if 0 < count then start else fillwith
    (bp.chainEntry p.fatType bo start newc).bind fun bp =>
      let bo := bo + p.step start
      if count = 0 then some (p.updatefats disk bp bn)
      else if bp.size ≤ bo then
        let disk := p.updatefats disk bp bn
        let (bn, bsize, bo) := p.fatblock (p.fatofs start)
        chainLoop fillwith count start bn (p.bread disk bn bsize) bo disk
      else chainLoop fillwith count start bn bp bo disk

def fatchain (disk : Disk) (start count fillwith : Nat) : Option (Except Errno Unit × Disk) :=
  if start < CLUST_FIRST ∨ p.maxcluster < start + count - 1 then some (.error .einval, disk)
  else if count = 0 then some (.ok (), disk)
  else
    let (bn, bsize, bo) := p.fatblock (p.fatofs start)
    (p.chainLoop fillwith count start bn (p.bread disk bn bsize) bo disk).map fun disk => (.ok (), disk)

/-- `freeclusterchain` turns to the block of its cluster; the one at hand is written. -/
def turn (disk : Disk) (hand : Option (Nat × Buf)) (bn bsize : Nat) : Buf × Disk :=
  match hand with
  | none => (p.bread disk bn bsize, disk)
  | some (lbn, bp) =>
    if lbn ≠ bn then (p.bread (p.updatefats disk bp lbn) bn bsize, p.updatefats disk bp lbn) else (bp, disk)

/-- The loop of `freeclusterchain`. A cluster that has been freed leads nowhere, so that it ends. -/
def freeLoop : (n cluster : Nat) → (hand : Option (Nat × Buf)) → (disk : Disk) → Option Disk
  | 0, _, _, _ => none
  | n + 1, cluster, hand, disk =>
    if CLUST_FIRST ≤ cluster ∧ cluster ≤ p.maxcluster then
      let (bn, bsize, bo) := p.fatblock (p.fatofs cluster)
      let (bp, disk) := p.turn disk hand bn bsize
      (bp.freeEntry p.fatType bo cluster).bind fun (cluster, bp) => freeLoop n cluster (some (bn, bp)) disk
    else
      match hand with
      | none => some disk
      | some (bn, bp) => some (p.updatefats disk bp bn)

def freeclusterchain (disk : Disk) (cluster : Nat) : Option Disk := p.freeLoop (p.maxcluster + 2) cluster none disk

/-- `pcbmap` reads a block that it has not at hand. -/
def blockFor (disk : Disk) (hand : Option (Nat × Buf)) (bn bsize : Nat) : Buf :=
  match hand with
  | none => p.bread disk bn bsize
  | some (bpBn, bp) => if bn ≠ bpBn then p.bread disk bn bsize else bp

/-- `pcbmap` reads the link of a cluster. The inner `none` is `EIO`. -/
def follow (disk : Disk) (hand : Option (Nat × Buf)) (cn : Nat) : Option (Option Nat × Nat × Buf) :=
  let (bn, bsize, bo) := p.fatblock (p.fatofs cn)
  let bp := p.blockFor disk hand bn bsize
  if bsize ≤ bo then some (none, bn, bp) else (bp.getEntry p.fatType bo cn).map fun cn => (some cn, bn, bp)

/-- How the loop of `pcbmap` ends. -/
inductive Walked where
  | found (i cn : Nat)
  | hiteof (i prevcn : Nat)
  | inval
  | eio

/-- The loop of `pcbmap` over the next `n` clusters of the file. -/
def walk (disk : Disk) : (n i cn prevcn : Nat) → (hand : Option (Nat × Buf)) → Option Walked
  | 0, i, cn, prevcn, _ => some (if ¬cn &&& CLUST_EOFS = CLUST_EOFS &&& p.fatType.mask then .found i cn else .hiteof i prevcn)
  | n + 1, i, cn, prevcn, hand =>
    if cn ≥ CLUST_RSRVD &&& p.fatType.mask then some (.hiteof i prevcn)
    else if cn < CLUST_FIRST ∨ p.maxcluster < cn then some .inval
    else (p.follow disk hand cn).bind fun (next, hand) =>
      match next with
      | none => some .eio
      | some next => walk disk n (i + 1) next cn (some hand)

/-- `fillinusemap` reads a block at its first byte. -/
def blockAt (disk : Disk) (hand : Option Buf) (bn bsize bo : Nat) : Buf :=
  match hand with
  | none => p.bread disk bn bsize
  | some bp => if bo = 0 then p.bread disk bn bsize else bp

/-- The loop of `fillinusemap`: the clusters that it finds free. -/
def freeClusters (disk : Disk) : (n cn : Nat) → (hand : Option Buf) → Option (List Nat)
  | 0, _, _ => some []
  | n + 1, cn, hand =>
    let bo := p.fatofs cn % p.fatblocksize
    let (bn, bsize, _) := p.fatblock (p.fatofs cn)
    let bp := p.blockAt disk hand bn bsize bo
    (bp.getEntry p.fatType bo cn).bind fun readcn =>
      (freeClusters disk n (cn + 1) (some bp)).map fun l => if readcn = 0 then cn :: l else l

def fillinusemap (disk : Disk) : Option (List Nat) := p.freeClusters disk (p.maxcluster + 1 - CLUST_FIRST) CLUST_FIRST none

/-! ### The entries -/

def addr (cn : Nat) : Nat := p.fatbase * p.bytesPerSec + p.fatofs cn

def pos (cn : Nat) : Nat := 8 * (p.fatbase * p.bytesPerSec) + p.fatType.bits * cn

/-- Entry `cn` as it is on the disk. -/
def entry (disk : Disk) (cn : Nat) : Nat :=
  ((Buf.mk disk (p.addr cn + p.fatType.width)).getEntry p.fatType (p.addr cn) cn).getD 0

/-- The four bits above an entry of 28 bits. -/
def reserved (disk : Disk) (cn : Nat) : Nat := le32dec disk (p.addr cn) >>> 28

/-- Nothing but entries of clusters of the volume differs. -/
def Frame (disk disk' : Disk) : Prop :=
  ∀ m, (∀ cn, p.Cluster cn → m < p.pos cn ∨ p.pos cn + p.fatType.used ≤ m) → bitAt disk' m = bitAt disk m

section Entries
variable {p} {disk disk' : Disk} {bp bp' : Buf} {bn bo cn size v : Nat}

theorem addr_skip : 8 * p.addr cn + p.fatType.skip cn = p.pos cn := by
  have hofs := ofs_skip p.fatType cn
  rw [addr, pos, ← hofs, mul_add, add_assoc]
  rfl

theorem testBit_entry (j : Nat) : (p.entry disk cn).testBit j = (decide (j < p.fatType.used) && bitAt disk (p.pos cn + j)) := by
  obtain ⟨v, hv, hbits⟩ := @Buf.getEntry_spec ⟨disk, p.addr cn + p.fatType.width⟩ p.fatType (p.addr cn) cn (le_refl _)
  rw [addr_skip] at hbits
  rw [entry, hv]
  exact hbits j

theorem entry_ext (h : ∀ j, v.testBit j = (decide (j < p.fatType.used) && bitAt disk (p.pos cn + j))) : v = p.entry disk cn :=
  eq_of_testBit_eq fun j => by rw [h j, testBit_entry]

theorem used_le (t : FatType) : t.used ≤ t.bits := by
  cases t <;> decide

theorem pos_apart {cn' : Nat} (h : cn ≠ cn') : p.pos cn + p.fatType.bits ≤ p.pos cn' ∨ p.pos cn' + p.fatType.bits ≤ p.pos cn := by
  unfold pos
  rcases Nat.lt_or_gt_of_ne h with hlt | hlt
  · have hle := Nat.mul_le_mul_left p.fatType.bits hlt
    rw [mul_succ] at hle
    omega
  · have hle := Nat.mul_le_mul_left p.fatType.bits hlt
    rw [mul_succ] at hle
    omega

theorem entry_wrote (h : Wrote disk disk' (p.pos cn) p.fatType.used v) :
    p.entry disk' = Function.update (p.entry disk) cn (v &&& p.fatType.mask) := by
  have hused := used_le p.fatType
  funext c
  apply Eq.symm
  apply entry_ext
  intro j
  by_cases hc : c = cn
  · subst hc
    rw [Function.update_self, testBit_and, testBit_mask, Bool.and_comm]
    by_cases hj : j < p.fatType.used
    · rw [decide_eq_true hj, Bool.true_and, Bool.true_and, h, if_pos (by omega), Nat.add_sub_cancel_left]
    · rw [decide_eq_false hj, Bool.false_and, Bool.false_and]
  rw [Function.update_of_ne hc, testBit_entry]
  by_cases hj : j < p.fatType.used
  · have hapart := @pos_apart p c cn hc
    rw [h.outside (by omega)]
  · rw [decide_eq_false hj, Bool.false_and, Bool.false_and]

theorem Frame.refl (disk : Disk) : p.Frame disk disk := fun _ _ => rfl

theorem Frame.trans {disk'' : Disk} (h : p.Frame disk disk') (h' : p.Frame disk' disk'') : p.Frame disk disk'' :=
  fun m hm => (h' m hm).trans (h m hm)

theorem frame_wrote (hcn : p.Cluster cn) (h : Wrote disk disk' (p.pos cn) p.fatType.used v) : p.Frame disk disk' :=
  fun _ hm => h.outside (hm cn hcn)

theorem Frame.reserved (h : p.Frame disk disk') (h32 : p.fatType = .fat32) (c : Nat) : p.reserved disk' c = p.reserved disk c := by
  apply eq_of_testBit_eq
  intro j
  unfold Msdosfsmount.reserved
  rw [testBit_shiftRight, testBit_shiftRight, testBit_le32dec, testBit_le32dec]
  by_cases hj : 28 + j < 32
  · have hskip : p.fatType.skip c = 0 := Buf.skip_wide (by rw [h32]; decide)
    have hpos : 8 * p.addr c = p.pos c := by rw [← addr_skip, hskip, add_zero]
    rw [h]
    intro cn _
    have hbits : p.fatType.bits = 32 := by rw [h32]; rfl
    have hused : p.fatType.used = 28 := by rw [h32]; rfl
    by_cases hc : cn = c
    · subst hc
      exact .inr (by omega)
    · have hapart := @pos_apart p cn c hc
      omega
  · rw [decide_eq_false hj, Bool.false_and, Bool.false_and]

end Entries

end Msdosfsmount

end NetBSD.Fs.Msdosfs
