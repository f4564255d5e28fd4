import NetBSD.Fs.Msdosfs.Fat

/-! Files and their cache of the table.

The model of `pcbmap`, `extendfile` and the functions on the cache in `msdosfs_fat.c`, and of
`detrunc` and `deextend` in `msdosfs_denode.c`. The three slots of the cache keep the number
of a cluster within the file beside its number on the volume. -/
namespace NetBSD.Fs.Msdosfs
open Lib

abbrev MSDOSFSROOT : Nat := 0
def FCE_EMPTY : Nat := 0xffffffff

structure Slot where
  frcn : Nat
  fsrcn : Nat
  deriving DecidableEq

def Slot.purge (s : Slot) (frcn : Nat) : Slot := if s.frcn ≥ frcn then {s with frcn := FCE_EMPTY} else s

/-- `isDir` is `ATTR_DIRECTORY` and `isRoot` the vnode's `VV_ROOT`. The slots are
`FC_LASTMAP`, `FC_LASTFC` and `FC_NEXTTOLASTFC`. -/
structure Denode where
  startCluster : Nat
  fileSize : Nat
  isDir : Bool
  isRoot : Bool
  lastmap : Slot
  lastfc : Slot
  nexttolastfc : Slot
  deriving DecidableEq

namespace Geometry
variable (g : Geometry)

def bpcluster : Nat := 2 ^ g.cnshift

def cn2off (cn : Nat) : Nat := ulong (cn <<< g.cnshift)

def cn2bn (cn : Nat) : Nat := ulong (cn <<< (g.cnshift - g.bnshift))

def bn2cn (bn : Nat) : Nat := bn >>> (g.cnshift - g.bnshift)

def cntobn (cn : Nat) : Nat := ulong (g.cn2bn (cn - CLUST_FIRST) + g.firstcluster)

def cluster (off : Nat) : Nat := off >>> g.cnshift

def clcount (size : Nat) : Nat := ulong (size + g.bpcluster - 1) >>> g.cnshift

end Geometry

namespace Denode
variable {g : Geometry}

def fc (d : Denode) : List Slot := [d.lastmap, d.lastfc, d.nexttolastfc]

def closer (findcn : Nat) (closest : Option Slot) (s : Slot) : Option Slot :=
  if s.frcn ≠ FCE_EMPTY ∧ s.frcn ≤ findcn then
    match closest with
    | none => some s
    | some c => if s.frcn > c.frcn then some s else some c
  else closest

def fcLookup (d : Denode) (findcn : Nat) : Option Slot := d.fc.foldl (closer findcn) none

def fcPurge (d : Denode) (frcn : Nat) : Denode := {d with
  lastmap := d.lastmap.purge (frcn % 2 ^ 32)
  lastfc := d.lastfc.purge (frcn % 2 ^ 32)
  nexttolastfc := d.nexttolastfc.purge (frcn % 2 ^ 32)}

def fcLastToNexttolast (d : Denode) : Denode := {d with nexttolastfc := d.lastfc}

/-- What `pcbmap` answers: the block, the cluster and the size, or that there are only so many
clusters, or that the chain is broken. -/
inductive Mapped where
  | found (bn cn size : Nat)
  | tooBig (cn : Nat)
  | inval
  deriving DecidableEq

/-- How the loop of `pcbmap` ends. -/
inductive Walk where
  | found (i cn : Nat)
  | hiteof (i prevcn : Nat)
  | inval

/-- The loop of `pcbmap` over the next `n` clusters of the file. -/
def walk (m : Mount g) : Nat → Nat → Nat → Nat → Walk
  | 0, i, cn, prevcn => if ¬g.Eof cn then .found i cn else .hiteof i prevcn
  | n + 1, i, cn, prevcn =>
    if cn ≥ CLUST_RSRVD &&& g.fatmask then .hiteof i prevcn
    else if cn < CLUST_FIRST ∨ g.maxcluster < cn then .inval
    else walk m n (i + 1) (m.fat cn) cn

def pcbmap (m : Mount g) (d : Denode) (findcn : Nat) : Mapped × Denode :=
  if d.startCluster = MSDOSFSROOT then
    if d.isDir then
      if g.cn2off findcn ≥ d.fileSize then (.tooBig (g.bn2cn g.rootdirsize), d)
      else (.found (g.rootdirblk + g.cn2bn findcn) MSDOSFSROOT (min g.bpcluster (d.fileSize - g.cn2off findcn)), d)
    else (.tooBig 0, d)
  else
    let s := (d.fcLookup findcn).getD ⟨0, d.startCluster⟩
    match walk m (findcn - s.frcn) s.frcn s.fsrcn 0 with
    | .found i cn => (.found (g.cntobn cn) cn g.bpcluster, {d with lastmap := ⟨i, cn⟩})
    | .hiteof i prevcn => (.tooBig i, {d with lastfc := ⟨ulong (i + (2 ^ 64 - 1)), prevcn⟩})
    | .inval => (.inval, d)

/-- The loop of `extendfile`. At least one cluster comes with every round. -/
def extendLoop (usec : Nat) : Nat → Mount g → Denode → Nat → Option (Except Errno Unit × Mount g × Denode)
  | 0, m, d, _ => some (.ok (), m, d)
  | n + 1, m, d, count =>
    if count = 0 then some (.ok (), m, d)
    else do
      let cn := if d.startCluster = 0 then 0 else ulong (d.lastfc.fsrcn + 1)
      match ← m.clusteralloc cn count usec with
      | (.error e, m) => some (.error e, m, d)
      | (.ok (cn, got), m) =>
        if d.startCluster = 0 then
          extendLoop usec n m {d with startCluster := cn, lastfc := ⟨got - 1, cn + got - 1⟩} (count - got)
        else
          match ← m.fatentry d.lastfc.fsrcn cn with
          | (.error e, m) =>
            let (_, m) ← m.clusterfree cn
            some (.error e, m, d)
          | (.ok _, m) =>
            let frcn := ulong (d.lastfc.frcn + 1)
            extendLoop usec n m {d with lastfc := ⟨frcn + got - 1, cn + got - 1⟩} (count - got)

/-- `extendfile` when `FC_LASTFC` has been looked up: the slot is copied, and clusters are
put behind the one it names. -/
def extendFrom (m : Mount g) (d : Denode) (count usec : Nat) : Option (Except Errno Unit × Mount g × Denode) :=
  extendLoop usec count m d.fcLastToNexttolast count

def extendfile (m : Mount g) (d : Denode) (count usec : Nat) : Option (Except Errno Unit × Mount g × Denode) :=
  if d.startCluster = MSDOSFSROOT ∧ d.isDir = true then some (.error .enospc, m, d)
  else if d.lastfc.frcn = FCE_EMPTY ∧ d.startCluster ≠ 0 then
    match d.pcbmap m CLUST_END with
    | (.tooBig _, d) => extendFrom m d count usec
    -- An answer other than E2BIG is returned as it is, an error or not.
    | (.found _ _ _, d) => some (.ok (), m, d)
    | (.inval, d) => some (.error .einval, m, d)
  else extendFrom m d count usec

/-- The clusters behind the new end are freed. -/
def freeTail (m : Mount g) (d : Denode) (chaintofree : Nat) : Option (Except Errno Unit × Mount g × Denode) :=
  if chaintofree ≠ 0 ∧ ¬g.Eof chaintofree then (m.freeclusterchain chaintofree).map fun m => (.ok (), m, d)
  else some (.ok (), m, d)

/-- `detrunc` to a length that is not above the size of the file. -/
def shrink (m : Mount g) (d : Denode) (length : Nat) : Option (Except Errno Unit × Mount g × Denode) :=
  if d.isRoot = true ∧ g.fatType ≠ .fat32 then some (.error .einval, m, d)
  else if length = 0 then
    freeTail m ({d with startCluster := 0, fileSize := 0}.fcPurge (g.clcount 0)) d.startCluster
  else
    match d.pcbmap m (ulong (g.clcount length + (2 ^ 64 - 1))) with
    | (.inval, d) => some (.error .einval, m, d)
    | (.tooBig _, d) => some (.error .e2big, m, d)
    | (.found _ eofentry _, d) => do
      let d := {d with fileSize := length}.fcPurge (g.clcount length)
      match ← m.fatentry eofentry CLUST_EOFE with
      | (.error e, m) => some (.error e, m, d)
      | (.ok chaintofree, m) => freeTail m {d with lastfc := ⟨g.cluster (length - 1), eofentry⟩} chaintofree

def deextend (m : Mount g) (d : Denode) (length usec : Nat) : Option (Except Errno Unit × Mount g × Denode) :=
  if d.isRoot = true ∧ g.fatType ≠ .fat32 then some (.error .einval, m, d)
  else if d.isDir then some (.error .eisdir, m, d)
  else
    let count := ulong (g.clcount length + (2 ^ 64 - g.clcount d.fileSize))
    if count > 0 then
      if count > m.freeclustercount then some (.error .enospc, m, d)
      else do
        match ← extendfile m d count usec with
        | (.error e, m, d) =>
          let (_, m, d) ← shrink m d d.fileSize
          some (.error e, m, d)
        | (.ok (), m, d) => some (.ok (), m, {d with fileSize := length})
    else some (.ok (), m, {d with fileSize := length})

def detrunc (m : Mount g) (d : Denode) (length usec : Nat) : Option (Except Errno Unit × Mount g × Denode) :=
  if d.isRoot = true ∧ g.fatType ≠ .fat32 then some (.error .einval, m, d)
  else if d.fileSize < length then deextend m d length usec
  else shrink m d length

/-- A new denode in `msdosfs_loadvnode`; the size of a directory is found by walking it. -/
def loadvnode (m : Mount g) (startCluster fileSize : Nat) (isDir isRoot : Bool) : Denode :=
  let d : Denode := fcPurge ⟨startCluster, fileSize, isDir, isRoot, ⟨0, 0⟩, ⟨0, 0⟩, ⟨0, 0⟩⟩ 0
  if isDir = true ∧ startCluster ≠ MSDOSFSROOT then
    match d.pcbmap m CLUST_END with
    | (.tooBig size, d) => {d with fileSize := g.cn2off size}
    | (_, d) => d
  else d

end Denode

end NetBSD.Fs.Msdosfs
