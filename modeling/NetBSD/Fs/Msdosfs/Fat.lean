import NetBSD.Lib.Words

/-! The file allocation table and the map of clusters in use.

The model of `msdosfs_fat.c`. An entry of the table is the number the driver reads, cut to
the width of the table. The map has `(pm_maxcluster + N_INUSEBITS) / N_INUSEBITS` words; a
function whose result is `none` has used an index that is not below that. -/
namespace NetBSD.Fs.Msdosfs
open Function
open Lib

def CLUST_FREE : Nat := 0
def CLUST_FIRST : Nat := 2
def CLUST_RSRVD : Nat := 0xfffffff6
def CLUST_EOFS : Nat := 0xfffffff8
def CLUST_EOFE : Nat := 0xffffffff
def CLUST_END : Nat := CLUST_EOFE
def MSDOSFSFREE : Nat := CLUST_FREE
abbrev N_INUSEBITS : Nat := 32

def MAXBSIZE : Nat := 65536

def ulong (n : Nat) : Nat := n % 2 ^ 64

inductive FatType where
  | fat12
  | fat16
  | fat32
  deriving DecidableEq

def FatType.mask : FatType → Nat
  | .fat12 => 0x00000fff
  | .fat16 => 0x0000ffff
  | .fat32 => 0x0fffffff

def FatType.mult : FatType → Nat
  | .fat12 => 3
  | .fat16 => 2
  | .fat32 => 4

def FatType.div : FatType → Nat
  | .fat12 => 2
  | .fat16 => 1
  | .fat32 => 1

/-- What `msdosfs_mountfs` has found out about the volume. The checks are its own: the number
of clusters against the width of the table, the limit up to which a table is one of 12 bits,
and the size of a cluster. -/
structure Geometry where
  fatType : FatType
  maxcluster : Nat
  fatblocksize : Nat
  cnshift : Nat
  bnshift : Nat
  firstcluster : Nat
  rootdirblk : Nat
  rootdirsize : Nat
  masked : maxcluster &&& fatType.mask = maxcluster
  narrow : fatType = .fat12 → maxcluster ≤ (CLUST_RSRVD - CLUST_FIRST) &&& fatType.mask
  bounded : 2 ^ cnshift ≤ MAXBSIZE

namespace Geometry
variable (g : Geometry)

def fatmask : Nat := g.fatType.mask

def words : Nat := (g.maxcluster + N_INUSEBITS) / N_INUSEBITS

def fatofs (cn : Nat) : Nat := cn * g.fatType.mult / g.fatType.div

/-- The block of the table an entry is in. -/
def fatblock (cn : Nat) : Nat := g.fatofs cn / g.fatblocksize

def Eof (cn : Nat) : Prop := cn &&& CLUST_EOFS = CLUST_EOFS &&& g.fatmask

instance (cn : Nat) : Decidable (g.Eof cn) := inferInstanceAs (Decidable (_ = _))

def Cluster (cn : Nat) : Prop := CLUST_FIRST ≤ cn ∧ cn ≤ g.maxcluster

instance (cn : Nat) : Decidable (g.Cluster cn) := inferInstanceAs (Decidable (_ ∧ _))

end Geometry

inductive Errno where
  | enospc
  | einval
  | e2big
  | eisdir

/-- The part of `struct msdosfsmount` that changes. `fsinfo` says whether the volume has an
FSInfo block. -/
structure Mount (g : Geometry) where
  inusemap : Nat → Word
  freeclustercount : Nat
  fat : Nat → Nat
  fsinfo : Bool
  nxtfree : Nat

namespace Mount
variable {g : Geometry}

def word (m : Mount g) (idx : Nat) : Option Word := if idx < g.words then some (m.inusemap idx) else none

def usemapAlloc (m : Mount g) (cn : Nat) : Option (Mount g) :=
  (m.word (cn / N_INUSEBITS)).map fun w => {m with
    inusemap := update m.inusemap (cn / N_INUSEBITS) (w ||| 1#32 <<< (cn % N_INUSEBITS))
    freeclustercount := ulong (m.freeclustercount + (2 ^ 64 - 1))}

def usemapFree (m : Mount g) (cn : Nat) : Option (Mount g) :=
  (m.word (cn / N_INUSEBITS)).map fun w => {m with
    freeclustercount := ulong (m.freeclustercount + 1)
    inusemap := update m.inusemap (cn / N_INUSEBITS) (w &&& ~~~(1#32 <<< (cn % N_INUSEBITS)))}

/-- The search of `updatefats` for a word with a free cluster, over the next `n` clusters. -/
def freeWord (m : Mount g) : Nat → Nat → Option Nat
  | 0, cn => some cn
  | n + 1, cn => (m.word (cn / N_INUSEBITS)).bind fun w => if w ≠ -1 then some cn else m.freeWord n (cn + 1)

/-- What `updatefats` does besides writing blocks: it keeps the FSInfo block's hint at a
free cluster. -/
def updatefats (m : Mount g) : Option (Mount g) :=
  if m.fsinfo = true ∧ m.freeclustercount ≠ 0 then do
    let w ← m.word (m.nxtfree / N_INUSEBITS)
    if w &&& 1#32 <<< (m.nxtfree % N_INUSEBITS) ≠ 0 then
      let cn ← m.freeWord g.maxcluster 0
      let w ← m.word (cn / N_INUSEBITS)
      some {m with nxtfree := ulong (cn + ffs (w ^^^ -1) + (2 ^ 64 - 1))}
    else some m
  else some m

def setFat (m : Mount g) (cn newcontents : Nat) : Mount g :=
  {m with fat := update m.fat cn (newcontents &&& g.fatmask)}

/-- `fatentry` with `FAT_GET_AND_SET`; with `FAT_SET` nobody looks at the old contents. -/
def fatentry (m : Mount g) (cn newcontents : Nat) : Option (Except Errno Nat × Mount g) :=
  if cn < CLUST_FIRST ∨ g.maxcluster < cn then some (.error .einval, m)
  else (m.setFat cn newcontents).updatefats.map fun m' => (.ok (m.fat cn), m')

def clusterfree (m : Mount g) (cluster : Nat) : Option (Except Errno Nat × Mount g) := do
  let m ← m.usemapFree cluster
  match ← m.fatentry cluster MSDOSFSFREE with
  | (.error e, m) =>
    let m ← m.usemapAlloc cluster
    some (.error e, m)
  | (.ok oldcn, m) => some (.ok oldcn, m)

/-- The loops of `fatchain`: the inner one ends with the block or with the chain. -/
def fatchainLoop (m : Mount g) (fillwith : Nat) : Nat → Nat → Option (Mount g)
  | 0, _ => some m
  | count + 1, start =>
    let newc := if 0 < count then start + 1 else fillwith
    let m := m.setFat start newc
    if count = 0 ∨ g.fatblock (start + 1) ≠ g.fatblock start then
      m.updatefats.bind fun m => m.fatchainLoop fillwith count (start + 1)
    else m.fatchainLoop fillwith count (start + 1)

def fatchain (m : Mount g) (start count fillwith : Nat) : Option (Except Errno Unit × Mount g) :=
  if start < CLUST_FIRST ∨ g.maxcluster < start + count - 1 then some (.error .einval, m)
  else (m.fatchainLoop fillwith count start).map fun m => (.ok (), m)

/-- The loop of `chainlength` over the `n` words from `idx` on. -/
def chainlengthLoop (m : Mount g) (count : Nat) : Nat → Nat → Nat → Option Nat
  | 0, _, len => some len
  | n + 1, idx, len =>
    if len ≥ count then some len
    else (m.word idx).bind fun map =>
      if map ≠ 0 then some (len + (ffs map - 1)) else m.chainlengthLoop count n (idx + 1) (len + N_INUSEBITS)

def chainlength (m : Mount g) (start count : Nat) : Option Nat :=
  let maxIdx := g.maxcluster / N_INUSEBITS
  let idx := start / N_INUSEBITS
  let start := start % N_INUSEBITS
  (m.word idx).bind fun map =>
    let map := map &&& ~~~((1#32 <<< start) - 1)
    if map ≠ 0 then
      let len := ffs map - 1 - start
      some (if len > count then count else len)
    else
      let len := N_INUSEBITS - start
      if len ≥ count then some count
      else (m.chainlengthLoop count (maxIdx - idx) (idx + 1) len).map fun len => if len > count then count else len

/-- The loop of `chainalloc` over the map. -/
def usemapAllocs (m : Mount g) : Nat → Nat → Option (Mount g)
  | 0, _ => some m
  | n + 1, cl => (m.usemapAlloc cl).bind fun m => m.usemapAllocs n (cl + 1)

/-- The first cluster allocated, and how many. -/
def chainalloc (m : Mount g) (start count fillwith : Nat) : Option (Except Errno (Nat × Nat) × Mount g) := do
  let m ← m.usemapAllocs count start
  match ← m.fatchain start count fillwith with
  | (.error e, m) => some (.error e, m)
  | (.ok (), m) => some (.ok (start, count), m)

/-- How a scan of the map ends: at a chain that is long enough, or with the longest seen. -/
inductive Scan where
  | hit (cn : Nat)
  | best (foundcn foundl : Nat)

/-- A loop of `clusteralloc` over the clusters from `cn` up to `lim`. Every round moves on,
so that `lim` rounds are enough. -/
def scan (m : Mount g) (count lim : Nat) : Nat → Nat → Nat → Nat → Option Scan
  | 0, _, foundcn, foundl => some (.best foundcn foundl)
  | n + 1, cn, foundcn, foundl =>
    if cn < lim then
      let idx := cn / N_INUSEBITS
      (m.word idx).bind fun map =>
        let map := map ||| ((1#32 <<< (cn % N_INUSEBITS)) - 1)
        if map ≠ -1 then
          let cn := idx * N_INUSEBITS + ffs (map ^^^ -1) - 1
          (m.chainlength cn count).bind fun l =>
            if l ≥ count then some (.hit cn)
            else if l > foundl then m.scan count lim n (cn + (l + 1)) cn l
            else m.scan count lim n (cn + (l + 1)) foundcn foundl
        else m.scan count lim n (cn + (N_INUSEBITS - cn % N_INUSEBITS)) foundcn foundl
    else some (.best foundcn foundl)

/-- The search of `clusteralloc` from `start` on, when `len` clusters are free there but not
`count`. -/
def clusterSearch (m : Mount g) (start len count : Nat) : Option (Except Errno (Nat × Nat) × Mount g) := do
  let newst := ulong (start * 1103515245 + 12345) % (g.maxcluster + 1)
  match ← m.scan count (g.maxcluster + 1) (g.maxcluster + 1) newst 0 0 with
  | .hit cn => m.chainalloc cn count CLUST_EOFE
  | .best foundcn foundl =>
    match ← m.scan count newst newst 0 foundcn foundl with
    | .hit cn => m.chainalloc cn count CLUST_EOFE
    | .best foundcn foundl =>
      if foundl = 0 then some (.error .enospc, m)
      else if len ≠ 0 then m.chainalloc start len CLUST_EOFE
      else m.chainalloc foundcn foundl CLUST_EOFE

/-- `usec` is what `microtime` says, for a new file. -/
def clusteralloc (m : Mount g) (start count usec : Nat) : Option (Except Errno (Nat × Nat) × Mount g) :=
  if start ≠ 0 then
    (m.chainlength start count).bind fun len =>
      if len ≥ count then m.chainalloc start count CLUST_EOFE else m.clusterSearch start len count
  else m.clusterSearch (usec >>> 10 ||| usec) 0 count

/-- `freeclusterchain` turns to block `bn` of the table; the one at hand is written. -/
def turnTo (m : Mount g) (lbn : Option Nat) (bn : Nat) : Option (Mount g) :=
  if lbn.isSome ∧ lbn ≠ some bn then m.updatefats else some m

/-- The loop of `freeclusterchain`; `lbn` is the block of the table at hand. A cluster that
has been freed leads nowhere, so that the loop ends. -/
def freeLoop (m : Mount g) : Nat → Nat → Option Nat → Option (Mount g)
  | 0, _, _ => some m
  | n + 1, cluster, lbn =>
    if CLUST_FIRST ≤ cluster ∧ cluster ≤ g.maxcluster then do
      let m ← m.turnTo lbn (g.fatblock cluster)
      let m ← m.usemapFree cluster
      (m.setFat cluster MSDOSFSFREE).freeLoop n (m.fat cluster) (some (g.fatblock cluster))
    else if lbn.isSome then m.updatefats else some m

def freeclusterchain (m : Mount g) (cluster : Nat) : Option (Mount g) := m.freeLoop (g.maxcluster + 2) cluster none

/-- One round of `fillinusemap`. -/
def fillRound (m : Mount g) (cn : Nat) : Option (Mount g) := if m.fat cn = 0 then m.usemapFree cn else some m

def fillinusemap (m : Mount g) : Option (Mount g) :=
  (List.range' CLUST_FIRST (g.maxcluster + 1 - CLUST_FIRST)).foldlM fillRound
    {m with inusemap := fun idx => if idx < g.words then -1 else m.inusemap idx, freeclustercount := 0}

end Mount

end NetBSD.Fs.Msdosfs
