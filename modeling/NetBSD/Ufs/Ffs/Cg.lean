import NetBSD.Ufs.Ffs.Maps

/-! Allocation and freeing in a cylinder group.

What is on the disk is kept in the byte order of the disk: the words of a `Cg` are raw and
`ufsRw32` reads and writes them. `fs_cs` and `fs_cstotal` are in core. `none` is a panic, and a
block number of 0 is the answer of an allocation that failed and changed nothing. -/
namespace NetBSD.Ufs.Ffs
open Function

def bswap32 (x : BitVec 32) : BitVec 32 :=
  (x &&& 0xff000000#32) >>> 24 ||| (x &&& 0x00ff0000#32) >>> 8 ||| (x &&& 0x0000ff00#32) <<< 8 ||| (x &&& 0x000000ff#32) <<< 24

def ufsRw32 (a : BitVec 32) (ns : Bool) : BitVec 32 := if ns then bswap32 a else a

def ufsAdd32 (a : BitVec 32) (b : Int) (ns : Bool) : BitVec 32 := ufsRw32 (ufsRw32 a ns + BitVec.ofInt 32 b) ns

/-- What the superblock says of the file system. There are cluster maps when
`contigsumsize` is not 0. -/
structure Geometry where
  fragshift : Fin 4
  fsize : Nat
  fsize_pos : 0 < fsize
  fpg : Nat
  fpg_pos : 0 < fpg
  fpg_lt : fpg < 2 ^ 31
  frag_dvd : 2 ^ (fragshift : Nat) ∣ fpg
  ncg : Nat
  ncg_lt : ncg < 2 ^ 31
  contigsumsize : Nat
  needswap : Bool

namespace Geometry
variable (g : Geometry)

abbrev frag : Nat := 2 ^ (g.fragshift : Nat)

def bsize : Nat := g.frag * g.fsize

def numfrags (loc : Nat) : Nat := loc / g.fsize

def fragstoblks (frags : Nat) : Nat := frags / g.frag

def fragnum (fsb : Nat) : Nat := fsb % g.frag

def blknum (fsb : Nat) : Nat := fsb - fsb % g.frag

def dtog (d : Nat) : Nat := d / g.fpg

def dtogd (d : Nat) : Nat := d % g.fpg

def cgbase (c : Nat) : Nat := g.fpg * c

/-- The bytes of a map with a bit for each fragment. -/
def mapBytes : Nat := (g.fpg + (NBBY - 1)) / NBBY

end Geometry

/-- A cylinder group on the disk. -/
structure Cg where
  cgx : BitVec 32
  nbfree : BitVec 32
  nffree : BitVec 32
  rotor : BitVec 32
  frotor : BitVec 32
  frsum : Nat → BitVec 32
  nclusterblks : BitVec 32
  blksfree : Map
  clustersfree : Map
  clustersum : Nat → BitVec 32

structure Csum where
  nbfree : Int
  nffree : Int
  deriving DecidableEq

structure Fs where
  cgs : Nat → Cg
  cs : Nat → Csum
  cstotal : Csum
  maxcluster : Nat → Nat

variable (g : Geometry)

def Fs.setCg (s : Fs) (c : Nat) (cgp : Cg) : Fs := {s with cgs := update s.cgs c cgp}

/-- The group's `cs_nbfree`, that of entry `x` of `fs_cs` and the total change alike. -/
def Fs.addNbfree (s : Fs) (c x : Nat) (d : Int) : Fs :=
  { s with
    cgs := update s.cgs c {s.cgs c with nbfree := ufsAdd32 (s.cgs c).nbfree d g.needswap}
    cs := update s.cs x {s.cs x with nbfree := (s.cs x).nbfree + d}
    cstotal := {s.cstotal with nbfree := s.cstotal.nbfree + d} }

def Fs.addNffree (s : Fs) (c x : Nat) (d : Int) : Fs :=
  { s with
    cgs := update s.cgs c {s.cgs c with nffree := ufsAdd32 (s.cgs c).nffree d g.needswap}
    cs := update s.cs x {s.cs x with nffree := (s.cs x).nffree + d}
    cstotal := {s.cstotal with nffree := s.cstotal.nffree + d} }

/-- The loop of `ffs_fragacct` over the positions of a run of `siz`, on the counter of that
length; it goes on behind a run it has found. -/
def fragacctPos (frag fragmap siz : Nat) (cnt : Int) (ns : Bool) : Nat → Nat → BitVec 32 → BitVec 32
  | 0, _, w => w
  | n + 1, pos, w =>
    if pos ≤ frag then
      if fits fragmap siz (pos - siz) then fragacctPos frag fragmap siz cnt ns n (pos + siz + 1) (ufsAdd32 w cnt ns)
      else fragacctPos frag fragmap siz cnt ns n (pos + 1) w
    else w

/-- Runs of free fragments in a block are added to the counters, or taken from them. -/
def fragacct (fragmap : Nat) (fraglist : Nat → BitVec 32) (cnt : Int) : Nat → BitVec 32 :=
  let inblk := (fragtbl g.frag).getD fragmap 0 <<< 1
  (List.range' 1 (g.frag - 1)).foldl (fun fraglist siz =>
    if inblk &&& 1 <<< (siz + (g.frag &&& (NBBY - 1))) = 0 then fraglist
    else update fraglist siz (fragacctPos g.frag fragmap siz cnt g.needswap g.frag siz (fraglist siz))) fraglist

def forwFree (map : Map) : Nat → Nat → Nat
  | 0, _ => 0
  | n + 1, i => if isset map i then forwFree map n (i + 1) + 1 else 0

def backFree (map : Map) : Nat → Nat → Nat
  | 0, _ => 0
  | n + 1, i => if isset map (i - 1) then backFree map n (i - 1) + 1 else 0

/-- The cluster map and the cluster sums follow an allocation (`cnt` is -1) or a free
(`cnt` is 1). -/
def clusteracct (s : Fs) (c blkno : Nat) (cnt : Int) : Fs :=
  if g.contigsumsize = 0 then s
  else
    let cgp := s.cgs c
    let rw (w : BitVec 32) : Nat := (ufsRw32 w g.needswap).toNat
    let freemap := if 0 < cnt then setbit cgp.clustersfree blkno else clrbit cgp.clustersfree blkno
    let start := blkno + 1
    let stop := if rw cgp.nclusterblks ≤ start + g.contigsumsize then rw cgp.nclusterblks else start + g.contigsumsize
    let forw := forwFree freemap (stop - start) start
    let back := backFree freemap (min blkno g.contigsumsize) blkno
    let i := min (back + forw + 1) g.contigsumsize
    let add (sump : Nat → BitVec 32) (k : Nat) (d : Int) := update sump k (ufsAdd32 (sump k) d g.needswap)
    let sump := add cgp.clustersum i cnt
    let sump := if 0 < back then add sump back (-cnt) else sump
    let sump := if 0 < forw then add sump forw (-cnt) else sump
    let largest := ((List.range' 1 g.contigsumsize).reverse.find? fun i => rw (sump i) ≠ 0).getD 0
    { s.setCg c {cgp with clustersfree := freemap, clustersum := sump} with
      maxcluster := update s.maxcluster (rw cgp.cgx) largest }

/-- How many of the `size` bytes from `i` on are left at the first one that the mask picks. -/
def scanc (cp : Map) (table : List Nat) (mask : Nat) : Nat → Nat → Nat
  | 0, _ => 0
  | size + 1, i => if table.getD (cp i).toNat 0 &&& mask = 0 then scanc cp table mask size (i + 1) else size + 1

/-- A run of exactly `allocsiz` free fragments, the first behind `bpref` or the rotor. A rotor
outside of the map would have the scan leave the map. -/
def mapsearch (cgp : Cg) (bpref allocsiz : Nat) : Option (Cg × Nat) :=
  let start := if bpref ≠ 0 then g.dtogd bpref / NBBY else (ufsRw32 cgp.frotor g.needswap).toNat / NBBY
  if g.mapBytes ≤ start then none
  else
    let len := g.mapBytes - start
    let mask := 1 <<< (allocsiz - 1 + (g.frag &&& (NBBY - 1)))
    let loc := scanc cgp.blksfree (fragtbl g.frag) mask len start
    let byte :=
      if loc ≠ 0 then some (start + len - loc)
      else
        let loc := scanc cgp.blksfree (fragtbl g.frag) mask (start + 1) 0
        if loc = 0 then none else some (start + 1 - loc)
    byte.bind fun byte =>
      let bno := byte * NBBY
      let sift (bno : Nat) : Option Nat := ((List.range (g.frag - allocsiz + 1)).find? fun pos =>
        fits (blkmap g.frag cgp.blksfree bno) allocsiz pos).map (bno + ·)
      ((List.range (NBBY / g.frag)).findSome? fun j => sift (bno + j * g.frag)).map fun found =>
        ({cgp with frotor := ufsRw32 (BitVec.ofNat 32 bno) g.needswap}, found)

/-- A block or fragments of one go back to the map of group `c`. -/
def blkfreeCommon (s : Fs) (c bno size : Nat) (snapshot : Bool) : Option Fs :=
  let x := g.dtog bno
  let cgbno := g.dtogd bno
  let map := (s.cgs c).blksfree
  if size = g.bsize then
    let fragno := g.fragstoblks cgbno
    if isfreeblock g.fragshift map fragno = false then if snapshot then some s else none
    else
      let s := s.setCg c {s.cgs c with blksfree := setblock g.fragshift map fragno}
      some ((clusteracct g s c fragno 1).addNbfree g c x 1)
  else
    let bbase := cgbno - g.fragnum cgbno
    let frags := g.numfrags size
    let s := s.setCg c {s.cgs c with frsum := fragacct g (blkmap g.frag map bbase) (s.cgs c).frsum (-1)}
    if (List.range frags).any fun i => isset map (cgbno + i) then none
    else
      let map := (List.range frags).foldl (fun map i => setbit map (cgbno + i)) map
      let s := (s.setCg c {s.cgs c with blksfree := map}).addNffree g c x frags
      let s := s.setCg c {s.cgs c with frsum := fragacct g (blkmap g.frag map bbase) (s.cgs c).frsum 1}
      -- A complete block has been reassembled.
      let fragno := g.fragstoblks bbase
      if isblock g.fragshift map fragno then
        some ((clusteracct g (s.addNffree g c x (-g.frag)) c fragno 1).addNbfree g c x 1)
      else some s

/-- `gotit` of `ffs_alloccgblk`: the block at `bno` is taken. -/
def gotit (s : Fs) (c bno : Nat) : Fs × Nat :=
  let cgx := (ufsRw32 (s.cgs c).cgx g.needswap).toNat
  let blkno := g.fragstoblks bno
  let s := s.setCg c {s.cgs c with blksfree := clrblock g.fragshift (s.cgs c).blksfree blkno}
  ((clusteracct g s c blkno (-1)).addNbfree g c cgx (-1), g.cgbase cgx + bno)

/-- A whole block of group `c`: the preferred one, or the next behind the rotor. `contig` says
that no other than the preferred will do. -/
def alloccgblk (s : Fs) (c bpref : Nat) (contig : Bool) : Option (Fs × Nat) :=
  let cgp := s.cgs c
  let search (bpref : Nat) : Option (Fs × Nat) := (mapsearch g cgp bpref g.frag).map fun found =>
    gotit g (s.setCg c {found.1 with rotor := ufsRw32 (BitVec.ofNat 32 found.2) g.needswap}) c found.2
  if bpref = 0 ∨ g.dtog bpref ≠ (ufsRw32 cgp.cgx g.needswap).toNat then search (ufsRw32 cgp.rotor g.needswap).toNat
  else
    let bpref := g.blknum bpref
    let bno := g.dtogd bpref
    if isblock g.fragshift cgp.blksfree (g.fragstoblks bno) then some (gotit g s c bno)
    else if contig then some (s, 0)
    else search bpref

/-- No run is long enough: a block is taken and all but its first `frags` fragments go back. -/
def alloccgSplit (s : Fs) (c bpref frags : Nat) (contig : Bool) : Option (Fs × Nat) :=
  (alloccgblk g s c bpref contig).map fun (s, blkno) =>
    let bno := g.dtogd blkno
    let map := (List.range (g.frag - frags)).foldl (fun map i => setbit map (bno + frags + i)) (s.cgs c).blksfree
    let s := s.setCg c {s.cgs c with blksfree := map}
    let i := g.frag - frags
    let s := s.addNffree g c c i
    (s.setCg c {s.cgs c with frsum := update (s.cgs c).frsum i (ufsAdd32 ((s.cgs c).frsum i) 1 g.needswap)}, blkno)

/-- The first `frags` fragments of a run of `allocsiz`. -/
def alloccgFrags (s : Fs) (c bpref frags allocsiz : Nat) : Option (Fs × Nat) :=
  (mapsearch g (s.cgs c) bpref allocsiz).map fun (cgp, bno) =>
    let map := (List.range frags).foldl (fun map i => clrbit map (bno + i)) cgp.blksfree
    let s := (s.setCg c {cgp with blksfree := map}).addNffree g c c (-frags)
    let add (frsum : Nat → BitVec 32) (k : Nat) (d : Int) := update frsum k (ufsAdd32 (frsum k) d g.needswap)
    let frsum := add (s.cgs c).frsum allocsiz (-1)
    let frsum := if frags ≠ allocsiz then add frsum (allocsiz - frags) 1 else frsum
    (s.setCg c {s.cgs c with frsum := frsum}, g.cgbase c + bno)

/-- A block or fragments of one, from group `c`. Of a whole block only `realsize` may be
needed. -/
def alloccg (s : Fs) (c bpref size realsize : Nat) (contig : Bool) : Option (Fs × Nat) :=
  if (s.cs c).nbfree = 0 ∧ size = g.bsize then some (s, 0)
  else if (s.cgs c).nbfree = 0 ∧ size = g.bsize then some (s, 0)
  else if size = g.bsize then
    (alloccgblk g s c bpref contig).bind fun (s, blkno) =>
      if realsize ≠ 0 ∧ realsize < size then
        (blkfreeCommon g s c (blkno + g.numfrags realsize) (size - realsize) false).map fun s => (s, blkno)
      else some (s, blkno)
  else
    let frags := g.numfrags size
    let allocsiz := ((List.range' frags (g.frag - frags)).find? fun k => (s.cgs c).frsum k ≠ 0).getD g.frag
    if allocsiz = g.frag then
      if (s.cgs c).nbfree = 0 then some (s, 0) else alloccgSplit g s c bpref frags contig
    else alloccgFrags g s c bpref frags allocsiz

/-- The fragments at `bprev` grow in place. -/
def fragextend (s : Fs) (c bprev osize nsize : Nat) : Fs × Nat :=
  let frags := g.numfrags nsize
  let ofrags := g.numfrags osize
  let bbase := g.fragnum bprev
  let bno := g.dtogd bprev
  let map := (s.cgs c).blksfree
  if (s.cs c).nffree < g.numfrags (nsize - osize) then (s, 0)
  -- It cannot extend across a block boundary.
  else if g.fragnum (bprev + frags - 1) < bbase then (s, 0)
  else if (List.range' ofrags (frags - ofrags)).any fun i => isclr map (bno + i) then (s, 0)
  else
    let i := ((List.range' frags (g.frag - bbase - frags)).find? fun i => isclr map (bno + i)).getD (max frags (g.frag - bbase))
    let add (frsum : Nat → BitVec 32) (k : Nat) (d : Int) := update frsum k (ufsAdd32 (frsum k) d g.needswap)
    let frsum := add (s.cgs c).frsum (i - ofrags) (-1)
    let frsum := if i ≠ frags then add frsum (i - frags) 1 else frsum
    let s := s.setCg c {s.cgs c with frsum := frsum}
    ((List.range (frags - ofrags)).foldl (fun s i =>
      (s.setCg c {s.cgs c with blksfree := clrbit (s.cgs c).blksfree (bno + ofrags + i)}).addNffree g c c (-1)) s, bprev)

/-- A given block, or given fragments of one; `none` is `EBUSY`. -/
def blkallocUmp (s : Fs) (bno size : Nat) : Option Fs :=
  let c := g.dtog bno
  let cgbno := g.dtogd bno
  let map := (s.cgs c).blksfree
  if size = g.bsize then
    let fragno := g.fragstoblks cgbno
    if isblock g.fragshift map fragno = false then none
    else
      let s := s.setCg c {s.cgs c with blksfree := clrblock g.fragshift map fragno}
      some ((clusteracct g s c fragno (-1)).addNbfree g c c (-1))
  else
    let bbase := cgbno - g.fragnum cgbno
    let frags := g.numfrags size
    if (List.range frags).any fun i => isclr map (cgbno + i) then none
    else
      -- A complete block is being split.
      let fragno := g.fragstoblks bbase
      let s := if isblock g.fragshift map fragno then
          (clusteracct g (s.addNffree g c c g.frag) c fragno (-1)).addNbfree g c c (-1)
        else s
      let s := s.setCg c {s.cgs c with frsum := fragacct g (blkmap g.frag map bbase) (s.cgs c).frsum (-1)}
      let map := (List.range frags).foldl (fun map i => clrbit map (cgbno + i)) map
      let s := (s.setCg c {s.cgs c with blksfree := map}).addNffree g c c (-frags)
      some (s.setCg c {s.cgs c with frsum := fragacct g (blkmap g.frag map bbase) (s.cgs c).frsum 1})

end NetBSD.Ufs.Ffs
