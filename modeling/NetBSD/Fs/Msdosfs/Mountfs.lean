import NetBSD.Fs.Msdosfs.Fat
import NetBSD.Lib.Bytes
import Mathlib.Data.Nat.Bitwise
import Mathlib.Data.Nat.ModEq

/-! Mounting a volume, and where the entries of its table are.

The model of `msdosfs_mountfs` as far as the table goes: what is read from the boot sector, the
checks, and the blocks in which the table is read. `Mounted` is what a volume that is accepted
keeps to. `inside_iff` says when every entry lies in the block that `fatblock` names for it: the
check of the size rounds down, and an entry of 12 bits may end in the byte behind the bytes that
it has counted. -/
namespace NetBSD.Fs.Msdosfs
open Nat
open Lib.Bytes

abbrev DEV_BSIZE : Nat := 512
abbrev GEMDOSFS_BSIZE : Nat := 512
abbrev FATMIRROR : Nat := 0x80
abbrev FATNUM : Nat := 0xf

abbrev getushort (p : Nat → BitVec 8) (i : Nat) : Nat := le16dec p i

abbrev getulong (p : Nat → BitVec 8) (i : Nat) : Nat := le32dec p i

def powerof2 (x : Nat) : Bool := x - 1 &&& x == 0

def howmany (x y : Nat) : Nat := (x + (y - 1)) / y

/-- The fields of `struct msdosfsmount` that mounting computes. -/
structure Msdosfsmount where
  fatType : FatType
  bytesPerSec : Nat
  fatSecs : Nat
  curfat : Nat
  fatblk : Nat
  rootdirblk : Nat
  rootdirsize : Nat
  firstcluster : Nat
  maxcluster : Nat
  fatblocksize : Nat
  fatblocksec : Nat
  cnshift : Nat
  bnshift : Nat

/-- The size of the disk and of its sectors; not all devices say it. -/
def diskSize (gemdos : Bool) (disksize : Option (Nat × Nat)) : Option (Nat × Nat) :=
  match disksize with
  | none => if gemdos then none else some (0, DEV_BSIZE)
  | some (psize, secsize) =>
    if secsize < DEV_BSIZE ∨ gemdos ∧ secsize ≠ GEMDOSFS_BSIZE then none else some (psize, secsize)

/-- The BIOS parameter block, with what mounting makes of its fields. -/
structure Bpb where
  secPerClust : Nat
  bytesPerSec : Nat
  resSectors : Nat
  numFats : Nat
  rootDirEnts : Nat
  sectors : Nat
  fatSecs : Nat
  secPerTrack : Nat
  hugeSectors : Nat

/-- The block begins behind the jump and the name, at byte 11. -/
def readBpb (bs : Nat → BitVec 8) : Bpb :=
  let sectors := getushort bs 19
  { secPerClust := (bs 13).toNat
    bytesPerSec := getushort bs 11
    resSectors := getushort bs 14
    numFats := (bs 16).toNat
    rootDirEnts := getushort bs 17
    sectors := sectors
    fatSecs := getushort bs 22
    secPerTrack := getushort bs 24
    hugeSectors := if sectors = 0 then getulong bs 32 else sectors }

/-- Sectors of a GEMDOS volume become blocks of the disk. -/
def gemdosBpb (b : Bpb) (psize : Nat) : Option Bpb :=
  let blkPerSec := b.bytesPerSec / GEMDOSFS_BSIZE
  if b.bytesPerSec < GEMDOSFS_BSIZE ∨ psize < b.hugeSectors * blkPerSec % 2 ^ 32 then none
  else some {b with
    bytesPerSec := GEMDOSFS_BSIZE
    hugeSectors := b.hugeSectors * blkPerSec % 2 ^ 32
    resSectors := b.resSectors * blkPerSec % 2 ^ 16
    sectors := b.sectors * blkPerSec % 2 ^ 16
    fatSecs := b.fatSecs * blkPerSec
    secPerClust := b.secPerClust * blkPerSec % 2 ^ 8}

/-- The width of the entries: 32 bits by the kind of the volume, or by the number of clusters. -/
def widthOf (gemdos fat32 : Bool) (nmbrofclusters maxcluster : Nat) : FatType :=
  if fat32 then .fat32
  else if gemdos then if nmbrofclusters ≤ 0xff0 - 2 then .fat12 else .fat16
  else if maxcluster ≤ (CLUST_RSRVD - CLUST_FIRST) &&& FatType.fat12.mask then .fat12 else .fat16

/-- The part of mounting behind the width of the entries: the table is large enough, and the blocks
in which it is read. -/
def sizeTable (b : Bpb) (fatType : FatType) (maxcluster curfat rootdirblk rootdirsize firstcluster : Nat) : Option Msdosfsmount :=
  let fatbytes := (maxcluster + 1) * fatType.mult / fatType.div
  let fatblocksecs := howmany fatbytes b.bytesPerSec
  let fatblocksec := if fatType = .fat12 then min 3 fatblocksecs else MAXBSIZE / b.bytesPerSec
  let bpcluster := b.secPerClust * b.bytesPerSec
  let cnshift := Lib.ffs (BitVec.ofNat 32 bpcluster) - 1
  if maxcluster &&& fatType.mask ≠ maxcluster then none
  else if b.fatSecs < fatblocksecs then none
  else if bpcluster ≠ 2 ^ cnshift ∨ MAXBSIZE < bpcluster then none
  else
    some {
      fatType := fatType
      bytesPerSec := b.bytesPerSec
      fatSecs := b.fatSecs
      curfat := curfat
      fatblk := b.resSectors
      rootdirblk := rootdirblk
      rootdirsize := rootdirsize
      firstcluster := firstcluster
      maxcluster := maxcluster
      fatblocksize := if fatType = .fat12 then fatblocksec * b.bytesPerSec else MAXBSIZE
      fatblocksec := fatblocksec
      cnshift := cnshift
      bnshift := Lib.ffs (BitVec.ofNat 32 b.bytesPerSec) - 1 }

/-- The part of mounting from the size of the table on. -/
def mountTable (gemdos fat32 : Bool) (curfat rootClust : Nat) (b : Bpb) : Option Msdosfsmount :=
  if b.fatSecs = 0 then none
  else
    let tables := b.resSectors + b.numFats * b.fatSecs
    let rootdirsize := if fat32 then 0 else (b.rootDirEnts * 32 + b.bytesPerSec - 1) / b.bytesPerSec
    let firstcluster := tables + rootdirsize
    let nmbrofclusters := ulong (b.hugeSectors + 2 ^ 64 - firstcluster) / b.secPerClust
    let maxcluster := ulong (nmbrofclusters + 1)
    sizeTable b (widthOf gemdos fat32 nmbrofclusters maxcluster) maxcluster curfat (if fat32 then rootClust else tables) rootdirsize firstcluster

/-- `none` is a volume that is refused. -/
def msdosfsMountfs (gemdos : Bool) (disksize : Option (Nat × Nat)) (bs : Nat → BitVec 8) : Option Msdosfsmount :=
  (diskSize gemdos disksize).bind fun (psize, _) =>
    let b := readBpb bs
    if gemdos = false ∧ ((bs 510).toNat ≠ 0x55 ∨ (bs 511).toNat ≠ 0xaa) then none
    else if b.secPerClust = 0 ∨ powerof2 b.secPerClust = false ∨ b.bytesPerSec = 0 ∨ powerof2 b.bytesPerSec = false ∨
        MAXBSIZE < b.secPerClust * b.bytesPerSec ∨ b.hugeSectors = 0 then none
    else if gemdos = false ∧ 63 < b.secPerTrack then none
    else if b.rootDirEnts = 0 then
      let extFlags := getushort bs 40
      if b.sectors ≠ 0 ∨ b.fatSecs ≠ 0 ∨ getushort bs 42 ≠ 0 then none
      -- GEMDOS doesn't know FAT32.
      else if gemdos then none
      else
        -- With mirroring the first table is the one in use.
        let curfat := if extFlags &&& FATMIRROR = 0 then 0 else extFlags &&& FATNUM
        mountTable gemdos true curfat (getulong bs 44) {b with fatSecs := getulong bs 36}
    else if gemdos then (gemdosBpb b psize).bind (mountTable gemdos false 0 0)
    else mountTable gemdos false 0 0 b

namespace Msdosfsmount
variable (p : Msdosfsmount)

def fatofs (cn : Nat) : Nat := cn * p.fatType.mult / p.fatType.div

/-- The first sector of the table in use. -/
def fatbase : Nat := p.fatblk + p.curfat * p.fatSecs

/-- The block with byte `ofs` of the table: its sector, its size, and the offset in it. -/
def fatblock (ofs : Nat) : Nat × Nat × Nat :=
  let bn := ofs / p.fatblocksize * p.fatblocksec
  let size := min p.fatblocksec (p.fatSecs - bn) * p.bytesPerSec
  (bn + p.fatbase, size, ofs % p.fatblocksize)

/-- The bytes that are read for an entry. -/
def width : Nat := if p.fatType = .fat32 then 4 else 2

def Cluster (cn : Nat) : Prop := CLUST_FIRST ≤ cn ∧ cn ≤ p.maxcluster

instance (cn : Nat) : Decidable (p.Cluster cn) := inferInstanceAs (Decidable (_ ∧ _))

/-- Bytes of the table that its check asks for, and the sectors they are in. -/
def fatbytes : Nat := (p.maxcluster + 1) * p.fatType.mult / p.fatType.div

def fatblocksecs : Nat := howmany p.fatbytes p.bytesPerSec

/-- What a volume that is mounted keeps to. -/
structure Mounted : Prop where
  masked : p.maxcluster &&& p.fatType.mask = p.maxcluster
  narrow : p.fatType = .fat12 → p.maxcluster ≤ (CLUST_RSRVD - CLUST_FIRST) &&& p.fatType.mask
  secs : p.fatblocksecs ≤ p.fatSecs
  power : ∃ k ≤ 16, p.bytesPerSec = 2 ^ k
  blocksec : p.fatblocksec = if p.fatType = .fat12 then min 3 p.fatblocksecs else MAXBSIZE / p.bytesPerSec
  blocksize : p.fatblocksize = if p.fatType = .fat12 then p.fatblocksec * p.bytesPerSec else MAXBSIZE
  bounded : 2 ^ p.cnshift ≤ MAXBSIZE

/-- The last entry ends in the byte behind those that were counted, and they fill the blocks they
are read in: one or two sectors of 12-bit entries, or all of the table. -/
def Overrun : Prop := p.fatType = .fat12 ∧ p.Cluster p.maxcluster ∧ p.maxcluster % 2 = 0 ∧ p.fatbytes = p.fatblocksecs * p.bytesPerSec ∧
    (p.fatblocksecs < 3 ∨ p.fatSecs = p.fatblocksecs)

instance : Decidable p.Overrun := inferInstanceAs (Decidable (_ ∧ _))

/-- The bytes of every entry are in the block that is read for it, and in the table. -/
def Inside : Prop := ∀ cn, p.Cluster cn → (p.fatblock (p.fatofs cn)).2.2 + p.width ≤ (p.fatblock (p.fatofs cn)).2.1 ∧
    p.fatofs cn + p.width ≤ p.fatSecs * p.bytesPerSec

/-! ### Where the entries are -/

section Places
variable {p} {cn ofs w : Nat}

section
variable (h : p.Mounted)
include h

theorem bytesPerSec_pos : 0 < p.bytesPerSec := by
  obtain ⟨k, -, hk⟩ := h.power
  rw [hk]
  exact Nat.two_pow_pos k

theorem blocksize_eq : p.fatblocksec * p.bytesPerSec = p.fatblocksize := by
  by_cases h12 : p.fatType = .fat12
  · rw [h.blocksize, if_pos h12]
  obtain ⟨k, hle, hk⟩ := h.power
  rw [h.blocksize, h.blocksec, if_neg h12, if_neg h12]
  refine Nat.div_mul_cancel ?_
  rw [hk]
  exact Nat.pow_dvd_pow 2 hle

theorem in_block_iff (hw : 0 < w) : (p.fatblock ofs).2.2 + w ≤ (p.fatblock ofs).2.1 ↔
    ofs % p.fatblocksize + w ≤ p.fatblocksize ∧ ofs + w ≤ p.fatSecs * p.bytesPerSec := by
  have hsize := blocksize_eq h
  have hsplit : ofs / p.fatblocksize * p.fatblocksec * p.bytesPerSec + ofs % p.fatblocksize = ofs := by
    rw [mul_assoc, hsize, mul_comm]
    exact div_add_mod ofs p.fatblocksize
  show _ + w ≤ min p.fatblocksec (p.fatSecs - ofs / p.fatblocksize * p.fatblocksec) * p.bytesPerSec ↔ _
  rw [← Nat.mul_min_mul_right, Nat.le_min, hsize, Nat.sub_mul]
  refine and_congr_right fun _ => ?_
  show ofs % p.fatblocksize + w ≤ _ ↔ _
  omega

theorem fatbytes_le : p.fatbytes ≤ p.fatblocksecs * p.bytesPerSec := by
  have hpos := bytesPerSec_pos h
  have hdiv := lt_div_mul_add hpos (a := p.fatbytes + (p.bytesPerSec - 1))
  show _ ≤ (p.fatbytes + (p.bytesPerSec - 1)) / p.bytesPerSec * p.bytesPerSec
  omega

theorem sectors_le : p.fatblocksecs * p.bytesPerSec ≤ p.fatSecs * p.bytesPerSec :=
  Nat.mul_le_mul_right _ h.secs

theorem inside_wide (h12 : p.fatType ≠ .fat12) : p.Inside := by
  intro cn hcn
  have hle := fatbytes_le h
  have hsecs := sectors_le h
  have hofs : p.fatofs cn = cn * p.width ∧ p.fatbytes = (p.maxcluster + 1) * p.width ∧ p.width ∣ p.fatblocksize := by
    rw [h.blocksize, if_neg h12]
    unfold fatofs fatbytes width
    cases hty : p.fatType with
    | fat12 => exact absurd hty h12
    | fat16 => exact ⟨Nat.div_one _, Nat.div_one _, by decide⟩
    | fat32 => exact ⟨Nat.div_one _, Nat.div_one _, by decide⟩
  obtain ⟨hofs, hbytes, hdvd⟩ := hofs
  have hw : 0 < p.width := by
    unfold width
    split <;> decide
  have hend : p.fatofs cn + p.width ≤ p.fatSecs * p.bytesPerSec := by
    have hlast : (cn + 1) * p.width ≤ (p.maxcluster + 1) * p.width := Nat.mul_le_mul_right _ (succ_le_succ hcn.2)
    rw [succ_mul] at hlast
    omega
  refine ⟨(in_block_iff h hw).mpr ⟨?_, hend⟩, hend⟩
  obtain ⟨a, ha⟩ := hdvd
  rw [hofs, ha, mul_comm cn, mul_mod_mul_left]
  have hblock : 0 < a := by
    rcases Nat.eq_zero_or_pos a with rfl | hpos
    · rw [h.blocksize, if_neg h12, mul_zero] at ha
      exact absurd ha (by decide)
    · exact hpos
  have hlt : cn % a + 1 ≤ a := mod_lt cn hblock
  calc p.width * (cn % a) + p.width = p.width * (cn % a + 1) := (mul_succ ..).symm
    _ ≤ p.width * a := Nat.mul_le_mul_left _ hlt

/-- Entries of 12 bits: in a block of three sectors they are whole, so that only the end of the
table matters; in one or two sectors, the end of those. -/
theorem inside_narrow_iff (h12 : p.fatType = .fat12) : p.Inside ↔ ¬p.Overrun := by
  have hpos := bytesPerSec_pos h
  have hle := fatbytes_le h
  have hsecs := sectors_le h
  have hofs (cn : Nat) : p.fatofs cn = cn * 3 / 2 := by
    rw [fatofs, h12]
    rfl
  have hbytes : p.fatbytes = (p.maxcluster + 1) * 3 / 2 := by
    rw [fatbytes, h12]
    rfl
  have hwidth : p.width = 2 := by
    rw [width, h12]
    rfl
  have hsize := blocksize_eq h
  rw [h.blocksec, if_pos h12] at hsize
  have hsame : p.fatSecs * p.bytesPerSec = p.fatblocksecs * p.bytesPerSec ↔ p.fatSecs = p.fatblocksecs :=
    Nat.mul_left_inj hpos.ne'
  -- An entry that is not the last, or an odd last one, ends in the bytes that were counted.
  have hends (cn : Nat) (hcn : p.Cluster cn) (hlast : cn ≠ p.maxcluster ∨ p.maxcluster % 2 = 1) : cn * 3 / 2 + 2 ≤ p.fatbytes := by
    have hmax := hcn.2
    omega
  have hlast (heven : p.maxcluster % 2 = 0) : p.maxcluster * 3 / 2 + 1 = p.fatbytes := by omega
  have hin (cn : Nat) : ((p.fatblock (p.fatofs cn)).2.2 + p.width ≤ (p.fatblock (p.fatofs cn)).2.1 ∧
      p.fatofs cn + p.width ≤ p.fatSecs * p.bytesPerSec) ↔
      cn * 3 / 2 % p.fatblocksize + 2 ≤ p.fatblocksize ∧ cn * 3 / 2 + 2 ≤ p.fatSecs * p.bytesPerSec := by
    rw [in_block_iff h (by rw [hwidth]; decide), hofs, hwidth]
    exact and_iff_left_of_imp And.right
  unfold Inside
  simp only [hin]
  by_cases hthree : 3 ≤ p.fatblocksecs
  · rw [min_eq_left hthree] at hsize
    have hwhole (cn : Nat) : cn * 3 / 2 % p.fatblocksize + 2 ≤ p.fatblocksize := by
      have hlt := mod_lt (cn * 3 / 2) (y := p.fatblocksize) (by omega)
      have hmod : cn * 3 / 2 % p.fatblocksize % 3 = cn * 3 / 2 % 3 := mod_mod_of_dvd _ ⟨p.bytesPerSec, hsize.symm⟩
      omega
    constructor
    · intro hall hover
      obtain ⟨-, hcl, heven, hfull, hshort⟩ := hover
      have hlastin := (hall _ hcl).2
      have hequal := hsame.mpr (hshort.resolve_left (Nat.not_lt.mpr hthree))
      have hcounted := hlast heven
      omega
    intro hnot cn hcn
    refine ⟨hwhole cn, ?_⟩
    by_cases hodd : cn ≠ p.maxcluster ∨ p.maxcluster % 2 = 1
    · have hend := hends cn hcn hodd
      omega
    obtain ⟨rfl, heven⟩ : cn = p.maxcluster ∧ p.maxcluster % 2 = 0 := by omega
    have hcounted := hlast heven
    have hroom : p.fatbytes ≠ p.fatSecs * p.bytesPerSec := fun heq =>
      hnot ⟨h12, hcn, heven, by omega, .inr (hsame.mp (by omega))⟩
    omega
  · rw [min_eq_right (by omega)] at hsize
    constructor
    · intro hall hover
      obtain ⟨-, hcl, heven, hfull, -⟩ := hover
      have hlastin := (hall _ hcl).1
      have hcounted := hlast heven
      rw [← hsize, mod_eq_of_lt (by omega)] at hlastin
      omega
    intro hnot cn hcn
    have hlt : cn * 3 / 2 < p.fatbytes := by
      have hmax := hcn.2
      omega
    rw [mod_eq_of_lt (by omega)]
    by_cases hodd : cn ≠ p.maxcluster ∨ p.maxcluster % 2 = 1
    · omega
    obtain ⟨rfl, heven⟩ : cn = p.maxcluster ∧ p.maxcluster % 2 = 0 := by omega
    have hroom : p.fatbytes ≠ p.fatblocksecs * p.bytesPerSec := fun heq =>
      hnot ⟨h12, hcn, heven, heq, .inl (Nat.lt_of_not_le hthree)⟩
    omega

theorem inside_iff : p.Inside ↔ ¬p.Overrun := by
  by_cases h12 : p.fatType = .fat12
  · exact inside_narrow_iff h h12
  · exact iff_of_true (inside_wide h h12) fun hover => h12 hover.1

end

end Places

theorem power_of_checked {x : Nat} (h0 : x ≠ 0) (h2 : powerof2 x = true) (hle : x ≤ 2 ^ 16) : ∃ k ≤ 16, x = 2 ^ k := by
  have hand : x &&& x - 1 = 0 := by
    rw [Nat.and_comm]
    simpa [powerof2] using h2
  obtain ⟨k, hk⟩ := (and_sub_one_eq_zero_iff_isPowerOfTwo h0).mp hand
  refine ⟨k, ?_, hk⟩
  rw [hk] at hle
  exact (Nat.pow_le_pow_iff_right (by decide)).mp hle

theorem widthOf_narrow {gemdos fat32 : Bool} {n : Nat} (h : widthOf gemdos fat32 n (ulong (n + 1)) = .fat12) :
    ulong (n + 1) ≤ (CLUST_RSRVD - CLUST_FIRST) &&& FatType.fat12.mask := by
  have hmod : ulong (n + 1) ≤ n + 1 := Nat.mod_le _ _
  have hlim : (0xff0 - 2) + 1 ≤ (CLUST_RSRVD - CLUST_FIRST) &&& FatType.fat12.mask := by decide
  unfold widthOf at h
  split at h
  · exact absurd h (by decide)
  split at h
  · split at h
    · next hle => omega
    · exact absurd h (by decide)
  · split at h
    · next hle => exact hle
    · exact absurd h (by decide)

theorem sizeTable_mounted {b : Bpb} {fatType : FatType} {maxcluster curfat rootdirblk rootdirsize firstcluster : Nat}
    {p : Msdosfsmount} (hpower : ∃ k ≤ 16, b.bytesPerSec = 2 ^ k)
    (hnarrow : fatType = .fat12 → maxcluster ≤ (CLUST_RSRVD - CLUST_FIRST) &&& FatType.fat12.mask)
    (h : sizeTable b fatType maxcluster curfat rootdirblk rootdirsize firstcluster = some p) : p.Mounted := by
  unfold sizeTable at h
  dsimp only at h
  by_cases hmasked : maxcluster &&& fatType.mask ≠ maxcluster
  · rw [if_pos hmasked] at h
    exact absurd h (by simp)
  by_cases hsecs : b.fatSecs < howmany ((maxcluster + 1) * fatType.mult / fatType.div) b.bytesPerSec
  · rw [if_pos hsecs] at h
    exact absurd h (by simp)
  rw [if_neg hmasked, if_neg hsecs] at h
  by_cases hcluster : b.secPerClust * b.bytesPerSec ≠ 2 ^ (Lib.ffs (BitVec.ofNat 32 (b.secPerClust * b.bytesPerSec)) - 1) ∨
      MAXBSIZE < b.secPerClust * b.bytesPerSec
  · rw [if_pos hcluster] at h
    exact absurd h (by simp)
  rw [if_neg hcluster] at h
  obtain rfl := Option.some.inj h
  obtain ⟨hcn, hbound⟩ := not_or.mp hcluster
  refine ⟨not_not.mp hmasked, fun h12 => ?_, Nat.le_of_not_lt hsecs, hpower, rfl, rfl, ?_⟩
  · obtain rfl : fatType = .fat12 := h12
    exact hnarrow rfl
  · rw [← not_not.mp hcn]
    exact Nat.le_of_not_lt hbound

theorem mountTable_mounted {gemdos fat32 : Bool} {curfat rootClust : Nat} {b : Bpb} {p : Msdosfsmount}
    (hpower : ∃ k ≤ 16, b.bytesPerSec = 2 ^ k) (h : mountTable gemdos fat32 curfat rootClust b = some p) : p.Mounted := by
  unfold mountTable at h
  by_cases hsecs : b.fatSecs = 0
  · rw [if_pos hsecs] at h
    exact absurd h (by simp)
  rw [if_neg hsecs] at h
  refine sizeTable_mounted hpower ?_ h
  exact widthOf_narrow

theorem mounted_of_mountfs {gemdos : Bool} {disksize : Option (Nat × Nat)} {bs : Nat → BitVec 8} {p : Msdosfsmount}
    (h : msdosfsMountfs gemdos disksize bs = some p) : p.Mounted := by
  obtain ⟨⟨psize, secsize⟩, -, h⟩ := Option.bind_eq_some_iff.mp h
  dsimp only at h
  split at h
  · exact absurd h (by simp)
  split at h
  · exact absurd h (by simp)
  · next hchecks =>
    have hpower : ∃ k ≤ 16, (readBpb bs).bytesPerSec = 2 ^ k := by
      obtain ⟨hclust, -, h0, h2, hle, -⟩ : (readBpb bs).secPerClust ≠ 0 ∧ _ ∧ (readBpb bs).bytesPerSec ≠ 0 ∧
          powerof2 (readBpb bs).bytesPerSec = true ∧ (readBpb bs).secPerClust * (readBpb bs).bytesPerSec ≤ MAXBSIZE ∧ _ := by
        simpa [not_or] using hchecks
      refine power_of_checked h0 h2 ?_
      have hmul := Nat.le_mul_of_pos_left (readBpb bs).bytesPerSec (Nat.pos_of_ne_zero hclust)
      exact hmul.trans hle
    split at h
    · exact absurd h (by simp)
    split at h
    · split at h
      · exact absurd h (by simp)
      split at h
      · exact absurd h (by simp)
      · exact mountTable_mounted (b := {readBpb bs with fatSecs := getulong bs 36}) hpower h
    split at h
    · obtain ⟨b, hb, h⟩ := Option.bind_eq_some_iff.mp h
      refine mountTable_mounted ⟨9, by decide, ?_⟩ h
      unfold gemdosBpb at hb
      dsimp only at hb
      split at hb
      · exact absurd hb (by simp)
      · obtain rfl := Option.some.inj hb
        rfl
    · exact mountTable_mounted hpower h

end Msdosfsmount

end NetBSD.Fs.Msdosfs
