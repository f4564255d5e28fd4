import NetBSD.Fs.Msdosfs.Tables
import NetBSD.Fs.Msdosfs.Denode

/-! Blocks of the table at hand.

A block that has been read and changed stands for the disk with that block written. `Hand` says
that a function is at the entry of a cluster in such a block; reading the entry there is reading
it from that disk, and setting it is setting it there. Each function of `Tables` is then what it
does to the entries. -/
namespace NetBSD.Fs.Msdosfs
open Option Nat
open Lib.Bytes

namespace Msdosfsmount
variable {p : Msdosfsmount} {disk disk' T : Disk} {bp bp' : Buf} {bn bo cn size v : Nat}

/-- What is on the disk once the block is written. -/
def written (p : Msdosfsmount) (disk : Disk) : Option (Nat × Buf) → Disk
  | none => disk
  | some (bn, bp) => p.updatefats disk bp bn

/-- The size of the block at `bn`. -/
def blockSize (p : Msdosfsmount) (bn : Nat) : Nat := min p.fatblocksec (p.fatSecs - (bn - p.fatbase)) * p.bytesPerSec

theorem fatblock_size (ofs : Nat) : (p.fatblock ofs).2.1 = p.blockSize (p.fatblock ofs).1 := by
  show min _ _ * _ = min _ (p.fatSecs - (_ + p.fatbase - p.fatbase)) * _
  rw [Nat.add_sub_cancel]

theorem fatblock_addr (h : p.Mounted) (cn : Nat) : (p.fatblock (p.fatofs cn)).1 * p.bytesPerSec + (p.fatblock (p.fatofs cn)).2.2 = p.addr cn := by
  have hsize := blocksize_eq h
  show (p.fatofs cn / p.fatblocksize * p.fatblocksec + p.fatbase) * p.bytesPerSec + p.fatofs cn % p.fatblocksize = _
  rw [add_mul, mul_assoc, hsize, addr, mul_comm (p.fatofs cn / _)]
  have hdiv := div_add_mod (p.fatofs cn) p.fatblocksize
  omega

theorem bitAt_updatefats (m : Nat) : bitAt (p.updatefats disk bp bn) m =
    if 8 * (bn * p.bytesPerSec) ≤ m ∧ m < 8 * (bn * p.bytesPerSec + bp.size) then bitAt bp.data (m - 8 * (bn * p.bytesPerSec))
    else bitAt disk m := by
  unfold bitAt updatefats
  by_cases hin : 8 * (bn * p.bytesPerSec) ≤ m ∧ m < 8 * (bn * p.bytesPerSec + bp.size)
  · have hdiv : (m - 8 * (bn * p.bytesPerSec)) / 8 = m / 8 - bn * p.bytesPerSec := by omega
    have hmod : (m - 8 * (bn * p.bytesPerSec)) % 8 = m % 8 := by omega
    rw [if_pos hin, if_pos (by omega), hdiv, hmod]
  · rw [if_neg hin, if_neg (by omega)]

theorem updatefats_bread (disk : Disk) (bn size : Nat) : p.updatefats disk (p.bread disk bn size) bn = disk := by
  funext a
  unfold updatefats bread
  split
  · next hin =>
    show disk (bn * p.bytesPerSec + (a - bn * p.bytesPerSec)) = disk a
    rw [Nat.add_sub_cancel' hin.1]
  · rfl

/-- At the entry of cluster `cn`, in block `bp` at `bn`, offset `bo`; written, the block makes the
disk `T`. -/
structure Hand (p : Msdosfsmount) (T disk : Disk) (bp : Buf) (bn bo cn : Nat) : Prop where
  block : p.fatblock (p.fatofs cn) = (bn, bp.size, bo)
  written : p.updatefats disk bp bn = T

namespace Hand

theorem addr_eq (h : p.Hand T disk bp bn bo cn) (hm : p.Mounted) : bn * p.bytesPerSec + bo = p.addr cn := by
  have haddr := fatblock_addr hm cn
  rwa [h.block] at haddr

theorem room (h : p.Hand T disk bp bn bo cn) (hin : p.Inside) (hcn : p.Cluster cn) : bo + p.fatType.width ≤ bp.size := by
  have hroom := (hin cn hcn).1
  rwa [h.block] at hroom

theorem read (T : Disk) (cn : Nat) : p.Hand T T (p.bread T (p.fatblock (p.fatofs cn)).1 (p.fatblock (p.fatofs cn)).2.1)
    (p.fatblock (p.fatofs cn)).1 (p.fatblock (p.fatofs cn)).2.2 cn := ⟨rfl, updatefats_bread ..⟩

theorem bitAt_data (h : p.Hand T disk bp bn bo cn) {m : Nat} (hm : m < 8 * bp.size) : bitAt bp.data m = bitAt T (8 * (bn * p.bytesPerSec) + m) := by
  rw [← h.written, bitAt_updatefats, if_pos (by omega), Nat.add_sub_cancel_left]

theorem getEntry (h : p.Hand T disk bp bn bo cn) (hm : p.Mounted) (hin : p.Inside) (hcn : p.Cluster cn) :
    bp.getEntry p.fatType bo cn = some (p.entry T cn) := by
  have hroom := h.room hin hcn
  have haddr := h.addr_eq hm
  have hused := skip_used_le p.fatType cn
  obtain ⟨v, hv, hbits⟩ := @Buf.getEntry_spec bp p.fatType bo cn hroom
  rw [hv]
  refine congrArg some (entry_ext fun j => ?_)
  rw [hbits]
  by_cases hj : j < p.fatType.used
  · have hpos : 8 * (bn * p.bytesPerSec) + (8 * bo + p.fatType.skip cn + j) = p.pos cn + j := by
      rw [← addr_skip]
      omega
    rw [decide_eq_true hj, Bool.true_and, Bool.true_and, h.bitAt_data (by omega), hpos]
  · rw [decide_eq_false hj, Bool.false_and, Bool.false_and]

theorem wrote (h : p.Hand T disk bp bn bo cn) (hm : p.Mounted) (hin : p.Inside) (hcn : p.Cluster cn)
    (hsets : bp.Sets bp' p.fatType bo cn v) : Wrote T (p.updatefats disk bp' bn) (p.pos cn) p.fatType.used v := by
  have hroom := h.room hin hcn
  have haddr := h.addr_eq hm
  have hused := skip_used_le p.fatType cn
  have hpos : p.pos cn = 8 * (bn * p.bytesPerSec) + (8 * bo + p.fatType.skip cn) := by
    rw [← addr_skip]
    omega
  intro m
  rw [bitAt_updatefats, hsets.1]
  by_cases hblock : 8 * (bn * p.bytesPerSec) ≤ m ∧ m < 8 * (bn * p.bytesPerSec + bp.size)
  · have hsum : 8 * (bn * p.bytesPerSec) + (m - 8 * (bn * p.bytesPerSec)) = m := by omega
    rw [if_pos hblock, hsets.2]
    by_cases hentry : p.pos cn ≤ m ∧ m < p.pos cn + p.fatType.used
    · have hbit : m - 8 * (bn * p.bytesPerSec) - (8 * bo + p.fatType.skip cn) = m - p.pos cn := by omega
      rw [if_pos hentry, if_pos (by omega), hbit]
    · rw [if_neg hentry, if_neg (by omega), h.bitAt_data (by omega), hsum]
  · rw [if_neg hblock, if_neg (by omega), ← h.written, bitAt_updatefats, if_neg hblock]

end Hand

/-- The volume as the model of the table by numbers has it. -/
def geometry (p : Msdosfsmount) (h : p.Mounted) : Geometry where
  fatType := p.fatType
  maxcluster := p.maxcluster
  fatblocksize := p.fatblocksize
  cnshift := p.cnshift
  bnshift := p.bnshift
  firstcluster := p.firstcluster
  rootdirblk := p.rootdirblk
  rootdirsize := p.rootdirsize
  masked := h.masked
  narrow := h.narrow
  bounded := h.bounded

section Functions
variable (hm : p.Mounted) (hin : p.Inside)
include hm hin

theorem fatentry_spec (hcn : p.Cluster cn) (old : Bool) (newcontents : Nat) :
    p.fatentry disk true false cn newcontents = some (.ok (some (p.entry disk cn)), disk) ∧
    ∃ disk', p.fatentry disk old true cn newcontents = some (.ok (if old then some (p.entry disk cn) else none), disk') ∧
      Wrote disk disk' (p.pos cn) p.fatType.used newcontents := by
  have hhand := @Hand.read p disk cn
  have hget := hhand.getEntry hm hin hcn
  obtain ⟨bp', hset, hsets⟩ := @Buf.setEntry_spec _ p.fatType _ cn newcontents (hhand.room hin hcn)
  have hout : ¬(cn < CLUST_FIRST ∨ p.maxcluster < cn) := not_or.mpr ⟨Nat.not_lt.mpr hcn.1, Nat.not_lt.mpr hcn.2⟩
  constructor
  · unfold fatentry
    rw [if_neg hout]
    dsimp only
    rw [hget]
    rfl
  refine ⟨p.updatefats disk bp' (p.fatblock (p.fatofs cn)).1, ?_, hhand.wrote hm hin hcn hsets⟩
  unfold fatentry
  rw [if_neg hout]
  dsimp only
  rw [hget, hset]
  cases old <;> rfl

omit hm hin in
theorem fatblock_same {ofs d : Nat} (h : ofs % p.fatblocksize + d < p.fatblocksize) : p.fatblock (ofs + d) =
    ((p.fatblock ofs).1, (p.fatblock ofs).2.1, ofs % p.fatblocksize + d) := by
  have hpos : 0 < p.fatblocksize := by omega
  have hsplit : ofs + d = ofs % p.fatblocksize + d + p.fatblocksize * (ofs / p.fatblocksize) := by
    have hdiv := mod_add_div ofs p.fatblocksize
    omega
  have hquot : (ofs + d) / p.fatblocksize = ofs / p.fatblocksize := by
    rw [hsplit, add_mul_div_left _ _ hpos, div_eq_of_lt h, zero_add]
  have hmod : (ofs + d) % p.fatblocksize = ofs % p.fatblocksize + d := by
    rw [hsplit, add_mul_mod_self_left, mod_eq_of_lt h]
  unfold fatblock
  dsimp only
  rw [hquot, hmod]

omit hin in
theorem fatblock_next {ofs bn size bo d : Nat} (h : p.fatblock ofs = (bn, size, bo)) (hd : bo + d < size) :
    p.fatblock (ofs + d) = (bn, size, bo + d) := by
  have hsize := blocksize_eq hm
  obtain ⟨hbn, hrest⟩ := Prod.mk.inj h
  obtain ⟨hsz, hbo⟩ := Prod.mk.inj hrest
  have hle : size ≤ p.fatblocksize := by
    rw [← hsz, ← hsize]
    exact Nat.mul_le_mul_right _ (min_le_left ..)
  rw [fatblock_same (by omega), h, hbo]

omit hm hin in
theorem fatofs_succ (cn : Nat) : p.fatofs (cn + 1) = p.fatofs cn + p.step (cn + 1) := by
  unfold fatofs step
  cases p.fatType with
  | fat12 =>
    show (cn + 1) * 3 / 2 = cn * 3 / 2 + if cn + 1 &&& 1 ≠ 0 then 1 else 2
    rw [and_one_is_mod]
    split <;> omega
  | fat16 =>
    show (cn + 1) * 2 / 1 = cn * 2 / 1 + 2
    omega
  | fat32 =>
    show (cn + 1) * 4 / 1 = cn * 4 / 1 + 4
    omega

omit hm hin in
theorem chained_zero (g : Geometry) (fat : Nat → Nat) (start fillwith : Nat) : g.chained fat start 0 fillwith = fat := by
  funext c
  exact if_neg (by omega)

theorem chainLoop_spec (hh : p.Hand T disk bp bn bo cn) (n fillwith : Nat) (hcl : ∀ i ≤ n, p.Cluster (cn + i)) :
    ∃ disk', p.chainLoop fillwith (n + 1) cn bn bp bo disk = some disk' ∧
      p.entry disk' = (p.geometry hm).chained (p.entry T) cn (n + 1) fillwith ∧ p.Frame T disk' := by
  induction n generalizing T disk bp bn bo cn with
  | zero =>
    have hcn := hcl 0 (le_refl _)
    obtain ⟨bp', hset, hsets⟩ := @Buf.chainEntry_spec bp p.fatType bo cn fillwith (hh.room hin hcn)
    have hwrote := hh.wrote hm hin hcn hsets
    refine ⟨p.updatefats disk bp' bn, ?_, ?_, frame_wrote hcn hwrote⟩
    · unfold chainLoop
      dsimp only
      rw [if_neg (lt_irrefl 0), hset, bind_some, if_pos rfl]
    · rw [entry_wrote hwrote, ← Mount.chained_succ, chained_zero]
      rfl
  | succ n ih =>
    have hcn := hcl 0 (zero_le _)
    obtain ⟨bp', hset, hsets⟩ := @Buf.chainEntry_spec bp p.fatType bo cn (cn + 1) (hh.room hin hcn)
    have hwrote := hh.wrote hm hin hcn hsets
    have hentry := entry_wrote hwrote
    have hcl' (i : Nat) (hi : i ≤ n) : p.Cluster (cn + 1 + i) := by
      have hnext := hcl (i + 1) (by omega)
      rwa [add_right_comm]
    -- Whatever block is at hand next, it stands for the disk with the entry set.
    have hdone (disk₂ : Disk) (bp₂ : Buf) (bn₂ bo₂ : Nat) (hh₂ : p.Hand (p.updatefats disk bp' bn) disk₂ bp₂ bn₂ bo₂ (cn + 1)) :
        ∃ disk', p.chainLoop fillwith (n + 1) (cn + 1) bn₂ bp₂ bo₂ disk₂ = some disk' ∧
          p.entry disk' = (p.geometry hm).chained (p.entry T) cn (n + 1 + 1) fillwith ∧ p.Frame T disk' := by
      obtain ⟨disk', hrun, hchain, hframe⟩ := ih hh₂ hcl'
      refine ⟨disk', hrun, ?_, (frame_wrote hcn hwrote).trans hframe⟩
      have hlink := @Mount.chained_succ (p.geometry hm) (p.entry T) cn (n + 1) fillwith
      rw [hchain, hentry]
      exact hlink
    unfold chainLoop
    dsimp only
    rw [if_pos (succ_pos n), hset, bind_some]
    by_cases hend : bp'.size ≤ bo + p.step (cn + 1)
    · rw [if_pos hend]
      exact hdone _ _ _ _ (Hand.read _ (cn + 1))
    rw [if_neg hend]
    refine hdone disk bp' bn _ ⟨?_, rfl⟩
    have hsame := hh.block
    rw [← hsets.1] at hsame
    rw [fatofs_succ]
    exact fatblock_next hm hsame (Nat.lt_of_not_le hend)

theorem fatchain_spec {start count : Nat} (hstart : CLUST_FIRST ≤ start) (hcount : 0 < count) (hlast : start + count - 1 ≤ p.maxcluster)
    (disk : Disk) (fillwith : Nat) : ∃ disk', p.fatchain disk start count fillwith = some (.ok (), disk') ∧
      p.entry disk' = (p.geometry hm).chained (p.entry disk) start count fillwith ∧ p.Frame disk disk' := by
  obtain ⟨n, rfl⟩ := exists_eq_succ_of_ne_zero hcount.ne'
  have hcl (i : Nat) (hi : i ≤ n) : p.Cluster (start + i) := ⟨by omega, by omega⟩
  obtain ⟨disk', hrun, hchain, hframe⟩ := chainLoop_spec hm hin (Hand.read disk start) n fillwith hcl
  refine ⟨disk', ?_, hchain, hframe⟩
  unfold fatchain
  rw [if_neg (by omega)]
  dsimp only
  rw [hrun]
  rfl

omit hm hin in
/-- The block at hand is the one at `bn`, as it is on the disk. -/
def Fresh (p : Msdosfsmount) (disk : Disk) (hand : Option (Nat × Buf)) : Prop :=
  ∀ bn bp, hand = some (bn, bp) → bp = p.bread disk bn (p.blockSize bn)

theorem follow_spec {hand : Option (Nat × Buf)} (hfresh : p.Fresh disk hand) (hcn : p.Cluster cn) :
    ∃ hand', p.follow disk hand cn = some (some (p.entry disk cn), hand') ∧ p.Fresh disk (some hand') := by
  have hhand := @Hand.read p disk cn
  have hget := hhand.getEntry hm hin hcn
  have hroom := hhand.room hin hcn
  have hwidth : 0 < p.fatType.width := by
    unfold FatType.width
    split <;> decide
  have hbefore : (p.fatblock (p.fatofs cn)).2.2 < (p.fatblock (p.fatofs cn)).2.1 :=
    lt_of_lt_of_le (Nat.lt_add_of_pos_right hwidth) hroom
  -- The block at hand is the block that would be read.
  have hblock : p.blockFor disk hand (p.fatblock (p.fatofs cn)).1 (p.fatblock (p.fatofs cn)).2.1 =
      p.bread disk (p.fatblock (p.fatofs cn)).1 (p.fatblock (p.fatofs cn)).2.1 := by
    cases hand with
    | none => rfl
    | some held =>
      obtain ⟨bpBn, bp⟩ := held
      unfold blockFor
      dsimp only
      by_cases hsame : (p.fatblock (p.fatofs cn)).1 = bpBn
      · rw [if_neg (not_not.mpr hsame), hfresh bpBn bp rfl, ← hsame, fatblock_size]
      · rw [if_pos hsame]
  refine ⟨((p.fatblock (p.fatofs cn)).1, p.bread disk (p.fatblock (p.fatofs cn)).1 (p.fatblock (p.fatofs cn)).2.1), ?_, ?_⟩
  · unfold follow
    dsimp only
    rw [hblock, if_neg (Nat.not_le.mpr hbefore), hget]
    rfl
  · intro bn bp heq
    obtain ⟨rfl, rfl⟩ := Prod.mk.inj (some.inj heq)
    rw [fatblock_size]

omit hin in
/-- The walk over the numbers of a table. -/
def Walked.of : Denode.Walk → Walked
  | .found i cn => .found i cn
  | .hiteof i prevcn => .hiteof i prevcn
  | .inval => .inval

theorem walk_eq (m : Mount (p.geometry hm)) (hfat : m.fat = p.entry disk) (n i cn prevcn : Nat) {hand : Option (Nat × Buf)}
    (hfresh : p.Fresh disk hand) : p.walk disk n i cn prevcn hand = some (Walked.of (Denode.walk m n i cn prevcn)) := by
  induction n generalizing i cn prevcn hand with
  | zero =>
    unfold walk Denode.walk
    by_cases heof : (p.geometry hm).Eof cn
    · have heof' : cn &&& CLUST_EOFS = CLUST_EOFS &&& p.fatType.mask := heof
      rw [if_neg (not_not.mpr heof), if_neg (not_not.mpr heof')]
      rfl
    · have heof' : ¬cn &&& CLUST_EOFS = CLUST_EOFS &&& p.fatType.mask := heof
      rw [if_pos heof, if_pos heof']
      rfl
  | succ n ih =>
    unfold walk Denode.walk
    by_cases hrsrvd : cn ≥ CLUST_RSRVD &&& p.fatType.mask
    · have hrsrvd' : cn ≥ CLUST_RSRVD &&& (p.geometry hm).fatmask := hrsrvd
      rw [if_pos hrsrvd, if_pos hrsrvd']
      rfl
    have hrsrvd' : ¬cn ≥ CLUST_RSRVD &&& (p.geometry hm).fatmask := hrsrvd
    rw [if_neg hrsrvd, if_neg hrsrvd']
    by_cases hout : cn < CLUST_FIRST ∨ p.maxcluster < cn
    · have hout' : cn < CLUST_FIRST ∨ (p.geometry hm).maxcluster < cn := hout
      rw [if_pos hout, if_pos hout']
      rfl
    have hout' : ¬(cn < CLUST_FIRST ∨ (p.geometry hm).maxcluster < cn) := hout
    obtain ⟨hlow, hhigh⟩ := not_or.mp hout
    obtain ⟨hand', hfollow, hfresh'⟩ := follow_spec hm hin hfresh ⟨Nat.le_of_not_lt hlow, Nat.le_of_not_lt hhigh⟩
    rw [if_neg hout, if_neg hout', hfollow, hfat]
    exact ih _ _ _ hfresh'

omit hm hin in
theorem step_le (cn : Nat) : p.step cn ≤ p.fatType.width := by
  unfold step FatType.width
  cases p.fatType with
  | fat12 =>
    dsimp only
    split <;> decide
  | fat16 => exact le_refl 2
  | fat32 => exact le_refl 4

/-- `fillinusemap` has the block of its cluster at hand, though it looks only where it begins. -/
theorem freeClusters_spec (n : Nat) (hand : Option Buf) (hcl : ∀ i < n, p.Cluster (cn + i))
    (hhand : ∀ bp, hand = some bp → p.fatofs cn % p.fatblocksize ≠ 0 →
      bp = p.bread disk (p.fatblock (p.fatofs cn)).1 (p.fatblock (p.fatofs cn)).2.1) :
    p.freeClusters disk n cn hand = some ((List.range' cn n).filter fun c => p.entry disk c = 0) := by
  induction n generalizing cn hand with
  | zero => rfl
  | succ n ih =>
    have hcn := hcl 0 (succ_pos n)
    have hread := @Hand.read p disk cn
    have hget := hread.getEntry hm hin hcn
    have hblock : p.blockAt disk hand (p.fatblock (p.fatofs cn)).1 (p.fatblock (p.fatofs cn)).2.1 (p.fatofs cn % p.fatblocksize) =
        p.bread disk (p.fatblock (p.fatofs cn)).1 (p.fatblock (p.fatofs cn)).2.1 := by
      cases hand with
      | none => rfl
      | some bp =>
        unfold blockAt
        dsimp only
        by_cases hzero : p.fatofs cn % p.fatblocksize = 0
        · rw [if_pos hzero]
        · rw [if_neg hzero]
          exact hhand bp rfl hzero
    have hnext := @ih (cn + 1) (some (p.bread disk (p.fatblock (p.fatofs cn)).1 (p.fatblock (p.fatofs cn)).2.1))
      (fun i hi => by
        have hlater := hcl (i + 1) (by omega)
        rwa [add_right_comm])
      (fun bp hbp hne => by
        obtain rfl := some.inj hbp
        have hwhole : p.fatofs cn % p.fatblocksize + p.fatType.width ≤ p.fatblocksize :=
          ((@in_block_iff p (p.fatofs cn) p.width hm (by unfold width; split <;> decide)).mp (hin cn hcn).1).1
        have hstep := @step_le p (cn + 1)
        rw [fatofs_succ] at hne ⊢
        -- The step stays in the block, or ends exactly where it does.
        have hlt : p.fatofs cn % p.fatblocksize + p.step (cn + 1) < p.fatblocksize := by
          refine lt_of_le_of_ne (by omega) fun hend => hne ?_
          rw [add_mod, ← mod_mod_of_dvd (p.fatofs cn) (dvd_refl _), ← add_mod, hend, mod_self]
        rw [fatblock_same hlt])
    unfold freeClusters
    dsimp only
    have hget' : (p.bread disk (p.fatblock (p.fatofs cn)).1 (p.fatblock (p.fatofs cn)).2.1).getEntry p.fatType
        (p.fatofs cn % p.fatblocksize) cn = some (p.entry disk cn) := hget
    rw [hblock, hget', bind_some, hnext, map_some, List.range'_succ, List.filter_cons]
    by_cases hfree : p.entry disk cn = 0
    · rw [if_pos hfree, if_pos (decide_eq_true hfree)]
    · rw [if_neg hfree, if_neg (by simpa using hfree)]

theorem fillinusemap_spec (disk : Disk) : p.fillinusemap disk =
    some ((List.range' CLUST_FIRST (p.maxcluster + 1 - CLUST_FIRST)).filter fun c => p.entry disk c = 0) :=
  freeClusters_spec hm hin _ none (fun i hi => ⟨Nat.le_add_right .., by omega⟩) (fun _ h => absurd h (by simp))

end Functions

end Msdosfsmount

end NetBSD.Fs.Msdosfs
