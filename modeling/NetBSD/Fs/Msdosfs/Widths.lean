import NetBSD.Fs.Msdosfs.Blocks

/-! Freeing a chain, block by block.

`freeclusterchain` follows the links while it sets them to 0. A chain that runs into itself comes
to an entry that is 0 already, so that every cluster the links lead to is freed and the loop
ends. -/
namespace NetBSD.Fs.Msdosfs
open Function Option
open Lib.Bytes

namespace Msdosfsmount
variable {p : Msdosfsmount} {disk disk' : Disk}

/-- The clusters that the links lead to from `start`, as long as they lead to clusters. -/
inductive OnChain (p : Msdosfsmount) (fat : Nat → Nat) (start : Nat) : Nat → Prop
  | start (h : p.Cluster start) : OnChain p fat start start
  | next {c : Nat} (h : OnChain p fat start c) (hc : p.Cluster (fat c)) : OnChain p fat start (fat c)

theorem OnChain.cluster {fat : Nat → Nat} {start c : Nat} (h : p.OnChain fat start c) : p.Cluster c := by
  cases h with
  | start h => exact h
  | next _ hc => exact hc

theorem turn_spec {hand : Option (Nat × Buf)} (hsize : ∀ bn bp, hand = some (bn, bp) → bp.size = p.blockSize bn) (disk : Disk) (cn : Nat) :
    p.Hand (p.written disk hand) (p.turn disk hand (p.fatblock (p.fatofs cn)).1 (p.fatblock (p.fatofs cn)).2.1).2
      (p.turn disk hand (p.fatblock (p.fatofs cn)).1 (p.fatblock (p.fatofs cn)).2.1).1 (p.fatblock (p.fatofs cn)).1
      (p.fatblock (p.fatofs cn)).2.2 cn := by
  cases hand with
  | none => exact Hand.read disk cn
  | some held =>
    obtain ⟨lbn, bp⟩ := held
    unfold turn
    dsimp only
    by_cases hsame : lbn = (p.fatblock (p.fatofs cn)).1
    · rw [if_neg (not_not.mpr hsame)]
      refine ⟨?_, ?_⟩
      · have hbp := hsize lbn bp rfl
        rw [hsame, ← fatblock_size] at hbp
        rw [hbp]
      · rw [← hsame]
        rfl
    · rw [if_pos hsame]
      exact Hand.read _ cn

/-- What has been freed so far: the clusters `done` of the chain, each linked to another of them
or to the one that is next. -/
structure Freeing (p : Msdosfsmount) (fat : Nat → Nat) (start cluster : Nat) (done : Finset Nat) : Prop where
  chain : ∀ c ∈ done, p.OnChain fat start c
  closed : ∀ c ∈ done, p.Cluster (fat c) → fat c ∈ done ∨ fat c = cluster
  first : p.Cluster start → start ∈ done ∨ start = cluster
  next : p.Cluster cluster → p.OnChain fat start cluster

namespace Freeing
variable {fat : Nat → Nat} {start cluster : Nat} {done : Finset Nat}

theorem card_lt (h : p.Freeing fat start cluster done) : done.card ≤ p.maxcluster := by
  have hsub : done ⊆ Finset.Ioc 0 p.maxcluster := by
    intro c hc
    obtain ⟨hlow, hhigh⟩ := (h.chain c hc).cluster
    exact Finset.mem_Ioc.mpr ⟨lt_of_lt_of_le (by decide) hlow, hhigh⟩
  have hcard := Finset.card_le_card hsub
  rwa [Nat.card_Ioc] at hcard

theorem insert (h : p.Freeing fat start cluster done) (hc : p.Cluster cluster) : p.Freeing fat start (fat cluster) (Insert.insert cluster done) where
  chain c hmem := by
    rcases Finset.mem_insert.mp hmem with rfl | hmem
    · exact h.next hc
    · exact h.chain c hmem
  closed c hmem hnext := by
    rcases Finset.mem_insert.mp hmem with rfl | hmem
    · exact .inr rfl
    rcases h.closed c hmem hnext with hin | heq
    · exact .inl (Finset.mem_insert_of_mem hin)
    · exact .inl (heq ▸ Finset.mem_insert_self cluster done)
  first hs := by
    rcases h.first hs with hin | heq
    · exact .inl (Finset.mem_insert_of_mem hin)
    · exact .inl (heq ▸ Finset.mem_insert_self cluster done)
  next hs := .next (h.next hc) hs

theorem again (h : p.Freeing fat start cluster done) (hmem : cluster ∈ done) {next : Nat} (hnext : ¬p.Cluster next) :
    p.Freeing fat start next done where
  chain := h.chain
  closed c hc hs := (h.closed c hc hs).elim .inl fun heq => .inl (heq ▸ hmem)
  first hs := (h.first hs).elim .inl fun heq => .inl (heq ▸ hmem)
  next hs := absurd hs hnext

theorem all (h : p.Freeing fat start cluster done) (hend : ¬p.Cluster cluster) (c : Nat) : c ∈ done ↔ p.OnChain fat start c := by
  refine ⟨h.chain c, fun hon => ?_⟩
  induction hon with
  | start hs => exact (h.first hs).resolve_right fun heq => hend (heq ▸ hs)
  | next _ hc ih => exact (h.closed _ ih hc).resolve_right fun heq => hend (heq ▸ hc)

end Freeing

section Functions
variable (hm : p.Mounted) (hin : p.Inside)
include hm hin

/-- `freeclusterchain` from `cluster` on, with the clusters `done` behind it. -/
theorem freeLoop_spec {fat : Nat → Nat} {start : Nat} (n cluster : Nat) {done : Finset Nat} {hand : Option (Nat × Buf)}
    (hf : p.Freeing fat start cluster done) (hfat : p.entry (p.written disk hand) = fun c => if c ∈ done then 0 else fat c)
    (hsize : ∀ bn bp, hand = some (bn, bp) → bp.size = p.blockSize bn)
    (hfuel : p.maxcluster + 2 ≤ done.card + n ∨ ¬p.Cluster cluster ∧ 0 < n) :
    ∃ disk', p.freeLoop n cluster hand disk = some disk' ∧
      (∀ c, (p.OnChain fat start c → p.entry disk' c = 0) ∧ (¬p.OnChain fat start c → p.entry disk' c = fat c)) ∧
      p.Frame (p.written disk hand) disk' := by
  induction n generalizing cluster done hand disk with
  | zero =>
    have hcard := hf.card_lt
    omega
  | succ n ih =>
    have hcard := hf.card_lt
    have hat (c : Nat) : p.entry (p.written disk hand) c = if c ∈ done then 0 else fat c := congrFun hfat c
    unfold freeLoop
    by_cases hc : p.Cluster cluster
    · have hc' : CLUST_FIRST ≤ cluster ∧ cluster ≤ p.maxcluster := hc
      rw [if_pos hc']
      dsimp only
      have hhand := turn_spec hsize disk cluster
      obtain ⟨next, bp', hfree, hgot, hsets⟩ := @Buf.freeEntry_spec _ p.fatType _ cluster (hhand.room hin hc)
      obtain rfl : p.entry (p.written disk hand) cluster = next := some.inj ((hhand.getEntry hm hin hc).symm.trans hgot)
      have hwrote := hhand.wrote hm hin hc hsets
      have hentry := entry_wrote hwrote
      rw [Nat.zero_and] at hentry
      have hblock : bp'.size = p.blockSize (p.fatblock (p.fatofs cluster)).1 := by
        have hsz := congrArg (fun b => b.2.1) hhand.block
        rw [hsets.1, ← fatblock_size]
        exact hsz.symm
      rw [hfree]
      have hsize' : ∀ bn bp, some ((p.fatblock (p.fatofs cluster)).1, bp') = some (bn, bp) → bp.size = p.blockSize bn := by
        intro bn bp heq
        obtain ⟨rfl, rfl⟩ := Prod.mk.inj (some.inj heq)
        exact hblock
      have hroom : p.maxcluster + 2 ≤ done.card + (n + 1) := hfuel.resolve_right fun h => h.1 hc
      by_cases hmem : cluster ∈ done
      · have hzero : p.entry (p.written disk hand) cluster = 0 := (hat cluster).trans (if_pos hmem)
        have hnot : ¬p.Cluster 0 := fun h => absurd h.1 (by decide)
        rw [hzero]
        obtain ⟨disk', hrun, hall, hframe⟩ := @ih _ 0 done (some ((p.fatblock (p.fatofs cluster)).1, bp')) (hf.again hmem hnot) (by
          show p.entry (p.updatefats _ _ _) = _
          rw [hentry, hfat]
          funext c
          by_cases heq : c = cluster
          · subst heq
            rw [update_self, if_pos hmem]
          · rw [update_of_ne heq]) hsize' (.inr ⟨hnot, by omega⟩)
        exact ⟨disk', hrun, hall, (frame_wrote hc hwrote).trans hframe⟩
      have hnext : p.entry (p.written disk hand) cluster = fat cluster := (hat cluster).trans (if_neg hmem)
      rw [hnext]
      have hf' := hf.insert hc
      have hcard' := Finset.card_insert_of_notMem hmem
      obtain ⟨disk', hrun, hall, hframe⟩ := @ih _ (fat cluster) (Insert.insert cluster done)
        (some ((p.fatblock (p.fatofs cluster)).1, bp')) hf' (by
        show p.entry (p.updatefats _ _ _) = _
        rw [hentry, hfat]
        funext c
        by_cases heq : c = cluster
        · subst heq
          rw [update_self, if_pos (Finset.mem_insert_self ..)]
        have hiff : c ∈ Insert.insert cluster done ↔ c ∈ done := by
          rw [Finset.mem_insert]
          exact or_iff_right heq
        rw [update_of_ne heq, if_congr hiff rfl rfl]) hsize' (.inl (by omega))
      exact ⟨disk', hrun, hall, (frame_wrote hc hwrote).trans hframe⟩
    · have hc' : ¬(CLUST_FIRST ≤ cluster ∧ cluster ≤ p.maxcluster) := hc
      rw [if_neg hc']
      have hall (c : Nat) : (p.OnChain fat start c → p.entry (p.written disk hand) c = 0) ∧
          (¬p.OnChain fat start c → p.entry (p.written disk hand) c = fat c) := by
        rw [hfat, ← hf.all hc]
        exact ⟨fun h => if_pos h, fun h => if_neg h⟩
      cases hand with
      | none => exact ⟨disk, rfl, hall, Frame.refl _⟩
      | some held => exact ⟨p.updatefats disk held.2 held.1, rfl, hall, Frame.refl _⟩

theorem freeclusterchain_spec (disk : Disk) (cluster : Nat) : ∃ disk', p.freeclusterchain disk cluster = some disk' ∧
    (∀ c, (p.OnChain (p.entry disk) cluster c → p.entry disk' c = 0) ∧
      (¬p.OnChain (p.entry disk) cluster c → p.entry disk' c = p.entry disk c)) ∧ p.Frame disk disk' := by
  refine @freeLoop_spec p disk hm hin (p.entry disk) cluster (p.maxcluster + 2) cluster ∅ none
    ⟨?_, ?_, fun _ => .inr rfl, .start⟩ ?_ ?_ ?_
  · exact fun c hc => absurd hc (Finset.notMem_empty c)
  · exact fun c hc => absurd hc (Finset.notMem_empty c)
  · funext c
    exact (if_neg (Finset.notMem_empty c)).symm
  · exact fun _ _ h => absurd h (by simp)
  · exact .inl (by omega)

end Functions

end Msdosfsmount

/-! Readers and writers of the table, for every width.

`Agree` is what the functions on the table owe each other: what one writes, the others read, and
nothing else changes. It holds, and no function leaves its buffer, exactly when the volume is not
one whose last entry is cut off by the blocks it is read in. -/

namespace Msdosfsmount
variable {p : Msdosfsmount} {disk disk' : Disk} {c : Nat}

/-- The functions read the entry of cluster `c` as `v`. -/
structure Reads (p : Msdosfsmount) (disk : Disk) (c v : Nat) : Prop where
  fatentry : ∀ newcontents, p.fatentry disk true false c newcontents = some (.ok (some v), disk)
  pcbmap : ∃ hand, p.follow disk none c = some (some v, hand)
  freeclusterchain : ∃ bp, (p.bread disk (p.fatblock (p.fatofs c)).1 (p.fatblock (p.fatofs c)).2.1).freeEntry p.fatType
    (p.fatblock (p.fatofs c)).2.2 c = some (v, bp)

/-- What is read after a call: `after c` for cluster `c`, which was read as `old`; and the highest
bits of entries of 32 bits are kept. -/
def Leaves (p : Msdosfsmount) (disk disk' : Disk) (after : Nat → Nat → Nat → Prop) : Prop :=
  ∀ c, p.Cluster c → ∃ old now, p.Reads disk c old ∧ p.Reads disk' c now ∧ after c old now ∧
    (p.fatType = .fat32 → p.reserved disk' c = p.reserved disk c)

structure Agree (p : Msdosfsmount) (disk : Disk) (start count fillwith : Nat) : Prop where
  chain : ∃ disk', p.fatchain disk start count fillwith = some (.ok (), disk') ∧ p.Leaves disk disk' fun c old now =>
    now = if start ≤ c ∧ c < start + count then if c + 1 < start + count then c + 1 else fillwith &&& p.fatType.mask else old
  set : ∀ cn newcontents, p.Cluster cn → ∃ disk', p.fatentry disk false true cn newcontents = some (.ok none, disk') ∧
    p.Leaves disk disk' fun c old now => now = if c = cn then newcontents &&& p.fatType.mask else old
  free : ∀ cluster, ∃ disk', p.freeclusterchain disk cluster = some disk' ∧ p.Leaves disk disk' fun c old now =>
    (p.OnChain (p.entry disk) cluster c → now = 0) ∧ (¬p.OnChain (p.entry disk) cluster c → now = old)

/-- No function leaves its buffer. -/
structure Safe (p : Msdosfsmount) (disk : Disk) : Prop where
  pcbmap : ∀ n i cn prevcn, (p.walk disk n i cn prevcn none).isSome
  fatentry : ∀ old set cn newcontents, (p.fatentry disk old set cn newcontents).isSome
  fatchain : ∀ start count fillwith, (p.fatchain disk start count fillwith).isSome
  freeclusterchain : ∀ cluster, (p.freeclusterchain disk cluster).isSome
  fillinusemap : (p.fillinusemap disk).isSome

section Inside
variable (hm : p.Mounted) (hin : p.Inside)
include hm hin

theorem reads_entry (disk : Disk) (hc : p.Cluster c) : p.Reads disk c (p.entry disk c) := by
  have hhand := @Hand.read p disk c
  refine ⟨fun newcontents => (fatentry_spec hm hin hc true newcontents).1, ?_, ?_⟩
  · obtain ⟨hand, hfollow, -⟩ := @follow_spec p disk c hm hin none (fun _ _ h => absurd h (by simp)) hc
    exact ⟨hand, hfollow⟩
  obtain ⟨v, bp, hfree, hgot, -⟩ := @Buf.freeEntry_spec _ p.fatType _ c (hhand.room hin hc)
  obtain rfl : p.entry disk c = v := some.inj ((hhand.getEntry hm hin hc).symm.trans hgot)
  exact ⟨bp, hfree⟩

theorem leaves_of_entries {after : Nat → Nat → Nat → Prop} (hframe : p.Frame disk disk')
    (hafter : ∀ c, p.Cluster c → after c (p.entry disk c) (p.entry disk' c)) : p.Leaves disk disk' after :=
  fun c hc => ⟨p.entry disk c, p.entry disk' c, reads_entry hm hin disk hc, reads_entry hm hin disk' hc, hafter c hc,
    fun h32 => hframe.reserved h32 c⟩

theorem agree_of_inside {start count : Nat} (hstart : CLUST_FIRST ≤ start) (hcount : 0 < count)
    (hlast : start + count - 1 ≤ p.maxcluster) (disk : Disk) (fillwith : Nat) : p.Agree disk start count fillwith where
  chain := by
    obtain ⟨disk', hrun, hchain, hframe⟩ := fatchain_spec hm hin hstart hcount hlast disk fillwith
    refine ⟨disk', hrun, leaves_of_entries hm hin hframe fun c hc => ?_⟩
    rw [hchain]
    unfold Geometry.chained
    by_cases hrun : start ≤ c ∧ c < start + count
    · rw [if_pos hrun, if_pos hrun]
      by_cases hnext : c + 1 < start + count
      · rw [if_pos hnext, if_pos hnext]
        exact (p.geometry hm).and_fatmask (by show c + 1 ≤ p.maxcluster; omega)
      · rw [if_neg hnext, if_neg hnext]
        rfl
    · rw [if_neg hrun, if_neg hrun]
  set cn newcontents hcn := by
    obtain ⟨-, disk', hset, hwrote⟩ := @fatentry_spec p disk cn hm hin hcn false newcontents
    refine ⟨disk', hset, leaves_of_entries hm hin (frame_wrote hcn hwrote) fun c _ => ?_⟩
    rw [entry_wrote hwrote]
    by_cases heq : c = cn
    · subst heq
      rw [update_self, if_pos rfl]
    · rw [update_of_ne heq, if_neg heq]
  free cluster := by
    obtain ⟨disk', hrun, hall, hframe⟩ := freeclusterchain_spec hm hin disk cluster
    exact ⟨disk', hrun, leaves_of_entries hm hin hframe fun c _ => hall c⟩

theorem safe_of_inside (disk : Disk) : p.Safe disk where
  pcbmap n i cn prevcn := by
    rw [walk_eq hm hin ⟨fun _ => 0, 0, p.entry disk, false, 0⟩ rfl n i cn prevcn (fun _ _ h => absurd h (by simp))]
    rfl
  fatentry old set cn newcontents := by
    by_cases hc : p.Cluster cn
    · obtain ⟨hget, disk', hset, -⟩ := @fatentry_spec p disk cn hm hin hc old newcontents
      cases set with
      | true =>
        rw [hset]
        rfl
      | false =>
        cases old with
        | true =>
          rw [hget]
          rfl
        | false => rfl
    · have hout : cn < CLUST_FIRST ∨ p.maxcluster < cn := by
        by_contra hno
        obtain ⟨hlow, hhigh⟩ := not_or.mp hno
        exact hc ⟨Nat.le_of_not_lt hlow, Nat.le_of_not_lt hhigh⟩
      unfold Msdosfsmount.fatentry
      split
      · rfl
      · rfl
  fatchain start count fillwith := by
    by_cases hout : start < CLUST_FIRST ∨ p.maxcluster < start + count - 1
    · unfold Msdosfsmount.fatchain
      rw [if_pos hout]
      rfl
    rcases Nat.eq_zero_or_pos count with rfl | hcount
    · unfold Msdosfsmount.fatchain
      rw [if_neg hout]
      rfl
    obtain ⟨hlow, hhigh⟩ := not_or.mp hout
    obtain ⟨disk', hrun, -⟩ := fatchain_spec hm hin (Nat.le_of_not_lt hlow) hcount (Nat.le_of_not_lt hhigh) disk fillwith
    rw [hrun]
    rfl
  freeclusterchain cluster := by
    obtain ⟨disk', hrun, -⟩ := freeclusterchain_spec hm hin disk cluster
    rw [hrun]
    rfl
  fillinusemap := by
    rw [fillinusemap_spec hm hin disk]
    rfl

end Inside

theorem inside_of_agree (hm : p.Mounted) {start count fillwith : Nat} (h : p.Agree disk start count fillwith) : p.Inside := by
  intro c hc
  obtain ⟨disk', -, hleaves⟩ := h.chain
  obtain ⟨old, -, hreads, -⟩ := hleaves c hc
  have hroom : (p.fatblock (p.fatofs c)).2.2 + p.width ≤ (p.fatblock (p.fatofs c)).2.1 := by
    by_contra hout
    have hget := hreads.fatentry 0
    unfold Msdosfsmount.fatentry at hget
    dsimp only at hget
    rw [Buf.getEntry_none (Nat.lt_of_not_le hout)] at hget
    exact absurd hget (by simp)
  have hwidth : 0 < p.width := by
    unfold width
    split <;> decide
  exact ⟨hroom, ((in_block_iff hm hwidth).mp hroom).2⟩

end Msdosfsmount

/-! ### Volumes -/

/-- On every volume that is accepted, the entries are inside the blocks they are read in, and no
function leaves its buffer, unless the last entry is cut off. -/
theorem table_inside_iff {gemdos : Bool} {disksize : Option (Nat × Nat)} {bs : Nat → BitVec 8} {p : Msdosfsmount}
    (h : msdosfsMountfs gemdos disksize bs = some p) : (p.Inside ∧ ∀ disk, p.Safe disk) ↔ ¬p.Overrun := by
  have hm := Msdosfsmount.mounted_of_mountfs h
  rw [← Msdosfsmount.inside_iff hm]
  exact ⟨And.left, fun hin => ⟨hin, fun disk => Msdosfsmount.safe_of_inside hm hin disk⟩⟩

def floppySector (i : Nat) : BitVec 8 :=
  ([(12, 2), (13, 1), (14, 1), (16, 2), (17, 224), (19, 64), (20, 11), (22, 9), (24, 18), (510, 0x55), (511, 0xaa)].lookup i).getD 0

theorem table_inside_iff_floppy : ∃ p, msdosfsMountfs false none floppySector = some p ∧ p.Inside ∧ ∀ disk, p.Safe disk := by
  have hmount : (msdosfsMountfs false none floppySector).map (fun p => decide p.Overrun) = some false := by decide
  obtain ⟨p, hp, hover⟩ := map_eq_some_iff.mp hmount
  exact ⟨p, hp, (table_inside_iff hp).mpr (of_decide_eq_false hover)⟩

/-- 681 clusters, and a table of two sectors: the counted bytes of 683 entries are 1024, and the
last entry ends behind them. -/
def shortSector (i : Nat) : BitVec 8 :=
  ([(12, 2), (13, 1), (14, 1), (16, 1), (17, 16), (19, 0xad), (20, 2), (22, 2), (24, 18), (510, 0x55), (511, 0xaa)].lookup i).getD 0

theorem last_entry_cut : ¬∀ (gemdos : Bool) (disksize : Option (Nat × Nat)) (bs : Nat → BitVec 8) (p : Msdosfsmount),
    msdosfsMountfs gemdos disksize bs = some p → p.Inside := by
  intro hall
  have hmount : (msdosfsMountfs false none shortSector).map (fun p => (decide (p.Cluster 682), p.fatblock (p.fatofs 682), p.width)) =
      some (true, (1, 1024, 1023), 2) := by decide
  obtain ⟨p, hp, heq⟩ := map_eq_some_iff.mp hmount
  obtain ⟨hc, heq⟩ := Prod.mk.inj heq
  obtain ⟨hblock, hwidth⟩ := Prod.mk.inj heq
  have hin := (hall _ _ _ p hp 682 (of_decide_eq_true hc)).1
  rw [hblock, hwidth] at hin
  exact absurd hin (by decide)

/-- On every volume that is accepted, and for every run of clusters, the functions on the table
agree about every width unless the last entry is cut off. -/
theorem entries_agree_iff {gemdos : Bool} {disksize : Option (Nat × Nat)} {bs : Nat → BitVec 8} {p : Msdosfsmount}
    (h : msdosfsMountfs gemdos disksize bs = some p) {start count : Nat} (hstart : CLUST_FIRST ≤ start) (hcount : 1 ≤ count)
    (hlast : start + count - 1 ≤ p.maxcluster) (disk : Disk) (fillwith : Nat) : p.Agree disk start count fillwith ↔ ¬p.Overrun := by
  have hm := Msdosfsmount.mounted_of_mountfs h
  rw [← Msdosfsmount.inside_iff hm]
  exact ⟨Msdosfsmount.inside_of_agree hm, fun hin => Msdosfsmount.agree_of_inside hm hin hstart hcount hlast disk fillwith⟩

/-- A chain over the end of the first block of the floppy's table. -/
theorem entries_agree_iff_floppy : ∃ p, msdosfsMountfs false none floppySector = some p ∧ p.Agree (fun _ => 0x5a) 1020 8 CLUST_EOFE := by
  have hmount : (msdosfsMountfs false none floppySector).map (fun p => (decide p.Overrun, p.maxcluster)) = some (false, 2848) := by
    decide
  obtain ⟨p, hp, heq⟩ := map_eq_some_iff.mp hmount
  obtain ⟨hover, hmax⟩ := Prod.mk.inj heq
  exact ⟨p, hp, (entries_agree_iff hp (by decide) (by decide) (by rw [hmax]; decide) _ _).mpr (of_decide_eq_false hover)⟩

/-- `fatentry` can't read the last entry, which is none of the chain's. -/
theorem last_entry_unread : ¬∀ (gemdos : Bool) (disksize : Option (Nat × Nat)) (bs : Nat → BitVec 8) (p : Msdosfsmount)
    (disk : Disk) (start count fillwith : Nat), msdosfsMountfs gemdos disksize bs = some p → CLUST_FIRST ≤ start → 1 ≤ count →
    start + count - 1 ≤ p.maxcluster → p.Agree disk start count fillwith := by
  intro hall
  have hmount : (msdosfsMountfs false none shortSector).map (fun p => (p.maxcluster, (p.fatentry (fun _ => 0) true false 682 0).isSome)) =
      some (682, false) := by decide
  obtain ⟨p, hp, heq⟩ := map_eq_some_iff.mp hmount
  obtain ⟨hmax, hunread⟩ := Prod.mk.inj heq
  have hagree := hall _ _ _ p (fun _ => 0) 2 1 CLUST_EOFE hp (by decide) (by decide) (by rw [hmax]; decide)
  obtain ⟨disk', -, hleaves⟩ := hagree.chain
  obtain ⟨old, -, hreads, -⟩ := hleaves 682 ⟨by decide, hmax.ge⟩
  rw [hreads.fatentry 0] at hunread
  exact absurd hunread (by simp)

end NetBSD.Fs.Msdosfs
