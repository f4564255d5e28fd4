import NetBSD.Fs.Msdosfs.Calls

/-! The map is exact, and nobody leaves it.

Two kinds of volume are left out. Where the number behind the last cluster is a multiple of 32
the map has no word for it, and `extendfile` looks there when the last cluster of the volume
ends a file (`usemap_strays`). Where the last cluster has the number of an end mark,
`freeclusterchain` takes the end of a chain for a cluster. -/
namespace NetBSD.Fs.Msdosfs
open Option
open Lib

section Exact
variable {g : Geometry}

/-- What the map is for, in one state: which bits are set, what the counter says, that no call
leaves the map, and what `clusteralloc` finds. -/
structure UsemapRight (w : World g) : Prop where
  bits : ∀ cn < 32 * g.words, mapBit w.mnt.inusemap cn = true ↔ cn < CLUST_FIRST ∨ g.maxcluster < cn ∨ w.mnt.fat cn ≠ 0
  count : w.mnt.freeclustercount = ((Finset.Icc CLUST_FIRST g.maxcluster).filter fun cn => mapBit w.mnt.inusemap cn = false).card
  inside : ∀ a, w.Promised a → w.OnWellFormed a → (w.next a).isSome = true
  full : ∀ start count usec, start ≤ g.maxcluster + 1 → 0 < count →
    ((∃ m', w.mnt.clusteralloc start count usec = some (.error .enospc, m')) ↔ ∀ cn, g.Cluster cn → w.mnt.fat cn ≠ 0)
  found : ∀ start count usec, start ≤ g.maxcluster + 1 → 0 < count → (∃ cn, g.Cluster cn ∧ w.mnt.fat cn = 0) →
    ∃ cn got m', w.mnt.clusteralloc start count usec = some (.ok (cn, got), m') ∧ 1 ≤ got ∧ got ≤ count ∧
      ∀ i < got, g.Cluster (cn + i) ∧ w.mnt.fat (cn + i) = 0 ∧ m'.fat (cn + i) ≠ 0

section Right
variable {w : World g} {v : Volume} {chains : Nat → List Nat}

theorem World.Inv.bits (h : w.Inv v chains) {cn : Nat} (hcn : cn < 32 * g.words) :
    mapBit w.mnt.inusemap cn = true ↔ cn < CLUST_FIRST ∨ g.maxcluster < cn ∨ w.mnt.fat cn ≠ 0 := by
  have hfree : cn ∈ v.free ↔ mapBit w.mnt.inusemap cn = false := by
    rw [← h.shows_.free, Mount.mem_free]
    exact ⟨fun hmem => hmem.2, fun hbit => ⟨hcn, hbit⟩⟩
  by_cases hcl : g.Cluster cn
  · have hexact := h.exact_ cn hcl
    rw [h.shows_.fat]
    have hrange : ¬cn < CLUST_FIRST ∧ ¬g.maxcluster < cn := ⟨Nat.not_lt.mpr hcl.1, Nat.not_lt.mpr hcl.2⟩
    rw [hfree] at hexact
    constructor
    · intro hset
      rw [hset] at hexact
      exact .inr (.inr fun h0 => absurd (hexact.mpr h0) (by decide))
    rintro (hlow | hhigh | hne)
    · exact absurd hlow hrange.1
    · exact absurd hhigh hrange.2
    · by_contra hset
      exact hne (hexact.mp (Bool.not_eq_true _ ▸ hset))
  · -- Bits that stand for no cluster are set.
    have hset : mapBit w.mnt.inusemap cn = true := by
      by_contra hclear
      exact hcl (h.shows_.clusters cn (hfree.mpr (Bool.not_eq_true _ ▸ hclear)))
    refine ⟨fun _ => ?_, fun _ => hset⟩
    by_contra hno
    exact hcl ⟨by omega, by omega⟩

theorem World.Inv.right (h : w.Inv v chains) (hround : ¬g.Strays) (hmark : g.Marked) : UsemapRight w := by
  have hfree (cn : Nat) (hcl : g.Cluster cn) : cn ∈ v.free ↔ w.mnt.fat cn = 0 := by
    rw [h.shows_.fat]
    exact h.exact_ cn hcl
  have hnone : v.free = ∅ ↔ ∀ cn, g.Cluster cn → w.mnt.fat cn ≠ 0 := by
    rw [Finset.eq_empty_iff_forall_notMem]
    constructor
    · exact fun hno cn hcl h0 => hno cn ((hfree cn hcl).mpr h0)
    · exact fun hno cn hmem => hno cn (h.shows_.clusters cn hmem) ((hfree cn (h.shows_.clusters cn hmem)).mp hmem)
  refine ⟨fun cn hcn => h.bits hcn, ?_, fun a hp hon => ?_, fun start count usec hs hcount => ?_,
    fun start count usec hs hcount hex => ?_⟩
  · rw [h.shows_.count]
    refine congrArg Finset.card (Finset.ext fun cn => ?_)
    rw [Finset.mem_filter, Finset.mem_Icc, ← h.shows_.free, Mount.mem_free]
    constructor
    · intro hmem
      have hcl := h.shows_.clusters cn (h.shows_.free ▸ Mount.mem_free.mpr hmem)
      exact ⟨hcl, hmem.2⟩
    · exact fun hmem => ⟨g.lt_words hmem.1.2, hmem.2⟩
  · rcases h.next hmark hp (.inr hon) with ⟨hstray, -⟩ | ⟨w', -, -, hw', -⟩
    · exact absurd hstray hround
    · rw [hw']
      rfl
  · rcases h.shows_.clusteralloc_cases usec hcount hs with ⟨hstray, -⟩ | ⟨hempty, heq⟩ | ⟨cn, got, m', hpos, -, hrun, heq, -⟩
    · exact absurd hstray hround
    · exact ⟨fun _ => hnone.mp hempty, fun _ => ⟨_, heq⟩⟩
    refine ⟨fun ⟨m₁, hm₁⟩ => ?_, fun hno => ?_⟩
    · rw [heq] at hm₁
      exact absurd hm₁ (by simp)
    have hmem := hrun 0 hpos
    rw [hnone.mpr hno] at hmem
    exact absurd hmem (Finset.notMem_empty _)
  rcases h.shows_.clusteralloc_cases usec hcount hs with ⟨hstray, -⟩ | ⟨hempty, -⟩ | ⟨cn, got, m', hpos, hle, hrun, heq, hm'⟩
  · exact absurd hstray hround
  · obtain ⟨cn, hcl, h0⟩ := hex
    exact absurd h0 (hnone.mp hempty cn hcl)
  refine ⟨cn, got, m', heq, hpos, hle, fun i hi => ?_⟩
  have hcl (i : Nat) (hi : i < got) : g.Cluster (cn + i) := h.shows_.clusters _ (hrun i hi)
  refine ⟨hcl i hi, (hfree _ (hcl i hi)).mp (hrun i hi), ?_⟩
  -- The cluster has left the free set, so that its entry is not 0.
  have hout : cn + i ∉ v.free \ Finset.Ico cn (cn + got) := by
    rw [Finset.mem_sdiff, Finset.mem_Ico]
    exact fun hmem => hmem.2 ⟨by omega, by omega⟩
  rw [hm'.fat]
  exact fun h0 => hout ((Mount.alloc_exact h.exact_ hcl _ (hcl i hi)).mpr h0)

end Right

def World.OnChains (w : World g) (a : Call) : Prop := w.Promised a ∧ w.OnWellFormed a

theorem usemap_right (hround : ¬g.Strays) (hmark : g.Marked) :
    (∀ m : Mount g, (m.fsinfo = true → m.nxtfree ≤ g.maxcluster) → m.fillinusemap.isSome = true) ∧
      ∀ w, (msdosfs g).Reach World.OnChains w → UsemapRight w := by
  refine ⟨fun m hnxt => ?_, fun w hw => ?_⟩
  · obtain ⟨m', hm', -⟩ := m.fillinusemap_spec hnxt
    rw [hm']
    rfl
  · obtain ⟨v, chains, hinv⟩ := World.reach_inv hmark (fun w a ha => ⟨ha.1, .inr ha.2⟩) hw
    exact hinv.right hround hmark

theorem sector_bounded : 2 ^ 9 ≤ MAXBSIZE := by decide

/-- A floppy with clusters up to `maxcluster`. -/
def floppy (maxcluster : Nat) (h : maxcluster &&& 0xfff = maxcluster ∧ maxcluster ≤ 0xff4) : Geometry where
  fatType := .fat12
  maxcluster := maxcluster
  fatblocksize := 1536
  cnshift := 9
  bnshift := 9
  firstcluster := 33
  rootdirblk := 19
  rootdirsize := 14
  masked := h.1
  narrow := fun _ => h.2
  bounded := sector_bounded

/-- The volume before its map is filled. -/
def unfilled (g : Geometry) (fat : Nat → Nat) : Mount g := ⟨fun _ => 0, 0, fat, false, 0⟩

theorem mounted_of_fill {fat : Nat → Nat} {m : Mount g} (h : (unfilled g fat).fillinusemap = some m) :
    Mounted g ⟨m, fun _ => none⟩ ∧ m.fat = fat := by
  obtain ⟨m', hm', hs⟩ := (unfilled g fat).fillinusemap_spec (by simp [unfilled])
  obtain rfl : m = m' := some.inj (h.symm.trans hm')
  exact ⟨⟨fun _ => rfl, unfilled g fat, by simp [unfilled], h⟩, hs.fat⟩

/-- Two clusters, and one of them is allocated. -/
theorem usemap_right_floppy : ∃ w, (msdosfs (floppy 3 (by decide))).Reach World.OnChains w ∧ w.mnt.freeclustercount = 1 ∧ UsemapRight w := by
  have hrun : ((unfilled (floppy 3 (by decide)) fun _ => 0).fillinusemap.bind fun m =>
      (World.mk m fun _ => none).next (.clusteralloc 0 1 7)).map (·.mnt.freeclustercount) = some 1 := by
    decide
  obtain ⟨w, hw, hcount⟩ := map_eq_some_iff.mp hrun
  obtain ⟨m, hm, hnext⟩ := bind_eq_some_iff.mp hw
  have hreach : (msdosfs (floppy 3 (by decide))).Reach World.OnChains w :=
    .step (a := .clusteralloc 0 1 7) (.init (mounted_of_fill hm).1) ⟨⟨by decide, by decide⟩, trivial⟩ hnext
  exact ⟨w, hreach, hcount, (usemap_right (by decide) (by decide)).2 w hreach⟩

/-- 30 clusters fill the one word of the map. A file ends in the last of them, and is extended:
the search begins in the word behind the map. -/
theorem usemap_strays : ¬∀ (g : Geometry) (w : World g), (msdosfs g).Reach World.OnChains w → UsemapRight w := by
  intro h
  obtain ⟨g, hg⟩ : ∃ g, g = floppy 31 (by decide) := ⟨_, rfl⟩
  have hrun : ((unfilled (floppy 31 (by decide)) fun _ => 0xfff).fillinusemap.bind fun m =>
      ((World.mk m fun _ => none).next (.loadvnode 0 31 0 false false)).map fun w =>
        (w.next (.extendfile 0 1 7)).isSome) = some false := by
    decide
  rw [← hg] at hrun
  obtain ⟨m, hm, hmap⟩ := bind_eq_some_iff.mp hrun
  obtain ⟨w, hw, hnone⟩ := map_eq_some_iff.mp hmap
  obtain ⟨hmounted, hfat⟩ := mounted_of_fill hm
  have hchain : FileChain g m.fat 31 [31] := by
    subst hg
    refine .inr ⟨.last (by decide) ?_, by decide⟩
    rw [hfat]
    decide
  have hwf : WellFormed g [31] := by
    subst hg
    intro c hc
    rw [List.mem_singleton.mp hc]
    decide
  have hreach : (msdosfs g).Reach World.OnChains w := by
    refine .step (a := .loadvnode 0 31 0 false false) (.init hmounted) ⟨⟨rfl, [31], hchain, hwf, ?_⟩, trivial⟩ hw
    rintro f' l' ⟨d, hd, -⟩
    exact absurd hd (by simp)
  have hfile : w.files 0 = some (Denode.loadvnode m 31 (ulong 0) false false) ∧ w.mnt = m := by
    rw [← some.inj hw]
    exact ⟨rfl, rfl⟩
  have hinside := (h g w hreach).inside (.extendfile 0 1 7) (by simp [World.Promised, hfile.1]) (by
    rintro l ⟨d, hd, hch⟩
    rw [hfile.1] at hd
    rw [← some.inj hd, hfile.2] at hch
    rw [hch.unique hchain]
    exact hwf)
  rw [hnone] at hinside
  exact absurd hinside (by decide)

end Exact

/-! Chains that lead out of the volume.

`pcbmap` looks at a cluster before it follows its link: a reserved mark ends the file, and a
number that is no cluster of the volume is an error. The cluster that it returns is one whose
link was not followed; of it `pcbmap` only asks that it is not the end of the file. So a directory
entry or a link that leads to 0, to 1, to a mark of a bad cluster or behind the last cluster is
answered like any other. `pcbmap_inside_iff` says when that happens. -/

/-- The loop of `pcbmap` goes on from this cluster. -/
def Geometry.Follows (g : Geometry) (cn : Nat) : Prop := cn < CLUST_RSRVD &&& g.fatmask ∧ g.Cluster cn

namespace Denode
variable {g : Geometry} {m : Mount g} {d : Denode} {findcn : Nat}

/-- Where `pcbmap` begins: the closest slot of the cache, or the beginning of the file. -/
def closest (d : Denode) (findcn : Nat) : Slot := (d.fcLookup findcn).getD ⟨0, d.startCluster⟩

/-- The cluster that the links lead to from there. -/
def reached (m : Mount g) (d : Denode) (findcn : Nat) : Nat := m.fat^[findcn - (d.closest findcn).frcn] (d.closest findcn).fsrcn

/-- The file has clusters, every link on the way is one that `pcbmap` follows, and what it comes to
is neither the end of the file nor a cluster of the volume. -/
def Astray (m : Mount g) (d : Denode) (findcn : Nat) : Prop :=
  d.startCluster ≠ MSDOSFSROOT ∧ (∀ j < findcn - (d.closest findcn).frcn, g.Follows (m.fat^[j] (d.closest findcn).fsrcn)) ∧
    ¬g.Eof (d.reached m findcn) ∧ ¬g.Cluster (d.reached m findcn)

theorem walk_found_iff (n i cn prevcn i' cn' : Nat) : walk m n i cn prevcn = .found i' cn' ↔
    (∀ j < n, g.Follows (m.fat^[j] cn)) ∧ ¬g.Eof (m.fat^[n] cn) ∧ i' = i + n ∧ cn' = m.fat^[n] cn := by
  induction n generalizing i cn prevcn with
  | zero =>
    unfold walk
    by_cases heof : g.Eof cn
    · rw [if_neg (not_not.mpr heof)]
      exact iff_of_false (fun h => Walk.noConfusion h) fun h => h.2.1 heof
    rw [if_pos heof]
    constructor
    · intro h
      obtain ⟨hi, hcn⟩ := Walk.found.inj h
      exact ⟨fun j hj => absurd hj (Nat.not_lt_zero j), heof, hi.symm, hcn.symm⟩
    · intro h
      rw [h.2.2.1, h.2.2.2]
      rfl
  | succ n ih =>
    unfold walk
    by_cases hrsrvd : cn ≥ CLUST_RSRVD &&& g.fatmask
    · rw [if_pos hrsrvd]
      exact iff_of_false (fun h => Walk.noConfusion h) fun h => Nat.not_lt.mpr hrsrvd (h.1 0 (Nat.succ_pos n)).1
    rw [if_neg hrsrvd]
    by_cases hout : cn < CLUST_FIRST ∨ g.maxcluster < cn
    · rw [if_pos hout]
      refine iff_of_false (fun h => Walk.noConfusion h) fun h => ?_
      obtain ⟨hlow, hhigh⟩ := (h.1 0 (Nat.succ_pos n)).2
      exact hout.elim (Nat.not_lt.mpr hlow) (Nat.not_lt.mpr hhigh)
    rw [if_neg hout, ih]
    obtain ⟨hlow, hhigh⟩ := not_or.mp hout
    have hfollows : g.Follows cn := ⟨Nat.lt_of_not_le hrsrvd, Nat.le_of_not_lt hlow, Nat.le_of_not_lt hhigh⟩
    have hsum : i + 1 + n = i + (n + 1) := add_right_comm i 1 n
    rw [hsum]
    refine and_congr_left fun _ => ?_
    constructor
    · intro h j hj
      cases j with
      | zero => exact hfollows
      | succ j => exact h j (Nat.lt_of_succ_lt_succ hj)
    · intro h j hj
      exact h (j + 1) (Nat.succ_lt_succ hj)

theorem pcbmap_found_iff (hfile : ¬(d.startCluster = MSDOSFSROOT ∧ d.isDir = true)) {cn : Nat} :
    (∃ bn size d', d.pcbmap m findcn = (.found bn cn size, d')) ↔ d.startCluster ≠ MSDOSFSROOT ∧
      (∀ j < findcn - (d.closest findcn).frcn, g.Follows (m.fat^[j] (d.closest findcn).fsrcn)) ∧
      ¬g.Eof (d.reached m findcn) ∧ cn = d.reached m findcn := by
  unfold pcbmap
  by_cases hroot : d.startCluster = MSDOSFSROOT
  · rw [if_pos hroot, if_neg fun h => hfile ⟨hroot, h⟩]
    refine iff_of_false (fun h => ?_) fun h => h.1 hroot
    obtain ⟨_, _, _, h⟩ := h
    exact Mapped.noConfusion (Prod.mk.inj h).1
  rw [if_neg hroot]
  have hclosest : (d.fcLookup findcn).getD ⟨0, d.startCluster⟩ = d.closest findcn := rfl
  dsimp only
  rw [hclosest]
  have hwalk := @walk_found_iff g m (findcn - (d.closest findcn).frcn) (d.closest findcn).frcn (d.closest findcn).fsrcn 0
  -- A loop that ends another way did not follow every link, or came to the end of the file.
  have hmiss (h : ∀ i cn', walk m (findcn - (d.closest findcn).frcn) (d.closest findcn).frcn (d.closest findcn).fsrcn 0 ≠ .found i cn') :
      ¬(d.startCluster ≠ MSDOSFSROOT ∧ (∀ j < findcn - (d.closest findcn).frcn, g.Follows (m.fat^[j] (d.closest findcn).fsrcn)) ∧
        ¬g.Eof (d.reached m findcn) ∧ cn = d.reached m findcn) := fun hall =>
    h _ _ ((hwalk _ _).mpr ⟨hall.2.1, hall.2.2.1, rfl, rfl⟩)
  cases hend : walk m (findcn - (d.closest findcn).frcn) (d.closest findcn).frcn (d.closest findcn).fsrcn 0 with
  | found i cn' =>
    obtain ⟨hway, heof, -, hcn⟩ := (hwalk i cn').mp hend
    constructor
    · intro h
      obtain ⟨_, _, _, h⟩ := h
      obtain ⟨-, rfl, -⟩ := Mapped.found.inj (Prod.mk.inj h).1
      exact ⟨hroot, hway, heof, hcn⟩
    · intro h
      rw [h.2.2.2, reached, ← hcn]
      exact ⟨_, _, _, rfl⟩
  | hiteof i prevcn =>
    refine iff_of_false (fun h => ?_) (hmiss (by rw [hend]; exact fun _ _ => Walk.noConfusion))
    obtain ⟨_, _, _, h⟩ := h
    exact Mapped.noConfusion (Prod.mk.inj h).1
  | inval =>
    refine iff_of_false (fun h => ?_) (hmiss (by rw [hend]; exact fun _ _ => Walk.noConfusion))
    obtain ⟨_, _, _, h⟩ := h
    exact Mapped.noConfusion (Prod.mk.inj h).1

/-- The cluster returned is one of the volume exactly when the links do not lead out of it. -/
theorem pcbmap_inside_iff (m : Mount g) (d : Denode) (findcn : Nat) (hfile : ¬(d.startCluster = MSDOSFSROOT ∧ d.isDir = true)) :
    (∀ bn cn size d', d.pcbmap m findcn = (.found bn cn size, d') → g.Cluster cn) ↔ ¬d.Astray m findcn := by
  constructor
  · intro hall hastray
    obtain ⟨hroot, hway, heof, hout⟩ := hastray
    obtain ⟨bn, size, d', h⟩ := (@pcbmap_found_iff g m d findcn hfile _).mpr ⟨hroot, hway, heof, rfl⟩
    exact hout (hall bn _ size d' h)
  intro hnot bn cn size d' h
  obtain ⟨hroot, hway, heof, rfl⟩ := (@pcbmap_found_iff g m d findcn hfile cn).mp ⟨bn, size, d', h⟩
  by_contra hout
  exact hnot ⟨hroot, hway, heof, hout⟩

/-- A file of two clusters, mapped to its second. -/
theorem pcbmap_inside_iff_second : ¬(loadvnode (unfilled (floppy 3 (by decide)) fun c => if c = 2 then 3 else 0xfff) 2 600 false false).Astray
      (unfilled (floppy 3 (by decide)) fun c => if c = 2 then 3 else 0xfff) 1 ∧
    ∀ bn cn size d', (loadvnode (unfilled (floppy 3 (by decide)) fun c => if c = 2 then 3 else 0xfff) 2 600
      false false).pcbmap (unfilled (floppy 3 (by decide)) fun c => if c = 2 then 3 else 0xfff) 1 = (.found bn cn size, d') →
      (floppy 3 (by decide)).Cluster cn := by
  have hnot : ¬(loadvnode (unfilled (floppy 3 (by decide)) fun c => if c = 2 then 3 else 0xfff) 2 600 false false).Astray
      (unfilled (floppy 3 (by decide)) fun c => if c = 2 then 3 else 0xfff) 1 := fun h => absurd (by decide) h.2.2.2
  exact ⟨hnot, (pcbmap_inside_iff _ _ 1 (by decide)).mpr hnot⟩

/-- A directory entry with a start cluster behind the last one, which is mapped without a look at
the table. -/
theorem start_outside : ¬∀ (g : Geometry) (m : Mount g) (d : Denode) (findcn : Nat), ¬(d.startCluster = MSDOSFSROOT ∧ d.isDir = true) →
    ∀ bn cn size d', d.pcbmap m findcn = (.found bn cn size, d') → g.Cluster cn := by
  intro h
  have hmap : (loadvnode (unfilled (floppy 3 (by decide)) fun _ => 0) 9 600 false false).pcbmap
      (unfilled (floppy 3 (by decide)) fun _ => 0) 0 =
      (.found 40 9 512, ⟨9, 600, false, false, ⟨0, 9⟩, ⟨FCE_EMPTY, 0⟩, ⟨FCE_EMPTY, 0⟩⟩) := by decide
  exact absurd (h _ _ _ 0 (by decide) _ _ _ _ hmap) (by decide)

end Denode

end NetBSD.Fs.Msdosfs
