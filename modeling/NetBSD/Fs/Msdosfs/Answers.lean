import NetBSD.Fs.Msdosfs.Exact

/-! The cache does not change an answer.

On a volume without a cluster in the reserved range every slot stays right and `pcbmap` answers
as a walk from the start of the chain does. `msdosfs_mountfs` accepts larger volumes, however;
there `extendfile` hands out a cluster with a reserved number, `pcbmap` takes it for an end mark
before it has seen a cluster, and writes the cluster 0 it started with into `FC_LASTFC`
(`cache_stale`). -/
namespace NetBSD.Fs.Msdosfs
open Option Function
open Lib

variable {g : Geometry}

/-- The cache of one file and what is answered from it. -/
structure CacheRight (m : Mount g) (d : Denode) (l : List Nat) : Prop where
  chain : FileChain g m.fat d.startCluster l
  slots : ∀ s ∈ d.fc, s.frcn ≠ FCE_EMPTY → l[s.frcn]? = some s.fsrcn
  last : d.lastfc.frcn ≠ FCE_EMPTY → l.getLast? = some d.lastfc.fsrcn ∧ d.lastfc.frcn + 1 = l.length
  answer : ∀ findcn, (d.pcbmap m findcn).1 = (d.uncached.pcbmap m findcn).1
  walked : d.startCluster ≠ 0 → ∀ findcn, (d.pcbmap m findcn).1 =
    (l[findcn]?).elim (.tooBig l.length) fun c => .found (g.cntobn c) c g.bpcluster
  extended : ∀ count usec r m' d', d.extendfile m count usec = some (r, m', d') → ∃ new, FileChain g m'.fat d'.startCluster (l ++ new)

theorem InOrder.cacheRight {m : Mount g} {d : Denode} {v : Volume} {l : List Nat} (h : InOrder m d v l) (hrs : g.Unreserved) : CacheRight m d l := by
  have hwf := hrs.wellFormed h.chain
  have hch : FileChain g m.fat d.startCluster l := by
    rw [h.shows_.fat]
    exact h.chain
  refine ⟨hch, h.cached.slots, fun hne => h.cached.tail hne ?_, Denode.pcbmap_uncached h.cached hch hwf, fun h0 findcn => ?_,
    fun count usec r m' d' heq => ?_⟩
  · intro hnil
    have hlen := h.cached.last hne
    rw [hnil] at hlen
    exact absurd hlen (Nat.succ_ne_zero _)
  · cases hget : l[findcn]? with
    | some c =>
      rw [Denode.pcbmap_found h.cached hch hwf h0 hget]
      rfl
    | none =>
      obtain ⟨c, -, hmap⟩ := Denode.pcbmap_tooBig h.cached hch hwf h0 hget
      rw [hmap]
      rfl
  rcases Denode.extendfile_ends hrs.marked h hwf count usec with ⟨-, hnone⟩ | ⟨r', m₁, d₁, v', l', heq', h', -, new, hnew⟩
  · rw [hnone] at heq
    exact absurd heq (by simp)
  rw [heq'] at heq
  cases heq
  refine ⟨new, ?_⟩
  rw [hnew, h'.shows_.fat]
  exact h'.chain

theorem cache_right (hrs : g.Unreserved) (w : World g) (h : (msdosfs g).Reach World.Promised w) :
    ∀ f d, w.files f = some d → ∃ l, CacheRight w.mnt d l := by
  obtain ⟨v, chains, hinv⟩ := World.reach_inv hrs.marked (fun w a ha => ⟨ha, .inl hrs⟩) h
  exact fun f d hd => ⟨chains f, (hinv.inOrder hd).cacheRight hrs⟩

theorem reach_loadvnode {fat : Nat → Nat} {m : Mount g} {start : Nat} {l : List Nat}
    (hm : (unfilled g fat).fillinusemap = some m) (hch : FileChain g fat start l) (hwf : WellFormed g l) :
    (msdosfs g).Reach World.Promised
      ⟨m, update (fun _ => none) 0 (some (Denode.loadvnode m start (ulong 0) false false))⟩ := by
  obtain ⟨hmounted, hfat⟩ := mounted_of_fill hm
  refine .step (a := .loadvnode 0 start 0 false false) (.init hmounted) ⟨rfl, l, by rw [hfat]; exact hch, hwf, ?_⟩ rfl
  rintro f' l' ⟨d, hd, -⟩
  exact absurd hd (by simp)

/-- A file of two clusters; the search for a third leaves the last one in the cache. -/
theorem cache_right_floppy : ∃ w : World (floppy 3 (by decide)), (msdosfs (floppy 3 (by decide))).Reach World.Promised w ∧
    (w.files 0).map (·.lastfc) = some ⟨1, 3⟩ ∧ ∀ f d, w.files f = some d → ∃ l, CacheRight w.mnt d l := by
  have hrun : ((unfilled (floppy 3 (by decide)) fun c => if c = 2 then 3 else 0xfff).fillinusemap.bind fun m =>
      (World.mk m (update (fun _ => none) 0 (some (Denode.loadvnode m 2 (ulong 0) false false)))).next
        (.pcbmap 0 5)).map (fun w => (w.files 0).map (·.lastfc)) = some (some ⟨1, 3⟩) := by
    decide
  obtain ⟨w, hw, hlast⟩ := map_eq_some_iff.mp hrun
  obtain ⟨m, hm, hnext⟩ := bind_eq_some_iff.mp hw
  have hload := reach_loadvnode (l := [2, 3]) hm (.inr ⟨.link (by decide) (.last (by decide) (by decide)), by decide⟩)
    (by unfold WellFormed; decide)
  have hreach : (msdosfs (floppy 3 (by decide))).Reach World.Promised w := .step (a := .pcbmap 0 5) hload rfl hnext
  exact ⟨w, hreach, hlast, cache_right (by decide) w hreach⟩

/-- 65525 clusters, the last of them with the first reserved number. -/
def large : Geometry where
  fatType := .fat16
  maxcluster := 0xfff6
  fatblocksize := MAXBSIZE
  cnshift := 9
  bnshift := 9
  firstcluster := 600
  rootdirblk := 568
  rootdirsize := 32
  masked := by decide
  narrow := nofun
  bounded := sector_bounded

/-- Only the last cluster is free. -/
def lastFree (c : Nat) : Nat := if c = 0xfff6 then 0 else 0xffff

/-- The file with the cluster 2, as it comes into memory, before and after it has been
extended. -/
def grown (frcn fsrcn : Nat) (old : Slot) : Denode := ⟨2, 0, false, false, ⟨FCE_EMPTY, 0⟩, ⟨frcn, fsrcn⟩, old⟩

theorem extendfile_large {m : Mount large} (hs : m.Shows ⟨Mount.freeBelow lastFree (large.maxcluster + 1), lastFree⟩) :
    ∃ m', (grown FCE_EMPTY 0 ⟨FCE_EMPTY, 0⟩).extendfile m 1 7 = some (.ok (), m', grown 1 0xfff6 ⟨0, 2⟩) := by
  have hchain : FileChain large m.fat 2 [2] := by
    rw [hs.fat]
    exact .inr ⟨.last (by decide) (by decide), by decide⟩
  have hwf : WellFormed large [2] := by
    unfold WellFormed
    decide
  have hcached : (grown FCE_EMPTY 0 ⟨FCE_EMPTY, 0⟩).Cached [2] :=
    ⟨fun s hs' hne => absurd ((by decide : ∀ s ∈ (grown FCE_EMPTY 0 ⟨FCE_EMPTY, 0⟩).fc, s.frcn = FCE_EMPTY) s hs') hne,
      fun hne => absurd rfl hne, by decide⟩
  -- The walk to the end fills `FC_LASTFC`.
  obtain ⟨c, hc, hmap⟩ := @Denode.pcbmap_tooBig large m (grown FCE_EMPTY 0 ⟨FCE_EMPTY, 0⟩) [2] CLUST_END hcached hchain hwf
    (by decide) (by decide)
  obtain rfl : 2 = c := some.inj hc
  -- The only free cluster is put behind it.
  rcases @Mount.Shows.clusteralloc_cases large m _ hs 3 1 7 (by decide) (by decide) with
    ⟨hstray, -⟩ | ⟨hempty, -⟩ | ⟨cn, got, m₁, hpos, hle, hrun, heq, hm₁⟩
  · exact absurd hstray (by decide)
  · have hmem : 0xfff6 ∈ Mount.freeBelow lastFree (large.maxcluster + 1) :=
      Finset.mem_filter.mpr ⟨Finset.mem_range.mpr (by decide), by decide, by decide⟩
    have hempty : Mount.freeBelow lastFree (large.maxcluster + 1) = ∅ := hempty
    rw [hempty] at hmem
    exact absurd hmem (Finset.notMem_empty _)
  obtain rfl : got = 1 := by omega
  obtain rfl : cn = 0xfff6 := by
    have hfree : lastFree cn = 0 := (Finset.mem_filter.mp (hrun 0 (by decide))).2.2
    by_contra hne
    rw [lastFree, if_neg hne] at hfree
    exact absurd hfree (by decide)
  have hcl : large.Cluster 2 := by decide
  obtain ⟨m₂, hm₂, -⟩ := hm₁.fatentry hcl 0xfff6
  refine ⟨m₂, ?_⟩
  rw [Denode.extendfile, hmap]
  show Denode.extendLoop 7 1 m (grown 0 2 ⟨0, 2⟩) 1 = _
  rw [Denode.extendLoop]
  have hstart : (grown 0 2 ⟨0, 2⟩).startCluster ≠ 0 := by decide
  have hlast : (grown 0 2 ⟨0, 2⟩).lastfc.fsrcn = 2 := rfl
  have hcn : ulong (2 + 1) = 3 := by decide
  simp only [bind_eq_bind, if_neg hstart, hlast, hcn, heq, bind_some, hm₂]
  rfl

theorem pcbmap_large (m : Mount large) : ((grown 1 0xfff6 ⟨0, 2⟩).pcbmap m 2).2 = grown 0 0 ⟨0, 2⟩ := by
  have hlook : (grown 1 0xfff6 ⟨0, 2⟩).fcLookup 2 = some ⟨1, 0xfff6⟩ := by decide
  have hwalk : Denode.walk m 1 1 0xfff6 0 = .hiteof 1 0 := if_pos (by decide)
  rw [Denode.pcbmap, hlook]
  simp only [getD_some, hwalk]
  decide

/-- A cluster is added to the file, and a lookup behind it puts cluster 0 into the cache as the
first cluster of the file. -/
theorem cache_stale : ¬∀ (g : Geometry) (w : World g), (msdosfs g).Reach World.Promised w →
    ∀ f d, w.files f = some d → ∃ l, CacheRight w.mnt d l := by
  intro h
  obtain ⟨m, hm, hs⟩ := (unfilled large lastFree).fillinusemap_spec nofun
  have hload := reach_loadvnode (l := [2]) hm (.inr ⟨.last (by decide) (by decide), by decide⟩) (by unfold WellFormed; decide)
  obtain ⟨m₁, hext⟩ := extendfile_large hs
  obtain ⟨w₁, hw₁⟩ : ∃ w₁ : World large, w₁ = ⟨m₁, update (update (fun _ => none) 0
    (some (Denode.loadvnode m 2 (ulong 0) false false))) 0 (some (grown 1 0xfff6 ⟨0, 2⟩))⟩ := ⟨_, rfl⟩
  have hreach₁ : (msdosfs large).Reach World.Promised w₁ := by
    refine .step (a := .extendfile 0 1 7) hload rfl ?_
    show (((grown FCE_EMPTY 0 ⟨FCE_EMPTY, 0⟩).extendfile m 1 7).map _ : Option (World large)) = some w₁
    rw [hext, hw₁]
    rfl
  have hfile₁ : w₁.files 0 = some (grown 1 0xfff6 ⟨0, 2⟩) := by
    rw [hw₁]
    rfl
  have hreach₂ : (msdosfs large).Reach World.Promised ⟨w₁.mnt, update w₁.files 0 (some (grown 0 0 ⟨0, 2⟩))⟩ := by
    refine .step (a := .pcbmap 0 2) hreach₁ (by simp [World.Promised, hfile₁]) ?_
    show w₁.onFile 0 (fun m d => some (.ok (), m, (d.pcbmap m 2).2)) = some _
    rw [World.onFile, hfile₁, bind_some, map_some, pcbmap_large]
  obtain ⟨l, hright⟩ := h large _ hreach₂ 0 (grown 0 0 ⟨0, 2⟩) rfl
  obtain ⟨t, ht⟩ := (hright.chain.linked (by decide)).eq_cons
  have hslot := hright.slots ⟨0, 0⟩ (by decide) (by decide)
  rw [ht] at hslot
  exact absurd (some.inj hslot) (by decide)

end NetBSD.Fs.Msdosfs
