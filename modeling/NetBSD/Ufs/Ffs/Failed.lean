import NetBSD.Ufs.Ffs.Calls

/-! Allocations that fail.

`ffs_alloccg` answers 0 when it can't allocate. A contiguous allocation whose preferred block
is taken is refused inside `ffs_alloccgblk`, which answers 0 too; `ffs_alloccg` takes that for
a block: it gives back the fragments behind `realsize`, or those that a split leaves, of the
first block of the group. `failed_alloc_iff` says when an answer of 0 leaves the group and
the totals alone: unless that happens, and unless the allocation begins at fragment 0 of the
file system, whose number is 0 as well. -/
namespace NetBSD.Ufs.Ffs
open Function Option
open Lib

def B_METAONLY : Nat := 0x04
def B_CONTIG : Nat := 0x08

/-- No other than the preferred block will do. -/
def contig (flags : Nat) : Bool := flags &&& (B_CONTIG ||| B_METAONLY) == B_CONTIG

variable (g : Geometry)

/-- `ffs_alloccg`; `good` says that the group can be read, and is one. -/
def ffsAlloccg (s : Fs) (c bpref size realsize flags : Nat) (good : Bool) : Option (Fs × Nat) :=
  if (s.cs c).nbfree = 0 ∧ size = g.bsize then some (s, 0)
  else if good = false then some (s, 0)
  else alloccg g s c bpref size realsize (contig flags)

/-- The free map and the counters of the group, and the counts in core. -/
structure LeftAlone (s s' : Fs) (c : Nat) : Prop where
  blksfree : (s'.cgs c).blksfree = (s.cgs c).blksfree
  nbfree : (s'.cgs c).nbfree = (s.cgs c).nbfree
  nffree : (s'.cgs c).nffree = (s.cgs c).nffree
  frsum : (s'.cgs c).frsum = (s.cgs c).frsum
  clustersfree : (s'.cgs c).clustersfree = (s.cgs c).clustersfree
  clustersum : (s'.cgs c).clustersum = (s.cgs c).clustersum
  cs : s'.cs = s.cs
  cstotal : s'.cstotal = s.cstotal
  maxcluster : s'.maxcluster = s.maxcluster

/-- The preferred block is in this group. -/
def Prefers (s : Fs) (c bpref : Nat) : Prop := ¬(bpref = 0 ∨ g.dtog bpref ≠ (ufsRw32 (s.cgs c).cgx g.needswap).toNat)

/-- The preferred block is free. -/
def PreferredFree (s : Fs) (c bpref : Nat) : Prop :=
  isblock g.fragshift (s.cgs c).blksfree (g.fragstoblks (g.dtogd (g.blknum bpref))) = true

/-- The preferred block is taken, and no other will do. -/
def Refused (s : Fs) (c bpref : Nat) (contig : Bool) : Prop := Prefers g s c bpref ∧ ¬PreferredFree g s c bpref ∧ contig = true

/-- The size of the runs that fragments are taken from; `fs_frag` when there is none long
enough. -/
def runSize (s : Fs) (c size : Nat) : Nat := ((List.range' (g.numfrags size) (g.frag - g.numfrags size)).find? fun k =>
  (s.cgs c).frsum k ≠ 0).getD g.frag

/-- A refusal that `ffs_alloccg` takes for the first block of the group: it gives back the end
of it, which is allocated, or what is left of it. -/
def Spoils (s : Fs) (c bpref size realsize : Nat) (contig : Bool) : Prop :=
  Refused g s c bpref contig ∧ (s.cgs c).nbfree ≠ 0 ∧ (size = g.bsize ∧ realsize ≠ 0 ∧ realsize < size ∧
        (∀ i < g.numfrags (size - realsize), bit (s.cgs c).blksfree (g.numfrags realsize + i) = false) ∨
      size ≠ g.bsize ∧ runSize g s c size = g.frag)

/-- The fragment of the group where a block is taken: the preferred one, or what the search
finds. -/
def blockPlace (s : Fs) (c bpref : Nat) (contig : Bool) : Option Nat :=
  if bpref = 0 ∨ g.dtog bpref ≠ (ufsRw32 (s.cgs c).cgx g.needswap).toNat then
    (mapsearch g (s.cgs c) (ufsRw32 (s.cgs c).rotor g.needswap).toNat g.frag).map Prod.snd
  else if isblock g.fragshift (s.cgs c).blksfree (g.fragstoblks (g.dtogd (g.blknum bpref))) then
    some (g.dtogd (g.blknum bpref))
  else if contig then none
  else (mapsearch g (s.cgs c) (g.blknum bpref) g.frag).map Prod.snd

/-- The fragment of the group where the allocation begins. -/
def place (s : Fs) (c bpref size : Nat) (contig : Bool) : Option Nat :=
  if size = g.bsize ∨ runSize g s c size = g.frag then
    if (s.cgs c).nbfree = 0 then none else blockPlace g s c bpref contig
  else (mapsearch g (s.cgs c) bpref (runSize g s c size)).map Prod.snd

section Blocks
variable {g} {s s' : Fs} {c bpref size realsize : Nat}

/-- What `ffs_alloccgblk` does: it takes the block, is refused, or panics. -/
theorem alloccgblk_cases (s : Fs) (c bpref : Nat) (contig : Bool) :
    (∃ bno rotor frotor, blockPlace g s c bpref contig = some bno ∧ ¬Refused g s c bpref contig ∧
      alloccgblk g s c bpref contig = some (gotit g (s.setCg c {s.cgs c with rotor := rotor, frotor := frotor}) c bno)) ∨
    (blockPlace g s c bpref contig = none ∧ Refused g s c bpref contig ∧ alloccgblk g s c bpref contig = some (s, 0)) ∨
    blockPlace g s c bpref contig = none ∧ ¬Refused g s c bpref contig ∧ alloccgblk g s c bpref contig = none := by
  -- A search finds a place and moves the rotors, or panics.
  have hsearch (from' : Nat) : (∃ bno rotor frotor, (mapsearch g (s.cgs c) from' g.frag).map Prod.snd = some bno ∧
      ((mapsearch g (s.cgs c) from' g.frag).map fun found =>
        gotit g (s.setCg c {found.1 with rotor := ufsRw32 (BitVec.ofNat 32 found.2) g.needswap}) c found.2) =
      some (gotit g (s.setCg c {s.cgs c with rotor := rotor, frotor := frotor}) c bno)) ∨
      (mapsearch g (s.cgs c) from' g.frag).map Prod.snd = none ∧ ((mapsearch g (s.cgs c) from' g.frag).map fun found =>
        gotit g (s.setCg c {found.1 with rotor := ufsRw32 (BitVec.ofNat 32 found.2) g.needswap}) c found.2) = none := by
    cases hfound : mapsearch g (s.cgs c) from' g.frag with
    | none => exact .inr ⟨rfl, rfl⟩
    | some found =>
      obtain ⟨cgp, bno⟩ := found
      have hcgp := (Shows.mapsearch_run g.frag_pos (le_refl _) hfound).1
      refine .inl ⟨bno, ufsRw32 (BitVec.ofNat 32 bno) g.needswap, cgp.frotor, rfl, ?_⟩
      show some (gotit g (s.setCg c {cgp with rotor := _}) c bno) = _
      rw [hcgp]
  unfold blockPlace alloccgblk Refused Prefers PreferredFree
  by_cases hrotor : bpref = 0 ∨ g.dtog bpref ≠ (ufsRw32 (s.cgs c).cgx g.needswap).toNat
  · rw [if_pos hrotor, if_pos hrotor]
    rcases hsearch (ufsRw32 (s.cgs c).rotor g.needswap).toNat with ⟨bno, rotor, frotor, hplace, hgot⟩ | ⟨hplace, hgot⟩
    · exact .inl ⟨bno, rotor, frotor, hplace, fun h => h.1 hrotor, hgot⟩
    · exact .inr (.inr ⟨hplace, fun h => h.1 hrotor, hgot⟩)
  rw [if_neg hrotor, if_neg hrotor]
  by_cases hblk : isblock g.fragshift (s.cgs c).blksfree (g.fragstoblks (g.dtogd (g.blknum bpref))) = true
  · rw [if_pos hblk, if_pos hblk]
    refine .inl ⟨_, (s.cgs c).rotor, (s.cgs c).frotor, rfl, fun h => h.2.1 hblk, ?_⟩
    have hsame : s.setCg c {s.cgs c with rotor := (s.cgs c).rotor, frotor := (s.cgs c).frotor} = s := by
      show {s with cgs := update s.cgs c (s.cgs c)} = s
      rw [update_eq_self]
    rw [hsame]
  rw [if_neg hblk, if_neg hblk]
  cases contig with
  | true => exact .inr (.inl ⟨rfl, ⟨hrotor, hblk, rfl⟩, rfl⟩)
  | false =>
    rcases hsearch (g.blknum bpref) with ⟨bno, rotor, frotor, hplace, hgot⟩ | ⟨hplace, hgot⟩
    · exact .inl ⟨bno, rotor, frotor, hplace, fun h => absurd h.2.2 (by decide), hgot⟩
    · exact .inr (.inr ⟨hplace, fun h => absurd h.2.2 (by decide), hgot⟩)

theorem clusteracct_frame (s : Fs) (c blkno : Nat) (cnt : Int) : (clusteracct g s c blkno cnt).cstotal = s.cstotal ∧
    ((clusteracct g s c blkno cnt).cgs c).blksfree = (s.cgs c).blksfree := by
  unfold clusteracct
  split
  · exact ⟨rfl, rfl⟩
  refine ⟨rfl, ?_⟩
  show (update s.cgs c _ c).blksfree = _
  rw [update_self]

theorem gotit_frame (s : Fs) (c bno : Nat) : (gotit g s c bno).1.cstotal = ⟨s.cstotal.nbfree + -1, s.cstotal.nffree⟩ ∧
    ((gotit g s c bno).1.cgs c).blksfree = clrblock g.fragshift (s.cgs c).blksfree (g.fragstoblks bno) ∧
    (gotit g s c bno).2 = g.cgbase (ufsRw32 (s.cgs c).cgx g.needswap).toNat + bno := by
  have hframe := @clusteracct_frame g (s.setCg c {s.cgs c with
    blksfree := clrblock g.fragshift (s.cgs c).blksfree (g.fragstoblks bno)}) c (g.fragstoblks bno) (-1)
  refine ⟨?_, ?_, rfl⟩
  · show (⟨(clusteracct g _ c _ (-1)).cstotal.nbfree + -1, (clusteracct g _ c _ (-1)).cstotal.nffree⟩ : Csum) = _
    rw [hframe.1]
    rfl
  show (update (clusteracct g _ c _ (-1)).cgs c _ c).blksfree = _
  rw [update_self]
  rw [hframe.2]
  show (update s.cgs c _ c).blksfree = _
  rw [update_self]

theorem giveBack_cases (s : Fs) (c bno size : Nat) (hne : size ≠ g.bsize) :
    ((∃ i < g.numfrags size, bit (s.cgs c).blksfree (g.dtogd bno + i) = true) ∧ blkfreeCommon g s c bno size false = none) ∨
    (∀ i < g.numfrags size, bit (s.cgs c).blksfree (g.dtogd bno + i) = false) ∧ ∃ s', blkfreeCommon g s c bno size false = some s' ∧
        if Row.Full g.frag (Row.row g.frag (Row.fill (bit (s.cgs c).blksfree) (g.dtogd bno) (g.numfrags size) true)
            (g.fragstoblks (g.dtogd bno - g.fragnum (g.dtogd bno)))) then s'.cstotal.nbfree = s.cstotal.nbfree + 1
        else s'.cstotal = ⟨s.cstotal.nbfree, s.cstotal.nffree + g.numfrags size⟩ := by
  unfold blkfreeCommon
  dsimp only
  rw [if_neg hne]
  by_cases hany : ((List.range (g.numfrags size)).any fun i => isset (s.cgs c).blksfree (g.dtogd bno + i)) = true
  · rw [if_pos hany]
    obtain ⟨i, hi, hset⟩ := List.any_eq_true.mp hany
    rw [isset_eq] at hset
    exact .inl ⟨⟨i, List.mem_range.mp hi, hset⟩, rfl⟩
  rw [if_neg hany]
  refine .inr ⟨fun i hi => ?_, ?_⟩
  · by_contra hset
    refine hany (List.any_eq_true.mpr ⟨i, List.mem_range.mpr hi, ?_⟩)
    rw [isset_eq]
    simpa using hset
  rw [← bit_setbits]
  split
  · next hblk =>
    refine ⟨_, rfl, ?_⟩
    rw [isblock_iff] at hblk
    rw [if_pos hblk]
    show (clusteracct g _ c _ 1).cstotal.nbfree + 1 = _
    rw [(clusteracct_frame _ _ _ _).1]
    rfl
  · next hblk =>
    refine ⟨_, rfl, ?_⟩
    rw [isblock_iff] at hblk
    rw [if_neg hblk]
    rfl

end Blocks

/-! ### The three ways to allocate -/

section Ways
variable {g} {s s' : Fs} {c bpref size realsize blk : Nat} {contig : Bool}

theorem alloccg_block (hnb : ¬((s.cs c).nbfree = 0 ∨ (s.cgs c).nbfree = 0)) : alloccg g s c bpref g.bsize realsize contig =
    (alloccgblk g s c bpref contig).bind fun got =>
      if realsize ≠ 0 ∧ realsize < g.bsize then
        (blkfreeCommon g got.1 c (got.2 + g.numfrags realsize) (g.bsize - realsize) false).map fun s => (s, got.2)
      else some got := by
  unfold alloccg
  rw [if_neg fun h => hnb (.inl h.1), if_neg fun h => hnb (.inr h.1), if_pos rfl]

theorem alloccg_split (hne : size ≠ g.bsize) (hrun : runSize g s c size = g.frag) : alloccg g s c bpref size realsize contig =
    if (s.cgs c).nbfree = 0 then some (s, 0) else alloccgSplit g s c bpref (g.numfrags size) contig := by
  unfold runSize at hrun
  unfold alloccg
  rw [if_neg fun h => hne h.2, if_neg fun h => hne h.2, if_neg hne]
  rw [if_pos hrun]

theorem alloccg_frags (hne : size ≠ g.bsize) (hrun : runSize g s c size ≠ g.frag) : alloccg g s c bpref size realsize contig =
    alloccgFrags g s c bpref (g.numfrags size) (runSize g s c size) := by
  unfold runSize at hrun ⊢
  unfold alloccg
  rw [if_neg fun h => hne h.2, if_neg fun h => hne h.2, if_neg hne]
  rw [if_neg hrun]

theorem alloccgFrags_cases (s : Fs) (c bpref frags allocsiz : Nat) : (∃ bno s', (mapsearch g (s.cgs c) bpref allocsiz).map Prod.snd = some bno ∧
      alloccgFrags g s c bpref frags allocsiz = some (s', g.cgbase c + bno) ∧
      s'.cstotal = ⟨s.cstotal.nbfree, s.cstotal.nffree + -frags⟩) ∨
    (mapsearch g (s.cgs c) bpref allocsiz).map Prod.snd = none ∧ alloccgFrags g s c bpref frags allocsiz = none := by
  unfold alloccgFrags
  cases mapsearch g (s.cgs c) bpref allocsiz with
  | none => exact .inr ⟨rfl, rfl⟩
  | some found => exact .inl ⟨found.2, _, rfl, rfl, rfl⟩

theorem alloccgSplit_some {frags : Nat} {got : Fs × Nat} (h : alloccgblk g s c bpref contig = some got) :
    ∃ s', alloccgSplit g s c bpref frags contig = some (s', got.2) ∧
      s'.cstotal = ⟨got.1.cstotal.nbfree, got.1.cstotal.nffree + (g.frag - frags : Nat)⟩ := by
  unfold alloccgSplit
  rw [h]
  exact ⟨_, rfl, rfl⟩

theorem cgx_rotors (s : Fs) (c : Nat) (rotor frotor : BitVec 32) :
    ((s.setCg c {s.cgs c with rotor := rotor, frotor := frotor}).cgs c).cgx = (s.cgs c).cgx := by
  show (update s.cgs c _ c).cgx = _
  rw [update_self]

theorem numfrags_lt_frag (h : size < g.bsize) : g.numfrags size < g.frag := Nat.div_lt_of_lt_mul (by
  rw [mul_comm]
  exact h)

theorem dtogd_numfrags (h : size < g.bsize) : g.dtogd (g.numfrags size) = g.numfrags size :=
  Nat.mod_eq_of_lt ((numfrags_lt_frag h).trans_le (Nat.le_of_dvd g.fpg_pos g.frag_dvd))

theorem leftAlone_refl (s : Fs) (c : Nat) : LeftAlone s s c := ⟨rfl, rfl, rfl, rfl, rfl, rfl, rfl, rfl, rfl⟩

theorem nbfree_zero (he : s.Exact g) (hc : c < g.ncg) : (s.cs c).nbfree = 0 ↔ (s.cgs c).nbfree = 0 := by
  rw [he.cs c hc]
  constructor
  · intro h
    have hzero : (ufsRw32 (s.cgs c).nbfree g.needswap).toNat = 0 := Int.natCast_eq_zero.mp h
    exact ufsRw32_eq_zero.mp (BitVec.eq_of_toNat_eq hzero)
  · intro h
    rw [ufsRw32_eq_zero.mpr h]
    rfl

theorem number_zero {bno : Nat} (h : g.cgbase c + bno = 0) : c = 0 ∧ bno = 0 := by
  obtain ⟨hbase, hbno⟩ := Nat.add_eq_zero_iff.mp h
  rw [Geometry.cgbase, Nat.mul_eq_zero] at hbase
  exact ⟨hbase.resolve_left g.fpg_pos.ne', hbno⟩

/-- An answer of 0 in a case that does not spoil the group is one of a call that did
nothing. -/
theorem alloccg_leftAlone (hcgx : (ufsRw32 (s.cgs c).cgx g.needswap).toNat = c) (hzero : (s.cs c).nbfree = 0 ↔ (s.cgs c).nbfree = 0)
    (hspoils : ¬Spoils g s c bpref size realsize contig) (hplace : ¬(c = 0 ∧ place g s c bpref size contig = some 0))
    (hs : alloccg g s c bpref size realsize contig = some (s', 0)) : s' = s := by
  -- A block that is taken has a number.
  have hgot {bno : Nat} {rotor frotor : BitVec 32} (hb : blockPlace g s c bpref contig = some bno)
      (hway : size = g.bsize ∨ runSize g s c size = g.frag) (hnb : (s.cgs c).nbfree ≠ 0) :
      (gotit g (s.setCg c {s.cgs c with rotor := rotor, frotor := frotor}) c bno).2 ≠ 0 := by
    intro hblk
    rw [(gotit_frame _ c bno).2.2] at hblk
    rw [cgx_rotors, hcgx] at hblk
    obtain ⟨hc, rfl⟩ := number_zero hblk
    refine hplace ⟨hc, ?_⟩
    rw [place, if_pos hway, if_neg hnb]
    exact hb
  by_cases hbsize : size = g.bsize
  · subst hbsize
    by_cases hnb : (s.cs c).nbfree = 0 ∨ (s.cgs c).nbfree = 0
    · have hcs : (s.cs c).nbfree = 0 := hnb.elim id hzero.mpr
      unfold alloccg at hs
      rw [if_pos ⟨hcs, rfl⟩] at hs
      exact (Prod.mk.inj (some.inj hs)).1.symm
    rw [alloccg_block hnb] at hs
    have hnb' : (s.cgs c).nbfree ≠ 0 := fun h => hnb (.inr h)
    rcases @alloccgblk_cases g s c bpref contig with ⟨bno, rotor, frotor, hb, -, heq⟩ | ⟨-, href, heq⟩ | ⟨-, -, heq⟩
    · have hne := @hgot bno rotor frotor hb (.inl rfl) hnb'
      rw [heq] at hs
      split at hs
      · obtain ⟨s₁, -, hret⟩ := map_eq_some_iff.mp hs
        exact absurd (Prod.mk.inj hret).2 hne
      · exact absurd (congrArg Prod.snd (some.inj hs)) hne
    · rw [heq, bind_some] at hs
      split at hs
      · next hreal =>
        rw [zero_add] at hs
        have hnr := @dtogd_numfrags g realsize hreal.2
        have hne : g.bsize - realsize ≠ g.bsize := by omega
        rcases giveBack_cases s c (g.numfrags realsize) _ hne with ⟨-, hpanic⟩ | ⟨hclear, -⟩
        · rw [hpanic] at hs
          exact absurd hs (by simp)
        · rw [hnr] at hclear
          exact absurd ⟨href, hnb', .inl ⟨rfl, hreal.1, hreal.2, hclear⟩⟩ hspoils
      · exact (Prod.mk.inj (some.inj hs)).1.symm
    · rw [heq] at hs
      exact absurd hs (by simp)
  · by_cases hrun : runSize g s c size = g.frag
    · rw [alloccg_split hbsize hrun] at hs
      by_cases hnb : (s.cgs c).nbfree = 0
      · rw [if_pos hnb] at hs
        exact (Prod.mk.inj (some.inj hs)).1.symm
      rw [if_neg hnb] at hs
      rcases @alloccgblk_cases g s c bpref contig with ⟨bno, rotor, frotor, hb, -, heq⟩ | ⟨-, href, heq⟩ | ⟨-, -, heq⟩
      · obtain ⟨s₁, hsplit, -⟩ := @alloccgSplit_some g s c bpref contig (g.numfrags size) _ heq
        rw [hsplit] at hs
        exact absurd (Prod.mk.inj (some.inj hs)).2 (hgot hb (.inr hrun) hnb)
      · exact absurd ⟨href, hnb, .inr ⟨hbsize, hrun⟩⟩ hspoils
      · unfold alloccgSplit at hs
        rw [heq] at hs
        exact absurd hs (by simp)
    · rw [alloccg_frags hbsize hrun] at hs
      rcases @alloccgFrags_cases g s c bpref (g.numfrags size) (runSize g s c size) with ⟨bno, s₁, hb, heq, -⟩ | ⟨-, heq⟩
      · rw [heq] at hs
        obtain ⟨hc, rfl⟩ := number_zero (Prod.mk.inj (some.inj hs)).2
        refine absurd ⟨hc, ?_⟩ hplace
        rw [place, if_neg (not_or.mpr ⟨hbsize, hrun⟩)]
        exact hb
      · rw [heq] at hs
        exact absurd hs (by simp)

/-- A refusal taken for a block is answered by 0, and the totals have changed. -/
theorem spoils_changes (hle : size ≤ g.bsize) (hreal : g.fsize ∣ realsize)
    (hzero : (s.cs c).nbfree = 0 ↔ (s.cgs c).nbfree = 0) (h : Spoils g s c bpref size realsize contig) :
    ∃ s', alloccg g s c bpref size realsize contig = some (s', 0) ∧ s'.cstotal ≠ s.cstotal := by
  obtain ⟨href, hnb, hway⟩ := h
  have hrefused : alloccgblk g s c bpref contig = some (s, 0) := by
    rcases @alloccgblk_cases g s c bpref contig with ⟨-, -, -, -, hnot, -⟩ | ⟨-, -, heq⟩ | ⟨-, hnot, -⟩
    · exact absurd href hnot
    · exact heq
    · exact absurd href hnot
  rcases hway with ⟨rfl, hreal0, hlt, hclear⟩ | ⟨hne, hrun⟩
  · have hboth : ¬((s.cs c).nbfree = 0 ∨ (s.cgs c).nbfree = 0) := fun h => hnb (h.elim hzero.mp id)
    have hfrags : 0 < g.numfrags (g.bsize - realsize) :=
      numfrags_pos (Nat.dvd_sub (Dvd.intro_left _ rfl) hreal) (Nat.sub_pos_of_lt hlt)
    have hnr := @dtogd_numfrags g realsize hlt
    have hne : g.bsize - realsize ≠ g.bsize := by omega
    rw [alloccg_block hboth, hrefused, bind_some, if_pos ⟨hreal0, hlt⟩, zero_add]
    rcases giveBack_cases s c (g.numfrags realsize) _ hne with ⟨⟨i, hi, hset⟩, -⟩ | ⟨-, s', hs', htotal⟩
    · rw [hnr, hclear i hi] at hset
      exact absurd hset (by decide)
    refine ⟨s', by rw [hs']; rfl, fun hsame => ?_⟩
    rw [hsame] at htotal
    split at htotal
    · omega
    · have hnf : s.cstotal.nffree = s.cstotal.nffree + g.numfrags (g.bsize - realsize) := congrArg Csum.nffree htotal
      omega
  · obtain ⟨s', hsplit, htotal⟩ := @alloccgSplit_some g s c bpref contig (g.numfrags size) _ hrefused
    rw [alloccg_split hne hrun, if_neg hnb]
    refine ⟨s', hsplit, fun hsame => ?_⟩
    have hlt : g.numfrags size < g.frag := numfrags_lt_frag (lt_of_le_of_ne hle hne)
    have hnf : s.cstotal.nffree = s.cstotal.nffree + (g.frag - g.numfrags size : Nat) := by
      rw [← hsame]
      exact (congrArg Csum.nffree htotal).trans (by rw [hsame])
    omega

/-- Fragment 0 of the file system has the number 0, and the totals show that it is taken. -/
theorem place_changes (hsize : g.fsize ∣ size) (hpos : 0 < size) (hreal : g.fsize ∣ realsize)
    (hcgx : (ufsRw32 (s.cgs 0).cgx g.needswap).toNat = 0) (hzero : (s.cs 0).nbfree = 0 ↔ (s.cgs 0).nbfree = 0)
    (h : place g s 0 bpref size contig = some 0) :
    ∃ s', alloccg g s 0 bpref size realsize contig = some (s', 0) ∧ s'.cstotal ≠ s.cstotal := by
  unfold place at h
  by_cases hway : size = g.bsize ∨ runSize g s 0 size = g.frag
  · rw [if_pos hway] at h
    by_cases hnb : (s.cgs 0).nbfree = 0
    · rw [if_pos hnb] at h
      exact absurd h (by simp)
    rw [if_neg hnb] at h
    -- The block at fragment 0 is taken, with the number 0.
    obtain ⟨got, hgot, hnumber, htotal, hmap⟩ : ∃ got, alloccgblk g s 0 bpref contig = some got ∧ got.2 = 0 ∧
        got.1.cstotal = ⟨s.cstotal.nbfree + -1, s.cstotal.nffree⟩ ∧
        ∀ i < g.frag, bit (got.1.cgs 0).blksfree i = false := by
      rcases @alloccgblk_cases g s 0 bpref contig with ⟨bno, rotor, frotor, hb, -, heq⟩ | ⟨hb, -⟩ | ⟨hb, -⟩
      · obtain rfl := some.inj (hb.symm.trans h)
        obtain ⟨htotal, hmap, hnumber⟩ :=
          @gotit_frame g (s.setCg 0 {s.cgs 0 with rotor := rotor, frotor := frotor}) 0 0
        refine ⟨_, heq, ?_, htotal, fun i hi => ?_⟩
        · rw [hnumber, cgx_rotors, hcgx]
          rfl
        have hblock : g.fragstoblks 0 = 0 := Nat.zero_div _
        rw [hmap, hblock, bit_clrblock, zero_mul]
        exact Row.fill_inside (Nat.zero_le i) ((Nat.zero_add g.frag).symm ▸ hi)
      · rw [hb] at h
        exact absurd h (by simp)
      · rw [hb] at h
        exact absurd h (by simp)
    obtain ⟨s₁, blk⟩ := got
    obtain rfl : blk = 0 := hnumber
    by_cases hbsize : size = g.bsize
    · subst hbsize
      have hboth : ¬((s.cs 0).nbfree = 0 ∨ (s.cgs 0).nbfree = 0) := fun h => hnb (h.elim hzero.mp id)
      rw [alloccg_block hboth, hgot, bind_some]
      by_cases hshrink : realsize ≠ 0 ∧ realsize < g.bsize
      · -- The end of the block goes back; its beginning stays.
        have hne : g.bsize - realsize ≠ g.bsize := by omega
        have hpositive := numfrags_pos hreal (pos_of_ne_zero hshrink.1)
        have hinside : g.numfrags realsize + g.numfrags (g.bsize - realsize) = g.frag := by
          rw [Geometry.numfrags, Geometry.numfrags, ← Nat.add_div_of_dvd_right hreal, Nat.add_sub_cancel' hshrink.2.le]
          exact g.numfrags_bsize
        rw [if_pos hshrink, zero_add]
        rcases giveBack_cases s₁ 0 (g.numfrags realsize) _ hne with ⟨⟨i, hi, hset⟩, -⟩ | ⟨-, s', hs', htotal'⟩
        · rw [dtogd_numfrags hshrink.2, hmap _ (by omega)] at hset
          exact absurd hset (by decide)
        refine ⟨s', by rw [hs']; rfl, fun hsame => ?_⟩
        have hzeroth : ¬Row.Full g.frag (Row.row g.frag (Row.fill (bit (s₁.cgs 0).blksfree) (g.dtogd (g.numfrags realsize))
            (g.numfrags (g.bsize - realsize)) true)
            (g.fragstoblks (g.dtogd (g.numfrags realsize) - g.fragnum (g.dtogd (g.numfrags realsize))))) := by
          intro hfull
          have hbit := hfull 0 g.frag_pos
          rw [dtogd_numfrags hshrink.2, Geometry.fragnum, Nat.mod_eq_of_lt (numfrags_lt_frag hshrink.2), Nat.sub_self,
            Geometry.fragstoblks, Nat.zero_div, Row.row, zero_mul, Row.fill_outside (.inl hpositive), hmap 0 g.frag_pos] at hbit
          exact absurd hbit (by decide)
        rw [if_neg hzeroth, htotal] at htotal'
        have hnbfree : s.cstotal.nbfree = s.cstotal.nbfree + -1 := congrArg Csum.nbfree (hsame.symm.trans htotal')
        omega
      · rw [if_neg hshrink]
        refine ⟨s₁, rfl, fun hsame => ?_⟩
        have hnbfree : s.cstotal.nbfree = s.cstotal.nbfree + -1 := congrArg Csum.nbfree (hsame.symm.trans htotal)
        omega
    · have hrun := hway.resolve_left hbsize
      obtain ⟨s', hsplit, htotal'⟩ := @alloccgSplit_some g s 0 bpref contig (g.numfrags size) _ hgot
      rw [alloccg_split hbsize hrun, if_neg hnb]
      refine ⟨s', hsplit, fun hsame => ?_⟩
      rw [hsame, htotal] at htotal'
      have hnbfree : s.cstotal.nbfree = s.cstotal.nbfree + -1 := congrArg Csum.nbfree htotal'
      omega
  · obtain ⟨hbsize, hrun⟩ := not_or.mp hway
    rw [if_neg hway] at h
    rw [alloccg_frags hbsize hrun]
    rcases @alloccgFrags_cases g s 0 bpref (g.numfrags size) (runSize g s 0 size) with ⟨bno, s', hb, heq, htotal⟩ | ⟨hb, -⟩
    · obtain rfl := some.inj (hb.symm.trans h)
      refine ⟨s', heq, fun hsame => ?_⟩
      have hfrags := numfrags_pos hsize hpos
      have hnf : s.cstotal.nffree = s.cstotal.nffree + -g.numfrags size := congrArg Csum.nffree (hsame.symm.trans htotal)
      omega
    · rw [hb] at h
      exact absurd h (by simp)

end Ways

/-- An answer of 0 leaves the group and the totals alone unless the group is read and a refusal
is taken for a block, or fragment 0 of the file system is given away. -/
theorem failed_alloc_iff (g : Geometry) {s : Fs} {c : Nat} (bpref : Nat) {size realsize : Nat} (flags : Nat) (good : Bool)
    (he : s.Exact g) (hw : s.WellFormed g) (hc : c < g.ncg) (hsize : g.fsize ∣ size) (hpos : 0 < size) (hle : size ≤ g.bsize)
    (hreal : g.fsize ∣ realsize) :
    (∀ s', ffsAlloccg g s c bpref size realsize flags good = some (s', 0) → LeftAlone s s' c) ↔
      (good = true → ¬Spoils g s c bpref size realsize (contig flags) ∧ ¬(c = 0 ∧ place g s c bpref size (contig flags) = some 0)) := by
  have hzero := nbfree_zero he hc
  have hcgx : (ufsRw32 (s.cgs c).cgx g.needswap).toNat = c := hw.cgx c hc
  constructor
  · intro hall hgood
    subst hgood
    -- A call that answers 0 with other totals is one that got as far as the maps.
    have hnot (h : ∃ s', alloccg g s c bpref size realsize (contig flags) = some (s', 0) ∧ s'.cstotal ≠ s.cstotal) : False := by
      obtain ⟨s', hs', htotal⟩ := h
      refine htotal (hall s' ?_).cstotal
      unfold ffsAlloccg
      by_cases hfirst : (s.cs c).nbfree = 0 ∧ size = g.bsize
      · rw [alloccg, if_pos hfirst] at hs'
        rw [if_pos hfirst]
        exact hs'
      · rw [if_neg hfirst]
        exact hs'
    constructor
    · intro hspoils
      exact hnot (spoils_changes hle hreal hzero hspoils)
    · rintro ⟨rfl, hplace⟩
      exact hnot (place_changes hsize hpos hreal hcgx hzero hplace)
  · intro hcond s' hs'
    unfold ffsAlloccg at hs'
    split at hs'
    · obtain rfl := (Prod.mk.inj (some.inj hs')).1
      exact leftAlone_refl _ c
    split at hs'
    · obtain rfl := (Prod.mk.inj (some.inj hs')).1
      exact leftAlone_refl _ c
    · next hgood =>
      obtain ⟨hspoils, hplace⟩ := hcond (by simpa using hgood)
      rw [alloccg_leftAlone hcgx hzero hspoils hplace hs']
      exact leftAlone_refl _ c

/-- The preferred block is free, and a fragment of it is asked for. -/
theorem failed_alloc_iff_free : PreferredFree small fresh 0 5 ∧
    ∀ s', ffsAlloccg small fresh 0 5 1024 0 B_CONTIG true = some (s', 0) → LeftAlone fresh s' 0 := by
  have hfree : PreferredFree small fresh 0 5 := by
    unfold PreferredFree
    decide
  exact ⟨hfree, (failed_alloc_iff small 5 B_CONTIG true fresh_exact.1 fresh_exact.2 (by decide) (by decide) (by decide) (by decide)
    (by decide)).mpr fun _ => ⟨fun h => h.1.2.1 hfree, fun h => absurd h.2 (by decide)⟩⟩

/-- Block 0 is taken, there are no single fragments, and one is asked for. -/
theorem refusal_changes_total : ¬∀ (g : Geometry) (s : Fs) (c bpref size realsize flags : Nat) (good : Bool),
    s.Exact g → s.WellFormed g → c < g.ncg → g.fsize ∣ size → 0 < size → size ≤ g.bsize → g.fsize ∣ realsize →
    ∀ s', ffsAlloccg g s c bpref size realsize flags good = some (s', 0) → LeftAlone s s' c := by
  intro hall
  have hcall : (ffsAlloccg small fresh 0 1 1024 0 B_CONTIG true).map (fun got => (got.1.cstotal, got.2)) = some (⟨3, 3⟩, 0) := by
    decide
  obtain ⟨⟨s', blk⟩, hs', hgot⟩ := map_eq_some_iff.mp hcall
  obtain ⟨htotal, rfl⟩ := Prod.mk.inj hgot
  have halone := hall small fresh 0 1 1024 0 B_CONTIG true fresh_exact.1 fresh_exact.2 (by decide) (by decide) (by decide)
    (by decide) (by decide) s' hs'
  rw [halone.cstotal] at htotal
  exact absurd htotal (by decide)

end NetBSD.Ufs.Ffs
