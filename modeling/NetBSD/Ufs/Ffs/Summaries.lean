import NetBSD.Ufs.Ffs.Books

/-! The summaries agree with the free map.

Each function that allocates or frees takes a group that shows an exact ledger to one that
shows another exact ledger, whose free fragments are those of the first without the
allocated range or with the freed one. -/
namespace NetBSD.Ufs.Ffs
open List Option Nat Function
open Lib

namespace Geometry
variable {g : Geometry} {size : Nat}

/-- A range of fragments inside one block of a group. -/
structure Inside (g : Geometry) (cgbno frags : Nat) : Prop where
  lt : cgbno < g.fpg
  pos : 0 < frags
  le : cgbno % g.frag + frags ≤ g.frag

theorem frag_pos : 0 < g.frag := Nat.two_pow_pos _

theorem numfrags_mul (h : g.fsize ∣ size) : g.numfrags size * g.fsize = size := Nat.div_mul_cancel h

theorem numfrags_bsize : g.numfrags g.bsize = g.frag := Nat.mul_div_cancel _ g.fsize_pos

theorem eq_bsize (h : g.fsize ∣ size) (hfrags : g.numfrags size = g.frag) : size = g.bsize := by
  rw [← numfrags_mul h, hfrags, bsize]

theorem dtogd_mod (d : Nat) : g.dtogd d % g.frag = d % g.frag := mod_mod_of_dvd d g.frag_dvd

theorem dtogd_lt (d : Nat) : g.dtogd d < g.fpg := mod_lt d g.fpg_pos

theorem Inside.block_lt {cgbno frags : Nat} (h : g.Inside cgbno frags) : cgbno / g.frag < g.nblk := by
  have hlt := h.lt
  rw [← g.nblk_mul] at hlt
  exact Nat.div_lt_of_lt_mul (by rwa [mul_comm])

theorem place (cgbno : Nat) : cgbno / g.frag * g.frag + cgbno % g.frag = cgbno := div_add_mod' cgbno g.frag

theorem base (cgbno : Nat) : cgbno - g.fragnum cgbno = cgbno / g.frag * g.frag := by
  have := @place g cgbno
  rw [fragnum]
  omega

theorem base_div (cgbno : Nat) : g.fragstoblks (cgbno - g.fragnum cgbno) = cgbno / g.frag := by
  rw [base, fragstoblks, Nat.mul_div_cancel _ g.frag_pos]

theorem Inside.begins {cgbno : Nat} (h : g.Inside cgbno g.frag) :
    cgbno / g.frag * g.frag = cgbno ∧ ∀ m < g.frag, cgbno + m < g.fpg ∧ (cgbno + m) % g.frag = m := by
  have hplace := @place g cgbno
  have hle := h.le
  have hbase : cgbno / g.frag * g.frag = cgbno := by omega
  refine ⟨hbase, fun m hm => ?_⟩
  have hlt : (cgbno / g.frag + 1) * g.frag ≤ g.nblk * g.frag := Nat.mul_le_mul_right _ h.block_lt
  rw [succ_mul, g.nblk_mul] at hlt
  refine ⟨by omega, ?_⟩
  rw [← hbase, mul_comm, mul_add_mod, mod_eq_of_lt hm]

theorem dtog_cgbase {c cgbno : Nat} (h : cgbno < g.fpg) : g.dtog (g.cgbase c + cgbno) = c := by
  rw [dtog, cgbase, mul_add_div g.fpg_pos, div_eq_of_lt h, add_zero]

theorem dtogd_cgbase {c cgbno : Nat} (h : cgbno < g.fpg) : g.dtogd (g.cgbase c + cgbno) = cgbno := by
  rw [dtogd, cgbase, mul_add_mod, mod_eq_of_lt h]

end Geometry

theorem fill_tail {f : Nat → Bool} {a b m : Nat} (hm : m ≤ b) (hset : ∀ i < b, f (a + i) = true) :
    Row.fill (Row.fill f a b false) (a + m) (b - m) true = Row.fill f a m false := by
  funext i
  by_cases hlow : i < a
  · rw [Row.fill_outside (by omega), Row.fill_outside (by omega), Row.fill_outside (by omega)]
  by_cases hin : i < a + m
  · rw [Row.fill_outside (by omega), Row.fill_inside (by omega) (by omega), Row.fill_inside (by omega) hin]
  by_cases htail : i < a + b
  · have hi := hset (i - a) (by omega)
    rw [Nat.add_sub_cancel' (by omega)] at hi
    rw [Row.fill_inside (by omega) (by omega), Row.fill_outside (by omega), hi]
  · rw [Row.fill_outside (by omega), Row.fill_outside (by omega), Row.fill_outside (by omega)]

namespace Shows
variable {g : Geometry} {s₀ s s' : Fs} {c bno size : Nat} {ℓ : Ledger}

theorem blkfreeCommon {snapshot : Bool} (h : Shows g s₀ s c ℓ) (he : ℓ.Exact g) (hc : c < g.ncg) (hx : g.dtog bno = c)
    (hin : g.Inside (g.dtogd bno) (g.numfrags size)) (hs : blkfreeCommon g s c bno size snapshot = some s') :
    (s' = s ∧ snapshot = true) ∨
      ∃ ℓ', Shows g s₀ s' c ℓ' ∧ ℓ'.Exact g ∧ ℓ'.free = Row.fill ℓ.free (g.dtogd bno) (g.numfrags size) true := by
  have hplace := @Geometry.place g (g.dtogd bno)
  have hfree := h.cg.free
  unfold Ffs.blkfreeCommon at hs
  rw [hx] at hs
  dsimp only at hs
  by_cases hfull : size = g.bsize
  · -- A whole block.
    have hfrags : g.numfrags size = g.frag := by rw [hfull, Geometry.numfrags_bsize]
    have hle := hin.le
    rw [if_pos hfull] at hs
    by_cases hblk : isfreeblock g.fragshift (s.cgs c).blksfree (g.fragstoblks (g.dtogd bno)) = false
    · rw [if_pos hblk] at hs
      cases snapshot with
      | false => exact absurd hs (by simp)
      | true =>
        rw [if_pos rfl] at hs
        exact .inl ⟨(some.inj hs).symm, rfl⟩
    rw [if_neg hblk] at hs
    right
    rw [Bool.not_eq_false, isfreeblock_iff, h.cg.free] at hblk
    have hmap := h.map (setblock g.fragshift (s.cgs c).blksfree (g.fragstoblks (g.dtogd bno)))
    have hshows := (hmap.clusteracct (g.fragstoblks (g.dtogd bno)) 1).addNbfree hc 1
    have hexact := he.wholeBlock (v := true) hin.block_lt hblk
    rw [← some.inj hs]
    refine ⟨_, hshows, ?_, ?_⟩
    · rw [bit_setblock, hfree]
      exact hexact
    show bit (setblock _ _ _) = _
    rw [bit_setblock, hfree, hfrags]
    congr 1
    show g.dtogd bno / g.frag * g.frag = g.dtogd bno
    omega
  rw [if_neg hfull] at hs
  by_cases hany : ((List.range (g.numfrags size)).any fun i => isset (s.cgs c).blksfree (g.dtogd bno + i)) = true
  · rw [if_pos hany] at hs
    exact absurd hs (by simp)
  rw [if_neg hany, Geometry.base_div, Geometry.base] at hs
  right
  have hclear : ∀ q, g.dtogd bno % g.frag ≤ q → q < g.dtogd bno % g.frag + g.numfrags size →
      ℓ.free (g.dtogd bno / g.frag * g.frag + q) = false := by
    intro q hq hqj
    rw [List.any_eq_true] at hany
    rw [← hfree, ← Bool.not_eq_true, ← isset_eq]
    intro hset
    refine hany ⟨q - g.dtogd bno % g.frag, mem_range.mpr (by omega), ?_⟩
    rwa [show g.dtogd bno + (q - g.dtogd bno % g.frag) = g.dtogd bno / g.frag * g.frag + q by omega]
  generalize hmap : (List.range (g.numfrags size)).foldl (fun map i => setbit map (g.dtogd bno + i)) (s.cgs c).blksfree = map at hs
  have hbits : bit map = Row.fill ℓ.free (g.dtogd bno / g.frag * g.frag + g.dtogd bno % g.frag) (g.numfrags size) true := by
    rw [← hmap, bit_setbits, hfree, hplace]
  have hshows := (((h.fragacct (s.cgs c).blksfree (g.dtogd bno / g.frag) (-1)).map map).addNffree hc
    (g.numfrags size)).fragacct map (g.dtogd bno / g.frag) 1
  rw [hfree] at hshows
  by_cases hblk : isblock g.fragshift map (g.dtogd bno / g.frag) = true
  · rw [if_pos hblk] at hs
    rw [isblock_iff] at hblk
    rw [← some.inj hs]
    refine ⟨_, ((hshows.addNffree hc (-g.frag)).clusteracct (g.dtogd bno / g.frag) 1).addNbfree hc 1, ?_, ?_⟩
    · exact he.giveFrags hin.block_lt hin.pos hin.le hclear hbits (fun k => rfl) (by rw [if_pos hblk]; exact ⟨rfl, rfl, rfl⟩)
    · rw [← hplace]
      exact hbits
  rw [if_neg hblk] at hs
  rw [isblock_iff] at hblk
  rw [← some.inj hs]
  refine ⟨_, hshows, ?_, ?_⟩
  · exact he.giveFrags hin.block_lt hin.pos hin.le hclear hbits (fun k => rfl) (by rw [if_neg hblk]; exact ⟨rfl, rfl, rfl⟩)
  · rw [← hplace]
    exact hbits

theorem blkallocUmp (h : Shows g s₀ s c ℓ) (he : ℓ.Exact g) (hc : c < g.ncg) (hx : g.dtog bno = c)
    (hin : g.Inside (g.dtogd bno) (g.numfrags size)) (hs : blkallocUmp g s bno size = some s') :
    ∃ ℓ', Shows g s₀ s' c ℓ' ∧ ℓ'.Exact g ∧ ℓ'.free = Row.fill ℓ.free (g.dtogd bno) (g.numfrags size) false ∧
      ∀ i < g.numfrags size, ℓ.free (g.dtogd bno + i) = true := by
  have hplace := @Geometry.place g (g.dtogd bno)
  have hfree := h.cg.free
  unfold Ffs.blkallocUmp at hs
  rw [hx] at hs
  dsimp only at hs
  by_cases hfull : size = g.bsize
  · have hfrags : g.numfrags size = g.frag := by rw [hfull, Geometry.numfrags_bsize]
    have hle := hin.le
    rw [if_pos hfull] at hs
    by_cases hblk : isblock g.fragshift (s.cgs c).blksfree (g.fragstoblks (g.dtogd bno)) = false
    · rw [if_pos hblk] at hs
      exact absurd hs (by simp)
    rw [if_neg hblk] at hs
    rw [Bool.not_eq_false, isblock_iff, h.cg.free] at hblk
    have hbase : g.dtogd bno / g.frag * g.frag = g.dtogd bno := by omega
    have hmap := h.map (clrblock g.fragshift (s.cgs c).blksfree (g.fragstoblks (g.dtogd bno)))
    have hshows := (hmap.clusteracct (g.fragstoblks (g.dtogd bno)) (-1)).addNbfree hc (-1)
    have hexact := he.wholeBlock (v := false) hin.block_lt hblk
    rw [← some.inj hs]
    refine ⟨_, hshows, ?_, ?_, fun i hi => ?_⟩
    · rw [bit_clrblock, hfree]
      exact hexact
    · show bit (clrblock _ _ _) = _
      rw [bit_clrblock, hfree, hfrags]
      congr 1
    · rw [← hbase]
      exact hblk i (hi.trans_eq hfrags)
  rw [if_neg hfull] at hs
  by_cases hany : ((List.range (g.numfrags size)).any fun i => isclr (s.cgs c).blksfree (g.dtogd bno + i)) = true
  · rw [if_pos hany] at hs
    exact absurd hs (by simp)
  rw [if_neg hany, Geometry.base_div, Geometry.base] at hs
  have hset : ∀ i < g.numfrags size, ℓ.free (g.dtogd bno + i) = true := by
    intro i hi
    rw [List.any_eq_true] at hany
    rw [← hfree, ← Bool.not_eq_false]
    intro hclear
    exact hany ⟨i, mem_range.mpr hi, by rw [isclr_eq, hclear]; rfl⟩
  have hrow : ∀ q, g.dtogd bno % g.frag ≤ q → q < g.dtogd bno % g.frag + g.numfrags size →
      ℓ.free (g.dtogd bno / g.frag * g.frag + q) = true := by
    intro q hq hqj
    rw [show g.dtogd bno / g.frag * g.frag + q = g.dtogd bno + (q - g.dtogd bno % g.frag) by omega]
    exact hset _ (by omega)
  generalize hmap : (List.range (g.numfrags size)).foldl (fun map i => clrbit map (g.dtogd bno + i)) (s.cgs c).blksfree = map at hs
  have hbits : bit map = Row.fill ℓ.free (g.dtogd bno / g.frag * g.frag + g.dtogd bno % g.frag) (g.numfrags size) false := by
    rw [← hmap, bit_clrbits, hfree, hplace]
  -- The four steps that follow whether or not a block is split.
  have hrest : ∀ {s₁ ℓ₁}, Shows g s₀ s₁ c ℓ₁ → _ := fun {s₁ ℓ₁} h₁ =>
    (((h₁.fragacct (s.cgs c).blksfree (g.dtogd bno / g.frag) (-1)).map map).addNffree hc
      (-g.numfrags size)).fragacct map (g.dtogd bno / g.frag) 1
  by_cases hblk : isblock g.fragshift (s.cgs c).blksfree (g.dtogd bno / g.frag) = true
  · rw [if_pos hblk] at hs
    rw [isblock_iff, hfree] at hblk
    have hshows := hrest (((h.addNffree hc g.frag).clusteracct (g.dtogd bno / g.frag) (-1)).addNbfree hc (-1))
    rw [hfree] at hshows
    rw [← some.inj hs]
    refine ⟨_, hshows, ?_, by rw [← hplace]; exact hbits, hset⟩
    exact he.takeFrags hin.block_lt hin.pos hin.le hrow hbits (fun k => rfl) (by rw [if_pos hblk]; exact ⟨rfl, rfl, rfl⟩)
  rw [if_neg hblk] at hs
  rw [isblock_iff, hfree] at hblk
  have hshows := hrest h
  rw [hfree] at hshows
  rw [← some.inj hs]
  refine ⟨_, hshows, ?_, by rw [← hplace]; exact hbits, hset⟩
  exact he.takeFrags hin.block_lt hin.pos hin.le hrow hbits (fun k => rfl) (by rw [if_neg hblk]; exact ⟨rfl, rfl, rfl⟩)

/-- What `ffs_mapsearch` finds is a run of exactly `allocsiz` free fragments; only the rotor
moves. -/
theorem mapsearch_run {cgp cgp' : Cg} {bpref allocsiz found : Nat} (hpos : 0 < allocsiz) (hsiz : allocsiz ≤ g.frag)
    (hs : mapsearch g cgp bpref allocsiz = some (cgp', found)) : cgp' = {cgp with frotor := cgp'.frotor} ∧
      Row.IsRun g.frag (Row.row g.frag (bit cgp.blksfree) (found / g.frag)) (found % g.frag) allocsiz := by
  have hfrag : g.frag ≤ 8 := Nat.pow_le_pow_right (by decide) (le_of_lt_succ g.fragshift.isLt)
  have hdvd : g.frag ∣ 8 := pow_dvd_pow 2 (le_of_lt_succ g.fragshift.isLt)
  unfold mapsearch at hs
  generalize (if bpref ≠ 0 then g.dtogd bpref / NBBY else (ufsRw32 cgp.frotor g.needswap).toNat / NBBY) = start at hs
  by_cases hout : g.mapBytes ≤ start
  · rw [if_pos hout] at hs
    exact absurd hs (by simp)
  rw [if_neg hout] at hs
  obtain ⟨byte, -, hs⟩ := bind_eq_some_iff.mp hs
  obtain ⟨found', hfound, heq⟩ := map_eq_some_iff.mp hs
  obtain ⟨rfl, rfl⟩ := Prod.mk.inj heq
  obtain ⟨j, -, hj⟩ := exists_of_findSome?_eq_some hfound
  obtain ⟨pos, hfind, rfl⟩ := map_eq_some_iff.mp hj
  have hmem := mem_range.mp (mem_of_find?_eq_some hfind)
  have hfits := find?_some hfind
  have hlt : pos < g.frag := by omega
  -- The byte begins with a block.
  have hblock : byte * NBBY + j * g.frag = (byte * (8 / g.frag) + j) * g.frag := by
    rw [add_mul, mul_assoc, Nat.div_mul_cancel hdvd]
  have hmap : ∀ p, (blkmap g.frag cgp.blksfree ((byte * (8 / g.frag) + j) * g.frag)).testBit p =
      (decide (p < g.frag) && Row.row g.frag (bit cgp.blksfree) (byte * (8 / g.frag) + j) p) := testBit_blkmap g.fragshift
  rw [hblock] at hfits ⊢
  have hrun := (fits_iff (by omega) (by omega) hmap).mp hfits
  have hdiv : ((byte * (8 / g.frag) + j) * g.frag + pos) / g.frag = byte * (8 / g.frag) + j := by
    rw [mul_comm, mul_add_div g.frag_pos, div_eq_of_lt hlt, add_zero]
  have hmod : ((byte * (8 / g.frag) + j) * g.frag + pos) % g.frag = pos := by
    rw [mul_comm, mul_add_mod, mod_eq_of_lt hlt]
  rw [hdiv, hmod]
  exact ⟨rfl, hrun⟩

theorem gotit (h : Shows g s₀ s c ℓ) (he : ℓ.Exact g) (hc : c < g.ncg) {blk : Nat} (hin : g.Inside bno g.frag)
    (hfull : Row.Full g.frag (Row.row g.frag ℓ.free (bno / g.frag))) (hs : gotit g s c bno = (s', blk)) :
    blk = g.cgbase c + bno ∧ ∃ ℓ', Shows g s₀ s' c ℓ' ∧ ℓ'.Exact g ∧ ℓ'.free = Row.fill ℓ.free bno g.frag false := by
  have hplace := @Geometry.place g bno
  have hle := hin.le
  have hbase : bno / g.frag * g.frag = bno := by omega
  unfold Ffs.gotit at hs
  rw [h.cg.cgx] at hs
  obtain ⟨rfl, rfl⟩ := Prod.mk.inj hs
  have hmap := h.map (clrblock g.fragshift (s.cgs c).blksfree (g.fragstoblks bno))
  have hshows := (hmap.clusteracct (g.fragstoblks bno) (-1)).addNbfree hc (-1)
  refine ⟨rfl, _, hshows, ?_, ?_⟩
  · rw [bit_clrblock, h.cg.free]
    exact he.wholeBlock (v := false) hin.block_lt hfull
  show bit (clrblock _ _ _) = _
  rw [bit_clrblock, h.cg.free]
  congr 1

theorem whole_run (he : ℓ.Exact g) (hrun : Row.IsRun g.frag (Row.row g.frag ℓ.free (bno / g.frag)) (bno % g.frag) g.frag) :
    g.Inside bno g.frag ∧ Row.Full g.frag (Row.row g.frag ℓ.free (bno / g.frag)) := by
  have hle := hrun.le
  have hplace := @Geometry.place g bno
  have hpos := g.frag_pos
  have hfull : Row.Full g.frag (Row.row g.frag ℓ.free (bno / g.frag)) := fun p hp => hrun.set (by omega) (by omega)
  have hfirst : ℓ.free bno = true := by
    have hset := hfull 0 hpos
    rwa [Row.row, show bno / g.frag * g.frag + 0 = bno by omega] at hset
  refine ⟨⟨?_, hpos, hle⟩, hfull⟩
  by_contra hge
  rw [he.ends bno (by omega)] at hfirst
  exact absurd hfirst (by decide)

theorem alloccgblk (h : Shows g s₀ s c ℓ) (he : ℓ.Exact g) (hc : c < g.ncg) {bpref blk : Nat}
    (hs : alloccgblk g s c bpref false = some (s', blk)) :
    ∃ bno ℓ', blk = g.cgbase c + bno ∧ g.Inside bno g.frag ∧ (∀ i < g.frag, ℓ.free (bno + i) = true) ∧
      Shows g s₀ s' c ℓ' ∧ ℓ'.Exact g ∧ ℓ'.free = Row.fill ℓ.free bno g.frag false := by
  -- Whichever way the block is found, it is free as a whole.
  have hgot : ∀ {s₁ bno}, Shows g s₀ s₁ c ℓ → Row.IsRun g.frag (Row.row g.frag ℓ.free (bno / g.frag)) (bno % g.frag) g.frag →
      Ffs.gotit g s₁ c bno = (s', blk) → ∃ bno ℓ', blk = g.cgbase c + bno ∧ g.Inside bno g.frag ∧
        (∀ i < g.frag, ℓ.free (bno + i) = true) ∧ Shows g s₀ s' c ℓ' ∧ ℓ'.Exact g ∧ ℓ'.free = Row.fill ℓ.free bno g.frag false := by
    intro s₁ bno h₁ hrun hgotit
    obtain ⟨hin, hfull⟩ := whole_run he hrun
    obtain ⟨hblk, ℓ', hshows, hexact, hfree⟩ := h₁.gotit he hc hin hfull hgotit
    refine ⟨bno, ℓ', hblk, hin, fun i hi => ?_, hshows, hexact, hfree⟩
    have hplace := @Geometry.place g bno
    have hle := hin.le
    have hset := hfull i hi
    rwa [Row.row, show bno / g.frag * g.frag + i = bno + i by omega] at hset
  have hsearch : ∀ {bpref : Nat}, ((mapsearch g (s.cgs c) bpref g.frag).map fun found =>
      Ffs.gotit g (s.setCg c {found.1 with rotor := ufsRw32 (BitVec.ofNat 32 found.2) g.needswap}) c found.2) = some (s', blk) →
        ∃ bno ℓ', blk = g.cgbase c + bno ∧ g.Inside bno g.frag ∧ (∀ i < g.frag, ℓ.free (bno + i) = true) ∧
          Shows g s₀ s' c ℓ' ∧ ℓ'.Exact g ∧ ℓ'.free = Row.fill ℓ.free bno g.frag false := by
    intro bpref hs
    obtain ⟨⟨cgp, bno⟩, hfound, hgotit⟩ := map_eq_some_iff.mp hs
    obtain ⟨hcgp, hrun⟩ := mapsearch_run g.frag_pos (le_refl _) hfound
    rw [h.cg.free] at hrun
    rw [hcgp] at hgotit
    exact hgot (h.rotors _ _) hrun hgotit
  unfold Ffs.alloccgblk at hs
  by_cases hrotor : bpref = 0 ∨ g.dtog bpref ≠ (ufsRw32 (s.cgs c).cgx g.needswap).toNat
  · rw [if_pos hrotor] at hs
    exact hsearch hs
  rw [if_neg hrotor] at hs
  by_cases hblk : isblock g.fragshift (s.cgs c).blksfree (g.fragstoblks (g.dtogd (g.blknum bpref))) = true
  · rw [if_pos hblk] at hs
    rw [isblock_iff, h.cg.free] at hblk
    have hmod : g.dtogd (g.blknum bpref) % g.frag = 0 := by
      rw [Geometry.dtogd_mod]
      exact sub_mod_eq_zero_of_mod_eq (mod_mod _ _).symm
    refine hgot h ⟨?_, fun p hp => ?_, .inl hmod, .inl ?_⟩ (some.inj hs)
    · rw [hmod, zero_add]
    · rw [hmod, zero_add]
      exact hblk p hp
    · rw [hmod, zero_add]
  · rw [if_neg hblk] at hs
    exact hsearch hs

/-- What an allocation of `n` fragments in group `c` does, with `blk` the answer. -/
def Took (g : Geometry) (s₀ s' : Fs) (c : Nat) (ℓ : Ledger) (blk n : Nat) : Prop :=
  ∃ bno ℓ', blk = g.cgbase c + bno ∧ bno + n ≤ g.fpg ∧ (∀ i < n, ℓ.free (bno + i) = true) ∧
    Shows g s₀ s' c ℓ' ∧ ℓ'.Exact g ∧ ℓ'.free = Row.fill ℓ.free bno n false

theorem alloccgSplit (h : Shows g s₀ s c ℓ) (he : ℓ.Exact g) (hc : c < g.ncg) {bpref blk frags : Nat} (hpos : 0 < frags)
    (hlt : frags < g.frag) (hs : alloccgSplit g s c bpref frags false = some (s', blk)) : Took g s₀ s' c ℓ blk frags := by
  obtain ⟨⟨s₁, blk₁⟩, hblk, heq⟩ := map_eq_some_iff.mp hs
  obtain ⟨bno, ℓ₁, rfl, hin, hset, h₁, he₁, hfree₁⟩ := h.alloccgblk he hc hblk
  obtain ⟨hbase, hplaces⟩ := hin.begins
  dsimp only at heq
  rw [Geometry.dtogd_cgbase hin.lt] at heq
  generalize hmap : (List.range (g.frag - frags)).foldl (fun map i => setbit map (bno + frags + i)) (s₁.cgs c).blksfree = map at heq
  have hbits : bit map = Row.fill ℓ₁.free (bno / g.frag * g.frag + frags) (g.frag - frags) true := by
    rw [← hmap, bit_setbits, h₁.cg.free, hbase]
  have hshows := (h₁.map map).addNffree hc (g.frag - frags : Nat)
  have hcounts := hshows.counts (add_frsum hshows.cg.frsum (g.frag - frags) 1)
  obtain ⟨rfl, rfl⟩ := Prod.mk.inj heq
  refine ⟨bno, _, rfl, ?_, fun i hi => hset i (by omega), hcounts, ?_, ?_⟩
  · have := (hplaces frags hlt).1
    omega
  · refine he₁.giveTail hin.block_lt hpos hlt (fun q hq => ?_) hbits (fun k _ _ => rfl) rfl rfl rfl
    rw [hfree₁]
    exact Row.fill_inside (by omega) (by omega)
  · rw [hbits, hbase, hfree₁]
    exact fill_tail (by omega) hset

theorem shorten (h : Shows g s₀ s c ℓ) (m j k : Nat) (hk : 0 < k) (hkf : k < g.frag) : ufsRw32 ((if j ≠ m then
        update (update (s.cgs c).frsum m (ufsAdd32 ((s.cgs c).frsum m) (-1) g.needswap)) (m - j)
          (ufsAdd32 (update (s.cgs c).frsum m (ufsAdd32 ((s.cgs c).frsum m) (-1) g.needswap) (m - j)) 1 g.needswap)
      else update (s.cgs c).frsum m (ufsAdd32 ((s.cgs c).frsum m) (-1) g.needswap)) k) g.needswap =
      BitVec.ofInt 32 (ℓ.frsum k + (if k = m then -1 else 0) + if k = m - j then 1 else 0) := by
  have hold := add_frsum h.cg.frsum m (-1)
  by_cases hjm' : j ≠ m
  · rw [if_pos hjm']
    exact add_frsum hold (m - j) 1 k hk hkf
  · rw [if_neg hjm', hold k hk hkf, if_neg (show ¬k = m - j by omega), Int.add_zero]

theorem alloccgFrags (h : Shows g s₀ s c ℓ) (he : ℓ.Exact g) (hc : c < g.ncg) {bpref blk frags allocsiz : Nat} (hpos : 0 < frags)
    (hle : frags ≤ allocsiz) (hlt : allocsiz < g.frag) (hs : alloccgFrags g s c bpref frags allocsiz = some (s', blk)) :
    Took g s₀ s' c ℓ blk frags := by
  obtain ⟨⟨cgp, bno⟩, hfound, heq⟩ := map_eq_some_iff.mp hs
  obtain ⟨hcgp, hrun⟩ := mapsearch_run (by omega) (by omega) hfound
  rw [h.cg.free] at hrun
  have hplace := @Geometry.place g bno
  have hend := hrun.le
  have hset : ∀ i < frags, ℓ.free (bno + i) = true := by
    intro i hi
    have hcell := hrun.set (p := bno % g.frag + i) (by omega) (by omega)
    rwa [Row.row, show bno / g.frag * g.frag + (bno % g.frag + i) = bno + i by omega] at hcell
  have hblock := he.block_lt (hset 0 hpos)
  dsimp only at heq
  rw [hcgp] at heq
  generalize hmap : (List.range frags).foldl (fun map i => clrbit map (bno + i)) (s.cgs c).blksfree = map at heq
  have hbits : bit map = Row.fill ℓ.free (bno / g.frag * g.frag + bno % g.frag) frags false := by
    rw [← hmap, bit_clrbits, h.cg.free, hplace]
  have hcg : Cg.Shows g {s.cgs c with blksfree := map, frotor := cgp.frotor} c {ℓ with free := bit map} :=
    ⟨h.cg.cgx, h.cg.nbfree, h.cg.nffree, h.cg.frsum, rfl, h.cg.cluster⟩
  have hshows := (h.setCg hcg rfl rfl).addNffree hc (-frags)
  have hcounts := hshows.counts (hshows.shorten allocsiz frags)
  obtain ⟨rfl, rfl⟩ := Prod.mk.inj heq
  refine ⟨bno, _, rfl, ?_, hset, hcounts, ?_, ?_⟩
  · have hlt : (bno / g.frag + 1) * g.frag ≤ g.nblk * g.frag := Nat.mul_le_mul_right _ hblock
    rw [succ_mul, g.nblk_mul] at hlt
    omega
  · exact he.takeRun hblock hpos hle hlt hrun hbits (fun k _ _ => rfl) rfl rfl rfl
  · rw [← hplace]
    exact hbits

/-- How many fragments an allocation is given: of a whole block only what is needed. -/
def granted (g : Geometry) (size realsize : Nat) : Nat :=
  if size = g.bsize ∧ realsize ≠ 0 ∧ realsize < size then g.numfrags realsize else g.numfrags size

theorem alloccg (h : Shows g s₀ s c ℓ) (he : ℓ.Exact g) (hc : c < g.ncg) {bpref blk realsize : Nat} (hsize : g.fsize ∣ size)
    (hpos : 0 < g.numfrags size) (hle : g.numfrags size ≤ g.frag) (hreal : g.fsize ∣ realsize)
    (hs : alloccg g s c bpref size realsize false = some (s', blk)) :
    (s' = s ∧ blk = 0) ∨ Took g s₀ s' c ℓ blk (granted g size realsize) := by
  have hnothing : some (s, 0) = some (s', blk) → (s' = s ∧ blk = 0) ∨ Took g s₀ s' c ℓ blk (granted g size realsize) := by
    intro heq
    obtain ⟨rfl, rfl⟩ := Prod.mk.inj (some.inj heq)
    exact .inl ⟨rfl, rfl⟩
  unfold Ffs.alloccg at hs
  by_cases hcs : (s.cs c).nbfree = 0 ∧ size = g.bsize
  · rw [if_pos hcs] at hs
    exact hnothing hs
  rw [if_neg hcs] at hs
  by_cases hcg : (s.cgs c).nbfree = 0 ∧ size = g.bsize
  · rw [if_pos hcg] at hs
    exact hnothing hs
  rw [if_neg hcg] at hs
  by_cases hfull : size = g.bsize
  · rw [if_pos hfull] at hs
    right
    obtain ⟨⟨s₁, blk₁⟩, hblk, hs⟩ := bind_eq_some_iff.mp hs
    obtain ⟨bno, ℓ₁, rfl, hin, hset, h₁, he₁, hfree₁⟩ := h.alloccgblk he hc hblk
    obtain ⟨hbase, hplaces⟩ := hin.begins
    have hfrags : g.numfrags size = g.frag := by rw [hfull, Geometry.numfrags_bsize]
    dsimp only at hs
    by_cases htail : realsize ≠ 0 ∧ realsize < size
    · -- The fragments behind `realsize` go back.
      rw [if_pos htail] at hs
      have hgranted : granted g size realsize = g.numfrags realsize := if_pos ⟨hfull, htail⟩
      have hrealsize := Geometry.numfrags_mul hreal
      have hm : g.numfrags realsize < g.frag := by
        rw [← hfrags]
        apply Nat.lt_of_mul_lt_mul_right (a := g.fsize)
        rw [hrealsize, Geometry.numfrags_mul hsize]
        exact htail.2
      have hrest : g.numfrags (size - realsize) = g.frag - g.numfrags realsize := by
        rw [hfull, Geometry.bsize, Geometry.numfrags, Geometry.numfrags]
        obtain ⟨m, rfl⟩ := hreal
        rw [mul_comm g.fsize m, ← Nat.sub_mul, Nat.mul_div_cancel _ g.fsize_pos, Nat.mul_div_cancel _ g.fsize_pos]
      obtain ⟨hlt, hmod⟩ := hplaces _ hm
      obtain ⟨s₂, hfree, heq⟩ := map_eq_some_iff.mp hs
      obtain ⟨rfl, rfl⟩ := Prod.mk.inj heq
      rw [add_assoc] at hfree
      have hdtogd := @Geometry.dtogd_cgbase g c _ hlt
      have hinside : g.Inside (g.dtogd (g.cgbase c + (bno + g.numfrags realsize))) (g.numfrags (size - realsize)) := by
        rw [hdtogd, hrest]
        exact ⟨hlt, by omega, by omega⟩
      rcases h₁.blkfreeCommon he₁ hc (Geometry.dtog_cgbase hlt) hinside hfree with ⟨-, hsnap⟩ | ⟨ℓ₂, h₂, he₂, hfree₂⟩
      · exact absurd hsnap (by decide)
      rw [hgranted]
      refine ⟨bno, ℓ₂, rfl, by omega, fun i hi => hset i (by omega), h₂, he₂, ?_⟩
      rw [hfree₂, hdtogd, hrest, hfree₁]
      exact fill_tail (by omega) hset
    · rw [if_neg htail] at hs
      have hgranted : granted g size realsize = g.frag := by
        rw [granted, if_neg (fun h => htail h.2), hfrags]
      obtain ⟨rfl, rfl⟩ := Prod.mk.inj (some.inj hs)
      rw [hgranted]
      refine ⟨bno, ℓ₁, rfl, ?_, hset, h₁, he₁, hfree₁⟩
      have := (hplaces (g.frag - 1) (by omega)).1
      omega
  · rw [if_neg hfull] at hs
    have hgranted : granted g size realsize = g.numfrags size := if_neg (fun h => hfull h.1)
    have hlt : g.numfrags size < g.frag := Nat.lt_of_le_of_ne hle fun heq => hfull (Geometry.eq_bsize hsize heq)
    rw [hgranted]
    dsimp only at hs
    generalize hsiz : ((List.range' (g.numfrags size) (g.frag - g.numfrags size)).find? fun k =>
      decide ((s.cgs c).frsum k ≠ 0)).getD g.frag = allocsiz at hs
    by_cases hsplit : allocsiz = g.frag
    · rw [if_pos hsplit] at hs
      by_cases hnone : (s.cgs c).nbfree = 0
      · rw [if_pos hnone] at hs
        rw [hgranted] at hnothing
        exact hnothing hs
      · rw [if_neg hnone] at hs
        exact .inr (h.alloccgSplit he hc hpos hlt hs)
    rw [if_neg hsplit] at hs
    have hmem : g.numfrags size ≤ allocsiz ∧ allocsiz < g.frag := by
      cases hfind : (List.range' (g.numfrags size) (g.frag - g.numfrags size)).find? fun k => decide ((s.cgs c).frsum k ≠ 0) with
      | none =>
        rw [hfind] at hsiz
        exact absurd hsiz.symm hsplit
      | some k =>
        rw [hfind] at hsiz
        have hk := mem_range'_1.mp (mem_of_find?_eq_some hfind)
        rw [getD_some] at hsiz
        omega
    exact .inr (h.alloccgFrags he hc hpos hmem.1 hmem.2 hs)

theorem takeEach (h : Shows g s₀ s c ℓ) (hc : c < g.ncg) (a n : Nat) : Shows g s₀ ((List.range n).foldl (fun s i =>
      (s.setCg c {s.cgs c with blksfree := clrbit (s.cgs c).blksfree (a + i)}).addNffree g c c (-1)) s) c
        {ℓ with free := Row.fill ℓ.free a n false, nffree := ℓ.nffree + -n} := by
  induction n with
  | zero =>
    have hfill : Row.fill ℓ.free a 0 false = ℓ.free := Row.fill_self (fun p hp hlt => absurd hlt (by omega))
    rw [hfill]
    simpa using h
  | succ n ih =>
    rw [range_succ, foldl_append]
    generalize (List.range n).foldl (fun s i =>
      (s.setCg c {s.cgs c with blksfree := clrbit (s.cgs c).blksfree (a + i)}).addNffree g c c (-1)) s = s₁ at ih ⊢
    have hbits : bit (clrbit (s₁.cgs c).blksfree (a + n)) = Row.fill ℓ.free a (n + 1) false := bit_clrbit_fill ih.cg.free
    have hshows := (ih.map (clrbit (s₁.cgs c).blksfree (a + n))).addNffree hc (-1)
    rw [hbits] at hshows
    have hsum : ℓ.nffree + -(n : Int) + -1 = ℓ.nffree + -((n + 1 : Nat) : Int) := by omega
    rw [← hsum]
    exact hshows

theorem stop_spec {map : Map} {bno frags n : Nat} : ∃ i,
    ((List.range' frags n).find? fun i => isclr map (bno + i)).getD (max frags (frags + n)) = i ∧ frags ≤ i ∧ i ≤ frags + n ∧
      (∀ k, frags ≤ k → k < i → bit map (bno + k) = true) ∧ (i = frags + n ∨ bit map (bno + i) = false) := by
  cases hfind : (List.range' frags n).find? fun i => isclr map (bno + i) with
  | none =>
    have hall := find?_eq_none.mp hfind
    refine ⟨_, rfl, by rw [getD_none]; omega, by rw [getD_none]; omega, fun k hk hki => ?_, ?_⟩
    · rw [getD_none] at hki
      have hbit := hall k (mem_range'_1.mpr (by omega))
      rw [isclr_eq] at hbit
      simpa using hbit
    · rw [getD_none]
      omega
  | some i =>
    obtain ⟨hclr, j, hj, hij, hbefore⟩ := find?_eq_some_iff_getElem.mp hfind
    rw [length_range'] at hj
    rw [getElem_range'] at hij
    refine ⟨i, rfl, by omega, by omega, fun k hk hki => ?_, .inr ?_⟩
    · have hbit := hbefore (k - frags) (by omega)
      rw [getElem_range', one_mul, Nat.add_sub_cancel' hk, isclr_eq] at hbit
      simpa using hbit
    · rw [isclr_eq] at hclr
      simpa using hclr

theorem fragextend (h : Shows g s₀ s c ℓ) (he : ℓ.Exact g) (hc : c < g.ncg) {bprev osize nsize blk : Nat}
    (hpos : 0 < g.numfrags osize) (hlt : g.numfrags osize < g.numfrags nsize) (hle : g.numfrags nsize ≤ g.frag)
    (hown : ∀ i < g.numfrags osize, ℓ.free (g.dtogd bprev + i) = false)
    (hs : fragextend g s c bprev osize nsize = (s', blk)) : (s' = s ∧ blk = 0) ∨
      (blk = bprev ∧ (∀ i, g.numfrags osize ≤ i → i < g.numfrags nsize → ℓ.free (g.dtogd bprev + i) = true) ∧
        bprev % g.frag + g.numfrags nsize ≤ g.frag ∧ ∃ ℓ', Shows g s₀ s' c ℓ' ∧ ℓ'.Exact g ∧ ℓ'.free =
          Row.fill ℓ.free (g.dtogd bprev + g.numfrags osize) (g.numfrags nsize - g.numfrags osize) false) := by
  have hnothing : (s, 0) = (s', blk) → s' = s ∧ blk = 0 := by
    intro heq
    obtain ⟨rfl, rfl⟩ := Prod.mk.inj heq
    exact ⟨rfl, rfl⟩
  have hplace := @Geometry.place g (g.dtogd bprev)
  have hmod := @Geometry.dtogd_mod g bprev
  have hfrag := g.frag_pos
  unfold Ffs.fragextend at hs
  dsimp only at hs
  by_cases hfew : (s.cs c).nffree < g.numfrags (nsize - osize)
  · rw [if_pos hfew] at hs
    exact .inl (hnothing hs)
  rw [if_neg hfew] at hs
  by_cases hcross : g.fragnum (bprev + g.numfrags nsize - 1) < g.fragnum bprev
  · rw [if_pos hcross] at hs
    exact .inl (hnothing hs)
  rw [if_neg hcross] at hs
  -- It stays in the block.
  have hinside : bprev % g.frag + g.numfrags nsize ≤ g.frag := by
    by_contra hover
    apply hcross
    have hdiv := div_add_mod bprev g.frag
    have hlast : bprev + g.numfrags nsize - 1 = g.frag * (bprev / g.frag + 1) + (bprev % g.frag + g.numfrags nsize - 1 - g.frag) := by
      rw [mul_add, mul_one]
      omega
    have hbb := mod_lt bprev hfrag
    rw [Geometry.fragnum, Geometry.fragnum, hlast, mul_add_mod, mod_eq_of_lt (by omega)]
    omega
  by_cases hany : ((List.range' (g.numfrags osize) (g.numfrags nsize - g.numfrags osize)).any fun i =>
      isclr (s.cgs c).blksfree (g.dtogd bprev + i)) = true
  · rw [if_pos hany] at hs
    exact .inl (hnothing hs)
  rw [if_neg hany] at hs
  right
  have hset : ∀ i, g.numfrags osize ≤ i → i < g.numfrags nsize → ℓ.free (g.dtogd bprev + i) = true := by
    intro i hi hin
    rw [List.any_eq_true] at hany
    rw [← h.cg.free, ← Bool.not_eq_false]
    intro hclear
    exact hany ⟨i, mem_range'_1.mpr (by omega), by rw [isclr_eq, hclear]; rfl⟩
  obtain ⟨i, hi, hlow, hhigh, hfree, hstop⟩ := @stop_spec (s.cgs c).blksfree (g.dtogd bprev) (g.numfrags nsize)
    (g.frag - g.fragnum bprev - g.numfrags nsize)
  rw [h.cg.free] at hfree hstop
  have hends : g.numfrags nsize + (g.frag - g.fragnum bprev - g.numfrags nsize) = g.frag - bprev % g.frag := by
    rw [Geometry.fragnum]
    omega
  rw [hends] at hi hhigh hstop
  rw [show g.frag - g.fragnum bprev = g.frag - bprev % g.frag from rfl] at hs hi
  rw [hi] at hs
  -- The run that begins right behind the fragments that grow.
  have hrun : Row.IsRun g.frag (Row.row g.frag ℓ.free (g.dtogd bprev / g.frag)) (bprev % g.frag + g.numfrags osize)
      (i - g.numfrags osize) := by
    refine ⟨by omega, fun p hp => ?_, .inr ?_, ?_⟩
    · show ℓ.free _ = true
      rw [show g.dtogd bprev / g.frag * g.frag + (bprev % g.frag + g.numfrags osize + p) = g.dtogd bprev + (g.numfrags osize + p) by omega]
      by_cases hp' : g.numfrags osize + p < g.numfrags nsize
      · exact hset _ (by omega) hp'
      · exact hfree _ (by omega) (by omega)
    · show ℓ.free _ = false
      rw [show g.dtogd bprev / g.frag * g.frag + (bprev % g.frag + g.numfrags osize - 1) = g.dtogd bprev + (g.numfrags osize - 1) by omega]
      exact hown _ (by omega)
    rcases hstop with hend | hclear
    · exact .inl (by omega)
    right
    show ℓ.free _ = false
    rwa [show g.dtogd bprev / g.frag * g.frag + (bprev % g.frag + g.numfrags osize + (i - g.numfrags osize)) = g.dtogd bprev + i by omega]
  have hcounts := h.counts (h.shorten (i - g.numfrags osize) (g.numfrags nsize - g.numfrags osize))
  have hshows := hcounts.takeEach hc (g.dtogd bprev + g.numfrags osize) (g.numfrags nsize - g.numfrags osize)
  have hblock := he.block_lt (hset _ (le_refl _) hlt)
  have hrow : (g.dtogd bprev + g.numfrags osize) / g.frag = g.dtogd bprev / g.frag := by
    apply Nat.div_eq_of_lt_le
    · omega
    · rw [succ_mul]
      omega
  rw [hrow] at hblock
  obtain ⟨hs', rfl⟩ := Prod.mk.inj hs
  have hif : (i ≠ g.numfrags nsize) = (g.numfrags nsize - g.numfrags osize ≠ i - g.numfrags osize) := propext (by omega)
  have hsub : i - g.numfrags osize - (g.numfrags nsize - g.numfrags osize) = i - g.numfrags nsize := by omega
  simp only [hif, ← hsub] at hs'
  refine ⟨rfl, hset, hinside, _, hs' ▸ hshows, ?_, ?_⟩
  · refine he.takeRun hblock (by omega) (by omega) (by omega) hrun ?_ (fun k _ _ => rfl) rfl rfl rfl
    show Row.fill _ _ _ _ = _
    congr 1
    omega
  · rfl

end Shows

end NetBSD.Ufs.Ffs
