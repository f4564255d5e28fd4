import NetBSD.Ufs.Ffs.Calls

/-! `ffs_mapsearch` finds what is there.

It looks a byte of the map up in `fragtbl` and then sifts the blocks in that byte with the
fields `around` and `inside`. `tableExact` compares the two for all bytes, sizes and
fragment counts: a byte has the bit of a size exactly when one of its blocks has a run of that
size. So a scan from any start, round the end of the map and back to the first byte, stops
only at bytes where the sifting succeeds (`mapsearch_finds`). -/
namespace NetBSD.Ufs.Ffs
open List Option Nat
open Lib

/-- The bit of `fragtbl` for a size. -/
def sizeMask (frag allocsiz : Nat) : Nat := 1 <<< (allocsiz - 1 + (frag &&& (NBBY - 1)))

/-- One of the blocks in the byte has a run of `allocsiz`. -/
def sifts (frag byte allocsiz : Nat) : Bool := (List.range (NBBY / frag)).any fun j =>
  (List.range (frag - allocsiz + 1)).any fun pos => fits (byte >>> (j * frag) &&& 0xff >>> (NBBY - frag)) allocsiz pos

/-- The table and the fields agree on every byte, for sizes up to `frag`. -/
def tableExact (frag : Nat) : Bool := (fragtbl frag).zipIdx.all fun entry =>
  (List.range frag).all fun k => Bool.not (beq (entry.1 &&& sizeMask frag (k + 1)) 0) == sifts frag entry.2 (k + 1)

theorem tableExact_true (fragshift : Fin 4) : tableExact (2 ^ (fragshift : Nat)) = true := by
  set_option maxRecDepth 4000 in
  match fragshift with
  | 3 => decide
  | 2 => decide
  | 1 => decide
  | 0 => decide

theorem table_exact (fragshift : Fin 4) {frag byte allocsiz : Nat} (hfrag : frag = 2 ^ (fragshift : Nat)) (hbyte : byte < 256)
    (hpos : 0 < allocsiz) (hsiz : allocsiz ≤ frag) :
    (fragtbl frag).getD byte 0 &&& sizeMask frag allocsiz ≠ 0 ↔ sifts frag byte allocsiz = true := by
  have hlength := length_fragtbl frag
  have hexact := tableExact_true fragshift
  rw [← hfrag] at hexact
  simp only [tableExact, List.all_eq_true, mem_range, beq_iff_eq] at hexact
  have hentry : ((fragtbl frag).getD byte 0, byte) ∈ (fragtbl frag).zipIdx := by
    rw [mem_zipIdx_iff_getElem?, getD_eq_getElem?_getD, getElem?_eq_getElem (by omega), getD_some]
  have hsame := hexact _ hentry (allocsiz - 1) (by omega)
  rw [Nat.sub_add_cancel hpos] at hsame
  rw [← hsame, Bool.not_eq_true', ← Bool.not_eq_true, beq_eq]

section Scan
variable {cp : Map} {table : List Nat} {mask size i j : Nat}

theorem scanc_ne_zero (hi : i ≤ j) (hj : j < i + size) (hhit : table.getD (cp j).toNat 0 &&& mask ≠ 0) : scanc cp table mask size i ≠ 0 := by
  induction size generalizing i with
  | zero => exact absurd hj (by omega)
  | succ size ih =>
    rw [scanc]
    split
    · next hmiss =>
      apply ih _ (by omega)
      by_contra hlt
      obtain rfl : j = i := by omega
      exact hhit hmiss
    · exact succ_ne_zero size

theorem scanc_hit (hne : scanc cp table mask size i ≠ 0) : scanc cp table mask size i ≤ size ∧
    table.getD (cp (i + size - scanc cp table mask size i)).toNat 0 &&& mask ≠ 0 := by
  induction size generalizing i with
  | zero => exact absurd rfl hne
  | succ size ih =>
    by_cases hmiss : table.getD (cp i).toNat 0 &&& mask = 0
    · rw [scanc, if_pos hmiss] at hne ⊢
      obtain ⟨hle, hhit⟩ := ih hne
      refine ⟨le_succ_of_le hle, ?_⟩
      rw [show i + (size + 1) = i + 1 + size by omega]
      exact hhit
    · rw [scanc, if_neg hmiss]
      refine ⟨le_refl _, ?_⟩
      rw [Nat.add_sub_cancel]
      exact hmiss

end Scan

/-! ### The search -/

section Search
variable {g : Geometry} {cgp : Cg} {bpref allocsiz h t : Nat}

theorem frag_le : g.frag ≤ 8 := Nat.pow_le_pow_right (by decide) (le_of_lt_succ g.fragshift.isLt)

theorem frag_dvd_eight : g.frag ∣ 8 := pow_dvd_pow 2 (le_of_lt_succ g.fragshift.isLt)

theorem sifts_of_run (hrun : Row.IsRun g.frag (Row.row g.frag (bit cgp.blksfree) h) t allocsiz) :
    sifts g.frag (cgp.blksfree (h * g.frag / NBBY)).toNat allocsiz = true := by
  have hle := hrun.le
  have hfrag := @frag_le g
  have hmap : ∀ p, (blkmap g.frag cgp.blksfree (h * g.frag)).testBit p =
      (decide (p < g.frag) && Row.row g.frag (bit cgp.blksfree) h p) := testBit_blkmap g.fragshift
  have hfits := (fits_iff (by omega) hle hmap).mpr hrun
  -- The place of the block in its byte.
  have hdvd : g.frag ∣ h * g.frag % 8 := (dvd_mod_iff frag_dvd_eight).mpr (Nat.dvd_mul_left _ _)
  obtain ⟨j, hj⟩ := hdvd
  have hlt : g.frag * j < 8 := by
    rw [← hj]
    exact mod_lt _ (by decide)
  rw [sifts, List.any_eq_true]
  refine ⟨j, mem_range.mpr ?_, ?_⟩
  · rw [lt_div_iff_mul_lt_of_dvd g.frag_pos.ne' frag_dvd_eight, mul_comm]
    exact hlt
  rw [List.any_eq_true]
  refine ⟨t, mem_range.mpr (by omega), ?_⟩
  rw [blkmap, hj, mul_comm g.frag j] at hfits
  exact hfits

/-- The sifting of a byte that the table picks finds a place in it. -/
theorem sift_byte {byte : Nat} (hsifts : sifts g.frag (cgp.blksfree byte).toNat allocsiz = true) (hsiz : allocsiz ≤ g.frag) :
    ∃ found, (List.range (8 / g.frag)).findSome? (fun j => ((List.range (g.frag - allocsiz + 1)).find? fun pos =>
      fits (blkmap g.frag cgp.blksfree (byte * 8 + j * g.frag)) allocsiz pos).map (byte * 8 + j * g.frag + ·)) = some found ∧
      found + allocsiz ≤ (byte + 1) * 8 := by
  have hblock (j : Nat) (hj : j < 8 / g.frag) : blkmap g.frag cgp.blksfree (byte * 8 + j * g.frag) =
      (cgp.blksfree byte).toNat >>> (j * g.frag) &&& 0xff >>> (8 - g.frag) := by
    have hlt : j * g.frag < 8 := (lt_div_iff_mul_lt_of_dvd g.frag_pos.ne' frag_dvd_eight).mp hj
    rw [blkmap, show (byte * 8 + j * g.frag) / 8 = byte by omega, show (byte * 8 + j * g.frag) % 8 = j * g.frag by omega]
  simp only [sifts, List.any_eq_true, mem_range] at hsifts
  obtain ⟨j, hj, pos, hpos, hfits⟩ := hsifts
  rw [← hblock j hj] at hfits
  cases hfind : (List.range (8 / g.frag)).findSome? (fun j => ((List.range (g.frag - allocsiz + 1)).find? fun pos =>
      fits (blkmap g.frag cgp.blksfree (byte * 8 + j * g.frag)) allocsiz pos).map (byte * 8 + j * g.frag + ·)) with
  | none =>
    have hnone := findSome?_eq_none_iff.mp hfind j (mem_range.mpr hj)
    rw [map_eq_none_iff, find?_eq_none] at hnone
    exact absurd hfits (hnone pos (mem_range.mpr hpos))
  | some found =>
    obtain ⟨j', hj', hfound⟩ := exists_of_findSome?_eq_some hfind
    obtain ⟨pos', hpos', rfl⟩ := map_eq_some_iff.mp hfound
    have hin := mem_range.mp (mem_of_find?_eq_some hpos')
    -- The block ends within the byte.
    have hend : (j' + 1) * g.frag ≤ 8 := by
      rw [← Nat.div_mul_cancel (@frag_dvd_eight g)]
      exact Nat.mul_le_mul_right _ (mem_range.mp hj')
    refine ⟨_, rfl, ?_⟩
    rw [succ_mul] at hend ⊢
    omega

theorem scan_byte {start b : Nat} {mask : Nat} (hstart : start < g.mapBytes) (hb : b < g.mapBytes)
    (hhit : (fragtbl g.frag).getD (cgp.blksfree b).toNat 0 &&& mask ≠ 0) :
    ∃ byte, (if scanc cgp.blksfree (fragtbl g.frag) mask (g.mapBytes - start) start ≠ 0 then
        some (start + (g.mapBytes - start) - scanc cgp.blksfree (fragtbl g.frag) mask (g.mapBytes - start) start)
      else if scanc cgp.blksfree (fragtbl g.frag) mask (start + 1) 0 = 0 then none
      else some (start + 1 - scanc cgp.blksfree (fragtbl g.frag) mask (start + 1) 0)) = some byte ∧
      byte < g.mapBytes ∧ (fragtbl g.frag).getD (cgp.blksfree byte).toNat 0 &&& mask ≠ 0 := by
  by_cases hfirst : scanc cgp.blksfree (fragtbl g.frag) mask (g.mapBytes - start) start ≠ 0
  · obtain ⟨hle, hpick⟩ := scanc_hit hfirst
    exact ⟨_, if_pos hfirst, by omega, hpick⟩
  -- Nothing from the start on: the byte is before it, and the scan from 0 finds one.
  have hbefore : b < start := by
    by_contra hge
    exact hfirst (scanc_ne_zero (by omega) (by omega) hhit)
  have hsecond : scanc cgp.blksfree (fragtbl g.frag) mask (start + 1) 0 ≠ 0 :=
    scanc_ne_zero (zero_le b) (by omega) hhit
  obtain ⟨hle, hpick⟩ := scanc_hit hsecond
  rw [zero_add] at hpick
  exact ⟨_, by rw [if_neg hfirst, if_neg hsecond], by omega, hpick⟩

/-- The map has a run of exactly `allocsiz` free fragments inside one block: the search does
not panic, and finds one in the group. -/
theorem mapsearch_finds (hfpg : NBBY ∣ g.fpg) (hpos : 0 < allocsiz) (hsiz : allocsiz ≤ g.frag)
    (hrotor : bpref = 0 → (ufsRw32 cgp.frotor g.needswap).toNat < g.fpg)
    (hfree : ∃ h < g.nblk, ∃ t, Row.IsRun g.frag (Row.row g.frag (bit cgp.blksfree) h) t allocsiz) :
    ∃ cgp' found, mapsearch g cgp bpref allocsiz = some (cgp', found) ∧ found + allocsiz ≤ g.fpg ∧
      Row.IsRun g.frag (Row.row g.frag (bit cgp.blksfree) (found / g.frag)) (found % g.frag) allocsiz := by
  obtain ⟨h, hh, t, hrun⟩ := hfree
  have hbytes : g.mapBytes * 8 = g.fpg := by
    have hdiv : g.fpg / 8 * 8 = g.fpg := Nat.div_mul_cancel hfpg
    show (g.fpg + 7) / 8 * 8 = g.fpg
    omega
  have hstart : (if bpref ≠ 0 then g.dtogd bpref / 8 else (ufsRw32 cgp.frotor g.needswap).toNat / 8) < g.mapBytes := by
    split
    · have hlt := g.dtogd_lt bpref
      omega
    · next hz =>
      omega
  have hbyte : h * g.frag / 8 < g.mapBytes := by
    have hlt : (h + 1) * g.frag ≤ g.nblk * g.frag := Nat.mul_le_mul_right _ hh
    rw [succ_mul, g.nblk_mul] at hlt
    omega
  have htable (b : Nat) := @table_exact g.fragshift g.frag (cgp.blksfree b).toNat allocsiz rfl (cgp.blksfree b).isLt hpos hsiz
  have hhit := (htable _).mpr (sifts_of_run hrun)
  obtain ⟨byte, hscan, hlt, hpick⟩ := scan_byte hstart hbyte hhit
  obtain ⟨found, hfound, hend⟩ := sift_byte ((htable byte).mp hpick) hsiz
  have hsearch : mapsearch g cgp bpref allocsiz = some ({cgp with frotor := ufsRw32 (BitVec.ofNat 32 (byte * 8)) g.needswap}, found) := by
    unfold mapsearch
    dsimp only
    rw [if_neg (not_le.mpr hstart)]
    unfold sizeMask at hscan
    rw [hscan, bind_some, hfound]
    rfl
  exact ⟨_, found, hsearch, by omega, (Shows.mapsearch_run hpos hsiz hsearch).2⟩

/-- Two fragments in the middle of the first block; the search begins behind them and comes
round. -/
def twoFree : Cg := {fresh.cgs 0 with blksfree := fun i => if i = 0 then 0x06 else 0}

theorem mapsearch_finds_round : ∃ cgp' found, mapsearch small twoFree 13 2 = some (cgp', found) ∧ found + 2 ≤ small.fpg ∧
    Row.IsRun small.frag (Row.row small.frag (bit twoFree.blksfree) (found / small.frag)) (found % small.frag) 2 :=
  mapsearch_finds (g := small) (by decide) (by decide) (by decide) (by decide) ⟨0, by decide, 1, by decide⟩

end Search

end NetBSD.Ufs.Ffs
