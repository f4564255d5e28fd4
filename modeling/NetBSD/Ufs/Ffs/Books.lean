import NetBSD.Ufs.Ffs.Ledger
import Mathlib.Tactic.Ring

/-! The words and bytes of a group show its ledger.

`Shows s₀ s c ℓ`: `s` is `s₀` but for group `c`, whose maps and counters are those of `ℓ`, in
either byte order, with `fs_cs` and `fs_cstotal` keeping up. Every piece of the code's
functions does to the ledger what it does to the group. -/
namespace NetBSD.Ufs.Ffs
open Function
open Lib

theorem bswap32_bswap32 (x : BitVec 32) : bswap32 (bswap32 x) = x := by
  apply BitVec.eq_of_getLsbD_eq
  intro i hi
  have hmasks : ∀ i < 32, (0xff000000#32).getLsbD i = decide (24 ≤ i) ∧
      (0x00ff0000#32).getLsbD i = decide (16 ≤ i ∧ i < 24) ∧ (0x0000ff00#32).getLsbD i = decide (8 ≤ i ∧ i < 16) ∧
      (0x000000ff#32).getLsbD i = decide (i < 8) := by decide
  have hbit : ∀ (y : BitVec 32) (i : Nat), i < 32 → (bswap32 y).getLsbD i = y.getLsbD (24 - i / 8 * 8 + i % 8) := by
    intro y i hi
    simp only [bswap32, BitVec.getLsbD_or, BitVec.getLsbD_and, BitVec.getLsbD_ushiftRight, BitVec.getLsbD_shiftLeft]
    by_cases h1 : i < 8
    · obtain ⟨a, -, -, -⟩ := hmasks (24 + i) (by omega)
      obtain ⟨-, b, -, -⟩ := hmasks (8 + i) (by omega)
      rw [a, b, show 24 - i / 8 * 8 + i % 8 = 24 + i by omega]
      simp [h1, show i < 24 by omega, show ¬16 ≤ 8 + i by omega]
    by_cases h2 : i < 16
    · obtain ⟨-, b, -, -⟩ := hmasks (8 + i) (by omega)
      obtain ⟨-, -, c, -⟩ := hmasks (i - 8) (by omega)
      have hover : y.getLsbD (24 + i) = false := BitVec.getLsbD_of_ge _ _ (by omega)
      rw [b, c, hover, show 24 - i / 8 * 8 + i % 8 = 8 + i by omega]
      simp [h1, show i < 24 by omega, show ¬8 ≤ i - 8 by omega, show 16 ≤ 8 + i by omega, show 8 + i < 24 by omega]
    have hover : y.getLsbD (24 + i) = false := BitVec.getLsbD_of_ge _ _ (by omega)
    by_cases h3 : i < 24
    · obtain ⟨-, b, -, -⟩ := hmasks (8 + i) (by omega)
      obtain ⟨-, -, c, -⟩ := hmasks (i - 8) (by omega)
      rw [b, c, hover, show 24 - i / 8 * 8 + i % 8 = i - 8 by omega]
      simp [h1, h3, hi, show 8 ≤ i - 8 by omega, show i - 8 < 16 by omega, show ¬8 + i < 24 by omega]
    have hover' : y.getLsbD (8 + i) = false := BitVec.getLsbD_of_ge _ _ (by omega)
    obtain ⟨-, -, c, -⟩ := hmasks (i - 8) (by omega)
    obtain ⟨-, -, -, d⟩ := hmasks (i - 24) (by omega)
    rw [c, d, hover, hover', show 24 - i / 8 * 8 + i % 8 = i - 24 by omega]
    simp [h1, h3, hi, show ¬i - 8 < 16 by omega, show i - 24 < 8 by omega]
  rw [hbit _ i hi, hbit _ _ (by omega)]
  congr 1
  omega

theorem ufsRw32_ufsRw32 (w : BitVec 32) (ns : Bool) : ufsRw32 (ufsRw32 w ns) ns = w := by
  cases ns
  · rfl
  · exact bswap32_bswap32 w

theorem ufsRw32_ufsAdd32 (w : BitVec 32) (d : Int) (ns : Bool) :
    ufsRw32 (ufsAdd32 w d ns) ns = ufsRw32 w ns + BitVec.ofInt 32 d := ufsRw32_ufsRw32 _ ns

theorem ufsRw32_eq_zero {w : BitVec 32} {ns : Bool} : ufsRw32 w ns = 0 ↔ w = 0 := by
  have hzero : ufsRw32 0 ns = 0 := by cases ns <;> rfl
  constructor
  · intro h
    rw [← ufsRw32_ufsRw32 w ns, h, hzero]
  · intro h
    rw [h, hzero]

section Fragacct
variable {frag fragmap siz pos fuel : Nat} {f : Nat → Bool} {cnt : Int} {ns : Bool} {w : BitVec 32}

theorem rw_fragacctPos (hmap : ∀ p, fragmap.testBit p = (decide (p < frag) && f p)) (hsiz : 0 < siz) (hsiz8 : siz ≤ 8)
    (hpos : siz ≤ pos) (hfuel : frag < pos + fuel) : ufsRw32 (fragacctPos frag fragmap siz cnt ns fuel pos w) ns =
      ufsRw32 w ns + BitVec.ofInt 32 (cnt * Row.runsFrom frag f siz (pos - siz)) := by
  induction fuel generalizing pos w with
  | zero =>
    rw [Row.runsFrom_end (by omega)]
    simp [fragacctPos]
  | succ fuel ih =>
    rw [fragacctPos]
    by_cases hle : pos ≤ frag
    · rw [if_pos hle]
      by_cases hfits : fits fragmap siz (pos - siz) = true
      · have hrun := (fits_iff hsiz8 (by omega) hmap).mp hfits
        rw [if_pos hfits, ih (by omega) (by omega), ufsRw32_ufsAdd32, Row.runsFrom_hit hrun hsiz,
          show pos + siz + 1 - siz = pos - siz + siz + 1 by omega, add_assoc, ← BitVec.ofInt_add]
        push_cast
        ring
      · have hrun : ¬Row.IsRun frag f (pos - siz) siz := fun h => hfits ((fits_iff hsiz8 (by omega) hmap).mpr h)
        rw [if_neg hfits, ih (by omega) (by omega), Row.runsFrom_miss hrun, show pos + 1 - siz = pos - siz + 1 by omega]
    · rw [if_neg hle, Row.runsFrom_end (by omega)]
      simp

theorem foldl_each {α : Type} (skip : Nat → Prop) [DecidablePred skip] (F : Nat → α → α) (ks : List Nat) (hks : ks.Nodup)
    (v : Nat → α) (k : Nat) : ks.foldl (fun v i => if skip i then v else update v i (F i (v i))) v k =
      if k ∈ ks ∧ ¬skip k then F k (v k) else v k := by
  induction ks generalizing v with
  | nil => simp
  | cons i ks ih =>
    obtain ⟨hi, hks⟩ := List.nodup_cons.mp hks
    rw [List.foldl_cons, ih hks]
    by_cases hki : k = i
    · subst hki
      by_cases hskip : skip k
      · simp [hskip]
      · simp [hskip, hi]
    · by_cases hskip : skip i
      · simp [hskip, hki]
      · simp [hskip, hki]

end Fragacct

variable {g : Geometry}

theorem runs_eq_zero {fragmap siz : Nat} {f : Nat → Bool} (hmap : ∀ p, fragmap.testBit p = (decide (p < g.frag) && f p))
    (hlt : siz < g.frag) (hsiz : 0 < siz)
    (htable : (fragtbl g.frag).getD fragmap 0 <<< 1 &&& 1 <<< (siz + (g.frag &&& (NBBY - 1))) = 0) :
    Row.runs g.frag f siz = 0 := by
  have hfrag : g.frag ≤ 8 := Nat.pow_le_pow_right (by decide) (Nat.le_of_lt_succ g.fragshift.isLt)
  have hmax : fragmap < 2 ^ g.frag := by
    apply Nat.lt_pow_two_of_testBit
    intro p hp
    rw [hmap, decide_eq_false (by omega), Bool.false_and]
  rw [Row.runs, Finset.card_eq_zero, Finset.filter_eq_empty_iff]
  intro s hs hrun
  have hle := hrun.le
  have hfits := (fits_iff (by omega) hle hmap).mpr hrun
  exact table_knows g.fragshift rfl hmax hsiz hlt hle hfits htable

theorem rw_fragacct {a : Map} {h k : Nat} {fraglist : Nat → BitVec 32} {cnt : Int} (hk : 0 < k) (hlt : k < g.frag) :
    ufsRw32 (fragacct g (blkmap g.frag a (h * g.frag)) fraglist cnt k) g.needswap =
      ufsRw32 (fraglist k) g.needswap + BitVec.ofInt 32 (cnt * Row.runs g.frag (Row.row g.frag (bit a) h) k) := by
  have hfrag : g.frag ≤ 8 := Nat.pow_le_pow_right (by decide) (Nat.le_of_lt_succ g.fragshift.isLt)
  have hmap : ∀ p, (blkmap g.frag a (h * g.frag)).testBit p = (decide (p < g.frag) && Row.row g.frag (bit a) h p) :=
    testBit_blkmap g.fragshift
  have hmem : k ∈ List.range' 1 (g.frag - 1) := List.mem_range'_1.mpr (by omega)
  unfold fragacct
  rw [foldl_each _ _ _ List.nodup_range']
  by_cases htable : (fragtbl g.frag).getD (blkmap g.frag a (h * g.frag)) 0 <<< 1 &&& 1 <<< (k + (g.frag &&& (NBBY - 1))) = 0
  · rw [if_neg (fun h => h.2 htable), runs_eq_zero hmap hlt hk htable]
    simp
  · rw [if_pos ⟨hmem, htable⟩, rw_fragacctPos hmap hk (by omega) (le_refl k) (by omega), Nat.sub_self, Row.runsFrom_zero]

/-! ### Groups -/

/-- The entries of `fs_cs` add up to the total. -/
def Fs.Balanced (g : Geometry) (s : Fs) : Prop :=
  s.cstotal.nbfree = ∑ c ∈ Finset.range g.ncg, (s.cs c).nbfree ∧ s.cstotal.nffree = ∑ c ∈ Finset.range g.ncg, (s.cs c).nffree

/-- The words and maps of one group. -/
structure Cg.Shows (g : Geometry) (cgp : Cg) (c : Nat) (ℓ : Ledger) : Prop where
  cgx : (ufsRw32 cgp.cgx g.needswap).toNat = c
  nbfree : ufsRw32 cgp.nbfree g.needswap = BitVec.ofInt 32 ℓ.nbfree
  nffree : ufsRw32 cgp.nffree g.needswap = BitVec.ofInt 32 ℓ.nffree
  frsum : ∀ k, 0 < k → k < g.frag → ufsRw32 (cgp.frsum k) g.needswap = BitVec.ofInt 32 (ℓ.frsum k)
  free : bit cgp.blksfree = ℓ.free
  cluster : g.contigsumsize ≠ 0 → bit cgp.clustersfree = ℓ.cluster

structure Shows (g : Geometry) (s₀ s : Fs) (c : Nat) (ℓ : Ledger) : Prop where
  others : ∀ c' ≠ c, s.cgs c' = s₀.cgs c' ∧ s.cs c' = s₀.cs c'
  cg : (s.cgs c).Shows g c ℓ
  cs : s.cs c = ⟨ℓ.nbfree, ℓ.nffree⟩
  balanced : s.Balanced g

theorem sum_update_add {α : Type} (field : α → Int) {n c : Nat} (hc : c < n) (v : Nat → α) (x : α) :
    ∑ i ∈ Finset.range n, field (update v c x i) = ∑ i ∈ Finset.range n, field (v i) + (field x - field (v c)) := by
  have hmem : c ∈ Finset.range n := Finset.mem_range.mpr hc
  have hrest : ∑ i ∈ (Finset.range n).erase c, field (update v c x i) = ∑ i ∈ (Finset.range n).erase c, field (v i) :=
    Finset.sum_congr rfl fun i hi => by rw [update_of_ne (Finset.ne_of_mem_erase hi)]
  rw [← Finset.add_sum_erase _ _ hmem, ← Finset.add_sum_erase _ (fun i => field (v i)) hmem, update_self]
  omega

namespace Shows
variable {s₀ s : Fs} {c : Nat} {ℓ ℓ' : Ledger}

theorem setCg (h : Shows g s₀ s c ℓ) {cgp : Cg} (hcg : cgp.Shows g c ℓ') (hnb : ℓ'.nbfree = ℓ.nbfree)
    (hnf : ℓ'.nffree = ℓ.nffree) : Shows g s₀ (s.setCg c cgp) c ℓ' := by
  refine ⟨fun c' hc' => ?_, ?_, ?_, h.balanced⟩
  · show update s.cgs c cgp c' = _ ∧ _
    rw [update_of_ne hc']
    exact h.others c' hc'
  · show (update s.cgs c cgp c).Shows g c ℓ'
    rw [update_self]
    exact hcg
  · rw [hnb, hnf]
    exact h.cs

theorem map (h : Shows g s₀ s c ℓ) (map : Map) : Shows g s₀ (s.setCg c {s.cgs c with blksfree := map}) c {ℓ with free := bit map} :=
  h.setCg ⟨h.cg.cgx, h.cg.nbfree, h.cg.nffree, h.cg.frsum, rfl, h.cg.cluster⟩ rfl rfl

theorem rotors (h : Shows g s₀ s c ℓ) (rotor frotor : BitVec 32) :
    Shows g s₀ (s.setCg c {s.cgs c with rotor := rotor, frotor := frotor}) c ℓ :=
  h.setCg ⟨h.cg.cgx, h.cg.nbfree, h.cg.nffree, h.cg.frsum, h.cg.free, h.cg.cluster⟩ rfl rfl

theorem counts (h : Shows g s₀ s c ℓ) {frsum : Nat → BitVec 32} {v : Nat → Int}
    (hv : ∀ k, 0 < k → k < g.frag → ufsRw32 (frsum k) g.needswap = BitVec.ofInt 32 (v k)) :
    Shows g s₀ (s.setCg c {s.cgs c with frsum := frsum}) c {ℓ with frsum := v} :=
  h.setCg ⟨h.cg.cgx, h.cg.nbfree, h.cg.nffree, hv, h.cg.free, h.cg.cluster⟩ rfl rfl

theorem fragacct (h : Shows g s₀ s c ℓ) (a : Map) (b : Nat) (cnt : Int) :
    Shows g s₀ (s.setCg c {s.cgs c with frsum := fragacct g (blkmap g.frag a (b * g.frag)) (s.cgs c).frsum cnt}) c
      {ℓ with frsum := fun k => ℓ.frsum k + cnt * Row.runs g.frag (Row.row g.frag (bit a) b) k} := by
  apply h.counts
  intro k hk hkf
  rw [rw_fragacct hk hkf, h.cg.frsum k hk hkf, BitVec.ofInt_add]

theorem add_frsum {frsum : Nat → BitVec 32} {v : Nat → Int}
    (hv : ∀ k, 0 < k → k < g.frag → ufsRw32 (frsum k) g.needswap = BitVec.ofInt 32 (v k)) (i : Nat) (d : Int) (k : Nat)
    (hk : 0 < k) (hkf : k < g.frag) :
    ufsRw32 (update frsum i (ufsAdd32 (frsum i) d g.needswap) k) g.needswap = BitVec.ofInt 32 (v k + if k = i then d else 0) := by
  by_cases hki : k = i
  · subst hki
    rw [update_self, ufsRw32_ufsAdd32, hv k hk hkf, if_pos rfl, BitVec.ofInt_add]
  · rw [update_of_ne hki, hv k hk hkf, if_neg hki, Int.add_zero]

theorem entry (h : Shows g s₀ s c ℓ) (hc : c < g.ncg) {s' : Fs} {cgp : Cg} (hcg : cgp.Shows g c ℓ')
    (hcgs : s'.cgs = update s.cgs c cgp) (hcs : s'.cs = update s.cs c ⟨ℓ'.nbfree, ℓ'.nffree⟩)
    (hnb : s'.cstotal.nbfree = s.cstotal.nbfree + (ℓ'.nbfree - ℓ.nbfree))
    (hnf : s'.cstotal.nffree = s.cstotal.nffree + (ℓ'.nffree - ℓ.nffree)) : Shows g s₀ s' c ℓ' := by
  obtain ⟨hb, hf⟩ := h.balanced
  refine ⟨fun c' hc' => ?_, ?_, ?_, ?_, ?_⟩
  · rw [hcgs, hcs, update_of_ne hc', update_of_ne hc']
    exact h.others c' hc'
  · rw [hcgs, update_self]
    exact hcg
  · rw [hcs, update_self]
  · rw [hnb, hb, hcs, sum_update_add Csum.nbfree hc, h.cs]
  · rw [hnf, hf, hcs, sum_update_add Csum.nffree hc, h.cs]

theorem addNbfree (h : Shows g s₀ s c ℓ) (hc : c < g.ncg) (d : Int) :
    Shows g s₀ (s.addNbfree g c c d) c {ℓ with nbfree := ℓ.nbfree + d} := by
  have hword : ufsRw32 (ufsAdd32 (s.cgs c).nbfree d g.needswap) g.needswap = BitVec.ofInt 32 (ℓ.nbfree + d) := by
    rw [ufsRw32_ufsAdd32, h.cg.nbfree, BitVec.ofInt_add]
  have hcg : Cg.Shows g {s.cgs c with nbfree := ufsAdd32 (s.cgs c).nbfree d g.needswap} c {ℓ with nbfree := ℓ.nbfree + d} :=
    ⟨h.cg.cgx, hword, h.cg.nffree, h.cg.frsum, h.cg.free, h.cg.cluster⟩
  refine h.entry hc hcg rfl ?_ ?_ ?_
  · show update s.cs c _ = _
    rw [h.cs]
  · show s.cstotal.nbfree + d = s.cstotal.nbfree + (ℓ.nbfree + d - ℓ.nbfree)
    omega
  · show s.cstotal.nffree = s.cstotal.nffree + (ℓ.nffree - ℓ.nffree)
    omega

theorem addNffree (h : Shows g s₀ s c ℓ) (hc : c < g.ncg) (d : Int) :
    Shows g s₀ (s.addNffree g c c d) c {ℓ with nffree := ℓ.nffree + d} := by
  have hword : ufsRw32 (ufsAdd32 (s.cgs c).nffree d g.needswap) g.needswap = BitVec.ofInt 32 (ℓ.nffree + d) := by
    rw [ufsRw32_ufsAdd32, h.cg.nffree, BitVec.ofInt_add]
  have hcg : Cg.Shows g {s.cgs c with nffree := ufsAdd32 (s.cgs c).nffree d g.needswap} c {ℓ with nffree := ℓ.nffree + d} :=
    ⟨h.cg.cgx, h.cg.nbfree, hword, h.cg.frsum, h.cg.free, h.cg.cluster⟩
  refine h.entry hc hcg rfl ?_ ?_ ?_
  · show update s.cs c _ = _
    rw [h.cs]
  · show s.cstotal.nbfree = s.cstotal.nbfree + (ℓ.nbfree - ℓ.nbfree)
    omega
  · show s.cstotal.nffree + d = s.cstotal.nffree + (ℓ.nffree + d - ℓ.nffree)
    omega

theorem clusteracct (h : Shows g s₀ s c ℓ) (blkno : Nat) (cnt : Int) :
    Shows g s₀ (clusteracct g s c blkno cnt) c {ℓ with cluster := update ℓ.cluster blkno (decide (0 < cnt))} := by
  unfold Ffs.clusteracct
  by_cases hnone : g.contigsumsize = 0
  · rw [if_pos hnone]
    have hcg := h.cg
    exact ⟨h.others, ⟨hcg.cgx, hcg.nbfree, hcg.nffree, hcg.frsum, hcg.free, fun hsum => absurd hnone hsum⟩, h.cs, h.balanced⟩
  rw [if_neg hnone]
  have hmap : bit (if 0 < cnt then setbit (s.cgs c).clustersfree blkno else clrbit (s.cgs c).clustersfree blkno) =
      update ℓ.cluster blkno (decide (0 < cnt)) := by
    funext i
    have hbit := congrFun (h.cg.cluster hnone) i
    by_cases hcnt : 0 < cnt
    · by_cases hi : i = blkno
      · subst hi
        simp [hcnt, bit_setbit]
      · simp [hcnt, bit_setbit, hi, hbit]
    by_cases hi : i = blkno
    · subst hi
      simp [hcnt, bit_clrbit]
    · simp [hcnt, bit_clrbit, hi, hbit]
  -- The sums of clusters are not in the ledger.
  have hcg : ∀ map sump, bit map = update ℓ.cluster blkno (decide (0 < cnt)) →
      Cg.Shows g {s.cgs c with clustersfree := map, clustersum := sump} c
        {ℓ with cluster := update ℓ.cluster blkno (decide (0 < cnt))} := fun map sump hmap =>
    ⟨h.cg.cgx, h.cg.nbfree, h.cg.nffree, h.cg.frsum, h.cg.free, fun _ => hmap⟩
  have hshows := fun sump => h.setCg (hcg _ sump hmap) rfl rfl
  exact ⟨(hshows _).others, (hshows _).cg, h.cs, h.balanced⟩

end Shows

end NetBSD.Ufs.Ffs
