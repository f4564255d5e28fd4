import NetBSD.Ufs.Ffs.Calls
import NetBSD.Lib.RunLengths

/-! The cluster sums of a group.

`cg_clustersum[k]` counts the clusters of `k` free blocks, the last counter those of
`fs_contigsumsize` or more. `ffs_clusteracct` measures the free blocks on both sides of a
block that changes hands, no further than it needs to, and moves one unit between the
counters of the parts and of the whole: what `Row.weigh_join` says of the runs themselves, with
their lengths cut off (`cluster_sums_exact`). -/
namespace NetBSD.Ufs.Ffs
open List Function
open Lib

section Clusters
variable {g : Geometry} {s s' : Fs} {c blkno : Nat}

/-- The cluster blocks of a group. -/
def Cg.nclusters (g : Geometry) (cgp : Cg) : Nat := (ufsRw32 cgp.nclusterblks g.needswap).toNat

def Cg.clusters (g : Geometry) (cgp : Cg) (k : Nat) : Nat := (ufsRw32 (cgp.clustersum k) g.needswap).toNat

/-- The counters are those of the maximal runs of free blocks. -/
structure ClusterSums (g : Geometry) (cgp : Cg) : Prop where
  exact : ∀ k, 0 < k → k < g.contigsumsize → cgp.clusters g k = Row.runs (cgp.nclusters g) (bit cgp.clustersfree) k
  long : cgp.clusters g g.contigsumsize = Row.longRuns (cgp.nclusters g) (bit cgp.clustersfree) g.contigsumsize

/-- `fs_maxcluster` is the largest length with a counter that is not 0, or 0. -/
structure LargestCluster (g : Geometry) (s : Fs) (c : Nat) : Prop where
  counted : s.maxcluster (ufsRw32 (s.cgs c).cgx g.needswap).toNat = 0 ∨ 0 < s.maxcluster (ufsRw32 (s.cgs c).cgx g.needswap).toNat ∧
      s.maxcluster (ufsRw32 (s.cgs c).cgx g.needswap).toNat ≤ g.contigsumsize ∧
      (s.cgs c).clusters g (s.maxcluster (ufsRw32 (s.cgs c).cgx g.needswap).toNat) ≠ 0
  largest : ∀ k, 0 < k → k ≤ g.contigsumsize → (s.cgs c).clusters g k ≠ 0 → k ≤ s.maxcluster (ufsRw32 (s.cgs c).cgx g.needswap).toNat

/-- A call of `ffs_clusteracct` for a block of the group, which is freed or allocated. -/
structure ClusterCall where
  blkno : Nat
  free : Bool

/-- Only an allocated block is freed, and only a free one allocated. -/
def Fs.clusterCall (g : Geometry) (c : Nat) (s : Fs) (a : ClusterCall) : Option Fs :=
  if a.blkno < (s.cgs c).nclusters g ∧ isset (s.cgs c).clustersfree a.blkno = !a.free then
    some (clusteracct g s c a.blkno (if a.free then 1 else -1))
  else none

/-- Calls for group `c`, from a map with exact sums. -/
def clusterCalls (g : Geometry) (c : Nat) : System Fs ClusterCall :=
  System.ofStep (fun s => ClusterSums g (s.cgs c)) (Fs.clusterCall g c)

/-- Counter `k` counts a run of `m`. -/
def counts (S k m : Nat) : Nat := if min m S = k then 1 else 0

theorem clusterSums_iff {cgp : Cg} (hS : 0 < g.contigsumsize) : ClusterSums g cgp ↔ ∀ k, 0 < k → k ≤ g.contigsumsize →
    cgp.clusters g k = Row.weigh (cgp.nclusters g) (bit cgp.clustersfree) (counts g.contigsumsize k) := by
  have hexact (k : Nat) (hk : 0 < k) (hlt : k < g.contigsumsize) :
      Row.weigh (cgp.nclusters g) (bit cgp.clustersfree) (counts g.contigsumsize k) = Row.runs (cgp.nclusters g) (bit cgp.clustersfree) k := by
    rw [← Row.weigh_exact hk]
    congr 1
    funext m
    exact if_congr (by omega) rfl rfl
  have hlong : Row.weigh (cgp.nclusters g) (bit cgp.clustersfree) (counts g.contigsumsize g.contigsumsize) =
      Row.longRuns (cgp.nclusters g) (bit cgp.clustersfree) g.contigsumsize := by
    rw [← Row.weigh_long]
    congr 1
    funext m
    exact if_congr (by omega) rfl rfl
  constructor
  · intro h k hk hle
    rcases lt_or_eq_of_le hle with hlt | rfl
    · rw [hexact k hk hlt, h.exact k hk hlt]
    · rw [hlong, h.long]
  intro h
  refine ⟨fun k hk hlt => ?_, ?_⟩
  · rw [← hexact k hk hlt, h k hk hlt.le]
  · rw [← hlong, h _ hS (le_refl _)]

theorem forwFree_eq (map : Map) (k i : Nat) : forwFree map k i = Row.ahead (bit map) k i := by
  induction k generalizing i with
  | zero => rfl
  | succ k ih => rw [forwFree, Row.ahead, ih, isset_eq]

theorem backFree_eq (map : Map) (k i : Nat) : backFree map k i = Row.behind (bit map) k i := by
  induction k generalizing i with
  | zero => rfl
  | succ k ih => rw [backFree, Row.behind, ih, isset_eq]

/-- A counter changes by `d`, if at all. -/
def addIf (ns p : Bool) (i : Nat) (d : Int) (v : Nat → BitVec 32) : Nat → BitVec 32 :=
  if p then update v i (ufsAdd32 (v i) d ns) else v

theorem rw_addIf (ns p : Bool) (i : Nat) (d : Int) (v : Nat → BitVec 32) (k : Nat) : ufsRw32 (addIf ns p i d v k) ns =
    ufsRw32 (v k) ns + BitVec.ofInt 32 (if p = true ∧ k = i then d else 0) := by
  have hzero : ufsRw32 (v k) ns = ufsRw32 (v k) ns + BitVec.ofInt 32 0 := (BitVec.add_zero _).symm
  cases p with
  | false => rw [addIf, if_neg (by decide), if_neg fun h => absurd h.1 (by decide), ← hzero]
  | true =>
    rw [addIf, if_pos rfl]
    by_cases hk : k = i
    · subst hk
      rw [update_self, ufsRw32_ufsAdd32, if_pos ⟨rfl, rfl⟩]
    · rw [update_of_ne hk, if_neg fun h => hk h.2, ← hzero]

theorem find_largest (p : Nat → Bool) (S : Nat) :
    ((((List.range' 1 S).reverse.find? p).getD 0 = 0) ∨ 0 < ((List.range' 1 S).reverse.find? p).getD 0 ∧
      ((List.range' 1 S).reverse.find? p).getD 0 ≤ S ∧ p (((List.range' 1 S).reverse.find? p).getD 0) = true) ∧
    ∀ k, 0 < k → k ≤ S → p k = true → k ≤ ((List.range' 1 S).reverse.find? p).getD 0 := by
  induction S with
  | zero => exact ⟨.inl rfl, fun k hk hle => absurd hk (by omega)⟩
  | succ S ih =>
    rw [range'_1_concat, reverse_append, reverse_singleton, singleton_append, find?_cons]
    cases hp : p (1 + S) with
    | true => exact ⟨.inr ⟨by show 0 < 1 + S; omega, by show 1 + S ≤ S + 1; omega, hp⟩, fun k _ hle _ => by show k ≤ 1 + S; omega⟩
    | false =>
      obtain ⟨hcounted, hlargest⟩ := ih
      refine ⟨hcounted.imp_right fun ⟨hpos, hle, hpp⟩ => ⟨hpos, Nat.le_succ_of_le hle, hpp⟩, fun k hk hle hpk => hlargest k hk ?_ hpk⟩
      by_contra hgt
      obtain rfl : k = 1 + S := by omega
      rw [hp] at hpk
      exact absurd hpk (by decide)

/-! ### One call -/

/-- What a counter gains when two runs become one around a block, and loses when they part. -/
def gain (S k l r : Nat) : Int :=
  counts S k (l + 1 + r) - ((if 0 < l then counts S k l else 0) + if 0 < r then counts S k r else 0 : Nat)

/-- The three additions, with lengths cut off. -/
def sumsAfter (ns : Bool) (S l r : Nat) (cnt : Int) (sump : Nat → BitVec 32) : Nat → BitVec 32 :=
  addIf ns (0 < min r S) (min r S) (-cnt) (addIf ns (0 < min l S) (min l S) (-cnt)
    (addIf ns true (min (min l S + min r S + 1) S) cnt sump))

theorem rw_sumsAfter (ns : Bool) {S : Nat} (hS : 0 < S) (l r : Nat) (cnt : Int) (sump : Nat → BitVec 32) (k : Nat) :
    ufsRw32 (sumsAfter ns S l r cnt sump k) ns = ufsRw32 (sump k) ns + BitVec.ofInt 32 (cnt * gain S k l r) := by
  have hwhole : (if True ∧ k = min (min l S + min r S + 1) S then cnt else 0) = cnt * counts S k (l + 1 + r) := by
    unfold counts
    by_cases hk : min (l + 1 + r) S = k
    · rw [if_pos ⟨trivial, by omega⟩, if_pos hk]
      simp
    · rw [if_neg fun h => hk (by omega), if_neg hk]
      simp
  have hpart (m : Nat) : (if 0 < min m S ∧ k = min m S then -cnt else 0) = -(cnt * (if 0 < m then counts S k m else 0 : Nat)) := by
    unfold counts
    by_cases hm : 0 < m
    · by_cases hk : min m S = k
      · rw [if_pos ⟨by omega, hk.symm⟩, if_pos hm, if_pos hk]
        simp
      · rw [if_neg fun h => hk h.2.symm, if_neg hk]
        simp
    · rw [if_neg (by omega), if_neg hm]
      simp
  unfold sumsAfter
  simp only [rw_addIf, decide_eq_true_eq, hwhole, hpart, BitVec.add_assoc, ← BitVec.ofInt_add]
  rw [gain]
  push_cast
  ring

/-- The cluster map with block `blkno` freed or allocated. -/
def changed (map : Map) (blkno : Nat) (cnt : Int) : Map := if 0 < cnt then setbit map blkno else clrbit map blkno

/-- The counters of group `c` after the call. -/
def Fs.newSums (g : Geometry) (s : Fs) (c blkno : Nat) (cnt : Int) : Nat → BitVec 32 :=
  sumsAfter g.needswap g.contigsumsize (Row.behind (bit (changed (s.cgs c).clustersfree blkno cnt)) blkno blkno)
    (Row.ahead (bit (changed (s.cgs c).clustersfree blkno cnt)) ((s.cgs c).nclusters g - (blkno + 1)) (blkno + 1)) cnt
    (s.cgs c).clustersum

theorem clusteracct_eq (hS : 0 < g.contigsumsize) (cnt : Int) : clusteracct g s c blkno cnt = { s.setCg c {s.cgs c with
        clustersfree := changed (s.cgs c).clustersfree blkno cnt, clustersum := s.newSums g c blkno cnt} with
      maxcluster := update s.maxcluster (ufsRw32 (s.cgs c).cgx g.needswap).toNat
        (((List.range' 1 g.contigsumsize).reverse.find? fun k =>
          decide ((ufsRw32 (s.newSums g c blkno cnt k) g.needswap).toNat ≠ 0)).getD 0) } := by
  have hforw : forwFree (changed (s.cgs c).clustersfree blkno cnt)
      ((if (s.cgs c).nclusters g ≤ blkno + 1 + g.contigsumsize then (s.cgs c).nclusters g else blkno + 1 + g.contigsumsize) -
        (blkno + 1)) (blkno + 1) =
      min (Row.ahead (bit (changed (s.cgs c).clustersfree blkno cnt)) ((s.cgs c).nclusters g - (blkno + 1)) (blkno + 1))
        g.contigsumsize := by
    rw [forwFree_eq, ← Row.ahead_min]
    congr 1
    split <;> omega
  have hback : backFree (changed (s.cgs c).clustersfree blkno cnt) (min blkno g.contigsumsize) blkno =
      min (Row.behind (bit (changed (s.cgs c).clustersfree blkno cnt)) blkno blkno) g.contigsumsize := by
    rw [backFree_eq, ← Row.behind_min]
  unfold clusteracct Fs.newSums sumsAfter addIf
  rw [if_neg hS.ne']
  unfold changed Cg.nclusters at *
  simp [hforw, hback, decide_eq_true_eq, if_true]

theorem bit_changed (map : Map) (free : Bool) : bit (changed map blkno (if free then 1 else -1)) = Row.fill (bit map) blkno 1 free := by
  funext i
  unfold changed
  cases free with
  | true =>
    rw [if_pos (by decide), bit_setbit]
    by_cases hi : i = blkno
    · rw [Row.fill_inside (by omega) (by omega), decide_eq_true hi, Bool.true_or]
    · rw [Row.fill_outside (by omega), decide_eq_false hi, Bool.false_or]
  | false =>
    rw [if_neg (by decide), bit_clrbit]
    by_cases hi : i = blkno
    · rw [Row.fill_inside (by omega) (by omega), decide_eq_true hi, Bool.not_true, Bool.false_and]
    · rw [Row.fill_outside (by omega), decide_eq_false hi, Bool.not_false, Bool.true_and]

theorem weigh_changed {n S : Nat} {f : Nat → Bool} {free : Bool} (hb : blkno < n) (hf : f blkno = !free) (k : Nat) :
    (Row.weigh n (Row.fill f blkno 1 free) (counts S k) : Int) = Row.weigh n f (counts S k) +
      (if free then 1 else -1) * gain S k (Row.behind (Row.fill f blkno 1 free) blkno blkno)
        (Row.ahead (Row.fill f blkno 1 free) (n - (blkno + 1)) (blkno + 1)) := by
  cases free with
  | true =>
    have hjoin := Row.weigh_join hb hf (counts S k)
    have hback : Row.behind (Row.fill f blkno 1 true) blkno blkno = Row.behind f blkno blkno :=
      Row.behind_congr (le_refl _) fun p hp => Row.fill_outside (by omega)
    have hforw : Row.ahead (Row.fill f blkno 1 true) (n - (blkno + 1)) (blkno + 1) = Row.ahead f (n - (blkno + 1)) (blkno + 1) :=
      Row.ahead_congr fun p hp => Row.fill_outside (by omega)
    rw [hback, hforw, gain, if_pos rfl]
    omega
  | false =>
    have hclear : Row.fill f blkno 1 false blkno = false := Row.fill_inside (le_refl _) (by omega)
    have hjoin := Row.weigh_join hb hclear (counts S k)
    have hself : Row.fill (Row.fill f blkno 1 false) blkno 1 true = f := by
      rw [Row.fill_fill_same]
      apply Row.fill_self
      intro p hlo hhi
      obtain rfl : p = blkno := by omega
      exact hf
    rw [hself] at hjoin
    rw [gain, if_neg (by decide)]
    omega

theorem clusterCall_exact {a : ClusterCall} (hS : 0 < g.contigsumsize) (h : ClusterSums g (s.cgs c))
    (hs : s.clusterCall g c a = some s') : ClusterSums g (s'.cgs c) ∧ LargestCluster g s' c := by
  unfold Fs.clusterCall at hs
  split at hs
  · next hvalid =>
    obtain ⟨hb, hset⟩ := hvalid
    rw [isset_eq] at hset
    rw [clusteracct_eq hS] at hs
    obtain rfl := Option.some.inj hs
    refine ⟨(clusterSums_iff hS).mpr fun k hk hle => ?_, ?_⟩
    · have hold := (clusterSums_iff hS).mp h k hk hle
      have hsmall (f : Nat → Bool) : Row.weigh ((s.cgs c).nclusters g) f (counts g.contigsumsize k) < 2 ^ 32 := by
        have hone : ∀ m, counts g.contigsumsize k m ≤ 1 := fun m => by
          unfold counts
          split <;> omega
        exact (Row.weigh_le hone).trans_lt (BitVec.isLt _)
      have hword : ufsRw32 ((s.cgs c).clustersum k) g.needswap =
          BitVec.ofInt 32 (Row.weigh ((s.cgs c).nclusters g) (bit (s.cgs c).clustersfree) (counts g.contigsumsize k)) :=
        BitVec.eq_of_toNat_eq (by rw [toNat_ofInt (hsmall _)]; exact hold)
      have hnew := @weigh_changed a.blkno _ g.contigsumsize (bit (s.cgs c).clustersfree) a.free hb hset k
      show (update s.cgs c _ c).clusters g k = Row.weigh ((update s.cgs c _ c).nclusters g)
        (bit (update s.cgs c _ c).clustersfree) _
      rw [update_self]
      show (ufsRw32 (s.newSums g c a.blkno _ k) g.needswap).toNat = Row.weigh ((s.cgs c).nclusters g) (bit (changed _ _ _)) _
      rw [Fs.newSums, rw_sumsAfter _ hS, bit_changed, hword, ← BitVec.ofInt_add, ← hnew, toNat_ofInt (hsmall _)]
    · obtain ⟨hcounted, hlargest⟩ := find_largest (fun k => decide ((ufsRw32 (s.newSums g c a.blkno (if a.free then 1 else -1) k)
        g.needswap).toNat ≠ 0)) g.contigsumsize
      simp only [decide_eq_true_eq] at hcounted hlargest
      have hcg (cgp : Cg) : (update s.cgs c cgp) c = cgp := update_self c cgp s.cgs
      constructor
      · simp only [Fs.setCg, hcg, update_self]
        exact hcounted
      · simp only [Fs.setCg, hcg, update_self]
        exact hlargest
  · exact absurd hs (by simp)

/-- In every state reached the counters are exact, and after every call `fs_maxcluster` is the
largest length that is there. -/
theorem cluster_sums_exact (hS : 0 < g.contigsumsize) (h : (clusterCalls g c).Reachable s) : ClusterSums g (s.cgs c) ∧
    ∀ a s', s.clusterCall g c a = some s' → ClusterSums g (s'.cgs c) ∧ LargestCluster g s' c := by
  have hsums : ClusterSums g (s.cgs c) := by
    refine System.Reach.invariant (fun _ hinit => hinit) (fun s a s' hinv _ hstep => ?_) h
    exact (clusterCall_exact hS hinv hstep).1
  exact ⟨hsums, fun a s' hs => clusterCall_exact hS hsums hs⟩

/-- Three free blocks in a row, counted as two or more: the middle one is allocated. -/
theorem cluster_sums_exact_middle : ∃ s, (clusterCalls small 0).Reachable s ∧ (s.cgs 0).clusters small 1 = 2 ∧
    (s.cgs 0).clusters small 2 = 0 ∧ s.maxcluster 0 = 1 ∧ ClusterSums small (s.cgs 0) := by
  have hrun : (System.run (Fs.clusterCall small 0) fresh [⟨2, false⟩]).map (fun s =>
      ((s.cgs 0).clusters small 1, (s.cgs 0).clusters small 2, s.maxcluster 0)) = some (2, 0, 1) := by decide
  obtain ⟨s, hs, hvals⟩ := Option.map_eq_some_iff.mp hrun
  obtain ⟨hone, htwo, hmax⟩ := And.imp_right Prod.mk.inj (Prod.mk.inj hvals)
  have hall : ∀ k < small.contigsumsize, 0 < k →
      (fresh.cgs 0).clusters small k = Row.runs ((fresh.cgs 0).nclusters small) (bit (fresh.cgs 0).clustersfree) k := by
    decide
  have hfresh : ClusterSums small (fresh.cgs 0) := ⟨fun k hk hlt => hall k hlt hk, by decide⟩
  have hstep : fresh.clusterCall small 0 ⟨2, false⟩ = some s := by
    obtain ⟨s', hcall, hnil⟩ := Option.bind_eq_some_iff.mp hs
    exact hcall.trans hnil
  have hreach : (clusterCalls small 0).Reachable s := .step (.init hfresh) trivial hstep
  exact ⟨s, hreach, hone, htwo, hmax, (cluster_sums_exact (by decide) hreach).1⟩

end Clusters

end NetBSD.Ufs.Ffs
