import NetBSD.Ufs.Ffs.Summaries
import NetBSD.Lib.System

/-! Runs of calls that allocate and free.

A run starts from a file system whose summaries agree with the maps. `Call.Promised` is what
the callers in `ffs_alloc.c` have checked: sizes are whole fragments, a range is inside one
block, and the fragments that `ffs_fragextend` grows are allocated. -/
namespace NetBSD.Ufs.Ffs
open Option Nat
open Lib

variable (g : Geometry)

/-- The summaries of every group agree with its map, the entries of `fs_cs` with the groups and
the total with the entries. -/
structure Fs.Exact (s : Fs) : Prop where
  nbfree : ∀ c < g.ncg, (ufsRw32 (s.cgs c).nbfree g.needswap).toNat = Row.tally (bfree g.frag) g.frag g.nblk (bit (s.cgs c).blksfree)
  nffree : ∀ c < g.ncg, (ufsRw32 (s.cgs c).nffree g.needswap).toNat = Row.tally (ffree g.frag) g.frag g.nblk (bit (s.cgs c).blksfree)
  frsum : ∀ c < g.ncg, ∀ k, 0 < k → k < g.frag → (ufsRw32 ((s.cgs c).frsum k) g.needswap).toNat =
    Row.tally (fun f => Row.runs g.frag f k) g.frag g.nblk (bit (s.cgs c).blksfree)
  cs : ∀ c < g.ncg, s.cs c = ⟨(ufsRw32 (s.cgs c).nbfree g.needswap).toNat, (ufsRw32 (s.cgs c).nffree g.needswap).toNat⟩
  balanced : s.Balanced g
  cluster : g.contigsumsize ≠ 0 → ∀ c < g.ncg, ∀ h,
    bit (s.cgs c).clustersfree h = decide (Row.Full g.frag (Row.row g.frag (bit (s.cgs c).blksfree) h))

/-- The format: a group knows its number, and its map ends where the group ends. -/
structure Fs.WellFormed (s : Fs) : Prop where
  cgx : ∀ c < g.ncg, (ufsRw32 (s.cgs c).cgx g.needswap).toNat = c
  ends : ∀ c < g.ncg, ∀ i, g.fpg ≤ i → bit (s.cgs c).blksfree i = false

def Fs.isFree (s : Fs) (d : Nat) : Bool := bit (s.cgs (g.dtog d)).blksfree (g.dtogd d)

inductive Call where
  | alloccg (c bpref size realsize : Nat)
  | fragextend (bprev osize nsize : Nat)
  | blkalloc (bno size : Nat)
  | blkfree (bno size : Nat) (snapshot : Bool)

/-- A call that returns, with the block it answers; `none` is a panic or `EBUSY`. -/
def Fs.call (s : Fs) : Call → Option (Fs × Option Nat)
  | .alloccg c bpref size realsize =>
    (alloccg g s c bpref size realsize false).map fun (s, blk) => (s, if blk = 0 then none else some blk)
  | .fragextend bprev osize nsize =>
    let (s, blk) := fragextend g s (g.dtog bprev) bprev osize nsize
    some (s, if blk = 0 then none else some blk)
  | .blkalloc bno size => (blkallocUmp g s bno size).map fun s => (s, some bno)
  | .blkfree bno size snapshot => (blkfreeCommon g s (g.dtog bno) bno size snapshot).map fun s => (s, none)

/-- What the callers have checked. -/
def Call.Promised (s : Fs) : Call → Prop
  | .alloccg c _ size realsize =>
    c < g.ncg ∧ g.fsize ∣ size ∧ 0 < size ∧ size ≤ g.bsize ∧ g.fsize ∣ realsize ∧ realsize ≤ g.bsize
  | .fragextend bprev osize nsize =>
    g.dtog bprev < g.ncg ∧ g.fsize ∣ osize ∧ g.fsize ∣ nsize ∧ 0 < osize ∧ osize < nsize ∧ nsize ≤ g.bsize ∧
      g.fragnum bprev + g.numfrags osize ≤ g.frag ∧ ∀ i < g.numfrags osize, s.isFree g (bprev + i) = false
  | .blkalloc bno size => g.dtog bno < g.ncg ∧ g.fsize ∣ size ∧ 0 < size ∧ g.fragnum bno + g.numfrags size ≤ g.frag
  | .blkfree bno size _ => g.dtog bno < g.ncg ∧ g.fsize ∣ size ∧ 0 < size ∧ g.fragnum bno + g.numfrags size ≤ g.frag

instance (s : Fs) : (a : Call) → Decidable (a.Promised g s)
  | .alloccg .. => inferInstanceAs (Decidable (_ ∧ _))
  | .fragextend .. => inferInstanceAs (Decidable (_ ∧ _))
  | .blkalloc .. => inferInstanceAs (Decidable (_ ∧ _))
  | .blkfree .. => inferInstanceAs (Decidable (_ ∧ _))

/-- Where the fragments begin that a call with the answer `blk` has allocated, and how many
they are. -/
def Call.range : Call → Nat → Nat × Nat
  | .alloccg _ _ size realsize, blk => (blk, Shows.granted g size realsize)
  | .fragextend _ osize nsize, blk => (blk + g.numfrags osize, g.numfrags nsize - g.numfrags osize)
  | .blkalloc _ size, blk => (blk, g.numfrags size)
  | .blkfree .., _ => (0, 0)

def ffs : System Fs Call :=
  System.ofStep (fun s => s.Exact g ∧ s.WellFormed g) fun s a => (s.call g a).map Prod.fst

variable {g} {s s' : Fs} {c : Nat} {ℓ : Ledger}

/-! ### States and ledgers -/

section Bounds
variable (f : Nat → Bool)

theorem nbfree_lt : Row.tally (bfree g.frag) g.frag g.nblk f < 2 ^ 32 := by
  have hle := @Row.tally_le f (bfree g.frag) g.frag 1 g.nblk bfree_le
  have hblk : g.nblk * 1 ≤ g.nblk * g.frag := Nat.mul_le_mul_left _ g.frag_pos
  rw [g.nblk_mul] at hblk
  have := g.fpg_lt
  omega

theorem nffree_lt : Row.tally (ffree g.frag) g.frag g.nblk f < 2 ^ 32 := by
  have hle := @Row.tally_le f (ffree g.frag) g.frag g.frag g.nblk ffree_le
  rw [g.nblk_mul] at hle
  have := g.fpg_lt
  omega

theorem frsum_lt (k : Nat) : Row.tally (fun f => Row.runs g.frag f k) g.frag g.nblk f < 2 ^ 32 := by
  have hle := @Row.tally_le f (fun f => Row.runs g.frag f k) g.frag g.frag g.nblk fun _ => Row.runs_le
  rw [g.nblk_mul] at hle
  have := g.fpg_lt
  omega

end Bounds

theorem toNat_ofInt {n : Nat} (h : n < 2 ^ 32) : (BitVec.ofInt 32 (n : Int)).toNat = n := by
  rw [BitVec.ofInt_natCast, BitVec.toNat_ofNat, mod_eq_of_lt h]

theorem eq_ofInt {w : BitVec 32} {n : Nat} (h : w.toNat = n) : w = BitVec.ofInt 32 (n : Int) := by
  rw [← h, BitVec.ofInt_natCast, BitVec.ofNat_toNat, BitVec.setWidth_eq]

/-- The ledger that goes with the map of a group. -/
def Fs.ledger (g : Geometry) (s : Fs) (c : Nat) : Ledger where
  free := bit (s.cgs c).blksfree
  cluster := fun h => decide (Row.Full g.frag (Row.row g.frag (bit (s.cgs c).blksfree) h))
  nbfree := Row.tally (bfree g.frag) g.frag g.nblk (bit (s.cgs c).blksfree)
  nffree := Row.tally (ffree g.frag) g.frag g.nblk (bit (s.cgs c).blksfree)
  frsum := fun k => Row.tally (fun f => Row.runs g.frag f k) g.frag g.nblk (bit (s.cgs c).blksfree)

theorem ledger_exact (hw : s.WellFormed g) (hc : c < g.ncg) : (s.ledger g c).Exact g :=
  ⟨rfl, rfl, fun _ _ _ => rfl, fun _ => rfl, hw.ends c hc⟩

theorem shows_ledger (he : s.Exact g) (hw : s.WellFormed g) (hc : c < g.ncg) : Shows g s s c (s.ledger g c) := by
  refine ⟨fun _ _ => ⟨rfl, rfl⟩, ⟨hw.cgx c hc, eq_ofInt (he.nbfree c hc), eq_ofInt (he.nffree c hc), fun k hk hkf => ?_, rfl,
    fun hsum => ?_⟩, ?_, he.balanced⟩
  · exact eq_ofInt (he.frsum c hc k hk hkf)
  · funext h
    exact he.cluster hsum c hc h
  · rw [he.cs c hc, he.nbfree c hc, he.nffree c hc]
    rfl

/-- A group that shows an exact ledger, among groups that are as they were. -/
theorem exact_of_shows (he : s.Exact g) (hw : s.WellFormed g) (h : Shows g s s' c ℓ) (hℓ : ℓ.Exact g) : s'.Exact g ∧ s'.WellFormed g := by
  have hcg := h.cg
  have hfree := hcg.free
  have hnb : (ufsRw32 (s'.cgs c).nbfree g.needswap).toNat = Row.tally (bfree g.frag) g.frag g.nblk (bit (s'.cgs c).blksfree) := by
    rw [hcg.nbfree, hℓ.nbfree, hfree]
    exact toNat_ofInt (nbfree_lt _)
  have hnf : (ufsRw32 (s'.cgs c).nffree g.needswap).toNat = Row.tally (ffree g.frag) g.frag g.nblk (bit (s'.cgs c).blksfree) := by
    rw [hcg.nffree, hℓ.nffree, hfree]
    exact toNat_ofInt (nffree_lt _)
  refine ⟨⟨fun c' hc' => ?_, fun c' hc' => ?_, fun c' hc' k hk hkf => ?_, fun c' hc' => ?_, h.balanced,
    fun hsum c' hc' b => ?_⟩, fun c' hc' => ?_, fun c' hc' i hi => ?_⟩
  · by_cases hcc : c' = c
    · subst hcc
      exact hnb
    · rw [(h.others c' hcc).1]
      exact he.nbfree c' hc'
  · by_cases hcc : c' = c
    · subst hcc
      exact hnf
    · rw [(h.others c' hcc).1]
      exact he.nffree c' hc'
  · by_cases hcc : c' = c
    · subst hcc
      rw [hcg.frsum k hk hkf, hℓ.frsum k hk hkf, hfree]
      exact toNat_ofInt (frsum_lt _ k)
    · rw [(h.others c' hcc).1]
      exact he.frsum c' hc' k hk hkf
  · by_cases hcc : c' = c
    · subst hcc
      rw [h.cs, hnb, hnf, hℓ.nbfree, hℓ.nffree, hfree]
    · rw [(h.others c' hcc).1, (h.others c' hcc).2]
      exact he.cs c' hc'
  · by_cases hcc : c' = c
    · subst hcc
      rw [hcg.cluster hsum, hfree]
      exact hℓ.cluster b
    · rw [(h.others c' hcc).1]
      exact he.cluster hsum c' hc' b
  · by_cases hcc : c' = c
    · subst hcc
      exact hcg.cgx
    · rw [(h.others c' hcc).1]
      exact hw.cgx c' hc'
  by_cases hcc : c' = c
  · subst hcc
    rw [hfree]
    exact hℓ.ends i hi
  · rw [(h.others c' hcc).1]
    exact hw.ends c' hc' i hi

/-! ### One call -/

theorem Geometry.group_add {d i : Nat} (h : g.dtogd d + i < g.fpg) : g.dtog (d + i) = g.dtog d ∧ g.dtogd (d + i) = g.dtogd d + i := by
  have hd : d + i = g.cgbase (g.dtog d) + (g.dtogd d + i) := by
    have := div_add_mod d g.fpg
    rw [cgbase, dtog, dtogd]
    omega
  rw [hd]
  exact ⟨dtog_cgbase h, dtogd_cgbase h⟩

theorem Geometry.inside_of_promised {bno size : Nat} (hsize : g.fsize ∣ size) (hpos : 0 < size)
    (hle : g.fragnum bno + g.numfrags size ≤ g.frag) : g.Inside (g.dtogd bno) (g.numfrags size) := by
  refine ⟨g.dtogd_lt bno, Nat.div_pos (le_of_dvd hpos hsize) g.fsize_pos, ?_⟩
  rw [dtogd_mod]
  exact hle

theorem Geometry.Inside.end_le {cgbno frags : Nat} (h : g.Inside cgbno frags) : cgbno + frags ≤ g.fpg := by
  have hlt : (cgbno / g.frag + 1) * g.frag ≤ g.nblk * g.frag := Nat.mul_le_mul_right _ h.block_lt
  rw [succ_mul, g.nblk_mul] at hlt
  have hplace := @place g cgbno
  have := h.le
  omega

/-- The range `n` fragments from `d` on was free and is allocated. -/
def Fs.Taken (g : Geometry) (s s' : Fs) (d n : Nat) : Prop := ∀ i < n, s.isFree g (d + i) = true ∧ s'.isFree g (d + i) = false

theorem taken_of_fill {d n : Nat} (h : Shows g s s' (g.dtog d) ℓ) (hend : g.dtogd d + n ≤ g.fpg)
    (hset : ∀ i < n, bit (s.cgs (g.dtog d)).blksfree (g.dtogd d + i) = true)
    (hfill : ℓ.free = Row.fill (bit (s.cgs (g.dtog d)).blksfree) (g.dtogd d) n false) : s.Taken g s' d n := by
  intro i hi
  obtain ⟨hdtog, hdtogd⟩ := @Geometry.group_add g d i (by omega)
  unfold Fs.isFree
  rw [hdtog, hdtogd, h.cg.free, hfill]
  exact ⟨hset i hi, Row.fill_inside (by omega) (by omega)⟩

theorem numfrags_pos {size : Nat} (hsize : g.fsize ∣ size) (hpos : 0 < size) : 0 < g.numfrags size :=
  Nat.div_pos (le_of_dvd hpos hsize) g.fsize_pos

theorem numfrags_le {size : Nat} (hle : size ≤ g.bsize) : g.numfrags size ≤ g.frag := by
  rw [← g.numfrags_bsize]
  exact Nat.div_le_div_right hle

theorem numfrags_lt {size size' : Nat} (h : g.fsize ∣ size) (h' : g.fsize ∣ size') (hlt : size < size') : g.numfrags size < g.numfrags size' := by
  apply Nat.lt_of_mul_lt_mul_right (a := g.fsize)
  rw [Geometry.numfrags_mul h, Geometry.numfrags_mul h']
  exact hlt

/-- A call keeps the summaries exact, and what it allocates was free. -/
theorem call_right {a : Call} {ans : Option Nat} (he : s.Exact g) (hw : s.WellFormed g) (hp : a.Promised g s)
    (hs : s.call g a = some (s', ans)) : (s'.Exact g ∧ s'.WellFormed g) ∧
      ∀ blk, ans = some blk → s.Taken g s' (a.range g blk).1 (a.range g blk).2 := by
  cases a with
  | alloccg c bpref size realsize =>
    obtain ⟨hc, hsize, hpos, hle, hreal, -⟩ := hp
    obtain ⟨⟨s₁, blk⟩, hcall, heq⟩ := map_eq_some_iff.mp hs
    obtain ⟨rfl, rfl⟩ := Prod.mk.inj heq
    rcases (shows_ledger he hw hc).alloccg (ledger_exact hw hc) hc hsize (numfrags_pos hsize hpos) (numfrags_le hle) hreal hcall
      with ⟨rfl, rfl⟩ | ⟨bno, ℓ', rfl, hend, hset, hshows, hexact, hfree⟩
    · exact ⟨⟨he, hw⟩, fun blk hblk => absurd hblk (by simp)⟩
    refine ⟨exact_of_shows he hw hshows hexact, fun blk hblk => ?_⟩
    by_cases hzero : g.cgbase c + bno = 0
    · rw [if_pos hzero] at hblk
      exact absurd hblk (by simp)
    rw [if_neg hzero] at hblk
    obtain rfl := some.inj hblk
    show s.Taken g s₁ (g.cgbase c + bno) (Shows.granted g size realsize)
    by_cases hnone : Shows.granted g size realsize = 0
    · rw [hnone]
      exact fun i hi => absurd hi (by omega)
    have hbno : bno < g.fpg := by omega
    have hdtog := @Geometry.dtog_cgbase g c bno hbno
    have hdtogd := @Geometry.dtogd_cgbase g c bno hbno
    apply taken_of_fill (ℓ := ℓ')
    · rw [hdtog]
      exact hshows
    · rw [hdtogd]
      exact hend
    · rw [hdtog, hdtogd]
      exact hset
    · rw [hdtog, hdtogd]
      exact hfree
  | fragextend bprev osize nsize =>
    obtain ⟨hc, hosize, hnsize, hpos, hlt, hle, hin, hown⟩ := hp
    have hinside := Geometry.inside_of_promised hosize hpos hin
    have hend := hinside.end_le
    cases hcall : fragextend g s (g.dtog bprev) bprev osize nsize with | mk s₁ blk₁ =>
    rw [Fs.call, hcall] at hs
    obtain ⟨rfl, rfl⟩ := Prod.mk.inj (some.inj hs)
    have hledger : ∀ i < g.numfrags osize, (s.ledger g (g.dtog bprev)).free (g.dtogd bprev + i) = false := by
      intro i hi
      obtain ⟨hdtog, hdtogd⟩ := @Geometry.group_add g bprev i (by omega)
      have hfree := hown i hi
      rwa [Fs.isFree, hdtog, hdtogd] at hfree
    rcases (shows_ledger he hw hc).fragextend (ledger_exact hw hc) hc (numfrags_pos hosize hpos) (numfrags_lt hosize hnsize hlt)
      (numfrags_le hle) hledger hcall with ⟨rfl, rfl⟩ | ⟨rfl, hset, hblock, ℓ', hshows, hexact, hfree⟩
    · exact ⟨⟨he, hw⟩, fun blk hblk => absurd hblk (by simp)⟩
    refine ⟨exact_of_shows he hw hshows hexact, fun blk hblk => ?_⟩
    by_cases hzero : blk₁ = 0
    · rw [if_pos hzero] at hblk
      exact absurd hblk (by simp)
    rw [if_neg hzero] at hblk
    obtain rfl := some.inj hblk
    show s.Taken g s₁ (blk₁ + g.numfrags osize) (g.numfrags nsize - g.numfrags osize)
    have hfrags := numfrags_lt hosize hnsize hlt
    have hends : g.dtogd blk₁ + g.numfrags nsize ≤ g.fpg := by
      have hinside' : g.Inside (g.dtogd blk₁) (g.numfrags nsize) :=
        ⟨g.dtogd_lt _, by omega, by rw [Geometry.dtogd_mod]; exact hblock⟩
      exact hinside'.end_le
    obtain ⟨hdtog, hdtogd⟩ := @Geometry.group_add g blk₁ (g.numfrags osize) (by omega)
    apply taken_of_fill (ℓ := ℓ')
    · rw [hdtog]
      exact hshows
    · omega
    · intro i hi
      rw [hdtog, hdtogd, add_assoc]
      exact hset _ (by omega) (by omega)
    · rw [hdtog, hdtogd]
      exact hfree
  | blkalloc bno size =>
    obtain ⟨hc, hsize, hpos, hle⟩ := hp
    have hinside := Geometry.inside_of_promised hsize hpos hle
    obtain ⟨s₁, hcall, heq⟩ := map_eq_some_iff.mp hs
    obtain ⟨rfl, rfl⟩ := Prod.mk.inj heq
    obtain ⟨ℓ', hshows, hexact, hfree, hset⟩ := (shows_ledger he hw hc).blkallocUmp (ledger_exact hw hc) hc rfl hinside hcall
    refine ⟨exact_of_shows he hw hshows hexact, fun blk hblk => ?_⟩
    obtain rfl := some.inj hblk
    exact taken_of_fill hshows hinside.end_le hset hfree
  | blkfree bno size snapshot =>
    obtain ⟨hc, hsize, hpos, hle⟩ := hp
    have hinside := Geometry.inside_of_promised hsize hpos hle
    obtain ⟨s₁, hcall, heq⟩ := map_eq_some_iff.mp hs
    obtain ⟨rfl, rfl⟩ := Prod.mk.inj heq
    refine ⟨?_, fun blk hblk => absurd hblk (by simp)⟩
    rcases (shows_ledger he hw hc).blkfreeCommon (ledger_exact hw hc) hc rfl hinside hcall with
      ⟨rfl, -⟩ | ⟨ℓ', hshows, hexact, -⟩
    · exact ⟨he, hw⟩
    · exact exact_of_shows he hw hshows hexact

/-- In every state reached the summaries agree with the maps, and what a call then allocates was
free and is allocated. -/
theorem summaries_exact (g : Geometry) {s : Fs} (h : (ffs g).Reach (fun s a => a.Promised g s) s) : s.Exact g ∧
    ∀ a s' blk, a.Promised g s → s.call g a = some (s', some blk) → ∀ i < (a.range g blk).2,
      s.isFree g ((a.range g blk).1 + i) = true ∧ s'.isFree g ((a.range g blk).1 + i) = false := by
  have hinv : s.Exact g ∧ s.WellFormed g := by
    refine System.Reach.invariant (fun _ hinit => hinit) (fun s a s' hinv ha hstep => ?_) h
    obtain ⟨⟨s₁, ans⟩, hcall, rfl⟩ := map_eq_some_iff.mp hstep
    exact (call_right hinv.1 hinv.2 ha hcall).1
  refine ⟨hinv.1, fun a s' blk ha hcall => ?_⟩
  exact (call_right hinv.1 hinv.2 ha hcall).2 blk rfl

/-- One group of four blocks of four fragments, in the other byte order. -/
def small : Geometry where
  fragshift := 2
  fsize := 1024
  fsize_pos := by decide
  fpg := 16
  fpg_pos := by decide
  fpg_lt := by decide
  frag_dvd := by decide
  ncg := 1
  ncg_lt := by decide
  contigsumsize := 2
  needswap := true

/-- All but the first block are free. -/
def fresh : Fs where
  cgs := fun _ =>
    { cgx := 0, nbfree := bswap32 3, nffree := 0, rotor := 0, frotor := 0, frsum := fun _ => 0, nclusterblks := bswap32 4,
      blksfree := fun i => if i = 0 then 0xf0 else if i = 1 then 0xff else 0,
      clustersfree := fun i => if i = 0 then 0x0e else 0, clustersum := fun i => if i = 2 then bswap32 1 else 0 }
  cs := fun _ => ⟨3, 0⟩
  cstotal := ⟨3, 0⟩
  maxcluster := fun _ => 2

theorem fresh_ends (i : Nat) (hi : 16 ≤ i) : bit (fresh.cgs 0).blksfree i = false := by
  have hbyte : (fresh.cgs 0).blksfree (i / 8) = 0 := by
    show (if i / 8 = 0 then (0xf0 : Byte) else if i / 8 = 1 then 0xff else 0) = 0
    rw [if_neg (by omega), if_neg (by omega)]
  rw [bit, hbyte]
  exact BitVec.getLsbD_zero

theorem fresh_exact : fresh.Exact small ∧ fresh.WellFormed small := by
  have hzero : ∀ c < small.ncg, c = 0 := fun c hc => lt_one_iff.mp hc
  refine ⟨⟨fun c hc => ?_, fun c hc => ?_, fun c hc k hk hkf => ?_, fun c hc => ?_, ⟨by decide, by decide⟩, fun _ c hc h => ?_⟩,
    fun c hc => ?_, fun c hc i hi => ?_⟩
  · obtain rfl := hzero c hc
    decide
  · obtain rfl := hzero c hc
    decide
  · have hall : ∀ k < small.frag, 0 < k → (ufsRw32 ((fresh.cgs 0).frsum k) small.needswap).toNat =
        Row.tally (fun f => Row.runs small.frag f k) small.frag small.nblk (bit (fresh.cgs 0).blksfree) := by decide
    exact hall k hkf hk
  · obtain rfl := hzero c hc
    decide
  · obtain rfl := hzero c hc
    by_cases hh : h < 8
    · revert h
      decide
    have hcl : (fresh.cgs 0).clustersfree (h / 8) = 0 := if_neg (by omega)
    have hnot : ¬Row.Full small.frag (Row.row small.frag (bit (fresh.cgs 0).blksfree) h) := by
      intro hfull
      have hset := hfull 0 (by decide)
      rw [Row.row, fresh_ends _ (by show 16 ≤ h * 4 + 0; omega)] at hset
      exact absurd hset (by decide)
    rw [bit, hcl, decide_eq_false hnot]
    exact BitVec.getLsbD_zero
  · obtain rfl := hzero c hc
    decide
  · exact fresh_ends i hi

/-- A fragment is allocated and grows to three; one of the three free blocks is then split. -/
theorem summaries_exact_split : ∃ s, (ffs small).Reach (fun s a => a.Promised small s) s ∧ s.cs 0 = ⟨2, 1⟩ ∧ s.Exact small := by
  have hrun : (System.run (System.guarded (fun s a => a.Promised small s) fun s a => (s.call small a).map Prod.fst) fresh
      [.alloccg 0 0 1024 0, .fragextend 4 1024 3072]).map (fun s => s.cs 0) = some ⟨2, 1⟩ := by decide
  obtain ⟨s, hs, hcs⟩ := map_eq_some_iff.mp hrun
  have hreach : (ffs small).Reach (fun s a => a.Promised small s) s := System.reach_run _ _ _ fresh _ fresh_exact hs
  exact ⟨s, hreach, hcs, (summaries_exact small hreach).1⟩

end NetBSD.Ufs.Ffs
