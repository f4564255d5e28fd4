import NetBSD.Ufs.Ffs.Cg

/-! What the summaries of a group are about.

A `Ledger` is a group without bytes and words: which fragments are free, which blocks the
cluster map shows and the counters. It is `Exact` when the counters count: free blocks, free
fragments of other blocks and runs of free fragments, row by row. A change inside one block
keeps it exact when the counters change by what that one row says. -/
namespace NetBSD.Ufs.Ffs
open Function
open Lib

/-- Free blocks in a row of `b` fragments: one or none. -/
def bfree (b : Nat) (f : Nat → Bool) : Nat := if Row.Full b f then 1 else 0

/-- Free fragments of a block that is not free as a whole. -/
def ffree (b : Nat) (f : Nat → Bool) : Nat := if Row.Full b f then 0 else Row.count b f

section Rows
variable {b j p : Nat} {f : Nat → Bool}

theorem bfree_congr (f f' : Nat → Bool) (h : ∀ p < b, f p = f' p) : bfree b f = bfree b f' :=
  if_congr (Row.full_congr h) rfl rfl

theorem ffree_congr (f f' : Nat → Bool) (h : ∀ p < b, f p = f' p) : ffree b f = ffree b f' :=
  if_congr (Row.full_congr h) rfl (Row.count_congr h)

theorem bfree_le (f : Nat → Bool) : bfree b f ≤ 1 := by
  unfold bfree
  split <;> omega

theorem ffree_le (f : Nat → Bool) : ffree b f ≤ b := by
  unfold ffree
  have := @Row.count_le b f
  split <;> omega

variable (hj : 0 < j) (hp : p + j ≤ b)
include hj hp

theorem not_full_fill : ¬Row.Full b (Row.fill f p j false) := by
  intro hfull
  have hset := hfull p (by omega)
  rw [Row.fill_inside (by omega) (by omega)] at hset
  exact absurd hset (by decide)

theorem not_full_of_clear (hclear : ∀ q, p ≤ q → q < p + j → f q = false) : ¬Row.Full b f := by
  intro hfull
  have hset := hfull p (by omega)
  rw [hclear p (by omega) (by omega)] at hset
  exact absurd hset (by decide)

theorem ffree_take (hset : ∀ q, p ≤ q → q < p + j → f q = true) :
    ffree b (Row.fill f p j false) + j = if Row.Full b f then b else ffree b f := by
  have hcount := Row.count_fill_false hp hset
  unfold ffree
  rw [if_neg (not_full_fill hj hp), hcount]
  by_cases hfull : Row.Full b f
  · rw [if_pos hfull, Row.count_full hfull]
  · rw [if_neg hfull, if_neg hfull]

theorem ffree_give (hclear : ∀ q, p ≤ q → q < p + j → f q = false) :
    (if Row.Full b (Row.fill f p j true) then b else ffree b (Row.fill f p j true)) = ffree b f + j := by
  have hcount := Row.count_fill_true hp hclear
  unfold ffree
  rw [if_neg (not_full_of_clear hj hp hclear), ← hcount]
  by_cases hfull : Row.Full b (Row.fill f p j true)
  · rw [if_pos hfull, Row.count_full hfull]
  · rw [if_neg hfull, if_neg hfull]

end Rows

structure Ledger where
  free : Nat → Bool
  cluster : Nat → Bool
  nbfree : Int
  nffree : Int
  frsum : Nat → Int

variable (g : Geometry)

def Geometry.nblk : Nat := g.fpg / g.frag

theorem Geometry.nblk_mul : g.nblk * g.frag = g.fpg := Nat.div_mul_cancel g.frag_dvd

structure Ledger.Exact (ℓ : Ledger) : Prop where
  nbfree : ℓ.nbfree = Row.tally (bfree g.frag) g.frag g.nblk ℓ.free
  nffree : ℓ.nffree = Row.tally (ffree g.frag) g.frag g.nblk ℓ.free
  frsum : ∀ k, 0 < k → k < g.frag → ℓ.frsum k = Row.tally (fun f => Row.runs g.frag f k) g.frag g.nblk ℓ.free
  cluster : ∀ h, ℓ.cluster h = decide (Row.Full g.frag (Row.row g.frag ℓ.free h))
  -- The map ends where the group ends.
  ends : ∀ i, g.fpg ≤ i → ℓ.free i = false

namespace Ledger.Exact
variable {g : Geometry} {ℓ ℓ' : Ledger} {h j p : Nat} {v : Bool}

section
variable (he : ℓ.Exact g)
include he

theorem block_lt {i : Nat} (hi : ℓ.free i = true) : i / g.frag < g.nblk := by
  have hlt : i < g.fpg := by
    by_contra hge
    rw [he.ends i (by omega)] at hi
    exact absurd hi (by decide)
  rw [← g.nblk_mul] at hlt
  exact Nat.div_lt_of_lt_mul (by rwa [mul_comm])

/-- Fragments of block `h` change hands, and the counters with them. -/
theorem moved (hh : h < g.nblk) (hp : p + j ≤ g.frag) (hfree : ℓ'.free = Row.fill ℓ.free (h * g.frag + p) j v)
    (hnb : ℓ'.nbfree + bfree g.frag (Row.row g.frag ℓ.free h) = ℓ.nbfree + bfree g.frag (Row.fill (Row.row g.frag ℓ.free h) p j v))
    (hnf : ℓ'.nffree + ffree g.frag (Row.row g.frag ℓ.free h) = ℓ.nffree + ffree g.frag (Row.fill (Row.row g.frag ℓ.free h) p j v))
    (hfr : ∀ k, 0 < k → k < g.frag → ℓ'.frsum k + Row.runs g.frag (Row.row g.frag ℓ.free h) k =
      ℓ.frsum k + Row.runs g.frag (Row.fill (Row.row g.frag ℓ.free h) p j v) k)
    (hcl : ℓ'.cluster = update ℓ.cluster h (decide (Row.Full g.frag (Row.fill (Row.row g.frag ℓ.free h) p j v)))) :
    ℓ'.Exact g := by
  refine ⟨?_, ?_, fun k hk hkf => ?_, fun h' => ?_, fun i hi => ?_⟩
  · have htally := @Row.tally_fill ℓ.free j g.frag h p g.nblk v hp _ bfree_congr hh
    rw [he.nbfree] at hnb
    rw [hfree]
    omega
  · have htally := @Row.tally_fill ℓ.free j g.frag h p g.nblk v hp _ ffree_congr hh
    rw [he.nffree] at hnf
    rw [hfree]
    omega
  · have htally := @Row.tally_fill ℓ.free j g.frag h p g.nblk v hp (fun f => Row.runs g.frag f k)
      (fun _ _ hcells => Row.runs_congr hcells) hh
    have hfr' := hfr k hk hkf
    rw [he.frsum k hk hkf] at hfr'
    rw [hfree]
    omega
  · rw [hcl, hfree]
    by_cases hh' : h' = h
    · subst hh'
      rw [Function.update_self, Row.row_fill]
    · rw [Function.update_of_ne hh', he.cluster h']
      exact decide_eq_decide.mpr (Row.full_congr fun q hq => (Row.row_fill_other hp hh' q hq).symm)
  · have hlt : (h + 1) * g.frag ≤ g.nblk * g.frag := Nat.mul_le_mul_right _ hh
    rw [Nat.succ_mul, g.nblk_mul] at hlt
    rw [hfree, Row.fill_outside (by omega)]
    exact he.ends i hi

theorem cluster_same (hold : ¬Row.Full g.frag (Row.row g.frag ℓ.free h)) (hnew : ¬Row.Full g.frag (Row.fill (Row.row g.frag ℓ.free h) p j v)) :
    ℓ.cluster = update ℓ.cluster h (decide (Row.Full g.frag (Row.fill (Row.row g.frag ℓ.free h) p j v))) := by
  rw [decide_eq_false hnew, eq_comm, Function.update_eq_self_iff, he.cluster h, decide_eq_false hold]

theorem wholeBlock (hh : h < g.nblk) (hrow : ∀ p < g.frag, ℓ.free (h * g.frag + p) = !v) : Ledger.Exact g {ℓ with
      free := Row.fill ℓ.free (h * g.frag) g.frag v
      cluster := update ℓ.cluster h v
      nbfree := ℓ.nbfree + if v then 1 else -1} := by
  have hfrag : 0 < g.frag := Nat.two_pow_pos _
  have hnew : ∀ p < g.frag, Row.fill (Row.row g.frag ℓ.free h) 0 g.frag v p = v := fun p hp =>
    Row.fill_inside (Nat.zero_le p) (by omega)
  -- Of the two rows one is full and the other empty, whichever way it goes.
  have hends : ∀ f : Nat → Bool, ∀ w, (∀ p < g.frag, f p = w) →
      bfree g.frag f = (if w then 1 else 0) ∧ ffree g.frag f = 0 ∧ ∀ k, 0 < k → k < g.frag → Row.runs g.frag f k = 0 := by
    intro f w hf
    cases w with
    | true => exact ⟨if_pos hf, if_pos hf, fun k _ hkf => Row.runs_full hf hkf⟩
    | false =>
      have hnot : ¬Row.Full g.frag f := not_full_of_clear hfrag (p := 0) (by omega) fun q _ hq => hf q (by omega)
      exact ⟨if_neg hnot, by rw [ffree, if_neg hnot, Row.count_empty hf], fun k hk _ => Row.runs_empty hf hk⟩
  obtain ⟨hbold, hfold, hrold⟩ := hends (Row.row g.frag ℓ.free h) (!v) hrow
  obtain ⟨hbnew, hfnew, hrnew⟩ := hends _ v hnew
  refine he.moved (p := 0) (j := g.frag) (v := v) hh (by omega) rfl ?_ ?_ (fun k hk hkf => ?_) ?_
  · rw [hbold, hbnew]
    cases v <;> simp
  · rw [hfold, hfnew]
  · rw [hrold k hk hkf, hrnew k hk hkf]
  have hdec : decide (Row.Full g.frag (Row.fill (Row.row g.frag ℓ.free h) 0 g.frag v)) = v := by
    cases v with
    | true => exact decide_eq_true hnew
    | false => exact decide_eq_false (not_full_of_clear hfrag (p := 0) (by omega) fun q _ hq => hnew q (by omega))
  rw [hdec]

/-- Fragments are given back, with the runs of the block counted anew. -/
theorem giveFrags (hh : h < g.nblk) (hj : 0 < j) (hp : p + j ≤ g.frag)
    (hclear : ∀ q, p ≤ q → q < p + j → ℓ.free (h * g.frag + q) = false) (hfree : ℓ'.free = Row.fill ℓ.free (h * g.frag + p) j true)
    (hfr : ∀ k, ℓ'.frsum k = ℓ.frsum k + -1 * Row.runs g.frag (Row.row g.frag ℓ.free h) k +
      1 * Row.runs g.frag (Row.row g.frag ℓ'.free h) k)
    (hcases : if Row.Full g.frag (Row.row g.frag ℓ'.free h) then
        ℓ'.nbfree = ℓ.nbfree + 1 ∧ ℓ'.nffree = ℓ.nffree + j + -g.frag ∧ ℓ'.cluster = update ℓ.cluster h true
      else ℓ'.nbfree = ℓ.nbfree ∧ ℓ'.nffree = ℓ.nffree + j ∧ ℓ'.cluster = ℓ.cluster) : ℓ'.Exact g := by
  have hrow : Row.row g.frag ℓ'.free h = Row.fill (Row.row g.frag ℓ.free h) p j true := by rw [hfree, Row.row_fill]
  have hold : ¬Row.Full g.frag (Row.row g.frag ℓ.free h) := not_full_of_clear hj hp hclear
  have hgive := ffree_give hj hp (f := Row.row g.frag ℓ.free h) hclear
  rw [hrow] at hfr hcases
  have hbold : bfree g.frag (Row.row g.frag ℓ.free h) = 0 := if_neg hold
  by_cases hfull : Row.Full g.frag (Row.fill (Row.row g.frag ℓ.free h) p j true)
  · rw [if_pos hfull] at hcases hgive
    obtain ⟨hnb, hnf, hcl⟩ := hcases
    have hbnew : bfree g.frag (Row.fill (Row.row g.frag ℓ.free h) p j true) = 1 := if_pos hfull
    have hfnew : ffree g.frag (Row.fill (Row.row g.frag ℓ.free h) p j true) = 0 := if_pos hfull
    refine he.moved hh hp hfree (by omega) (by omega) (fun k _ _ => ?_) (by rw [hcl, decide_eq_true hfull])
    have := hfr k
    omega
  · rw [if_neg hfull] at hcases hgive
    obtain ⟨hnb, hnf, hcl⟩ := hcases
    have hbnew : bfree g.frag (Row.fill (Row.row g.frag ℓ.free h) p j true) = 0 := if_neg hfull
    refine he.moved hh hp hfree (by omega) (by omega) (fun k _ _ => ?_) (by rw [hcl]; exact he.cluster_same hold hfull)
    have := hfr k
    omega

/-- Fragments are taken, with the runs of the block counted anew. -/
theorem takeFrags (hh : h < g.nblk) (hj : 0 < j) (hp : p + j ≤ g.frag)
    (hset : ∀ q, p ≤ q → q < p + j → ℓ.free (h * g.frag + q) = true) (hfree : ℓ'.free = Row.fill ℓ.free (h * g.frag + p) j false)
    (hfr : ∀ k, ℓ'.frsum k = ℓ.frsum k + -1 * Row.runs g.frag (Row.row g.frag ℓ.free h) k +
      1 * Row.runs g.frag (Row.row g.frag ℓ'.free h) k)
    (hcases : if Row.Full g.frag (Row.row g.frag ℓ.free h) then
        ℓ'.nbfree = ℓ.nbfree + -1 ∧ ℓ'.nffree = ℓ.nffree + g.frag + -j ∧ ℓ'.cluster = update ℓ.cluster h false
      else ℓ'.nbfree = ℓ.nbfree ∧ ℓ'.nffree = ℓ.nffree + -j ∧ ℓ'.cluster = ℓ.cluster) : ℓ'.Exact g := by
  have hrow : Row.row g.frag ℓ'.free h = Row.fill (Row.row g.frag ℓ.free h) p j false := by rw [hfree, Row.row_fill]
  have hnew : ¬Row.Full g.frag (Row.fill (Row.row g.frag ℓ.free h) p j false) := not_full_fill hj hp
  have htake := ffree_take hj hp (f := Row.row g.frag ℓ.free h) hset
  rw [hrow] at hfr
  have hbnew : bfree g.frag (Row.fill (Row.row g.frag ℓ.free h) p j false) = 0 := if_neg hnew
  by_cases hfull : Row.Full g.frag (Row.row g.frag ℓ.free h)
  · rw [if_pos hfull] at hcases htake
    obtain ⟨hnb, hnf, hcl⟩ := hcases
    have hbold : bfree g.frag (Row.row g.frag ℓ.free h) = 1 := if_pos hfull
    have hfold : ffree g.frag (Row.row g.frag ℓ.free h) = 0 := if_pos hfull
    refine he.moved hh hp hfree (by omega) (by omega) (fun k _ _ => ?_) (by rw [hcl, decide_eq_false hnew])
    have := hfr k
    omega
  · rw [if_neg hfull] at hcases htake
    obtain ⟨hnb, hnf, hcl⟩ := hcases
    have hbold : bfree g.frag (Row.row g.frag ℓ.free h) = 0 := if_neg hfull
    refine he.moved hh hp hfree (by omega) (by omega) (fun k _ _ => ?_) (by rw [hcl]; exact he.cluster_same hfull hnew)
    have := hfr k
    omega

end

theorem takeRun {m : Nat} (he : ℓ.Exact g) (hh : h < g.nblk) (hj : 0 < j) (hjm : j ≤ m) (hm : m < g.frag)
    (hrun : Row.IsRun g.frag (Row.row g.frag ℓ.free h) p m) (hfree : ℓ'.free = Row.fill ℓ.free (h * g.frag + p) j false)
    (hfr : ∀ k, 0 < k → k < g.frag → ℓ'.frsum k = ℓ.frsum k + (if k = m then -1 else 0) + if k = m - j then 1 else 0)
    (hnb : ℓ'.nbfree = ℓ.nbfree) (hnf : ℓ'.nffree = ℓ.nffree + -j) (hcl : ℓ'.cluster = ℓ.cluster) : ℓ'.Exact g := by
  have hle := hrun.le
  have hp : p + j ≤ g.frag := by omega
  have hold : ¬Row.Full g.frag (Row.row g.frag ℓ.free h) := by
    intro hfull
    by_cases hend : p + m < g.frag
    · have hclear := hrun.behind hend
      rw [hfull _ hend] at hclear
      exact absurd hclear (by decide)
    · have hclear := hrun.before (by omega)
      rw [hfull _ (by omega)] at hclear
      exact absurd hclear (by decide)
  have hnew : ¬Row.Full g.frag (Row.fill (Row.row g.frag ℓ.free h) p j false) := not_full_fill hj hp
  have htake := ffree_take hj hp (f := Row.row g.frag ℓ.free h) fun q hq hqj => hrun.set hq (by omega)
  rw [if_neg hold] at htake
  have hbold : bfree g.frag (Row.row g.frag ℓ.free h) = 0 := if_neg hold
  have hbnew : bfree g.frag (Row.fill (Row.row g.frag ℓ.free h) p j false) = 0 := if_neg hnew
  refine he.moved hh hp hfree (by omega) (by omega) (fun k hk hkf => ?_) (by rw [hcl]; exact he.cluster_same hold hnew)
  have hruns := Row.runs_clear hrun hj hjm hk
  have hsum := hfr k hk hkf
  by_cases hkm : k = m
  · by_cases hkj : k = m - j
    · omega
    · rw [if_pos hkm, if_neg hkj] at hruns hsum
      omega
  by_cases hkj : k = m - j
  · rw [if_neg hkm, if_pos hkj] at hruns hsum
    omega
  · rw [if_neg hkm, if_neg hkj] at hruns hsum
    omega

/-- All but the first `j` fragments of an allocated block are given back. -/
theorem giveTail (he : ℓ.Exact g) (hh : h < g.nblk) (hj : 0 < j) (hjf : j < g.frag) (hclear : ∀ q < g.frag, ℓ.free (h * g.frag + q) = false)
    (hfree : ℓ'.free = Row.fill ℓ.free (h * g.frag + j) (g.frag - j) true)
    (hfr : ∀ k, 0 < k → k < g.frag → ℓ'.frsum k = ℓ.frsum k + if k = g.frag - j then 1 else 0)
    (hnb : ℓ'.nbfree = ℓ.nbfree) (hnf : ℓ'.nffree = ℓ.nffree + (g.frag - j : Nat)) (hcl : ℓ'.cluster = ℓ.cluster) :
    ℓ'.Exact g := by
  have hp : j + (g.frag - j) ≤ g.frag := by omega
  have hold : ¬Row.Full g.frag (Row.row g.frag ℓ.free h) :=
    not_full_of_clear hj (p := 0) (by omega) fun q _ hq => hclear q (by omega)
  -- What is left is a full row without its first fragments.
  have hcells : ∀ q < g.frag, Row.fill (Row.row g.frag ℓ.free h) j (g.frag - j) true q = Row.fill (fun _ => true) 0 j false q := by
    intro q hq
    by_cases hqj : q < j
    · rw [Row.fill_outside (by omega), Row.fill_inside (by omega) (by omega)]
      exact hclear q hq
    · rw [Row.fill_inside (by omega) (by omega), Row.fill_outside (by omega)]
  have hnew : ¬Row.Full g.frag (Row.fill (Row.row g.frag ℓ.free h) j (g.frag - j) true) := by
    rw [Row.full_congr hcells]
    exact not_full_fill hj (by omega)
  have hgive := ffree_give (by omega) hp (f := Row.row g.frag ℓ.free h) fun q _ hq => hclear q (by omega)
  rw [if_neg hnew] at hgive
  have hbold : bfree g.frag (Row.row g.frag ℓ.free h) = 0 := if_neg hold
  have hbnew : bfree g.frag (Row.fill (Row.row g.frag ℓ.free h) j (g.frag - j) true) = 0 := if_neg hnew
  have hfull : Row.IsRun g.frag (fun _ => true) 0 g.frag := ⟨by omega, fun _ _ => rfl, .inl rfl, .inl (by omega)⟩
  refine he.moved hh hp hfree (by omega) (by omega) (fun k hk hkf => ?_) (by rw [hcl]; exact he.cluster_same hold hnew)
  have hruns := Row.runs_clear hfull hj (by omega) hk
  rw [← Row.runs_congr hcells, Row.runs_full (fun _ _ => rfl) hkf, if_neg (by omega)] at hruns
  have hempty : Row.runs g.frag (Row.row g.frag ℓ.free h) k = 0 := Row.runs_empty hclear hk
  have hsum := hfr k hk hkf
  by_cases hkj : k = g.frag - j
  · rw [if_pos hkj] at hruns hsum
    omega
  · rw [if_neg hkj] at hruns hsum
    omega

end Ledger.Exact

end NetBSD.Ufs.Ffs
