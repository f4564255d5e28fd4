import NetBSD.Fs.Msdosfs.Alloc
import NetBSD.Lib.Linked

/-! Chains are made and given back.

What `chainalloc`, `clusterfree`, `freeclusterchain` and `fillinusemap` do to the volume.
`Exact` is the point of the map: a cluster is free in it when its entry is 0. -/
namespace NetBSD.Fs.Msdosfs
open List Option Function
open Lib

namespace Geometry
variable (g : Geometry)

theorem le_of_eof {c : Nat} (h : g.Eof c) : CLUST_EOFS &&& g.fatmask ≤ c := by
  rw [← h]
  exact Nat.and_le_left

theorem rsrvd_le_eofs : CLUST_RSRVD &&& g.fatmask ≤ CLUST_EOFS &&& g.fatmask := by
  unfold fatmask
  cases g.fatType <;> decide

theorem eofs_pos : 0 < CLUST_EOFS &&& g.fatmask := by
  unfold fatmask
  cases g.fatType <;> decide

theorem eof_eofe : g.Eof (CLUST_EOFE &&& g.fatmask) := by
  unfold Eof fatmask
  cases g.fatType <;> decide

theorem and_fatmask {c : Nat} (h : c ≤ g.maxcluster) : c &&& g.fatmask = c := by
  obtain ⟨k, hk⟩ : ∃ k, g.fatmask = 2 ^ k - 1 := by
    unfold fatmask
    cases g.fatType with
    | fat12 => exact ⟨12, rfl⟩
    | fat16 => exact ⟨16, rfl⟩
    | fat32 => exact ⟨28, rfl⟩
  have hmax : g.maxcluster ≤ g.fatmask := by
    rw [← g.masked]
    exact Nat.and_le_right
  rw [hk, Nat.and_two_pow_sub_one_eq_mod, Nat.mod_eq_of_lt]
  have := Nat.one_le_two_pow (n := k)
  omega

/-- The map has no bit for the number behind the last cluster. -/
def Strays : Prop := (g.maxcluster + 1) % N_INUSEBITS = 0

/-- No cluster of the volume has the number of an end mark. -/
def Marked : Prop := g.maxcluster < CLUST_EOFS &&& g.fatmask

theorem Marked.not_cluster {g : Geometry} (h : g.Marked) {c : Nat} (hc : g.Eof c) : ¬g.Cluster c := by
  intro hcl
  have hle := g.le_of_eof hc
  have hmax := hcl.2
  rw [Marked] at h
  omega

/-- Nor one from the reserved range. -/
def Unreserved : Prop := g.maxcluster < CLUST_RSRVD &&& g.fatmask

instance : Decidable g.Strays := inferInstanceAs (Decidable (_ = _))

instance : Decidable g.Marked := inferInstanceAs (Decidable (_ < _))

instance : Decidable g.Unreserved := inferInstanceAs (Decidable (_ < _))

theorem Unreserved.marked {g : Geometry} (h : g.Unreserved) : g.Marked := lt_of_lt_of_le h g.rsrvd_le_eofs

end Geometry

/-- The free set is what the table says. -/
def Volume.Exact (g : Geometry) (v : Volume) : Prop := ∀ cn, g.Cluster cn → (cn ∈ v.free ↔ v.fat cn = 0)

/-- A chain over `count` clusters from `start` on. -/
def Geometry.chained (g : Geometry) (fat : Nat → Nat) (start count fillwith : Nat) : Nat → Nat := fun c =>
  if start ≤ c ∧ c < start + count then (if c + 1 < start + count then c + 1 else fillwith) &&& g.fatmask else fat c

/-- The volume with the run allocated. -/
def Volume.alloc (g : Geometry) (v : Volume) (start count : Nat) : Volume :=
  ⟨v.free \ Finset.Ico start (start + count), g.chained v.fat start count CLUST_EOFE⟩

/-- The volume with the clusters of a chain given back. -/
def Volume.release (v : Volume) (l : List Nat) : Volume := ⟨v.free ∪ l.toFinset, fun c => if c ∈ l then 0 else v.fat c⟩

namespace Mount
variable {g : Geometry} {m : Mount g} {v : Volume}

/-! ### Allocating -/

theorem Shows.usemapAllocs (h : m.Shows v) (n cl : Nat) (hrun : ∀ i < n, cl + i ∈ v.free) :
    ∃ m', m.usemapAllocs n cl = some m' ∧ m'.Shows {v with free := v.free \ Finset.Ico cl (cl + n)} := by
  induction n generalizing m v cl with
  | zero => exact ⟨m, rfl, by simpa using h⟩
  | succ n ih =>
    obtain ⟨m₁, hm₁, h₁⟩ := h.usemapAlloc (by simpa using hrun 0 (by omega))
    have hrest (i : Nat) (hi : i < n) : cl + 1 + i ∈ v.free.erase cl := by
      refine Finset.mem_erase.mpr ⟨by omega, ?_⟩
      rw [show cl + 1 + i = cl + (i + 1) from by omega]
      exact hrun (i + 1) (by omega)
    obtain ⟨m₂, hm₂, h₂⟩ := ih h₁ (cl + 1) hrest
    have hset : v.free.erase cl \ Finset.Ico (cl + 1) (cl + 1 + n) = v.free \ Finset.Ico cl (cl + (n + 1)) := by
      ext c
      simp only [Finset.mem_sdiff, Finset.mem_erase, Finset.mem_Ico]
      constructor
      · rintro ⟨⟨hne, hc⟩, hout⟩
        exact ⟨hc, by omega⟩
      · rintro ⟨hc, hout⟩
        exact ⟨⟨by omega, hc⟩, by omega⟩
    rw [Mount.usemapAllocs, hm₁, bind_some, hm₂]
    exact ⟨m₂, rfl, hset ▸ h₂⟩

theorem chained_succ (fat : Nat → Nat) (start count fillwith : Nat) :
    g.chained (update fat start ((if 0 < count then start + 1 else fillwith) &&& g.fatmask)) (start + 1) count fillwith =
      g.chained fat start (count + 1) fillwith := by
  funext c
  unfold Geometry.chained
  by_cases hc : c = start
  · subst hc
    have hout : ¬(c + 1 ≤ c ∧ c < c + 1 + count) := by omega
    have hin : c ≤ c ∧ c < c + (count + 1) := by omega
    have hiff : 0 < count ↔ c + 1 < c + (count + 1) := by omega
    rw [if_neg hout, Function.update_self, if_pos hin, if_congr hiff rfl rfl]
  · rw [Function.update_of_ne hc, show start + 1 + count = start + (count + 1) from by omega]
    have hiff : (start + 1 ≤ c ∧ c < start + (count + 1)) ↔ (start ≤ c ∧ c < start + (count + 1)) := by omega
    rw [if_congr hiff rfl rfl]

theorem Shows.fatchainLoop (h : m.Shows v) (fillwith n start : Nat) :
    ∃ m', m.fatchainLoop fillwith n start = some m' ∧ m'.Shows {v with fat := g.chained v.fat start n fillwith} := by
  induction n generalizing m v start with
  | zero =>
    refine ⟨m, rfl, ?_⟩
    have hsame : g.chained v.fat start 0 fillwith = v.fat := by
      funext c
      exact if_neg (by omega)
    rw [hsame]
    exact h
  | succ n ih =>
    have hset := h.setFat start (if 0 < n then start + 1 else fillwith)
    rw [Mount.fatchainLoop, ← chained_succ]
    by_cases hblock : n = 0 ∨ g.fatblock (start + 1) ≠ g.fatblock start
    · obtain ⟨m₁, hm₁, h₁⟩ := hset.updatefats
      simp only [if_pos hblock, hm₁, bind_some]
      exact ih h₁ (start + 1)
    · simp only [if_neg hblock]
      exact ih hset (start + 1)

theorem Shows.chainalloc (h : m.Shows v) {cn got : Nat} (hpos : 0 < got) (hrun : m.Run cn got) :
    ∃ m', m.chainalloc cn got CLUST_EOFE = some (.ok (cn, got), m') ∧ m'.Shows (v.alloc g cn got) := by
  have hin (i : Nat) (hi : i < got) : cn + i ∈ v.free := h.free ▸ hrun i hi
  obtain ⟨m₁, hm₁, h₁⟩ := h.usemapAllocs got cn hin
  obtain ⟨m₂, hm₂, h₂⟩ := h₁.fatchainLoop CLUST_EOFE got cn
  have hfirst := (h.clusters _ (hin 0 hpos)).1
  have hlast := (h.clusters _ (hin (got - 1) (by omega))).2
  have hrange : ¬(cn < CLUST_FIRST ∨ g.maxcluster < cn + got - 1) := by omega
  refine ⟨m₂, ?_, h₂⟩
  simp [Mount.chainalloc, hm₁, bind_eq_bind, bind_some, Mount.fatchain, if_neg hrange, hm₂, map_some]

theorem clusteralloc_none {start count usec : Nat} (h : 32 * g.words ≤ start) : m.clusteralloc start count usec = none := by
  have hpos : start ≠ 0 := by
    have := g.words_eq
    omega
  have hword : m.word (start / N_INUSEBITS) = none := if_neg fun hlt => absurd (g.div_lt_words.mp hlt) (by omega)
  rw [Mount.clusteralloc, if_pos hpos, Mount.chainlength]
  simp [hword, bind_none]

/-- `clusteralloc` for the callers' starts: it leaves the map, or there is nothing free, or a
free run is allocated. -/
theorem Shows.clusteralloc_cases (h : m.Shows v) {start count : Nat} (usec : Nat) (hcount : 0 < count) (hs : start ≤ g.maxcluster + 1) :
    g.Strays ∧ start = g.maxcluster + 1 ∧ m.clusteralloc start count usec = none ∨
    v.free = ∅ ∧ m.clusteralloc start count usec = some (.error .enospc, m) ∨
    ∃ cn got m', 0 < got ∧ got ≤ count ∧ (∀ i < got, cn + i ∈ v.free) ∧
      m.clusteralloc start count usec = some (.ok (cn, got), m') ∧ m'.Shows (v.alloc g cn got) := by
  by_cases hlt : start < 32 * g.words
  · rcases h.clusteralloc usec hcount hlt with hnone | ⟨cn, got, hpos, hle, hrun, heq⟩
    · exact .inr (.inl hnone)
    · obtain ⟨m', hm', h'⟩ := h.chainalloc hpos hrun
      exact .inr (.inr ⟨cn, got, m', hpos, hle, fun i hi => h.free ▸ hrun i hi, heq.trans hm', h'⟩)
  have hwords := g.words_eq
  refine .inl ⟨?_, by omega, clusteralloc_none (by omega)⟩
  show (g.maxcluster + 1) % 32 = 0
  omega

theorem alloc_linked (hmark : g.Marked) {cn got : Nat} (hpos : 0 < got) (hcl : ∀ i < got, g.Cluster (cn + i)) :
    Linked (v.alloc g cn got).fat g.Eof cn (List.range' cn got) := by
  refine Linked.range' got cn hpos (fun c hle hlt => ?_) ?_ fun c hle hlt heof => ?_
  · have hc := (hcl (c + 1 - cn) (by omega)).2
    show g.chained v.fat cn got CLUST_EOFE c = c + 1
    rw [Geometry.chained, if_pos (by omega), if_pos hlt, g.and_fatmask (by omega)]
  · show g.Eof (g.chained v.fat cn got CLUST_EOFE (cn + got - 1))
    rw [Geometry.chained, if_pos (by omega), if_neg (by omega)]
    exact g.eof_eofe
  · have hc := hcl (c - cn) (by omega)
    rw [show cn + (c - cn) = c from by omega] at hc
    exact hmark.not_cluster heof hc

theorem alloc_fat {cn got c : Nat} (hout : ¬(cn ≤ c ∧ c < cn + got)) : (v.alloc g cn got).fat c = v.fat c := if_neg hout

theorem alloc_exact (h : v.Exact g) {cn got : Nat} (hcl : ∀ i < got, g.Cluster (cn + i)) : (v.alloc g cn got).Exact g := by
  intro c hc
  by_cases hin : cn ≤ c ∧ c < cn + got
  · have hout : c ∉ v.free \ Finset.Ico cn (cn + got) := by
      rw [Finset.mem_sdiff, Finset.mem_Ico]
      exact fun hmem => hmem.2 hin
    have hne : g.chained v.fat cn got CLUST_EOFE c ≠ 0 := by
      rw [Geometry.chained, if_pos hin]
      by_cases hlast : c + 1 < cn + got
      · have hnext := (hcl (c + 1 - cn) (by omega)).2
        rw [if_pos hlast, g.and_fatmask (by omega)]
        omega
      rw [if_neg hlast]
      have hle := g.le_of_eof g.eof_eofe
      have hpos := g.eofs_pos
      omega
    exact ⟨fun hmem => absurd hmem hout, fun h0 => absurd h0 hne⟩
  · rw [alloc_fat hin, ← h c hc]
    show c ∈ v.free \ Finset.Ico cn (cn + got) ↔ c ∈ v.free
    rw [Finset.mem_sdiff, Finset.mem_Ico]
    exact ⟨fun hmem => hmem.1, fun hmem => ⟨hmem, hin⟩⟩

/-! ### Giving back -/

theorem Shows.fatentry (h : m.Shows v) {cn : Nat} (hc : g.Cluster cn) (newc : Nat) : ∃ m', m.fatentry cn newc = some (.ok (v.fat cn), m') ∧
      m'.Shows {v with fat := update v.fat cn (newc &&& g.fatmask)} := by
  obtain ⟨m', hm', h'⟩ := (h.setFat cn newc).updatefats
  refine ⟨m', ?_, h'⟩
  rw [Mount.fatentry, if_neg (by have := hc.1; have := hc.2; omega), hm', ← h.fat]
  rfl

theorem release_singleton (v : Volume) (cn : Nat) :
    v.release [cn] = ⟨insert cn v.free, update v.fat cn (MSDOSFSFREE &&& g.fatmask)⟩ := by
  have hset : v.free ∪ [cn].toFinset = insert cn v.free := by
    simp
  have hfat : (fun c => if c ∈ [cn] then 0 else v.fat c) = update v.fat cn (MSDOSFSFREE &&& g.fatmask) := by
    funext c
    by_cases hcc : c = cn
    · subst hcc
      simp [MSDOSFSFREE, CLUST_FREE]
    · simp [hcc]
  rw [Volume.release, hset, hfat]

theorem release_cons (v : Volume) (a : Nat) (l : List Nat) : (v.release [a]).release l = v.release (a :: l) := by
  have hset : v.free ∪ [a].toFinset ∪ l.toFinset = v.free ∪ (a :: l).toFinset := by
    ext c
    simp only [Finset.mem_union, List.mem_toFinset, mem_cons, not_mem_nil, or_false]
    tauto
  have hfat : (fun c => if c ∈ l then 0 else if c ∈ [a] then 0 else v.fat c) =
      fun c => if c ∈ a :: l then 0 else v.fat c := by
    funext c
    by_cases hl : c ∈ l
    · simp [hl]
    by_cases ha : c = a
    · simp [ha]
    · simp [hl, ha]
  rw [Volume.release, Volume.release, Volume.release, hset, hfat]

theorem Shows.clusterfree (h : m.Shows v) {cn : Nat} (hc : g.Cluster cn) (hnot : cn ∉ v.free) :
    ∃ m', m.clusterfree cn = some (.ok (v.fat cn), m') ∧ m'.Shows (v.release [cn]) := by
  obtain ⟨m₁, hm₁, h₁⟩ := h.usemapFree hc hnot
  obtain ⟨m₂, hm₂, h₂⟩ := h₁.fatentry hc MSDOSFSFREE
  refine ⟨m₂, ?_, ?_⟩
  · simp [Mount.clusterfree, hm₁, hm₂, bind_eq_bind, bind_some]
  · rw [release_singleton v cn (g := g)]
    exact h₂

theorem Shows.turnTo (h : m.Shows v) (lbn : Option Nat) (bn : Nat) : ∃ m', m.turnTo lbn bn = some m' ∧ m'.Shows v := by
  rw [Mount.turnTo]
  by_cases hb : lbn.isSome ∧ lbn ≠ some bn
  · rw [if_pos hb]
    exact h.updatefats
  · exact ⟨m, if_neg hb, h⟩

theorem Shows.freeRound (h : m.Shows v) {cluster : Nat} (hc : g.Cluster cluster) (hnot : cluster ∉ v.free) (n : Nat)
    (lbn : Option Nat) : ∃ m' : Mount g, m'.Shows (v.release [cluster]) ∧
      m.freeLoop (n + 1) cluster lbn = m'.freeLoop n (v.fat cluster) (some (g.fatblock cluster)) := by
  obtain ⟨m₁, hm₁, h₁⟩ := h.turnTo lbn (g.fatblock cluster)
  obtain ⟨m₂, hm₂, h₂⟩ := h₁.usemapFree hc hnot
  refine ⟨m₂.setFat cluster MSDOSFSFREE, ?_, ?_⟩
  · rw [release_singleton v cluster (g := g)]
    exact h₂.setFat cluster MSDOSFSFREE
  have hrange : CLUST_FIRST ≤ cluster ∧ cluster ≤ g.maxcluster := hc
  rw [Mount.freeLoop, if_pos hrange]
  simp [bind_eq_bind, hm₁, hm₂, bind_some, h₂.fat]

/-- The mark at the end of the chain must be none of the volume's clusters, or the loop goes
on there. -/
theorem Shows.freeLoop {next : Nat → Nat} {stop : Nat → Prop} {cluster : Nat} {l : List Nat}
    (hl : Linked next stop cluster l) (h : m.Shows v) (hfat : ∀ x ∈ l, v.fat x = next x) (hcl : ∀ x ∈ l, g.Cluster x)
    (hused : ∀ x ∈ l, x ∉ v.free) (hstop : ∀ x, stop x → ¬g.Cluster x) (n : Nat) (hn : l.length < n) (lbn : Option Nat) :
    ∃ m', m.freeLoop n cluster lbn = some m' ∧ m'.Shows (v.release l) := by
  induction hl generalizing m v n lbn with
  | @last a _ hs =>
    obtain ⟨n, rfl⟩ : ∃ k, n = k + 2 := ⟨n - 2, by rw [length_singleton] at hn; omega⟩
    have ha : a ∈ [a] := mem_cons_self
    obtain ⟨m₁, h₁, hm₁⟩ := h.freeRound (hcl a ha) (hused a ha) (n + 1) lbn
    have hend : ¬(CLUST_FIRST ≤ v.fat a ∧ v.fat a ≤ g.maxcluster) := by
      rw [hfat a ha]
      exact hstop _ hs
    rw [hm₁, Mount.freeLoop, if_neg hend]
    exact h₁.updatefats
  | @link a t ha hl ih =>
    obtain ⟨n, rfl⟩ : ∃ k, n = k + 1 := ⟨n - 1, by omega⟩
    have hmem : a ∈ a :: t := mem_cons_self
    have hnd := nodup_cons.mp (Linked.link ha hl).nodup
    obtain ⟨m₁, h₁, hm₁⟩ := h.freeRound (hcl a hmem) (hused a hmem) n lbn
    rw [hm₁, hfat a hmem, ← release_cons]
    have hne (x : Nat) (hx : x ∈ t) : x ≠ a := fun hxa => hnd.1 (hxa ▸ hx)
    refine ih h₁ (fun x hx => ?_) (fun x hx => hcl x (mem_cons_of_mem _ hx)) (fun x hx => ?_) n
      (by rw [length_cons] at hn; omega) _
    · rw [← hfat x (mem_cons_of_mem _ hx)]
      exact if_neg fun hxa => hne x hx (mem_singleton.mp hxa)
    intro hfree
    rcases Finset.mem_union.mp hfree with hfree | hxa
    · exact hused x (mem_cons_of_mem _ hx) hfree
    · exact hne x hx (mem_singleton.mp (List.mem_toFinset.mp hxa))

theorem length_le_maxcluster {l : List Nat} (hnd : l.Nodup) (hcl : ∀ x ∈ l, g.Cluster x) : l.length ≤ g.maxcluster := by
  have hsub : l.toFinset ⊆ Finset.Icc 1 g.maxcluster := by
    intro x hx
    have hx := hcl x (List.mem_toFinset.mp hx)
    exact Finset.mem_Icc.mpr ⟨by have := hx.1; rw [CLUST_FIRST] at this; omega, hx.2⟩
  have hcard := Finset.card_le_card hsub
  rw [toFinset_card_of_nodup hnd, Nat.card_Icc] at hcard
  omega

theorem Shows.freeclusterchain {stop : Nat → Prop} {cluster : Nat} {l : List Nat} (h : m.Shows v)
    (hl : Linked v.fat stop cluster l) (hcl : ∀ x ∈ l, g.Cluster x) (hused : ∀ x ∈ l, x ∉ v.free)
    (hstop : ∀ x, stop x → ¬g.Cluster x) : ∃ m', m.freeclusterchain cluster = some m' ∧ m'.Shows (v.release l) := by
  have hlen := length_le_maxcluster hl.nodup hcl
  exact Shows.freeLoop hl h (fun _ _ => rfl) hcl hused hstop _ (by omega) none

theorem release_exact (h : v.Exact g) (l : List Nat) : (v.release l).Exact g := by
  intro c hc
  show c ∈ v.free ∪ l.toFinset ↔ (if c ∈ l then 0 else v.fat c) = 0
  rw [Finset.mem_union, h c hc]
  by_cases hl : c ∈ l
  · simp [hl]
  · simp [hl]

/-- The free clusters below `k`, as the table has them. -/
def freeBelow (fat : Nat → Nat) (k : Nat) : Finset Nat :=
  (Finset.range k).filter fun c => CLUST_FIRST ≤ c ∧ fat c = 0

theorem Shows.fillRounds (n cn : Nat) (hn : cn + n = g.maxcluster + 1) (hcn : CLUST_FIRST ≤ cn) (h : m.Shows ⟨freeBelow m.fat cn, m.fat⟩) :
    ∃ m', (List.range' cn n).foldlM fillRound m = some m' ∧ m'.Shows ⟨freeBelow m.fat (g.maxcluster + 1), m.fat⟩ := by
  induction n generalizing m cn with
  | zero =>
    exact ⟨m, rfl, hn ▸ h⟩
  | succ n ih =>
    -- One cluster more has been looked at.
    have hround : ∃ m₁ : Mount g, m.fillRound cn = some m₁ ∧ m₁.fat = m.fat ∧ m₁.Shows ⟨freeBelow m.fat (cn + 1), m.fat⟩ := by
      by_cases hfat : m.fat cn = 0
      · have hnot : cn ∉ freeBelow m.fat cn := by
          rw [freeBelow, Finset.mem_filter, Finset.mem_range]
          exact fun hmem => absurd hmem.1 (lt_irrefl _)
        have hset : insert cn (freeBelow m.fat cn) = freeBelow m.fat (cn + 1) := by
          rw [freeBelow, freeBelow, Finset.range_add_one, Finset.filter_insert, if_pos ⟨hcn, hfat⟩]
        have hcl : g.Cluster cn := ⟨hcn, by omega⟩
        obtain ⟨m₁, hm₁, h₁⟩ := h.usemapFree hcl hnot
        refine ⟨m₁, ?_, h₁.fat, hset ▸ h₁⟩
        rw [fillRound, if_pos hfat, hm₁]
      · have hset : freeBelow m.fat (cn + 1) = freeBelow m.fat cn := by
          rw [freeBelow, freeBelow, Finset.range_add_one, Finset.filter_insert, if_neg (fun h => hfat h.2)]
        exact ⟨m, if_neg hfat, rfl, by rw [hset]; exact h⟩
    obtain ⟨m₁, hm₁, hfat₁, h₁⟩ := hround
    rw [range'_succ, foldlM_cons, hm₁]
    rw [← hfat₁] at h₁ ⊢
    exact ih (cn + 1) (by omega) (by omega) h₁

theorem fillinusemap_spec (m : Mount g) (hnxt : m.fsinfo = true → m.nxtfree ≤ g.maxcluster) :
    ∃ m', m.fillinusemap = some m' ∧ m'.Shows ⟨freeBelow m.fat (g.maxcluster + 1), m.fat⟩ := by
  obtain ⟨m₀, hm₀⟩ : ∃ m₀ : Mount g, m₀ = {m with
    inusemap := fun idx => if idx < g.words then -1 else m.inusemap idx, freeclustercount := 0} := ⟨_, rfl⟩
  have hfat : m₀.fat = m.fat := by rw [hm₀]
  have hnone (k : Nat) (hk : k ≤ CLUST_FIRST) : freeBelow m.fat k = ∅ := by
    refine Finset.eq_empty_of_forall_notMem fun c hc => ?_
    rw [freeBelow, Finset.mem_filter, Finset.mem_range] at hc
    omega
  have hfree : m₀.free = ∅ := by
    refine Finset.eq_empty_of_forall_notMem fun c hc => ?_
    obtain ⟨hlt, hbit⟩ := mem_free.mp hc
    have hword : m₀.inusemap (c / 32) = -1 := by
      rw [hm₀]
      exact if_pos (g.div_lt_words.mpr hlt)
    have hset := @set_above 0 (by decide) (m₀.inusemap (c / 32)) (by rw [hword]; decide) (c % 32) (by omega) (by omega)
    rw [mapBit, hset] at hbit
    exact absurd hbit (by decide)
  have h₀ (k : Nat) (hk : k ≤ CLUST_FIRST) : m₀.Shows ⟨freeBelow m₀.fat k, m₀.fat⟩ := by
    rw [hfat, hnone k hk]
    refine ⟨hfree, hfat, fun c hc => absurd hc (Finset.notMem_empty c), ?_, ?_⟩
    · rw [hm₀]
      rfl
    · rw [hm₀]
      exact hnxt
  rw [fillinusemap, ← hm₀, ← hfat]
  by_cases hmax : CLUST_FIRST ≤ g.maxcluster + 1
  · exact Shows.fillRounds _ CLUST_FIRST (by omega) le_rfl (h₀ _ le_rfl)
  -- No cluster at all.
  rw [show g.maxcluster + 1 - CLUST_FIRST = 0 from by omega]
  exact ⟨m₀, rfl, h₀ _ (by omega)⟩

theorem freeBelow_exact (fat : Nat → Nat) : Volume.Exact g ⟨freeBelow fat (g.maxcluster + 1), fat⟩ := by
  intro cn hcn
  have hle := hcn.2
  rw [freeBelow, Finset.mem_filter, Finset.mem_range]
  exact ⟨fun h => h.2.2, fun h => ⟨by omega, hcn.1, h⟩⟩

end Mount

end NetBSD.Fs.Msdosfs
