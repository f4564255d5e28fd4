import NetBSD.Fs.Msdosfs.Fat

/-! The map of clusters in use stands for a set.

`Volume` is what a mounted volume is about: the set of free clusters and the table.
`Shows m v` says that the map of `m` has exactly the bits of `v.free` clear, all of them
clusters of the volume, and that the counter counts them. Every function that works on the
map then does to `v` what its name says, and none of them leaves the map. -/
namespace NetBSD.Fs.Msdosfs
open Option
open Lib

namespace Geometry
variable (g : Geometry)

theorem maxcluster_le : g.maxcluster ≤ 0xfffffff := by
  have hmask : g.maxcluster ≤ g.fatType.mask := by
    rw [← g.masked]
    exact Nat.and_le_right
  refine hmask.trans ?_
  cases g.fatType <;> decide

theorem words_eq : g.words = g.maxcluster / 32 + 1 := by
  unfold words N_INUSEBITS
  omega

theorem div_lt_words {cn : Nat} : cn / 32 < g.words ↔ cn < 32 * g.words := by omega

theorem lt_words {cn : Nat} (h : cn ≤ g.maxcluster) : cn < 32 * g.words := by
  rw [words_eq]
  omega

end Geometry

namespace Mount
variable {g : Geometry} (m : Mount g)

/-- The clusters whose bit is clear. -/
def free : Finset Nat := (Finset.range (32 * g.words)).filter fun cn => mapBit m.inusemap cn = false

variable {m}

theorem mem_free {cn : Nat} : cn ∈ m.free ↔ cn < 32 * g.words ∧ mapBit m.inusemap cn = false := by
  rw [free, Finset.mem_filter, Finset.mem_range]

theorem word_eq {idx : Nat} (h : idx < g.words) : m.word idx = some (m.inusemap idx) := if_pos h

end Mount

/-- The free clusters and the table. -/
structure Volume where
  free : Finset Nat
  fat : Nat → Nat

structure Mount.Shows {g : Geometry} (m : Mount g) (v : Volume) : Prop where
  free : m.free = v.free
  fat : m.fat = v.fat
  clusters : ∀ cn ∈ v.free, g.Cluster cn
  count : m.freeclustercount = v.free.card
  nxtfree : m.fsinfo = true → m.nxtfree ≤ g.maxcluster

namespace Mount
variable {g : Geometry} {m : Mount g} {v : Volume} {cn : Nat}

theorem Shows.card_lt (h : m.Shows v) : v.free.card < 2 ^ 63 := by
  have hsub : v.free ⊆ Finset.range (g.maxcluster + 1) := by
    intro c hc
    have := (h.clusters c hc).2
    exact Finset.mem_range.mpr (by omega)
  have hcard := Finset.card_le_card hsub
  have hmax := g.maxcluster_le
  rw [Finset.card_range] at hcard
  omega

theorem Shows.usemapAlloc (h : m.Shows v) (hc : cn ∈ v.free) :
    ∃ m', m.usemapAlloc cn = some m' ∧ m'.Shows {v with free := v.free.erase cn} := by
  have hmem := mem_free.mp (h.free ▸ hc)
  have hcard := h.card_lt
  have hpos : 0 < v.free.card := Finset.card_pos.mpr ⟨cn, hc⟩
  have hword : m.word (cn / N_INUSEBITS) = some (m.inusemap (cn / N_INUSEBITS)) :=
    word_eq (g.div_lt_words.mpr hmem.1)
  rw [Mount.usemapAlloc, hword]
  refine ⟨_, rfl, ?_⟩
  refine ⟨?_, h.fat, fun c hc' => h.clusters c (Finset.mem_of_mem_erase hc'), ?_, h.nxtfree⟩
  · ext c
    rw [mem_free, Finset.mem_erase, ← h.free, mem_free]
    simp only [N_INUSEBITS, mapBit_or, Bool.or_eq_false_iff, decide_eq_false_iff_not]
    tauto
  · show ulong (m.freeclustercount + (2 ^ 64 - 1)) = (v.free.erase cn).card
    rw [Finset.card_erase_of_mem hc, h.count, ulong]
    omega

theorem Shows.usemapFree (h : m.Shows v) (hc : g.Cluster cn) (hnot : cn ∉ v.free) :
    ∃ m', m.usemapFree cn = some m' ∧ m'.Shows {v with free := insert cn v.free} := by
  have hlt := g.lt_words hc.2
  have hcard := h.card_lt
  have hword : m.word (cn / N_INUSEBITS) = some (m.inusemap (cn / N_INUSEBITS)) := word_eq (g.div_lt_words.mpr hlt)
  rw [Mount.usemapFree, hword]
  refine ⟨_, rfl, ?_⟩
  refine ⟨?_, h.fat, fun c hc' => ?_, ?_, h.nxtfree⟩
  · ext c
    rw [mem_free, Finset.mem_insert, ← h.free, mem_free]
    simp only [N_INUSEBITS, mapBit_andNot, Bool.and_eq_false_iff, Bool.not_eq_false', decide_eq_true_eq]
    constructor
    · tauto
    rintro (rfl | hfree)
    · exact ⟨hlt, .inr rfl⟩
    · exact ⟨hfree.1, .inl hfree.2⟩
  · rcases Finset.mem_insert.mp hc' with rfl | hc'
    · exact hc
    · exact h.clusters c hc'
  · show ulong (m.freeclustercount + 1) = (insert cn v.free).card
    rw [Finset.card_insert_of_notMem hnot, h.count, ulong]
    omega

theorem Shows.setFat (h : m.Shows v) (cn newc : Nat) : (m.setFat cn newc).Shows {v with fat := Function.update v.fat cn (newc &&& g.fatmask)} :=
  ⟨h.free, by rw [← h.fat]; rfl, h.clusters, h.count, h.nxtfree⟩

theorem freeWord_spec (m : Mount g) (n cn : Nat) (hn : cn + n = g.maxcluster) (hbefore : ∀ i < cn, m.inusemap (i / 32) = -1) :
    ∃ c, m.freeWord n cn = some c ∧ c ≤ g.maxcluster ∧ (∀ i < c, m.inusemap (i / 32) = -1) ∧
      (c = g.maxcluster ∨ m.inusemap (c / 32) ≠ -1) := by
  induction n generalizing cn with
  | zero => exact ⟨cn, rfl, by omega, hbefore, .inl (by omega)⟩
  | succ n ih =>
    have hword : m.word (cn / N_INUSEBITS) = some (m.inusemap (cn / 32)) :=
      word_eq (g.div_lt_words.mpr (g.lt_words (by omega)))
    rw [freeWord, hword, bind_some]
    by_cases hw : m.inusemap (cn / 32) = -1
    · rw [if_neg (not_not.mpr hw)]
      refine ih (cn + 1) (by omega) fun i hi => ?_
      rcases Nat.lt_succ_iff_lt_or_eq.mp hi with hi | rfl
      · exact hbefore i hi
      · exact hw
    · rw [if_pos hw]
      exact ⟨cn, rfl, by omega, hbefore, .inr hw⟩

theorem Shows.updatefats (h : m.Shows v) : ∃ m', m.updatefats = some m' ∧ m'.Shows v := by
  unfold Mount.updatefats
  by_cases hfs : m.fsinfo = true ∧ m.freeclustercount ≠ 0
  · have hnxt : m.word (m.nxtfree / N_INUSEBITS) = some (m.inusemap (m.nxtfree / N_INUSEBITS)) :=
      word_eq (g.div_lt_words.mpr (g.lt_words (h.nxtfree hfs.1)))
    rw [if_pos hfs, hnxt]
    by_cases hbit : m.inusemap (m.nxtfree / N_INUSEBITS) &&& 1#32 <<< (m.nxtfree % N_INUSEBITS) ≠ 0
    · -- There is a free cluster, so that the search ends in its word or before.
      obtain ⟨c₀, hc₀⟩ : v.free.Nonempty := Finset.card_pos.mp (by have := h.count; omega)
      have hmem₀ := mem_free.mp (h.free ▸ hc₀)
      obtain ⟨c, hfree, hcmax, hbefore, hstop⟩ := freeWord_spec m g.maxcluster 0 (by omega) (by omega)
      have hfull (i : Nat) (hi : m.inusemap (i / 32) = -1) : mapBit m.inusemap i = true := by
        have hall := @set_above 0 (by decide) (m.inusemap (i / 32)) (by rw [hi]; decide) (i % 32) (by omega) (by omega)
        rw [mapBit, hall]
      have hc₀c : c ≤ c₀ ∨ c / 32 = c₀ / 32 := by
        by_contra hno
        have hused := hfull c₀ (hbefore c₀ (by omega))
        rw [hused] at hmem₀
        exact absurd hmem₀.2 (by decide)
      have hcw : m.inusemap (c / 32) ≠ -1 := by
        rcases hstop with rfl | hw
        · -- The scan has gone through: what is free is in the last word.
          intro hw
          have hsame : c₀ / 32 = g.maxcluster / 32 := by
            have := (h.clusters c₀ hc₀).2
            omega
          have hused := hfull c₀ (by rw [hsame]; exact hw)
          rw [hused] at hmem₀
          exact absurd hmem₀.2 (by decide)
        · exact hw
      have hword : m.word (c / N_INUSEBITS) = some (m.inusemap (c / 32)) :=
        word_eq (g.div_lt_words.mpr (g.lt_words hcmax))
      obtain ⟨k, -, hk, hffs, hclear, -⟩ := @ffs_clear 0 (by decide) (m.inusemap (c / 32)) (by simpa using hcw)
      have hffs' : ffs (m.inusemap (c / 32) ^^^ -1) = k + 1 := by simpa using hffs
      -- The search comes to a word at its first cluster.
      have halign : c % 32 = 0 := by
        by_contra hne
        have hw := hbefore (c - 1) (by omega)
        rw [show (c - 1) / 32 = c / 32 from by omega] at hw
        exact hcw hw
      have hck : c + k ∈ v.free := by
        rw [← h.free, mem_free, mapBit]
        have hdiv : (c + k) / 32 = c / 32 := by omega
        have hmod : (c + k) % 32 = k := by omega
        have hlt := g.lt_words hcmax
        rw [hdiv, hmod]
        exact ⟨by omega, hclear⟩
      have hckmax := (h.clusters _ hck).2
      have hbound := g.maxcluster_le
      have hval : ulong (c + ffs (m.inusemap (c / 32) ^^^ -1) + (2 ^ 64 - 1)) = c + k := by
        rw [ulong]
        omega
      refine ⟨{m with nxtfree := c + k}, ?_, h.free, h.fat, h.clusters, h.count, fun _ => hckmax⟩
      simp only [bind_eq_bind, bind_some]
      rw [if_pos hbit, hfree, bind_some, hword, bind_some, hval]
    · refine ⟨m, ?_, h⟩
      simp only [bind_eq_bind, bind_some]
      rw [if_neg hbit]
  · exact ⟨m, if_neg hfs, h⟩

end Mount

end NetBSD.Fs.Msdosfs
