import NetBSD.Fs.Msdosfs.Usemap

/-! How clusters are found.

`chainlength_spec` is what the scan of single words amounts to: the length of the free run
from a place on, cut at `count`. `scan` visits every free cluster between its bounds, so that
`clusteralloc` fails only when there is none. -/
namespace NetBSD.Fs.Msdosfs.Mount
open Option
open Lib

variable {g : Geometry} {m : Mount g} {v : Volume}

/-- A free run of `len` clusters that starts at `start`. -/
def Run (m : Mount g) (start len : Nat) : Prop := ∀ i < len, start + i ∈ m.free

/-- The longest run from `start` on, or its first `count` clusters. -/
def LongestRun (m : Mount g) (start count len : Nat) : Prop :=
  m.Run start len ∧ (len < count → start + len ∉ m.free)

theorem Run.mono {start len len' : Nat} (h : m.Run start len) (hle : len' ≤ len) : m.Run start len' :=
  fun i hi => h i (by omega)

theorem Run.extend {start len idx k : Nat} (h : m.Run start len) (hidx : idx < g.words)
    (hplace : ∀ i, len ≤ i → i < k → (start + i) / 32 = idx)
    (hclear : ∀ i, len ≤ i → i < k → (m.inusemap idx).getLsbD ((start + i) % 32) = false) : m.Run start k := by
  intro i hi
  by_cases hlt : i < len
  · exact h i hlt
  have hdiv := hplace i (by omega) hi
  rw [mem_free, mapBit, hdiv]
  exact ⟨g.div_lt_words.mp (by omega), hclear i (by omega) hi⟩

theorem not_mem_of_set {idx k cn : Nat} (hset : (m.inusemap idx).getLsbD k = true) (hdiv : cn / 32 = idx) (hmod : cn % 32 = k) : cn ∉ m.free := by
  rw [mem_free, mapBit, hdiv, hmod, hset]
  exact fun h => absurd h.2 (by decide)

theorem not_mem_of_le {cn : Nat} (h : 32 * g.words ≤ cn) : cn ∉ m.free := by
  rw [mem_free]
  exact fun hmem => absurd hmem.1 (by omega)

theorem LongestRun.min {start count len : Nat} (h : m.LongestRun start count len) :
    m.LongestRun start count (if len > count then count else len) := by
  by_cases hlen : len > count
  · rw [if_pos hlen]
    exact ⟨h.1.mono (by omega), fun hlt => absurd hlt (lt_irrefl _)⟩
  · rw [if_neg hlen]
    exact h

theorem chainlengthLoop_spec (m : Mount g) (start count n idx len : Nat) (hn : idx + n = g.words)
    (hat : start + len = 32 * idx) (hrun : m.Run start len) :
    ∃ r, m.chainlengthLoop count n idx len = some r ∧ m.LongestRun start count r := by
  induction n generalizing idx len with
  | zero => exact ⟨len, rfl, hrun, fun _ => not_mem_of_le (by omega)⟩
  | succ n ih =>
    rw [chainlengthLoop]
    by_cases hlen : len ≥ count
    · rw [if_pos hlen]
      exact ⟨len, rfl, hrun, fun hlt => absurd hlt (by omega)⟩
    rw [if_neg hlen, word_eq (by omega), bind_some]
    by_cases hw : m.inusemap idx = 0
    · rw [if_neg (not_not.mpr hw)]
      refine ih (idx + 1) (len + N_INUSEBITS) (by omega) (by rw [N_INUSEBITS]; omega) ?_
      refine @Run.extend g m start len idx (len + 32) hrun (by omega) (fun i _ _ => by omega) fun i _ _ => ?_
      rw [hw]
      exact BitVec.getLsbD_zero
    rw [if_pos hw]
    obtain ⟨k, hk, hffs, hset, hclear⟩ := ffs_of_ne_zero hw
    rw [hffs]
    refine ⟨len + k, rfl, ?_, fun _ => not_mem_of_set hset (by omega) (by omega)⟩
    exact @Run.extend g m start len idx _ hrun (by omega) (fun i _ _ => by omega) fun i _ _ => hclear _ (by omega)

theorem chainlength_spec (m : Mount g) {start : Nat} (count : Nat) (hs : start < 32 * g.words) :
    ∃ r ≤ count, m.chainlength start count = some r ∧ m.LongestRun start count r := by
  have hidx : start / 32 < g.words := g.div_lt_words.mpr hs
  have hmod : start % 32 < 32 := Nat.mod_lt _ (by decide)
  have hcut (len : Nat) : (if len > count then count else len) ≤ count := by split_ifs <;> omega
  have hnil : m.Run start 0 := fun i hi => absurd hi (by omega)
  rw [chainlength]
  simp only [word_eq hidx, bind_some]
  by_cases hmap : m.inusemap (start / 32) &&& ~~~((1#32 <<< (start % 32)) - 1) ≠ 0
  case neg =>
    rw [if_neg hmap]
    rw [not_not] at hmap
    -- The rest of the first word is free.
    have hrun : m.Run start (32 - start % 32) :=
      hnil.extend hidx (fun i _ _ => by omega) fun i _ _ => clear_above hmod hmap (by omega) (by omega)
    by_cases hlen : 32 - start % 32 ≥ count
    · rw [if_pos hlen]
      exact ⟨count, le_rfl, rfl, hrun.mono hlen, fun hlt => absurd hlt (lt_irrefl _)⟩
    rw [if_neg hlen]
    have hn : start / 32 + 1 + (g.maxcluster / 32 - start / 32) = g.words := by
      rw [g.words_eq] at hidx ⊢
      omega
    obtain ⟨r, hr, hlong⟩ := m.chainlengthLoop_spec start count _ _ _ hn (by omega) hrun
    rw [hr]
    exact ⟨_, hcut r, rfl, hlong.min⟩
  · rw [if_pos hmap]
    obtain ⟨k, hle, hk, hffs, hset, hclear⟩ := ffs_above hmod hmap
    rw [show N_INUSEBITS = 32 from rfl]
    refine ⟨_, hcut _, rfl, LongestRun.min ⟨?_, fun _ => not_mem_of_set hset (by omega) (by omega)⟩⟩
    exact hnil.extend hidx (fun i _ _ => by omega) fun i _ _ => hclear _ (by omega) (by omega)

/-- What `scan` may say: a run of `count` clusters, or the longest it has seen. No run at all
means that there is nothing free between `cn` and `lim`. -/
def Scan.Right (m : Mount g) (count lim cn : Nat) : Scan → Prop
  | .hit c => m.Run c count
  | .best foundcn foundl => foundl < count ∧ m.Run foundcn foundl ∧ (foundl = 0 → ∀ c, cn ≤ c → c < lim → c ∉ m.free)

theorem Scan.Right.skip {count lim cn cn' : Nat} {s : Scan} (h : Scan.Right m count lim cn' s)
    (hbetween : ∀ c, cn ≤ c → c < cn' → c ∉ m.free) : Scan.Right m count lim cn s := by
  cases s with
  | hit c => exact h
  | best foundcn foundl =>
    refine ⟨h.1, h.2.1, fun h0 c hc hlim => ?_⟩
    by_cases hlt : c < cn'
    · exact hbetween c hc hlt
    · exact h.2.2 h0 c (by omega) hlim

theorem Scan.Right.found {count lim cn cn' foundl : Nat} {s : Scan} (h : Scan.Right m count lim cn' s)
    (hpos : 0 < foundl) (hmono : ∀ c l, s = .best c l → foundl ≤ l) : Scan.Right m count lim cn s := by
  cases s with
  | hit c => exact h
  | best c l =>
    have := hmono c l rfl
    exact ⟨h.1, h.2.1, fun h0 => absurd h0 (by omega)⟩

theorem scan_spec (m : Mount g) {count lim : Nat} (hcount : 0 < count) (hlim : lim ≤ g.maxcluster + 1)
    (n cn foundcn foundl : Nat) (hn : lim ≤ cn + n) (hfound : foundl < count) (hrun : m.Run foundcn foundl) :
    ∃ s, m.scan count lim n cn foundcn foundl = some s ∧ Scan.Right m count lim cn s ∧ ∀ c l, s = .best c l → foundl ≤ l := by
  -- Where the loop ends there is nothing left between `cn` and `lim`.
  have hend (cn : Nat) (hcn : lim ≤ cn) : Scan.Right m count lim cn (.best foundcn foundl) :=
    ⟨hfound, hrun, fun _ c hc hclim => absurd hclim (by omega)⟩
  have hsame (c l : Nat) (hcl : Scan.best foundcn foundl = .best c l) : foundl ≤ l := by
    cases hcl
    exact le_rfl
  induction n generalizing cn foundcn foundl with
  | zero => exact ⟨_, rfl, hend cn (by omega), hsame⟩
  | succ n ih =>
    rw [scan]
    by_cases hcn : cn < lim
    case neg =>
      rw [if_neg hcn]
      exact ⟨_, rfl, hend cn (by omega), hsame⟩
    have hidx : cn / 32 < g.words := g.div_lt_words.mpr (g.lt_words (by omega))
    have hmod : cn % 32 < 32 := Nat.mod_lt _ (by decide)
    simp only [if_pos hcn, word_eq hidx, bind_some]
    by_cases hmap : m.inusemap (cn / 32) ||| ((1#32 <<< (cn % 32)) - 1) ≠ -1
    case neg =>
      -- Nothing is free up to the end of the word.
      rw [if_neg hmap]
      rw [ne_eq, not_not] at hmap
      obtain ⟨s, hs, hright, hmono⟩ := ih (cn + (32 - cn % 32)) foundcn foundl (by omega) hfound hrun
        (fun cn hcn => ⟨hfound, hrun, fun _ c hc hclim => absurd hclim (by omega)⟩) hsame
      refine ⟨s, hs, hright.skip fun c hc hlt => ?_, hmono⟩
      exact not_mem_of_set (set_above hmod hmap (j := c % 32) (by omega) (by omega)) (by omega) rfl
    · rw [if_pos hmap]
      obtain ⟨k, hle, hk, hffs, hclear, hset⟩ := ffs_clear hmod hmap
      rw [hffs, show cn / 32 * 32 + (k + 1) - 1 = cn / 32 * 32 + k from by omega]
      have hfree : cn / 32 * 32 + k ∈ m.free := by
        rw [mem_free, mapBit_word _ hk]
        exact ⟨by omega, hclear⟩
      have hbefore (c : Nat) (hc : cn ≤ c) (hlt : c < cn / 32 * 32 + k) : c ∉ m.free :=
        not_mem_of_set (hset (c % 32) (by omega) (by omega)) (by omega) rfl
      obtain ⟨l, hlc, hl, hlong⟩ := m.chainlength_spec count (mem_free.mp hfree).1
      rw [hl, bind_some]
      have hl0 : 0 < l := by
        rcases Nat.eq_zero_or_pos l with rfl | hpos
        · exact absurd hfree (hlong.2 hcount)
        · exact hpos
      by_cases hge : l ≥ count
      · rw [if_pos hge]
        exact ⟨_, rfl, hlong.1.mono hge, nofun⟩
      rw [if_neg hge]
      by_cases hgt : l > foundl
      · rw [if_pos hgt]
        obtain ⟨s, hs, hright, hmono⟩ := ih (cn / 32 * 32 + k + (l + 1)) (cn / 32 * 32 + k) l (by omega) (by omega)
          hlong.1 (fun cn hcn => ⟨by omega, hlong.1, fun _ c hc hclim => absurd hclim (by omega)⟩)
          (fun c l' hcl => by cases hcl; exact le_rfl)
        exact ⟨s, hs, hright.found hl0 hmono, fun c l' hcl => (le_of_lt hgt).trans (hmono c l' hcl)⟩
      · rw [if_neg hgt]
        obtain ⟨s, hs, hright, hmono⟩ := ih (cn / 32 * 32 + k + (l + 1)) foundcn foundl (by omega) hfound hrun
          (fun cn hcn => ⟨hfound, hrun, fun _ c hc hclim => absurd hclim (by omega)⟩) hsame
        exact ⟨s, hs, @Scan.Right.found g m _ _ _ _ foundl s hright (by omega) hmono, hmono⟩

/-- Nothing is free and nothing happens, or a free run of at most `count` clusters is taken. -/
def Served (m : Mount g) (v : Volume) (count : Nat) (out : Option (Except Errno (Nat × Nat) × Mount g)) : Prop :=
  v.free = ∅ ∧ out = some (.error .enospc, m) ∨ ∃ cn got, 0 < got ∧ got ≤ count ∧ m.Run cn got ∧ out = m.chainalloc cn got CLUST_EOFE

theorem Shows.clusterSearch (hv : m.Shows v) {start len count : Nat} (hcount : 0 < count) (hlen : len < count)
    (hrun : m.Run start len) : m.Served v count (m.clusterSearch start len count) := by
  have hnil : m.Run 0 0 := fun i hi => absurd hi (by omega)
  rw [Mount.clusterSearch]
  -- The scan begins at a place of the volume.
  obtain ⟨newst, hnewst⟩ : ∃ n, n = ulong (start * 1103515245 + 12345) % (g.maxcluster + 1) := ⟨_, rfl⟩
  have hlt : newst < g.maxcluster + 1 := hnewst ▸ Nat.mod_lt _ (by omega)
  simp only [← hnewst, bind_eq_bind]
  obtain ⟨s₁, hs₁, hright₁, -⟩ := scan_spec m hcount le_rfl (g.maxcluster + 1) newst 0 0 (by omega) hcount hnil
  rw [hs₁]
  cases s₁ with
  | hit cn => exact .inr ⟨cn, count, hcount, le_rfl, hright₁, rfl⟩
  | best cn₁ l₁ =>
    obtain ⟨s₂, hs₂, hright₂, hmono⟩ := scan_spec m hcount (le_of_lt hlt) newst 0 cn₁ l₁ (by omega) hright₁.1 hright₁.2.1
    simp only [hs₂, bind_some]
    cases s₂ with
    | hit cn => exact .inr ⟨cn, count, hcount, le_rfl, hright₂, rfl⟩
    | best cn₂ l₂ =>
      have hle := hmono cn₂ l₂ rfl
      by_cases hzero : l₂ = 0
      · refine .inl ⟨Finset.eq_empty_of_forall_notMem fun c hc => ?_, if_pos hzero⟩
        have hmax := (hv.clusters c hc).2
        rw [← hv.free] at hc
        by_cases hcn : newst ≤ c
        · exact hright₁.2.2 (by omega) c hcn (by omega) hc
        · exact hright₂.2.2 hzero c (by omega) (by omega) hc
      · simp only [if_neg hzero]
        by_cases hlen0 : len ≠ 0
        · exact .inr ⟨start, len, by omega, by omega, hrun, if_pos hlen0⟩
        · exact .inr ⟨cn₂, l₂, by omega, le_of_lt hright₂.1, hright₂.2.1, if_neg hlen0⟩

theorem Shows.clusteralloc (hv : m.Shows v) {start count : Nat} (usec : Nat) (hcount : 0 < count)
    (hs : start < 32 * g.words) : m.Served v count (m.clusteralloc start count usec) := by
  rw [Mount.clusteralloc]
  by_cases h0 : start ≠ 0
  · obtain ⟨len, hle, hlen, hlong⟩ := m.chainlength_spec count hs
    rw [if_pos h0, hlen, bind_some]
    by_cases hge : len ≥ count
    · rw [if_pos hge]
      exact .inr ⟨start, count, hcount, le_rfl, hlong.1.mono hge, rfl⟩
    · rw [if_neg hge]
      exact hv.clusterSearch hcount (by omega) hlong.1
  · rw [if_neg h0]
    exact hv.clusterSearch hcount hcount fun i hi => absurd hi (by omega)

end NetBSD.Fs.Msdosfs.Mount
