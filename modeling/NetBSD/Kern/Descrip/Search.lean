import NetBSD.Kern.Descrip.Filedesc

/-! What the searches in the maps find.

`fd_next_zero` finds the first clear bit. Where the high map says which words of the low one are
full (`Full`), the loop of `fd_alloc` finds the first free descriptor, however the free ones lie,
and it never takes more rounds than it has words to look at. -/
namespace NetBSD.Kern.Descrip
open Lib

theorem nextZeroLoop_firstClear (bitmap : Nat → Word) (n off : Nat) :
    FirstClear bitmap (off * 32) ((off + n) * 32) (nextZeroLoop bitmap n off) := by
  induction n generalizing off with
  | zero =>
    intro q hq hq'
    omega
  | succ n ih =>
    rw [nextZeroLoop]
    split
    case isTrue h =>
      have hmask : bitmap off ||| ((1#32 <<< 0) - 1) = bitmap off := by
        exact BitVec.or_zero
      have hfirst := FirstClear.word bitmap off 0 ((off + (n + 1)) * 32) (by decide) (by omega) (by rwa [hmask])
      rwa [hmask] at hfirst
    case isFalse h =>
      rw [not_not] at h
      have htail := ih (off + 1)
      rw [show off + 1 + n = off + (n + 1) by omega] at htail
      exact htail.skip (by omega) fun q hq hq' => (word_full_iff off).1 h q hq hq'

theorem ones_shiftRight (i : Nat) (h : i < 32) : (-1 : Word) >>> (32 - i) = (1#32 <<< i) - 1 := by
  apply BitVec.eq_of_getLsbD_eq
  intro j hj
  rw [BitVec.getLsbD_ushiftRight, getLsbD_below h]
  by_cases hji : j < i
  · rw [getLsbD_neg_one (by omega), decide_eq_true hji]
  · rw [decide_eq_false hji]
    exact BitVec.getLsbD_of_ge _ _ (by omega)

theorem fdNextZero_firstClear (bitmap : Nat → Word) (want bits : Nat) (h : want ≤ bits) :
    FirstClear bitmap want (ndloslots bits * 32) (fdNextZero bitmap want bits) := by
  have hmod : want % 32 < 32 := Nat.mod_lt _ (by decide)
  have hoff : want / 32 ≤ ndloslots bits := by unfold ndloslots; omega
  unfold fdNextZero
  rw [if_neg (by omega)]
  dsimp only
  split
  case isTrue hz =>
    have hloop := nextZeroLoop_firstClear bitmap (ndloslots bits - want / 32) (want / 32)
    rwa [show want / 32 + (ndloslots bits - want / 32) = ndloslots bits by omega,
      show want / 32 * 32 = want by omega] at hloop
  case isFalse hz =>
    have hlt : want / 32 < ndloslots bits := by unfold ndloslots; omega
    have hsplit : want / 32 * 32 + want % 32 = want := by omega
    rw [ones_shiftRight _ hmod]
    split
    case isTrue hsub =>
      have hfirst := FirstClear.word bitmap _ _ (ndloslots bits * 32) hmod (by omega) hsub
      rwa [hsplit] at hfirst
    case isFalse hsub =>
      rw [not_not] at hsub
      have hloop := nextZeroLoop_firstClear bitmap (ndloslots bits - (want / 32 + 1)) (want / 32 + 1)
      rw [show want / 32 + 1 + (ndloslots bits - (want / 32 + 1)) = ndloslots bits by omega] at hloop
      refine hloop.skip (by omega) fun q hq hq' => ?_
      rw [show q = want / 32 * 32 + (q - want / 32 * 32) by omega, mapBit_word _ (by omega)]
      exact set_above hmod hsub (by omega) (by omega)

/-- The high map says which words of the low one are full. -/
def Full (fdp : Filedesc) : Prop := ∀ k, mapBit fdp.himap k = true ↔ fdp.lomap k = -1

theorem full_words {fdp : Filedesc} (hfull : Full fdp) {off b : Nat}
    (h : ∀ k, off ≤ k → k < b → mapBit fdp.himap k = true) (q : Nat) (hq : off * 32 ≤ q) (hqb : q < b * 32) :
    fdp.isused q = true := by
  have hword := (hfull (q / 32)).1 (h (q / 32) (by omega) (by omega))
  exact (word_full_iff (q / 32)).1 hword q (by omega) (by omega)

theorem loword_shift (fdp : Filedesc) (hi q : Nat) (h : hi < fdp.losize) (hq : q < 32) :
    mapBit (fun k => fdp.loword (hi + k)) q = fdp.isused (hi * 32 + q) := by
  rw [Filedesc.isused, mapBit_word hi hq, mapBit, show q / 32 = 0 by omega, show q % 32 = q by omega]
  simp [Filedesc.loword, add_zero, if_pos h]

/-- The first descriptor free from `i` on and below `last`, or that there is none. -/
def FirstFree (fdp : Filedesc) (i last : Nat) : Option Nat → Prop
  | none => ∀ q, i ≤ q → q < last → fdp.isused q = true
  | some p => i ≤ p ∧ p < last ∧ fdp.isused p = false ∧ ∀ q, i ≤ q → q < p → fdp.isused q = true

theorem FirstFree.skip {fdp : Filedesc} {i i' last : Nat} {r : Option Nat} (hi : i ≤ i')
    (hset : ∀ q, i ≤ q → q < i' → q < last → fdp.isused q = true) (h : FirstFree fdp i' last r) : FirstFree fdp i last r := by
  cases r with
  | none =>
    intro q hq hql
    by_cases hqi : q < i'
    · exact hset q hq hqi hql
    · exact h q (by omega) hql
  | some p =>
    obtain ⟨hip, hpl, hclear, hbelow⟩ := h
    refine ⟨by omega, hpl, hclear, fun q hq hqp => ?_⟩
    by_cases hqi : q < i'
    · exact hset q hq hqi (by omega)
    · exact hbelow q (by omega) hqp

/-- The loop finds the first free descriptor at or above `want` and `freefile`. What `want` has
become is the same, or above `freefile`. -/
theorem fdSearch_firstFree {fdp : Filedesc} (hfull : Full fdp) {last : Nat} (hlast : last ≤ fdp.losize * 32)
    (n want : Nat) (r : Option (Nat × Nat)) (h : fdSearch fdp last n want = some r) :
    FirstFree fdp (max want fdp.freefile) last (r.map Prod.fst) ∧ ∀ p ∈ r, p.2 = want ∨ fdp.freefile < p.2 := by
  induction n generalizing want with
  | zero => cases h
  | succ n ih =>
    rw [fdSearch] at h
    have hmax : (if want < fdp.freefile then fdp.freefile else want) = max want fdp.freefile := by
      split <;> omega
    rw [hmax] at h
    generalize hi : max want fdp.freefile = i at h ⊢
    by_cases hoff : i / 32 ≤ (last + 31) / 32
    · have hhi := fdNextZero_firstClear fdp.himap (i / 32) ((last + 31) / 32) hoff
      generalize fdNextZero fdp.himap (i / 32) ((last + 31) / 32) = rh at h hhi
      cases rh with
      | none =>
        cases h
        refine ⟨fun q hq hql => ?_, by simp⟩
        exact full_words hfull hhi q (by omega) (by unfold ndloslots; omega)
      | some hi =>
        obtain ⟨hle, -, -, hset⟩ := hhi
        have hbefore (q : Nat) (hq : i ≤ q) (hqh : q < hi * 32) : fdp.isused q = true :=
          full_words hfull hset q (by omega) hqh
        dsimp only at h
        generalize hstart : (if hi > i / 32 then 0 else i % 32) = start at h
        have hs : start ≤ 32 ∧ (i ≤ hi * 32 + start) ∧ ∀ q, i ≤ q → hi * 32 ≤ q → start ≤ q - hi * 32 := by
          split at hstart
          · exact ⟨by omega, by omega, fun q _ _ => by omega⟩
          · exact ⟨by omega, by omega, fun q _ _ => by omega⟩
        have hlow := fdNextZero_firstClear (fun k => fdp.loword (hi + k)) start 32 hs.1
        rw [show ndloslots 32 * 32 = 32 from rfl] at hlow
        rw [show NDENTRIES = 32 from rfl] at h
        -- What the low map says of the descriptors of word `hi`.
        have hused (b q : Nat) (hb : ∀ j, start ≤ j → j < b → mapBit (fun k => fdp.loword (hi + k)) j = true)
            (hb32 : b ≤ 32) (hq : i ≤ q) (hqb : q < hi * 32 + b) (hql : q < last) : fdp.isused q = true := by
          by_cases hqh : q < hi * 32
          · exact hbefore q hq hqh
          have hbit := hb (q - hi * 32) (hs.2.2 q hq (by omega)) (by omega)
          rw [loword_shift fdp hi _ (by omega) (by omega)] at hbit
          rwa [show hi * 32 + (q - hi * 32) = q by omega] at hbit
        generalize fdNextZero (fun k => fdp.loword (hi + k)) start 32 = rl at h hlow
        cases rl with
        | none =>
          obtain ⟨hfree, hwant⟩ := ih ((hi + 1) * 32) h
          rw [show max ((hi + 1) * 32) fdp.freefile = (hi + 1) * 32 by omega] at hfree
          refine ⟨hfree.skip (by omega) fun q hq hqh hql => hused 32 q hlow (le_refl _) hq (by omega) hql, ?_⟩
          intro p hp
          have := hwant p hp
          omega
        | some j =>
          obtain ⟨hsj, hj, hclear, hbelow⟩ := hlow
          dsimp only at h
          split at h
          case isTrue hlast' =>
            cases h
            exact ⟨fun q hq hql => hused j q hbelow (by omega) hq (by omega) hql, by simp⟩
          case isFalse hlast' =>
            cases h
            rw [loword_shift fdp hi j (by omega) hj] at hclear
            refine ⟨⟨by omega, by omega, by rwa [add_comm], fun q hq hqj => ?_⟩, by simp⟩
            exact hused j q hbelow (by omega) hq (by omega) (by omega)
    · rw [fdNextZero, if_pos (by omega)] at h
      cases h
      exact ⟨fun q hq hql => by omega, by simp⟩

theorem fdSearch_isSome (fdp : Filedesc) (last n want : Nat) (hn : 0 < n) (h : (last + 31) / 32 + 1 < n + want / 32) :
    (fdSearch fdp last n want).isSome = true := by
  induction n generalizing want with
  | zero => omega
  | succ n ih =>
    rw [fdSearch]
    generalize hi : (if want < fdp.freefile then fdp.freefile else want) = i
    have hwi : want ≤ i := by split at hi <;> omega
    by_cases hoff : i / 32 ≤ (last + 31) / 32
    · have hhi := fdNextZero_firstClear fdp.himap (i / 32) ((last + 31) / 32) hoff
      generalize fdNextZero fdp.himap (i / 32) ((last + 31) / 32) = rh at hhi ⊢
      cases rh with
      | none => rfl
      | some hi =>
        have hle := hhi.1
        dsimp only
        split
        · exact ih _ (by omega) (by omega)
        · split <;> rfl
    · rw [fdNextZero, if_pos (by omega)]
      rfl

theorem word_empty {bitmap : Nat → Word} {k : Nat} (h : bitmap k = 0) (q : Nat) (hq : k * 32 ≤ q) (hqk : q < (k + 1) * 32) :
    mapBit bitmap q = false := by
  rw [mapBit, show q / 32 = k by omega, h]
  exact BitVec.getLsbD_zero

theorem lastWord_none (bitmap : Nat → Word) (n : Nat) (h : lastWord bitmap n = none) (q : Nat) (hq : q < n * 32) : mapBit bitmap q = false := by
  induction n with
  | zero => omega
  | succ n ih =>
    rw [lastWord] at h
    split at h
    · cases h
    case isFalse hz =>
      by_cases hqn : q < n * 32
      · exact ih h hqn
      · exact word_empty (not_not.1 hz) q (by omega) hq

theorem lastWord_some (bitmap : Nat → Word) (n off : Nat) (h : lastWord bitmap n = some off) :
    off < n ∧ bitmap off ≠ 0 ∧ ∀ q, (off + 1) * 32 ≤ q → q < n * 32 → mapBit bitmap q = false := by
  induction n with
  | zero => cases h
  | succ n ih =>
    rw [lastWord] at h
    split at h
    case isTrue hz =>
      cases h
      exact ⟨by omega, hz, fun q hq hqn => by omega⟩
    case isFalse hz =>
      obtain ⟨hlt, hne, hclear⟩ := ih h
      refine ⟨by omega, hne, fun q hq hqn => ?_⟩
      by_cases hqn' : q < n * 32
      · exact hclear q hq hqn'
      · exact word_empty (not_not.1 hz) q (by omega) hqn

theorem lastAllocated_spec (ff : Nat → Option Fdfile) (i : Nat) : lastAllocated ff i ≤ i ∧
      (lastAllocated ff i = 0 ∨ (ff (lastAllocated ff i)).any Fdfile.allocated = true) ∧
      ∀ q, lastAllocated ff i < q → q ≤ i → (ff q).any Fdfile.allocated = false := by
  induction i with
  | zero => exact ⟨le_refl _, .inl rfl, fun q hq hqi => absurd hq (by omega)⟩
  | succ i ih =>
    rw [lastAllocated]
    split
    case isTrue h => exact ⟨le_refl _, .inr h, fun q hq hqi => absurd hq (by omega)⟩
    case isFalse h =>
      obtain ⟨hle, halloc, habove⟩ := ih
      refine ⟨by omega, halloc, fun q hq hqi => ?_⟩
      obtain rfl | hlt : q = i + 1 ∨ q ≤ i := by omega
      · simpa using h
      · exact habove q hq hlt

/-- `last` is the highest descriptor in use, or -1. -/
def LastUsed (fdp : Filedesc) (last : Int) : Prop :=
  (∀ q, fdp.isused q = true → (q : Int) ≤ last) ∧ (last = -1 ∨ ∃ p : Nat, last = p ∧ fdp.isused p = true)

theorem fdLastSet_lastUsed {fdp : Filedesc} {last : Nat}
    (hff : ∀ q, fdp.isused q = (fdp.ff q).any Fdfile.allocated) (hlast : ∀ q, fdp.isused q = true → q < last) :
    LastUsed fdp (fdLastSet fdp last) := by
  unfold fdLastSet
  split
  case h_1 hnone =>
    refine ⟨fun q hq => ?_, .inl rfl⟩
    have hlt := hlast q hq
    rw [Filedesc.isused, lastWord_none _ _ hnone q (by omega)] at hq
    cases hq
  case h_2 off hsome =>
    obtain ⟨hoff, hne, hclear⟩ := lastWord_some _ _ _ hsome
    -- A descriptor of this word is in use, so the search stops before it is below the word.
    obtain ⟨k, hk, -, hbit, -⟩ := ffs_of_ne_zero hne
    have hused : fdp.isused (off * 32 + k) = true := by rw [Filedesc.isused, mapBit_word off hk, hbit]
    generalize hi : min ((off + 1) * 32 - 1) (last - 1) = i
    obtain ⟨hle, halloc, habove⟩ := lastAllocated_spec fdp.ff i
    generalize lastAllocated fdp.ff i = p at hle halloc habove
    have hmax (q : Nat) (hq : fdp.isused q = true) : q ≤ p := by
      have hql := hlast q hq
      by_contra hqp
      by_cases hqi : q ≤ i
      · rw [hff q, habove q (by omega) hqi] at hq
        cases hq
      · rw [Filedesc.isused, hclear q (by omega) (by omega)] at hq
        cases hq
    refine ⟨fun q hq => by exact_mod_cast hmax q hq, .inr ⟨p, rfl, ?_⟩⟩
    obtain rfl | halloc := halloc
    · have hz := hmax _ hused
      rwa [show off * 32 + k = 0 by omega] at hused
    · rwa [hff p]

end NetBSD.Kern.Descrip
