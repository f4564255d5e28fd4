import NetBSD.Kern.SubrExtent.Extent

/-! Regions put into the list and taken out of it.

`Sorted ex`: the regions are in order inside the extent, with a gap between any two where they
are coalesced. A region that `Fits` at a place is inserted there (`inserted`), and a range is freed
when it lies in one region (`freeRegion_eq`). -/
namespace NetBSD.Kern.SubrExtent
open List
open Lib

theorem ulong_eq {x : Nat} (h : x < 2 ^ 64) : ulong x = x := Nat.mod_eq_of_lt h

theorem ulong_lt (x : Nat) : ulong x < 2 ^ 64 := Nat.mod_lt _ (by decide)

theorem sub_eq {x y : Nat} (h : y ≤ x) (hx : x < 2 ^ 64) : sub x y = x - y := by
  unfold sub ulong
  rw [show x + (2 ^ 64 - y) = x - y + 2 ^ 64 by omega, Nat.add_mod_right]
  exact Nat.mod_eq_of_lt (by omega)

/-- How far a region begins behind the end of the one before. -/
def Extent.gap (ex : Extent) : Nat := if ex.nocoalesce then 1 else 2

structure Sorted (ex : Extent) : Prop where
  end_lt : ex.exEnd < 2 ^ 64
  chain : Chain ex.gap ex.exEnd ex.exStart ex.regions

/-- There is room for `size` numbers at the place. -/
structure Fits (ex : Extent) (size : Nat) (p : Place) : Prop where
  regions : p.before.reverse ++ p.behind = ex.regions
  size_pos : 0 < size
  start_le : ex.exStart ≤ p.start
  le_end : p.start + (size - 1) ≤ ex.exEnd
  before : ∀ r ∈ p.before.head?, r.last < p.start
  behind : ∀ r ∈ p.behind.head?, p.start + size ≤ r.first

/-- The numbers of a region that was inserted. -/
def added (start size : Nat) : Interval := ⟨start, start + (size - 1)⟩

/-! ### Insertion -/

/-- The list holds the old numbers and the new ones, and keeps its gaps. -/
structure Inserted (d hi lo start size : Nat) (old new : List Interval) : Prop where
  chain : Chain d hi lo new
  covered : ∀ a, Covered new a ↔ Covered old a ∨ (added start size).Mem a

section
variable {d hi lo start size : Nat} {nocoalesce : Bool} {l : List Interval} {after : Interval}

theorem mem_def {r : Interval} {a : Nat} : r.Mem a ↔ r.first ≤ a ∧ a ≤ r.last := Iff.rfl

section
variable (hd : d = if nocoalesce then 1 else 2) (hhi : hi < 2 ^ 64) (hsize : 0 < size) (hend : start + (size - 1) ≤ hi)
  (hfit : ∀ r ∈ l.head?, start + size ≤ r.first)
include hd hhi hsize hend hfit

theorem insertHead_inserted (hl : Chain d hi lo l) (hlo : lo ≤ start) :
    Inserted d hi lo start size l (insertHead nocoalesce start size (added start size) l) := by
  cases l with
  | nil => exact ⟨⟨hlo, Nat.le_add_right _ _, hend, trivial⟩, fun a => by simp [insertHead]⟩
  | cons next rest =>
    obtain ⟨hnlo, hn, hnhi, hrest⟩ := hl
    have hbefore : start + size ≤ next.first := hfit next rfl
    have hw : ulong (start + size) = start + size := ulong_eq (by omega)
    rw [insertHead, hw]
    split
    case isTrue hc =>
      refine ⟨⟨hlo, show start ≤ next.last by omega, hnhi, hrest⟩, fun a => ?_⟩
      simp only [covered_cons, mem_def, added]
      by_cases hr : Covered rest a
      · simp [hr]
      · simp only [hr, or_false]
        omega
    case isFalse hc =>
      have hgap : start + (size - 1) + d ≤ next.first := by
        by_cases hn : nocoalesce = false
        · have hne : start + size ≠ next.first := fun heq => hc ⟨hn, heq⟩
          simp only [hn, Bool.false_eq_true, if_false] at hd
          omega
        · simp only [hn, if_true] at hd
          omega
      exact ⟨⟨hlo, Nat.le_add_right _ _, hend, hgap, hn, hnhi, hrest⟩, fun a => by simp [or_comm]⟩

omit hd hhi hsize hend hfit in
theorem insertAfter_apart {rp : Interval} (h : nocoalesce = true ∨ ulong (after.last + 1) ≠ start) :
    insertAfter nocoalesce start size rp after l = after :: insertHead nocoalesce start size rp l := by
  cases nocoalesce with
  | true => cases l <;> rfl
  | false =>
    have hne : ulong (after.last + 1) ≠ start := h.resolve_left (by decide)
    cases l with
    | nil => simp [insertAfter, insertHead, hne]
    | cons next rest => 
      simp only [insertAfter, insertHead, hne, decide_false, Bool.false_eq_true, if_false, true_and]
      split <;> rfl

omit hd hhi hsize hend hfit in
theorem insertAfter_append {rp : Interval} (h : ulong (after.last + 1) = start) (hle : after.first ≤ start) :
    insertAfter false start size rp after l = insertHead false after.first (start - after.first + size) ⟨after.first, rp.last⟩ l := by
  have hsum : after.first + (start - after.first + size) = start + size := by omega
  cases l with
  | nil => simp [insertAfter, insertHead, h]
  | cons next rest =>
    simp only [insertAfter, insertHead, h, decide_true, if_true, hsum, true_and, Bool.false_eq_true, if_false]

theorem insertAfter_inserted (hl : Chain d hi lo (after :: l)) (hafter : after.last < start) :
    Inserted d hi lo start size (after :: l) (insertAfter nocoalesce start size (added start size) after l) := by
  obtain ⟨halo, ha, hahi, hrest⟩ := hl
  have hw : ulong (after.last + 1) = after.last + 1 := ulong_eq (by omega)
  by_cases happ : nocoalesce = false ∧ after.last + 1 = start
  · obtain ⟨rfl, rfl⟩ := happ
    rw [insertAfter_append hw (by omega)]
    -- The grown region takes the place of the one before, as if it were new.
    have hgrown : (⟨after.first, (added (after.last + 1) size).last⟩ : Interval) = added after.first (after.last + 1 - after.first + size) := by
      simp only [added, Interval.mk.injEq, true_and]
      omega
    rw [hgrown]
    obtain ⟨hchain, hcov⟩ := @insertHead_inserted _ _ lo after.first
      (after.last + 1 - after.first + size) false l hd hhi (by omega) (by omega)
      (fun r hr => by have := hfit r hr; omega) (hrest.from fun r hr => by have := hfit r hr; omega) halo
    refine ⟨hchain, fun a => ?_⟩
    rw [hcov, covered_cons, mem_def, mem_def, mem_def]
    simp only [added]
    by_cases hr : Covered l a
    · simp [hr]
    · simp only [hr, or_false, false_or]
      omega
  · have hne : nocoalesce = true ∨ ulong (after.last + 1) ≠ start := by
      rw [hw]
      cases nocoalesce with
      | true => exact .inl rfl
      | false => exact .inr fun heq => happ ⟨rfl, heq⟩
    have hlo : after.last + d ≤ start := by
      obtain rfl | hne := hne
      · simp only [if_true] at hd
        omega
      · split at hd <;> omega
    rw [insertAfter_apart hne]
    obtain ⟨hchain, hcov⟩ := insertHead_inserted hd hhi hsize hend hfit hrest hlo
    exact ⟨⟨halo, ha, hahi, hchain⟩, fun a => by rw [covered_cons, hcov, covered_cons, or_assoc]⟩

end

end

section
variable {ex : Extent} {size : Nat} {p : Place}

theorem inserted (h : Sorted ex) (hf : Fits ex size p) :
    Inserted ex.gap ex.exEnd ex.exStart p.start size ex.regions (extentInsertAndOptimize ex.nocoalesce size p) := by
  have hchain := h.chain
  have hsize := hf.size_pos
  have hle := hf.le_end
  have hhi := h.end_lt
  have hrp : (⟨p.start, ulong (p.start + (size - 1))⟩ : Interval) = added p.start size := by
    rw [ulong_eq (by omega)]
    rfl
  unfold extentInsertAndOptimize
  rw [hrp, ← hf.regions]
  rw [← hf.regions] at hchain
  match hb : p.before with
  | [] =>
    rw [hb] at hchain
    exact insertHead_inserted rfl hhi hsize hle hf.behind hchain hf.start_le
  | after :: before =>
    rw [hb, reverse_cons, append_assoc, chain_append] at hchain
    have hafter : after.last < p.start := hf.before after (by rw [hb]; rfl)
    obtain ⟨hnew, hcov⟩ := insertAfter_inserted rfl hhi hsize hle hf.behind hchain.2 hafter
    refine ⟨chain_append.2 ⟨hchain.1, hnew⟩, fun a => ?_⟩
    rw [covered_append, hcov, reverse_cons, append_assoc, covered_append, or_assoc]
    rfl

theorem Fits.free (hf : Fits ex size p) (h : Sorted ex) {a : Nat} (ha : (added p.start size).Mem a) : ¬Covered ex.regions a := by
  have hchain := h.chain
  have hsize := hf.size_pos
  rw [← hf.regions] at hchain ⊢
  rw [chain_append] at hchain
  rw [covered_append]
  intro hc
  obtain hc | hc := hc
  · match hb : p.before with
    | [] => simp [hb] at hc
    | after :: before =>
      have hafter : after.last < p.start := hf.before after (by rw [hb]; rfl)
      rw [hb, reverse_cons] at hchain hc
      have := hchain.1.le_last hc
      have := ha.1
      simp only [added] at this
      omega
  match hb : p.behind with
  | [] => simp [hb] at hc
  | next :: rest =>
    have hnext : p.start + size ≤ next.first := hf.behind next (by rw [hb]; rfl)
    rw [hb] at hchain hc
    have hlo := (hchain.2.from (fun r hr => by cases hr; exact le_refl _)).lo_le hc
    have := ha.2
    simp only [added] at this
    omega

end

/-! ### Freeing -/

/-- The range lies in a region; without coalescing it is a region. -/
def Freeable (coalesce : Bool) (start last : Nat) (l : List Interval) : Prop :=
  ∃ r ∈ l, if coalesce then r.first ≤ start ∧ last ≤ r.last else r.first = start ∧ r.last = last

section
variable {coalesce : Bool} {d hi lo start last : Nat} {rp : Interval} {l l' : List Interval}

theorem freeable_cons : Freeable coalesce start last (rp :: l) ↔
    (if coalesce then rp.first ≤ start ∧ last ≤ rp.last else rp.first = start ∧ rp.last = last) ∨ Freeable coalesce start last l := by
  simp [Freeable]

/-- A list with the range taken out. -/
structure Freed (d hi lo start last : Nat) (old new : List Interval) : Prop where
  chain : Chain d hi lo new
  covered : ∀ a, Covered new a ↔ Covered old a ∧ ¬(start ≤ a ∧ a ≤ last)

theorem Freed.cons (h : Freed d hi (rp.last + d) start last l l') (hl : Chain d hi lo (rp :: l))
    (hrp : rp.last < start ∨ last < rp.first) : Freed d hi lo start last (rp :: l) (rp :: l') := by
  refine ⟨⟨hl.1, hl.2.1, hl.2.2.1, h.chain⟩, fun a => ?_⟩
  rw [covered_cons, covered_cons, h.covered, mem_def]
  by_cases hc : Covered l a
  · simp only [hc, or_true, true_and]
    omega
  · simp only [hc, or_false, false_and]
    omega

theorem not_freeable (hl : Chain d hi lo l) (h : start < lo) : ¬Freeable coalesce start last l := by
  rintro ⟨r, hr, hin⟩
  have := (hl.mem hr).1
  split at hin <;> omega

theorem freeRegion_tail (hrp : ¬if coalesce then rp.first ≤ start ∧ last ≤ rp.last else rp.first = start ∧ rp.last = last)
    (hl : Chain d hi lo (rp :: l)) (hap : Freeable coalesce start last l → rp.last < start)
    (ih : (Freeable coalesce start last l ∧ ∃ l', freeRegion coalesce start last l = some l' ∧ Freed d hi (rp.last + d) start last l l') ∨
      (¬Freeable coalesce start last l ∧ freeRegion coalesce start last l = none)) :
    (Freeable coalesce start last (rp :: l) ∧
        ∃ l', (freeRegion coalesce start last l).map (rp :: ·) = some l' ∧ Freed d hi lo start last (rp :: l) l') ∨
      (¬Freeable coalesce start last (rp :: l) ∧ (freeRegion coalesce start last l).map (rp :: ·) = none) := by
  rw [freeable_cons, or_iff_right hrp]
  obtain ⟨hf, l', heq, hfreed⟩ | ⟨hf, heq⟩ := ih
  · rw [heq]
    exact .inl ⟨hf, _, rfl, hfreed.cons hl (.inl (hap hf))⟩
  · rw [heq]
    exact .inr ⟨hf, rfl⟩

theorem freed_head {parts : List Interval} (hl : Chain d hi lo (rp :: l)) (hd : 0 < d) (hlast : last ≤ rp.last)
    (hchain : Chain d hi lo (parts ++ l))
    (hparts : ∀ a, Covered parts a ↔ rp.Mem a ∧ ¬(start ≤ a ∧ a ≤ last)) : Freed d hi lo start last (rp :: l) (parts ++ l) := by
  refine ⟨hchain, fun a => ?_⟩
  rw [covered_append, covered_cons, hparts]
  by_cases hc : Covered l a
  · have := hl.2.2.2.lo_le hc
    simp only [hc, or_true, true_and, true_iff]
    omega
  · simp [hc, or_false]

/-- A range is freed if and only if it lies in one region, and then exactly it is. -/
theorem freeRegion_eq (hd : d = if coalesce then 2 else 1) (hle : start ≤ last) (hl : Chain d hi lo l) :
    (Freeable coalesce start last l ∧ ∃ l', freeRegion coalesce start last l = some l' ∧ Freed d hi lo start last l l') ∨
    (¬Freeable coalesce start last l ∧ freeRegion coalesce start last l = none) := by
  have hpos : 0 < d := by split at hd <;> omega
  induction l generalizing lo with
  | nil => exact .inr ⟨by simp [Freeable], rfl⟩
  | cons rp rest ih =>
    have hl' := hl
    obtain ⟨hlo, hrp, hhi, hrest⟩ := hl'
    rw [freeRegion]
    split
    · -- The region ends before the range.
      exact freeRegion_tail (by split <;> omega) hl (fun _ => by omega) (ih hrest)
    split
    · -- It begins behind it, and so do the others.
      refine .inr ⟨?_, rfl⟩
      rw [freeable_cons]
      rintro (h | h)
      · split at h <;> omega
      · exact not_freeable hrest (by omega) h
    have hbehind : Freeable coalesce start last rest → rp.last < start :=
      fun h => absurd h (not_freeable hrest (by omega))
    split
    case isTrue hcase =>
      refine .inl ⟨freeable_cons.2 (.inl (by split <;> omega)), rest, rfl, ?_⟩
      refine @freed_head _ _ _ _ _ _ _ [] hl hpos (by omega) (hrest.from fun r hr => ?_) fun a => ?_
      · have := (hrest.mem (mem_of_mem_head? hr)).1
        omega
      · simp only [covered_nil, mem_def, false_iff]
        omega
    case isFalse hcase =>
      split
      case isTrue hc =>
        have hc : coalesce = false := by simpa using hc
        subst hc
        exact freeRegion_tail (by simp only [Bool.false_eq_true, if_false]; omega) hl hbehind (ih hrest)
      case isFalse hc =>
        have hc : coalesce = true := by simpa using hc
        subst hc
        simp only [if_true] at hd
        subst hd
        split
        · refine .inl ⟨freeable_cons.2 (.inl (by simp only [if_true]; omega)), _, rfl, ?_⟩
          refine @freed_head _ _ _ _ _ _ _ [{ rp with first := last + 1 }] hl hpos (by omega)
            ⟨?_, ?_, hhi, hrest⟩ fun a => ?_
          · show lo ≤ last + 1
            omega
          · show last + 1 ≤ rp.last
            omega
          · simp only [covered_cons, covered_nil, mem_def, or_false]
            omega
        split
        · refine .inl ⟨freeable_cons.2 (.inl (by simp only [if_true]; omega)), _, rfl, ?_⟩
          refine @freed_head _ _ _ _ _ _ _ [{ rp with last := start - 1 }] hl hpos (by omega)
            ⟨hlo, ?_, ?_, hrest.from fun r hr => ?_⟩ fun a => ?_
          · show rp.first ≤ start - 1
            omega
          · show start - 1 ≤ hi
            omega
          · have := (hrest.mem (mem_of_mem_head? hr)).1
            show start - 1 + 2 ≤ r.first
            omega
          · simp only [covered_cons, covered_nil, mem_def, or_false]
            omega
        split
        · refine .inl ⟨freeable_cons.2 (.inl (by simp only [if_true]; omega)), _, rfl, ?_⟩
          refine @freed_head _ _ _ _ _ _ _ [{ rp with last := start - 1 }, ⟨last + 1, rp.last⟩] hl hpos (by omega)
            ⟨hlo, ?_, ?_, ?_, ?_, hhi, hrest⟩ fun a => ?_
          · show rp.first ≤ start - 1
            omega
          · show start - 1 ≤ hi
            omega
          · show start - 1 + 2 ≤ last + 1
            omega
          · show last + 1 ≤ rp.last
            omega
          · simp only [covered_cons, covered_nil, mem_def, or_false]
            omega
        · exact freeRegion_tail (by simp only [if_true]; omega) hl hbehind (ih hrest)

end

end NetBSD.Kern.SubrExtent
