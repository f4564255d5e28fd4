import NetBSD.Kern.SysvSem.Atomic
import NetBSD.Lib.Layout

/-! The semaphores of one set stay apart from those of the others.

`Slices` says how the sets divide the array among them. `createSet` puts a set behind all
others, `removeSet` closes the gap and `reallocEnd` lays them out anew in the order of their
slots (`Lib/Layout.lean`); nothing else moves a set. -/
namespace NetBSD.Kern.SysvSem
open List Function Nat Option
open Lib

/-- Semaphores of the set in a slot, if there is one. -/
def State.size (st : State) (i : Nat) : Nat := if (st.sema i).alloc then (st.sema i).semNsems else 0

/-- The semaphore at `k` belongs to the set in slot `i`. -/
def State.Owns (st : State) (i k : Nat) : Prop :=
  (st.sema i).alloc = true ∧ (st.sema i).semBase ≤ k ∧ k < (st.sema i).semBase + (st.sema i).semNsems

/-- The sets divide the first `semtot` semaphores among them. -/
structure Slices (st : State) : Prop where
  lt : ∀ i, (st.sema i).alloc = true → i < st.semmni
  pos : ∀ i, (st.sema i).alloc = true → 0 < (st.sema i).semNsems
  top : ∀ i k, st.Owns i k → k < st.semtot
  disjoint : ∀ i j k, st.Owns i k → st.Owns j k → i = j
  cover : ∀ k < st.semtot, ∃ i, st.Owns i k
  total : Layout.offset st.size st.semmni = st.semtot

/-- The sets, and where they are, are the same. -/
structure SameSets (st st' : State) : Prop where
  sema : st'.sema = st.sema
  semmni : st'.semmni = st.semmni
  semtot : st'.semtot = st.semtot

section Slices
variable {st st' : State}

theorem SameSets.refl (st : State) : SameSets st st := ⟨rfl, rfl, rfl⟩

theorem SameSets.owns (h : SameSets st st') (i k : Nat) : st'.Owns i k ↔ st.Owns i k := by
  rw [State.Owns, h.sema, State.Owns]

theorem SameSets.size (h : SameSets st st') : st'.size = st.size := by
  funext i
  rw [State.size, h.sema, State.size]

theorem Slices.congr (hs : Slices st) (h : SameSets st st') : Slices st' where
  lt i hi := by
    rw [h.sema] at hi
    rw [h.semmni]
    exact hs.lt i hi
  pos i hi := by
    rw [h.sema] at hi ⊢
    exact hs.pos i hi
  top i k hk := by
    rw [h.semtot]
    exact hs.top i k ((h.owns i k).mp hk)
  disjoint i j k hi hj := hs.disjoint i j k ((h.owns i k).mp hi) ((h.owns j k).mp hj)
  cover k hk := by
    rw [h.semtot] at hk
    obtain ⟨i, hi⟩ := hs.cover k hk
    exact ⟨i, (h.owns i k).mpr hi⟩
  total := by rw [h.size, h.semmni, h.semtot, hs.total]

section
variable (hs : Slices st) {i : Nat} (hi : (st.sema i).alloc = true)
include hs hi

theorem Slices.first : st.Owns i (st.sema i).semBase :=
  ⟨hi, le_refl _, Nat.lt_add_of_pos_right (hs.pos i hi)⟩

theorem Slices.last : st.Owns i ((st.sema i).semBase + (st.sema i).semNsems - 1) := by
  have hpos := hs.pos i hi
  exact ⟨hi, by omega, by omega⟩

end

theorem Slices.above (hs : Slices st) {i j : Nat} (hi : (st.sema i).alloc = true) (hj : (st.sema j).alloc = true)
    (hne : i ≠ j) (hlt : (st.sema i).semBase ≤ (st.sema j).semBase) :
    (st.sema i).semBase + (st.sema i).semNsems ≤ (st.sema j).semBase := by
  by_contra hgt
  exact hne (hs.disjoint i j _ ⟨hi, hlt, not_le.mp hgt⟩ (hs.first hj))

theorem createSet_owns {ix : Nat} (key : Int) (n i k : Nat) : (st.createSet ix key n).Owns i k ↔
    if i = ix then st.semtot ≤ k ∧ k < st.semtot + n else st.Owns i k := by
  unfold State.Owns
  rw [createSet_sema]
  by_cases hi : i = ix
  · simp [hi]
  · simp [hi]

theorem Slices.createSet (hs : Slices st) {ix n : Nat} (key : Int) (hix : ix < st.semmni) (hfree : (st.sema ix).alloc = false)
    (hn : 0 < n) : Slices (st.createSet ix key n) where
  lt i hi := by
    rw [createSet_sema] at hi
    split at hi
    · next heq => exact heq ▸ hix
    · exact hs.lt i hi
  pos i hi := by
    rw [createSet_sema] at hi ⊢
    split at hi
    · next heq =>
      rw [if_pos heq]
      exact hn
    · next heq =>
      rw [if_neg heq]
      exact hs.pos i hi
  top i k hk := by
    rw [createSet_owns] at hk
    split at hk
    · exact hk.2
    · exact Nat.lt_add_right n (hs.top i k hk)
  disjoint i j k hi hj := by
    rw [createSet_owns] at hi hj
    split at hi <;> split at hj
    · next h1 h2 => rw [h1, h2]
    · have := hs.top j k hj
      omega
    · have := hs.top i k hi
      omega
    · exact hs.disjoint i j k hi hj
  cover k hk := by
    have hk' : k < st.semtot + n := hk
    by_cases hold : k < st.semtot
    · obtain ⟨i, hi⟩ := hs.cover k hold
      have hne : i ≠ ix := by
        rintro rfl
        rw [hi.1] at hfree
        exact absurd hfree (by decide)
      refine ⟨i, ?_⟩
      rw [createSet_owns, if_neg hne]
      exact hi
    · refine ⟨ix, ?_⟩
      rw [createSet_owns, if_pos rfl]
      exact ⟨not_lt.mp hold, hk'⟩
  total := by
    have hsize : (st.createSet ix key n).size = update st.size ix n := by
      funext i
      rw [State.size, createSet_sema]
      by_cases hi : i = ix
      · subst hi
        rw [if_pos rfl, update_self]
        rfl
      · rw [if_neg hi, update_of_ne hi]
        rfl
    have hzero : st.size ix = 0 := by simp [State.size, hfree]
    have hsum := @Layout.offset_update st.size ix st.semmni n hix
    rw [hzero, hs.total] at hsum
    rw [hsize]
    exact hsum

theorem removeSet_alloc (ix i : Nat) : ((st.removeSet ix).sema i).alloc = true ↔ i ≠ ix ∧ (st.sema i).alloc = true := by
  simp only [State.removeSet, State.cvBroadcast]
  by_cases hi : i = ix
  · simp [hi]
  · simp only [hi, if_false, ne_eq, not_false_eq_true, true_and]
    split <;> rfl

theorem removeSet_nsems (ix i : Nat) : ((st.removeSet ix).sema i).semNsems = (st.sema i).semNsems ∧
    ((st.removeSet ix).sema i).seq = (st.sema i).seq ∧ ((st.removeSet ix).sema i).key = (st.sema i).key := by
  simp only [State.removeSet, State.cvBroadcast]
  split_ifs <;> exact ⟨rfl, rfl, rfl⟩

section
variable (hs : Slices st)
include hs

theorem removeSet_base {ix i : Nat} (hi : (st.sema i).alloc = true) (hne : i ≠ ix) : ((st.removeSet ix).sema i).semBase = (st.sema i).semBase -
      if (st.sema ix).semBase < (st.sema i).semBase then (st.sema ix).semNsems else 0 := by
  simp only [State.removeSet, State.cvBroadcast, hne, if_false, hs.lt i hi, hi, true_and, gt_iff_lt]
  split <;> simp

theorem removeSet_owns {ix i k : Nat} (hix : (st.sema ix).alloc = true) :
    (st.removeSet ix).Owns i k ↔ i ≠ ix ∧ st.Owns i (if (st.sema ix).semBase ≤ k then k + (st.sema ix).semNsems else k) := by
  unfold State.Owns
  rw [removeSet_alloc, (removeSet_nsems ix i).1]
  constructor
  · rintro ⟨⟨hne, hi⟩, h1, h2⟩
    rw [removeSet_base hs hi hne] at h1 h2
    refine ⟨hne, hi, ?_⟩
    by_cases hlt : (st.sema ix).semBase < (st.sema i).semBase
    · have := hs.above hix hi (Ne.symm hne) hlt.le
      rw [if_pos hlt] at h1 h2
      rw [if_pos (by omega)]
      omega
    have := hs.above hi hix hne (not_lt.mp hlt)
    rw [if_neg hlt] at h1 h2
    rw [if_neg (by omega)]
    omega
  · rintro ⟨hne, hi, h1, h2⟩
    refine ⟨⟨hne, hi⟩, ?_⟩
    rw [removeSet_base hs hi hne]
    by_cases hlt : (st.sema ix).semBase < (st.sema i).semBase
    · rw [if_pos hlt]
      split at h1 <;> rename_i hk <;> simp only [hk, if_true, if_false] at h2 <;> omega
    · rw [if_neg hlt]
      split at h1 <;> rename_i hk <;> simp only [hk, if_true, if_false] at h2 <;> omega

theorem Slices.removeSet {ix : Nat} (hix : (st.sema ix).alloc = true) : Slices (st.removeSet ix) := by
  have htop := hs.top ix _ (hs.last hix)
  have hsemtot : (st.removeSet ix).semtot = st.semtot - (st.sema ix).semNsems := rfl
  refine ⟨fun i hi => hs.lt i ((removeSet_alloc ix i).mp hi).2, fun i hi => ?_, fun i k hk => ?_, fun i j k hi hj => ?_,
    fun k hk => ?_, ?_⟩
  · rw [(removeSet_nsems ix i).1]
    exact hs.pos i ((removeSet_alloc ix i).mp hi).2
  · obtain ⟨hne, hown⟩ := (removeSet_owns hs hix).mp hk
    have := hs.top i _ hown
    split at this <;> omega
  · exact hs.disjoint i j _ ((removeSet_owns hs hix).mp hi).2 ((removeSet_owns hs hix).mp hj).2
  · obtain ⟨i, hi⟩ := hs.cover (if (st.sema ix).semBase ≤ k then k + (st.sema ix).semNsems else k) (by split <;> omega)
    refine ⟨i, (removeSet_owns hs hix).mpr ⟨?_, hi⟩⟩
    rintro rfl
    obtain ⟨-, h1, h2⟩ := hi
    split at h1 <;> rename_i hk <;> simp only [hk, if_true, if_false] at h2 <;> omega
  have hsize : (st.removeSet ix).size = update st.size ix 0 := by
    funext i
    by_cases hi : i = ix
    · subst hi
      rw [update_self, State.size, if_neg (by rw [removeSet_alloc]; simp)]
    rw [update_of_ne hi, State.size, State.size, (removeSet_nsems ix i).1]
    by_cases ha : (st.sema i).alloc = true
    · rw [if_pos ((removeSet_alloc ix i).mpr ⟨hi, ha⟩), if_pos ha]
    · rw [if_neg (fun h => ha ((removeSet_alloc ix i).mp h).2), if_neg ha]
  have hown : st.size ix = (st.sema ix).semNsems := if_pos hix
  have hsum := @Layout.offset_update st.size ix st.semmni 0 (hs.lt ix hix)
  rw [hs.total] at hsum
  rw [hsize]
  show Layout.offset (update st.size ix 0) st.semmni = _
  omega

theorem removeSet_sem {ix i : Nat} (hix : (st.sema ix).alloc = true) (hi : (st.sema i).alloc = true)
    (hne : i ≠ ix) {o : Nat} (ho : o < (st.sema i).semNsems) :
    (st.removeSet ix).sem (((st.removeSet ix).sema i).semBase + o) = st.sem ((st.sema i).semBase + o) := by
  have htop := hs.top i _ (hs.last hi)
  have hsem (k : Nat) : (st.removeSet ix).sem k = if (st.sema ix).semBase ≤ k ∧ k < st.semtot - (st.sema ix).semNsems
      then st.sem (k + (st.sema ix).semNsems) else st.sem k := rfl
  rw [removeSet_base hs hi hne, hsem]
  by_cases hlt : (st.sema ix).semBase < (st.sema i).semBase
  · have := hs.above hix hi (Ne.symm hne) hlt.le
    rw [if_pos hlt, if_pos (by omega)]
    congr 1
    omega
  · have := hs.above hi hix hne (not_lt.mp hlt)
    rw [if_neg hlt, if_neg (by omega), Nat.sub_zero]

theorem le_lsemid {i : Nat} (hi : (st.sema i).alloc = true) : i ≤ st.lsemid := by
  have hfold : ∀ n, ∀ i < n, (st.sema i).alloc = true → i ≤ (List.range n).foldl (fun l i => if (st.sema i).alloc then i else l) 0 := by
    intro n
    induction n with
    | zero => exact fun i hi => absurd hi (Nat.not_lt_zero i)
    | succ n ih =>
      intro i hlt hi
      rw [range_succ, foldl_append, foldl_cons, foldl_nil]
      by_cases hn : (st.sema n).alloc = true
      · rw [if_pos hn]
        omega
      rw [if_neg hn]
      have hne : i ≠ n := by
        rintro rfl
        exact hn hi
      exact ih i (by omega) hi
  exact hfold st.semmni i (hs.lt i hi) hi

end

theorem copySets_spec (n : Nat) :
    ∃ sema sem, (List.range n).foldl st.copySet (0, fun _ => .zero, fun _ => .zero) = (Layout.offset st.size n, sema, sem) ∧
      (∀ i, sema i = if i < n ∧ (st.sema i).alloc = true then {st.sema i with semBase := Layout.offset st.size i} else .zero) ∧
      ∀ i < n, (st.sema i).alloc = true → ∀ o < (st.sema i).semNsems, sem (Layout.offset st.size i + o) = st.sem ((st.sema i).semBase + o) := by
  induction n with
  | zero => exact ⟨_, _, rfl, fun i => (if_neg fun h => absurd h.1 (Nat.not_lt_zero i)).symm, fun i hi => absurd hi (Nat.not_lt_zero i)⟩
  | succ n ih =>
    obtain ⟨sema, sem, heq, hsema, hsem⟩ := ih
    rw [range_succ, foldl_append, heq, foldl_cons]
    by_cases hn : (st.sema n).alloc = true
    · have hsize : st.size n = (st.sema n).semNsems := if_pos hn
      refine ⟨update sema n {st.sema n with semBase := Layout.offset st.size n},
        fun k => if Layout.offset st.size n ≤ k ∧ k < Layout.offset st.size n + (st.sema n).semNsems then
          st.sem ((st.sema n).semBase + (k - Layout.offset st.size n)) else sem k, ?_, fun i => ?_, fun i hi ha o ho => ?_⟩
      · rw [Layout.offset_succ, hsize]
        exact if_pos hn
      · by_cases hin : i = n
        · subst hin
          rw [update_self, if_pos ⟨lt_succ_self i, hn⟩]
        rw [update_of_ne hin, hsema]
        by_cases hlt : i < n ∧ (st.sema i).alloc = true
        · rw [if_pos hlt, if_pos ⟨lt_succ_of_lt hlt.1, hlt.2⟩]
        · rw [if_neg hlt, if_neg fun h => hlt ⟨by omega, h.2⟩]
      by_cases hin : i = n
      · subst hin
        refine (if_pos (by omega)).trans ?_
        congr 1
        omega
      have hlt : i < n := by omega
      have hend := @Layout.end_le_offset st.size i n hlt
      have hsize' : st.size i = (st.sema i).semNsems := if_pos ha
      exact (if_neg (by omega)).trans (hsem i hlt ha o ho)
    · have hsize : st.size n = 0 := if_neg hn
      refine ⟨sema, sem, ?_, fun i => ?_, fun i hi ha o ho => ?_⟩
      · rw [Layout.offset_succ, hsize]
        exact if_neg hn
      · rw [hsema]
        by_cases hlt : i < n ∧ (st.sema i).alloc = true
        · rw [if_pos hlt, if_pos ⟨lt_succ_of_lt hlt.1, hlt.2⟩]
        refine (if_neg hlt).trans (if_neg ?_).symm
        rintro ⟨h1, h2⟩
        have hne : i ≠ n := by
          rintro rfl
          exact hn h2
        exact hlt ⟨by omega, h2⟩
      · have hne : i ≠ n := by
          rintro rfl
          exact hn ha
        exact hsem i (by omega) ha o ho

theorem reallocEnd_cases (hs : Slices st) (mni mns mnu : Nat) : st.reallocEnd mni mns mnu = ({st with reallocator := none}, some .EBUSY) ∨
    ∃ st', st.reallocEnd mni mns mnu = (st', none) ∧ st.lsemid < mni ∧ st'.semmni = mni ∧ st'.semtot = st.semtot ∧
      st'.semuList = st.semuList.reverse ∧ st'.sleepers = st.sleepers ∧
      (∀ i, st'.sema i = if (st.sema i).alloc = true then {st.sema i with semBase := Layout.offset st.size i} else .zero) ∧
      ∀ i, (st.sema i).alloc = true → ∀ o < (st.sema i).semNsems, st'.sem (Layout.offset st.size i + o) = st.sem ((st.sema i).semBase + o) := by
  unfold State.reallocEnd
  split
  · exact .inl rfl
  · next hfit =>
    push Not at hfit
    obtain ⟨sema, sem, heq, hsema, hsem⟩ := @copySets_spec st (st.lsemid + 1)
    refine .inr ⟨{st with
      semmni := mni, semmns := mns, semmnu := mnu, sema := sema, sem := sem, semuList := st.semuList.reverse
      semReallocState := false, reallocator := none}, by rw [heq], hfit.1, rfl, rfl, rfl, rfl, fun i => ?_, fun i ha o ho => ?_⟩
    · refine (hsema i).trans ?_
      by_cases ha : (st.sema i).alloc = true
      · rw [if_pos ⟨lt_succ_of_le (le_lsemid hs ha), ha⟩, if_pos ha]
      · rw [if_neg fun h => ha h.2, if_neg ha]
    · exact hsem i (lt_succ_of_le (le_lsemid hs ha)) ha o ho

theorem Slices.realloc (hs : Slices st) {mni : Nat} (hmni : st.lsemid < mni) (hsemmni : st'.semmni = mni) (hsemtot : st'.semtot = st.semtot)
    (hsema : ∀ i, st'.sema i = if (st.sema i).alloc = true then {st.sema i with semBase := Layout.offset st.size i} else .zero) :
    Slices st' := by
  have halloc (i : Nat) : (st'.sema i).alloc = true ↔ (st.sema i).alloc = true := by
    rw [hsema]
    by_cases ha : (st.sema i).alloc = true
    · rw [if_pos ha]
    · rw [if_neg ha]
      exact iff_of_false (by decide) ha
  have howns (i k : Nat) : st'.Owns i k ↔ (st.sema i).alloc = true ∧ Layout.offset st.size i ≤ k ∧
      k < Layout.offset st.size i + st.size i := by
    unfold State.Owns State.size
    rw [halloc]
    refine and_congr_right fun ha => ?_
    rw [hsema, if_pos ha, if_pos ha]
    rfl
  have hsize : st'.size = st.size := by
    funext i
    unfold State.size
    by_cases ha : (st.sema i).alloc = true
    · rw [if_pos ((halloc i).mpr ha), if_pos ha, hsema, if_pos ha]
    · rw [if_neg fun h => ha ((halloc i).mp h), if_neg ha]
  have hempty (i : Nat) (hi : ¬(st.sema i).alloc = true) : st.size i = 0 := if_neg hi
  -- The slots above the last set count for nothing, in the old table and in the new one.
  have htotal (n : Nat) (hn : st.lsemid < n) : Layout.offset st.size n = st.semtot := by
    have hbeyond : ∀ i, st.lsemid + 1 ≤ i → st.size i = 0 := fun i hi => hempty i fun ha => by
      have := le_lsemid hs ha
      omega
    have hbeyond' : ∀ i, st.semmni ≤ i → st.size i = 0 := fun i hi => hempty i fun ha => by
      have := hs.lt i ha
      omega
    rw [Layout.offset_eq_of_empty hn hbeyond, ← hs.total]
    rcases le_total (st.lsemid + 1) st.semmni with hle | hle
    · exact (Layout.offset_eq_of_empty hle hbeyond).symm
    · exact Layout.offset_eq_of_empty hle hbeyond'
  refine ⟨fun i hi => ?_, fun i hi => ?_, fun i k hk => ?_, fun i j k hi hj => ?_, fun k hk => ?_, ?_⟩
  · have := le_lsemid hs ((halloc i).mp hi)
    omega
  · have ha := (halloc i).mp hi
    rw [hsema, if_pos ha]
    exact hs.pos i ha
  · obtain ⟨ha, -, h2⟩ := (howns i k).mp hk
    have hle := le_lsemid hs ha
    have hend := @Layout.end_le_offset st.size i (st.lsemid + 1) (by omega)
    rw [htotal _ (lt_succ_self _)] at hend
    omega
  · obtain ⟨-, hi1, hi2⟩ := (howns i k).mp hi
    obtain ⟨-, hj1, hj2⟩ := (howns j k).mp hj
    rcases lt_trichotomy i j with hlt | heq | hlt
    · have := @Layout.end_le_offset st.size i j hlt
      omega
    · exact heq
    · have := @Layout.end_le_offset st.size j i hlt
      omega
  · rw [hsemtot, ← htotal (st.lsemid + 1) (lt_succ_self _)] at hk
    obtain ⟨i, -, h1, h2⟩ := Layout.exists_piece hk
    refine ⟨i, (howns i k).mpr ⟨?_, h1, h2⟩⟩
    by_contra hn
    rw [hempty i hn] at h2
    omega
  · rw [hsize, hsemmni, hsemtot]
    exact htotal mni hmni

end Slices

section Frames
variable {st : State}

theorem undone_ne_zero {id id' num : Nat} {sops : List Sembuf} (h : undone id sops id' num ≠ 0) :
    id' = id ∧ ∃ sop ∈ sops, sop.semNum = num := by
  by_contra hnot
  refine h (sum_eq_zero fun x hx => ?_)
  obtain ⟨sop, hs, rfl⟩ := mem_map.mp hx
  refine if_neg fun hu => hnot ⟨hu.2.1, sop, hs, hu.2.2⟩

def SameCalls (st st' : State) : Prop := ∀ s ∈ st'.sleepers, ∃ s₀ ∈ st.sleepers, s₀.call = s.call

theorem sameCalls_map (f : Sleeper → Sleeper) (hf : ∀ s, (f s).call = s.call) (st' : State)
    (h : st'.sleepers = st.sleepers.map f) : SameCalls st st' := by
  intro s hs
  rw [h] at hs
  obtain ⟨s₀, hs₀, rfl⟩ := mem_map.mp hs
  exact ⟨s₀, hs₀, (hf s₀).symm⟩

theorem cvBroadcast_calls (ix : Nat) : SameCalls st (st.cvBroadcast ix) := by
  refine sameCalls_map _ (fun s => ?_) _ rfl
  split <;> rfl

theorem semopLoop_frame (hok : UndoOk st.semuList) (c : Call) (doUndos : Bool) : SameSets st (st.semopLoop c doUndos).1 ∧
    (∀ s ∈ (st.semopLoop c doUndos).1.sleepers, s.call = c ∨ ∃ s₀ ∈ st.sleepers, s₀.call = s.call) ∧
    ∀ q id num, semadj (st.semopLoop c doUndos).1.semuList q id num ≠ 0 → semadj st.semuList q id num ≠ 0 ∨
      ((st.semopLoop c doUndos).2 = .ok ∧ q = c.proc ∧ id = c.ix ∧ ∃ sop ∈ c.sops, sop.semNum = num) := by
  rcases semopLoop_cases hok c doUndos with ⟨before, sop, rest, p, -, -, heq | heq⟩ | ⟨l, e, hok', hsame, heq⟩ |
      ⟨p, l, -, -, hadj, heq⟩
  · rw [heq]
    exact ⟨.refl st, fun s hs => .inr ⟨s, hs, rfl⟩, fun q id num h => .inl h⟩
  · rw [heq]
    refine ⟨⟨rfl, rfl, rfl⟩, fun s hs => ?_, fun q id num h => .inl h⟩
    rcases mem_cons.mp hs with rfl | hs
    · exact .inl rfl
    · exact .inr ⟨s, hs, rfl⟩
  · rw [heq]
    refine ⟨⟨rfl, rfl, rfl⟩, fun s hs => .inr ⟨s, hs, rfl⟩, fun q id num h => .inl ?_⟩
    rw [← hsame.semadj hok']
    exact h
  rw [heq, semopDone_eq]
  refine ⟨⟨rfl, rfl, rfl⟩, fun s hs => .inr ?_, fun q id num h => ?_⟩
  · obtain ⟨s₀, hs₀, rfl⟩ := mem_map.mp hs
    refine ⟨s₀, hs₀, ?_⟩
    split <;> rfl
  by_cases hold : semadj st.semuList q id num = 0
  · have hval := hadj q id num
    rw [hval, hold] at h
    by_cases hq : q = c.proc
    · rw [if_pos hq] at h
      obtain ⟨hid, hsop⟩ := undone_ne_zero (neg_ne_zero.mp h)
      exact .inr ⟨rfl, hq, hid, hsop⟩
    · rw [if_neg hq] at h
      exact absurd rfl h
  · exact .inl hold

/-- What `semexit` does with entries whose sets exist: only their semaphores change. -/
theorem applyUndos_spec (ents : List SemUndoEntry) (h : ∀ e ∈ ents, (st.sema e.unId).alloc = true) :
    ∃ st', ents.foldlM State.applyUndo st = some st' ∧ SameSets st st' ∧ st'.semuList = st.semuList ∧
      SameCalls st st' ∧ ∀ k, st'.sem k ≠ st.sem k → ∃ e ∈ ents, k = (st.sema e.unId).semBase + e.unNum := by
  induction ents generalizing st with
  | nil => exact ⟨st, rfl, .refl st, rfl, fun s hs => ⟨s, hs, rfl⟩, fun k hk => absurd rfl hk⟩
  | cons e rest ih =>
    have halloc := h e mem_cons_self
    have hone : st.applyUndo e = some (State.cvBroadcast {st with
        sem := update st.sem ((st.sema e.unId).semBase + e.unNum)
          {st.sem ((st.sema e.unId).semBase + e.unNum) with
            semval := State.undoVal (st.sem ((st.sema e.unId).semBase + e.unNum)).semval e.unAdjval}} e.unId) :=
      if_neg fun hgone => absurd (halloc.symm.trans hgone.1) (by decide)
    rw [foldlM_cons, hone]
    obtain ⟨st', heq, hsets, hlist, hcalls, hsem⟩ := @ih (State.cvBroadcast {st with
        sem := update st.sem ((st.sema e.unId).semBase + e.unNum)
          {st.sem ((st.sema e.unId).semBase + e.unNum) with
            semval := State.undoVal (st.sem ((st.sema e.unId).semBase + e.unNum)).semval e.unAdjval}} e.unId)
      fun x hx => h x (mem_cons_of_mem _ hx)
    refine ⟨st', heq, ⟨hsets.sema, hsets.semmni, hsets.semtot⟩, hlist, fun s hs => ?_, fun k hk => ?_⟩
    · obtain ⟨s₁, hs₁, h₁⟩ := hcalls s hs
      obtain ⟨s₀, hs₀, h₀⟩ := cvBroadcast_calls e.unId s₁ hs₁
      exact ⟨s₀, hs₀, h₀.trans h₁⟩
    by_cases hke : k = (st.sema e.unId).semBase + e.unNum
    · exact ⟨e, mem_cons_self, hke⟩
    have hk' := hsem k (by
      show st'.sem k ≠ update st.sem _ _ k
      rw [update_of_ne hke]
      exact hk)
    obtain ⟨x, hx, hkx⟩ := hk'
    exact ⟨x, mem_cons_of_mem _ hx, hkx⟩

theorem applyUndos_sets {st' : State} {ents : List SemUndoEntry} (h : ents.foldlM State.applyUndo st = some st') : SameSets st st' := by
  induction ents generalizing st with
  | nil => exact some.inj h ▸ .refl st
  | cons e rest ih =>
    obtain ⟨st₁, hone, hrest⟩ := Option.bind_eq_some_iff.mp h
    unfold State.applyUndo at hone
    simp only at hone
    split at hone
    · exact absurd hone (by simp)
    obtain rfl := some.inj hone
    have hsets := ih hrest
    exact ⟨hsets.sema, hsets.semmni, hsets.semtot⟩

end Frames

/-! ### Every run -/

section Runs
variable {w w' : World}

/-- The invariant of the storage. -/
structure StorageInv (w : World) : Prop where
  slices : Slices w.st
  undo : UndoOk w.st.semuList
  entries : ∀ q id num, semadj w.st.semuList q id num ≠ 0 → (w.st.sema id).alloc = true ∧ num < (w.st.sema id).semNsems ∧
    (q, id, w.gen id, num) ∈ w.touched
  sleepers : ∀ s ∈ w.st.sleepers, w.st.Live s.call → ∀ sop ∈ s.call.sops, sop.semNum < (w.st.sema s.call.ix).semNsems

theorem StorageInv.entry (h : StorageInv w) {p : Proc} {e : SemUndoEntry} (he : e ∈ entsOf w.st.semuList p) :
    (w.st.sema e.unId).alloc = true ∧ e.unNum < (w.st.sema e.unId).semNsems ∧ (p, e.unId, w.gen e.unId, e.unNum) ∈ w.touched := by
  apply h.entries
  rw [semadj, entOf_of_mem (h.undo.entsOf p) he ⟨rfl, rfl⟩]
  exact (h.undo.entsOf p).nonzero e he

theorem StorageInv.frame (h : StorageInv w) {st : State} (hsets : SameSets w.st st) (hundo : UndoOk st.semuList)
    (hadj : ∀ q id num, semadj st.semuList q id num ≠ 0 → semadj w.st.semuList q id num ≠ 0) (hcalls : SameCalls w.st st) :
    StorageInv {w with st := st} where
  slices := h.slices.congr hsets
  undo := hundo
  entries q id num hne := by
    rw [hsets.sema]
    exact h.entries q id num (hadj q id num hne)
  sleepers s hs hlive := by
    obtain ⟨s₀, hs₀, hcall⟩ := hcalls s hs
    rw [State.Live, hsets.sema] at hlive
    rw [hsets.sema, ← hcall]
    rw [← hcall] at hlive
    exact h.sleepers s₀ hs₀ hlive

/-- A step of a call of `semop` whose semaphores exist. -/
theorem StorageInv.loop (h : StorageInv w) {st : State} {c : Call} (doUndos : Bool) (hsets : SameSets w.st st)
    (hlist : st.semuList = w.st.semuList) (hcalls : SameCalls w.st st)
    (halloc : (w.st.sema c.ix).alloc = true) (hnums : ∀ sop ∈ c.sops, sop.semNum < (w.st.sema c.ix).semNsems) :
    StorageInv (w.touch c (st.semopLoop c doUndos)) := by
  have hok : UndoOk st.semuList := hlist ▸ h.undo
  obtain ⟨hframe, hsleep, hadj⟩ := semopLoop_frame hok c doUndos
  have hsets' : SameSets w.st (st.semopLoop c doUndos).1 :=
    ⟨hframe.sema.trans hsets.sema, hframe.semmni.trans hsets.semmni, hframe.semtot.trans hsets.semtot⟩
  refine ⟨h.slices.congr hsets', semopLoop_undoOk hok c doUndos, fun q id num hne => ?_, fun s hs hlive => ?_⟩
  · show ((st.semopLoop c doUndos).1.sema id).alloc = true ∧ num < ((st.semopLoop c doUndos).1.sema id).semNsems ∧
      (q, id, w.gen id, num) ∈ (if (st.semopLoop c doUndos).2 = .ok then
        c.sops.map (fun sop => (c.proc, c.ix, w.gen c.ix, sop.semNum)) ++ w.touched else w.touched)
    rw [hsets'.sema]
    rcases hadj q id num hne with hold | ⟨hret, rfl, rfl, sop, hsop, rfl⟩
    · rw [hlist] at hold
      obtain ⟨h1, h2, h3⟩ := h.entries q id num hold
      refine ⟨h1, h2, ?_⟩
      split
      · exact mem_append_right _ h3
      · exact h3
    · refine ⟨halloc, hnums sop hsop, ?_⟩
      rw [if_pos hret]
      exact mem_append_left _ (mem_map.mpr ⟨sop, hsop, rfl⟩)
  · have hlive' : w.st.Live s.call := by
      rw [State.Live, ← hsets'.sema]
      exact hlive
    show ∀ sop ∈ s.call.sops, sop.semNum < ((st.semopLoop c doUndos).1.sema s.call.ix).semNsems
    rw [hsets'.sema]
    rcases hsleep s hs with hcall | ⟨s₁, hs₁, hcall⟩
    · rw [hcall]
      exact hnums
    obtain ⟨s₀, hs₀, hcall₀⟩ := hcalls s₁ hs₁
    rw [← hcall, ← hcall₀] at hlive' ⊢
    exact h.sleepers s₀ hs₀ hlive'

/-- `semget` does not give a set the id of one that is gone and that a call still sleeps
for. -/
def Unslept (w : World) : Act → Prop
  | .semget key nsems creat excl perm => ∀ s ∈ w.st.sleepers,
      ¬((w.st.sema s.call.ix).alloc = false ∧ (w.st.sysSemget key nsems creat excl perm).1.Live s.call)
  | _ => True

theorem StorageInv.createSet (h : StorageInv w) {key : Int} {ix n : Nat} (hix : ix < w.st.semmni) (hfree : (w.st.sema ix).alloc = false)
    (hn : 0 < n) (hlive : ∀ s ∈ w.st.sleepers, ¬((w.st.sema s.call.ix).alloc = false ∧ (w.st.createSet ix key n).Live s.call)) :
    StorageInv { w with st := w.st.createSet ix key n, gen := update w.gen ix (w.gen ix + 1) } := by
  have hsema := @createSet_sema w.st ix key n
  refine ⟨h.slices.createSet key hix hfree hn, h.undo, fun q id num hne => ?_, fun s hs hnow => ?_⟩
  · obtain ⟨h1, h2, h3⟩ := h.entries q id num hne
    have hid : id ≠ ix := by
      rintro rfl
      exact absurd (h1.symm.trans hfree) (by decide)
    simp only
    rw [update_of_ne hid, hsema, if_neg hid]
    exact ⟨h1, h2, h3⟩
  · by_cases hsix : s.call.ix = ix
    · exact absurd ⟨by rw [hsix]; exact hfree, hnow⟩ (hlive s hs)
    have hnow' : (w.st.createSet ix key n).Live s.call := hnow
    rw [State.Live, hsema, if_neg hsix] at hnow'
    rw [hsema, if_neg hsix]
    exact h.sleepers s hs hnow'

theorem StorageInv.removeSet (h : StorageInv w) {ix : Nat} (halloc : (w.st.sema ix).alloc = true) {removed : List (Nat × Nat)} :
    StorageInv { w with st := w.st.removeSet ix, removed := removed } := by
  have hundo := (semundoClear_spec h.undo ix none).1
  refine ⟨h.slices.removeSet halloc, hundo, fun q id num hne => ?_, fun s hs hnow => ?_⟩
  · obtain ⟨hold, hid⟩ := @semadj_semundoClear _ q h.undo ix id num none hne
    obtain ⟨h1, h2, h3⟩ := h.entries q id num hold
    rw [removeSet_alloc, (removeSet_nsems ix id).1]
    exact ⟨⟨hid rfl, h1⟩, h2, h3⟩
  obtain ⟨s₀, hs₀, hcall⟩ := cvBroadcast_calls ix s hs
  have hnow' : (w.st.removeSet ix).Live s.call := hnow
  rw [State.Live, removeSet_alloc, (removeSet_nsems ix _).2.1] at hnow'
  rw [(removeSet_nsems ix _).1]
  rw [← hcall] at hnow' ⊢
  exact h.sleepers s₀ hs₀ ⟨hnow'.1.2, hnow'.2⟩

theorem StorageInv.next {a : Act} (h : StorageInv w) (hok : Unslept w a) (hs : w.next a = some w') : StorageInv w' := by
  have hcalls (s : Sleeper) (st : State) (hst : st.sleepers = w.st.sleepers.erase s) : SameCalls w.st st := fun x hx =>
    ⟨x, mem_of_mem_erase (hst ▸ hx), rfl⟩
  cases next_did hs with
  | refused => exact h
  | created hix hfree hn hget =>
    refine h.createSet hix hfree hn ?_
    rw [← hget]
    exact hok
  | removed hlook => exact h.removeSet (lookup_eq_some hlook).2.2.1
  | @set _ _ ix _ num =>
    exact h.frame ⟨rfl, rfl, rfl⟩ (semundoClear_spec h.undo ix num).1
      (fun q id k hne => (@semadj_semundoClear _ q h.undo ix id k num hne).1) (cvBroadcast_calls ix)
  | operated _ hlook hnums =>
    exact h.loop false (.refl w.st) rfl (fun s hs => ⟨s, hs, rfl⟩) (lookup_eq_some hlook).2.2.1 hnums
  | gone | stopped => exact h.frame ⟨rfl, rfl, rfl⟩ h.undo (fun q id num hne => hne) (hcalls _ _ rfl)
  | @again s sig hmem hlive =>
    exact h.loop s.doUndos ⟨rfl, rfl, rfl⟩ rfl (hcalls s _ rfl) hlive.1 (h.sleepers s hmem hlive)
  | @exited p _ hexit =>
    obtain ⟨st', hfold, rfl⟩ := map_eq_some_iff.mp hexit
    obtain ⟨st'', heq, hsets, -, hcalls, -⟩ := applyUndos_spec (entsOf w.st.semuList p) fun e he => (h.entry he).1
    obtain rfl : st'' = st' := some.inj (heq.symm.trans hfold)
    have hsub : (w.st.semuList.eraseP (·.unProc = p)).Sublist w.st.semuList := eraseP_sublist
    refine h.frame ⟨hsets.sema, hsets.semmni, hsets.semtot⟩ (h.undo.sublist hsub) (fun q id num hne => ?_) hcalls
    obtain ⟨suptr, hmem, hrest⟩ := (semadj_ne_zero (h.undo.sublist hsub)).mp hne
    exact (semadj_ne_zero h.undo).mpr ⟨suptr, hsub.subset hmem, hrest⟩
  | began =>
    refine h.frame ⟨rfl, rfl, rfl⟩ h.undo (fun q id num hne => hne) (sameCalls_map _ (fun s => ?_) _ rfl)
    split <;> rfl
  | @ended mni mns mnu _ hnil =>
    rcases @reallocEnd_cases w.st h.slices mni mns mnu with heq | ⟨st', heq, hmni, h1, h2, hlist, hsleep, hsema, -⟩
    · rw [heq]
      exact h.frame ⟨rfl, rfl, rfl⟩ h.undo (fun q id num hne => hne) fun s hs => ⟨s, hs, rfl⟩
    rw [heq]
    have hundo : UndoOk st'.semuList := hlist ▸ h.undo.reverse
    refine ⟨h.slices.realloc hmni h1 h2 hsema, hundo, fun q id num hne => ?_, fun s hs => ?_⟩
    · obtain ⟨suptr, hmem, hrest⟩ := (semadj_ne_zero hundo).mp hne
      rw [hlist] at hmem
      obtain ⟨g1, g2, g3⟩ := h.entries q id num ((semadj_ne_zero h.undo).mpr ⟨suptr, mem_reverse.mp hmem, hrest⟩)
      rw [hsema, if_pos g1]
      exact ⟨g1, g2, g3⟩
    · rw [show ({w with st := st'} : World).st.sleepers = [] from hsleep.trans hnil] at hs
      exact absurd hs not_mem_nil

theorem booted_slices : Slices booted.st := by
  have hfree (i : Nat) : ¬(booted.st.sema i).alloc = true := Bool.false_ne_true
  refine ⟨fun i hi => absurd hi (hfree i), fun i hi => absurd hi (hfree i), fun i k hk => absurd hk.1 (hfree i),
    fun i j k hi => absurd hi.1 (hfree i), fun k hk => absurd hk (Nat.not_lt_zero k), ?_⟩
  simp [Layout.offset, State.size, booted, SemidDs.zero]

theorem reach_storageInv (h : semSystem.Reach Unslept w) : StorageInv w := by
  refine h.invariant (fun w hw => ?_) fun w a w' hinv hok hs => @StorageInv.next w w' a hinv hok hs
  obtain rfl : w = booted := hw
  exact ⟨booted_slices, ⟨nodup_nil, fun x hx => absurd hx not_mem_nil⟩, fun q id num hne => absurd rfl hne,
    fun s hs => absurd hs not_mem_nil⟩

end Runs

end NetBSD.Kern.SysvSem
