import Mathlib.Data.BitVec
import Mathlib.Logic.Function.Basic
import Mathlib.Tactic.Common

/-! Fields of a memory of bytes.

A field is a place and a length, and its value has the byte at the lower address first. `overlay fs p s` is `s` with the
fields `fs` as they are in `p`: to set a field of it to the value in `p` makes the list longer, and to read one that is apart
from the list reads `s`. -/
namespace NetBSD.Lib.Fields
open Function

abbrev Mem := Nat → BitVec 8

def get16 (m : Mem) (a : Nat) : BitVec 16 := m a ++ m (a + 1)

def get32 (m : Mem) (a : Nat) : BitVec 32 := get16 m a ++ get16 m (a + 2)

def set16 (m : Mem) (a : Nat) (v : BitVec 16) : Mem :=
  update (update m a (v.extractLsb' 8 8)) (a + 1) (v.extractLsb' 0 8)

def set32 (m : Mem) (a : Nat) (v : BitVec 32) : Mem :=
  set16 (set16 m a (v.extractLsb' 16 16)) (a + 2) (v.extractLsb' 0 16)

/-- A byte is in a field of the list. -/
def Within (fs : List (Nat × Nat)) (i : Nat) : Prop := ∃ f ∈ fs, f.1 ≤ i ∧ i < f.1 + f.2

instance (fs : List (Nat × Nat)) (i : Nat) : Decidable (Within fs i) := inferInstanceAs (Decidable (∃ f ∈ fs, _))

def overlay (fs : List (Nat × Nat)) (p s : Mem) : Mem := fun i => if Within fs i then p i else s i

variable {fs : List (Nat × Nat)} {m p s : Mem} {a k i : Nat}

theorem within_cons : Within ((a, k) :: fs) i ↔ a ≤ i ∧ i < a + k ∨ Within fs i := by
  rw [Within, List.exists_mem_cons_iff]
  rfl

theorem overlay_nil : overlay [] p s = s := by
  funext i
  exact if_neg fun ⟨_, hf, _⟩ => nomatch hf

theorem overlay_of_not_within (h : ¬ Within fs i) : overlay fs p s i = s i := if_neg h

theorem overlay_of_eq (h : ¬ Within fs i → s i = p i) : overlay fs p s i = p i := by
  rw [overlay]
  split
  · rfl
  · next hout => exact h hout

theorem get16_eq_iff : get16 s a = get16 p a ↔ s a = p a ∧ s (a + 1) = p (a + 1) := by
  refine ⟨fun h => ?_, fun h => by rw [get16, h.1, h.2, get16]⟩
  have hhi := congrArg (fun v : BitVec 16 => v.extractLsb' 8 8) h
  have hlo := congrArg (fun v : BitVec 16 => v.extractLsb' 0 8) h
  exact ⟨by simpa only [get16, BitVec.extractLsb'_append_eq_left] using hhi,
    by simpa only [get16, BitVec.extractLsb'_append_eq_right] using hlo⟩

theorem get32_eq_iff : get32 s a = get32 p a ↔ get16 s a = get16 p a ∧ get16 s (a + 2) = get16 p (a + 2) := by
  refine ⟨fun h => ?_, fun h => by rw [get32, h.1, h.2, get32]⟩
  have hhi := congrArg (fun v : BitVec 32 => v.extractLsb' 16 16) h
  have hlo := congrArg (fun v : BitVec 32 => v.extractLsb' 0 16) h
  exact ⟨by simpa only [get32, BitVec.extractLsb'_append_eq_left] using hhi,
    by simpa only [get32, BitVec.extractLsb'_append_eq_right] using hlo⟩

theorem same_of_get16 (h : get16 s a = get16 p a) (ha : a ≤ i) (hi : i < a + 2) : s i = p i := by
  obtain ⟨hfirst, hsecond⟩ := get16_eq_iff.mp h
  obtain rfl | rfl : i = a ∨ i = a + 1 := by omega
  · exact hfirst
  · exact hsecond

theorem same_of_get32 (h : get32 s a = get32 p a) (ha : a ≤ i) (hi : i < a + 4) : s i = p i := by
  obtain ⟨hfirst, hsecond⟩ := get32_eq_iff.mp h
  by_cases hi' : i < a + 2
  · exact same_of_get16 hfirst ha hi'
  · exact same_of_get16 hsecond (by omega) (by omega)

def Apart (fs : List (Nat × Nat)) (a k : Nat) : Prop := ∀ f ∈ fs, f.1 + f.2 ≤ a ∨ a + k ≤ f.1

theorem Apart.not_within (h : Apart fs a k) (ha : a ≤ i) (hi : i < a + k) : ¬ Within fs i := by
  rintro ⟨f, hf, hlow, hhigh⟩
  have := h f hf
  omega

theorem apart_nil : Apart [] a k := fun _ hf => nomatch hf

theorem apart_cons {b l : Nat} : Apart ((b, l) :: fs) a k ↔ (b + l ≤ a ∨ a + k ≤ b) ∧ Apart fs a k := List.forall_mem_cons

theorem get16_overlay (h : Apart fs a 2) : get16 (overlay fs p s) a = get16 s a := by
  rw [get16, overlay_of_not_within (h.not_within (le_refl a) (by omega)), overlay_of_not_within (h.not_within (by omega) (by omega)), get16]

theorem get32_overlay (h : Apart fs a 4) : get32 (overlay fs p s) a = get32 s a := by
  rw [get32, get16_overlay fun f hf => by have := h f hf; omega, get16_overlay fun f hf => by have := h f hf; omega, get32]

theorem update_overlay (a : Nat) : update (overlay fs p s) a (p a) = overlay ((a, 1) :: fs) p s := by
  funext i
  by_cases hi : i = a
  · rw [hi, Function.update_self, overlay, if_pos (within_cons.mpr (.inl ⟨le_refl a, by omega⟩))]
  rw [Function.update_of_ne hi]
  refine if_congr ?_ rfl rfl
  rw [within_cons]
  constructor
  · exact .inr
  rintro (h | h)
  · omega
  · exact h

theorem overlay_join {j : Nat} : overlay ((a + j, k) :: (a, j) :: fs) p s = overlay ((a, j + k) :: fs) p s := by
  funext i
  refine if_congr ?_ rfl rfl
  rw [within_cons, within_cons, within_cons, ← or_assoc]
  refine or_congr_left ?_
  omega

theorem set16_overlay {v : BitVec 16} (h : v = get16 p a) : set16 (overlay fs p s) a v = overlay ((a, 2) :: fs) p s := by
  rw [h, set16, get16, BitVec.extractLsb'_append_eq_left, BitVec.extractLsb'_append_eq_right, update_overlay, update_overlay, overlay_join]

theorem set32_overlay {v : BitVec 32} (h : v = get32 p a) : set32 (overlay fs p s) a v = overlay ((a, 4) :: fs) p s := by
  rw [h, set32, get32, BitVec.extractLsb'_append_eq_left, BitVec.extractLsb'_append_eq_right, set16_overlay rfl, set16_overlay rfl, overlay_join]

theorem overlay_same (h : ∀ i, a ≤ i → i < a + k → s i = p i) : overlay ((a, k) :: fs) p s = overlay fs p s := by
  funext i
  by_cases hfs : Within fs i
  · rw [overlay, if_pos (within_cons.mpr (.inr hfs)), overlay, if_pos hfs]
  rw [overlay_of_not_within hfs, overlay]
  split
  · next hin =>
    obtain ⟨hlow, hhigh⟩ := (within_cons.mp hin).resolve_right hfs
    exact (h i hlow hhigh).symm
  · rfl

end NetBSD.Lib.Fields
