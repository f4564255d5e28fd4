import Mathlib.Order.Nat
import Mathlib.Tactic.Common
import Mathlib.Data.List.GetD
import Mathlib.Data.List.Range

/-! Addresses in a circular area of `size` bytes that starts at `off`.

`move a k` is the address `k` bytes after `a`, whatever lies between; `dist a b` is how
far `b` is after `a`. Moves add up (`move_move`) and distances undo them (`dist_move`),
so that a position is known by its distance from a fixed address and a wrap is seen
only where an address is formed (`move_eq`). -/
namespace NetBSD.Lib.Ring
open List Nat
variable {off size a b k : Nat}

def InRange (off size a : Nat) : Prop := off ≤ a ∧ a < off + size

instance (off size a : Nat) : Decidable (InRange off size a) := inferInstanceAs (Decidable (_ ∧ _))

def move (off size a k : Nat) : Nat := off + (a - off + k) % size

def dist (size a b : Nat) : Nat := (b + size - a) % size

theorem inRange_off (hs : 0 < size) : InRange off size off := ⟨le_rfl, by omega⟩

theorem move_inRange (hs : 0 < size) (a k : Nat) : InRange off size (move off size a k) := by
  have := mod_lt (a - off + k) hs
  unfold move InRange
  omega

theorem move_zero (h : InRange off size a) : move off size a 0 = a := by
  unfold InRange at h
  rw [move, mod_eq_of_lt (by omega)]
  omega

theorem move_move (off size a j k : Nat) : move off size (move off size a j) k = move off size a (j + k) := by
  unfold move
  rw [Nat.add_sub_cancel_left, mod_add_mod, Nat.add_assoc]

theorem move_eq (h : InRange off size a) (hk : k ≤ size) : move off size a k = if a + k < off + size then a + k else a + k - size := by
  unfold InRange at h
  unfold move
  split
  · rw [mod_eq_of_lt (by omega)]
    omega
  · rw [mod_eq_sub_mod (by omega), mod_eq_of_lt (by omega)]
    omega

theorem move_size (h : InRange off size a) : move off size a size = a := by
  have hr := h
  unfold InRange at hr
  rw [move_eq h le_rfl, if_neg (by omega)]
  omega

theorem dist_move (h : InRange off size a) (hk : k < size) : dist size a (move off size a k) = k := by
  rw [move_eq h (le_of_lt hk), dist]
  split
  · rw [show a + k + size - a = k + size by omega, add_mod_right, mod_eq_of_lt hk]
  · rw [show a + k - size + size - a = k by omega, mod_eq_of_lt hk]

theorem move_inj {j : Nat} (h : InRange off size a) (hj : j < size) (hk : k < size) (heq : move off size a j = move off size a k) : j = k := by
  rw [← dist_move h hj, heq, dist_move h hk]

end NetBSD.Lib.Ring

/-! Ring buffers.

A ring of `n` cells holds the list of the `len` cells from `f` on, the first cell after the last. What is dropped is
dropped by a larger `f`, and what is appended is stored behind; a block that is copied in one piece ends at the end of the
ring at the latest. -/
namespace NetBSD.Lib.RingBuffer
open List Nat
variable {α : Type*} {n f len k : Nat} {mem mem' : Nat → α}

def contents (n : Nat) (mem : Nat → α) (f len : Nat) : List α := (List.range len).map fun i => mem ((f + i) % n)

/-- A block stored from a cell on. -/
def store (mem : Nat → α) (a : Nat) (p : List α) : Nat → α := fun j => if a ≤ j then p.getD (j - a) (mem j) else mem j

theorem place_eq (hf : f < n) {i : Nat} (hi : i ≤ n) : (f + i) % n = if f + i < n then f + i else f + i - n := by
  split
  · next h => exact mod_eq_of_lt h
  · next h => rw [mod_eq_sub_mod (Nat.not_lt.mp h), mod_eq_of_lt (by omega)]

theorem place_cases (hf : f < n) {i : Nat} (hi : i ≤ n) : (f + i) % n = f + i ∧ f + i < n ∨ (f + i) % n + n = f + i ∧ n ≤ f + i := by
  rw [place_eq hf hi]
  split <;> omega

theorem wrap_eq (hf : f < n) (hk : k ≤ n - f) : (if f + k = n then 0 else f + k) = (f + k) % n := by
  rw [place_eq hf (by omega)]
  split
  · rw [if_neg (by omega)]
    omega
  · rw [if_pos (by omega)]

theorem piece_full (hf : f < n) (h0 : 0 < len) (hlen : len ≤ n) : (if f ≥ (f + len) % n then n - f else (f + len) % n - f) = min len (n - f) := by
  rw [place_eq hf hlen]
  split <;> split at * <;> omega

theorem piece_free (hf : f < n) (hlen : len < n) :
    (if f > (f + len) % n then f - (f + len) % n else n - (f + len) % n) = min (n - len) (n - (f + len) % n) := by
  rw [place_eq hf (le_of_lt hlen)]
  split <;> split at * <;> omega

/-! ### Contents -/

theorem length_contents : (contents n mem f len).length = len := by rw [contents, length_map, length_range]

theorem contents_zero : contents n mem f 0 = [] := rfl

theorem contents_congr (h : ∀ i < len, mem' ((f + i) % n) = mem ((f + i) % n)) : contents n mem' f len = contents n mem f len :=
  map_congr_left fun i hi => h i (mem_range.mp hi)

theorem contents_add (j k : Nat) : contents n mem f (j + k) = contents n mem f j ++ contents n mem ((f + j) % n) k := by
  rw [contents, range_add, map_append, map_map]
  congr 1
  apply map_congr_left
  intro i _
  rw [Function.comp_apply, mod_add_mod, Nat.add_assoc]

theorem take_contents (hk : k ≤ len) : (contents n mem f len).take k = contents n mem f k := by
  obtain ⟨j, rfl⟩ := Nat.exists_eq_add_of_le hk
  rw [contents_add, take_append_of_le_length (le_of_eq length_contents.symm), take_of_length_le (le_of_eq length_contents)]

theorem drop_contents (hk : k ≤ len) : (contents n mem f len).drop k = contents n mem ((f + k) % n) (len - k) := by
  obtain ⟨j, rfl⟩ := Nat.exists_eq_add_of_le hk
  rw [contents_add, drop_append_of_le_length (le_of_eq length_contents.symm),
    drop_of_length_le (le_of_eq length_contents), nil_append, Nat.add_sub_cancel_left]

theorem contents_straight (h : f + k ≤ n) : contents n mem f k = (List.range k).map fun i => mem (f + i) := by
  apply map_congr_left
  intro i hi
  have hi := mem_range.mp hi
  rw [mod_eq_of_lt (by omega)]

theorem store_inside {a i : Nat} {p : List α} (hi : i < p.length) : store mem a p (a + i) = p[i] := by
  rw [store, if_pos (Nat.le_add_right a i), Nat.add_sub_cancel_left, getD_eq_getElem _ _ hi]

theorem store_outside {a j : Nat} {p : List α} (h : j < a ∨ a + p.length ≤ j) : store mem a p j = mem j := by
  rw [store]
  split
  · exact getD_eq_default _ _ (by omega)
  · rfl

theorem contents_store {p : List α} (hf : f < n) (hroom : len + p.length ≤ n) (hpiece : (f + len) % n + p.length ≤ n) :
    contents n (store mem ((f + len) % n) p) f (len + p.length) = contents n mem f len ++ p := by
  rw [contents_add]
  congr 1
  · apply contents_congr
    intro i hi
    apply store_outside
    have hend := place_cases hf (show len ≤ n by omega)
    have hplace := place_cases hf (show i ≤ n by omega)
    omega
  · rw [contents_straight hpiece]
    apply ext_getElem
    · rw [length_map, length_range]
    · intro i hi hi'
      rw [getElem_map, getElem_range, store_inside hi']

end NetBSD.Lib.RingBuffer
