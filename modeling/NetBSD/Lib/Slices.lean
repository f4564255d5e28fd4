import Mathlib.Data.List.Range

/-! Bytes in memory, read and written in pieces.

A memory is a function; `slice` reads a piece of it as a list, `poke` writes one. A list that is being brought into a given form
`Agrees` with it everywhere but in a window, which gets smaller as it is written. -/
namespace NetBSD.Lib
open List
variable {α : Type*} {b b' : Nat → α} {i j n : Nat} {l : List α}

def slice (b : Nat → α) (i n : Nat) : List α := (List.range n).map fun k => b (i + k)

def poke (b : Nat → α) (i : Nat) (l : List α) : Nat → α := fun k => if i ≤ k then l[k - i]?.getD (b k) else b k

@[simp] theorem length_slice (b : Nat → α) (i n : Nat) : (slice b i n).length = n := by rw [slice, length_map, length_range]

theorem slice_zero (b : Nat → α) (i : Nat) : slice b i 0 = [] := rfl

theorem slice_add (b : Nat → α) (i m n : Nat) : slice b i (m + n) = slice b i m ++ slice b (i + m) n := by
  rw [slice, range_add, map_append, map_map]
  congr 1
  apply map_congr_left
  intro k _
  exact congrArg b (Nat.add_assoc i m k).symm

theorem slice_congr (h : ∀ k, i ≤ k → k < i + n → b' k = b k) : slice b' i n = slice b i n :=
  map_congr_left fun k hk => h (i + k) (Nat.le_add_right _ _) (Nat.add_lt_add_left (mem_range.mp hk) _)

theorem getElem?_slice (h : i < n) : (slice b j n)[i]? = some (b (j + i)) := by
  rw [getElem?_eq_getElem (by rwa [length_slice])]
  simp [slice, getElem_map, getElem_range]

theorem take_slice (h : n ≤ j) : (slice b i j).take n = slice b i n := by
  rw [← Nat.add_sub_of_le h, slice_add, take_left' (length_slice _ _ _)]

theorem poke_of_in {k : Nat} (h : k < l.length) : poke b i l (i + k) = l[k] := by
  rw [poke, if_pos (Nat.le_add_right _ _), Nat.add_sub_cancel_left, getElem?_eq_getElem h]
  rfl

theorem poke_of_out {k : Nat} (h : k < i ∨ i + l.length ≤ k) : poke b i l k = b k := by
  unfold poke
  split
  · rw [getElem?_eq_none (by omega)]
    rfl
  · rfl

theorem slice_poke (b : Nat → α) (i : Nat) (l : List α) : slice (poke b i l) i l.length = l := by
  apply ext_getElem (length_slice _ _ _)
  intro k hk hlt
  simp only [slice, getElem_map, getElem_range]
  exact poke_of_in hlt

theorem slice_poke_of_out (h : j + n ≤ i ∨ i + l.length ≤ j) : slice (poke b i l) j n = slice b j n :=
  slice_congr fun k hk hlt => poke_of_out (by omega)

theorem slice_poke_mid (h : j + l.length ≤ n) :
    slice (poke b (i + j) l) i n = slice b i j ++ l ++ slice b (i + j + l.length) (n - (j + l.length)) := by
  obtain ⟨m, rfl⟩ := Nat.exists_eq_add_of_le h
  rw [slice_add, slice_add, slice_poke, slice_poke_of_out (by omega), slice_poke_of_out (by omega), Nat.add_sub_cancel_left, Nat.add_assoc i]

/-- `v` is as `t` says but for the places from `lo` up to `hi`. -/
def Agrees (v : List α) (t : Nat → α) (lo hi : Nat) : Prop := ∀ i < v.length, i < lo ∨ hi ≤ i → v[i]? = some (t i)

section Agrees
variable {t : Nat → α} {lo hi : Nat} {p x y q : List α}

theorem Agrees.append (h : Agrees p t lo hi)
    (hx : ∀ i < x.length, p.length + i < lo ∨ hi ≤ p.length + i → x[i]? = some (t (p.length + i))) : Agrees (p ++ x) t lo hi := by
  intro i hi hout
  by_cases hlt : i < p.length
  · rw [getElem?_append_left hlt]
    exact h i hlt hout
  obtain ⟨k, rfl⟩ := Nat.exists_eq_add_of_le (Nat.le_of_not_lt hlt)
  rw [length_append] at hi
  rw [getElem?_append_right (Nat.le_add_right _ _), Nat.add_sub_cancel_left]
  exact hx k (by omega) hout

theorem Agrees.splice (h : Agrees (p ++ x ++ q) t lo hi) (hlen : y.length = x.length) (hlo : lo ≤ p.length)
    (hhi : p.length + x.length ≤ hi) : Agrees (p ++ y ++ q) t lo hi := by
  intro i hlt hout
  rw [length_append, length_append, hlen] at hlt
  have hold := h i (by rwa [length_append, length_append]) hout
  by_cases hp : i < p.length
  · rw [append_assoc, getElem?_append_left hp] at hold ⊢
    exact hold
  have hx : p.length + x.length ≤ i := by omega
  rw [getElem?_append_right (by rwa [length_append])] at hold
  rw [getElem?_append_right (by rwa [length_append, hlen]), length_append, hlen, ← length_append]
  exact hold

theorem Agrees.write (h : Agrees (p ++ x ++ q) t p.length hi) (hlen : y.length = x.length)
    (hy : ∀ i < y.length, y[i]? = some (t (p.length + i))) : Agrees (p ++ y ++ q) t (p.length + y.length) hi := by
  intro i hlt hout
  rw [length_append, length_append, hlen] at hlt
  have hold := h i (by rwa [length_append, length_append])
  by_cases hp : i < p.length
  · rw [append_assoc, getElem?_append_left hp] at hold ⊢
    exact hold (.inl hp)
  obtain ⟨k, rfl⟩ := Nat.exists_eq_add_of_le (Nat.le_of_not_lt hp)
  by_cases hk : k < y.length
  · rw [append_assoc, getElem?_append_right (Nat.le_add_right _ _), Nat.add_sub_cancel_left, getElem?_append_left hk]
    exact hy k hk
  have hx : p.length + x.length ≤ p.length + k := by omega
  rw [getElem?_append_right (by rwa [length_append])] at hold
  rw [getElem?_append_right (by rwa [length_append, hlen]), length_append, hlen, ← length_append]
  exact hold (by omega)

theorem Agrees.eq_slice {v : List α} (h : Agrees v t hi hi) : v = slice t 0 v.length := by
  apply ext_getElem? fun i => ?_
  by_cases hlt : i < v.length
  · rw [h i hlt (by omega), getElem?_slice hlt, Nat.zero_add]
  · rw [getElem?_eq_none (by omega), getElem?_eq_none (by rw [length_slice]; omega)]

end Agrees

end NetBSD.Lib
