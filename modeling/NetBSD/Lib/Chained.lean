import Mathlib.Logic.Function.Basic
import Mathlib.Data.List.Nodup

/-! Hash tables with chains.

The place of a key is its hash under a mask, and a bucket holds the entries of its place. The table grows by being
rebuilt, entry by entry; what it maps a key to is then the same. A table without buckets is not looked into: that is the
answer `none`. -/
namespace NetBSD.Lib
open List Function

structure Chained (κ ν : Type*) where
  hashsize : Nat
  nitems : Nat
  bucket : Nat → List (κ × ν)

namespace Chained
variable {κ ν : Type*} [DecidableEq κ] (hash : κ → Nat)

def empty : Chained κ ν := ⟨0, 0, fun _ => []⟩

def place (hashsize : Nat) (key : κ) : Nat := hash key &&& (hashsize - 1)

/-- An entry put in front of its bucket. -/
def push (hashsize : Nat) (b : Nat → List (κ × ν)) (e : κ × ν) : Nat → List (κ × ν) :=
  update b (place hash hashsize e.1) (e :: b (place hash hashsize e.1))

/-- The smallest power of two that is not below `size`. -/
def doubled (size : Nat) : Nat → Nat → Nat
  | 0, n => n
  | rounds + 1, n => if n < size then doubled size rounds (n * 2) else n

def rehash (m : Chained κ ν) (size : Nat) : Chained κ ν :=
  let hashsize := doubled size size 1
  { m with
    hashsize := hashsize
    bucket := ((List.range m.hashsize).flatMap m.bucket).foldl (push hash hashsize) fun _ => [] }

/-- The value of a key in a bucket is written, if the key is there. -/
def write (key : κ) (val : ν) (b : List (κ × ν)) : List (κ × ν) := b.map fun e => if e.1 = key then (e.1, val) else e

/-- The table an entry is put into. -/
def grown (step : Nat) (m : Chained κ ν) : Chained κ ν :=
  if m.hashsize < m.nitems + step then rehash hash m (m.nitems + step) else m

def put (m : Chained κ ν) (key : κ) (val : ν) : Chained κ ν :=
  let i := place hash m.hashsize key
  if (m.bucket i).any (·.1 = key) then { m with bucket := update m.bucket i (write key val (m.bucket i)) }
  else { m with nitems := m.nitems + 1, bucket := push hash m.hashsize m.bucket (key, val) }

def insert (step : Nat) (m : Chained κ ν) (key : κ) (val : ν) : Chained κ ν := put hash (grown hash step m) key val

def lookup (m : Chained κ ν) (key : κ) : Option (Option ν) :=
  if m.hashsize = 0 then none else some (((m.bucket (place hash m.hashsize key)).find? (·.1 = key)).map Prod.snd)

/-- With the answer whether the key was there. -/
def remove (m : Chained κ ν) (key : κ) : Option (Chained κ ν × Bool) :=
  let i := place hash m.hashsize key
  if m.hashsize = 0 then none
  else if (m.bucket i).any (·.1 = key) then
    some ({ m with bucket := update m.bucket i ((m.bucket i).eraseP (·.1 = key)) }, true)
  else some (m, false)

/-- Every entry is in its place, and no key is there twice. -/
structure Placed (m : Chained κ ν) : Prop where
  place : ∀ i, ∀ e ∈ m.bucket i, i < m.hashsize ∧ Chained.place hash m.hashsize e.1 = i
  nodup : ∀ i, ((m.bucket i).map Prod.fst).Nodup

variable {hash} {m : Chained κ ν}

/-- What a key is mapped to, by the buckets. -/
def get (hash : κ → Nat) (m : Chained κ ν) (key : κ) : Option ν :=
  ((m.bucket (place hash m.hashsize key)).find? (·.1 = key)).map Prod.snd

theorem lookup_eq (h : m.hashsize ≠ 0) (key : κ) : lookup hash m key = some (get hash m key) := if_neg h

omit [DecidableEq κ] in
theorem placed_empty : Placed hash (empty : Chained κ ν) :=
  ⟨fun _ _ he => absurd he not_mem_nil, fun _ => nodup_nil⟩

theorem get_empty (key : κ) : get hash (empty : Chained κ ν) key = none := rfl

omit [DecidableEq κ] in
theorem place_lt {hashsize : Nat} (h : hashsize ≠ 0) (key : κ) : place hash hashsize key < hashsize := by
  have hle : place hash hashsize key ≤ hashsize - 1 := Nat.and_le_right
  omega

section Chain
variable {b : List (κ × ν)} {key k : κ} {val : ν}

theorem find_key_iff (h : (b.map Prod.fst).Nodup) : (b.find? (·.1 = key)).map Prod.snd = some val ↔ (key, val) ∈ b := by
  induction b with
  | nil => simp
  | cons e b ih =>
    rw [map_cons, nodup_cons] at h
    by_cases he : e.1 = key
    · rw [find?_cons_of_pos (by simpa using he), mem_cons]
      constructor
      · rintro hv
        exact .inl (Prod.ext he.symm (Option.some.inj hv).symm)
      rintro (rfl | hmem)
      · rfl
      · exact absurd (mem_map_of_mem (f := Prod.fst) hmem) (he ▸ h.1)
    · rw [find?_cons_of_neg (by simpa using he), ih h.2, mem_cons]
      constructor
      · exact .inr
      rintro (rfl | hmem)
      · exact absurd rfl he
      · exact hmem

theorem mem_eraseP_key (h : (b.map Prod.fst).Nodup) : (k, val) ∈ b.eraseP (·.1 = key) ↔ k ≠ key ∧ (k, val) ∈ b := by
  induction b with
  | nil => simp
  | cons e b ih =>
    rw [map_cons, nodup_cons] at h
    by_cases he : e.1 = key
    · rw [eraseP_cons_of_pos (by simpa using he), mem_cons]
      constructor
      · intro hmem
        refine ⟨?_, .inr hmem⟩
        rintro rfl
        exact h.1 (he ▸ mem_map_of_mem (f := Prod.fst) hmem)
      · rintro ⟨hk, rfl | hmem⟩
        · exact absurd he hk
        · exact hmem
    · rw [eraseP_cons_of_neg (by simpa using he), mem_cons, mem_cons, ih h.2]
      constructor
      · rintro (rfl | ⟨hk, hmem⟩)
        · exact ⟨he, .inl rfl⟩
        · exact ⟨hk, .inr hmem⟩
      · rintro ⟨hk, rfl | hmem⟩
        · exact .inl rfl
        · exact .inr ⟨hk, hmem⟩

end Chain

theorem get_iff (h : Placed hash m) {key : κ} {val : ν} : get hash m key = some val ↔ ∃ i, (key, val) ∈ m.bucket i := by
  rw [get, find_key_iff (h.nodup _)]
  constructor
  · exact fun hmem => ⟨_, hmem⟩
  rintro ⟨i, hmem⟩
  obtain ⟨-, hplace⟩ := h.place i _ hmem
  exact hplace ▸ hmem

omit [DecidableEq κ] in
theorem foldl_push (hashsize : Nat) (l : List (κ × ν)) : ∀ (b : Nat → List (κ × ν)) (i : Nat),
    l.foldl (push hash hashsize) b i = (l.filter fun e => place hash hashsize e.1 = i).reverse ++ b i := by
  induction l with
  | nil => exact fun b i => rfl
  | cons e l ih =>
    intro b i
    rw [foldl_cons, ih]
    by_cases he : place hash hashsize e.1 = i
    · rw [filter_cons_of_pos (by simpa using he), reverse_cons, append_assoc, push, he, update_self]
      rfl
    · rw [filter_cons_of_neg (by simpa using he), push, update_of_ne (Ne.symm he)]

theorem doubled_pos (size : Nat) : ∀ rounds n, 0 < n → 0 < doubled size rounds n := by
  intro rounds
  induction rounds with
  | zero => exact fun n h => h
  | succ rounds ih =>
    intro n h
    rw [doubled]
    split
    · exact ih _ (Nat.mul_pos h (by decide))
    · exact h

omit [DecidableEq κ] in
theorem Placed.keys_nodup (h : Placed hash m) : (((List.range m.hashsize).flatMap m.bucket).map Prod.fst).Nodup := by
  rw [map_flatMap, nodup_flatMap]
  refine ⟨fun i _ => h.nodup i, ?_⟩
  apply (nodup_range (n := m.hashsize)).imp
  intro i j hij
  apply disjoint_left.mpr
  intro k hi hj
  obtain ⟨e, he, rfl⟩ := mem_map.mp hi
  obtain ⟨e', he', heq⟩ := mem_map.mp hj
  exact hij ((h.place i e he).2.symm.trans (heq ▸ (h.place j e' he').2))

omit [DecidableEq κ] in
theorem rehash_bucket (m : Chained κ ν) (size i : Nat) : (rehash hash m size).bucket i =
    (((List.range m.hashsize).flatMap m.bucket).filter fun e => place hash (rehash hash m size).hashsize e.1 = i).reverse :=
  (foldl_push _ _ _ _).trans (append_nil _)

omit [DecidableEq κ] in
theorem placed_rehash (h : Placed hash m) (size : Nat) : Placed hash (rehash hash m size) := by
  have hpos := doubled_pos size size 1 Nat.one_pos
  constructor
  · intro i e he
    rw [rehash_bucket, mem_reverse, mem_filter] at he
    have hplace := of_decide_eq_true he.2
    exact ⟨hplace ▸ place_lt (Nat.pos_iff_ne_zero.mp hpos) e.1, hplace⟩
  · intro i
    rw [rehash_bucket, map_reverse, nodup_reverse]
    exact (filter_sublist.map Prod.fst).nodup h.keys_nodup

theorem get_rehash (h : Placed hash m) (size : Nat) (key : κ) : get hash (rehash hash m size) key = get hash m key := by
  apply Option.ext
  intro val
  rw [get_iff (placed_rehash h size), get_iff h]
  constructor
  · rintro ⟨i, he⟩
    rw [rehash_bucket, mem_reverse, mem_filter, mem_flatMap] at he
    obtain ⟨⟨j, -, hmem⟩, -⟩ := he
    exact ⟨j, hmem⟩
  rintro ⟨i, he⟩
  refine ⟨place hash (rehash hash m size).hashsize key, ?_⟩
  rw [rehash_bucket, mem_reverse, mem_filter, mem_flatMap]
  exact ⟨⟨i, mem_range.mpr (h.place i _ he).1, he⟩, decide_eq_true rfl⟩

/-! ### The operations -/

section Write
variable {b : List (κ × ν)} {key : κ} {val : ν}

theorem write_keys : (write key val b).map Prod.fst = b.map Prod.fst := by
  rw [write, map_map]
  apply map_congr_left
  intro e _
  rw [comp_apply]
  split <;> rfl

theorem find_write (k : κ) (h : b.any (·.1 = key) = true) : ((write key val b).find? (·.1 = k)).map Prod.snd =
    if k = key then some val else (b.find? (·.1 = k)).map Prod.snd := by
  have hfst : ((fun e : κ × ν => decide (e.1 = k)) ∘ fun e => if e.1 = key then (e.1, val) else e) = fun e => decide (e.1 = k) := by
    funext e
    rw [comp_apply]
    split <;> rfl
  rw [write, find?_map, hfst]
  cases hfind : b.find? fun e => decide (e.1 = k) with
  | none =>
    have hk : k ≠ key := by
      rintro rfl
      rw [find?_eq_none] at hfind
      obtain ⟨e, he, hek⟩ := any_eq_true.mp h
      exact hfind e he hek
    rw [if_neg hk]
    rfl
  | some e =>
    have hek : e.1 = k := by simpa using find?_some hfind
    rw [Option.map_some, hek]
    split <;> rfl

end Write

omit [DecidableEq κ] in
theorem grown_ne_zero {step : Nat} (hstep : 0 < step) : (grown hash step m).hashsize ≠ 0 := by
  rw [grown]
  split
  · exact Nat.pos_iff_ne_zero.mp (doubled_pos _ _ 1 Nat.one_pos)
  · omega

omit [DecidableEq κ] in
theorem placed_grown (h : Placed hash m) (step : Nat) : Placed hash (grown hash step m) := by
  rw [grown]
  split
  · exact placed_rehash h _
  · exact h

theorem get_grown (h : Placed hash m) (step : Nat) (key : κ) : get hash (grown hash step m) key = get hash m key := by
  rw [grown]
  split
  · exact get_rehash h _ key
  · rfl

omit [DecidableEq κ] in
theorem placed_update (h : Placed hash m) {i : Nat} {b : List (κ × ν)} {n : Nat}
    (hb : ∀ e ∈ b, i < m.hashsize ∧ place hash m.hashsize e.1 = i) (hnodup : (b.map Prod.fst).Nodup) :
    Placed hash ⟨m.hashsize, n, update m.bucket i b⟩ := by
  constructor
  · intro j e he
    dsimp only at he ⊢
    by_cases hj : j = i
    · subst hj
      rw [update_self] at he
      exact hb e he
    · rw [update_of_ne hj] at he
      exact h.place j e he
  intro j
  dsimp only
  by_cases hj : j = i
  · subst hj
    rw [update_self]
    exact hnodup
  · rw [update_of_ne hj]
    exact h.nodup j

theorem get_update (key : κ) {b : List (κ × ν)} {n : Nat} (k : κ) :
    get hash ⟨m.hashsize, n, update m.bucket (place hash m.hashsize key) b⟩ k =
      if place hash m.hashsize k = place hash m.hashsize key then (b.find? (·.1 = k)).map Prod.snd else get hash m k := by
  rw [get]
  dsimp only
  split
  · next h => rw [h, update_self]
  · next h => rw [update_of_ne h, get]

theorem put_spec (hne : m.hashsize ≠ 0) (h : Placed hash m) (key : κ) (val : ν) :
    Placed hash (put hash m key val) ∧ (put hash m key val).hashsize ≠ 0 ∧
      ∀ k, get hash (put hash m key val) k = if k = key then some val else get hash m k := by
  rw [put]
  split
  · next hany =>
    refine ⟨placed_update h ?_ ?_, hne, ?_⟩
    · intro e he
      obtain ⟨e', he', rfl⟩ := mem_map.mp he
      have hold := h.place _ e' he'
      split
      · exact hold
      · exact hold
    · rw [write_keys]
      exact h.nodup _
    intro k
    rw [get_update key k, find_write k hany]
    by_cases hk : k = key
    · simp [if_pos hk, if_pos (congrArg (place hash m.hashsize) hk)]
    split
    · next hplace => rw [get, hplace]
    · rfl
  · next hany =>
    have hkey : ∀ e ∈ m.bucket (place hash m.hashsize key), e.1 ≠ key := by
      intro e he heq
      exact hany (any_eq_true.mpr ⟨e, he, decide_eq_true heq⟩)
    refine ⟨placed_update h ?_ ?_, hne, ?_⟩
    · rw [forall_mem_cons]
      exact ⟨⟨place_lt hne key, rfl⟩, h.place _⟩
    · rw [map_cons, nodup_cons]
      refine ⟨?_, h.nodup _⟩
      intro hmem
      obtain ⟨e, he, heq⟩ := mem_map.mp hmem
      exact hkey e he heq
    intro k
    rw [push, get_update key k]
    by_cases hk : k = key
    · rw [if_pos hk, if_pos (by rw [hk]), find?_cons_of_pos (by simpa using hk.symm)]
      rfl
    rw [find?_cons_of_neg (by simpa using Ne.symm hk)]
    split
    · next hplace => rw [get, hplace]
    · rfl

theorem insert_spec {step : Nat} (hstep : 0 < step) (h : Placed hash m) (key : κ) (val : ν) :
    Placed hash (insert hash step m key val) ∧ (insert hash step m key val).hashsize ≠ 0 ∧
      ∀ k, get hash (insert hash step m key val) k = if k = key then some val else get hash m k := by
  obtain ⟨hplaced, hne, hget⟩ := put_spec (grown_ne_zero hstep) (placed_grown h step) key val
  refine ⟨hplaced, hne, ?_⟩
  intro k
  rw [insert, hget, get_grown h]

theorem remove_absent (hne : m.hashsize ≠ 0) {key : κ} (hkey : get hash m key = none) : remove hash m key = some (m, false) := by
  have hnone : ¬(m.bucket (place hash m.hashsize key)).any (·.1 = key) = true := by
    rw [any_eq_true]
    rintro ⟨e, he, hin⟩
    rw [get, Option.map_eq_none_iff, find?_eq_none] at hkey
    exact hkey e he hin
  rw [remove, if_neg hne, if_neg hnone]

theorem remove_spec (h : Placed hash m) (hne : m.hashsize ≠ 0) {key : κ} {val : ν} (hkey : get hash m key = some val) :
    ∃ m', remove hash m key = some (m', true) ∧ Placed hash m' ∧ m'.hashsize = m.hashsize ∧
      ∀ k, get hash m' k = if k = key then none else get hash m k := by
  have hmem : (key, val) ∈ m.bucket (place hash m.hashsize key) := (find_key_iff (h.nodup _)).mp hkey
  have hany : (m.bucket (place hash m.hashsize key)).any (·.1 = key) = true :=
    any_eq_true.mpr ⟨_, hmem, decide_eq_true rfl⟩
  have hsub := (eraseP_sublist (p := fun e : κ × ν => decide (e.1 = key)) (l := m.bucket (place hash m.hashsize key)))
  refine ⟨_, by rw [remove, if_neg hne, if_pos hany], placed_update h ?_ ?_, rfl, ?_⟩
  · exact fun e he => h.place _ e (hsub.subset he)
  · exact (hsub.map Prod.fst).nodup (h.nodup _)
  intro k
  rw [get_update key k]
  have herase : (((m.bucket (place hash m.hashsize key)).eraseP (·.1 = key)).find? (·.1 = k)).map Prod.snd =
      if k = key then none else ((m.bucket (place hash m.hashsize key)).find? (·.1 = k)).map Prod.snd := by
    apply Option.ext
    intro v
    rw [find_key_iff ((hsub.map Prod.fst).nodup (h.nodup _)), mem_eraseP_key (h.nodup _)]
    split
    · next hk => simp [hk]
    · next hk => rw [find_key_iff (h.nodup _), and_iff_right hk]
  rw [herase]
  by_cases hk : k = key
  · rw [if_pos (by rw [hk])]
    simp [if_pos hk]
  split
  · next hplace => rw [get, hplace]
  · rfl

end Chained

end NetBSD.Lib
