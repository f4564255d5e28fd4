import NetBSD.Kern.KernProc.Table

/-! The table is doubled.

Slot `i` of the old table becomes the pair `i` and `i + size`. The entry goes to the half its pid, or
the id of its group, asks for; the other slot of the pair is put on the front of the free list. A free
entry stays in the low half, so the links of the old list go on to hold. -/
namespace NetBSD.Kern.KernProc
open List Function Nat
open Lib

section Pairs
variable (t : PidTable) (i : Nat)

/-- The pid that decides on the half of slot `i`. -/
def halfPid : Nat := (moveEntry (t.mask + 1) (t.slots i)).1

/-- Where the entry of slot `i` goes. -/
def place : Nat := i + (halfPid t i &&& (t.mask + 1))

def otherPid : Nat := clear (halfPid t i ^^^ (t.mask + 1)) t.mask

def spare : Nat := i + (otherPid t i &&& (t.mask + 1))

def spareSlot (nextFree : Nat) : Slot := ⟨.free (clear (otherPid t i) (t.mask + 1) ||| nextFree), none, 0⟩

variable {t i} {k : Nat} (hk : t.mask + 1 = 2 ^ k)
include hk

theorem mask_eq : t.mask = 2 ^ k - 1 := by omega

theorem spare_add_place : spare t i + place t i = 2 * i + (t.mask + 1) := by
  have hother := half_other (halfPid t i) k
  rw [spare, place, otherPid, mask_eq hk, Nat.sub_add_cancel (Nat.two_pow_pos k)]
  omega

theorem place_cases : place t i = i ∨ place t i = i + (t.mask + 1) := by
  rw [place, hk]
  exact (half_cases (halfPid t i) k).imp (fun h => by rw [h, add_zero]) fun h => by rw [h]

theorem place_mod (hi : i ≤ t.mask) : place t i % (t.mask + 1) = i := by
  obtain h | h := place_cases (i := i) hk
  · rw [h, mod_eq_of_lt (lt_succ_of_le hi)]
  · rw [h, add_mod_right, mod_eq_of_lt (lt_succ_of_le hi)]

theorem spare_ne_place : spare t i ≠ place t i := by
  have hsum := spare_add_place (i := i) hk
  obtain h | h := place_cases (i := i) hk <;> omega

theorem spare_mod (hi : i ≤ t.mask) : spare t i % (t.mask + 1) = i := by
  have hsum := spare_add_place (i := i) hk
  obtain h | h := place_cases (i := i) hk
  · rw [show spare t i = i + (t.mask + 1) by omega, add_mod_right, mod_eq_of_lt (lt_succ_of_le hi)]
  · rw [show spare t i = i by omega, mod_eq_of_lt (lt_succ_of_le hi)]

theorem pair_cases {x : Nat} (hx : x < 2 * (t.mask + 1)) (hi : x % (t.mask + 1) = i) : x = place t i ∨ x = spare t i := by
  have hsum := spare_add_place (i := i) hk
  have hdiv := div_add_mod x (t.mask + 1)
  have hlow : x = i ∨ x = i + (t.mask + 1) := by
    have hle : x / (t.mask + 1) < 2 := Nat.div_lt_of_lt_mul (by rw [mul_comm]; exact hx)
    obtain hz | hz := le_one_iff_eq_zero_or_eq_one.mp (Nat.lt_succ_iff.mp hle)
    · rw [hz] at hdiv
      omega
    · rw [hz] at hdiv
      omega
  obtain h | h := place_cases (i := i) hk <;> omega

theorem spare_lt (hi : i ≤ t.mask) : spare t i < 2 * (t.mask + 1) := by
  have hsum := spare_add_place (i := i) hk
  obtain h | h := place_cases (i := i) hk <;> omega

theorem place_lt (hi : i ≤ t.mask) : place t i < 2 * (t.mask + 1) := by
  obtain h | h := place_cases (i := i) hk <;> omega

theorem place_eq {pid : Nat} (hpid : halfPid t i = pid) (hmod : pid % (t.mask + 1) = i) : place t i = pid % (2 * (t.mask + 1)) := by
  rw [place, hpid, ← hmod, hk, ← mod_double, Nat.pow_succ, mul_comm]

end Pairs

/-- The new slots and the front of the free list, after the slots below `n` are done too. -/
structure Moved (t : PidTable) (n : Nat) (slots : Nat → Slot) (nextFree : Nat) (r : (Nat → Slot) × Nat) : Prop where
  frame : ∀ x, n ≤ x % (t.mask + 1) → r.1 x = slots x
  entry : ∀ i < n, r.1 (place t i) = (moveEntry (t.mask + 1) (t.slots i)).2
  spare : ∀ i < n, r.1 (spare t i) = spareSlot t i (if i + 1 = n then nextFree else KernProc.spare t (i + 1))
  front : r.2 = if n = 0 then nextFree else KernProc.spare t 0

theorem expandLoop_moved {t : PidTable} {k : Nat} (hk : t.mask + 1 = 2 ^ k) (n : Nat) (hn : n ≤ t.mask + 1) (slots : Nat → Slot)
    (nextFree : Nat) : Moved t n slots nextFree (expandLoop t n slots nextFree) := by
  induction n generalizing slots nextFree with
  | zero => exact ⟨fun _ _ => rfl, fun _ hi => by omega, fun _ hi => by omega, rfl⟩
  | succ n ih =>
    have hle : n ≤ t.mask := by omega
    have hor : n ||| (otherPid t n &&& (t.mask + 1)) = spare t n := by
      rw [spare, hk]
      exact or_half _ n k (by omega)
    have hloop : expandLoop t (n + 1) slots nextFree = expandLoop t n (update (update slots (place t n)
        (moveEntry (t.mask + 1) (t.slots n)).2) (spare t n) (spareSlot t n nextFree))
        (n ||| (otherPid t n &&& (t.mask + 1))) := rfl
    rw [hor] at hloop
    rw [hloop]
    have hih := ih (by omega) (update (update slots (place t n)
      (moveEntry (t.mask + 1) (t.slots n)).2) (spare t n) (spareSlot t n nextFree)) (spare t n)
    refine ⟨?_, ?_, ?_, ?_⟩
    · intro x hx
      have hplace : x ≠ place t n := fun heq => by
        rw [heq, place_mod hk hle] at hx
        omega
      have hspare : x ≠ spare t n := fun heq => by
        rw [heq, spare_mod hk hle] at hx
        omega
      rw [hih.frame x (by omega), update_of_ne hspare, update_of_ne hplace]
    · intro i hi
      obtain hlt | rfl := lt_or_eq_of_le (Nat.lt_succ_iff.mp hi)
      · exact hih.entry i hlt
      · rw [hih.frame _ (by rw [place_mod hk hle]), update_of_ne (spare_ne_place hk).symm, update_self]
    · intro i hi
      obtain hlt | rfl := lt_or_eq_of_le (Nat.lt_succ_iff.mp hi)
      · rw [hih.spare i hlt]
        rw [if_neg (show i + 1 ≠ n + 1 by omega)]
        split
        · next heq => rw [heq]
        · rfl
      · rw [hih.frame _ (by rw [spare_mod hk hle]), update_self, if_pos rfl]
    · rw [hih.front, if_neg (succ_ne_zero n)]
      split
      · next heq => rw [heq]
      · rfl

/-! ### Entries -/

section Entries
variable (size : Nat) (pt : Slot)

theorem moveEntry_pgrp : (moveEntry size pt).2.pgrp = pt.pgrp := by
  rw [moveEntry]
  cases pt.proc <;> rfl

theorem moveEntry_proc {p : Proc} : (moveEntry size pt).2.proc = .proc p ↔ pt.proc = .proc p := by
  rw [moveEntry]
  cases hp : pt.proc with
  | proc q => simp [hp]
  | free link => simp

theorem moveEntry_of_proc {p : Proc} (hp : pt.proc = .proc p) : moveEntry size pt = (pt.pid, pt) := by
  rw [moveEntry, hp]

theorem moveEntry_of_free {link : Nat} (hp : pt.proc = .free link) (hpg : pt.pgrp = none) :
    moveEntry size pt = (clear (link + size) size, ⟨.free (clear (link + size) size), none, 0⟩) := by
  rw [moveEntry, hp, hpg]

theorem moveEntry_of_orphan {link : Nat} {pg : Pgrp} (hp : pt.proc = .free link) (hpg : pt.pgrp = some pg) :
    moveEntry size pt = (pg.id, ⟨.free (clear (link + size) size), some pg, 0⟩) := by
  rw [moveEntry, hp, hpg]

theorem link_mod (link k : Nat) : clear (link + 2 ^ k) (2 ^ k) % 2 ^ (k + 1) = link % 2 ^ k := by
  rw [clear_half_mod, add_mod_right]

end Entries

section Expanded
variable {t : PidTable} {l : List Nat} {mem : Nat → Slot} {k : Nat} (h : Kept t l) (hk : t.mask + 1 = 2 ^ k)

theorem expand_mask : (expandPidTable mem t).mask + 1 = 2 * (t.mask + 1) := by
  show (t.mask + 1) * 2 - 1 + 1 = _
  omega

include hk in
theorem expand_moved : Moved t (t.mask + 1) mem t.nextFree ((expandPidTable mem t).slots, (expandPidTable mem t).nextFree) :=
  expandLoop_moved hk _ (le_refl _) mem t.nextFree

include hk in
theorem expand_entry {i : Nat} (hi : i ≤ t.mask) : (expandPidTable mem t).slots (place t i) = (moveEntry (t.mask + 1) (t.slots i)).2 :=
  (expand_moved hk).entry i (lt_succ_of_le hi)

include hk in
theorem expand_spare {i : Nat} (hi : i ≤ t.mask) : ∃ nextFree, (expandPidTable mem t).slots (spare t i) = spareSlot t i nextFree :=
  ⟨_, (expand_moved hk).spare i (lt_succ_of_le hi)⟩

include h

theorem place_of_proc {i : Nat} (hi : i ≤ t.mask) {p : Proc} (hp : (t.slots i).proc = .proc p) :
    place t i = (t.slots i).pid % (2 * (t.mask + 1)) := by
  obtain ⟨k, hk⟩ := h.slots.size
  have hok := h.slots.slot i hi
  rw [SlotOk, hp] at hok
  exact place_eq hk (by rw [halfPid, moveEntry_of_proc _ _ hp]) hok.1

theorem place_of_pgrp {i : Nat} (hi : i ≤ t.mask) {pg : Pgrp} (hpg : (t.slots i).pgrp = some pg) : place t i = pg.id % (2 * (t.mask + 1)) := by
  obtain ⟨k, hk⟩ := h.slots.size
  have hok := h.slots.slot i hi
  rw [SlotOk] at hok
  cases hp : (t.slots i).proc with
  | proc q =>
    rw [hp] at hok
    rw [hok.2 pg hpg]
    exact place_of_proc h hi hp
  | free link => exact place_eq hk (by rw [halfPid, moveEntry_of_orphan _ _ hp hpg]) (h.slots.pgrp_slot hi hpg)

omit h in
include hk in
theorem place_of_free {i : Nat} (hi : t.Free i) : place t i = i := by
  obtain ⟨link, hp⟩ := hi.2.1
  have hmod := link_mod link k
  have hsplit := mod_double (clear (link + 2 ^ k) (2 ^ k)) k
  have hlt := mod_lt link (Nat.two_pow_pos k)
  rw [place, halfPid, moveEntry_of_free _ _ hp hi.2.2, hk]
  obtain hz | hz := half_cases (clear (link + 2 ^ k) (2 ^ k)) k
  · rw [hz, add_zero]
  · omega

include hk in
theorem expand_slots : Slots (expandPidTable mem t) where
  size := ⟨k + 1, by rw [expand_mask, hk, Nat.pow_succ, mul_comm]⟩
  slot := by
    intro x hx
    have hlt : x < 2 * (t.mask + 1) := by
      rw [← @expand_mask t mem]
      omega
    have hi := Slots.mod_le t x
    rw [expand_mask]
    obtain hpl | hsp := pair_cases hk hlt rfl
    · generalize x % (t.mask + 1) = i at *
      rw [hpl, expand_entry hk hi]
      have hok := h.slots.slot i hi
      rw [SlotOk] at hok ⊢
      cases hp : (t.slots i).proc with
      | proc q =>
        rw [hp] at hok
        rw [moveEntry_of_proc _ _ hp]
        dsimp only
        rw [hp]
        exact ⟨(place_of_proc h hi hp).symm, hok.2⟩
      | free link =>
        rw [hp] at hok
        cases hpg : (t.slots i).pgrp with
        | none =>
          rw [moveEntry_of_free _ _ hp hpg]
          exact ⟨rfl, fun pg hnone => absurd hnone.symm (Option.some_ne_none pg)⟩
        | some pg =>
          rw [moveEntry_of_orphan _ _ hp hpg]
          refine ⟨rfl, ?_⟩
          intro pg' hpg'
          obtain rfl := Option.some.inj hpg'
          refine ⟨(place_of_pgrp h hi hpg).symm, ?_⟩
          have hzero := (hok.2 pg hpg).2
          rw [hk] at hzero ⊢
          rw [mul_comm, ← Nat.pow_succ, link_mod, hzero]
    · obtain ⟨nextFree, hspare⟩ := @expand_spare t mem k hk _ hi
      rw [hsp, hspare]
      exact ⟨rfl, fun pg hnone => absurd hnone.symm (Option.some_ne_none pg)⟩
  zero := by
    have hplace : place t 0 = 0 := by
      rw [place_of_proc h (zero_le _) h.slots.zero.1, h.slots.zero.2, zero_mod]
    have hentry := @expand_entry t mem k hk 0 (zero_le _)
    rw [hplace, moveEntry_of_proc _ _ h.slots.zero.1] at hentry
    rw [hentry]
    exact h.slots.zero
  lim := by
    have hlim := h.slots.lim
    have hdouble : t.lim * 2 ≤ (expandPidTable mem t).lim := by
      show t.lim * 2 ≤ if _ then t.lim ||| t.lim <<< 1 else t.lim <<< 1
      rw [show t.lim <<< 1 = t.lim * 2 by rw [shiftLeft_eq]]
      split
      · exact right_le_or
      · exact le_refl _
    rw [expand_mask]
    omega
  pidMax := by
    have hge := h.slots.pidMax_ge
    show (t.mask + 1) * 2 - 1 ≤ if (t.mask + 1) * 2 - 1 > PID_MAX then ((t.mask + 1) * 2 - 1) * 2 + 1 else t.pidMax
    split <;> omega
  pidMax_ge := by
    have hge := h.slots.pidMax_ge
    show PID_MAX ≤ if (t.mask + 1) * 2 - 1 > PID_MAX then ((t.mask + 1) * 2 - 1) * 2 + 1 else t.pidMax
    split <;> omega

omit h in
include hk in
theorem expand_free {i : Nat} (hi : i ≤ t.mask) : (expandPidTable mem t).Free (place t i) ↔ t.Free i := by
  have hle : place t i ≤ (expandPidTable mem t).mask := by
    have := place_lt hk hi
    have := @expand_mask t mem
    omega
  rw [PidTable.Free, PidTable.Free, expand_entry hk hi, moveEntry_pgrp]
  refine ⟨?_, ?_⟩
  · rintro ⟨-, ⟨link, hlink⟩, hpg⟩
    refine ⟨hi, ?_, hpg⟩
    cases hp : (t.slots i).proc with
    | proc q =>
      rw [(moveEntry_proc _ _).mpr hp] at hlink
      exact absurd hlink (by simp)
    | free link' => exact ⟨link', hp⟩
  · rintro ⟨-, ⟨link, hlink⟩, hpg⟩
    refine ⟨hle, ?_, hpg⟩
    rw [moveEntry_of_free _ _ hlink hpg]
    exact ⟨_, rfl⟩

theorem expand_linked (n m : Nat) (hnm : m + n = t.mask + 1) :
    Linked (expandPidTable mem t).link (· = 0) (if m = t.mask + 1 then t.nextFree else spare t m)
      ((List.range' m n).map (spare t) ++ l) := by
  obtain ⟨k, hk⟩ := h.slots.size
  have hsize : (expandPidTable mem t).mask + 1 = 2 ^ (k + 1) := by rw [expand_mask, hk, Nat.pow_succ, mul_comm]
  have hslots := @expand_slots t l mem k h hk
  induction n generalizing m with
  | zero =>
    rw [if_pos (show m = t.mask + 1 by omega)]
    -- The old links go on to hold: their entries stay in the low half.
    apply h.list.chain.linked.congr
    intro x hx
    have hfree := (h.list.mem x).mp hx
    obtain ⟨link, hlink⟩ := hfree.2.1
    have hentry := @expand_entry t mem k hk x hfree.1
    rw [place_of_free hk hfree, moveEntry_of_free _ _ hlink hfree.2.2] at hentry
    rw [PidTable.link, PidTable.link, hentry, hlink]
    dsimp only
    rw [hslots.and_mask, h.slots.and_mask, hsize, hk, link_mod]
  | succ n ih =>
    have hm : m ≤ t.mask := by omega
    rw [if_neg (by omega), range'_succ, map_cons]
    have hnext := ih (m + 1) (by omega)
    have hlink : (expandPidTable mem t).link (spare t m) = if m + 1 = t.mask + 1 then t.nextFree else spare t (m + 1) := by
      have hspare := (@expand_moved t mem k hk).spare m (lt_succ_of_le hm)
      dsimp only at hspare
      rw [PidTable.link, hspare, spareSlot]
      dsimp only
      rw [hslots.and_mask, hsize]
      apply or_mod_of_zero
      · rw [hk, clear_half_mod, otherPid, mask_eq hk]
        exact clear_mask_mod _ k
      have hpow : 2 ^ (k + 1) = 2 * (t.mask + 1) := by rw [← hsize, expand_mask]
      rw [hpow]
      split
      · have := ((h.list.mem _).mp h.list.chain.linked.mem_self).1
        omega
      · exact spare_lt hk (by omega)
    refine .link ?_ (hlink ▸ hnext)
    -- The slot beside slot 0 is the one of the upper half.
    intro hzero
    have hsum := spare_add_place (i := m) hk
    have hpl := place_cases (i := m) hk
    have hm0 : m = 0 := by omega
    subst hm0
    have hplace : place t 0 = 0 := by
      rw [place_of_proc h (zero_le _) h.slots.zero.1, h.slots.zero.2, zero_mod]
    omega

theorem expand_list : Exact (expandPidTable mem t) ((List.range' 0 (t.mask + 1)).map (spare t) ++ l) := by
  obtain ⟨k, hk⟩ := h.slots.size
  obtain ⟨rest, hrest⟩ := h.list.chain.linked.eq_cons
  have hmask := @expand_mask t mem
  refine ⟨⟨?_, ?_⟩, ?_, ?_⟩
  · have hlinked := @expand_linked t l mem h (t.mask + 1) 0 (zero_add _)
    have hfront : (expandPidTable mem t).nextFree = spare t 0 := by
      have hmoved := (@expand_moved t mem k hk).front
      rwa [if_neg (by omega)] at hmoved
    rw [hfront]
    exact hlinked
  · rw [getLast?_append_of_ne_nil _ (by rw [hrest]; simp)]
    exact h.list.chain.last
  · intro s
    rw [mem_append, mem_map]
    refine ⟨?_, ?_⟩
    · rintro (⟨i, hi, rfl⟩ | hs)
      · have hle : i ≤ t.mask := by
          have := (mem_range'_1.mp hi).2
          omega
        obtain ⟨nextFree, hspare⟩ := @expand_spare t mem k hk i hle
        have hlt := spare_lt hk hle
        refine ⟨by omega, ?_, ?_⟩
        · rw [hspare]
          exact ⟨_, rfl⟩
        · rw [hspare]
          rfl
      · have hfree := (h.list.mem s).mp hs
        have := (@expand_free t mem k hk s hfree.1).mpr hfree
        rwa [place_of_free hk hfree] at this
    · intro hfree
      have hlt : s < 2 * (t.mask + 1) := by
        have := hfree.1
        omega
      have hi := Slots.mod_le t s
      obtain hpl | hsp := pair_cases hk hlt rfl
      · right
        rw [hpl] at hfree
        have hold := (expand_free hk hi).mp hfree
        rw [hpl, place_of_free hk hold]
        exact (h.list.mem _).mpr hold
      · left
        exact ⟨_, mem_range'_1.mpr ⟨zero_le _, by omega⟩, hsp.symm⟩
  · have hcnt := h.list.cnt
    show t.cnt + _ = (t.mask + 1) * 2 - 1
    rw [length_append, length_map, length_range']
    omega

theorem expand_kept : ∃ l', Kept (expandPidTable mem t) l' := by
  obtain ⟨k, hk⟩ := h.slots.size
  exact ⟨_, expand_slots h hk, expand_list h⟩

theorem expand_find : procFindRaw (expandPidTable mem t) = procFindRaw t := by
  obtain ⟨k, hk⟩ := h.slots.size
  funext pid
  apply Option.ext
  intro p
  rw [(expand_slots h hk).find_iff, h.slots.find_iff, expand_mask]
  have hi := Slots.mod_le t pid
  have hlt : pid % (2 * (t.mask + 1)) < 2 * (t.mask + 1) := mod_lt _ (by omega)
  have hmod : pid % (2 * (t.mask + 1)) % (t.mask + 1) = pid % (t.mask + 1) := mod_mod_of_dvd _ (Dvd.intro_left 2 rfl)
  refine ⟨?_, ?_⟩
  · rintro ⟨hproc, hpid⟩
    obtain hpl | hsp := pair_cases hk hlt hmod
    · rw [hpl, expand_entry hk hi] at hproc hpid
      have hold := (moveEntry_proc _ _).mp hproc
      rw [moveEntry_of_proc _ _ hold] at hpid
      exact ⟨hold, hpid⟩
    · obtain ⟨nextFree, hspare⟩ := @expand_spare t mem k hk _ hi
      rw [hsp, hspare] at hproc
      exact absurd hproc (by simp [spareSlot])
  · rintro ⟨hproc, hpid⟩
    have hplace := place_of_proc h hi hproc
    rw [hpid] at hplace
    rw [← hplace, expand_entry hk hi, moveEntry_of_proc _ _ hproc]
    exact ⟨hproc, hpid⟩

theorem expand_findPgrp : findPgrp (expandPidTable mem t) = findPgrp t := by
  obtain ⟨k, hk⟩ := h.slots.size
  funext pgid
  apply Option.ext
  intro pg
  rw [(expand_slots h hk).findPgrp_iff, h.slots.findPgrp_iff, expand_mask]
  have hi := Slots.mod_le t pgid
  have hlt : pgid % (2 * (t.mask + 1)) < 2 * (t.mask + 1) := mod_lt _ (by omega)
  have hmod : pgid % (2 * (t.mask + 1)) % (t.mask + 1) = pgid % (t.mask + 1) := mod_mod_of_dvd _ (Dvd.intro_left 2 rfl)
  refine ⟨?_, ?_⟩
  · rintro ⟨hpg, hid⟩
    obtain hpl | hsp := pair_cases hk hlt hmod
    · rw [hpl, expand_entry hk hi, moveEntry_pgrp] at hpg
      exact ⟨hpg, hid⟩
    obtain ⟨nextFree, hspare⟩ := @expand_spare t mem k hk _ hi
    rw [hsp, hspare] at hpg
    exact absurd hpg (by simp [spareSlot])
  · rintro ⟨hpg, hid⟩
    have hplace := place_of_pgrp h hi hpg
    rw [hid] at hplace
    rw [← hplace, expand_entry hk hi, moveEntry_pgrp]
    exact ⟨hpg, hid⟩

end Expanded

end NetBSD.Kern.KernProc
