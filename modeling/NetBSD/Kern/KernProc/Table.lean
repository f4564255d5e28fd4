import NetBSD.Lib.System
import Mathlib.Logic.Function.Basic
import NetBSD.Lib.Linked
import Mathlib.Data.Nat.Bitwise
import Mathlib.Order.Interval.Finset.Nat

/-! The table of process ids.

A slot holds a process with its pid, or a free marker with a link: the next free slot in the bits
of the mask, the saved use count above. A process group sits in the slot of its id, also when
the process is gone. The table is a function of the index, of which the slots up to `mask` are in
use; its numbers are not bounded by a word. A panic or a failed assertion is `none`, and so is a
loop that has not ended within its rounds. -/
namespace NetBSD.Kern.KernProc
open Nat Function
open Lib

abbrev Proc := Nat

/-- `sid` is the id of the group's session. -/
structure Pgrp where
  id : Nat
  sid : Nat
  deriving DecidableEq

/-- `pt_proc`: `P_FREE(link)`, or a process. -/
inductive Ptr where
  | free (link : Nat)
  | proc (p : Proc)
  deriving DecidableEq

structure Slot where
  proc : Ptr
  pgrp : Option Pgrp
  pid : Nat
  deriving DecidableEq

structure PidTable where
  slots : Nat → Slot
  mask : Nat
  nextFree : Nat
  lastFree : Nat
  cnt : Nat
  lim : Nat
  pidMax : Nat

def PidTable.setSlot (t : PidTable) (s : Nat) (pt : Slot) : PidTable := { t with slots := update t.slots s pt }

def clear (x y : Nat) : Nat := x - (x &&& y)

def PID_MAX : Nat := 30000

/-- LINK_EMPTY, for a table of 32 slots. -/
def linkEmpty : Nat := clear (PID_MAX + 32) 31

/-- procinit, and slot 0 as proc0_init leaves it. -/
def procinit : PidTable where
  slots i := if i = 0 then ⟨.proc 0, some ⟨0, 0⟩, 0⟩ else if i = 31 then ⟨.free linkEmpty, none, 0⟩
    else ⟨.free (linkEmpty + i + 1), none, 0⟩
  mask := 31
  nextFree := 1
  lastFree := 31
  cnt := 0
  lim := 30
  pidMax := PID_MAX

def procFindRaw (t : PidTable) (pid : Nat) : Option Proc :=
  let pt := t.slots (pid &&& t.mask)
  match pt.proc with
  | .proc p => if pt.pid = pid then some p else none
  | .free _ => none

/-- The group in the slot of the id, if it has the id. -/
def findPgrp (t : PidTable) (pgid : Nat) : Option Pgrp := (t.slots (pgid &&& t.mask)).pgrp.filter fun pg => pg.id = pgid

/-- The pid that says which half the entry goes to, and the entry. -/
def moveEntry (size : Nat) (pt : Slot) : Nat × Slot :=
  match pt.proc with
  | .free link =>
    let link := clear (link + size) size
    (match pt.pgrp with
      | some pg => pg.id
      | none => link, ⟨.free link, pt.pgrp, 0⟩)
  | .proc _ => (pt.pid, pt)

/-- The slots below `i` of the old table, from the last one down. -/
def expandLoop (old : PidTable) : Nat → (Nat → Slot) → Nat → (Nat → Slot) × Nat
  | 0, slots, nextFree => (slots, nextFree)
  | i + 1, slots, nextFree =>
    let size := old.mask + 1
    let pid := (moveEntry size (old.slots i)).1
    let other := clear (pid ^^^ size) old.mask
    -- The entry in its half, and the other piece on the front of the free list.
    let slots := update slots (i + (pid &&& size)) (moveEntry size (old.slots i)).2
    let slots := update slots (i + (other &&& size)) ⟨.free (clear other size ||| nextFree), none, 0⟩
    expandLoop old i slots (i ||| (other &&& size))

/-- `mem` is what the memory for the new table held before. -/
def expandPidTable (mem : Nat → Slot) (t : PidTable) : PidTable :=
  let size := t.mask + 1
  let new := expandLoop t size mem t.nextFree
  let mask := size * 2 - 1
  { t with
    slots := new.1
    nextFree := new.2
    mask := mask
    pidMax := if mask > PID_MAX then mask * 2 + 1 else t.pidMax
    lim := if mask > PID_MAX then t.lim ||| t.lim <<< 1 else t.lim <<< 1 }

/-- The slot at the head of the free list is given to `p`, with what it links to. -/
def grabSlot (t : PidTable) (p : Proc) (nxt : Nat) : Nat × PidTable :=
  let pid := clear nxt t.mask + t.mask + 1 + t.nextFree
  let pid := if pid > t.pidMax then pid &&& t.mask else pid
  (pid, { t.setSlot t.nextFree { t.slots t.nextFree with proc := .proc p, pid := pid } with
    nextFree := nxt &&& t.mask
    cnt := t.cnt + 1 })

def procAllocPid (mem : Nat → Slot) : Nat → PidTable → Proc → Option (Nat × PidTable)
  | 0, _, _ => none
  | rounds + 1, t, p =>
    if t.cnt ≥ t.lim then procAllocPid mem rounds (expandPidTable mem t) p
    else
      let pt := t.slots t.nextFree
      match pt.proc, pt.pgrp with
      | .free nxt, none =>
        if nxt &&& t.mask = 0 then procAllocPid mem rounds (expandPidTable mem t) p
        else if pt.pid ≠ 0 then none
        else some (grabSlot t p nxt)
      | _, _ => none

/-- `P_FREE(P_NEXT(pt->pt_proc) | x)` -/
def linkTo (ptr : Ptr) (x : Nat) : Ptr :=
  match ptr with
  | .free link => .free (link ||| x)
  | .proc p => .proc p

/-- The slot is linked behind the last one of the free list. -/
def appendFree (t : PidTable) (slot : Nat) : PidTable :=
  let last := t.slots t.lastFree
  { t.setSlot t.lastFree { last with proc := linkTo last.proc slot, pid := 0 } with
    lastFree := slot
    cnt := t.cnt - 1 }

def procFreePid (t : PidTable) (pid : Nat) : Option PidTable :=
  let slot := pid &&& t.mask
  let pt := t.slots slot
  if pt.pid ≠ pid then none
  else
    let t := t.setSlot slot { pt with proc := .free (clear pid t.mask), pid := 0 }
    match pt.pgrp with
    | none => some (appendFree t slot)
    | some _ => some t

/-! ### Process groups -/

/-- pg_remove, but for the members of the group. -/
def pgRemove (t : PidTable) (pgid : Nat) : Option PidTable :=
  let slot := pgid &&& t.mask
  let pt := t.slots slot
  match pt.pgrp with
  | none => none
  | some pg =>
    if pg.id ≠ pgid then none
    else
      let t := t.setSlot slot { pt with pgrp := none }
      match pt.proc with
      | .proc _ => some t
      | .free link => if link &&& t.mask ≠ 0 then none else some (appendFree t slot)

/-- The table entry of a new group. -/
def addPgrp (t : PidTable) (pg : Pgrp) : PidTable :=
  let slot := pg.id &&& t.mask
  t.setSlot slot { t.slots slot with pgrp := some pg }

/-! What the pid table keeps.

The size is a power of two, so a mask is a remainder and `x & size` tells the half of the doubled
table. `Kept` is the invariant; with it the table is two maps, from pids to processes and from group
ids to groups, and every operation but the expansion changes one of them in one place. -/

section Halves
variable (x y k : Nat)

theorem mod_double : x % 2 ^ (k + 1) = x % 2 ^ k + (x &&& 2 ^ k) := by
  rw [mod_pow_succ, and_two_pow, toNat_testBit, mul_comm]

theorem half_cases : (x &&& 2 ^ k) = 0 ∨ (x &&& 2 ^ k) = 2 ^ k := by
  rw [and_two_pow]
  cases x.testBit k <;> simp

theorem clear_half_mod : clear x (2 ^ k) % 2 ^ (k + 1) = x % 2 ^ k := by
  have hsplit := mod_double x k
  have hdiv := div_add_mod x (2 ^ (k + 1))
  have hval : clear x (2 ^ k) = 2 ^ (k + 1) * (x / 2 ^ (k + 1)) + x % 2 ^ k := by
    rw [clear]
    omega
  have hlt : x % 2 ^ k < 2 ^ (k + 1) := by
    omega
  rw [hval, mul_add_mod, mod_eq_of_lt hlt]

theorem clear_mask_eq : clear x (2 ^ k - 1) = 2 ^ k * (x / 2 ^ k) := by
  have hdiv := div_add_mod x (2 ^ k)
  rw [clear, and_two_pow_sub_one_eq_mod]
  omega

theorem clear_mask_mod : clear x (2 ^ k - 1) % 2 ^ k = 0 := by
  rw [clear_mask_eq, mul_mod_right]

theorem half_other : (clear (x ^^^ 2 ^ k) (2 ^ k - 1) &&& 2 ^ k) + (x &&& 2 ^ k) = 2 ^ k := by
  rw [clear_mask_eq, and_two_pow, and_two_pow]
  have hbit : (2 ^ k * ((x ^^^ 2 ^ k) / 2 ^ k)).testBit k = !x.testBit k := by
    rw [testBit_two_pow_mul, testBit_div_two_pow]
    simp
  rw [hbit]
  cases x.testBit k <;> simp

theorem or_mod_of_zero (hx : x % 2 ^ k = 0) (hy : y < 2 ^ k) : (x ||| y) % 2 ^ k = y := by
  rw [or_mod_two_pow, hx, zero_or, mod_eq_of_lt hy]

theorem or_half (hy : y < 2 ^ k) : y ||| (x &&& 2 ^ k) = y + (x &&& 2 ^ k) := by
  obtain h | h := half_cases x k
  · rw [h, or_zero, add_zero]
  have hor := two_pow_add_eq_or_of_lt hy 1
  rw [mul_one] at hor
  rw [h, Nat.or_comm, ← hor, add_comm]

end Halves

def Slot.Vacant (pt : Slot) : Prop := ∃ link, pt.proc = .free link

instance (pt : Slot) : Decidable pt.Vacant :=
  match h : pt.proc with
  | .free link => isTrue ⟨link, h⟩
  | .proc _ => isFalse fun ⟨_, hfree⟩ => nomatch h.symm.trans hfree

/-- P_NEXT(pt_proc) & pid_tbl_mask. -/
def PidTable.link (t : PidTable) (s : Nat) : Nat :=
  match (t.slots s).proc with
  | .free link => link &&& t.mask
  | .proc _ => 0

/-- The slot holds neither a process nor a process group. -/
def PidTable.Free (t : PidTable) (s : Nat) : Prop := s ≤ t.mask ∧ (t.slots s).Vacant ∧ (t.slots s).pgrp = none

instance (t : PidTable) : DecidablePred t.Free := fun _ => inferInstanceAs (Decidable (_ ∧ _ ∧ _))

/-- What a slot of a table of `size` slots holds belongs there. -/
def SlotOk (size s : Nat) (pt : Slot) : Prop :=
  match pt.proc with
  | .proc _ => pt.pid % size = s ∧ ∀ pg ∈ pt.pgrp, pg.id = pt.pid
  | .free link => pt.pid = 0 ∧ ∀ pg ∈ pt.pgrp, pg.id % size = s ∧ link % size = 0

/-- `l` is what one sees from next_free_pt to last_free_pt. -/
structure PidTable.Chain (t : PidTable) (l : List Nat) : Prop where
  linked : Linked t.link (· = 0) t.nextFree l
  last : l.getLast? = some t.lastFree

/-- The slots and the numbers of the table. -/
structure Slots (t : PidTable) : Prop where
  size : ∃ k, t.mask + 1 = 2 ^ k
  slot : ∀ s ≤ t.mask, SlotOk (t.mask + 1) s (t.slots s)
  zero : (t.slots 0).proc = .proc 0 ∧ (t.slots 0).pid = 0
  lim : 15 * (t.mask + 1) ≤ 16 * t.lim
  pidMax : t.mask ≤ t.pidMax
  pidMax_ge : PID_MAX ≤ t.pidMax

structure Exact (t : PidTable) (l : List Nat) : Prop where
  chain : t.Chain l
  mem : ∀ s, s ∈ l ↔ t.Free s
  cnt : t.cnt + l.length = t.mask

structure Kept (t : PidTable) (l : List Nat) : Prop where
  slots : Slots t
  list : Exact t l

section Slots
variable {t t' : PidTable} {l : List Nat} {s : Nat} {pid : Nat} {p : Proc} {pg : Pgrp}

theorem Slots.and_mask (h : Slots t) (x : Nat) : x &&& t.mask = x % (t.mask + 1) := by
  obtain ⟨k, hk⟩ := h.size
  rw [show t.mask = 2 ^ k - 1 by omega, and_two_pow_sub_one_eq_mod, Nat.sub_add_cancel (Nat.two_pow_pos k)]

theorem Slots.clear_mask (h : Slots t) (x : Nat) : clear x t.mask % (t.mask + 1) = 0 := by
  obtain ⟨k, hk⟩ := h.size
  rw [hk, show t.mask = 2 ^ k - 1 by omega]
  exact clear_mask_mod x k

theorem Slots.mod_le (t : PidTable) (x : Nat) : x % (t.mask + 1) ≤ t.mask := Nat.lt_succ_iff.mp (mod_lt x (succ_pos _))

theorem Slots.find_iff (h : Slots t) : procFindRaw t pid = some p ↔
    (t.slots (pid % (t.mask + 1))).proc = .proc p ∧ (t.slots (pid % (t.mask + 1))).pid = pid := by
  rw [procFindRaw, h.and_mask]
  cases hp : (t.slots (pid % (t.mask + 1))).proc with
  | free link => simp
  | proc q =>
    dsimp only
    split <;> simp_all

theorem Slots.findPgrp_iff (h : Slots t) : findPgrp t pid = some pg ↔ (t.slots (pid % (t.mask + 1))).pgrp = some pg ∧ pg.id = pid := by
  rw [findPgrp, h.and_mask, Option.filter_eq_some_iff, decide_eq_true_eq]

theorem Slots.pgrp_slot (h : Slots t) (hs : s ≤ t.mask) (hpg : (t.slots s).pgrp = some pg) : pg.id % (t.mask + 1) = s := by
  have hok := h.slot s hs
  rw [SlotOk] at hok
  cases hp : (t.slots s).proc with
  | proc q =>
    rw [hp] at hok
    rw [hok.2 pg hpg]
    exact hok.1
  | free link =>
    rw [hp] at hok
    exact (hok.2 pg hpg).1

end Slots

section Count
variable {t : PidTable} {l : List Nat}

theorem Kept.cnt_eq (h : Kept t l) : t.cnt = ((Finset.Icc 1 t.mask).filter fun s => ¬t.Free s).card := by
  have hlist : l.toFinset = (Finset.Icc 1 t.mask).filter fun s => t.Free s := by
    ext s
    rw [List.mem_toFinset, Finset.mem_filter, Finset.mem_Icc, h.list.mem]
    refine ⟨fun hs => ⟨⟨?_, hs.1⟩, hs⟩, And.right⟩
    exact Nat.pos_of_ne_zero (h.list.chain.linked.not_stop s ((h.list.mem s).mpr hs))
  have hlen : l.length = ((Finset.Icc 1 t.mask).filter fun s => t.Free s).card := by
    rw [← hlist, List.toFinset_card_of_nodup h.list.chain.linked.nodup]
  have hsplit := Finset.card_filter_add_card_filter_not (s := Finset.Icc 1 t.mask) fun s => t.Free s
  have hcnt := h.list.cnt
  rw [card_Icc] at hsplit
  omega

theorem Kept.cnt_pos (h : Kept t l) {s : Nat} (hs : s ≤ t.mask) (hpos : s ≠ 0) (hbusy : ¬t.Free s) : 0 < t.cnt := by
  rw [h.cnt_eq]
  apply Finset.card_pos.mpr
  exact ⟨s, Finset.mem_filter.mpr ⟨Finset.mem_Icc.mpr ⟨Nat.pos_of_ne_zero hpos, hs⟩, hbusy⟩⟩

end Count

end NetBSD.Kern.KernProc
