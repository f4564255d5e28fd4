import NetBSD.Kern.KernProc.Table

/-! Steps of the table that change one entry.

A pid is given out from the front of the free list and given back at its end; a group is put into
the slot of its leader and taken out again. Each step keeps the invariant and changes one of the two
maps at one id. -/
namespace NetBSD.Kern.KernProc
open List Function Nat
open Lib

def Slot.findProc (pt : Slot) (pid : Nat) : Option Proc :=
  match pt.proc with
  | .proc p => if pt.pid = pid then some p else none
  | .free _ => none

def Slot.findPgrp (pt : Slot) (pgid : Nat) : Option Pgrp := pt.pgrp.filter fun pg => pg.id = pgid

/-- One slot is written, and the numbers that bound the pids stay. -/
structure Writes (t t' : PidTable) (s : Nat) (pt : Slot) : Prop where
  slots : t'.slots = update t.slots s pt
  mask : t'.mask = t.mask
  lim : t'.lim = t.lim
  pidMax : t'.pidMax = t.pidMax

namespace Writes
variable {t t' : PidTable} {s : Nat} {pt : Slot} {l : List Nat}

section
variable (w : Writes t t' s pt)
include w

theorem other {x : Nat} (hx : x ≠ s) : t'.slots x = t.slots x := by
  rw [w.slots, update_of_ne hx]

theorem self : t'.slots s = pt := by
  rw [w.slots, update_self]

theorem slots_kept (h : Slots t) (hok : SlotOk (t.mask + 1) s pt)
    (hzero : s = 0 → pt.proc = (t.slots 0).proc ∧ pt.pid = (t.slots 0).pid) : Slots t' where
  size := by
    rw [w.mask]
    exact h.size
  slot := by
    intro x hx
    rw [w.mask] at hx ⊢
    by_cases hxs : x = s
    · rw [hxs, w.self]
      exact hok
    · rw [w.other hxs]
      exact h.slot x hx
  zero := by
    by_cases hs : s = 0
    · obtain ⟨hproc, hpid⟩ := hzero hs
      have hself := w.self
      rw [hs] at hself
      rw [hself, hproc, hpid]
      exact h.zero
    · rw [w.other (Ne.symm hs)]
      exact h.zero
  lim := by
    rw [w.mask, w.lim]
    exact h.lim
  pidMax := by
    rw [w.mask, w.pidMax]
    exact h.pidMax
  pidMax_ge := by
    rw [w.pidMax]
    exact h.pidMax_ge

theorem find (h : Slots t) (pid : Nat) : procFindRaw t' pid = if pid % (t.mask + 1) = s then pt.findProc pid else procFindRaw t pid := by
  show (t'.slots (pid &&& t'.mask)).findProc pid = _
  rw [w.mask, h.and_mask]
  split
  · next hs => rw [hs, w.self]
  · next hs =>
    rw [w.other hs, ← h.and_mask]
    rfl

theorem findPgrp_eq (h : Slots t) (pgid : Nat) : findPgrp t' pgid = if pgid % (t.mask + 1) = s then pt.findPgrp pgid else findPgrp t pgid := by
  show (t'.slots (pgid &&& t'.mask)).findPgrp pgid = _
  rw [w.mask, h.and_mask]
  split
  · next hs => rw [hs, w.self]
  · next hs =>
    rw [w.other hs, ← h.and_mask]
    rfl

theorem find_same (h : Slots t) (hpt : pt.findProc = (t.slots s).findProc) : procFindRaw t' = procFindRaw t := by
  funext pid
  rw [w.find h]
  split
  · next hs =>
    rw [hpt, ← hs, ← h.and_mask]
    rfl
  · rfl

theorem findPgrp_same (h : Slots t) (hpt : pt.pgrp = (t.slots s).pgrp) : findPgrp t' = findPgrp t := by
  funext pgid
  rw [w.findPgrp_eq h]
  split
  · next hs =>
    rw [Slot.findPgrp, hpt, ← hs, ← h.and_mask]
    rfl
  · rfl

theorem link_other {x : Nat} (hx : x ≠ s) : t'.link x = t.link x := by
  rw [PidTable.link, PidTable.link, w.other hx, w.mask]

theorem free_other {x : Nat} (hx : x ≠ s) : t'.Free x ↔ t.Free x := by
  rw [PidTable.Free, PidTable.Free, w.other hx, w.mask]

theorem chain (h : t.Chain l) (hs : s ∉ l) (hnext : t'.nextFree = t.nextFree) (hlast : t'.lastFree = t.lastFree) : t'.Chain l where
  linked := by
    rw [hnext]
    exact h.linked.congr fun x hx => w.link_other fun heq => hs (heq ▸ hx)
  last := by
    rw [hlast]
    exact h.last

end

end Writes

theorem setSlot_writes (t : PidTable) (s : Nat) (pt : Slot) : Writes t (t.setSlot s pt) s pt := ⟨rfl, rfl, rfl, rfl⟩

section Grab
variable {t : PidTable} {l : List Nat} {nxt : Nat} (p : Proc)

section
variable (h : Kept t l)
include h

theorem Kept.nextFree_free : t.Free t.nextFree := (h.list.mem _).mp h.list.chain.linked.mem_self

theorem Kept.free_pos {s : Nat} (hs : t.Free s) : s ≠ 0 :=
  h.list.chain.linked.not_stop s ((h.list.mem s).mpr hs)

theorem grab_mod : (grabSlot t p nxt).1 % (t.mask + 1) = t.nextFree := by
  have hlt : t.nextFree < t.mask + 1 := lt_succ_of_le h.nextFree_free.1
  have hsum : (clear nxt t.mask + t.mask + 1 + t.nextFree) % (t.mask + 1) = t.nextFree := by
    rw [add_assoc (clear nxt t.mask), add_assoc, add_mod, h.slots.clear_mask, zero_add, mod_mod, add_mod_left, mod_eq_of_lt hlt]
  rw [grabSlot]
  split
  · rw [h.slots.and_mask, mod_mod, hsum]
  · exact hsum

theorem grab_pos : 0 < (grabSlot t p nxt).1 := by
  have hmod := @grab_mod _ _ nxt p h
  have hne := h.free_pos h.nextFree_free
  apply Nat.pos_of_ne_zero
  intro hzero
  rw [hzero] at hmod
  exact hne hmod.symm

theorem grab_le : (grabSlot t p nxt).1 ≤ t.pidMax := by
  rw [grabSlot]
  split
  · rw [h.slots.and_mask]
    exact le_trans (Slots.mod_le t _) h.slots.pidMax
  · next hle => exact Nat.le_of_not_lt hle

end

theorem grab_writes (t : PidTable) : Writes t (grabSlot t p nxt).2 t.nextFree
    { t.slots t.nextFree with proc := .proc p, pid := (grabSlot t p nxt).1 } := ⟨rfl, rfl, rfl, rfl⟩

theorem grab_slots (h : Kept t l) : Slots (grabSlot t p nxt).2 := by
  have hfree := h.nextFree_free
  apply (grab_writes p t).slots_kept h.slots
  · refine ⟨grab_mod p h, ?_⟩
    intro pg hpg
    rw [hfree.2.2] at hpg
    exact absurd hpg (by simp)
  · intro hzero
    exact absurd hzero (h.free_pos hfree)

theorem grab_find (h : Kept t l) : procFindRaw (grabSlot t p nxt).2 = update (procFindRaw t) (grabSlot t p nxt).1 (some p) := by
  funext pid
  rw [(grab_writes p t).find h.slots]
  by_cases hpid : pid = (grabSlot t p nxt).1
  · rw [hpid, if_pos (grab_mod p h)]
    simp [Slot.findProc]
  rw [update_of_ne hpid]
  split
  · next hs =>
    obtain ⟨link, hlink⟩ := h.nextFree_free.2.1
    -- The slot was free: no pid was found there.
    rw [procFindRaw, h.slots.and_mask, hs, hlink]
    simp [Slot.findProc, Ne.symm hpid]
  · rfl

theorem grab_findPgrp (h : Kept t l) : findPgrp (grabSlot t p nxt).2 = findPgrp t :=
  (grab_writes p t).findPgrp_same h.slots rfl

theorem grab_list (h : Kept t l) (hproc : (t.slots t.nextFree).proc = .free nxt) (hnxt : nxt &&& t.mask ≠ 0) :
    Exact (grabSlot t p nxt).2 l.tail := by
  have w := @grab_writes nxt p t
  have hlink : t.link t.nextFree = nxt &&& t.mask := by rw [PidTable.link, hproc]
  have hlinked := h.list.chain.linked
  have hnodup := hlinked.nodup
  obtain ⟨rest, rfl⟩ := hlinked.eq_cons
  have hnot : t.nextFree ∉ rest := (nodup_cons.mp hnodup).1
  -- The free list goes on behind its head.
  have hrest : Linked t.link (· = 0) (nxt &&& t.mask) rest := by
    cases hlinked with
    | last _ hs => exact absurd (hlink ▸ hs) hnxt
    | link _ hl => exact hlink ▸ hl
  have hmask : t.cnt + (rest.length + 1) = t.mask := h.list.cnt
  refine ⟨⟨hrest.congr ?_, ?_⟩, ?_, ?_⟩
  · intro x hx
    exact w.link_other fun heq => hnot (heq ▸ hx)
  · obtain ⟨rest', rfl⟩ := hrest.eq_cons
    exact h.list.chain.last
  · intro s
    by_cases hs : s = t.nextFree
    · rw [hs]
      refine ⟨fun hmem => absurd hmem hnot, ?_⟩
      rintro ⟨-, ⟨link, hfree⟩, -⟩
      rw [w.self] at hfree
      exact absurd hfree (by simp)
    · rw [w.free_other hs, ← h.list.mem, tail_cons, mem_cons, or_iff_right hs]
  · show t.cnt + 1 + rest.length = t.mask
    omega

end Grab

/-- A table whose slot `s` has just become free and is not on the list yet. -/
structure Loose (t : PidTable) (l : List Nat) (s : Nat) : Prop where
  slots : Slots t
  chain : t.Chain l
  mem : ∀ x, x ∈ l ∨ x = s ↔ t.Free x
  notMem : s ∉ l
  link : t.link s = 0
  cnt : t.cnt + l.length = t.mask

namespace Loose
variable {t : PidTable} {l : List Nat} {s : Nat}

section
variable (h : Loose t l s)
include h

theorem free : t.Free s := (h.mem s).mp (.inr rfl)

theorem lastFree_mem : t.lastFree ∈ l := mem_of_getLast? h.chain.last

theorem pos : s ≠ 0 := by
  intro hs
  obtain ⟨link, hlink⟩ := h.free.2.1
  rw [hs, h.slots.zero.1] at hlink
  exact absurd hlink (by simp)

theorem last_link : ∃ link, (t.slots t.lastFree).proc = .free link ∧ link % (t.mask + 1) = 0 := by
  obtain ⟨link, hlink⟩ := ((h.mem t.lastFree).mp (.inl h.lastFree_mem)).2.1
  have hstop : t.link t.lastFree = 0 := h.chain.linked.last_stop h.chain.last
  rw [PidTable.link, hlink] at hstop
  exact ⟨link, hlink, by rw [← h.slots.and_mask]; exact hstop⟩

end

theorem writes (t : PidTable) (s : Nat) : Writes t (appendFree t s) t.lastFree
    { t.slots t.lastFree with proc := linkTo (t.slots t.lastFree).proc s, pid := 0 } := ⟨rfl, rfl, rfl, rfl⟩

section
variable (h : Loose t l s)
include h

theorem append_slots : Slots (appendFree t s) := by
  obtain ⟨link, hlink, -⟩ := h.last_link
  have hfree := (h.mem t.lastFree).mp (.inl h.lastFree_mem)
  apply (writes t s).slots_kept h.slots
  · rw [hlink]
    refine ⟨rfl, ?_⟩
    intro pg hpg
    rw [hfree.2.2] at hpg
    exact absurd hpg (by simp)
  · intro hzero
    exact absurd hzero (h.chain.linked.not_stop _ h.lastFree_mem)

theorem append_find : procFindRaw (appendFree t s) = procFindRaw t := by
  obtain ⟨link, hlink, -⟩ := h.last_link
  apply (writes t s).find_same h.slots
  funext pid
  simp [Slot.findProc, hlink, linkTo]

theorem append_findPgrp : findPgrp (appendFree t s) = findPgrp t :=
  (writes t s).findPgrp_same h.slots rfl

theorem append_chain : (appendFree t s).Chain (l ++ [s]) := by
  have w := writes t s
  obtain ⟨link, hlink, hzero⟩ := h.last_link
  obtain ⟨k, hk⟩ := h.slots.size
  have hne : s ≠ t.lastFree := fun heq => h.notMem (heq ▸ h.lastFree_mem)
  have hself : (appendFree t s).link t.lastFree = s := by
    rw [PidTable.link, w.self, hlink, linkTo, w.mask]
    dsimp only
    rw [h.slots.and_mask, hk]
    rw [hk] at hzero
    exact or_mod_of_zero link s k hzero (by have := h.free.1; omega)
  refine ⟨h.chain.linked.append h.chain.last (fun x _ hx => w.link_other hx) ?_, ?_⟩
  · rw [hself]
    refine .last h.pos ?_
    rw [w.link_other hne]
    exact h.link
  · exact getLast?_concat

theorem append (hcnt : 0 < t.cnt) : Exact (appendFree t s) (l ++ [s]) where
  chain := h.append_chain
  mem := by
    intro x
    rw [mem_append, mem_singleton, h.mem]
    by_cases hx : x = t.lastFree
    · obtain ⟨link, hlink, -⟩ := h.last_link
      have hfree := (h.mem t.lastFree).mp (.inl h.lastFree_mem)
      rw [hx]
      refine ⟨fun _ => ⟨hfree.1, ⟨link ||| s, ?_⟩, ?_⟩, fun _ => hfree⟩
      · rw [(writes t s).self, hlink, linkTo]
      · rw [(writes t s).self]
        exact hfree.2.2
    · exact ((writes t s).free_other hx).symm
  cnt := by
    have hsum := h.cnt
    show t.cnt - 1 + (l ++ [s]).length = t.mask
    rw [length_append, length_singleton]
    omega

end

end Loose

section Release
variable {t t' : PidTable} {l : List Nat} {s pid : Nat} {p : Proc} {pg : Pgrp} {pt : Slot}

section
variable (h : Kept t l) (w : Writes t t' s pt) (hslots : Slots t') (hbusy : ¬t.Free s)
include h w hslots hbusy

theorem Kept.write_busy (hbusy' : ¬t'.Free s)
    (hnext : t'.nextFree = t.nextFree) (hlast : t'.lastFree = t.lastFree) (hcnt : t'.cnt = t.cnt) : Kept t' l where
  slots := hslots
  list :=
    { chain := w.chain h.list.chain (fun hmem => hbusy ((h.list.mem s).mp hmem)) hnext hlast
      mem := by
        intro x
        by_cases hx : x = s
        · rw [hx, h.list.mem]
          exact ⟨fun hf => absurd hf hbusy, fun hf => absurd hf hbusy'⟩
        · rw [w.free_other hx]
          exact h.list.mem x
      cnt := by
        rw [hcnt, w.mask]
        exact h.list.cnt }

theorem Kept.write_loose (hfree : t'.Free s)
    (hlink : t'.link s = 0) (hnext : t'.nextFree = t.nextFree) (hlast : t'.lastFree = t.lastFree) (hcnt : t'.cnt = t.cnt) :
    Loose t' l s := by
  have hnot : s ∉ l := fun hmem => hbusy ((h.list.mem s).mp hmem)
  refine ⟨hslots, w.chain h.list.chain hnot hnext hlast, ?_, hnot, hlink, ?_⟩
  · intro x
    by_cases hx : x = s
    · exact ⟨fun _ => hx ▸ hfree, fun _ => .inr hx⟩
    · rw [w.free_other hx, ← h.list.mem, or_iff_left hx]
  · rw [hcnt, w.mask]
    exact h.list.cnt

end

theorem Kept.release (h : Kept t l) (hloose : Loose t' l s) (hbusy : ¬t.Free s) (hs : s ≤ t.mask) (hcnt : t'.cnt = t.cnt) :
    Kept (appendFree t' s) (l ++ [s]) := by
  refine ⟨hloose.append_slots, hloose.append ?_⟩
  rw [hcnt]
  exact h.cnt_pos hs hloose.pos hbusy

theorem not_free_of_proc (hproc : (t.slots s).proc = .proc p) : ¬t.Free s := by
  rintro ⟨-, ⟨link, hlink⟩, -⟩
  exact absurd (hproc.symm.trans hlink) (by simp)

theorem not_free_of_pgrp (hpg : (t.slots s).pgrp = some pg) : ¬t.Free s := by
  rintro ⟨-, -, hnone⟩
  exact absurd (hpg.symm.trans hnone) (by simp)

theorem procFreePid_spec (h : Kept t l) (hfind : procFindRaw t pid = some p) (hpid : pid ≠ 0) :
    ∃ t' l', procFreePid t pid = some t' ∧ Kept t' l' ∧ procFindRaw t' = update (procFindRaw t) pid none ∧
      findPgrp t' = findPgrp t := by
  obtain ⟨hproc, hslot⟩ := h.slots.find_iff.mp hfind
  have hle := Slots.mod_le t pid
  have hok := h.slots.slot _ hle
  rw [SlotOk, hproc] at hok
  rw [procFreePid, h.slots.and_mask]
  generalize hs : pid % (t.mask + 1) = s at *
  rw [if_neg (not_not.mpr hslot)]
  have w := setSlot_writes t s { t.slots s with proc := .free (clear pid t.mask), pid := 0 }
  have hslots := w.slots_kept h.slots
    ⟨rfl, fun pg hpg => by
      rw [hok.2 pg hpg, hslot]
      exact ⟨hs, h.slots.clear_mask pid⟩⟩
    fun hzero => by
      rw [hzero, h.slots.zero.2] at hslot
      exact absurd hslot.symm hpid
  have hpgrp := w.findPgrp_same h.slots rfl
  generalize ht₁ : t.setSlot s { t.slots s with proc := .free (clear pid t.mask), pid := 0 } = t₁ at *
  have hfind' : procFindRaw t₁ = update (procFindRaw t) pid none := by
    funext pid'
    rw [w.find h.slots]
    by_cases hp : pid' = pid
    · rw [hp, hs, if_pos rfl, update_self]
      rfl
    rw [update_of_ne hp]
    split
    · next hs' =>
      rw [procFindRaw, h.slots.and_mask, hs', hproc]
      simp [Slot.findProc, hslot, Ne.symm hp]
    · rfl
  have hbusy : ¬t.Free s := not_free_of_proc hproc
  cases hpg : (t.slots s).pgrp with
  | none =>
    have hloose : Loose t₁ l s := by
      refine h.write_loose w hslots hbusy ⟨w.mask ▸ hle, ⟨_, by rw [w.self]⟩, by rw [w.self]; exact hpg⟩ ?_ ?_ ?_ ?_
      · rw [PidTable.link, w.self]
        dsimp only
        rw [w.mask, h.slots.and_mask, h.slots.clear_mask]
      all_goals exact ht₁ ▸ rfl
    refine ⟨_, _, rfl, h.release hloose hbusy hle (ht₁ ▸ rfl), ?_, ?_⟩
    · rw [hloose.append_find, hfind']
    · rw [hloose.append_findPgrp, hpgrp]
  | some pg =>
    have hbusy' : ¬t₁.Free s := not_free_of_pgrp (by rw [w.self]; exact hpg)
    refine ⟨_, l, rfl, h.write_busy w hslots hbusy hbusy' ?_ ?_ ?_, hfind', hpgrp⟩
    all_goals exact ht₁ ▸ rfl

theorem pgRemove_spec (h : Kept t l) (hfind : findPgrp t pid = some pg) :
    ∃ t' l', pgRemove t pid = some t' ∧ Kept t' l' ∧ procFindRaw t' = procFindRaw t ∧
      findPgrp t' = update (findPgrp t) pid none := by
  obtain ⟨hpg, hid⟩ := h.slots.findPgrp_iff.mp hfind
  have hle := Slots.mod_le t pid
  have hok := h.slots.slot _ hle
  rw [SlotOk, hpg] at hok
  rw [pgRemove, h.slots.and_mask]
  generalize hs : pid % (t.mask + 1) = s at *
  rw [hpg]
  dsimp only
  rw [if_neg (not_not.mpr hid)]
  have w := setSlot_writes t s { t.slots s with pgrp := none }
  have hslots := w.slots_kept h.slots (by
      rw [SlotOk]
      cases hproc : (t.slots s).proc with
      | proc q =>
        rw [hproc] at hok
        exact ⟨hok.1, fun pg hnone => absurd hnone.symm (Option.some_ne_none pg)⟩
      | free link =>
        rw [hproc] at hok
        exact ⟨hok.1, fun pg hnone => absurd hnone.symm (Option.some_ne_none pg)⟩)
    fun hzero => hzero ▸ ⟨rfl, rfl⟩
  have hfind₁ := w.find_same h.slots rfl
  have hbusy : ¬t.Free s := not_free_of_pgrp hpg
  generalize ht₁ : t.setSlot s { t.slots s with pgrp := none } = t₁ at *
  have hpgrp : findPgrp t₁ = update (findPgrp t) pid none := by
    funext pgid
    rw [w.findPgrp_eq h.slots]
    by_cases hp : pgid = pid
    · rw [hp, hs, if_pos rfl, update_self]
      rfl
    rw [update_of_ne hp]
    split
    · next hs' =>
      rw [findPgrp, h.slots.and_mask, hs', hpg]
      simp [Slot.findPgrp, Option.filter, hid, Ne.symm hp]
    · rfl
  cases hproc : (t.slots s).proc with
  | proc q =>
    have hbusy' : ¬t₁.Free s := not_free_of_proc (p := q) (by rw [w.self]; exact hproc)
    refine ⟨_, l, rfl, h.write_busy w hslots hbusy hbusy' ?_ ?_ ?_, hfind₁, hpgrp⟩
    all_goals exact ht₁ ▸ rfl
  | free link =>
    rw [hproc] at hok
    have hzero : link &&& t₁.mask = 0 := by
      rw [w.mask, h.slots.and_mask]
      exact (hok.2 pg rfl).2
    dsimp only
    rw [if_neg (not_not.mpr hzero)]
    have hloose : Loose t₁ l s := by
      refine h.write_loose w hslots hbusy ⟨w.mask ▸ hle, ⟨link, by rw [w.self]; exact hproc⟩, by rw [w.self]⟩ ?_ ?_ ?_ ?_
      · rw [PidTable.link, w.self, hproc]
        exact hzero
      all_goals exact ht₁ ▸ rfl
    refine ⟨_, _, rfl, h.release hloose hbusy hle (ht₁ ▸ rfl), ?_, ?_⟩
    · rw [hloose.append_find, hfind₁]
    · rw [hloose.append_findPgrp, hpgrp]

theorem addPgrp_spec (h : Kept t l) (hfind : procFindRaw t pg.id = some p) (hnone : (t.slots (pg.id &&& t.mask)).pgrp = none) :
    Kept (addPgrp t pg) l ∧ procFindRaw (addPgrp t pg) = procFindRaw t ∧
      findPgrp (addPgrp t pg) = update (findPgrp t) pg.id (some pg) := by
  obtain ⟨hproc, hslot⟩ := h.slots.find_iff.mp hfind
  have hle := Slots.mod_le t pg.id
  have hok := h.slots.slot _ hle
  rw [SlotOk, hproc] at hok
  rw [addPgrp, h.slots.and_mask] at *
  generalize hs : pg.id % (t.mask + 1) = s at *
  have w := setSlot_writes t s { t.slots s with pgrp := some pg }
  have hslots := w.slots_kept h.slots (by
      rw [SlotOk, hproc]
      refine ⟨hok.1, ?_⟩
      intro pg' hpg'
      rw [← Option.some.inj hpg', hslot])
    fun hzero => hzero ▸ ⟨rfl, rfl⟩
  have hbusy : ¬t.Free s := not_free_of_proc hproc
  have hbusy' := not_free_of_pgrp (t := t.setSlot s { t.slots s with pgrp := some pg }) (s := s) (congrArg Slot.pgrp w.self)
  refine ⟨h.write_busy w hslots hbusy hbusy' rfl rfl rfl, w.find_same h.slots rfl, ?_⟩
  funext pgid
  rw [w.findPgrp_eq h.slots]
  by_cases hp : pgid = pg.id
  · rw [hp, hs]
    simp [Slot.findPgrp]
  rw [update_of_ne hp]
  split
  · next hs' =>
    rw [findPgrp, h.slots.and_mask, hs', hnone]
    simp [Slot.findPgrp, Ne.symm hp]
  · rfl

end Release

end NetBSD.Kern.KernProc
