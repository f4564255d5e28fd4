import NetBSD.Kern.KernProc.Steps
import NetBSD.Kern.KernProc.Expand
import NetBSD.Kern.KernProc.Pgrps

/-! Runs of the pid table.

`Inv` ties the table to the pids in use and to the sessions: a pid is found if and only if it is held,
and a session has its leading group in the table as long as it exists. Every call keeps it. -/
namespace NetBSD.Kern.KernProc
open List Function Option
open Lib

section Alloc
variable {t : PidTable} {l : List Nat} {mem : Nat → Slot} {rounds nxt : Nat} {p : Proc}

/-- A table the next pid can be taken from without an expansion. -/
def Ready (t : PidTable) (nxt : Nat) : Prop :=
  t.cnt < t.lim ∧ (t.slots t.nextFree).proc = .free nxt ∧ nxt &&& t.mask ≠ 0

theorem procAllocPid_ready (h : Kept t l) (hr : Ready t nxt) : procAllocPid mem (rounds + 1) t p = some (grabSlot t p nxt) := by
  obtain ⟨hlt, hproc, hnxt⟩ := hr
  have hfree := h.nextFree_free
  have hpid : (t.slots t.nextFree).pid = 0 := by
    have hok := h.slots.slot _ hfree.1
    rw [SlotOk, hproc] at hok
    exact hok.1
  rw [procAllocPid, if_neg (Nat.not_le_of_lt hlt)]
  dsimp only
  rw [hproc, hfree.2.2]
  dsimp only
  rw [if_neg hnxt, if_neg (not_not.mpr hpid)]

theorem procAllocPid_grow (h : Kept t l) (hr : ¬∃ nxt, Ready t nxt) :
    procAllocPid mem (rounds + 1) t p = procAllocPid mem rounds (expandPidTable mem t) p := by
  obtain ⟨-, ⟨nxt, hproc⟩, hpg⟩ := h.nextFree_free
  rw [procAllocPid]
  split
  · rfl
  · next hlt =>
    dsimp only
    rw [hproc, hpg]
    dsimp only
    rw [if_pos]
    by_contra hnxt
    exact hr ⟨nxt, Nat.lt_of_not_le hlt, hproc, hnxt⟩

theorem expand_ready (h : Kept t l) : ∃ nxt, Ready (expandPidTable mem t) nxt := by
  have hlist := @expand_list t l mem h
  obtain ⟨k, hk⟩ := h.slots.size
  have hkept := Kept.mk (@expand_slots t l mem k h hk) hlist
  obtain ⟨-, ⟨nxt, hproc⟩, -⟩ := hkept.nextFree_free
  refine ⟨nxt, ?_, hproc, ?_⟩
  · have hcnt := h.list.cnt
    have hlim := hkept.slots.lim
    have hmask := @expand_mask t mem
    show t.cnt < _
    omega
  -- The list has more than one member, so its head links to another one.
  intro hzero
  have hlink : (expandPidTable mem t).link (expandPidTable mem t).nextFree = 0 := by
    rw [PidTable.link, hproc]
    exact hzero
  have hone := hlist.chain.linked.unique (.last (hkept.free_pos hkept.nextFree_free) hlink)
  have hlen := congrArg List.length hone
  rw [length_append, length_map, length_range', length_singleton] at hlen
  obtain ⟨rest, hrest⟩ := h.list.chain.linked.eq_cons
  rw [hrest, length_cons] at hlen
  omega

theorem procAllocPid_cases (h : Kept t l) : ∃ t₁ l₁ nxt, (t₁ = t ∨ t₁ = expandPidTable mem t) ∧ Kept t₁ l₁ ∧ Ready t₁ nxt ∧
    (∀ rounds, 2 ≤ rounds → procAllocPid mem rounds t p = some (grabSlot t₁ p nxt)) ∧
    ∀ rounds r, procAllocPid mem rounds t p = some r → r = grabSlot t₁ p nxt := by
  by_cases hr : ∃ nxt, Ready t nxt
  · obtain ⟨nxt, hr⟩ := hr
    refine ⟨t, l, nxt, .inl rfl, h, hr, ?_, ?_⟩
    · intro rounds hrounds
      obtain ⟨n, rfl⟩ : ∃ n, rounds = n + 1 := ⟨rounds - 1, by omega⟩
      exact procAllocPid_ready h hr
    intro rounds r hrun
    cases rounds with
    | zero => exact absurd hrun (by simp [procAllocPid])
    | succ n => exact some.inj (hrun.symm.trans (procAllocPid_ready h hr))
  obtain ⟨nxt, hready⟩ := @expand_ready t l mem h
  obtain ⟨l', hkept⟩ := @expand_kept t l mem h
  refine ⟨_, l', nxt, .inr rfl, hkept, hready, ?_, ?_⟩
  · intro rounds hrounds
    obtain ⟨n, rfl⟩ : ∃ n, rounds = n + 1 + 1 := ⟨rounds - 2, by omega⟩
    rw [procAllocPid_grow h hr]
    exact procAllocPid_ready hkept hready
  intro rounds r hrun
  cases rounds with
  | zero => exact absurd hrun (by simp [procAllocPid])
  | succ n =>
    rw [procAllocPid_grow h hr] at hrun
    cases n with
    | zero => exact absurd hrun (by simp [procAllocPid])
    | succ n => exact some.inj (hrun.symm.trans (procAllocPid_ready hkept hready))

end Alloc

/-! ### The invariant -/

structure Inv (t : PidTable) (sessions : Nat → Option Session) (held : List (Nat × Proc)) : Prop where
  table : ∃ l, Kept t l
  held_iff : ∀ pid p, (pid, p) ∈ held ↔ procFindRaw t pid = some p
  nodup : (held.map Prod.fst).Nodup
  leading : ∀ sid s, sessions sid = some s → findPgrp t sid = some ⟨sid, sid⟩

def World.Inv (w : World) : Prop := KernProc.Inv w.table w.sessions w.held

section Inv
variable {t t' : PidTable} {sessions sessions' : Nat → Option Session} {held : List (Nat × Proc)} {pid : Nat} {p : Proc}
  {w w' : World}

theorem Inv.fresh (h : Inv t sessions held) (hfind : procFindRaw t pid = none) : pid ∉ held.map Prod.fst := by
  intro hmem
  obtain ⟨⟨pid', q⟩, hq, rfl⟩ := mem_map.mp hmem
  rw [(h.held_iff _ _).mp hq] at hfind
  exact absurd hfind (by simp)

structure NewPid (t : PidTable) (p : Proc) (r : Nat × PidTable) : Prop where
  kept : ∃ l, Kept r.2 l
  pos : 0 < r.1
  le : r.1 ≤ r.2.pidMax
  unused : procFindRaw t r.1 = none
  no_pgrp : ∀ s ≤ t.mask, ∀ pg, (t.slots s).pgrp = some pg → pg.id ≠ r.1
  find : procFindRaw r.2 = update (procFindRaw t) r.1 (some p)
  findPgrp_eq : findPgrp r.2 = findPgrp t

theorem Kept.newPid {l : List Nat} (h : Kept t l) {mem : Nat → Slot} {rounds : Nat} {r : Nat × PidTable}
    (hrun : procAllocPid mem rounds t p = some r) : NewPid t p r := by
  obtain ⟨t₁, l₁, nxt, ht₁, hkept, ⟨-, hproc, hnxt⟩, -, hret⟩ := @procAllocPid_cases t l mem p h
  obtain rfl := hret rounds r hrun
  have hsame : procFindRaw t₁ = procFindRaw t ∧ findPgrp t₁ = findPgrp t := by
    obtain rfl | rfl := ht₁
    · exact ⟨rfl, rfl⟩
    · exact ⟨expand_find h, expand_findPgrp h⟩
  have hfree := hkept.nextFree_free
  have hmod := @grab_mod t₁ l₁ nxt p hkept
  have hnone : findPgrp t (grabSlot t₁ p nxt).1 = none := by
    rw [← hsame.2, findPgrp, hkept.slots.and_mask, hmod, hfree.2.2]
    rfl
  refine ⟨⟨_, grab_slots p hkept, grab_list p hkept hproc hnxt⟩, grab_pos p hkept, grab_le p hkept, ?_, ?_, ?_, ?_⟩
  · rw [← hsame.1, procFindRaw, hkept.slots.and_mask, hmod, hproc]
  · intro s hs pg hpg hid
    have hslot := h.slots.pgrp_slot hs hpg
    have hfound : findPgrp t pg.id = some pg := h.slots.findPgrp_iff.mpr ⟨by rw [hslot]; exact hpg, rfl⟩
    rw [hid, hnone] at hfound
    exact absurd hfound (by simp)
  · rw [grab_find p hkept, hsame.1]
  · rw [grab_findPgrp p hkept, hsame.2]

theorem Inv.alloc (h : Inv t sessions held) {r : Nat × PidTable} (hnew : NewPid t p r) : Inv r.2 sessions ((r.1, p) :: held) where
  table := hnew.kept
  held_iff := by
    intro pid q
    rw [hnew.find, mem_cons, h.held_iff]
    by_cases hpid : pid = r.1
    · rw [hpid, hnew.unused]
      simp [eq_comm]
    · simp [hpid]
  nodup := nodup_cons.mpr ⟨h.fresh hnew.unused, h.nodup⟩
  leading := by
    intro sid s hs
    rw [hnew.findPgrp_eq]
    exact h.leading sid s hs

theorem Inv.free (h : Inv t sessions held) (hpid : pid ≠ 0) (hheld : pid ∈ held.map Prod.fst) :
    ∃ t', procFreePid t pid = some t' ∧ procFindRaw t' pid = none ∧ Inv t' sessions (held.filter (·.1 ≠ pid)) := by
  obtain ⟨l, hkept⟩ := h.table
  obtain ⟨⟨pid', q⟩, hq, rfl⟩ := mem_map.mp hheld
  obtain ⟨t', l', hrun, hkept', hfind, hpgrp⟩ := procFreePid_spec hkept ((h.held_iff _ _).mp hq) hpid
  refine ⟨t', hrun, by rw [hfind, update_self], ⟨l', hkept'⟩, ?_, ?_, ?_⟩
  · intro pid p
    rw [mem_filter, h.held_iff, hfind]
    by_cases hp : pid = pid'
    · rw [hp]
      simp
    · simp [hp]
  · exact h.nodup.sublist (filter_sublist.map _)
  · intro sid s hs
    rw [hpgrp]
    exact h.leading sid s hs

theorem Inv.expand (h : Inv t sessions held) (mem : Nat → Slot) : Inv (expandPidTable mem t) sessions held := by
  obtain ⟨l, hkept⟩ := h.table
  refine ⟨expand_kept hkept, ?_, h.nodup, ?_⟩
  · rw [expand_find hkept]
    exact h.held_iff
  · rw [expand_findPgrp hkept]
    exact h.leading

theorem pgRemove_find {l : List Nat} (h : Kept t l) (hrun : pgRemove t pid = some t') : ∃ pg, findPgrp t pid = some pg := by
  rw [pgRemove] at hrun
  split at hrun
  · exact absurd hrun (by simp)
  · next pg hpg =>
    split at hrun
    · exact absurd hrun (by simp)
    · next hid =>
      rw [h.slots.and_mask] at hpg
      exact ⟨pg, h.slots.findPgrp_iff.mpr ⟨hpg, not_not.mp hid⟩⟩

theorem Inv.remove (h : Inv t sessions held) (hrun : pgRemove t pid = some t')
    (hs : ∀ sid s, sessions' sid = some s → sid ≠ pid ∧ sessions sid = some s) : Inv t' sessions' held := by
  obtain ⟨l, hkept⟩ := h.table
  obtain ⟨pg, hfind⟩ := pgRemove_find hkept hrun
  obtain ⟨t₁, l₁, hrun₁, hkept₁, hfind₁, hpgrp₁⟩ := pgRemove_spec hkept hfind
  obtain rfl := some.inj (hrun.symm.trans hrun₁)
  refine ⟨⟨l₁, hkept₁⟩, ?_, h.nodup, ?_⟩
  · rw [hfind₁]
    exact h.held_iff
  intro sid s hsid
  obtain ⟨hne, hold⟩ := hs sid s hsid
  rw [hpgrp₁, update_of_ne hne]
  exact h.leading sid s hold

theorem Inv.add (h : Inv t sessions held) {pg : Pgrp} (hfind : procFindRaw t pg.id = some p) (hnone : (t.slots (pg.id &&& t.mask)).pgrp = none)
    (hs : ∀ sid s, sessions' sid = some s → (∃ s', sessions sid = some s') ∨ pg = ⟨sid, sid⟩) : Inv (addPgrp t pg) sessions' held := by
  obtain ⟨l, hkept⟩ := h.table
  obtain ⟨hkept', hfind', hpgrp'⟩ := addPgrp_spec hkept hfind hnone
  refine ⟨⟨l, hkept'⟩, ?_, h.nodup, ?_⟩
  · rw [hfind']
    exact h.held_iff
  intro sid s hsid
  rw [hpgrp']
  by_cases hid : sid = pg.id
  · obtain ⟨s', hold⟩ | heq := hs sid s hsid
    · have hlead := (hkept.slots.findPgrp_iff.mp (h.leading sid s' hold)).1
      rw [hid, ← hkept.slots.and_mask, hnone] at hlead
      exact absurd hlead (by simp)
    · rw [hid, update_self]
      rw [hid] at heq
      exact congrArg some heq
  · rw [update_of_ne hid]
    obtain ⟨s', hold⟩ | heq := hs sid s hsid
    · exact h.leading sid s' hold
    · exact absurd (by rw [heq]) hid

theorem Inv.of_sessions (h : Inv t sessions held) (hs : ∀ sid s, sessions' sid = some s → ∃ s', sessions sid = some s') :
    Inv t sessions' held :=
  ⟨h.table, h.held_iff, h.nodup, fun sid s hsid => by
    obtain ⟨s', hold⟩ := hs sid s hsid
    exact h.leading sid s' hold⟩

end Inv

/-! ### The calls -/

namespace World
variable {w w' : World} {p : Proc} {pid pgid sid : Nat} {pg : Pgrp}

theorem Inv.setSession (h : w.Inv) {s : Session} (hold : w.sessions sid = some s) (s' : Option Session) : (w.setSession sid s').Inv := by
  apply KernProc.Inv.of_sessions h
  intro sid' s'' hs
  by_cases hid : sid' = sid
  · exact ⟨s, hid ▸ hold⟩
  · exact ⟨s'', by rw [← hs]; exact (update_of_ne hid _ _).symm⟩

theorem Inv.procSesshold (h : w.Inv) (hrun : w.procSesshold sid = some w') : w'.Inv := by
  obtain ⟨s, hs, rfl⟩ := map_eq_some_iff.mp hrun
  exact h.setSession hs _

theorem pgRemove_eq (hrun : w.pgRemove pgid = some w') : ∃ t, KernProc.pgRemove w.table pgid = some t ∧ w' = { w with table := t } := by
  rw [World.pgRemove] at hrun
  split at hrun
  · exact absurd hrun (by simp)
  · obtain ⟨t, ht, rfl⟩ := map_eq_some_iff.mp hrun
    exact ⟨t, ht, rfl⟩

section
variable (h : w.Inv)
include h

theorem Inv.procSessrele (hrun : w.procSessrele sid = some w') : w'.Inv := by
  rw [World.procSessrele] at hrun
  split at hrun
  · exact absurd hrun (by simp)
  · next s hs =>
    split at hrun
    · obtain ⟨w₁, hw₁, rfl⟩ := map_eq_some_iff.mp hrun
      obtain ⟨t, ht, rfl⟩ := pgRemove_eq hw₁
      apply h.remove ht
      intro sid' s' hs'
      change update w.sessions sid none sid' = some s' at hs'
      by_cases hid : sid' = sid
      · rw [hid] at hs'
        exact absurd hs' (by simp)
      · rw [update_of_ne hid] at hs'
        exact ⟨hid, hs'⟩
    · obtain rfl := some.inj hrun
      exact h.setSession hs _

theorem Inv.pgDelete (hrun : w.pgDelete pgid = some w') : w'.Inv := by
  rw [World.pgDelete] at hrun
  split at hrun
  · exact some.inj hrun ▸ h
  · next pg hpg =>
    split at hrun
    · exact some.inj hrun ▸ h
    · next hmem =>
      split at hrun
      · next hsid =>
        obtain ⟨w₁, hw₁, hrele⟩ := bind_eq_some_iff.mp hrun
        obtain ⟨t, ht, rfl⟩ := pgRemove_eq hw₁
        refine Inv.procSessrele (w := { w with table := t }) (h.remove ht ?_) hrele
        -- A group that is not the leading one is not kept for a session.
        intro sid s hs
        refine ⟨?_, hs⟩
        rintro rfl
        obtain ⟨l, hkept⟩ := h.table
        have hlead := (hkept.slots.findPgrp_iff.mp (h.leading sid s hs)).1
        rw [← hkept.slots.and_mask, hpg] at hlead
        rw [some.inj hlead] at hsid
        exact hsid rfl
      · exact h.procSessrele hrun

theorem Inv.moveTo {old : Pgrp} (hrun : w.moveTo p old pg = some w') : w'.Inv := by
  rw [World.moveTo] at hrun
  split at hrun
  · refine Inv.pgDelete ?_ hrun
    exact h
  · exact some.inj hrun ▸ h

theorem Inv.makePgrp {old : Pgrp} {mksess : Bool} (hfind : ∃ q, procFindRaw w.table pgid = some q)
    (hnone : (w.table.slots (pgid &&& w.table.mask)).pgrp = none) (hpid : mksess = true → w.pPid p = some pgid)
    (hrun : w.makePgrp p old pgid mksess = some (pg, w')) : w'.Inv := by
  obtain ⟨q, hq⟩ := hfind
  rw [World.makePgrp] at hrun
  split at hrun
  · next hmk =>
    rw [hpid hmk] at hrun
    obtain ⟨rfl, rfl⟩ := Prod.mk.inj (some.inj hrun)
    have hfind : procFindRaw w.table (Pgrp.mk pgid pgid).id = some q := hq
    refine h.add hfind hnone ?_
    intro sid s hs
    by_cases hid : sid = pgid
    · exact .inr (by rw [hid])
    · exact .inl ⟨s, (update_of_ne hid _ w.sessions).symm.trans hs⟩
  · obtain ⟨w₁, hw₁, heq⟩ := map_eq_some_iff.mp hrun
    obtain ⟨rfl, rfl⟩ := Prod.mk.inj heq
    obtain ⟨s, hs, rfl⟩ := map_eq_some_iff.mp hw₁
    have hfind : procFindRaw w.table (Pgrp.mk pgid old.sid).id = some q := hq
    refine (h.setSession hs _).add hfind hnone ?_
    intro sid s' hs'
    exact .inl ⟨s', hs'⟩

theorem Inv.enterPgrp {env : Env} {mksess : Bool} {r : Errno × World} (hfind : ∃ q, procFindRaw w.table pid = some q)
    (hpid : mksess = true → w.pPid p = some pid)
    (hrun : w.enterPgrp env p pid pgid mksess (w.table.slots (pgid &&& w.table.mask)).pgrp = some r) : r.2.Inv := by
  rw [World.enterPgrp] at hrun
  split at hrun
  · exact absurd hrun (by simp)
  split at hrun
  · exact absurd hrun (by simp)
  split at hrun
  · exact some.inj hrun ▸ h
  split at hrun
  · next hnone =>
    split at hrun
    · exact some.inj hrun ▸ h
    · next hpgid =>
      split at hrun
      · exact some.inj hrun ▸ h
      obtain rfl := not_not.mp hpgid
      obtain ⟨⟨pg, w₁⟩, hmake, hmove⟩ := bind_eq_some_iff.mp hrun
      obtain ⟨w₂, hw₂, rfl⟩ := map_eq_some_iff.mp hmove
      exact (h.makePgrp hfind hnone hpid hmake).moveTo hw₂
  · split at hrun
    · exact some.inj hrun ▸ h
    split at hrun
    · exact some.inj hrun ▸ h
    split at hrun
    · exact some.inj hrun ▸ h
    · obtain ⟨w₂, hw₂, rfl⟩ := map_eq_some_iff.mp hrun
      exact h.moveTo hw₂

theorem Inv.procEnterpgrp {env : Env} {curp : Proc} {mksess : Bool} {r : Errno × World}
    (hcur : ∃ e ∈ w.held, w.pPid curp = some e.1) (hrun : w.procEnterpgrp env curp pid pgid mksess = some r) : r.2.Inv := by
  rw [World.procEnterpgrp] at hrun
  split at hrun
  · exact some.inj hrun ▸ h
  split at hrun
  · split at hrun
    · exact some.inj hrun ▸ h
    · next p hp =>
      split at hrun
      · exact some.inj hrun ▸ h
      split at hrun
      · split at hrun
        · exact some.inj hrun ▸ h
        · next hsess =>
          split at hrun
          · exact some.inj hrun ▸ h
          split at hrun
          · exact some.inj hrun ▸ h
          · exact h.enterPgrp ⟨p, (filter_eq_some_iff.mp hp).1⟩ (fun hmk => absurd (.inl hmk) hsess) hrun
      · exact absurd hrun (by simp)
  · next hself =>
    split at hrun
    · exact absurd hrun (by simp)
    split at hrun
    · exact some.inj hrun ▸ h
    obtain ⟨⟨pid', q⟩, hmem, hpid⟩ := hcur
    have heq := not_not.mp hself
    have hfind := (h.held_iff _ _).mp hmem
    obtain rfl := some.inj (hpid.symm.trans heq)
    exact h.enterPgrp ⟨q, hfind⟩ (fun _ => heq) hrun

theorem Inv.procLeavepgrp (hrun : w.procLeavepgrp p = some w') : w'.Inv := by
  rw [World.procLeavepgrp] at hrun
  split at hrun
  · exact absurd hrun (by simp)
  dsimp only at hrun
  split at hrun
  · refine Inv.pgDelete ?_ hrun
    exact h
  · exact some.inj hrun ▸ h

theorem Inv.next {a : Act} (hv : Valid w a) (hrun : KernProc.next w a = some w') : w'.Inv := by
  cases a with
  | alloc mem rounds q more =>
    obtain ⟨r, hr, rfl⟩ := map_eq_some_iff.mp hrun
    obtain ⟨l, hkept⟩ := h.table
    exact h.alloc (hkept.newPid hr)
  | free pid =>
    obtain ⟨t, ht, rfl⟩ := map_eq_some_iff.mp hrun
    obtain ⟨t', hrun', -, hinv⟩ := h.free hv.1 hv.2
    obtain rfl := some.inj (ht.symm.trans hrun')
    exact hinv
  | expand mem => exact some.inj hrun ▸ h.expand mem
  | enterpgrp env curp pid pgid mksess =>
    obtain ⟨r, hr, rfl⟩ := map_eq_some_iff.mp hrun
    exact h.procEnterpgrp hv hr
  | leavepgrp q => exact h.procLeavepgrp hrun
  | join parent child =>
    obtain ⟨pg, -, rfl⟩ := map_eq_some_iff.mp hrun
    exact h
  | sesshold sid => exact h.procSesshold hrun
  | sessrele sid => exact h.procSessrele hrun
  | leaderGone sid =>
    obtain ⟨s, hs, rfl⟩ := map_eq_some_iff.mp hrun
    exact h.setSession hs _

end

end World

/-! ### From procinit on -/

theorem procinit_slot {s : Nat} (hpos : s ≠ 0) : ∃ link, procinit.slots s = ⟨.free link, none, 0⟩ := by
  show ∃ link, (if s = 0 then _ else if s = 31 then _ else _ : Slot) = _
  rw [if_neg hpos]
  split
  · exact ⟨_, rfl⟩
  · exact ⟨_, rfl⟩

theorem procinit_link {s : Nat} (hpos : s ≠ 0) (hs : s < 31) : procinit.link s = s + 1 := by
  have hslot : procinit.slots s = ⟨.free (linkEmpty + s + 1), none, 0⟩ := by
    show (if s = 0 then _ else if s = 31 then _ else _ : Slot) = _
    rw [if_neg hpos, if_neg (ne_of_lt hs)]
  rw [PidTable.link, hslot]
  dsimp only
  rw [show procinit.mask = 2 ^ 5 - 1 from rfl, Nat.and_two_pow_sub_one_eq_mod, show linkEmpty = 30016 by decide]
  omega

theorem procinit_kept : Kept procinit (List.range' 1 31) where
  slots :=
    { size := ⟨5, rfl⟩
      slot := by
        intro s hs
        by_cases hpos : s = 0
        · subst hpos
          refine ⟨rfl, ?_⟩
          intro pg hpg
          rw [← some.inj hpg]
          rfl
        · obtain ⟨link, hslot⟩ := procinit_slot hpos
          rw [hslot]
          exact ⟨rfl, nofun⟩
      zero := ⟨rfl, rfl⟩
      lim := by decide
      pidMax := by decide
      pidMax_ge := by decide }
  list :=
    { chain := ⟨.range' 31 1 (by decide) (fun c hle hlt => procinit_link (by omega) (by omega)) (by decide) (fun c hle _ => by omega), by decide⟩
      mem := by
        intro s
        rw [mem_range'_1]
        refine ⟨?_, ?_⟩
        · rintro ⟨hle, hlt⟩
          obtain ⟨link, hslot⟩ := @procinit_slot s (by omega)
          have hmask : procinit.mask = 31 := rfl
          refine ⟨by omega, ?_, ?_⟩
          · rw [hslot]
            exact ⟨link, rfl⟩
          · rw [hslot]
        · rintro ⟨hle, ⟨link, hlink⟩, -⟩
          have hmask : procinit.mask = 31 := rfl
          have hpos : s ≠ 0 := by
            rintro rfl
            exact absurd hlink (by simp [procinit])
          omega
      cnt := by decide }

theorem booted_inv : World.booted.Inv where
  table := ⟨_, procinit_kept⟩
  held_iff := by
    intro pid p
    show (pid, p) ∈ [(0, 0)] ↔ procFindRaw procinit pid = some p
    rw [procinit_kept.slots.find_iff]
    by_cases hpos : pid % (procinit.mask + 1) = 0
    · rw [hpos]
      refine ⟨?_, ?_⟩
      · intro hmem
        obtain ⟨rfl, rfl⟩ := Prod.mk.inj (mem_singleton.mp hmem)
        exact ⟨rfl, rfl⟩
      rintro ⟨hproc, hpid⟩
      obtain rfl := Ptr.proc.inj hproc
      obtain rfl := hpid
      exact mem_singleton.mpr rfl
    · obtain ⟨link, hslot⟩ := procinit_slot hpos
      refine ⟨?_, ?_⟩
      · intro hmem
        obtain ⟨rfl, rfl⟩ := Prod.mk.inj (mem_singleton.mp hmem)
        exact absurd (Nat.zero_mod _) hpos
      · rintro ⟨hproc, -⟩
        exact absurd ((congrArg Slot.proc hslot).symm.trans hproc) (by simp)
  nodup := by decide
  leading := by
    intro sid s hs
    have hzero : sid = 0 := by
      by_contra hne
      exact absurd ((if_neg hne).symm.trans hs) (by simp)
    subst hzero
    rfl

theorem reach_inv {w : World} (h : system.Reach Valid w) : w.Inv := by
  apply h.invariant
  · intro w hw
    exact hw ▸ booted_inv
  · intro w a w' hinv hv hstep
    exact hinv.next hv hstep

/-- No pid is confused with another: a pid in use is found as the process it was given out for, a new
pid is the id of nothing, a pid given back is not found, and doubling the table changes no answer. -/
theorem pids_not_confused {w : World} (h : system.Reach Valid w) :
    (∀ pid p, (pid, p) ∈ w.held ↔ procFindRaw w.table pid = some p) ∧ (w.held.map Prod.fst).Nodup ∧
      (∀ mem rounds p pid t, procAllocPid mem rounds w.table p = some (pid, t) → 0 < pid ∧ pid ≤ t.pidMax ∧ pid ∉ w.held.map Prod.fst ∧
          (∀ s ≤ w.table.mask, ∀ pg, (w.table.slots s).pgrp = some pg → pg.id ≠ pid) ∧ w.sessions pid = none ∧
          procFindRaw t pid = some p) ∧
      (∀ pid ∈ w.held.map Prod.fst, pid ≠ 0 → ∃ t, procFreePid w.table pid = some t ∧ procFindRaw t pid = none) ∧
      ∀ mem, procFindRaw (expandPidTable mem w.table) = procFindRaw w.table ∧ findPgrp (expandPidTable mem w.table) = findPgrp w.table := by
  have hinv := reach_inv h
  obtain ⟨l, hkept⟩ := hinv.table
  refine ⟨hinv.held_iff, hinv.nodup, ?_, ?_, ?_⟩
  · intro mem rounds p pid t hrun
    have hnew := hkept.newPid hrun
    refine ⟨hnew.pos, hnew.le, hinv.fresh hnew.unused, hnew.no_pgrp, ?_, by rw [hnew.find, update_self]⟩
    cases hs : w.sessions pid with
    | none => rfl
    | some s =>
      -- The session would have its leading group in the slot.
      have hlead := (hkept.slots.findPgrp_iff.mp (hinv.leading pid s hs)).1
      exact absurd rfl (hnew.no_pgrp _ (Slots.mod_le _ _) _ hlead)
  · intro pid hheld hpid
    obtain ⟨t, hrun, hfind, -⟩ := hinv.free hpid hheld
    exact ⟨t, hrun, hfind⟩
  · intro mem
    exact ⟨expand_find hkept, expand_findPgrp hkept⟩

/-- A session leader exits before its child: the slot is held by the group alone. -/
def orphaned : List Act :=
  let zeroed : Nat → Slot := fun _ => ⟨.free 0, none, 0⟩
  let anyone : Env := ⟨fun _ => true, fun _ => true, fun _ => false, true⟩
  [.alloc zeroed 2 1 false, .join 0 1, .enterpgrp anyone 1 1 1 true, .alloc zeroed 2 2 false, .join 1 2, .leaderGone 1,
    .leavepgrp 1, .free 1, .expand zeroed]

/-- What `orphaned` leaves, and the child's pid found in the doubled table. -/
theorem pids_not_confused_orphan : ∃ w, system.Reach Valid w ∧ w.table.mask = 63 ∧ findPgrp w.table 1 = some ⟨1, 1⟩ ∧
    procFindRaw w.table 2 = some 2 ∧ procFindRaw w.table 1 = none ∧ (w.held.map Prod.fst).Nodup := by
  have hrun : (System.run (System.guarded Valid next) .booted orphaned).map
      (fun w => (w.table.mask, findPgrp w.table 1, w.held, procFindRaw w.table 1)) =
      some (63, some ⟨1, 1⟩, [(2, 2), (0, 0)], none) := by decide
  obtain ⟨w, hw, hobs⟩ := map_eq_some_iff.mp hrun
  have hreach : system.Reach Valid w := System.reach_run _ _ _ _ _ rfl hw
  obtain ⟨hheld, hnodup, -⟩ := pids_not_confused hreach
  simp only [Prod.mk.injEq] at hobs
  obtain ⟨hmask, hpgrp, hpids, hone⟩ := hobs
  refine ⟨w, hreach, hmask, hpgrp, (hheld 2 2).mp ?_, hone, hnodup⟩
  rw [hpids]
  decide

/-- The free list is exact: it has the slots with neither a process nor a group, each once, and ends at
`last_free_pt`; the others are counted. So a pid is always taken from a free slot, after one expansion at most. -/
theorem free_list_exact {w : World} (h : system.Reach Valid w) :
    ∃ l, Linked w.table.link (· = 0) w.table.nextFree l ∧ l.Nodup ∧ l.getLast? = some w.table.lastFree ∧
      w.table.link w.table.lastFree = 0 ∧ (∀ s, s ∈ l ↔ w.table.Free s) ∧
      w.table.cnt = ((Finset.Icc 1 w.table.mask).filter fun s => ¬w.table.Free s).card ∧
      ∀ mem p, ∃ t nxt, (t = w.table ∨ t = expandPidTable mem w.table) ∧ t.Free t.nextFree ∧
        ∀ rounds, 2 ≤ rounds → procAllocPid mem rounds w.table p = some (grabSlot t p nxt) := by
  obtain ⟨l, hkept⟩ := (reach_inv h).table
  have hchain := hkept.list.chain
  refine ⟨l, hchain.linked, hchain.linked.nodup, hchain.last, hchain.linked.last_stop hchain.last, hkept.list.mem, hkept.cnt_eq, ?_⟩
  intro mem p
  obtain ⟨t, l', nxt, ht, hkept', -, hrun, -⟩ := @procAllocPid_cases _ l mem p hkept
  exact ⟨t, nxt, ht, hkept'.nextFree_free, hrun⟩

/-- The child leaves the orphaned group: its slot is the last on the list of the doubled table. -/
theorem free_list_exact_orphan : ∃ w, system.Reach Valid w ∧ w.table.mask = 63 ∧ w.table.lastFree = 1 ∧ w.table.cnt = 1 ∧
    w.table.link 1 = 0 := by
  have hrun : (System.run (System.guarded Valid next) .booted (orphaned ++ [.leavepgrp 2])).map
      (fun w => (w.table.mask, w.table.lastFree, w.table.cnt)) = some (63, 1, 1) := by decide
  obtain ⟨w, hw, hobs⟩ := map_eq_some_iff.mp hrun
  have hreach : system.Reach Valid w := System.reach_run _ _ _ _ _ rfl hw
  obtain ⟨l, -, -, -, hlink, -⟩ := free_list_exact hreach
  simp only [Prod.mk.injEq] at hobs
  obtain ⟨hmask, hlast, hcnt⟩ := hobs
  rw [hlast] at hlink
  exact ⟨w, hreach, hmask, hlast, hcnt, hlink⟩

end NetBSD.Kern.KernProc
