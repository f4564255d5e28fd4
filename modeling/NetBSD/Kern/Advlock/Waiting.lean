import NetBSD.Kern.Advlock.Structs
import Mathlib.Data.Fintype.Basic

/-! Who waits for what.

A request waits at `b` when its `lf_next` is `b`; it is then on the queue of the entry
at `b`, and that entry blocks it (`WaitOk`). Whoever is not asleep for a reason is woken:
an edit of the list wakes every request of an entry that is gone or covers less, and
moves the others along with `lf_next`. Nobody who is granted a lock conflicts with
another owner. -/
namespace NetBSD.Kern.Advlock
open List Function
open Lib

/-! ### Queues -/

section Queues
variable {list : List Lockf} {w b : Addr} {f : List Addr → List Addr}

theorem mem_waiters : w ∈ waiters list ↔ ∃ e ∈ list, w ∈ e.lfBlkhd := by
  simp [waiters]

theorem waiter_unique (h : (waiters list).Nodup) {e e' : Lockf} (he : e ∈ list) (he' : e' ∈ list) (hw : w ∈ e.lfBlkhd)
    (hw' : w ∈ e'.lfBlkhd) : e = e' := by
  induction list with
  | nil => exact absurd he not_mem_nil
  | cons lf rest ih =>
    rw [waiters_cons, Multiset.nodup_add] at h
    obtain ⟨-, hrest, hdisj⟩ := h
    rcases mem_cons.mp he with heq | hmem <;> rcases mem_cons.mp he' with heq' | hmem'
    · rw [heq, heq']
    · rw [heq] at hw
      exact absurd (mem_waiters.mpr ⟨e', hmem', hw'⟩) (Multiset.disjoint_left.mp hdisj hw)
    · rw [heq'] at hw'
      exact absurd (mem_waiters.mpr ⟨e, hmem, hw⟩) (Multiset.disjoint_left.mp hdisj hw')
    · exact ih hrest hmem hmem'

theorem nodup_blkhd (h : (waiters list).Nodup) {e : Lockf} (he : e ∈ list) : e.lfBlkhd.Nodup := by
  have hle : (e.lfBlkhd : Multiset Addr) ≤ waiters list := (sublist_flatten_of_mem (mem_map_of_mem he)).subperm
  exact Multiset.nodup_of_le hle h

theorem mem_requeue {e' : Lockf} : e' ∈ requeue b f list ↔
    ∃ e ∈ list, e' = {e with lfBlkhd := if e.addr = b then f e.lfBlkhd else e.lfBlkhd} := by
  have himage : ∀ e : Lockf, (if e.addr = b then {e with lfBlkhd := f e.lfBlkhd} else e) =
      {e with lfBlkhd := if e.addr = b then f e.lfBlkhd else e.lfBlkhd} := by
    intro e
    split <;> rfl
  simp only [requeue, mem_map, himage]
  constructor
  · rintro ⟨e, he, rfl⟩
    exact ⟨e, he, rfl⟩
  · rintro ⟨e, he, rfl⟩
    exact ⟨e, he, rfl⟩

theorem requeue_of_notMem (h : b ∉ list.map Lockf.addr) : requeue b f list = list := by
  have hid : ∀ lf ∈ list, (if lf.addr = b then {lf with lfBlkhd := f lf.lfBlkhd} else lf) = lf := by
    intro lf hlf
    exact if_neg fun heq => h (mem_map.mpr ⟨lf, hlf, heq⟩)
  rw [requeue, map_congr_left hid, map_id']

theorem requeue_cons {lf : Lockf} : requeue b f (lf :: list) =
    (if lf.addr = b then {lf with lfBlkhd := f lf.lfBlkhd} else lf) :: requeue b f list := rfl

theorem waiters_enqueue {e : Lockf} (hnodup : (list.map Lockf.addr).Nodup) (he : e ∈ list) (w : Addr) :
    waiters (requeue e.addr (· ++ [w]) list) = waiters list + {w} := by
  induction list with
  | nil => exact absurd he not_mem_nil
  | cons lf rest ih =>
    rw [map_cons, nodup_cons] at hnodup
    rw [requeue_cons, waiters_cons, waiters_cons]
    rcases mem_cons.mp he with rfl | he
    · rw [requeue_of_notMem hnodup.1, if_pos rfl, ← Multiset.coe_add]
      simp only [Multiset.coe_singleton]
      abel
    · have hne : lf.addr ≠ e.addr := fun heq => hnodup.1 (mem_map.mpr ⟨e, he, heq.symm⟩)
      rw [if_neg hne, ih hnodup.2 he, add_assoc]

theorem waiters_dequeue (b w : Addr) : waiters (requeue b (·.erase w) list) ≤ waiters list := by
  induction list with
  | nil => exact le_refl _
  | cons lf rest ih =>
    rw [requeue_cons, waiters_cons, waiters_cons]
    refine add_le_add ?_ ih
    split
    · exact erase_sublist.subperm
    · exact le_refl _

end Queues

/-! ### Requests that wait -/

section Waits
variable {F : Type} {s s' : Sys F} {c : Call F} {f f' : F} {lock lock' : Lockf} {b b' : Addr}

/-- The request of `c` waits at `b`. -/
def Call.WaitsAt (c : Call F) (f : F) (lock : Lockf) (b : Addr) : Prop :=
  c.file = f ∧ c.stage.lock? = some lock ∧ c.stage.lfNext = some b

def Sys.Waits (s : Sys F) (f : F) (lock : Lockf) (b : Addr) : Prop := ∃ c ∈ s.calls, c.WaitsAt f lock b

structure WaitOk (s : Sys F) : Prop where
  nodup : ∀ f, (waiters (s.lists f)).Nodup
  queued : ∀ f, ∀ e ∈ s.lists f, ∀ w ∈ e.lfBlkhd, ∃ lock, lock.addr = w ∧ s.Waits f lock e.addr
  blocked : ∀ f lock b, s.Waits f lock b → ∃ e ∈ s.lists f, e.addr = b ∧ lock.addr ∈ e.lfBlkhd ∧ Blocks lock e
  asleep : ∀ c ∈ s.calls, c.stage.isAsleep → c.stage.lfNext.isSome
  free : ∀ f, ∀ e ∈ s.lists f, ∀ e' ∈ s.lists f, ¬Blocks e e'

theorem not_waitsAt (h : c.stage.lfNext = none) : ¬c.WaitsAt f lock b := by
  rintro ⟨-, -, hb⟩
  rw [h] at hb
  cases hb

theorem mem_structs (h : c.stage.lock? = some lock) : lock ∈ c.structs := by
  rw [Call.structs, h]
  exact mem_cons_self

theorem waits_iff (hb : Base s) (hc : c ∈ s.calls) : s.Waits f lock b ↔ c.WaitsAt f lock b ∨ ∃ d ∈ s.others c.lwp, d.WaitsAt f lock b := by
  unfold Sys.Waits
  simp [(calls_perm hb.lwps hc).mem_iff, mem_cons, exists_eq_or_imp]

theorem waits_cons {calls : List (Call F)} (h : s'.calls = c :: calls) :
    s'.Waits f lock b ↔ c.WaitsAt f lock b ∨ ∃ d ∈ calls, d.WaitsAt f lock b := by
  unfold Sys.Waits
  simp [h, mem_cons, exists_eq_or_imp]

theorem waits_unique (hb : Base s) (ha : AddrOk s) (h : s.Waits f lock b) (h' : s.Waits f' lock' b')
    (haddr : lock.addr = lock'.addr) : f = f' ∧ lock = lock' ∧ b = b' := by
  obtain ⟨c, hc, hfile, hlock, hnext⟩ := h
  obtain ⟨c', hc', hfile', hlock', hnext'⟩ := h'
  have hsame : c = c' := ha.struct_unique hb hc hc' (mem_structs hlock) (mem_structs hlock') haddr
  subst hsame
  rw [hlock] at hlock'
  rw [hnext] at hnext'
  exact ⟨hfile.symm.trans hfile', Option.some.inj hlock', Option.some.inj hnext'⟩

theorem Sys.Waits.rangeOk (h : s.Waits f lock b) (hb : Base s) : lock.RangeOk := by
  obtain ⟨c, hc, -, hlock, hnext⟩ := h
  have hreq := hb.requests c hc
  unfold RequestOk at hreq
  cases hs : c.stage with
  | entered lk | leaving lk error =>
    rw [hs] at hnext
    cases hnext
  | asleep lk next | awake lk next =>
    rw [hs] at hlock hreq
    cases hlock
    exact hreq.1.range

theorem WaitOk.notMem_waiters (hw : WaitOk s) (hb : Base s) (ha : AddrOk s) (hc : c ∈ s.calls)
    (hlock : c.stage.lock? = some lock) (hnext : c.stage.lfNext = none) (f : F) : lock.addr ∉ waiters (s.lists f) := by
  intro hmem
  obtain ⟨e, he, hblk⟩ := mem_waiters.mp hmem
  obtain ⟨lock', haddr, c', hc', hwaits⟩ := hw.queued f e he _ hblk
  have hsame : c = c' := ha.struct_unique hb hc hc' (mem_structs hlock) (mem_structs hwaits.2.1) haddr.symm
  rw [hsame] at hnext
  exact not_waitsAt hnext hwaits

theorem WaitOk.of_waits (hw : WaitOk s) (hlists : s'.lists = s.lists) (hwaits : ∀ f lock b, s'.Waits f lock b ↔ s.Waits f lock b)
    (hasleep : ∀ c ∈ s'.calls, c.stage.isAsleep → c.stage.lfNext.isSome) : WaitOk s' where
  nodup := by
    rw [hlists]
    exact hw.nodup
  queued f e he w hmem := by
    rw [hlists] at he
    obtain ⟨lock, haddr, hlock⟩ := hw.queued f e he w hmem
    exact ⟨lock, haddr, (hwaits f lock _).mpr hlock⟩
  blocked f lock b h := by
    rw [hlists]
    exact hw.blocked f lock b ((hwaits f lock b).mp h)
  asleep := hasleep
  free := by
    rw [hlists]
    exact hw.free

/-! ### An edit -/

theorem Blocks.stronger {e e' : Lockf} (h : Blocks lock e) (hs : Stronger e e') (he : e.RangeOk) (he' : e'.RangeOk)
    (hlock : lock.RangeOk) : Blocks lock e' := by
  obtain ⟨hid, hap, htype⟩ := h
  refine ⟨hs.id ▸ hid, fun hap' => hap ?_, htype.imp_right hs.type⟩
  rw [apart_iff hlock he]
  intro x hx
  exact (apart_iff hlock he').mp hap' x (hs.within.covers hx)

theorem lfNext_notify {stage : Stage} {woken moved : List Addr} {a : Addr} (hlock : stage.lock? = some lock)
    (hm : lock.addr ∈ moved → stage.lfNext.isSome) : (stage.notify woken moved a).lfNext =
      if lock.addr ∈ woken then none else stage.lfNext.map fun b => if lock.addr ∈ moved then a else b := by
  have hnext : ∀ lfNext : Option Addr, (lock.addr ∈ moved → lfNext.isSome) →
      (if lock.addr ∈ moved then some a else lfNext) = lfNext.map fun b => if lock.addr ∈ moved then a else b := by
    intro lfNext hsome
    by_cases hmoved : lock.addr ∈ moved
    · obtain ⟨b, rfl⟩ := Option.isSome_iff_exists.mp (hsome hmoved)
      simp [hmoved]
    · simp [hmoved]
  cases stage with
  | entered lk => simp [Stage.notify, Stage.lfNext]
  | leaving lk error => simp [Stage.notify, Stage.lfNext]
  | asleep lk lfNext =>
    cases hlock
    rw [Stage.notify]
    by_cases hw : lock.addr ∈ woken
    · rw [if_pos hw, if_pos hw]
      rfl
    · rw [if_neg hw, if_neg hw]
      exact hnext lfNext hm
  | awake lk lfNext =>
    cases hlock
    rw [Stage.notify, Stage.lfNext]
    congr 1
    exact hnext lfNext hm

theorem notify_waitsAt {woken moved : List Addr} {a : Addr} (hm : c.stage.lock? = some lock → lock.addr ∈ moved → c.stage.lfNext.isSome) :
    (c.notify woken moved a).WaitsAt f lock b ↔
      ∃ b₀, c.WaitsAt f lock b₀ ∧ lock.addr ∉ woken ∧ b = if lock.addr ∈ moved then a else b₀ := by
  unfold Call.WaitsAt Call.notify
  simp only [lock?_notify]
  constructor
  · rintro ⟨hfile, hlock, hnext⟩
    rw [lfNext_notify hlock (hm hlock)] at hnext
    split at hnext
    · cases hnext
    · next hwoken =>
      obtain ⟨b₀, hb₀, rfl⟩ := Option.map_eq_some_iff.mp hnext
      exact ⟨b₀, ⟨hfile, hlock, hb₀⟩, hwoken, rfl⟩
  · rintro ⟨b₀, ⟨hfile, hlock, hb₀⟩, hwoken, rfl⟩
    refine ⟨hfile, hlock, ?_⟩
    rw [lfNext_notify hlock (hm hlock), if_neg hwoken, hb₀]
    rfl

theorem notify_asleep {woken moved : List Addr} {a : Addr} (h : c.stage.isAsleep → c.stage.lfNext.isSome)
    (hs : (c.notify woken moved a).stage.isAsleep) : (c.notify woken moved a).stage.lfNext.isSome := by
  unfold Call.notify at *
  cases hstage : c.stage with
  | asleep lock lfNext =>
    rw [hstage] at h hs
    simp only [Stage.notify] at hs ⊢
    split at hs
    · cases hs
    · next hwoken =>
      rw [if_neg hwoken]
      split
      · rfl
      · exact h rfl
  | _ =>
    rw [hstage] at hs
    cases hs

end Waits

section Edits
variable {F : Type} {s s' : Sys F} {c : Call F} {r : Edited} {a : Addr} {stage : Stage}

/-- What an edit of the list by `c` does to those who wait: none is lost, those who are
moved go to the lock at `a`, and no entry conflicts with another. -/
structure Keeps (s : Sys F) (c : Call F) (a : Addr) (r : Edited) : Prop where
  sum : waiters (s.lists c.file) = r.woken + waiters r.list
  cameFrom : ∀ e ∈ r.list, ∀ w ∈ e.lfBlkhd, CameFrom (s.lists c.file) r.moved e w
  moved : ∀ w ∈ r.moved, ∃ e ∈ r.list, e.addr = a ∧ w ∈ e.lfBlkhd
  ranges : RangesOk r.list
  free : ∀ e ∈ r.list, ∀ e' ∈ r.list, ¬Blocks e e'

theorem Keeps.entry (h : Keeps s c a r) (hw : WaitOk s) : ∀ e ∈ r.list, ∀ w ∈ e.lfBlkhd,
    w ∉ r.woken ∧ ∃ e₀ ∈ s.lists c.file, w ∈ e₀.lfBlkhd ∧ Stronger e₀ e ∧ e.addr = if w ∈ r.moved then a else e₀.addr := by
  intro e he w hmem
  have hnodup := hw.nodup c.file
  rw [h.sum, Multiset.nodup_add] at hnodup
  obtain ⟨-, hnew, hdisj⟩ := hnodup
  obtain ⟨e₀, he₀, hmem₀, hstrong, hor⟩ := h.cameFrom e he w hmem
  refine ⟨fun hwoken => Multiset.disjoint_left.mp hdisj hwoken (mem_waiters.mpr ⟨e, he, hmem⟩), e₀, he₀, hmem₀, hstrong, ?_⟩
  by_cases hmoved : w ∈ r.moved
  · obtain ⟨e', he', haddr, hmem'⟩ := h.moved w hmoved
    rw [if_pos hmoved, waiter_unique hnew he he' hmem hmem']
    exact haddr
  · rw [if_neg hmoved]
    exact hor.resolve_right hmoved

theorem Keeps.subset (h : Keeps s c a r) {w : Addr} (hmem : w ∈ r.woken ∨ w ∈ r.moved) : w ∈ waiters (s.lists c.file) := by
  rw [h.sum, Multiset.mem_add]
  refine hmem.imp id fun hmoved => ?_
  obtain ⟨e, he, -, hblk⟩ := h.moved w hmoved
  exact mem_waiters.mpr ⟨e, he, hblk⟩

theorem Keeps.elsewhere (h : Keeps s c a r) (hw : WaitOk s) (hb : Base s) (ha : AddrOk s) {f : F} {lock : Lockf} {b : Addr}
    (hf : f ≠ c.file) (hwaits : s.Waits f lock b) : lock.addr ∉ r.woken ∧ lock.addr ∉ r.moved := by
  rw [← not_or]
  intro hmem
  obtain ⟨e, he, hblk⟩ := mem_waiters.mp (h.subset hmem)
  obtain ⟨lock', haddr, hwaits'⟩ := hw.queued c.file e he _ hblk
  exact hf (waits_unique hb ha hwaits hwaits' haddr.symm).1

theorem Keeps.waits [DecidableEq F] (h : Keeps s c a r) (hw : WaitOk s) (hb : Base s) (ha : AddrOk s) (hc : c ∈ s.calls)
    (hnext : c.stage.lfNext = none) (hstage : stage.lfNext = none) (f : F) (lock : Lockf) (b : Addr) :
    (s.edit c a r stage).Waits f lock b ↔
      ∃ b₀, s.Waits f lock b₀ ∧ lock.addr ∉ r.woken ∧ b = if lock.addr ∈ r.moved then a else b₀ := by
  have hm : ∀ d ∈ s.others c.lwp, d.stage.lock? = some lock → lock.addr ∈ r.moved → d.stage.lfNext.isSome := by
    intro d hd hlock hmoved
    by_contra hnone
    rw [Option.not_isSome_iff_eq_none] at hnone
    exact hw.notMem_waiters hb ha ((mem_others s).mp hd).1 hlock hnone c.file (h.subset (.inr hmoved))
  rw [waits_cons (edit_calls s c a r stage)]
  have hnot : ¬Call.WaitsAt {c with spare := r.spare, stage := stage} f lock b := not_waitsAt hstage
  constructor
  · rintro (hself | ⟨d, hd, hwaits⟩)
    · exact absurd hself hnot
    obtain ⟨d₀, hd₀, rfl⟩ := mem_map.mp hd
    obtain ⟨b₀, hwaits₀, hrest⟩ := (notify_waitsAt (hm d₀ hd₀)).mp hwaits
    exact ⟨b₀, ⟨d₀, ((mem_others s).mp hd₀).1, hwaits₀⟩, hrest⟩
  · rintro ⟨b₀, hwaits, hrest⟩
    rcases (waits_iff hb hc).mp hwaits with hself | ⟨d₀, hd₀, hwaits₀⟩
    · exact absurd hself (not_waitsAt hnext)
    · exact .inr ⟨_, mem_map_of_mem hd₀, (notify_waitsAt (hm d₀ hd₀)).mpr ⟨b₀, hwaits₀, hrest⟩⟩

theorem Keeps.waitOk [DecidableEq F] (h : Keeps s c a r) (hw : WaitOk s) (hb : Base s) (ha : AddrOk s) (hc : c ∈ s.calls)
    (hnext : c.stage.lfNext = none) (hstage : stage.lfNext = none) (hawake : stage.isAsleep = false) :
    WaitOk (s.edit c a r stage) := by
  have hwaits := h.waits hw hb ha hc hnext hstage
  have hlists : ∀ f, (f = c.file ∧ (s.edit c a r stage).lists f = r.list) ∨ (f ≠ c.file ∧ (s.edit c a r stage).lists f = s.lists f) := by
    intro f
    rw [edit_lists]
    by_cases hf : f = c.file
    · subst hf
      exact .inl ⟨rfl, update_self _ _ _⟩
    · exact .inr ⟨hf, update_of_ne hf _ _⟩
  refine ⟨fun f => ?_, fun f e he w hmem => ?_, fun f lock b hlock => ?_, fun c' hc' hs => ?_, fun f => ?_⟩
  · rcases hlists f with ⟨rfl, hl⟩ | ⟨hf, hl⟩ <;> rw [hl]
    · have hnodup := hw.nodup c.file
      rw [h.sum, Multiset.nodup_add] at hnodup
      exact hnodup.2.1
    · exact hw.nodup f
  · rcases hlists f with ⟨rfl, hl⟩ | ⟨hf, hl⟩ <;> rw [hl] at he
    · obtain ⟨hwoken, e₀, he₀, hmem₀, -, haddr⟩ := h.entry hw e he w hmem
      obtain ⟨lock, rfl, hlock⟩ := hw.queued c.file e₀ he₀ w hmem₀
      exact ⟨lock, rfl, (hwaits _ _ _).mpr ⟨_, hlock, hwoken, haddr⟩⟩
    · obtain ⟨lock, rfl, hlock⟩ := hw.queued f e he w hmem
      obtain ⟨hwoken, hmoved⟩ := h.elsewhere hw hb ha hf hlock
      exact ⟨lock, rfl, (hwaits _ _ _).mpr ⟨_, hlock, hwoken, by rw [if_neg hmoved]⟩⟩
  · obtain ⟨b₀, hlock₀, hwoken, rfl⟩ := (hwaits _ _ _).mp hlock
    obtain ⟨e₀, he₀, rfl, hmem₀, hblocks⟩ := hw.blocked f lock b₀ hlock₀
    rcases hlists f with ⟨rfl, hl⟩ | ⟨hf, hl⟩ <;> rw [hl]
    · -- It was on `e₀` and was not woken, so that it is on what `e₀` became.
      have hstill : lock.addr ∈ waiters (s.lists c.file) := mem_waiters.mpr ⟨e₀, he₀, hmem₀⟩
      rw [h.sum, Multiset.mem_add] at hstill
      obtain ⟨e, he, hmem⟩ := mem_waiters.mp (hstill.resolve_left hwoken)
      obtain ⟨-, e₁, he₁, hmem₁, hstrong, haddr⟩ := h.entry hw e he _ hmem
      rw [waiter_unique (hw.nodup c.file) he₁ he₀ hmem₁ hmem₀] at hstrong haddr
      exact ⟨e, he, haddr, hmem, hblocks.stronger hstrong (hb.ranges _ e₀ he₀) (h.ranges e he) (hlock₀.rangeOk hb)⟩
    · obtain ⟨-, hmoved⟩ := h.elsewhere hw hb ha hf hlock₀
      exact ⟨e₀, he₀, by rw [if_neg hmoved], hmem₀, hblocks⟩
  · rw [edit_calls] at hc'
    rcases mem_cons.mp hc' with rfl | hc'
    · rw [hawake] at hs
      cases hs
    · obtain ⟨d, hd, rfl⟩ := mem_map.mp hc'
      exact notify_asleep (hw.asleep d ((mem_others s).mp hd).1) hs
  · rcases hlists f with ⟨rfl, hl⟩ | ⟨hf, hl⟩ <;> rw [hl]
    · exact h.free
    · exact hw.free f

theorem not_blocks_within {e e' p p' : Lockf} (h : ¬Blocks e e') (hid : p.lfId = e.lfId) (hid' : p'.lfId = e'.lfId)
    (ht : p.lfType = e.lfType) (ht' : p'.lfType = e'.lfType) (hin : Within p e) (hin' : Within p' e') (he : e.RangeOk)
    (he' : e'.RangeOk) (hp : p.RangeOk) (hp' : p'.RangeOk) : ¬Blocks p p' := by
  rintro ⟨hne, hap, htype⟩
  refine h ⟨by rwa [← hid, ← hid'], fun hapart => hap ?_, by rwa [← ht, ← ht']⟩
  rw [apart_iff hp hp']
  intro x hx hx'
  exact (apart_iff he he').mp hapart x (hin'.covers hx) (hin.covers hx')

theorem blocks_symm {e e' : Lockf} (h : Blocks e e') : Blocks e' e :=
  ⟨h.1.symm, fun hap => h.2.1 hap.symm, h.2.2.symm⟩

theorem edits_keeps {lock : Lockf} {spare : Option Lockf} (hr : Edits lock spare (s.lists c.file) r) (hm : r.moved = [])
    (hlock : lock.RangeOk) (hw : WaitOk s) (hb : Base s) (a : Addr) : Keeps s c a r where
  sum := by
    have hsum := hr.waiters_eq
    rw [hm] at hsum
    simpa using hsum
  cameFrom e he w hmem := hr.cameFrom e he w hmem
  moved w hmoved := by
    rw [hm] at hmoved
    exact absurd hmoved not_mem_nil
  ranges := part_ok hr hlock (hb.ranges _)
  free p hp p' hp' := by
    obtain ⟨⟨e, he, hpart⟩, -⟩ := hr.part hlock (hb.ranges _) p hp
    obtain ⟨⟨e', he', hpart'⟩, -⟩ := hr.part hlock (hb.ranges _) p' hp'
    exact not_blocks_within (hw.free _ e he e' he') hpart.id hpart'.id hpart.type hpart'.type hpart.within hpart'.within
      (hb.ranges _ e he) (hb.ranges _ e' he') hpart.ok hpart'.ok

theorem sets_keeps {lock : Lockf} {spare : Option Lockf} (hr : Sets lock spare (s.lists c.file) r) (hlock : lock.RangeOk)
    (hblk : lock.lfBlkhd = []) (htype : lock.lfType ≠ .unlck) (hfree : ∀ e ∈ s.lists c.file, ¬Blocks lock e) (hw : WaitOk s)
    (hb : Base s) : Keeps s c lock.addr r where
  sum := hr.waiters_eq hblk
  cameFrom := hr.cameFrom hblk htype
  moved := hr.movedTo
  ranges p hp := by
    rcases hr.part hlock (hb.ranges _) p hp with ⟨e, he, hpart⟩ | hpart
    · exact hpart.ok
    · exact hpart.ok
  free p hp p' hp' := by
    have hself : ¬Blocks lock lock := fun h => h.1 rfl
    rcases hr.part hlock (hb.ranges _) p hp with ⟨e, he, hpart⟩ | hpart <;>
      rcases hr.part hlock (hb.ranges _) p' hp' with ⟨e', he', hpart'⟩ | hpart'
    · exact not_blocks_within (hw.free _ e he e' he') hpart.id hpart'.id hpart.type hpart'.type hpart.within hpart'.within
        (hb.ranges _ e he) (hb.ranges _ e' he') hpart.ok hpart'.ok
    · have hnot : ¬Blocks e lock := fun h => hfree e he (blocks_symm h)
      exact not_blocks_within hnot hpart.id hpart'.id hpart.type hpart'.type hpart.within hpart'.within
        (hb.ranges _ e he) hlock hpart.ok hpart'.ok
    · exact not_blocks_within (hfree e' he') hpart.id hpart'.id hpart.type hpart'.type hpart.within hpart'.within
        hlock (hb.ranges _ e' he') hpart.ok hpart'.ok
    · exact not_blocks_within hself hpart.id hpart'.id hpart.type hpart'.type hpart.within hpart'.within hlock hlock
        hpart.ok hpart'.ok

end Edits

/-! ### Moves -/

section Moves
variable {F : Type} {s s' : Sys F} {c : Call F} {lock : Lockf}

theorem waits_idle (hb : Base s) (hc : c ∈ s.calls) (hnext : c.stage.lfNext = none) {mine : List (Call F)}
    (hcalls : s'.calls = mine ++ s.others c.lwp) (hnext' : ∀ d ∈ mine, d.stage.lfNext = none) (f : F) (lock : Lockf) (b : Addr) :
    s'.Waits f lock b ↔ s.Waits f lock b := by
  rw [waits_iff hb hc]
  unfold Sys.Waits
  rw [hcalls]
  constructor
  · rintro ⟨d, hd, hwaits⟩
    rcases mem_append.mp hd with hd | hd
    · exact absurd hwaits (not_waitsAt (hnext' d hd))
    · exact .inr ⟨d, hd, hwaits⟩
  · rintro (hself | ⟨d, hd, hwaits⟩)
    · exact absurd hself (not_waitsAt hnext)
    · exact ⟨d, mem_append_right _ hd, hwaits⟩

theorem WaitOk.idle (hw : WaitOk s) (hb : Base s) (hc : c ∈ s.calls) (hnext : c.stage.lfNext = none) (mine : List (Call F))
    (hcalls : s'.calls = mine ++ s.others c.lwp)
    (hidle : ∀ d ∈ mine, d.stage.lfNext = none ∧ d.stage.isAsleep = false) (hlists : s'.lists = s.lists) : WaitOk s' := by
  refine hw.of_waits hlists (waits_idle hb hc hnext hcalls fun d hd => (hidle d hd).1) fun d hd hs => ?_
  rw [hcalls] at hd
  rcases mem_append.mp hd with hd | hd
  · rw [(hidle d hd).2] at hs
    cases hs
  · exact hw.asleep d ((mem_others s).mp hd).1 hs

theorem WaitOk.enter (hw : WaitOk s) {tn : Tunables} {f : F} {rq : Request} {spareAddr lockAddr : Addr}
    (hen : s.Enabled (.enter f rq spareAddr lockAddr)) : WaitOk (s.enter tn f rq spareAddr lockAddr) := by
  -- The call that enters does not wait, and no other is touched.
  have hnew : ∀ (s₁ : Sys F) (d : Call F), s₁.lists = s.lists → s₁.calls = s.calls → d.lwp = rq.lwp →
      d.stage.lfNext = none → d.stage.isAsleep = false → WaitOk (s₁.setCall d) := by
    intro s₁ d hlists hcalls hlwp hnext hawake
    have hothers : (s₁.setCall d).calls = d :: s.calls := by
      rw [setCall_calls, others_eq_of_forall, hcalls]
      rw [hcalls, hlwp]
      exact hen.2.1
    refine hw.of_waits hlists (fun f lock b => ?_) fun d' hd' hs => ?_
    · rw [waits_cons hothers]
      exact or_iff_right (not_waitsAt hnext)
    rw [hothers] at hd'
    rcases mem_cons.mp hd' with rfl | hd'
    · rw [hawake] at hs
      cases hs
    · exact hw.asleep d' hd' hs
  rcases enter_cases s tn f rq spareAddr lockAddr with heq | ⟨start, fin, s₁, hr, hs₁, heq⟩
  · rw [heq]
    exact hw
  have hlists : s₁.lists = s.lists := by
    rw [hs₁]
    split <;> rfl
  have hcalls : s₁.calls = s.calls := by
    rw [hs₁]
    split <;> rfl
  rcases heq with heq | heq <;> rw [heq]
  · exact hnew s₁ _ hlists hcalls rfl rfl rfl
  · exact hnew (s₁.charge rq.euid) _ hlists hcalls rfl rfl rfl

theorem WaitOk.signal (hw : WaitOk s) (hb : Base s) (hc : c ∈ s.calls) {lfNext : Option Addr}
    (hs : c.stage = .asleep lock lfNext) : WaitOk (s.setCall {c with stage := .awake lock lfNext}) := by
  refine hw.of_waits rfl (fun f lk b => ?_) fun d hd hasleep => ?_
  · have hsame : Call.WaitsAt {c with stage := .awake lock lfNext} f lk b ↔ c.WaitsAt f lk b := by
      unfold Call.WaitsAt
      rw [hs]
      rfl
    rw [waits_cons (setCall_calls s _), waits_iff hb hc, hsame]
  · rcases mem_cons.mp hd with rfl | hd
    · cases hasleep
    · exact hw.asleep d ((mem_others s).mp hd).1 hasleep

theorem free_requeue {f : F} (hw : WaitOk s) (b : Addr) (g : List Addr → List Addr) :
    ∀ e ∈ requeue b g (s.lists f), ∀ e' ∈ requeue b g (s.lists f), ¬Blocks e e' := by
  intro e he e' he'
  obtain ⟨e₀, he₀, rfl⟩ := mem_requeue.mp he
  obtain ⟨e₁, he₁, rfl⟩ := mem_requeue.mp he'
  exact hw.free f e₀ he₀ e₁ he₁

end Moves

section Queueing
variable {F : Type} [DecidableEq F] {s : Sys F} {c : Call F} {lock : Lockf} {list : List Lockf}

theorem setList_cases (f : F) (c : Call F) (list : List Lockf) (d : Call F) : (f = c.file ∧ ((s.setList c.file list).setCall d).lists f = list) ∨
      (f ≠ c.file ∧ ((s.setList c.file list).setCall d).lists f = s.lists f) := by
  by_cases hf : f = c.file
  · subst hf
    exact .inl ⟨rfl, update_self _ _ _⟩
  · exact .inr ⟨hf, update_of_ne hf _ _⟩

section
variable (hw : WaitOk s) (hb : Base s) (ha : AddrOk s) (hc : c ∈ s.calls)
include hw hb ha hc

/-- A request that is blocked goes on the queue of what blocks it. -/
theorem WaitOk.sleep (hl : Holds c lock) {block : Lockf}
    (hmem : block ∈ s.lists c.file) (hblocks : Blocks lock block) : WaitOk (s.sleep c lock block) := by
  have hnot := hw.notMem_waiters hb ha hc hl.lock_eq hl.lfNext_eq
  have hwaits : ∀ f lk b, (s.sleep c lock block).Waits f lk b ↔ (c.file = f ∧ lock = lk ∧ block.addr = b) ∨ s.Waits f lk b := by
    intro f lk b
    rw [Sys.sleep, waits_cons (setCall_calls _ _), waits_iff hb hc, or_iff_right (not_waitsAt hl.lfNext_eq)]
    simp only [Call.WaitsAt, Stage.lock?, Stage.lfNext, Option.some.injEq]
    rfl
  have hlists := fun f => @setList_cases F _ s f c (requeue block.addr (· ++ [lock.addr]) (s.lists c.file))
    {c with stage := .asleep lock (some block.addr)}
  refine ⟨fun f => ?_, fun f e he w hblk => ?_, fun f lk b hlk => ?_, fun d hd hs => ?_, fun f => ?_⟩
  · rcases hlists f with ⟨rfl, hlist⟩ | ⟨hf, hlist⟩ <;> rw [Sys.sleep, hlist]
    · rw [waiters_enqueue (ha.list _) hmem]
      refine Multiset.nodup_add.mpr ⟨hw.nodup _, Multiset.nodup_singleton _, ?_⟩
      refine Multiset.disjoint_right.mpr fun hw hmem => hnot c.file ?_
      rwa [← Multiset.mem_singleton.mp hw]
    · exact hw.nodup f
  · rcases hlists f with ⟨rfl, hlist⟩ | ⟨hf, hlist⟩ <;> rw [Sys.sleep, hlist] at he
    · obtain ⟨e₀, he₀, rfl⟩ := mem_requeue.mp he
      by_cases haddr : e₀.addr = block.addr
      · simp only [if_pos haddr, mem_append, mem_singleton] at hblk
        rcases hblk with hblk | rfl
        · obtain ⟨lk, hlk, hwait⟩ := hw.queued _ e₀ he₀ w hblk
          exact ⟨lk, hlk, (hwaits _ _ _).mpr (.inr hwait)⟩
        · exact ⟨lock, rfl, (hwaits _ _ _).mpr (.inl ⟨rfl, rfl, haddr.symm⟩)⟩
      · simp only [if_neg haddr] at hblk
        obtain ⟨lk, hlk, hwait⟩ := hw.queued _ e₀ he₀ w hblk
        exact ⟨lk, hlk, (hwaits _ _ _).mpr (.inr hwait)⟩
    · obtain ⟨lk, hlk, hwait⟩ := hw.queued f e he w hblk
      exact ⟨lk, hlk, (hwaits _ _ _).mpr (.inr hwait)⟩
  · rcases (hwaits f lk b).mp hlk with ⟨rfl, rfl, rfl⟩ | hwait
    · obtain ⟨-, hlist⟩ | ⟨hf, -⟩ := hlists c.file
      · have himage : {block with lfBlkhd := block.lfBlkhd ++ [lock.addr]} ∈
            requeue block.addr (· ++ [lock.addr]) (s.lists c.file) := mem_requeue.mpr ⟨block, hmem, by rw [if_pos rfl]⟩
        rw [Sys.sleep, hlist]
        exact ⟨_, himage, rfl, mem_append_right _ mem_cons_self, hblocks⟩
      · exact absurd rfl hf
    obtain ⟨e₀, he₀, rfl, hblk, hbl⟩ := hw.blocked f lk b hwait
    rcases hlists f with ⟨rfl, hlist⟩ | ⟨hf, hlist⟩ <;> rw [Sys.sleep, hlist]
    · refine ⟨_, mem_requeue.mpr ⟨e₀, he₀, rfl⟩, rfl, ?_, hbl⟩
      split
      · exact mem_append_left _ hblk
      · exact hblk
    · exact ⟨e₀, he₀, rfl, hblk, hbl⟩
  · rcases mem_cons.mp hd with rfl | hd
    · rfl
    · exact hw.asleep d ((mem_others s).mp hd).1 hs
  · rcases hlists f with ⟨rfl, hlist⟩ | ⟨hf, hlist⟩ <;> rw [Sys.sleep, hlist]
    · exact free_requeue hw _ _
    · exact hw.free f

/-- A request that takes itself off the queue it is on. -/
theorem WaitOk.dequeue {b : Addr} (hs : c.stage = .awake lock (some b)) :
    WaitOk ((s.setList c.file (requeue b (·.erase lock.addr) (s.lists c.file))).setCall {c with stage := .awake lock none}) := by
  have hself : s.Waits c.file lock b := ⟨c, hc, rfl, by rw [hs]; rfl, by rw [hs]; rfl⟩
  have hwaits : ∀ f lk b', ((s.setList c.file (requeue b (·.erase lock.addr) (s.lists c.file))).setCall
      {c with stage := .awake lock none}).Waits f lk b' ↔ s.Waits f lk b' ∧ lk.addr ≠ lock.addr := by
    intro f lk b'
    rw [waits_cons (setCall_calls _ _), waits_iff hb hc, or_iff_right (not_waitsAt rfl)]
    constructor
    · rintro ⟨d, hd, hwait⟩
      refine ⟨.inr ⟨d, hd, hwait⟩, fun heq => ((mem_others s).mp hd).2 ?_⟩
      have hsame := ha.struct_unique hb ((mem_others s).mp hd).1 hc (mem_structs hwait.2.1) (@mem_structs F c lock (by rw [hs]; rfl)) heq
      rw [hsame]
    rintro ⟨hwait | hwait, hne⟩
    · have hlk := hwait.2.1
      rw [hs] at hlk
      cases hlk
      exact absurd rfl hne
    · exact hwait
  have hlists := fun f => @setList_cases F _ s f c (requeue b (·.erase lock.addr) (s.lists c.file))
    {c with stage := .awake lock none}
  refine ⟨fun f => ?_, fun f e he w hblk => ?_, fun f lk b' hlk => ?_, fun d hd hasleep => ?_, fun f => ?_⟩
  · rcases hlists f with ⟨rfl, hlist⟩ | ⟨hf, hlist⟩ <;> rw [hlist]
    · exact Multiset.nodup_of_le (waiters_dequeue b lock.addr) (hw.nodup _)
    · exact hw.nodup f
  · rcases hlists f with ⟨rfl, hlist⟩ | ⟨hf, hlist⟩ <;> rw [hlist] at he
    · obtain ⟨e₀, he₀, rfl⟩ := mem_requeue.mp he
      by_cases haddr : e₀.addr = b
      · simp only [if_pos haddr] at hblk
        have hblk₀ := mem_of_mem_erase hblk
        obtain ⟨lk, hlk, hwait⟩ := hw.queued _ e₀ he₀ w hblk₀
        refine ⟨lk, hlk, (hwaits _ _ _).mpr ⟨hwait, fun heq => ?_⟩⟩
        -- It was on that queue once.
        have hnodup : e₀.lfBlkhd.Nodup := nodup_blkhd (hw.nodup _) he₀
        rw [← heq, hlk] at hblk
        exact (Nodup.mem_erase_iff hnodup).mp hblk |>.1 rfl
      · simp only [if_neg haddr] at hblk
        obtain ⟨lk, hlk, hwait⟩ := hw.queued _ e₀ he₀ w hblk
        refine ⟨lk, hlk, (hwaits _ _ _).mpr ⟨hwait, fun heq => haddr ?_⟩⟩
        exact (waits_unique hb ha hwait hself heq).2.2
    · obtain ⟨lk, hlk, hwait⟩ := hw.queued f e he w hblk
      exact ⟨lk, hlk, (hwaits _ _ _).mpr ⟨hwait, fun heq => hf (waits_unique hb ha hwait hself heq).1⟩⟩
  · obtain ⟨hwait, hne⟩ := (hwaits f lk b').mp hlk
    obtain ⟨e₀, he₀, rfl, hblk, hbl⟩ := hw.blocked f lk b' hwait
    rcases hlists f with ⟨rfl, hlist⟩ | ⟨hf, hlist⟩ <;> rw [hlist]
    · refine ⟨_, mem_requeue.mpr ⟨e₀, he₀, rfl⟩, rfl, ?_, hbl⟩
      split
      · exact (mem_erase_of_ne hne).mpr hblk
      · exact hblk
    · exact ⟨e₀, he₀, rfl, hblk, hbl⟩
  · rcases mem_cons.mp hd with rfl | hd
    · cases hasleep
    · exact hw.asleep d ((mem_others s).mp hd).1 hasleep
  · rcases hlists f with ⟨rfl, hlist⟩ | ⟨hf, hlist⟩ <;> rw [hlist]
    · exact free_requeue hw _ _
    · exact hw.free f

end

theorem Move.waitOk {tn : Tunables} {k : Known} {s' : Sys F} (h : Move tn k s s') (hw : WaitOk s) (hb : Base s) (ha : AddrOk s) : WaitOk s' := by
  cases h with
  | enter hen hrq => exact hw.enter hen
  | @settle c lock stage freed hc hl hstage =>
    have hidle : stage.lfNext = none ∧ stage.isAsleep = false := by
      rcases hstage with ⟨rfl, -⟩ | ⟨rest, error, rfl, -⟩
      · exact ⟨rfl, rfl⟩
      · exact ⟨rfl, rfl⟩
    refine hw.idle hb hc hl.lfNext_eq [{c with stage := stage}] (by simp) (fun d hd => ?_) (by simp)
    rw [mem_singleton.mp hd]
    exact hidle
  | @unlock c lock r hc hl hop hr hm hgood =>
    exact (edits_keeps hr hm hl.ok.range hw hb _).waitOk hw hb ha hc hl.lfNext_eq rfl rfl
  | @upgrade c lock r hc hl hr hm hspare =>
    have hkeeps : Keeps s c lock.addr r := edits_keeps hr hm hl.ok.range hw hb _
    have hkeeps' : Keeps s c lock.addr {r with spare := c.spare} :=
      ⟨hkeeps.sum, hkeeps.cameFrom, hkeeps.moved, hkeeps.ranges, hkeeps.free⟩
    exact hkeeps'.waitOk hw hb ha hc hl.lfNext_eq hl.lfNext_eq hl.isAsleep_eq
  | @grant c lock r hc hl hop hfree hr hgood =>
    exact (sets_keeps hr hl.ok.range hl.ok.fresh (hl.ok.type hop) hfree hw hb).waitOk hw hb ha hc hl.lfNext_eq rfl rfl
  | @sleep c lock block t hc hl hop hmem hblocks ht hchain => exact hw.sleep hb ha hc hl hmem hblocks
  | signal hc hs => exact hw.signal hb hc hs
  | dequeue hc hs => exact hw.dequeue hb ha hc hs
  | @leave c lock error hc hs =>
    have hnext : c.stage.lfNext = none := by rw [hs]; rfl
    exact hw.idle hb hc hnext [] (by simp) (fun d hd => absurd hd not_mem_nil) (by simp)

end Queueing
end NetBSD.Kern.Advlock
