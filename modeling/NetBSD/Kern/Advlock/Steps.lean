import NetBSD.Kern.Advlock.Calls
import NetBSD.Kern.Advlock.RangeMap
import NetBSD.Kern.Advlock.Effects
import Mathlib.Logic.Relation

/-! What one step of `lf_advlock` can do.

Every step is a few moves: a call enters or leaves, settles for an outcome, edits the
list, goes to sleep, gets a signal or takes itself off a queue (`Move`). What holds of
the lists and of the requests by themselves (`Base`) is kept by every move, and makes
the step functions come down to moves (`next_moves`); the invariants of the claims are
then proved move by move. -/
namespace NetBSD.Kern.Advlock
open List Function Option
open Lib

/-! ### Requests -/

section Requests
variable {F : Type}

/-- What a request is while it has not been granted or refused. -/
structure LockOk (c : Call F) (lock : Lockf) : Prop where
  range : lock.RangeOk
  fresh : lock.lfBlkhd = []
  type : c.op = .setlk → lock.lfType ≠ .unlck
  spare : c.op = .getlk ∨ c.spare.isSome ∨ lock.lfEnd = -1
  flock : ∀ fp, lock.lfId = .file fp → lock.lfEnd = -1
  posix : ∀ p, lock.lfId = .proc p → p = c.proc

def RequestOk (c : Call F) : Prop := match c.stage with
  | .entered lock => LockOk c lock
  | .asleep lock _ | .awake lock _ => LockOk c lock ∧ c.op = .setlk
  | .leaving _ _ => True

structure Base (s : Sys F) : Prop where
  ranges : ∀ f, RangesOk (s.lists f)
  sorted : ∀ f, Sorted (s.lists f)
  lwps : (s.calls.map Call.lwp).Nodup
  requests : ∀ c ∈ s.calls, RequestOk c

/-- The request of a call that has the interlock: it is on no queue. -/
structure Holds (c : Call F) (lock : Lockf) : Prop where
  stage : c.stage = .entered lock ∨ c.stage = .awake lock none
  ok : LockOk c lock

theorem Holds.lock_eq {c : Call F} {lock : Lockf} (h : Holds c lock) : c.stage.lock? = some lock := by
  rcases h.stage with hs | hs <;> rw [hs] <;> rfl

theorem Holds.lfNext_eq {c : Call F} {lock : Lockf} (h : Holds c lock) : c.stage.lfNext = none := by
  rcases h.stage with hs | hs <;> rw [hs] <;> rfl

theorem Holds.isAsleep_eq {c : Call F} {lock : Lockf} (h : Holds c lock) : c.stage.isAsleep = false := by
  rcases h.stage with hs | hs <;> rw [hs] <;> rfl

theorem LockOk.congr {c c' : Call F} {lock : Lockf} (h : LockOk c lock) (hop : c'.op = c.op) (hspare : c'.spare = c.spare)
    (hproc : c'.proc = c.proc) : LockOk c' lock :=
  ⟨h.range, h.fresh, by rw [hop]; exact h.type, by rw [hop, hspare]; exact h.spare, h.flock, by rw [hproc]; exact h.posix⟩

theorem RequestOk.notify {c : Call F} (h : RequestOk c) (woken moved : List Addr) (a : Addr) : RequestOk (c.notify woken moved a) := by
  unfold RequestOk Call.notify at *
  cases hs : c.stage with
  | entered lock =>
    rw [hs] at h
    exact h.congr rfl rfl rfl
  | asleep lock lfNext =>
    rw [hs] at h
    by_cases hw : lock.addr ∈ woken
    · simp only [Stage.notify, if_pos hw]
      exact ⟨h.1.congr rfl rfl rfl, h.2⟩
    · simp only [Stage.notify, if_neg hw]
      exact ⟨h.1.congr rfl rfl rfl, h.2⟩
  | awake lock lfNext =>
    rw [hs] at h
    exact ⟨h.1.congr rfl rfl rfl, h.2⟩
  | leaving lock error => trivial

end Requests

/-! ### Fields -/

section Calls
variable {F : Type} (s : Sys F) (c : Call F) (locks : List Lockf)

@[simp]
theorem lfFrees_lists : (s.lfFrees locks).lists = s.lists := by
  induction locks generalizing s with
  | nil => rfl
  | cons lock locks ih => exact ih (s.lfFree lock)

@[simp]
theorem lfFrees_calls : (s.lfFrees locks).calls = s.calls := by
  induction locks generalizing s with
  | nil => rfl
  | cons lock locks ih => exact ih (s.lfFree lock)

@[simp]
theorem lfFrees_panicked : (s.lfFrees locks).panicked = s.panicked := by
  induction locks generalizing s with
  | nil => rfl
  | cons lock locks ih => exact ih (s.lfFree lock)

@[simp]
theorem setCall_lists : (s.setCall c).lists = s.lists := rfl

@[simp]
theorem setCall_calls : (s.setCall c).calls = c :: s.others c.lwp := rfl

@[simp]
theorem leave_lists (lock : Option Lockf) : (s.leave c lock).lists = s.lists := by
  simp [Sys.leave]

@[simp]
theorem leave_calls (lock : Option Lockf) : (s.leave c lock).calls = s.others c.lwp := by
  simp [Sys.leave]

theorem lfAlloc_zero (tn : Tunables) (uid : Uid) (addr : Addr) : s.lfAlloc tn uid 0 addr = some (s.charge uid, Sys.blank addr uid) := by
  simp [Sys.lfAlloc]

theorem lfAlloc_cases (tn : Tunables) (uid : Uid) (allowfail : Nat) (addr : Addr) : s.lfAlloc tn uid allowfail addr = none ∨
      s.lfAlloc tn uid allowfail addr = some (s.charge uid, Sys.blank addr uid) := by
  unfold Sys.lfAlloc
  dsimp only
  generalize (if allowfail = 1 then tn.maxlocksperuid else tn.maxlocksperuid * 2) = limit
  split
  · exact .inl rfl
  · exact .inr rfl

/-- The spare of a call, and its request. -/
def newSpare (rq : Request) (addr : Addr) : Option Lockf :=
  if rq.aOp ≠ .getlk ∧ rq.style = .posix then some (Sys.blank addr rq.euid) else none

def newLock (rq : Request) (start fin : Int) (addr : Addr) : Lockf :=
  {Sys.blank addr rq.euid with lfStart := start, lfEnd := fin, lfType := rq.lType, lfId := rq.aId}

/-- What entering does: nothing with `EINVAL`, else there is a new call, with a request
unless that was one structure too many. -/
theorem enter_cases (tn : Tunables) (f : F) (rq : Request) (spareAddr lockAddr : Addr) :
    s.enter tn f rq spareAddr lockAddr = s ∨ ∃ start fin s₁, rq.range = some (start, fin) ∧
      s₁ = (if (newSpare rq spareAddr).isSome then s.charge rq.euid else s) ∧
      (s.enter tn f rq spareAddr lockAddr = s₁.setCall
          ⟨rq.lwp, rq.proc, f, rq.aOp, rq.wait, newSpare rq spareAddr, .leaving none (some .enomem)⟩ ∨
        s.enter tn f rq spareAddr lockAddr = (s₁.charge rq.euid).setCall
          ⟨rq.lwp, rq.proc, f, rq.aOp, rq.wait, newSpare rq spareAddr, .entered (newLock rq start fin lockAddr)⟩) := by
  unfold Sys.enter
  cases hr : rq.range with
  | none => exact .inl rfl
  | some range =>
    obtain ⟨start, fin⟩ := range
    refine .inr ⟨start, fin, _, rfl, rfl, ?_⟩
    simp only [lfAlloc_zero, newSpare]
    by_cases hsp : rq.aOp ≠ .getlk ∧ rq.style = .posix
    · simp only [if_pos hsp, isSome_some, if_true]
      rcases lfAlloc_cases (s.charge rq.euid) tn rq.euid _ lockAddr with hal | hal <;> rw [hal]
      · exact .inl rfl
      · exact .inr rfl
    simp only [if_neg hsp, isSome_none, Bool.false_eq_true, if_false]
    rcases lfAlloc_cases s tn rq.euid _ lockAddr with hal | hal <;> rw [hal]
    · exact .inl rfl
    · exact .inr rfl

theorem newLock_ok {rq : Request} {start fin : Int} (hok : rq.Ok) (hr : rq.range = some (start, fin)) (f : F)
    (spareAddr lockAddr : Addr) (stage : Stage) :
    LockOk ⟨rq.lwp, rq.proc, f, rq.aOp, rq.wait, newSpare rq spareAddr, stage⟩ (newLock rq start fin lockAddr) := by
  obtain ⟨hflock, htype, -⟩ := hok
  have hfin : rq.style ≠ .posix → fin = -1 := by
    intro hs
    obtain ⟨hw, h0, hl⟩ := hflock hs
    simp only [Request.range, hw, h0, hl, if_true, bind_some, lt_self_iff_false, if_false] at hr
    exact (Prod.mk.inj (some.inj hr)).2.symm
  refine ⟨?_, rfl, htype, ?_, ?_, ?_⟩
  · have hrange : 0 ≤ start ∧ (fin = -1 ∨ start ≤ fin) := by
      obtain ⟨start₀, -, hr⟩ := bind_eq_some_iff.mp hr
      simp only at hr
      split_ifs at hr <;> obtain ⟨rfl, rfl⟩ := Prod.mk.inj (some.inj hr) <;> omega
    exact hrange
  · by_cases hsp : rq.aOp ≠ .getlk ∧ rq.style = .posix
    · exact .inr (.inl (by simp [newSpare, hsp]))
    by_cases hop : rq.aOp = .getlk
    · exact .inl hop
    · exact .inr (.inr (hfin fun hs => hsp ⟨hop, hs⟩))
  · intro fp hid
    refine hfin fun hs => ?_
    simp [newLock, Request.aId, hs] at hid
  intro p hid
  simp only [newLock, Request.aId] at hid
  split at hid
  · exact (Owner.proc.inj hid).symm
  · cases hid

theorem others_sublist (lwp : Nat) : (s.others lwp).Sublist s.calls := filter_sublist

theorem mem_others {c' : Call F} {lwp : Nat} : c' ∈ s.others lwp ↔ c' ∈ s.calls ∧ c'.lwp ≠ lwp := by
  simp [Sys.others]

theorem find_call {s : Sys F} {lwp : Nat} {c : Call F} (h : s.calls.find? (fun c => c.lwp = lwp) = some c) : c ∈ s.calls ∧ c.lwp = lwp :=
  ⟨mem_of_find?_eq_some h, by simpa using find?_some h⟩

theorem nodup_setCall {s : Sys F} (h : (s.calls.map Call.lwp).Nodup) (c : Call F) : ((s.setCall c).calls.map Call.lwp).Nodup := by
  rw [setCall_calls, map_cons, nodup_cons]
  refine ⟨fun hmem => ?_, h.sublist ((others_sublist s c.lwp).map _)⟩
  obtain ⟨c', hc', heq⟩ := mem_map.mp hmem
  exact ((mem_others s).mp hc').2 heq

theorem Base.setCall {s : Sys F} (h : Base s) {c : Call F} (hc : RequestOk c) : Base (s.setCall c) := by
  refine ⟨h.ranges, h.sorted, nodup_setCall h.lwps c, fun c' hc' => ?_⟩
  rcases mem_cons.mp hc' with rfl | hc'
  · exact hc
  · exact h.requests c' ((others_sublist s _).subset hc')

theorem Base.of_eq {s s' : Sys F} (h : Base s) (hlists : s'.lists = s.lists) (hcalls : s'.calls = s.calls) : Base s' :=
  ⟨by rw [hlists]; exact h.ranges, by rw [hlists]; exact h.sorted, by rw [hcalls]; exact h.lwps,
    by rw [hcalls]; exact h.requests⟩

end Calls

section Lists
variable {F : Type} [DecidableEq F] (s : Sys F) (c : Call F) (f : F) (a : Addr) (r : Edited) (stage : Stage)

@[simp]
theorem setList_lists (list : List Lockf) : (s.setList f list).lists = update s.lists f list := rfl

@[simp]
theorem setList_calls (list : List Lockf) : (s.setList f list).calls = s.calls := rfl

@[simp]
theorem edit_lists : (s.edit c a r stage).lists = update s.lists c.file r.list := by
  simp [Sys.edit]

@[simp]
theorem edit_calls : (s.edit c a r stage).calls =
    {c with spare := r.spare, stage := stage} :: (s.others c.lwp).map (Call.notify r.woken r.moved a) := by
  simp [Sys.edit, Sys.others]

@[simp]
theorem edit_panicked : (s.edit c a r stage).panicked = s.panicked := by
  simp [Sys.edit, Sys.setList]

end Lists

section Moves
variable {F : Type} [DecidableEq F]

/-- What is known of a run: of the entries that are split, of the threads of a process,
and of the requests. -/
structure Known where
  splits : Prop
  threads : Threads → Prop
  request : Request → Prop

/-- The request of `c` splits `lf` in two, if it is not blocked: it unlocks what is in
the middle, or sets it to the other type. -/
def Splits (c : Call F) (lock lf : Lockf) : Prop :=
  SplitBy lock lf ∧ (c.op = .unlck ∨ c.op = .setlk ∧ lf.lfType ≠ lock.lfType)

instance (c : Call F) (lock lf : Lockf) : Decidable (Splits c lock lf) := inferInstanceAs (Decidable (_ ∧ (_ ∨ _ ∧ _)))

/-- An entry that is split has the user of the spare that its new part gets. -/
def KeepsUsers (s : Sys F) (c : Call F) (lock : Lockf) : Prop :=
  (c.op = .setlk → ∀ e ∈ s.lists c.file, ¬Blocks lock e) →
    ∀ lf ∈ s.lists c.file, Splits c lock lf → ∀ sp ∈ c.spare, sp.lfUid = lf.lfUid

instance (s : Sys F) (c : Call F) (lock : Lockf) : Decidable (KeepsUsers s c lock) :=
  inferInstanceAs (Decidable ((_ → ∀ e ∈ _, _) → ∀ lf ∈ _, _))

inductive Move (tn : Tunables) (k : Known) (s : Sys F) : Sys F → Prop where
  | enter {f : F} {rq : Request} {spareAddr lockAddr : Addr} (hen : s.Enabled (.enter f rq spareAddr lockAddr))
    (hrq : k.request rq) :
    Move tn k s (s.enter tn f rq spareAddr lockAddr)
  /-- The request gets another stage, or is freed. -/
  | settle {c : Call F} {lock : Lockf} {stage : Stage} {freed : List Lockf} (hc : c ∈ s.calls) (hl : Holds c lock)
    (hstage : (stage = .awake lock none ∧ c.op = .setlk ∧ freed = []) ∨
      ∃ rest error, stage = .leaving rest error ∧ [lock] = rest.toList ++ freed) :
    Move tn k s ((s.setCall {c with stage := stage}).lfFrees freed)
  /-- `F_UNLCK`. -/
  | unlock {c : Call F} {lock : Lockf} {r : Edited} (hc : c ∈ s.calls) (hl : Holds c lock) (hop : c.op = .unlck)
    (hr : Edits lock c.spare (s.lists c.file) r) (hm : r.moved = [])
    (hgood : k.splits → KeepsUsers s c lock) :
    Move tn k s (s.edit c lock.addr r (.leaving (some lock) none))
  /-- A flock type request gives up what its owner has. -/
  | upgrade {c : Call F} {lock : Lockf} {r : Edited} (hc : c ∈ s.calls) (hl : Holds c lock)
    (hr : Edits {lock with lfType := .unlck} none (s.lists c.file) r) (hm : r.moved = []) (hspare : r.spare = none) :
    Move tn k s (s.edit c lock.addr {r with spare := c.spare} c.stage)
  | grant {c : Call F} {lock : Lockf} {r : Edited} (hc : c ∈ s.calls) (hl : Holds c lock) (hop : c.op = .setlk)
    (hfree : ∀ e ∈ s.lists c.file, ¬Blocks lock e) (hr : Sets lock c.spare (s.lists c.file) r)
    (hgood : k.splits → KeepsUsers s c lock) :
    Move tn k s (s.edit c lock.addr r (.leaving none none))
  /-- Between processes, only if the chain of blocked processes has an end. -/
  | sleep {c : Call F} {lock block : Lockf} {t : Threads} (hc : c ∈ s.calls) (hl : Holds c lock) (hop : c.op = .setlk)
    (hb : block ∈ s.lists c.file) (hblocks : Blocks lock block)
    (ht : k.threads t) (hchain : ∀ p q, lock.lfId = .proc p → block.lfId = .proc q → s.chainWalk t c.proc tn.maxlockdepth q = some false) :
    Move tn k s (s.sleep c lock block)
  | signal {c : Call F} {lock : Lockf} {lfNext : Option Addr} (hc : c ∈ s.calls) (hs : c.stage = .asleep lock lfNext) :
    Move tn k s (s.setCall {c with stage := .awake lock lfNext})
  /-- A request that was woken by a signal takes itself off the queue it is on. -/
  | dequeue {c : Call F} {lock : Lockf} {b : Addr} (hc : c ∈ s.calls) (hs : c.stage = .awake lock (some b)) :
    Move tn k s ((s.setList c.file (requeue b (·.erase lock.addr) (s.lists c.file))).setCall
      {c with stage := .awake lock none})
  | leave {c : Call F} {lock : Option Lockf} {error : Option Errno} (hc : c ∈ s.calls)
    (hs : c.stage = .leaving lock error) : Move tn k s (s.leave c lock)

def Moves (tn : Tunables) (k : Known) : Sys F → Sys F → Prop := Relation.ReflTransGen (Move tn k)

variable {tn : Tunables} {k : Known} {s s' : Sys F}

theorem Base.setList (h : Base s) {f : F} {list : List Lockf} (hok : RangesOk list) (hs : Sorted list) : Base (s.setList f list) := by
  refine ⟨fun g => ?_, fun g => ?_, h.lwps, h.requests⟩
  · rw [setList_lists]
    by_cases hg : g = f
    · rw [hg, update_self]
      exact hok
    · rw [update_of_ne hg]
      exact h.ranges g
  rw [setList_lists]
  by_cases hg : g = f
  · rw [hg, update_self]
    exact hs
  · rw [update_of_ne hg]
    exact h.sorted g

theorem Base.edit (h : Base s) {c : Call F} {r : Edited} {stage : Stage} (hok : RangesOk r.list) (hs : Sorted r.list)
    (hc : RequestOk {c with spare := r.spare, stage := stage}) (a : Addr) : Base (s.edit c a r stage) := by
  have hlist := h.setList (f := c.file) hok hs
  refine ⟨by rw [edit_lists]; exact hlist.ranges, by rw [edit_lists]; exact hlist.sorted, ?_, ?_⟩
  · have hnodup := nodup_setCall h.lwps {c with spare := r.spare, stage := stage}
    rw [edit_calls, map_cons, List.map_map]
    exact hnodup
  rw [edit_calls]
  intro c' hc'
  rcases mem_cons.mp hc' with rfl | hc'
  · exact hc
  · obtain ⟨c₀, hc₀, rfl⟩ := mem_map.mp hc'
    exact (h.requests c₀ ((others_sublist s _).subset hc₀)).notify _ _ _

theorem part_ok {lock : Lockf} {list : List Lockf} {r : Edited} {spare : Option Lockf} (h : Edits lock spare list r)
    (hlock : lock.RangeOk) (hok : RangesOk list) : RangesOk r.list := by
  intro p hp
  obtain ⟨⟨lf, hlf, hpart⟩, -⟩ := h.part hlock hok p hp
  exact hpart.ok

theorem rangesOk_requeue {list : List Lockf} (hok : RangesOk list) (b : Addr) (f : List Addr → List Addr) : RangesOk (requeue b f list) := by
  intro p hp
  obtain ⟨lf, hlf, hpart⟩ := part_requeue hok p hp
  exact hpart.ok

theorem Move.base (h : Move tn k s s') (hb : Base s) : Base s' := by
  cases h with
  | @enter f rq spareAddr lockAddr hen hrq =>
    rcases enter_cases s tn f rq spareAddr lockAddr with heq | ⟨start, fin, s₁, hr, hs₁, heq⟩
    · rw [heq]
      exact hb
    have hb₁ : Base s₁ := by
      rw [hs₁]
      split
      · exact hb.of_eq rfl rfl
      · exact hb
    rcases heq with heq | heq <;> rw [heq]
    · exact hb₁.setCall trivial
    · have hb₂ : Base (s₁.charge rq.euid) := hb₁.of_eq rfl rfl
      exact hb₂.setCall (newLock_ok hen.1 hr f spareAddr lockAddr _)
  | @settle c lock stage freed hc hl hstage =>
    have hok : RequestOk {c with stage := stage} := by
      rcases hstage with ⟨rfl, hop, -⟩ | ⟨rest, error, rfl, -⟩
      · exact ⟨hl.ok.congr rfl rfl rfl, hop⟩
      · trivial
    exact (hb.setCall hok).of_eq (by simp) (by simp)
  | @unlock c lock r hc hl hop hr hm hgood =>
    have hlist := hr.sorted hl.ok.range (hb.ranges _) (hb.sorted _)
    have hreq : RequestOk {c with spare := r.spare, stage := .leaving (some lock) none} := trivial
    exact hb.edit (part_ok hr hl.ok.range (hb.ranges _)) hlist hreq _
  | @upgrade c lock r hc hl hr hm hspare =>
    have hrange : Lockf.RangeOk {lock with lfType := .unlck} := hl.ok.range
    have hlist := hr.sorted hrange (hb.ranges _) (hb.sorted _)
    have hparts : RangesOk r.list := part_ok hr hrange (hb.ranges _)
    exact @Base.edit F _ s hb c {r with spare := c.spare} c.stage hparts hlist (hb.requests c hc) _
  | @grant c lock r hc hl hop hfree hr hgood =>
    have hlist := hr.sorted hl.ok.range (hb.ranges _) (hb.sorted _)
    have hreq : RequestOk {c with spare := r.spare, stage := .leaving none none} := trivial
    refine hb.edit (fun p hp => ?_) hlist hreq _
    rcases hr.part hl.ok.range (hb.ranges _) p hp with ⟨lf, hlf, hpart⟩ | hpart
    · exact hpart.ok
    · exact hpart.ok
  | @sleep c lock block t hc hl hop hb' hblocks ht hchain =>
    refine Base.setCall (hb.setList (rangesOk_requeue (hb.ranges _) _ _) (sorted_requeue (hb.sorted _))) ?_
    exact ⟨hl.ok.congr rfl rfl rfl, hop⟩
  | @signal c lock lfNext hc hs =>
    have hreq := hb.requests c hc
    unfold RequestOk at hreq
    rw [hs] at hreq
    exact hb.setCall ⟨hreq.1.congr rfl rfl rfl, hreq.2⟩
  | @dequeue c lock b hc hs =>
    have hreq := hb.requests c hc
    unfold RequestOk at hreq
    rw [hs] at hreq
    refine Base.setCall (hb.setList (rangesOk_requeue (hb.ranges _) _ _) (sorted_requeue (hb.sorted _))) ?_
    exact ⟨hreq.1.congr rfl rfl rfl, hreq.2⟩
  | @leave c lock error hc hs =>
    refine ⟨by simpa using hb.ranges, by simpa using hb.sorted, ?_, ?_⟩
    · rw [leave_calls]
      exact hb.lwps.sublist ((others_sublist s c.lwp).map _)
    rw [leave_calls]
    intro c' hc'
    exact hb.requests c' ((others_sublist s _).subset hc')

/-! ### Every step comes down to moves -/

/-- Following the chain of blocked processes never ends at a pointer to nothing. -/
def NoFault (s : Sys F) : Prop := ∀ t curproc left p, s.chainWalk t curproc left p ≠ none

def Known.Allows (k : Known) (s : Sys F) : Act F → Prop
  | .enter _ rq _ _ => k.request rq
  | .run lwp t => k.threads t ∧ (k.splits → ∀ c ∈ s.calls, c.lwp = lwp → ∀ lock, c.stage.lock? = some lock → KeepsUsers s c lock)
  | .resume lwp t error => k.threads t ∧
      (k.splits → error = none → ∀ c ∈ s.calls, c.lwp = lwp → ∀ lock, c.stage.lock? = some lock → KeepsUsers s c lock)
  | .signal _ | .leave _ => True

theorem refuse_moves {c : Call F} {lock : Lockf} (hc : c ∈ s.calls) (hl : Holds c lock) (error : Errno) : Moves tn k s (s.refuse c lock error) :=
  .single (@Move.settle F _ tn k s c lock _ [lock] hc hl (.inr ⟨none, some error, rfl, rfl⟩))

theorem done_moves {c : Call F} {lock : Lockf} (hc : c ∈ s.calls) (hl : Holds c lock) :
    Moves tn k s (s.setCall {c with stage := .leaving (some lock) none}) :=
  .single (@Move.settle F _ tn k s c lock _ [] hc hl (.inr ⟨some lock, none, rfl, rfl⟩))

theorem upgrade_moves (hb : Base s) {c : Call F} {lock block : Lockf} (hc : c ∈ s.calls) (hl : Holds c lock)
    (hblock : block ∈ s.lists c.file) (hblocks : Blocks lock block) :
    ∃ s₁, s.upgrade c lock = some s₁ ∧ Moves tn k s s₁ ∧ c ∈ s₁.calls ∧ block ∈ s₁.lists c.file ∧
      (s₁ = s ∨ ∃ fp, lock.lfId = .file fp) := by
  unfold Sys.upgrade
  split
  · next fp hid htype =>
    have hsp : (none : Option Lockf).isSome ∨ Lockf.lfEnd {lock with lfType := .unlck} = -1 := .inr (hl.ok.flock _ hid)
    obtain ⟨r, hr, hedits, hm⟩ := lfClearlock_edits hsp (hb.ranges c.file) (hb.sorted c.file)
    rw [hr]
    refine ⟨_, rfl, .single (.upgrade hc hl hedits hm (hedits.spare_none rfl)), ?_, ?_, .inr ⟨fp, hid⟩⟩
    · rw [edit_calls]
      exact mem_cons_self
    · rw [edit_lists, update_self]
      exact hedits.keeps block hblock hblocks.1
  · exact ⟨s, rfl, .refl, hc, hblock, .inl rfl⟩

theorem lfSetlock_moves (hb : Base s) (hsafe : NoFault s) {c : Call F} {lock : Lockf} {t : Threads} (hc : c ∈ s.calls)
    (hl : Holds c lock) (hop : c.op = .setlk) (ht : k.threads t) (hgood : k.splits → KeepsUsers s c lock) :
    Moves tn k s (s.lfSetlock tn t c lock) := by
  have hsp : c.spare.isSome ∨ lock.lfEnd = -1 := hl.ok.spare.resolve_left (by rw [hop]; decide)
  unfold Sys.lfSetlock
  rw [lfGetblock_eq (hb.ranges c.file)]
  cases hblock : (s.lists c.file).find? (Blocks lock) with
  | none =>
    have hfree : ∀ e ∈ s.lists c.file, ¬Blocks lock e := by simpa using hblock
    obtain ⟨r, hr, hsets⟩ := lfSetlockGrant_sets hl.ok.range hsp (hb.ranges c.file) (hb.sorted c.file)
    simp only [hr]
    exact .single (.grant hc hl hop hfree hsets hgood)
  | some block =>
    have hmem := mem_of_find?_eq_some hblock
    have hblocks : Blocks lock block := by simpa using find?_some hblock
    simp only
    split
    · exact refuse_moves hc hl _
    cases hd : s.deadlocks tn t c lock block with
    | none =>
      unfold Sys.deadlocks at hd
      split at hd
      · exact absurd hd (hsafe _ _ _ _)
      · cases hd
    | some refused => cases refused with
      | true => exact refuse_moves hc hl _
      | false =>
        obtain ⟨s₁, hs₁, hmoves, hc₁, hblock₁, hsame⟩ := @upgrade_moves F _ tn k s hb c lock block hc hl hmem hblocks
        simp only [hs₁]
        refine hmoves.tail (.sleep hc₁ hl hop hblock₁ hblocks ht ?_)
        intro p q hp hq
        rcases hsame with rfl | ⟨fp, hfile⟩
        · unfold Sys.deadlocks at hd
          rw [hp, hq] at hd
          exact hd
        · rw [hp] at hfile
          cases hfile

theorem keepsUsers_requeue {c : Call F} {lock : Lockf} {b : Addr} {f : List Addr → List Addr} {stage : Stage} (h : KeepsUsers s c lock) :
    KeepsUsers ((s.setList c.file (requeue b f (s.lists c.file))).setCall {c with stage := stage})
      {c with stage := stage} lock := by
  intro hfree lf hlf hsplits sp hsp
  rw [setCall_lists, setList_lists, update_self] at hfree hlf
  obtain ⟨e, he, rfl⟩ := mem_map.mp hlf
  refine (h (fun hop e' he' hblocks => ?_) e he ?_ sp hsp).trans ?_
  · refine hfree hop _ (mem_map_of_mem he') ?_
    split <;> exact hblocks
  · split at hsplits <;> exact hsplits
  · split <;> rfl

/-- What a request does when it comes back from `cv_wait_sig`. -/
theorem resume_moves (hb : Base s) (hsafe : ∀ s₁, Moves tn k s s₁ → NoFault s₁) {c : Call F} {lock : Lockf}
    {lfNext : Option Addr} {t : Threads} {error : Option Errno} (hc : c ∈ s.calls) (hs : c.stage = .awake lock lfNext)
    (ht : k.threads t) (hgood : k.splits → error = none → KeepsUsers s c lock) :
    Moves tn k s (s.resume tn t c lock lfNext error) := by
  have hreq := hb.requests c hc
  unfold RequestOk at hreq
  rw [hs] at hreq
  have hl : Holds {c with stage := .awake lock none} lock := ⟨.inr rfl, hreq.1.congr rfl rfl rfl⟩
  -- First it takes itself off the queue, if it is on one.
  obtain ⟨s₁, hs₁, hmove, hgood₁⟩ : ∃ s₁, s₁ = (lfNext.elim s fun b => s.setList c.file
        (requeue b (·.erase lock.addr) (s.lists c.file))).setCall {c with stage := .awake lock none} ∧ Move tn k s s₁ ∧
      (k.splits → error = none → KeepsUsers s₁ {c with stage := .awake lock none} lock) := by
    cases lfNext with
    | some b => exact ⟨_, rfl, .dequeue hc hs, fun hk he => keepsUsers_requeue (hgood hk he)⟩
    | none =>
      exact ⟨_, rfl, @Move.settle F _ tn k s c lock _ [] hc ⟨.inr hs, hreq.1⟩ (.inl ⟨rfl, hreq.2, rfl⟩), hgood⟩
  have hc₁ : {c with stage := .awake lock none} ∈ s₁.calls := by
    rw [hs₁]
    exact mem_cons_self
  refine .head hmove ?_
  cases error with
  | some error =>
    have hresume : s.resume tn t c lock lfNext (some error) = s₁.refuse {c with stage := .awake lock none} lock error := by
      rw [hs₁]
      cases lfNext <;> rfl
    rw [hresume]
    exact refuse_moves hc₁ hl error
  | none =>
    have hresume : s.resume tn t c lock lfNext none = s₁.lfSetlock tn t {c with stage := .awake lock none} lock := by
      rw [hs₁]
      cases lfNext <;> rfl
    rw [hresume]
    exact lfSetlock_moves (hmove.base hb) (hsafe _ (.single hmove)) hc₁ hl hreq.2 ht fun hk => hgood₁ hk rfl

theorem run_moves (hb : Base s) (hsafe : NoFault s) {c : Call F} {lock : Lockf} {t : Threads} (hc : c ∈ s.calls)
    (hs : c.stage = .entered lock) (ht : k.threads t) (hgood : k.splits → KeepsUsers s c lock) :
    Moves tn k s (s.run tn t c lock) := by
  have hreq := hb.requests c hc
  unfold RequestOk at hreq
  rw [hs] at hreq
  have hl : Holds c lock := ⟨.inl hs, hreq⟩
  unfold Sys.run
  split
  · exact done_moves hc hl
  split
  · next hop => exact lfSetlock_moves hb hsafe hc hl hop ht hgood
  · next hop =>
    have hsp : c.spare.isSome ∨ lock.lfEnd = -1 := hl.ok.spare.resolve_left (by rw [hop]; decide)
    obtain ⟨r, hr, hedits, hm⟩ := lfClearlock_edits hsp (hb.ranges c.file) (hb.sorted c.file)
    simp only [hr]
    exact .single (.unlock hc hl hop hedits hm hgood)
  · simp only [lfGetblock_eq (hb.ranges c.file)]
    exact done_moves hc hl

theorem next_moves {a : Act F} (hb : Base s) (hsafe : ∀ s₁, Moves tn k s s₁ → NoFault s₁) (hen : s.Enabled a)
    (hk : k.Allows s a) (h : s.next tn a = some s') : Moves tn k s s' := by
  unfold Sys.next at h
  split at h
  · cases h
  cases a with
  | enter f rq spareAddr lockAddr =>
    cases h
    exact .single (.enter hen hk)
  | run lwp t =>
    obtain ⟨c, hfind, h⟩ := bind_eq_some_iff.mp h
    obtain ⟨hc, hlwp⟩ := find_call hfind
    split at h
    · next lock hs =>
      cases h
      exact run_moves hb (hsafe s .refl) hc hs hk.1 fun hsplits => hk.2 hsplits c hc hlwp lock (by rw [hs]; rfl)
    · cases h
  | signal lwp =>
    obtain ⟨c, hfind, h⟩ := bind_eq_some_iff.mp h
    obtain ⟨hc, hlwp⟩ := find_call hfind
    split at h
    · next lock lfNext hs =>
      cases h
      exact .single (.signal hc hs)
    · cases h
  | resume lwp t error =>
    obtain ⟨c, hfind, h⟩ := bind_eq_some_iff.mp h
    obtain ⟨hc, hlwp⟩ := find_call hfind
    split at h
    · next lock lfNext hs =>
      cases h
      exact resume_moves hb hsafe hc hs hk.1 fun hsplits he => hk.2 hsplits he c hc hlwp lock (by rw [hs]; rfl)
    · cases h
  | leave lwp =>
    obtain ⟨c, hfind, h⟩ := bind_eq_some_iff.mp h
    obtain ⟨hc, hlwp⟩ := find_call hfind
    split at h
    · next lock error hs =>
      cases h
      exact .single (.leave hc hs)
    · cases h

end Moves

end NetBSD.Kern.Advlock
