import NetBSD.Kern.Advlock.Safety
import NetBSD.Lib.Linked

/-! No deadlock between processes that hold record locks.

A process that sleeps waits for the owner of the lock its request is queued on. These
edges go when a request is woken, and stay when its queue is moved to a lock of the same
owner; the only new one is made by a request that goes to sleep, after the chain of
blocked processes was followed from the lock it is blocked by. -/
namespace NetBSD.Kern.Advlock
open List Function Option
open Lib Relation

/-! ### The graph -/

section Graph
variable {F : Type} {s s' : Sys F}

/-- A process that sleeps, and the owner of the lock its request is queued on. -/
def WaitsFor (s : Sys F) (p q : Nat) : Prop :=
  ∃ c ∈ s.calls, c.proc = p ∧ ∃ lock b, c.stage = .asleep lock (some b) ∧ ∃ e ∈ s.lists c.file, e.addr = b ∧ e.lfId = .proc q

/-- The edge of `c'` is one that was there before. -/
def EdgeKept (s s' : Sys F) (c' : Call F) (lock : Lockf) (b' : Addr) : Prop :=
  ∃ c ∈ s.calls, c.proc = c'.proc ∧ ∃ b, c.stage = .asleep lock (some b) ∧
    ∀ e' ∈ s'.lists c'.file, e'.addr = b' → ∃ e ∈ s.lists c.file, e.addr = b ∧ e.lfId = e'.lfId

theorem waitsFor_of_kept (h : ∀ c' ∈ s'.calls, ∀ lock b', c'.stage = .asleep lock (some b') → EdgeKept s s' c' lock b')
    {p q : Nat} (hw : WaitsFor s' p q) : WaitsFor s p q := by
  obtain ⟨c', hc', hproc, lock, b', hs, e', he', haddr, hid⟩ := hw
  obtain ⟨c, hc, hproc', b, hs', hentry⟩ := h c' hc' lock b' hs
  obtain ⟨e, he, haddr', hid'⟩ := hentry e' he' haddr
  exact ⟨c, hc, hproc'.trans hproc, lock, b, hs', e, he, haddr', hid'.trans hid⟩

theorem edgeKept_same {c : Call F} {lock : Lockf} {b : Addr} (hc : c ∈ s.calls) (hs : c.stage = .asleep lock (some b))
    (hlist : ∀ e' ∈ s'.lists c.file, ∃ e ∈ s.lists c.file, e.addr = e'.addr ∧ e.lfId = e'.lfId) :
    EdgeKept s s' c lock b := by
  refine ⟨c, hc, rfl, b, hs, fun e' he' haddr => ?_⟩
  obtain ⟨e, he, haddr', hid⟩ := hlist e' he'
  exact ⟨e, he, haddr'.trans haddr, hid⟩

theorem notify_stage {c : Call F} {woken moved : List Addr} {a : Addr} {lock : Lockf} {next : Option Addr}
    (h : (c.notify woken moved a).stage = .asleep lock next) :
    ∃ next₀, c.stage = .asleep lock next₀ ∧ lock.addr ∉ woken ∧ next = if lock.addr ∈ moved then some a else next₀ := by
  unfold Call.notify at h
  cases hs : c.stage with
  | asleep lk next₀ =>
    simp only [hs, Stage.notify] at h
    split at h
    · cases h
    · next hwoken =>
      obtain ⟨rfl, rfl⟩ := Stage.asleep.inj h
      exact ⟨next₀, rfl, hwoken, rfl⟩
  | _ =>
    rw [hs] at h
    cases h

theorem edges_same (hcalls : ∀ c' ∈ s'.calls, c'.stage.isAsleep → c' ∈ s.calls)
    (hlists : ∀ f, ∀ e' ∈ s'.lists f, ∃ e ∈ s.lists f, e.addr = e'.addr ∧ e.lfId = e'.lfId) :
    ∀ p q, WaitsFor s' p q → WaitsFor s p q := by
  intro p q hw
  refine waitsFor_of_kept (fun c' hc' lk b' hstage => ?_) hw
  exact edgeKept_same (hcalls c' hc' (by rw [hstage]; rfl)) hstage (hlists c'.file)

theorem setCall_asleep {d : Call F} (hawake : d.stage.isAsleep = false) : ∀ c' ∈ (s.setCall d).calls, c'.stage.isAsleep → c' ∈ s.calls := by
  intro c' hc' hasleep
  rcases mem_cons.mp hc' with rfl | hc'
  · rw [hawake] at hasleep
    cases hasleep
  · exact ((mem_others s).mp hc').1

end Graph

section Moves
variable {F : Type} [DecidableEq F] {tn : Tunables} {k : Known} {s s' : Sys F} {c : Call F} {lock : Lockf}

/-- An edit of a list makes no edge: who is moved, is moved to a lock of the same owner. -/
theorem Keeps.edge_kept {a : Addr} {r : Edited} {stage : Stage} (h : Keeps s c a r) (hs : Sound s)
    (hs' : Sound (s.edit c a r stage)) (hawake : stage.isAsleep = false) {c' : Call F} (hc' : c' ∈ (s.edit c a r stage).calls)
    {lk : Lockf} {b' : Addr} (hstage : c'.stage = .asleep lk (some b')) : EdgeKept s (s.edit c a r stage) c' lk b' := by
  have hwaits' : (s.edit c a r stage).Waits c'.file lk b' := ⟨c', hc', rfl, by rw [hstage]; rfl, by rw [hstage]; rfl⟩
  rw [edit_calls] at hc'
  rcases mem_cons.mp hc' with rfl | hc'
  · simp only at hstage
    rw [hstage] at hawake
    cases hawake
  obtain ⟨d, hd, rfl⟩ := mem_map.mp hc'
  have hmem := ((mem_others s).mp hd).1
  obtain ⟨next₀, hstage₀, hwoken, hnext⟩ := notify_stage hstage
  have hsome := hs.waits.asleep d hmem (by rw [hstage₀]; rfl)
  rw [hstage₀] at hsome
  obtain ⟨b₀, rfl⟩ := Option.isSome_iff_exists.mp hsome
  have hwaits : s.Waits d.file lk b₀ := ⟨d, hmem, rfl, by rw [hstage₀]; rfl, by rw [hstage₀]; rfl⟩
  refine ⟨d, hmem, rfl, b₀, hstage₀, fun e' he' haddr => ?_⟩
  by_cases hf : d.file = c.file
  · -- The request is on the queue of `e'`; before, it was on that of `e₀`.
    obtain ⟨e, he, haddr', hblk, -⟩ := hs'.waits.blocked _ _ _ hwaits'
    have hsame : e' = e := hs'.addrs.entry_unique he' he (haddr.trans haddr'.symm)
    subst hsame
    have hlist : e' ∈ r.list := by
      have hfile : (Call.notify r.woken r.moved a d).file = c.file := hf
      rw [hfile, edit_lists, update_self] at he'
      exact he'
    obtain ⟨-, e₀, he₀, hblk₀, hstrong, -⟩ := h.entry hs.waits e' hlist _ hblk
    obtain ⟨lk₀, hlk₀, hwaits₀⟩ := hs.waits.queued c.file e₀ he₀ _ hblk₀
    obtain ⟨-, -, hb₀⟩ := waits_unique hs.base hs.addrs hwaits hwaits₀ hlk₀.symm
    rw [hf]
    exact ⟨e₀, he₀, hb₀.symm, hstrong.id.symm⟩
  · obtain ⟨-, hmoved⟩ := h.elsewhere hs.waits hs.base hs.addrs hf hwaits
    rw [if_neg hmoved] at hnext
    cases hnext
    have hfile : (Call.notify r.woken r.moved a d).file = d.file := rfl
    rw [hfile, edit_lists, update_of_ne hf] at he'
    exact ⟨e', he', haddr, rfl⟩

theorem requeue_owners {f g : F} {b : Addr} {h : List Addr → List Addr} :
    ∀ e' ∈ (s.setList f (requeue b h (s.lists f))).lists g, ∃ e ∈ s.lists g, e.addr = e'.addr ∧ e.lfId = e'.lfId := by
  intro e' he'
  rw [setList_lists] at he'
  by_cases hg : g = f
  · rw [hg, update_self] at he'
    obtain ⟨e, he, rfl⟩ := mem_requeue.mp he'
    rw [hg]
    exact ⟨e, he, rfl, rfl⟩
  · rw [update_of_ne hg] at he'
    exact ⟨e', he', rfl, rfl⟩

theorem sleep_waitsFor (hs : Sound s) {block : Lockf} (hb : block ∈ s.lists c.file) {p q : Nat}
    (hw : WaitsFor (s.sleep c lock block) p q) : WaitsFor s p q ∨ (p = c.proc ∧ block.lfId = .proc q) := by
  obtain ⟨c', hc', hproc, lk, b', hstage, e', he', haddr, hid⟩ := hw
  obtain ⟨e, he, haddr', hid'⟩ := requeue_owners e' he'
  rcases mem_cons.mp hc' with rfl | hc'
  · obtain ⟨rfl, hnext⟩ := Stage.asleep.inj hstage
    have hblock : e = block := hs.addrs.entry_unique he hb (by rw [haddr', haddr, ← some.inj hnext])
    exact .inr ⟨hproc.symm, by rw [← hblock, hid', hid]⟩
  · refine .inl ⟨c', ((mem_others _).mp hc').1, hproc, lk, b', hstage, e, he, haddr'.trans haddr, hid'.trans hid⟩

/-- A move makes no edge, unless a request goes to sleep. -/
theorem Move.edges (h : Move tn k s s') (hs : Sound s) : (∀ p q, WaitsFor s' p q → WaitsFor s p q) ∨
    ∃ c ∈ s.calls, ∃ lock block t, Holds c lock ∧ Blocks lock block ∧ k.threads t ∧
      (∀ p q, lock.lfId = .proc p → block.lfId = .proc q → s.chainWalk t c.proc tn.maxlockdepth q = some false) ∧
      ∀ p q, WaitsFor s' p q → WaitsFor s p q ∨ (p = c.proc ∧ block.lfId = .proc q) := by
  have hs' := h.sound hs
  have hsame : ∀ f, ∀ e' ∈ s.lists f, ∃ e ∈ s.lists f, e.addr = e'.addr ∧ e.lfId = e'.lfId :=
    fun f e he => ⟨e, he, rfl, rfl⟩
  cases h with
  | @enter f rq spareAddr lockAddr hen hrq =>
    left
    rcases enter_cases s tn f rq spareAddr lockAddr with heq | ⟨start, fin, s₁, hr, hs₁, heq⟩
    · rw [heq]
      exact fun _ _ hw => hw
    have hlists : s₁.lists = s.lists := by
      rw [hs₁]
      split <;> rfl
    have hcalls : s₁.calls = s.calls := by
      rw [hs₁]
      split <;> rfl
    rcases heq with heq | heq <;> rw [heq]
    · refine edges_same (fun c' hc' hasleep => ?_) (by rw [setCall_lists, hlists]; exact hsame)
      rw [← hcalls]
      exact setCall_asleep rfl c' hc' hasleep
    · refine edges_same (fun c' hc' hasleep => ?_) (by exact hlists ▸ hsame)
      rw [← hcalls]
      exact setCall_asleep rfl c' hc' hasleep
  | @settle c lock stage freed hc hl hstage =>
    left
    have hawake : stage.isAsleep = false := by
      rcases hstage with ⟨rfl, -⟩ | ⟨rest, error, rfl, -⟩ <;> rfl
    refine edges_same ?_ (by rw [lfFrees_lists]; exact hsame)
    rw [lfFrees_calls]
    exact setCall_asleep hawake
  | @unlock c lock r hc hl hop hr hm hgood =>
    left
    intro p q
    have hkeeps := edits_keeps hr hm hl.ok.range hs.waits hs.base lock.addr
    exact waitsFor_of_kept fun c' hc' lk b' hstage => hkeeps.edge_kept hs hs' rfl hc' hstage
  | @upgrade c lock r hc hl hr hm hspare =>
    left
    intro p q
    have hkeeps : Keeps s c lock.addr r := edits_keeps hr hm hl.ok.range hs.waits hs.base _
    have hkeeps' : Keeps s c lock.addr {r with spare := c.spare} :=
      ⟨hkeeps.sum, hkeeps.cameFrom, hkeeps.moved, hkeeps.ranges, hkeeps.free⟩
    exact waitsFor_of_kept fun c' hc' lk b' hstage => hkeeps'.edge_kept hs hs' hl.isAsleep_eq hc' hstage
  | @grant c lock r hc hl hop hfree hr hgood =>
    left
    intro p q
    have hkeeps := sets_keeps hr hl.ok.range hl.ok.fresh (hl.ok.type hop) hfree hs.waits hs.base
    exact waitsFor_of_kept fun c' hc' lk b' hstage => hkeeps.edge_kept hs hs' rfl hc' hstage
  | @sleep c lock block t hc hl hop hb hblocks ht hchain =>
    right
    exact ⟨c, hc, lock, block, t, hl, hblocks, ht, hchain, fun p q hw => sleep_waitsFor hs hb hw⟩
  | @signal c lock lfNext hc hstage =>
    left
    exact edges_same (setCall_asleep rfl) hsame
  | @dequeue c lock b hc hstage =>
    left
    exact edges_same (setCall_asleep (s := s.setList _ _) rfl) fun f => requeue_owners
  | @leave c lock error hc hstage =>
    left
    refine edges_same (fun c' hc' _ => ?_) (by rw [leave_lists]; exact hsame)
    rw [leave_calls] at hc'
    exact ((mem_others s).mp hc').1

end Moves

/-! ### Single-LWP processes -/

section Posix
variable {F : Type} {s s' : Sys F} {lwpOf : Nat ↪ Nat} {t : Threads}

/-- The call of a process on its only thread, for a record lock. -/
structure Call.Posix (lwpOf : Nat ↪ Nat) (c : Call F) : Prop where
  lwp : c.lwp = lwpOf c.proc
  owner : ∀ lock ∈ c.stage.lock?, lock.lfId = .proc c.proc

/-- Every process has one thread. -/
def Threads.Single (t : Threads) (lwpOf : Nat ↪ Nat) : Prop := ∀ p, t.first p = lwpOf p ∧ t.nlwps p = 1

theorem hop_of_waitsFor (hs : Sound s) (hp : ∀ c ∈ s.calls, c.Posix lwpOf) (ht : t.Single lwpOf) {p q : Nat}
    (h : WaitsFor s p q) : s.hop t p = .to q := by
  obtain ⟨c, hc, rfl, lock, b, hstage, e, he, haddr, hid⟩ := h
  have hcall : s.calls.find? (fun c' => c'.lwp = t.first c.proc) = some c := by
    cases hfind : s.calls.find? fun c' => c'.lwp = t.first c.proc with
    | none =>
      have hlwp : c.lwp = t.first c.proc := by rw [(hp c hc).lwp, (ht c.proc).1]
      exact absurd (decide_eq_true hlwp) (find?_eq_none.mp hfind c hc)
    | some c₁ =>
      obtain ⟨hc₁, hlwp⟩ := find_call hfind
      rw [call_unique hs.base hc₁ hc (by rw [hlwp, (hp c hc).lwp, (ht c.proc).1])]
  have hentry : (s.lists c.file).find? (fun lf => lf.addr = b) = some e := by
    cases hfind : (s.lists c.file).find? fun lf => lf.addr = b with
    | none => exact absurd (decide_eq_true haddr) (find?_eq_none.mp hfind e he)
    | some e₁ =>
      have haddr₁ : e₁.addr = b := by simpa using find?_some hfind
      rw [hs.addrs.entry_unique (mem_of_find?_eq_some hfind) he (haddr₁.trans haddr.symm)]
  unfold Sys.hop
  rw [if_neg (by rw [(ht c.proc).2]; decide), hcall]
  simp [hstage, Option.bind_some, hentry, hid]

theorem no_path_of_chainWalk {curproc : Nat} (hhop : ∀ p q, WaitsFor s p q → s.hop t p = .to q) (left : Nat) :
    ∀ q, s.chainWalk t curproc left q = some false → q ≠ curproc → ¬ReflTransGen (WaitsFor s) q curproc := by
  induction left with
  | zero =>
    intro q h
    cases h
  | succ left ih =>
    intro q h hne hpath
    rcases hpath.cases_head with rfl | ⟨q', hedge, hpath⟩
    · exact hne rfl
    rw [Sys.chainWalk, hhop q q' hedge] at h
    simp only at h
    split at h
    · cases h
    · next hne' => exact ih q' h hne' hpath

theorem no_path_of_sleep {c : Call F} {lock block : Lockf} (hs : Sound s) (hp : ∀ c ∈ s.calls, c.Posix lwpOf) (hc : c ∈ s.calls)
    (hl : Holds c lock) (hblocks : Blocks lock block) (ht : t.Single lwpOf) {q left : Nat} (hq : block.lfId = .proc q)
    (hchain : s.chainWalk t c.proc left q = some false) : ¬ReflTransGen (WaitsFor s) q c.proc := by
  refine no_path_of_chainWalk (fun p q hw => hop_of_waitsFor hs hp ht hw) left q hchain fun heq => hblocks.1 ?_
  rw [hq, heq, (hp c hc).owner lock hl.lock_eq]

theorem Call.Posix.stage {c : Call F} (h : c.Posix lwpOf) {stage : Stage} (hsub : ∀ lock ∈ stage.lock?, lock ∈ c.stage.lock?)
    (spare : Option Lockf) : Call.Posix lwpOf {c with spare := spare, stage := stage} :=
  ⟨h.lwp, fun lock hlock => h.owner lock (hsub lock hlock)⟩

theorem Call.Posix.notify {c : Call F} (h : c.Posix lwpOf) (woken moved : List Addr) (a : Addr) : (c.notify woken moved a).Posix lwpOf :=
  ⟨h.lwp, fun lock hlock => h.owner lock (by rwa [← lock?_notify woken moved a])⟩

/-- Processes of one thread each ask for record locks only. -/
def posixOnly (lwpOf : Nat ↪ Nat) : Known :=
  ⟨False, fun t => t.Single lwpOf, fun rq => rq.style = .posix ∧ rq.lwp = lwpOf rq.proc⟩

theorem posix_setCall (hp : ∀ c ∈ s.calls, c.Posix lwpOf) {d : Call F} (hd : d.Posix lwpOf) : ∀ c ∈ (s.setCall d).calls, c.Posix lwpOf := by
  intro c hc
  rcases mem_cons.mp hc with rfl | hc
  · exact hd
  · exact hp c ((mem_others s).mp hc).1

theorem find_self (hb : Base s) {c : Call F} (hc : c ∈ s.calls) : s.calls.find? (fun d => d.lwp = c.lwp) = some c := by
  cases hfind : s.calls.find? fun d => d.lwp = c.lwp with
  | none => exact absurd (decide_eq_true rfl) (find?_eq_none.mp hfind c hc)
  | some d =>
    obtain ⟨hd, hlwp⟩ := find_call hfind
    rw [call_unique hb hd hc hlwp]

theorem mem_others_of_asleep {c d : Call F} (hb : Base s) (hc : c ∈ s.calls) (hawake : c.stage.isAsleep = false)
    (hd : d ∈ s.calls) (hasleep : d.stage.isAsleep) : d ∈ s.others c.lwp := by
  refine (mem_others s).mpr ⟨hd, fun hlwp => ?_⟩
  rw [call_unique hb hd hc hlwp, hawake] at hasleep
  cases hasleep

/-- The steps of processes with one thread each that ask for record locks only. -/
def SingleLwp (lwpOf : Nat ↪ Nat) (_ : Sys F) : Act F → Prop
  | .enter _ rq _ _ => rq.style = .posix ∧ rq.lwp = lwpOf rq.proc
  | .run _ t | .resume _ t _ => t.Single lwpOf
  | .signal _ | .leave _ => True

theorem SingleLwp.allows {a : Act F} (h : SingleLwp lwpOf s a) : (posixOnly lwpOf).Allows s a := by
  cases a with
  | enter => exact h
  | run => exact ⟨h, False.elim⟩
  | signal => trivial
  | resume => exact ⟨h, False.elim⟩
  | leave => trivial

variable [DecidableEq F] {tn : Tunables}

theorem posix_edit {c : Call F} {a : Addr} {r : Edited} {stage : Stage} (hp : ∀ c ∈ s.calls, c.Posix lwpOf)
    (hd : Call.Posix lwpOf {c with spare := r.spare, stage := stage}) : ∀ c' ∈ (s.edit c a r stage).calls, c'.Posix lwpOf := by
  intro c' hc'
  rw [edit_calls] at hc'
  rcases mem_cons.mp hc' with rfl | hc'
  · exact hd
  · obtain ⟨d, hmem, rfl⟩ := mem_map.mp hc'
    exact (hp d ((mem_others s).mp hmem).1).notify _ _ _

theorem Move.posix (h : Move tn (posixOnly lwpOf) s s') (hp : ∀ c ∈ s.calls, c.Posix lwpOf) : ∀ c ∈ s'.calls, c.Posix lwpOf := by
  cases h with
  | @enter f rq spareAddr lockAddr hen hrq =>
    rcases enter_cases s tn f rq spareAddr lockAddr with heq | ⟨start, fin, s₁, hr, hs₁, heq⟩
    · rw [heq]
      exact hp
    have hcalls : s₁.calls = s.calls := by
      rw [hs₁]
      split <;> rfl
    have hp₁ : ∀ c ∈ s₁.calls, c.Posix lwpOf := hcalls ▸ hp
    rcases heq with heq | heq <;> rw [heq]
    · exact posix_setCall hp₁ ⟨hrq.2, fun lock hlock => absurd hlock (by simp [Stage.lock?])⟩
    have hcharged : ∀ c ∈ (s₁.charge rq.euid).calls, c.Posix lwpOf := hp₁
    refine posix_setCall hcharged ⟨hrq.2, fun lock hlock => ?_⟩
    cases hlock
    simp [newLock, Request.aId, hrq.1]
  | @settle c lock stage freed hc hl hstage =>
    rw [lfFrees_calls]
    refine posix_setCall hp ((hp c hc).stage (fun lk hlk => ?_) c.spare)
    rw [hl.lock_eq]
    rcases hstage with ⟨rfl, -⟩ | ⟨rest, error, rfl, hrest⟩
    · exact hlk
    have hmem : lk ∈ rest.toList ++ freed := mem_append_left _ (Option.mem_toList.mpr hlk)
    rw [← hrest] at hmem
    rw [mem_singleton.mp hmem]
    rfl
  | @unlock c lock r hc hl hop hr hm hgood =>
    refine posix_edit hp ((hp c hc).stage (fun lk hlk => ?_) r.spare)
    rw [hl.lock_eq]
    exact hlk
  | @upgrade c lock r hc hl hr hm hspare =>
    exact @posix_edit F s lwpOf _ c _ {r with spare := c.spare} c.stage hp (hp c hc)
  | @grant c lock r hc hl hop hfree hr hgood =>
    exact posix_edit hp ((hp c hc).stage (fun lk hlk => absurd hlk (by simp [Stage.lock?])) r.spare)
  | @sleep c lock block t hc hl hop hb hblocks ht hchain =>
    have hp' : ∀ c' ∈ (s.setList c.file (requeue block.addr (· ++ [lock.addr]) (s.lists c.file))).calls, c'.Posix lwpOf := hp
    refine posix_setCall hp' ((hp c hc).stage (fun lk hlk => ?_) c.spare)
    rw [hl.lock_eq]
    exact hlk
  | @signal c lock lfNext hc hstage =>
    refine posix_setCall hp ((hp c hc).stage (fun lk hlk => ?_) c.spare)
    rw [hstage]
    exact hlk
  | @dequeue c lock b hc hstage =>
    have hp' : ∀ c' ∈ (s.setList c.file (requeue b (·.erase lock.addr) (s.lists c.file))).calls, c'.Posix lwpOf := hp
    refine posix_setCall hp' ((hp c hc).stage (fun lk hlk => ?_) c.spare)
    rw [hstage]
    exact hlk
  | @leave c lock error hc hstage =>
    intro c' hc'
    rw [leave_calls] at hc'
    exact hp c' ((mem_others s).mp hc').1

theorem Move.acyclic (h : Move tn (posixOnly lwpOf) s s') (hs : Sound s) (hp : ∀ c ∈ s.calls, c.Posix lwpOf)
    (hacyc : Acyclic (WaitsFor s)) : Acyclic (WaitsFor s') := by
  rcases h.edges hs with hsub | ⟨c, hc, lock, block, t, hl, hblocks, ht, hchain, hsub⟩
  · exact hacyc.mono hsub
  cases hid : block.lfId with
  | proc q =>
    have howner := (hp c hc).owner lock hl.lock_eq
    have hno := no_path_of_sleep hs hp hc hl hblocks ht hid (hchain _ q howner hid)
    refine hacyc.insert (fun p q' hw => (hsub p q' hw).imp_right fun hnew => ⟨hnew.1, ?_⟩) hno
    rw [hid] at hnew
    exact (Owner.proc.inj hnew.2).symm
  | file fp =>
    refine hacyc.mono fun p q hw => (hsub p q hw).resolve_right fun hnew => ?_
    rw [hid] at hnew
    cases hnew.2

/-! ### Requests that would close a cycle -/

/-- The request of `c` is blocked by a lock of `q`, and `q` waits for it, directly or not. -/
structure ClosesCycle (s : Sys F) (c : Call F) (lock : Lockf) (q : Nat) : Prop where
  wait : c.wait = true
  block : ∃ block, lfGetblock lock (s.lists c.file) = some (some block) ∧ block.lfId = .proc q
  path : ReflTransGen (WaitsFor s) q c.proc

theorem lfSetlock_refuses {c : Call F} {lock : Lockf} {q : Nat} (hs : Sound s) (hp : ∀ c ∈ s.calls, c.Posix lwpOf)
    (hc : c ∈ s.calls) (hl : Holds c lock) (ht : t.Single lwpOf) (h : ClosesCycle s c lock q) :
    s.lfSetlock tn t c lock = s.refuse c lock .edeadlk := by
  obtain ⟨block, hblock, hq⟩ := h.block
  have hblocks : Blocks lock block := by
    rw [lfGetblock_eq (hs.base.ranges c.file)] at hblock
    simpa using find?_some (some.inj hblock)
  have hd : s.deadlocks tn t c lock block = some true := by
    have howner := (hp c hc).owner lock hl.lock_eq
    simp only [Sys.deadlocks, howner, hq]
    cases hwalk : s.chainWalk t c.proc tn.maxlockdepth q with
    | none => exact absurd hwalk (hs.waits.noFault _ _ _ _)
    | some refused => cases refused with
      | true => rfl
      | false => exact absurd h.path (no_path_of_sleep hs hp hc hl hblocks ht hq hwalk)
  unfold Sys.lfSetlock
  simp [hblock, h.wait, hd]

theorem getblock_requeue {list : List Lockf} {lock block : Lockf} {b : Addr} {g : List Addr → List Addr} (hok : RangesOk list)
    (h : lfGetblock lock list = some (some block)) :
    ∃ block', lfGetblock lock (requeue b g list) = some (some block') ∧ block'.lfId = block.lfId := by
  rw [lfGetblock_eq hok] at h
  rw [lfGetblock_eq (rangesOk_requeue hok b g), requeue, find?_map]
  have hsame : ((fun lf => decide (Blocks lock lf)) ∘ fun lf => if lf.addr = b then {lf with lfBlkhd := g lf.lfBlkhd} else lf) =
      fun lf => decide (Blocks lock lf) := by
    funext lf
    rw [comp_apply]
    split <;> rfl
  rw [hsame, some.inj h]
  refine ⟨_, rfl, ?_⟩
  dsimp only
  split <;> rfl

theorem ClosesCycle.awake {c : Call F} {lock : Lockf} {q : Nat} {lfNext : Option Addr} (h : ClosesCycle s c lock q)
    (hs : Sound s) (hc : c ∈ s.calls) (hstage : c.stage = .awake lock lfNext) {s₁ : Sys F}
    (hs₁ : s₁ = (match lfNext with
      | some b => s.setList c.file (requeue b (·.erase lock.addr) (s.lists c.file))
      | none => s).setCall {c with stage := .awake lock none}) :
    ClosesCycle s₁ {c with stage := .awake lock none} lock q := by
  obtain ⟨block, hblock, hq⟩ := h.block
  have hawake : c.stage.isAsleep = false := by rw [hstage]; rfl
  refine ⟨h.wait, ?_, ?_⟩
  · rw [hs₁]
    cases lfNext with
    | none => exact ⟨block, hblock, hq⟩
    | some b =>
      obtain ⟨block', hblock', hid⟩ := @getblock_requeue _ lock block b (·.erase lock.addr) (hs.base.ranges c.file) hblock
      refine ⟨block', ?_, hid.trans hq⟩
      rw [setCall_lists, setList_lists, update_self]
      exact hblock'
  refine ReflTransGen.mono (edges_same ?_ ?_) _ _ h.path
  · intro d hd hasleep
    have hother := mem_others_of_asleep hs.base hc hawake hd hasleep
    rw [hs₁]
    cases lfNext <;> exact mem_cons_of_mem _ hother
  intro f e he
  rw [hs₁]
  cases lfNext with
  | none => exact ⟨e, he, rfl, rfl⟩
  | some b =>
    rw [setCall_lists, setList_lists]
    by_cases hf : f = c.file
    · subst hf
      rw [update_self]
      exact ⟨_, mem_requeue.mpr ⟨e, he, rfl⟩, rfl, rfl⟩
    · rw [update_of_ne hf]
      exact ⟨e, he, rfl, rfl⟩

/-- What a request does that is about to close a cycle: it runs, or comes back from
`cv_wait_sig`, and leaves with `EDEADLK`. -/
theorem refused_of_closesCycle {c : Call F} {lock : Lockf} {q : Nat} (hs : Sound s) (hp : ∀ c ∈ s.calls, c.Posix lwpOf)
    (hc : c ∈ s.calls) (ht : t.Single lwpOf) (h : ClosesCycle s c lock q) :
    (c.stage = .entered lock → c.op = .setlk → s.next tn (.run c.lwp t) = some (s.refuse c lock .edeadlk)) ∧
    (∀ lfNext, c.stage = .awake lock lfNext → ∃ s₁ : Sys F, s.next tn (.resume c.lwp t none) =
      some (s₁.refuse {c with stage := .awake lock none} lock .edeadlk)) := by
  have hreq := hs.base.requests c hc
  unfold RequestOk at hreq
  refine ⟨fun hstage hop => ?_, fun lfNext hstage => ?_⟩
  · rw [hstage] at hreq
    have hset := @lfSetlock_refuses F s lwpOf t _ tn c lock q hs hp hc ⟨.inl hstage, hreq⟩ ht h
    have hrun : s.run tn t c lock = s.lfSetlock tn t c lock := by
      unfold Sys.run
      simp [hop]
    unfold Sys.next
    simp [hs.running, find_self hs.base hc, hstage, hrun, hset]
  rw [hstage] at hreq
  have hl : Holds {c with stage := .awake lock none} lock := ⟨.inr rfl, hreq.1.congr rfl rfl rfl⟩
  obtain ⟨s₁, hs₁⟩ : ∃ s₁, s₁ = (match lfNext with
    | some b => s.setList c.file (requeue b (·.erase lock.addr) (s.lists c.file))
    | none => s).setCall {c with stage := .awake lock none} := ⟨_, rfl⟩
  have hmove : Move tn (posixOnly lwpOf) s s₁ := by
    rw [hs₁]
    cases lfNext with
    | some b => exact .dequeue hc hstage
    | none =>
      exact @Move.settle F _ tn (posixOnly lwpOf) s c lock _ [] hc ⟨.inr hstage, hreq.1⟩ (.inl ⟨rfl, hreq.2, rfl⟩)
  have hc₁ : {c with stage := .awake lock none} ∈ s₁.calls := by
    rw [hs₁]
    exact mem_cons_self
  have hset := @lfSetlock_refuses F s₁ lwpOf t _ tn {c with stage := .awake lock none} lock q (hmove.sound hs)
    (hmove.posix hp) hc₁ hl ht (h.awake hs hc hstage hs₁)
  have hresume : s.resume tn t c lock lfNext none = s₁.lfSetlock tn t {c with stage := .awake lock none} lock := by
    rw [hs₁]
    rfl
  refine ⟨s₁, ?_⟩
  unfold Sys.next
  simp [hs.running, find_self hs.base hc, hstage, hresume, hset]

/-- In every state reached the graph of who waits for whom has no cycle, and a request
that would close one, whether it is new or was woken before, leaves with `EDEADLK`. -/
theorem no_deadlock_of_record_locks (h : (advlockSystem F tn).Reach (SingleLwp lwpOf) s) : (∀ p, ¬TransGen (WaitsFor s) p p) ∧
    ∀ c ∈ s.calls, ∀ lock q t, t.Single lwpOf → ClosesCycle s c lock q →
      (c.stage = .entered lock → c.op = .setlk → s.next tn (.run c.lwp t) = some (s.refuse c lock .edeadlk)) ∧
      (∀ lfNext, c.stage = .awake lock lfNext → ∃ s₁ : Sys F, s.next tn (.resume c.lwp t none) =
        some (s₁.refuse {c with stage := .awake lock none} lock .edeadlk)) := by
  have hempty : Acyclic (WaitsFor (noLocks F)) := by
    intro p hp
    obtain ⟨q, ⟨c, hc, -⟩, -⟩ := TransGen.head'_iff.mp hp
    exact absurd hc not_mem_nil
  obtain ⟨hs, hp, hacyc⟩ : Sound s ∧ (∀ c ∈ s.calls, c.Posix lwpOf) ∧ Acyclic (WaitsFor s) := by
    refine @reach_sound F tn (posixOnly lwpOf) s _ (fun s => (∀ c ∈ s.calls, c.Posix lwpOf) ∧ Acyclic (WaitsFor s)) _
      (fun s a ha => SingleLwp.allows ha) ⟨fun c hc => absurd hc not_mem_nil, hempty⟩ ?_ h
    intro s s' hs hmove hinv
    exact ⟨hmove.posix hinv.1, hmove.acyclic hs hinv.1 hinv.2⟩
  exact ⟨hacyc, fun c hc lock q t ht hcycle => refused_of_closesCycle hs hp hc ht hcycle⟩

end Posix

/-- Each of two processes has a lock on one of two files, and asks for the other's. -/
def crossRun : List (Act Bool) :=
  [.enter false (byteRequest 1 1000 .setlk .wrlck 0 10) 1 2, .run 1 singles, .leave 1,
    .enter true (byteRequest 2 1000 .setlk .wrlck 0 10) 3 4, .run 2 singles, .leave 2,
    .enter true (byteRequest 1 1000 .setlk .wrlck 5 10) 5 6, .run 1 singles,
    .enter false (byteRequest 2 1000 .setlk .wrlck 5 10) 7 8, .run 2 singles]

theorem no_deadlock_of_record_locks_cross : ∃ s, (advlockSystem Bool defaults).Reach (SingleLwp (.refl Nat)) s ∧
    (∃ c ∈ s.calls, c.proc = 1 ∧ c.stage.isAsleep) ∧ (∃ c ∈ s.calls, c.proc = 2 ∧ c.stage = .leaving none (some .edeadlk)) ∧
    ∀ p, ¬TransGen (WaitsFor s) p p := by
  have hok : ∀ s : Sys Bool, ∀ a ∈ crossRun, True → SingleLwp (.refl Nat) s a := by
    intro s a ha _
    simp only [crossRun, mem_cons, not_mem_nil, or_false] at ha
    rcases ha with rfl | rfl | rfl | rfl | rfl | rfl | rfl | rfl | rfl | rfl <;>
      first
      | exact ⟨rfl, rfl⟩
      | exact fun p => ⟨rfl, rfl⟩
      | trivial
  obtain ⟨s, hs, hp⟩ := @reach_runActs Bool _ _ defaults (SingleLwp (.refl Nat)) (fun _ _ => True) _ crossRun
    (fun s => (s.calls.any fun c => c.proc = 1 ∧ c.stage.isAsleep) ∧
      s.calls.any fun c => c.proc = 2 ∧ c.stage = .leaving none (some .edeadlk)) hok (by decide)
  obtain ⟨hasleep, hrefused⟩ := of_decide_eq_true hp
  refine ⟨s, hs, ?_, ?_, (no_deadlock_of_record_locks hs).1⟩
  · simpa using hasleep
  · simpa using hrefused

end NetBSD.Kern.Advlock
