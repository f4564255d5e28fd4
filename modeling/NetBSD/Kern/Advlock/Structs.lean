import NetBSD.Kern.Advlock.Steps
import Mathlib.Algebra.BigOperators.Group.Finset.Basic
import Mathlib.Algebra.Order.BigOperators.Group.Finset
import Mathlib.Data.BitVec

/-! Where the structures of `lf_advlock` are.

A structure is on the list of a file or belongs to a call. A move makes some (`fresh`)
and frees some (`freed`), the counters go with them, and all others are where they were
or change hands (`Move.balanced`). With the address as key this says that no two
structures ever share one (`AddrOk`). -/
namespace NetBSD.Kern.Advlock
open List Function

/-! ### The structures of the calls -/

section Calls
variable {F κ : Type} {key : Lockf → κ} {s : Sys F} {c : Call F}

def callKeys (key : Lockf → κ) (calls : List (Call F)) : Multiset κ := keys key (calls.flatMap Call.structs)

theorem callKeys_cons (calls : List (Call F)) : callKeys key (c :: calls) = keys key c.structs + callKeys key calls := by
  simp [callKeys]

section
variable (woken moved : List Addr) (a : Addr)
include woken moved a

@[simp]
theorem lock?_notify (stage : Stage) : (stage.notify woken moved a).lock? = stage.lock? := by
  cases stage with
  | asleep lock lfNext =>
    rw [Stage.notify]
    split <;> rfl
  | _ => rfl

theorem structs_notify (c : Call F) : (c.notify woken moved a).structs = c.structs := by
  rw [Call.structs, Call.structs, Call.notify, lock?_notify]

theorem callKeys_notify (calls : List (Call F)) : callKeys key (calls.map (Call.notify woken moved a)) = callKeys key calls := by
  rw [callKeys, flatMap_map]
  congr 2
  funext c
  exact structs_notify woken moved a c

end

theorem others_eq_of_forall {lwp : Nat} (h : ∀ c ∈ s.calls, c.lwp ≠ lwp) : s.others lwp = s.calls :=
  filter_eq_self.mpr fun c hc => decide_eq_true (h c hc)

section
variable (h : (s.calls.map Call.lwp).Nodup) (hc : c ∈ s.calls)
include h hc

theorem calls_perm : s.calls.Perm (c :: s.others c.lwp) := by
  obtain ⟨pre, post, hcalls⟩ := append_of_mem hc
  rw [hcalls, map_append] at h
  have hmid := nodup_middle.mp h
  have hne : ∀ c' ∈ pre ++ post, c'.lwp ≠ c.lwp := by
    intro c' hc' heq
    rw [← map_append, nodup_cons] at hmid
    exact hmid.1 (mem_map.mpr ⟨c', hc', heq⟩)
  have hothers : s.others c.lwp = pre ++ post := by
    rw [Sys.others, hcalls, filter_append, filter_cons, if_neg (by simp), ← filter_append]
    exact filter_eq_self.mpr fun c' hc' => decide_eq_true (hne c' hc')
  rw [hothers, hcalls]
  exact perm_middle

theorem callKeys_calls : callKeys key s.calls = keys key c.structs + callKeys key (s.others c.lwp) := by
  rw [← callKeys_cons]
  exact Multiset.coe_eq_coe.mpr (((calls_perm h hc).flatMap_right _).map key)

end

theorem keys_requeue (hkey : StructKey key) (b : Addr) (f : List Addr → List Addr) (list : List Lockf) :
    keys key (requeue b f list) = keys key list := by
  rw [keys, requeue, map_map]
  congr 2
  funext lf
  rw [comp_apply]
  split
  · exact hkey _ _ rfl rfl
  · rfl

theorem lfFrees_lockcnt (s : Sys F) (locks : List Lockf) (uid : Uid) :
    (s.lfFrees locks).lockcnt uid + BitVec.ofNat 64 ((keys Lockf.lfUid locks).count uid) = s.lockcnt uid := by
  induction locks generalizing s with
  | nil => simp [Sys.lfFrees]
  | cons lock locks ih =>
    have hrest := ih (s.lfFree lock)
    rw [keys_cons, Multiset.count_add, Multiset.count_singleton, BitVec.ofNat_add, add_left_comm,
      ← show (s.lfFree lock).lfFrees locks = s.lfFrees (lock :: locks) from rfl, hrest, Sys.lfFree]
    dsimp only
    by_cases hu : uid = lock.lfUid
    · rw [hu, update_self, if_pos rfl]
      exact add_sub_cancel _ _
    · rw [update_of_ne hu, if_neg hu]
      exact zero_add _

theorem charge_lockcnt (s : Sys F) (uid uid' : Uid) :
    (s.charge uid).lockcnt uid' = s.lockcnt uid' + BitVec.ofNat 64 (if uid' = uid then 1 else 0) := by
  rw [Sys.charge]
  by_cases hu : uid' = uid
  · simp [hu]
  · simp [hu]

end Calls

/-! ### Moves -/

section Balance
variable {F : Type} {tn : Tunables} {k : Known} {s s' : Sys F}

/-- A key that a structure keeps, as far as `k` is known. -/
structure KeyOk {κ : Type} (k : Known) (key : Lockf → κ) : Prop where
  struct : StructKey key
  split : ∀ lock lf sp : Lockf, (k.splits → sp.lfUid = lf.lfUid) → key (lock.splitRight lf sp) = key sp

/-- A move that touches the list of `f` only, makes `fresh` and frees `freed`. -/
structure Balanced (k : Known) (s s' : Sys F) (f : F) (fresh freed : List Lockf) : Prop where
  other : ∀ g, g ≠ f → s'.lists g = s.lists g
  keys_eq : ∀ {κ : Type} (key : Lockf → κ), KeyOk k key → keys key (s.lists f) + callKeys key s.calls + keys key fresh =
      keys key (s'.lists f) + callKeys key s'.calls + keys key freed
  count : ∀ uid, s'.lockcnt uid + BitVec.ofNat 64 ((keys Lockf.lfUid freed).count uid) =
    s.lockcnt uid + BitVec.ofNat 64 ((keys Lockf.lfUid fresh).count uid)
  new : (fresh.map Lockf.addr).Nodup ∧ ∀ lf ∈ fresh, lf.addr ≠ 0 ∧ ¬s.InUse lf.addr

theorem none_new (s : Sys F) : (([] : List Lockf).map Lockf.addr).Nodup ∧ ∀ lf ∈ ([] : List Lockf), lf.addr ≠ 0 ∧ ¬s.InUse lf.addr :=
  ⟨nodup_nil, fun _ hlf => absurd hlf not_mem_nil⟩

theorem spareFor {κ : Type} {key : Lockf → κ} (hkey : KeyOk k key) {c : Call F} {lock : Lockf}
    (hgood : k.splits → KeepsUsers s c lock) (hfree : c.op = .setlk → ∀ e ∈ s.lists c.file, ¬Blocks lock e)
    {lf : Lockf} (hlf : lf ∈ s.lists c.file) (hsplits : Splits c lock lf) : SpareFor key lock c.spare lf := by
  intro sp hsp
  exact hkey.split lock lf sp fun hk => hgood hk hfree lf hlf hsplits sp hsp

theorem Holds.structs_eq {c : Call F} {lock : Lockf} (hl : Holds c lock) : c.structs = lock :: c.spare.toList := by
  rw [Call.structs, hl.lock_eq]
  rfl

theorem newSpare_eq {rq : Request} {addr : Addr} : ∀ sp ∈ (newSpare rq addr).toList, sp = Sys.blank addr rq.euid := by
  intro sp hsp
  unfold newSpare at hsp
  split at hsp
  · exact mem_singleton.mp hsp
  · exact absurd hsp not_mem_nil

theorem enter_balanced {f : F} {rq : Request} {spareAddr lockAddr : Addr} (hen : s.Enabled (.enter f rq spareAddr lockAddr)) :
    ∃ fresh, Balanced k s (s.enter tn f rq spareAddr lockAddr) f fresh [] := by
  obtain ⟨hok, hlwp, hne, hs0, hl0, hsnew, hlnew⟩ := hen
  rcases enter_cases s tn f rq spareAddr lockAddr with heq | ⟨start, fin, s₁, hr, hs₁, heq⟩
  · rw [heq]
    exact ⟨[], fun _ _ => rfl, fun _ _ => rfl, fun _ => rfl, none_new s⟩
  have hlists : s₁.lists = s.lists := by
    rw [hs₁]
    split <;> rfl
  have hcalls : s₁.calls = s.calls := by
    rw [hs₁]
    split <;> rfl
  have hothers : s₁.others rq.lwp = s.calls := by
    rw [← hcalls]
    refine others_eq_of_forall ?_
    rw [hcalls]
    exact hlwp
  have hcount : ∀ uid, s₁.lockcnt uid = s.lockcnt uid + BitVec.ofNat 64 ((keys Lockf.lfUid (newSpare rq spareAddr).toList).count uid) := by
    rw [hs₁]
    unfold newSpare
    split <;> simp [charge_lockcnt, Sys.blank, Multiset.count_singleton, *]
  have hspare : ∀ sp ∈ (newSpare rq spareAddr).toList, sp.addr ≠ 0 ∧ ¬s.InUse sp.addr := by
    intro sp hsp
    rw [newSpare_eq sp hsp]
    exact ⟨hs0, hsnew⟩
  have hnodup : ((newSpare rq spareAddr).toList.map Lockf.addr).Nodup := by
    unfold newSpare
    split <;> simp
  rcases heq with heq | heq <;> rw [heq]
  · refine ⟨(newSpare rq spareAddr).toList, fun g _ => by rw [setCall_lists, hlists], fun key hkey => ?_, fun uid => ?_,
      hnodup, hspare⟩
    · rw [setCall_lists, hlists, setCall_calls, hothers, callKeys_cons]
      abel
    · simpa [Sys.setCall] using hcount uid
  refine ⟨newLock rq start fin lockAddr :: (newSpare rq spareAddr).toList, fun g _ => ?_, fun key hkey => ?_, fun uid => ?_,
    ?_, ?_⟩
  · exact congrFun hlists g
  · rw [setCall_lists, setCall_calls, callKeys_cons]
    rw [show (s₁.charge rq.euid).lists = s.lists from hlists, show (s₁.charge rq.euid).others rq.lwp = s.calls from hothers]
    abel
  · show (s₁.charge rq.euid).lockcnt uid + _ = _
    rw [charge_lockcnt, hcount, keys_cons, Multiset.count_add, Multiset.count_singleton, BitVec.ofNat_add]
    abel
  · rw [map_cons, nodup_cons]
    refine ⟨fun hmem => ?_, hnodup⟩
    obtain ⟨sp, hsp, haddr⟩ := mem_map.mp hmem
    rw [newSpare_eq sp hsp] at haddr
    exact hne haddr
  · intro lf hlf
    rcases mem_cons.mp hlf with rfl | hlf
    · exact ⟨hl0, hlnew⟩
    · exact hspare lf hlf

end Balance

section Moves
variable {F : Type} [DecidableEq F] {tn : Tunables} {k : Known} {s s' : Sys F}

theorem edit_balanced {c : Call F} {lock : Lockf} {r : Edited} {stage : Stage} (hb : Base s) (hc : c ∈ s.calls) (hl : Holds c lock)
    (hkeys : ∀ {κ : Type} (key : Lockf → κ), KeyOk k key → keys key (s.lists c.file) + {key lock} + keys key c.spare.toList =
      keys key r.list + keys key (stage.lock?.toList ++ r.spare.toList) + keys key r.freed) :
    Balanced k s (s.edit c lock.addr r stage) c.file [] r.freed where
  other g hg := by rw [edit_lists, update_of_ne hg]
  keys_eq key hkey := by
    have hsum := hkeys key hkey
    rw [edit_lists, update_self, edit_calls, callKeys_cons, callKeys_notify, callKeys_calls hb.lwps hc, hl.structs_eq, keys_nil, add_zero]
    calc keys key (s.lists c.file) + ({key lock} + keys key c.spare.toList + callKeys key (s.others c.lwp))
        = keys key (s.lists c.file) + {key lock} + keys key c.spare.toList + callKeys key (s.others c.lwp) := by abel
      _ = keys key r.list + keys key (stage.lock?.toList ++ r.spare.toList) + keys key r.freed + callKeys key (s.others c.lwp) := by rw [hsum]
      _ = _ := by
        rw [Call.structs]
        abel
  count uid := by
    rw [Sys.edit, lfFrees_lockcnt]
    simp [Sys.setList]
  new := none_new s

theorem stage_balanced {c : Call F} {stage : Stage} (hb : Base s) (hc : c ∈ s.calls) (hstage : stage.lock? = c.stage.lock?)
    {list : List Lockf} (hlist : ∀ {κ : Type} (key : Lockf → κ), KeyOk k key → keys key list = keys key (s.lists c.file)) :
    Balanced k s ((s.setList c.file list).setCall {c with stage := stage}) c.file [] [] where
  other g hg := by rw [setCall_lists, setList_lists, update_of_ne hg]
  keys_eq key hkey := by
    have hstructs : Call.structs {c with stage := stage} = c.structs := by rw [Call.structs, Call.structs, hstage]
    rw [setCall_lists, setList_lists, update_self, setCall_calls, callKeys_cons, callKeys_calls hb.lwps hc, hstructs, hlist key hkey]
    rfl
  count uid := rfl
  new := none_new s

theorem Move.balanced (h : Move tn k s s') (hb : Base s) : ∃ f fresh freed, Balanced k s s' f fresh freed := by
  cases h with
  | @enter f rq spareAddr lockAddr hen hrq =>
    obtain ⟨fresh, hfresh⟩ := enter_balanced hen
    exact ⟨f, fresh, [], hfresh⟩
  | @settle c lock stage freed hc hl hstage =>
    have hstructs : [lock] = stage.lock?.toList ++ freed := by
      rcases hstage with ⟨rfl, -, rfl⟩ | ⟨rest, error, rfl, h⟩
      · rfl
      · exact h
    refine ⟨c.file, [], freed, fun g _ => by simp, fun key hkey => ?_, fun uid => ?_, none_new s⟩
    · rw [lfFrees_lists, setCall_lists, lfFrees_calls, setCall_calls, callKeys_cons, callKeys_calls hb.lwps hc, hl.structs_eq,
        Call.structs, ← singleton_append, hstructs]
      simp only [keys_append, keys_nil]
      abel
    · rw [lfFrees_lockcnt]
      simp [Sys.setCall]
  | @unlock c lock r hc hl hop hr hm hgood =>
    refine ⟨c.file, [], r.freed, edit_balanced hb hc hl fun key hkey => ?_⟩
    have hsum := hr.keys_eq hkey.struct fun lf hlf hsplit =>
      spareFor hkey hgood (by rw [hop]; exact fun h => absurd h (by decide)) hlf ⟨hsplit, .inl hop⟩
    simp only [Stage.lock?, Option.toList_some, singleton_append, keys_cons]
    calc keys key (s.lists c.file) + {key lock} + keys key c.spare.toList
        = {key lock} + (keys key (s.lists c.file) + keys key c.spare.toList) := by abel
      _ = _ := by
        rw [hsum]
        abel
  | @upgrade c lock r hc hl hr hm hspare =>
    refine ⟨c.file, [], r.freed, @edit_balanced F _ k s c lock {r with spare := c.spare} c.stage hb hc hl fun key hkey => ?_⟩
    have hsum := hr.keys_eq hkey.struct fun lf _ _ sp hsp => absurd hsp (by simp)
    simp only [hspare, Option.toList_none, keys_nil, add_zero] at hsum
    simp only [hl.lock_eq, Option.toList_some, singleton_append, keys_cons, hsum]
    abel
  | @grant c lock r hc hl hop hfree hr hgood =>
    refine ⟨c.file, [], r.freed, edit_balanced hb hc hl fun key hkey => ?_⟩
    have hsum := hr.keys_eq hkey.struct fun lf hlf hsplit htype =>
      spareFor hkey hgood (fun _ => hfree) hlf ⟨hsplit, .inr ⟨hop, htype⟩⟩
    rw [add_comm (keys key (s.lists c.file)), hsum]
    abel
  | @sleep c lock block t hc hl hop hb' hblocks ht hchain =>
    have hstage : (Stage.asleep lock (some block.addr)).lock? = c.stage.lock? := hl.lock_eq.symm
    exact ⟨c.file, [], [], stage_balanced hb hc hstage fun key hkey => keys_requeue hkey.struct _ _ _⟩
  | @signal c lock lfNext hc hs =>
    have hstage : (Stage.awake lock lfNext).lock? = c.stage.lock? := by rw [hs]; rfl
    have hbal := @stage_balanced F _ k s c _ hb hc hstage _ fun key _ => rfl
    rw [Sys.setList, update_eq_self] at hbal
    exact ⟨c.file, [], [], hbal⟩
  | @dequeue c lock b hc hs =>
    have hstage : (Stage.awake lock none).lock? = c.stage.lock? := by rw [hs]; rfl
    exact ⟨c.file, [], [], stage_balanced hb hc hstage fun key hkey => keys_requeue hkey.struct _ _ _⟩
  | @leave c lock error hc hs =>
    refine ⟨c.file, [], lock.toList ++ c.spare.toList, fun g _ => by simp, fun key hkey => ?_, fun uid => ?_, none_new s⟩
    · rw [leave_lists, leave_calls, callKeys_calls hb.lwps hc, Call.structs, hs, Stage.lock?]
      abel
    · rw [Sys.leave, lfFrees_lockcnt]
      simp

end Moves

/-! ### Addresses -/

section Live
variable {F κ : Type} {k : Known} {key : Lockf → κ} {s s' : Sys F} {files : Finset F} {f : F} {fresh freed : List Lockf}

/-- The structures on the lists of some files and those of the calls. -/
def live (key : Lockf → κ) (files : Finset F) (s : Sys F) : Multiset κ :=
  ∑ f ∈ files, keys key (s.lists f) + callKeys key s.calls

theorem mem_keys {list : List Lockf} {a : κ} : a ∈ keys key list ↔ ∃ lf ∈ list, key lf = a := by
  rw [keys, Multiset.mem_coe, mem_map]

theorem mem_callKeys {calls : List (Call F)} {a : κ} : a ∈ callKeys key calls ↔ ∃ c ∈ calls, ∃ lf ∈ c.structs, key lf = a := by
  rw [callKeys, mem_keys]
  constructor
  · rintro ⟨lf, hlf, hkey⟩
    obtain ⟨c, hc, hlf⟩ := mem_flatMap.mp hlf
    exact ⟨c, hc, lf, hlf, hkey⟩
  · rintro ⟨c, hc, lf, hlf, hkey⟩
    exact ⟨lf, mem_flatMap.mpr ⟨c, hc, hlf⟩, hkey⟩

theorem inUse_of_mem_live {a : Addr} (h : a ∈ live Lockf.addr files s) : s.InUse a := by
  rcases Multiset.mem_add.mp h with h | h
  · obtain ⟨f, -, hf⟩ := Multiset.mem_sum.mp h
    exact .inl ⟨f, mem_keys.mp hf⟩
  · exact .inr (mem_callKeys.mp h)

theorem live_mono {files' : Finset F} (h : files ⊆ files') : live key files s ≤ live key files' s :=
  add_le_add_left (Finset.sum_le_sum_of_subset h) _

theorem Balanced.live_eq [DecidableEq F] (h : Balanced k s s' f fresh freed) (hkey : KeyOk k key) (hf : f ∈ files) :
    live key files s + keys key fresh = live key files s' + keys key freed := by
  have hrest : ∑ g ∈ files.erase f, keys key (s'.lists g) = ∑ g ∈ files.erase f, keys key (s.lists g) := by
    refine Finset.sum_congr rfl fun g hg => ?_
    rw [h.other g (Finset.ne_of_mem_erase hg)]
  have hsum := h.keys_eq key hkey
  rw [live, live, ← Finset.add_sum_erase files _ hf, ← Finset.add_sum_erase files (fun g => keys key (s'.lists g)) hf, hrest]
  calc keys key (s.lists f) + ∑ g ∈ files.erase f, keys key (s.lists g) + callKeys key s.calls + keys key fresh
      = (keys key (s.lists f) + callKeys key s.calls + keys key fresh) + ∑ g ∈ files.erase f, keys key (s.lists g) := by abel
    _ = _ := by
      rw [hsum]
      abel

/-- No two structures have one address. -/
structure AddrOk (s : Sys F) : Prop where
  nodup : ∀ files, (live Lockf.addr files s).Nodup
  nonnull : ∀ files, 0 ∉ live Lockf.addr files s

theorem keyOk_addr (k : Known) : KeyOk k Lockf.addr := ⟨fun _ _ h _ => h, fun _ _ _ _ => rfl⟩

theorem Balanced.addrs [DecidableEq F] (h : Balanced k s s' f fresh freed) (ha : AddrOk s) : AddrOk s' := by
  have hle : ∀ files, live Lockf.addr files s' ≤ live Lockf.addr (insert f files) s + keys Lockf.addr fresh := by
    intro files
    rw [h.live_eq (keyOk_addr k) (Finset.mem_insert_self f files)]
    exact (live_mono (Finset.subset_insert f files)).trans (Multiset.le_add_right _ _)
  obtain ⟨hnew, hfresh⟩ := h.new
  refine ⟨fun files => Multiset.nodup_of_le (hle files) ?_, fun files h0 => ?_⟩
  · refine Multiset.nodup_add.mpr ⟨ha.nodup _, hnew, Multiset.disjoint_left.mpr fun hmem hkey => ?_⟩
    obtain ⟨lf, hlf, rfl⟩ := mem_keys.mp hkey
    exact (hfresh lf hlf).2 (inUse_of_mem_live hmem)
  rcases Multiset.mem_add.mp (Multiset.mem_of_le (hle files) h0) with h0 | h0
  · exact ha.nonnull _ h0
  · obtain ⟨lf, hlf, heq⟩ := mem_keys.mp h0
    exact (hfresh lf hlf).1 heq

theorem AddrOk.list (ha : AddrOk s) (f : F) : ((s.lists f).map Lockf.addr).Nodup := by
  have hle : keys Lockf.addr (s.lists f) ≤ live Lockf.addr {f} s := by
    rw [live, Finset.sum_singleton]
    exact Multiset.le_add_right _ _
  exact Multiset.nodup_of_le hle (ha.nodup {f})

theorem AddrOk.entry_unique (ha : AddrOk s) {e e' : Lockf} (he : e ∈ s.lists f) (he' : e' ∈ s.lists f) (h : e.addr = e'.addr) : e = e' :=
  inj_on_of_nodup_map (ha.list f) he he' h

theorem call_unique (hb : Base s) {c c' : Call F} (hc : c ∈ s.calls) (hc' : c' ∈ s.calls) (h : c.lwp = c'.lwp) : c = c' :=
  inj_on_of_nodup_map hb.lwps hc hc' h

theorem AddrOk.struct_unique (ha : AddrOk s) (hb : Base s) {c c' : Call F} {lf lf' : Lockf} (hc : c ∈ s.calls)
    (hc' : c' ∈ s.calls) (hlf : lf ∈ c.structs) (hlf' : lf' ∈ c'.structs) (h : lf.addr = lf'.addr) : c = c' := by
  by_contra hne
  have hlwp : c'.lwp ≠ c.lwp := fun heq => hne (call_unique hb hc hc' heq.symm)
  have hnodup := ha.nodup ∅
  rw [live, Finset.sum_empty, zero_add, callKeys_calls hb.lwps hc, Multiset.nodup_add] at hnodup
  have hmem : lf.addr ∈ callKeys Lockf.addr (s.others c.lwp) :=
    mem_callKeys.mpr ⟨c', (mem_others s).mpr ⟨hc', hlwp⟩, lf', hlf', h.symm⟩
  exact Multiset.disjoint_left.mp hnodup.2.2 (mem_keys.mpr ⟨lf, hlf, rfl⟩) hmem

end Live

end NetBSD.Kern.Advlock
