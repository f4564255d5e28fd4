import NetBSD.Kern.Advlock.Waiting
import Mathlib.Data.Set.Card
import Mathlib.Order.Interval.Finset.Nat

/-! Locks that are granted never conflict, and nobody sleeps without a reason.

`Sound` holds in every state that calls of `lf_advlock` reach, in whatever order they
take their steps (`reach_sound`). So the chain of blocked processes can be followed
without a fault, and nothing panics. -/
namespace NetBSD.Kern.Advlock
open List Option
open Lib

section Sound
variable {F : Type}

structure Sound (s : Sys F) : Prop where
  base : Base s
  addrs : AddrOk s
  waits : WaitOk s
  running : s.panicked = false

variable {tn : Tunables} {k : Known} {s s' : Sys F}

theorem sound_noLocks : Sound (noLocks F) where
  base := by
    refine ⟨fun f lf hlf => absurd hlf not_mem_nil, fun f => List.Pairwise.nil, nodup_nil, fun c hc => ?_⟩
    exact absurd hc not_mem_nil
  addrs := by
    have hnone : ∀ files : Finset F, live Lockf.addr files (noLocks F) = 0 := by
      intro files
      rw [live]
      simp [noLocks, callKeys]
    refine ⟨fun files => ?_, fun files => ?_⟩
    · rw [hnone]
      exact Multiset.nodup_zero
    · rw [hnone]
      exact Multiset.notMem_zero _
  waits := by
    refine ⟨fun f => Multiset.nodup_zero, fun f e he => absurd he not_mem_nil, ?_, fun c hc => absurd hc not_mem_nil,
      fun f e he => absurd he not_mem_nil⟩
    rintro f lock b ⟨c, hc, -⟩
    exact absurd hc not_mem_nil
  running := rfl

theorem WaitOk.hop_ne_fault (hw : WaitOk s) (t : Threads) (p : Nat) : s.hop t p ≠ .fault := by
  intro h
  unfold Sys.hop at h
  split at h
  · cases h
  split at h
  · cases h
  next c hfind =>
  obtain ⟨hc, -⟩ := find_call hfind
  split at h
  · next lock lfNext hs =>
    have hsome := hw.asleep c hc (by rw [hs]; rfl)
    rw [hs] at hsome
    obtain ⟨b, rfl⟩ := isSome_iff_exists.mp hsome
    obtain ⟨e, he, haddr, -⟩ := hw.blocked c.file lock b ⟨c, hc, rfl, by rw [hs]; rfl, by rw [hs]; rfl⟩
    split at h
    · next hnone =>
      rw [bind_some, find?_eq_none] at hnone
      exact hnone e he (decide_eq_true haddr)
    · split at h <;> cases h
  · cases h

theorem WaitOk.noFault (hw : WaitOk s) : NoFault s := by
  intro t curproc left
  induction left with
  | zero =>
    intro p h
    cases h
  | succ left ih =>
    intro p h
    rw [Sys.chainWalk] at h
    split at h
    · cases h
    · next hfault => exact hw.hop_ne_fault t p hfault
    split at h
    · cases h
    · exact ih _ h

variable [DecidableEq F]

theorem Move.running (h : Move tn k s s') (hs : s.panicked = false) : s'.panicked = false := by
  cases h with
  | @enter f rq spareAddr lockAddr hen hrq =>
    rcases enter_cases s tn f rq spareAddr lockAddr with heq | ⟨start, fin, s₁, hr, hs₁, heq⟩
    · rw [heq]
      exact hs
    have hrunning : s₁.panicked = false := by
      rw [hs₁]
      split <;> exact hs
    rcases heq with heq | heq <;> rw [heq] <;> exact hrunning
  | settle =>
    rw [lfFrees_panicked]
    exact hs
  | unlock | upgrade | grant =>
    rw [edit_panicked]
    exact hs
  | sleep | signal | dequeue => exact hs
  | leave =>
    rw [Sys.leave, lfFrees_panicked]
    exact hs

theorem Move.sound (h : Move tn k s s') (hs : Sound s) : Sound s' := by
  obtain ⟨f, fresh, freed, hbal⟩ := h.balanced hs.base
  exact ⟨h.base hs.base, hbal.addrs hs.addrs, h.waitOk hs.waits hs.base hs.addrs, h.running hs.running⟩

theorem Moves.sound (h : Moves tn k s s') (hs : Sound s) : Sound s' := by
  induction h with
  | refl => exact hs
  | tail _ hmove ih => exact hmove.sound ih

theorem reach_sound {Inv : Sys F → Prop} {ok : Sys F → Act F → Prop} (hok : ∀ s a, ok s a → k.Allows s a)
    (h₀ : Inv (noLocks F)) (hmove : ∀ s s', Sound s → Move tn k s s' → Inv s → Inv s')
    (h : (advlockSystem F tn).Reach ok s) : Sound s ∧ Inv s := by
  refine @System.Reach.invariant _ _ _ _ (fun s => Sound s ∧ Inv s) ?_ ?_ s h
  · intro s hs
    cases hs
    exact ⟨sound_noLocks, h₀⟩
  intro s a s' hinv ha hstep
  have hmoves : Moves tn k s s' :=
    next_moves hinv.1.base (fun s₁ h₁ => (h₁.sound hinv.1).waits.noFault) hstep.1 (hok s a ha) hstep.2
  clear ha hstep
  induction hmoves with
  | refl => exact hinv
  | tail _ hm ih => exact ⟨hm.sound ih.1, hmove _ _ ih.1 hm ih.2⟩

end Sound

section Conflicts
variable {F : Type} {tn : Tunables} {s : Sys F}

end Conflicts

section Runs
variable {F : Type} [DecidableEq F] [Fintype F] {tn : Tunables} {ok P : Sys F → Act F → Prop} [∀ s a, Decidable (P s a)]

/-- The state after a list of steps that are possible and meet `P`. -/
def runActs (tn : Tunables) (P : Sys F → Act F → Prop) [∀ s a, Decidable (P s a)] (as : List (Act F)) : Option (Sys F) :=
  System.run (System.guarded (fun s a => s.Enabled a ∧ P s a) fun s a => s.next tn a) (noLocks F) as

theorem reach_runActs {as : List (Act F)} {p : Sys F → Bool} (hok : ∀ s, ∀ a ∈ as, P s a → ok s a)
    (h : (runActs tn P as).map p = some true) : ∃ s, (advlockSystem F tn).Reach ok s ∧ p s := by
  obtain ⟨s, hs, hp⟩ := map_eq_some_iff.mp h
  refine ⟨s, System.reach_of_run (advlockSystem F tn) (noLocks F) as ?_ rfl hs, hp⟩
  intro s s' a hmem ha hnext
  exact ⟨hok s a hmem ha.2, ha.1, hnext⟩

end Runs

/-- Processes of one thread each, and the tunables as they are set by default. -/
def singles : Threads := ⟨id, fun _ => 1⟩
def defaults : Tunables := ⟨1024, 50⟩

/-- A process that sets a lock on some bytes and waits for it, or unlocks them. -/
def byteRequest (proc : Nat) (euid : Uid) (aOp : Op) (lType : LockType) (first len : Int) : Request :=
  ⟨proc, proc, euid, aOp, .posix, aOp = .setlk, lType, .seekSet, first, len, 0⟩

section Counts
variable {F κ : Type} {k : Known} {s s' : Sys F} {files : Finset F} {f : F} {fresh freed : List Lockf}

/-- All files with locks are among `files`. -/
def Covering (files : Finset F) (s : Sys F) : Prop := ∀ g, g ∉ files → s.lists g = []

structure CountOk (s : Sys F) : Prop where
  finite : ∃ files, Covering files s
  count : ∀ files, Covering files s → ∀ uid, s.lockcnt uid = BitVec.ofNat 64 ((live Lockf.lfUid files s).count uid)

/-- On the list of a file, or with a call. -/
def Sys.Live (s : Sys F) (lf : Lockf) : Prop := (∃ f, lf ∈ s.lists f) ∨ ∃ c ∈ s.calls, lf ∈ c.structs

theorem map_live (key : Lockf → κ) : (live id files s).map key = live key files s := by
  have hkeys : ∀ list : List Lockf, (keys id list).map key = keys key list := by
    simp [keys]
  rw [live, Multiset.map_add, callKeys]
  rw [← Multiset.coe_mapAddMonoidHom, map_sum]
  simp only [Multiset.coe_mapAddMonoidHom, hkeys]
  rfl

theorem mem_live_id (h : Covering files s) {lf : Lockf} : lf ∈ live id files s ↔ s.Live lf := by
  rw [live, Multiset.mem_add, Multiset.mem_sum, mem_callKeys]
  simp only [mem_keys, id_eq, exists_eq_right]
  refine or_congr_left (exists_congr fun f => and_iff_right_of_imp fun hlf => ?_)
  by_contra hf
  rw [h f hf] at hlf
  exact absurd hlf not_mem_nil

theorem AddrOk.card_lt (ha : AddrOk s) (files : Finset F) : (live Lockf.addr files s).card < 2 ^ 64 := by
  have hinj : Set.InjOn BitVec.toNat ((live Lockf.addr files s).toFinset : Set Addr) := fun a _ b _ h => BitVec.eq_of_toNat_eq h
  have hsub : ∀ a ∈ (live Lockf.addr files s).toFinset, a.toNat ∈ Finset.Ioo 0 (2 ^ 64) := by
    intro a hmem
    rw [Finset.mem_Ioo]
    refine ⟨pos_of_ne_zero fun h0 => ?_, a.isLt⟩
    have hzero : a = 0 := BitVec.eq_of_toNat_eq h0
    rw [hzero, Multiset.mem_toFinset] at hmem
    exact ha.nonnull files hmem
  have hcard := Finset.card_le_card_of_injOn BitVec.toNat hsub hinj
  rw [Multiset.toFinset_card_of_nodup (ha.nodup files), Nat.card_Ioo] at hcard
  omega

theorem CountOk.exact (hc : CountOk s) (ha : AddrOk s) (uid : Uid) : {lf | s.Live lf ∧ lf.lfUid = uid}.encard = (s.lockcnt uid).toNat := by
  obtain ⟨files, hfiles⟩ := hc.finite
  have hnodup : (live id files s).Nodup := by
    refine Multiset.Nodup.of_map Lockf.addr ?_
    rw [map_live]
    exact ha.nodup files
  have hcount : (live Lockf.lfUid files s).count uid = ((live id files s).filter fun lf => uid = lf.lfUid).card := by
    rw [← map_live Lockf.lfUid, Multiset.count_map]
  have hset : {lf | s.Live lf ∧ lf.lfUid = uid} = (((live id files s).filter fun lf => uid = lf.lfUid).toFinset : Set Lockf) := by
    ext lf
    simp only [Set.mem_ofPred_eq, Finset.mem_coe, Multiset.mem_toFinset, Multiset.mem_filter, mem_live_id hfiles]
    rw [eq_comm]
  have hlt : (live Lockf.lfUid files s).count uid < 2 ^ 64 := by
    refine (Multiset.count_le_card _ _).trans_lt ?_
    have hcard := ha.card_lt files
    rw [← map_live, Multiset.card_map] at hcard ⊢
    exact hcard
  rw [hset, Set.encard_coe_eq_coe_finsetCard, Multiset.toFinset_card_of_nodup (hnodup.filter _), ← hcount, hc.count files hfiles,
    BitVec.toNat_ofNat, Nat.mod_eq_of_lt hlt]

end Counts

/-! ### Runs -/

section Users
variable {F : Type} {tn : Tunables} {s : Sys F}

/-- The step splits no entry of another user than the one its spare was allocated for. -/
def SplitsOwn (s : Sys F) : Act F → Prop
  | .run lwp _ | .resume lwp _ none =>
    ∀ c ∈ s.calls, c.lwp = lwp → ∀ lock ∈ c.stage.lock?, KeepsUsers s c lock
  | _ => True

instance : ∀ a, Decidable (SplitsOwn s a)
  | .run _ _ | .resume _ _ none => inferInstanceAs (Decidable (∀ c ∈ s.calls, _))
  | .enter _ _ _ _ | .signal _ | .resume _ _ (some _) | .leave _ => inferInstanceAs (Decidable True)

def ownSplits : Known := ⟨True, fun _ => True, fun _ => True⟩

theorem SplitsOwn.allows {a : Act F} (h : SplitsOwn s a) : ownSplits.Allows s a := by
  cases a with
  | enter => trivial
  | run lwp t => exact ⟨trivial, fun _ => h⟩
  | signal => trivial
  | resume lwp t error =>
    refine ⟨trivial, fun _ herror => ?_⟩
    subst herror
    exact h
  | leave => trivial

end Users

end NetBSD.Kern.Advlock
