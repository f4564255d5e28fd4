import NetBSD.Kern.Advlock.Edits
import Mathlib.Algebra.Order.Group.Multiset
import Mathlib.Tactic.Abel

/-! What edits of the lock list do to structures and to waiters.

No structure is lost: what was on the list, the lock and the spare are afterwards on the
list, freed, or still the spare (`keys`). No waiter is lost: one that was on an entry is
woken, or is still on an entry of the same owner that covers no less and excludes no
less. -/
namespace NetBSD.Kern.Advlock
open List Option

/-! ### Structures -/

/-- The structures of a list, by some key. -/
def keys {κ : Type} (key : Lockf → κ) (list : List Lockf) : Multiset κ := (list.map key : List κ)

section Keys
variable {κ : Type} {key : Lockf → κ} {lock lf : Lockf} {spare : Option Lockf} {list es freed : List Lockf}
  {woken moved : List Addr} {r : Edited}

@[simp]
theorem keys_nil : keys key [] = 0 := rfl

@[simp]
theorem keys_cons : keys key (lf :: list) = {key lf} + keys key list := rfl

@[simp]
theorem keys_append (a b : List Lockf) : keys key (a ++ b) = keys key a + keys key b := by
  simp [keys]

/-- A key that sees the address and the user of a structure only. -/
def StructKey (key : Lockf → κ) : Prop := ∀ a b : Lockf, a.addr = b.addr → a.lfUid = b.lfUid → key a = key b

theorem Fate.keys_eq (hf : Fate lock lf es woken moved freed) (hkey : StructKey key) : {key lf} = keys key es + keys key freed := by
  cases hf with
  | kept h => simp
  | left => simp [hkey (lock.left lf) lf rfl rfl]
  | right => simp [hkey (lock.right lf) lf rfl rfl]
  | dropped => simp [hkey lf.quiet lf rfl rfl]
  | absorbed => simp [hkey lf.quiet lf rfl rfl]

def SplitBy (lock lf : Lockf) : Prop := lf.lfId = lock.lfId ∧ StartsBefore lock lf ∧ EndsAfter lock lf

instance (lock lf : Lockf) : Decidable (SplitBy lock lf) := inferInstanceAs (Decidable (_ ∧ _ ∧ _))

/-- The spare can stand for the new part of an entry that is split. -/
def SpareFor (key : Lockf → κ) (lock : Lockf) (spare : Option Lockf) (lf : Lockf) : Prop :=
  ∀ sp ∈ spare, key (lock.splitRight lf sp) = key sp

theorem Edits.keys_eq (h : Edits lock spare list r) (hkey : StructKey key)
    (hsplit : ∀ lf ∈ list, SplitBy lock lf → SpareFor key lock spare lf) :
    keys key list + keys key spare.toList = keys key r.list + keys key r.freed + keys key r.spare.toList := by
  induction h with
  | stop h => simp
  | entry hf _ ih =>
    have hrest := ih fun e he => hsplit e (mem_cons_of_mem _ he)
    simp only [Edited.behind, keys_append, keys_cons, hf.keys_eq hkey]
    rw [add_assoc, hrest]
    abel
  | @split lf sp rest hsp hid hl hr h =>
    subst hsp
    have hnew := hsplit lf mem_cons_self ⟨hid, hl, hr⟩ sp rfl
    simp only [keys_cons, hkey (lock.left lf) lf rfl rfl, hnew, toList_some, toList_none, keys_nil]
    abel

theorem not_splitBy (h : NoneBefore lock list) : ∀ lf ∈ list, SplitBy lock lf → SpareFor key lock spare lf := by
  intro lf hlf hsplit
  exact absurd hsplit.2.1 (h lf hlf hsplit.1)

theorem link_keys (h : Edits lock spare list r) (hkey : StructKey key) (hnone : NoneBefore lock list) :
    {key lock} + keys key list + keys key spare.toList =
      keys key (r.link lock).list + keys key (r.link lock).freed + keys key (r.link lock).spare.toList := by
  have hlock : key {lock with lfBlkhd := lock.lfBlkhd ++ r.moved} = key lock := hkey _ _ rfl rfl
  simp only [Edited.link, keys_cons, hlock]
  rw [add_assoc, h.keys_eq hkey (not_splitBy hnone)]
  abel

theorem Sets.keys_eq (h : Sets lock spare list r) (hkey : StructKey key)
    (hsplit : ∀ lf ∈ list, SplitBy lock lf → lf.lfType ≠ lock.lfType → SpareFor key lock spare lf) :
    {key lock} + keys key list + keys key spare.toList = keys key r.list + keys key r.freed + keys key r.spare.toList := by
  induction h with
  | link hnone hr => exact link_keys hr hkey hnone
  | @kept lf rest r _ _ ih =>
    have hrest := ih fun e he => hsplit e (mem_cons_of_mem _ he)
    simp only [Edited.behind, keys_append, keys_cons, keys_nil]
    rw [show {key lock} + ({key lf} + keys key rest) + keys key spare.toList =
      {key lf} + ({key lock} + keys key rest + keys key spare.toList) by abel, hrest]
    abel
  | @left lf rest r hid hap hl hr hnone he =>
    have hrest := link_keys he hkey hnone
    simp only [Edited.behind, keys_append, keys_cons, keys_nil, hkey (lock.left lf) lf rfl rfl]
    rw [show {key lock} + ({key lf} + keys key rest) + keys key spare.toList =
      {key lf} + ({key lock} + keys key rest + keys key spare.toList) by abel, hrest]
    abel
  | @split lf sp rest hsp hid htype hl hr h =>
    subst hsp
    have hnew := hsplit lf mem_cons_self ⟨hid, hl, hr⟩ htype sp rfl
    simp only [keys_cons, hkey (lock.left lf) lf rfl rfl, hnew, toList_some, toList_none, keys_nil]
    abel
  | @retype lf rest ws woken hid hs he hw h =>
    have hsame : key {lf with lfType := lock.lfType, lfBlkhd := ws} = key lf := hkey _ _ rfl rfl
    simp only [keys_cons, keys_nil, hsame]
    abel
  | inside =>
    simp only [keys_cons, keys_nil]
    abel

end Keys

/-! ### Waiters -/

/-- Who waits on the entries of a list. -/
def waiters (list : List Lockf) : Multiset Addr := (list.flatMap Lockf.lfBlkhd : List Addr)

/-- Whoever waits on `a` can wait on `b`: it has the same owner, covers no less and
excludes no less. -/
structure Stronger (a b : Lockf) : Prop where
  id : b.lfId = a.lfId
  within : Within a b
  type : a.lfType = .wrlck → b.lfType = .wrlck

section Waiters
variable {lock lf : Lockf} {spare : Option Lockf} {list es freed : List Lockf} {woken moved : List Addr} {r : Edited}

@[simp]
theorem waiters_nil : waiters [] = 0 := rfl

@[simp]
theorem waiters_cons : waiters (lf :: list) = lf.lfBlkhd + waiters list := by
  simp [waiters]

@[simp]
theorem waiters_append (a b : List Lockf) : waiters (a ++ b) = waiters a + waiters b := by
  simp [waiters]

theorem Fate.waiters_eq (hf : Fate lock lf es woken moved freed) : (lf.lfBlkhd : Multiset Addr) = woken + moved + waiters es := by
  cases hf <;> simp [Lockf.left, Lockf.right, Lockf.quiet]

theorem Edits.waiters_eq (h : Edits lock spare list r) : waiters list = r.woken + r.moved + waiters r.list := by
  induction h with
  | stop h => simp
  | entry hf _ ih =>
    simp only [Edited.behind, waiters_cons, waiters_append, ← Multiset.coe_add, hf.waiters_eq, ih]
    abel
  | split => simp [Lockf.left, Lockf.splitRight, Lockf.right, Lockf.quiet]

theorem link_waiters (h : Edits lock spare list r) (hlock : lock.lfBlkhd = []) : waiters list = (r.link lock).woken + waiters (r.link lock).list := by
  simp only [Edited.link, waiters_cons, hlock, nil_append]
  rw [h.waiters_eq]
  abel

theorem Sets.waiters_eq (h : Sets lock spare list r) (hlock : lock.lfBlkhd = []) : waiters list = r.woken + waiters r.list := by
  induction h with
  | link _ hr => exact link_waiters hr hlock
  | kept _ _ ih =>
    simp only [Edited.behind, singleton_append, nil_append, waiters_cons, ih]
    abel
  | left hid hap hl hr hnone he =>
    simp only [Edited.behind, singleton_append, waiters_cons, link_waiters he hlock, ← Multiset.coe_add]
    abel
  | split => simp [Lockf.left, Lockf.splitRight, Lockf.right, Lockf.quiet, hlock]
  | retype hid hs he hw h =>
    rcases hw with ⟨rfl, rfl⟩ | ⟨rfl, rfl, -⟩ <;> simp
  | inside => simp

theorem stronger_refl (a : Lockf) : Stronger a a := ⟨rfl, within_refl a, id⟩

theorem wrlck_of_not_downgrades (hlock : lock.lfType ≠ .unlck) (hd : ¬downgrades lock lf) : lf.lfType = .wrlck → lock.lfType = .wrlck := by
  intro hlf
  cases ht : lock.lfType with
  | rdlck => exact absurd ⟨ht, hlf⟩ hd
  | unlck => exact absurd ht hlock
  | wrlck => rfl

theorem Fate.waiters_kept (hf : Fate lock lf es woken moved freed) : ∀ e ∈ es, e.lfBlkhd ≠ [] → e = lf := by
  intro e he hne
  cases hf with
  | kept => exact mem_singleton.mp he
  | left =>
    rw [mem_singleton.mp he] at hne
    exact absurd rfl hne
  | right =>
    rw [mem_singleton.mp he] at hne
    exact absurd rfl hne
  | dropped => exact absurd he not_mem_nil
  | absorbed => exact absurd he not_mem_nil

theorem Fate.moved_from (hf : Fate lock lf es woken moved freed) (hlock : lock.lfType ≠ .unlck) :
    ∀ w ∈ moved, w ∈ lf.lfBlkhd ∧ Stronger lf lock := by
  intro w hw
  cases hf with
  | absorbed hid hl hr hd =>
    refine ⟨hw, hid.symm, ?_, wrlck_of_not_downgrades hlock hd⟩
    unfold StartsBefore at hl
    unfold EndsAfter at hr
    unfold Within
    omega
  | _ => exact absurd hw not_mem_nil

theorem Edits.waiters_kept (h : Edits lock spare list r) : ∀ e ∈ r.list, e.lfBlkhd ≠ [] → e ∈ list := by
  induction h with
  | stop h =>
    intro e he _
    exact he
  | entry hf _ ih =>
    intro e he hne
    rcases mem_append.mp he with he | he
    · rw [hf.waiters_kept e he hne]
      exact mem_cons_self
    · exact mem_cons_of_mem _ (ih e he hne)
  | split =>
    intro e he hne
    rcases mem_cons.mp he with rfl | he
    · exact absurd rfl hne
    rcases mem_cons.mp he with rfl | he
    · exact absurd rfl hne
    · exact mem_cons_of_mem _ he

theorem Edits.moved_from (h : Edits lock spare list r) (hlock : lock.lfType ≠ .unlck) :
    ∀ w ∈ r.moved, ∃ e ∈ list, w ∈ e.lfBlkhd ∧ Stronger e lock := by
  induction h with
  | stop h =>
    intro w hw
    exact absurd hw not_mem_nil
  | @entry lf rest es freed woken moved r hf _ ih =>
    intro w hw
    rcases mem_append.mp hw with hw | hw
    · exact ⟨lf, mem_cons_self, hf.moved_from hlock w hw⟩
    · obtain ⟨e, he, hmem⟩ := ih w hw
      exact ⟨e, mem_cons_of_mem _ he, hmem⟩
  | split =>
    intro w hw
    exact absurd hw not_mem_nil

/-- Where a waiter of the new list came from: from the entry that has its lock's address,
or it was moved to the lock. -/
def CameFrom (list : List Lockf) (moved : List Addr) (e' : Lockf) (w : Addr) : Prop :=
  ∃ e ∈ list, w ∈ e.lfBlkhd ∧ Stronger e e' ∧ (e'.addr = e.addr ∨ w ∈ moved)

/-- Where those who were moved are. -/
def MovedTo (lock : Lockf) (list : List Lockf) (w : Addr) : Prop := ∃ lk ∈ list, lk.addr = lock.addr ∧ w ∈ lk.lfBlkhd

theorem cameFrom_self {e : Lockf} {w : Addr} (he : e ∈ list) (hw : w ∈ e.lfBlkhd) : CameFrom list moved e w :=
  ⟨e, he, hw, stronger_refl e, .inl rfl⟩

theorem CameFrom.cons {e : Lockf} {w : Addr} (h : CameFrom list moved e w) : CameFrom (lf :: list) moved e w := by
  obtain ⟨e₀, he₀, hmem⟩ := h
  exact ⟨e₀, mem_cons_of_mem _ he₀, hmem⟩

theorem Edits.cameFrom (h : Edits lock spare list r) : ∀ e ∈ r.list, ∀ w ∈ e.lfBlkhd, CameFrom list moved e w := by
  intro e he w hw
  exact cameFrom_self (h.waiters_kept e he (ne_nil_of_mem hw)) hw

theorem link_cameFrom (h : Edits lock spare list r) (hblk : lock.lfBlkhd = []) (hlock : lock.lfType ≠ .unlck) :
    ∀ e ∈ (r.link lock).list, ∀ w ∈ e.lfBlkhd, CameFrom list r.moved e w := by
  intro e he w hw
  rcases mem_cons.mp he with rfl | he
  · rw [hblk] at hw
    obtain ⟨e₀, he₀, hmem, hs⟩ := h.moved_from hlock w hw
    exact ⟨e₀, he₀, hmem, ⟨hs.id, hs.within, hs.type⟩, .inr hw⟩
  · exact h.cameFrom e he w hw

theorem Sets.cameFrom (h : Sets lock spare list r) (hblk : lock.lfBlkhd = []) (hlock : lock.lfType ≠ .unlck) :
    ∀ e ∈ r.list, ∀ w ∈ e.lfBlkhd, CameFrom list r.moved e w := by
  induction h with
  | link _ hr => exact link_cameFrom hr hblk hlock
  | kept _ _ ih =>
    intro e he w hw
    rcases mem_cons.mp he with rfl | he
    · exact cameFrom_self mem_cons_self hw
    · exact (ih e he w hw).cons
  | left hid hap hl hr hnone he =>
    intro e he' w hw
    rcases mem_cons.mp he' with rfl | he'
    · exact absurd hw not_mem_nil
    · exact (link_cameFrom he hblk hlock e he' w hw).cons
  | split =>
    intro e he w hw
    rcases mem_cons.mp he with rfl | he
    · exact absurd hw not_mem_nil
    rcases mem_cons.mp he with rfl | he
    · rw [hblk] at hw
      exact absurd hw not_mem_nil
    rcases mem_cons.mp he with rfl | he
    · exact absurd hw not_mem_nil
    · exact cameFrom_self (mem_cons_of_mem _ he) hw
  | @retype lf rest ws woken hid hs he hw h =>
    intro e he' w hmem
    rcases mem_cons.mp he' with rfl | he'
    · rcases hw with ⟨rfl, -⟩ | ⟨rfl, -, hd⟩
      · exact absurd hmem not_mem_nil
      · exact ⟨lf, mem_cons_self, hmem, ⟨rfl, within_refl lf, wrlck_of_not_downgrades hlock hd⟩, .inl rfl⟩
    · exact cameFrom_self (mem_cons_of_mem _ he') hmem
  | inside =>
    intro e he w hw
    exact cameFrom_self he hw

theorem Sets.movedTo (h : Sets lock spare list r) : ∀ w ∈ r.moved, MovedTo lock r.list w := by
  induction h with
  | link _ hr =>
    intro w hw
    exact ⟨_, mem_cons_self, rfl, mem_append_right _ hw⟩
  | kept _ _ ih =>
    intro w hw
    obtain ⟨lk, hlk, hmem⟩ := ih w hw
    exact ⟨lk, mem_cons_of_mem _ hlk, hmem⟩
  | left hid hap hl hr hnone he =>
    intro w hw
    exact ⟨_, mem_cons_of_mem _ mem_cons_self, rfl, mem_append_right _ hw⟩
  | _ =>
    intro w hw
    exact absurd hw not_mem_nil

end Waiters

end NetBSD.Kern.Advlock
