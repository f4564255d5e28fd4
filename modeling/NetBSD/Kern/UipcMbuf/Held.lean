import NetBSD.Kern.UipcMbuf.Mbuf
import Mathlib.Algebra.Ring.Nat
import Mathlib.Algebra.BigOperators.Group.List.Basic

/-! Mbufs that share storage.

`Held` says that `refcnt` counts the mbufs of the chain and `out`, those elsewhere. So an mbuf that is not read-only is the only one
with its storage, and writing it leaves the data of all others alone (`Keeps`). -/
namespace NetBSD.Kern.UipcMbuf
open List Function Nat Option
open Lib

section
variable {h h' h'' : Heap} {m n y : Mbuf} {a b chain rest : List Mbuf} {out : Nat → Nat} {i x : Nat} {l : List Byte}

@[simp] theorem length_bytes (h : Heap) (m : Mbuf) : (bytes h m).length = m.len := length_slice _ _ _

theorem chainBytes_cons : chainBytes h (m :: chain) = bytes h m ++ chainBytes h chain := rfl

theorem chainBytes_append : chainBytes h (a ++ b) = chainBytes h a ++ chainBytes h b := flatMap_append

theorem mLength_cons : mLength (m :: chain) = m.len + mLength chain := rfl

theorem mLength_append : mLength (a ++ b) = mLength a + mLength b := by rw [mLength, map_append, sum_append, mLength, mLength]

@[simp] theorem length_chainBytes (h : Heap) (chain : List Mbuf) : (chainBytes h chain).length = mLength chain := by
  induction chain with
  | nil => rfl
  | cons m chain ih => rw [chainBytes_cons, length_append, length_bytes, ih, mLength_cons]

theorem bytes_congr (hbuf : buffer h' m = buffer h m) : bytes h' m = bytes h m := by rw [bytes, hbuf, bytes]

theorem chainBytes_congr (hbuf : ∀ y ∈ chain, buffer h' y = buffer h y) : chainBytes h' chain = chainBytes h chain :=
  congrArg flatten (map_congr_left fun y hy => bytes_congr (hbuf y hy))

/-! ### References -/

def uses (x : Nat) (chain : List Mbuf) : Nat := chain.countP fun m => decide (m.ref = some x)

theorem uses_cons : uses x (m :: chain) = uses x chain + if m.ref = some x then 1 else 0 := by
  rw [uses, countP_cons]
  simp only [decide_eq_true_eq]
  rfl

theorem uses_append : uses x (a ++ b) = uses x a + uses x b := countP_append

theorem uses_eq_zero : uses x chain = 0 ↔ ∀ y ∈ chain, y.ref ≠ some x := by
  rw [uses]
  simp

structure Held (h : Heap) (out : Nat → Nat) (chain : List Mbuf) : Prop where
  refcnt : ∀ x < h.fresh, (h.ext x).refcnt = out x + uses x chain
  valid : ∀ m ∈ chain, ∀ x, m.ref = some x → x < h.fresh
  fresh : ∀ x, h.fresh ≤ x → out x = 0

/-- What is done to one mbuf of a chain does to the others, and to storage that is used elsewhere. -/
structure Keeps (h h' : Heap) (out : Nat → Nat) (others : List Mbuf) : Prop where
  buffer : ∀ y ∈ others, UipcMbuf.buffer h' y = UipcMbuf.buffer h y
  writable : ∀ y ∈ others, readonly h y = false → readonly h' y = false
  shared : ∀ x, 0 < out x → (h'.ext x).buf = (h.ext x).buf

theorem Keeps.refl (h : Heap) (out : Nat → Nat) (chain : List Mbuf) : Keeps h h out chain := ⟨fun _ _ => rfl, fun _ _ => id, fun _ _ => rfl⟩

theorem Keeps.trans (hk : Keeps h h' out chain) (hk' : Keeps h' h'' out chain) : Keeps h h'' out chain where
  buffer := fun y hy => (hk'.buffer y hy).trans (hk.buffer y hy)
  writable := fun y hy hw => hk'.writable y hy (hk.writable y hy hw)
  shared := fun x hx => (hk'.shared x hx).trans (hk.shared x hx)

theorem Keeps.subset (hk : Keeps h h' out chain) (hsub : ∀ y ∈ a, y ∈ chain) : Keeps h h' out a where
  buffer := fun y hy => hk.buffer y (hsub y hy)
  writable := fun y hy => hk.writable y (hsub y hy)
  shared := hk.shared

theorem Keeps.left (hk : Keeps h h' out (a ++ b)) : Keeps h h' out a := hk.subset fun _ => mem_append_left b

theorem Keeps.right (hk : Keeps h h' out (a ++ b)) : Keeps h h' out b := hk.subset fun _ => mem_append_right a

theorem Keeps.chainBytes (hk : Keeps h h' out chain) : UipcMbuf.chainBytes h' chain = UipcMbuf.chainBytes h chain :=
  chainBytes_congr hk.buffer

theorem Held.congr (hheld : Held h out chain) (huses : ∀ x, uses x a = uses x chain) : Held h out a where
  refcnt := fun x hx => by rw [huses, hheld.refcnt x hx]
  valid := by
    intro m hm x hx
    by_contra hlt
    have hnone : uses x chain = 0 := uses_eq_zero.mpr fun y hy href => hlt (hheld.valid y hy x href)
    exact uses_eq_zero.mp ((huses x).trans hnone) m hm hx
  fresh := hheld.fresh

theorem uses_mid (href : n.ref = m.ref) (x : Nat) : uses x (a ++ n :: b) = uses x (a ++ m :: b) := by
  rw [uses_append, uses_append, uses_cons, uses_cons, href]

theorem Held.replace (hheld : Held h out (a ++ m :: b)) (href : n.ref = m.ref) : Held h out (a ++ n :: b) := hheld.congr (uses_mid href)

theorem Held.insert (hheld : Held h out (a ++ b)) (href : n.ref = none) : Held h out (a ++ n :: b) := by
  refine hheld.congr fun x => ?_
  rw [uses_append, uses_append, uses_cons, href, if_neg (by simp), add_zero]

theorem Held.sole (hheld : Held h out (a ++ m :: b)) (hw : readonly h m = false) (href : m.ref = some x) :
    (∀ y ∈ a ++ b, y.ref ≠ some x) ∧ out x = 0 := by
  have hlt := hheld.valid m (mem_append_right _ mem_cons_self) x href
  have hcount := hheld.refcnt x hlt
  have hone : (h.ext x).refcnt ≤ 1 := by
    unfold readonly at hw
    unfold Mbuf.ref at href
    split at href
    · cases href
    · next hstore =>
      obtain rfl := some.inj href
      rw [hstore] at hw
      rw [Bool.or_eq_false_iff] at hw
      exact Nat.le_of_not_lt (of_decide_eq_false hw.2)
  rw [uses_append, uses_cons, if_pos href] at hcount
  refine ⟨uses_eq_zero.mp ?_, by omega⟩
  rw [uses_append]
  omega

theorem readonly_eq_of_refcnt (hcount : ∀ x, y.ref = some x → (h'.ext x).refcnt ≤ (h.ext x).refcnt) (hw : readonly h y = false) :
    readonly h' y = false := by
  unfold readonly at hw ⊢
  cases hstore : y.store with
  | dat buf => rfl
  | ext x romap rw =>
    rw [hstore] at hw
    rw [Bool.or_eq_false_iff] at hw ⊢
    have hle := hcount x (by rw [Mbuf.ref, hstore])
    exact ⟨hw.1, decide_eq_false (by have := of_decide_eq_false hw.2; omega)⟩

theorem readonly_eq (hext : ∀ x, y.ref = some x → h'.ext x = h.ext x) : readonly h' y = readonly h y := by
  unfold readonly
  cases hstore : y.store with
  | dat buf => rfl
  | ext x romap rw =>
    dsimp only
    rw [hext x (by rw [Mbuf.ref, hstore])]

theorem buffer_eq (hbuf : ∀ x, y.ref = some x → (h'.ext x).buf = (h.ext x).buf) : buffer h' y = buffer h y := by
  unfold buffer
  cases hstore : y.store with
  | dat buf => rfl
  | ext x romap rw => exact hbuf x (by rw [Mbuf.ref, hstore])

/-! ### Writing -/

structure Written (h : Heap) (m : Mbuf) (i : Nat) (l : List Byte) (h' : Heap) (m' : Mbuf) : Prop where
  type : m'.type = m.type
  data : m'.data = m.data
  len : m'.len = m.len
  pkthdr : m'.pkthdr = m.pkthdr
  ref : m'.ref = m.ref
  buffer : UipcMbuf.buffer h' m' = poke (UipcMbuf.buffer h m) (m.data + i) l
  readonly : UipcMbuf.readonly h' m' = UipcMbuf.readonly h m

theorem write_written (h : Heap) (m : Mbuf) (i : Nat) (l : List Byte) : Written h m i l (write h m i l).1 (write h m i l).2 := by
  unfold write
  cases hstore : m.store with
  | dat buf =>
    refine ⟨rfl, rfl, rfl, rfl, ?_, ?_, ?_⟩
    · rw [Mbuf.ref, Mbuf.ref, hstore]
    · rw [buffer, buffer, hstore]
    · rw [readonly, readonly, hstore]
  | ext x romap rw =>
    refine ⟨rfl, rfl, rfl, rfl, rfl, ?_, ?_⟩
    · rw [buffer, buffer, hstore]
      dsimp only
      rw [update_self]
    · simp [readonly, hstore, update_self]

theorem write_refcnt (h : Heap) (m : Mbuf) (i : Nat) (l : List Byte) (x : Nat) :
    ((write h m i l).1.ext x).refcnt = (h.ext x).refcnt ∧ (m.ref ≠ some x → ((write h m i l).1.ext x).buf = (h.ext x).buf) := by
  unfold write
  cases hstore : m.store with
  | dat buf => exact ⟨rfl, fun _ => rfl⟩
  | ext z romap rw =>
    dsimp only
    by_cases hx : x = z
    · subst hx
      rw [update_self]
      exact ⟨rfl, fun hne => absurd (by rw [Mbuf.ref, hstore]) hne⟩
    · rw [update_of_ne hx]
      exact ⟨rfl, fun _ => rfl⟩

theorem write_fresh (h : Heap) (m : Mbuf) (i : Nat) (l : List Byte) : (write h m i l).1.fresh = h.fresh := by
  unfold write
  split <;> rfl

theorem Held.write (hheld : Held h out (a ++ m :: b)) (hw : readonly h m = false) (i : Nat) (l : List Byte) :
    Held (write h m i l).1 out (a ++ (UipcMbuf.write h m i l).2 :: b) ∧ Keeps h (UipcMbuf.write h m i l).1 out (a ++ b) := by
  have hwritten := write_written h m i l
  refine ⟨⟨fun x hx => ?_, fun y hy x hx => ?_, fun x hx => ?_⟩, ⟨fun y hy => ?_, fun y hy => ?_, fun x hx => ?_⟩⟩
  · rw [write_fresh] at hx
    rw [(write_refcnt h m i l x).1, hheld.refcnt x hx, uses_mid hwritten.ref]
  · rw [write_fresh]
    rw [mem_append, mem_cons] at hy
    obtain hy | rfl | hy := hy
    · exact hheld.valid y (mem_append_left _ hy) x hx
    · exact hheld.valid m (mem_append_right _ mem_cons_self) x (hwritten.ref ▸ hx)
    · exact hheld.valid y (mem_append_right _ (mem_cons_of_mem _ hy)) x hx
  · rw [write_fresh] at hx
    exact hheld.fresh x hx
  · exact buffer_eq fun x hx => (write_refcnt h m i l x).2 fun href => (hheld.sole hw href).1 y hy hx
  · exact readonly_eq_of_refcnt fun x _ => le_of_eq (write_refcnt h m i l x).1
  · refine (write_refcnt h m i l x).2 fun href => ?_
    rw [(hheld.sole hw href).2] at hx
    exact lt_irrefl 0 hx

theorem write_nil (h : Heap) (m : Mbuf) (i : Nat) : write h m i [] = (h, m) := by
  have hpoke (b : Nat → Byte) (j : Nat) : poke b j [] = b := funext fun k => poke_of_out (Nat.lt_or_ge k j)
  obtain ⟨type, data, len, pkthdr, store⟩ := m
  cases store with
  | dat buf => exact congrArg (fun b => (h, (⟨type, data, len, pkthdr, .dat b⟩ : Mbuf))) (hpoke buf (data + i))
  | ext x romap rw =>
    unfold write
    dsimp only
    rw [hpoke, update_eq_self]

/-- What an mbuf that may have been written is. -/
structure MayWritten (p : Bool) (h : Heap) (m : Mbuf) (i : Nat) (l : List Byte) (out : Nat → Nat) (a b : List Mbuf) (h' : Heap) (m' : Mbuf) :
    Prop where
  held : Held h' out (a ++ m' :: b)
  keeps : Keeps h h' out (a ++ b)
  data : m'.data = m.data
  len : m'.len = m.len
  pkthdr : m'.pkthdr = m.pkthdr
  readonly : UipcMbuf.readonly h' m' = UipcMbuf.readonly h m
  buffer : UipcMbuf.buffer h' m' = if p then poke (UipcMbuf.buffer h m) (m.data + i) l else UipcMbuf.buffer h m

theorem Held.mayWrite (hheld : Held h out (a ++ m :: b)) (hw : readonly h m = false ∨ l = []) (p : Bool) :
    MayWritten p h m i l out a b (if p then UipcMbuf.write h m i l else (h, m)).1 (if p then UipcMbuf.write h m i l else (h, m)).2 := by
  cases p with
  | false => exact ⟨hheld, Keeps.refl _ _ _, rfl, rfl, rfl, rfl, rfl⟩
  | true =>
    have hwritten := write_written h m i l
    obtain ⟨hheld', hkeeps⟩ : Held (UipcMbuf.write h m i l).1 out (a ++ (UipcMbuf.write h m i l).2 :: b) ∧
        Keeps h (UipcMbuf.write h m i l).1 out (a ++ b) := by
      obtain hw | rfl := hw
      · exact hheld.write hw i l
      · rw [write_nil]
        exact ⟨hheld, Keeps.refl _ _ _⟩
    exact ⟨hheld', hkeeps, hwritten.data, hwritten.len, hwritten.pkthdr, hwritten.readonly, hwritten.buffer⟩

/-! ### Clusters and references -/

theorem Held.mClget (hheld : Held h out (a ++ m :: b)) (href : m.ref = none) (junk : Nat → Byte) :
    Held (mClget h m junk).1 out (a ++ (UipcMbuf.mClget h m junk).2 :: b) ∧ Keeps h (UipcMbuf.mClget h m junk).1 out (a ++ b) ∧
      readonly (UipcMbuf.mClget h m junk).1 (UipcMbuf.mClget h m junk).2 = false := by
  have hold : ∀ x < h.fresh, (UipcMbuf.mClget h m junk).1.ext x = h.ext x := fun x hx => update_of_ne (by omega) _ _
  have hnone : ∀ y ∈ a ++ b, y.ref ≠ some h.fresh := by
    intro y hy hyref
    refine lt_irrefl _ (hheld.valid y ?_ _ hyref)
    rw [mem_append] at hy ⊢
    exact hy.imp_right (mem_cons_of_mem _)
  have hvalid : ∀ y ∈ a ++ b, ∀ x, y.ref = some x → x < h.fresh := by
    intro y hy x hx
    refine hheld.valid y ?_ x hx
    rw [mem_append] at hy ⊢
    exact hy.imp_right (mem_cons_of_mem _)
  refine ⟨⟨fun x hx => ?_, fun y hy x hx => ?_, fun x hx => hheld.fresh x (le_of_succ_le hx)⟩,
    ⟨fun y hy => ?_, fun y hy => ?_, fun x hx => ?_⟩, ?_⟩
  · have hx' : x ≤ h.fresh := le_of_lt_succ hx
    rw [uses_append, uses_cons]
    by_cases hne : x = h.fresh
    · subst hne
      have ha := uses_eq_zero.mpr fun y hy => hnone y (mem_append_left b hy)
      have hb := uses_eq_zero.mpr fun y hy => hnone y (mem_append_right a hy)
      rw [ha, hb, hheld.fresh _ (le_refl _)]
      show (update h.ext h.fresh ⟨1, junk, MCLBYTES⟩ h.fresh).refcnt = 0 + (0 + (0 + if some h.fresh = some h.fresh then 1 else 0))
      rw [update_self, if_pos rfl]
    · rw [hold x (by omega), hheld.refcnt x (by omega), uses_append, uses_cons, href, if_neg (by simp)]
      show _ = out x + (uses x a + (uses x b + if some h.fresh = some x then 1 else 0))
      rw [if_neg fun heq => hne (some.inj heq).symm]
  · rw [mem_append, mem_cons] at hy
    obtain hy | rfl | hy := hy
    · exact lt_succ_of_lt (hvalid y (mem_append_left _ hy) x hx)
    · rw [← some.inj hx]
      exact lt_succ_self _
    · exact lt_succ_of_lt (hvalid y (mem_append_right _ hy) x hx)
  · exact buffer_eq fun x hx => by rw [hold x (hvalid y hy x hx)]
  · exact readonly_eq_of_refcnt fun x hx => by rw [hold x (hvalid y hy x hx)]
  · by_cases hlt : x < h.fresh
    · rw [hold x hlt]
    · rw [hheld.fresh x (by omega)] at hx
      exact absurd hx (lt_irrefl 0)
  · simp only [UipcMbuf.mClget, readonly, update_self]
    rfl

/-- What an mbuf that may have got a cluster is. -/
structure Clustered (h : Heap) (m : Mbuf) (h' : Heap) (m' : Mbuf) (out : Nat → Nat) (a b : List Mbuf) : Prop where
  held : Held h' out (a ++ m' :: b)
  keeps : Keeps h h' out (a ++ b)
  len : m'.len = m.len
  type : m'.type = m.type
  pkthdr : m'.pkthdr = m.pkthdr
  bytes : UipcMbuf.bytes h' m' = UipcMbuf.bytes h m
  readonly : UipcMbuf.readonly h m = false → UipcMbuf.readonly h' m' = false

theorem Held.mayClget (hheld : Held h out (a ++ m :: b)) (want : Bool) (hwant : want = true → m.ref = none ∧ m.len = 0)
    (junk : Nat → Byte) : Clustered h m (mayClget h m want junk).1 (UipcMbuf.mayClget h m want junk).2 out a b := by
  cases want with
  | false => exact ⟨hheld, Keeps.refl _ _ _, rfl, rfl, rfl, rfl, id⟩
  | true =>
    obtain ⟨href, hlen⟩ := hwant rfl
    obtain ⟨hheld', hkeeps, hro⟩ := hheld.mClget href junk
    refine ⟨hheld', hkeeps, rfl, rfl, rfl, ?_, fun _ => hro⟩
    show slice _ _ m.len = slice _ _ m.len
    rw [hlen, slice_zero, slice_zero]

theorem mayClget_ext (h : Heap) (m : Mbuf) (want : Bool) (junk : Nat → Byte) (hx : x < h.fresh) : (mayClget h m want junk).1.ext x = h.ext x := by
  cases want with
  | false => rfl
  | true => exact update_of_ne (by omega) _ _

theorem setRefcnt_buf (h : Heap) (x n z : Nat) : ((setRefcnt h x n).ext z).buf = (h.ext z).buf := by
  unfold setRefcnt
  by_cases hz : z = x
  · rw [hz]
    dsimp only
    rw [update_self]
  · dsimp only
    rw [update_of_ne hz]

theorem setRefcnt_refcnt (h : Heap) (x n z : Nat) : ((setRefcnt h x n).ext z).refcnt = if z = x then n else (h.ext z).refcnt := by
  unfold setRefcnt
  dsimp only
  by_cases hz : z = x
  · rw [if_pos hz, hz, update_self]
  · rw [if_neg hz, update_of_ne hz]

/-- An mbuf that shares the storage of a read-only one is added. -/
theorem Held.addReference (hheld : Held h out (a ++ m :: b)) (hro : readonly h m = true) (href : n.ref = m.ref) {m' : Mbuf} (hm : m'.ref = m.ref) :
    Held (addReference h m) out (a ++ m' :: n :: b) ∧ Keeps h (UipcMbuf.addReference h m) out (a ++ b) ∧
      ∀ y, buffer (UipcMbuf.addReference h m) y = buffer h y := by
  cases hstore : m.store with
  | dat buf =>
    rw [readonly, hstore] at hro
    cases hro
  | ext z romap rw =>
    have hz : m.ref = some z := by rw [Mbuf.ref, hstore]
    have hadd : UipcMbuf.addReference h m = setRefcnt h z ((h.ext z).refcnt + 1) := by rw [UipcMbuf.addReference, hstore]
    rw [hadd]
    have hlt := hheld.valid m (mem_append_right _ mem_cons_self) z hz
    have hbuf : ∀ y, buffer (setRefcnt h z ((h.ext z).refcnt + 1)) y = buffer h y := fun y => buffer_eq fun x _ => setRefcnt_buf _ _ _ x
    refine ⟨⟨fun x hx => ?_, fun y hy x hx => ?_, hheld.fresh⟩, ⟨fun y _ => hbuf y, fun y hy hw => ?_, fun x _ => setRefcnt_buf _ _ _ x⟩, hbuf⟩
    · have hcount := hheld.refcnt x hx
      rw [uses_append, uses_cons, hz] at hcount
      rw [setRefcnt_refcnt, uses_append, uses_cons, uses_cons, href, hm, hz]
      by_cases hxz : x = z
      · rw [if_pos hxz]
        rw [hxz] at hcount ⊢
        rw [if_pos rfl] at hcount ⊢
        omega
      have hne : ¬some z = some x := fun heq => hxz (some.inj heq).symm
      rw [if_neg hne] at hcount ⊢
      rw [if_neg hxz]
      exact hcount
    · rw [mem_append, mem_cons, mem_cons] at hy
      obtain hy | rfl | rfl | hy := hy
      · exact hheld.valid y (mem_append_left _ hy) x hx
      · rw [hm, hz] at hx
        rwa [← some.inj hx]
      · rw [href, hz] at hx
        rwa [← some.inj hx]
      · exact hheld.valid y (mem_append_right _ (mem_cons_of_mem _ hy)) x hx
    · refine readonly_eq_of_refcnt (fun x hx => ?_) hw
      rw [setRefcnt_refcnt]
      by_cases hxz : x = z
      -- The storage of a writable mbuf is not that of another.
      · rw [hxz] at hx
        obtain ⟨c, d, hsplit⟩ := append_of_mem hy
        have hheld' : Held h out (m :: c ++ y :: d) := by
          refine hheld.congr fun x => ?_
          rw [cons_append, ← hsplit, uses_cons, uses_append, uses_append, uses_cons, add_assoc]
        exact absurd hz ((hheld'.sole hw hx).1 m (mem_append_left _ mem_cons_self))
      · rw [if_neg hxz]

theorem Held.mFree (hheld : Held h out (a ++ m :: b)) : Held (mFree h m) out (a ++ b) := by
  have hvalid : ∀ y ∈ a ++ b, ∀ x, y.ref = some x → x < h.fresh := by
    intro y hy x hx
    refine hheld.valid y ?_ x hx
    rw [mem_append] at hy ⊢
    exact hy.imp_right (mem_cons_of_mem _)
  unfold UipcMbuf.mFree
  cases hstore : m.store with
  | dat buf =>
    refine hheld.congr fun x => ?_
    rw [uses_append, uses_append, uses_cons, if_neg (by rw [Mbuf.ref, hstore]; simp), add_zero]
  | ext z romap rw =>
    have hz : m.ref = some z := by rw [Mbuf.ref, hstore]
    refine ⟨fun x hx => ?_, hvalid, hheld.fresh⟩
    have hcount := hheld.refcnt x hx
    rw [uses_append, uses_cons, hz] at hcount
    rw [setRefcnt_refcnt, uses_append]
    by_cases hxz : x = z
    · rw [hxz, if_pos rfl] at hcount
      rw [if_pos hxz, hxz]
      omega
    · rw [if_neg fun heq => hxz (some.inj heq).symm] at hcount
      rw [if_neg hxz]
      exact hcount

theorem mFree_same (h : Heap) (m : Mbuf) (x : Nat) : ((mFree h m).ext x).buf = (h.ext x).buf ∧ ((mFree h m).ext x).refcnt ≤ (h.ext x).refcnt := by
  unfold mFree
  split
  · exact ⟨rfl, le_refl _⟩
  refine ⟨setRefcnt_buf _ _ _ x, ?_⟩
  rw [setRefcnt_refcnt]
  split
  · next hx =>
    rw [hx]
    exact sub_le _ _
  · exact le_refl _

theorem mFree_keeps (h : Heap) (m : Mbuf) (out : Nat → Nat) (chain : List Mbuf) : Keeps h (mFree h m) out chain where
  buffer := fun _ _ => buffer_eq fun x _ => (mFree_same h m x).1
  writable := fun _ _ => readonly_eq_of_refcnt fun x _ => (mFree_same h m x).2
  shared := fun x _ => (mFree_same h m x).1

end

end NetBSD.Kern.UipcMbuf
