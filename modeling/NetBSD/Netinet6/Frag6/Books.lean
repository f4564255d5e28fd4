import Mathlib.Data.List.TakeWhile
import NetBSD.Netinet6.Frag6.Input

/-! The counts of IPv6 reassembly.

`frag6_nfragpackets` counts queues, `frag6_nfrags` fragments, and each queue counts its own. Three kinds of fragments put the
counts out, or leave a queue without a fragment (`Leaks`); without them the books are exact in every state (`books_exact`), and
the loop that drains queues by the count does not come to the list head. -/
namespace NetBSD.Netinet6.Frag6
open List
open Lib

/-- Sorted, and not overlapping. -/
def Precedes (a b : Asfrag) : Prop := a.off ≤ b.off ∧ a.stop ≤ b.off

variable {s s' : Reass6} {q6 q6' : Queue} {m : Chain} {h : Header} {offset : Nat} {alloc : Alloc} {ipsecflags : BitVec 2}
  {ip6af : Asfrag} {frags frags' : List Asfrag}

theorem stop_le_of_getLast {before : List Asfrag} {off : Nat} (horder : before.Pairwise Precedes)
    (hoff : ∀ a ∈ before, a.off ≤ off) (hlast : ∀ up ∈ before.getLast?, up.stop ≤ off) : ∀ a ∈ before, a.stop ≤ off := by
  induction before with
  | nil => exact fun _ ha => nomatch ha
  | cons a rest ih =>
    obtain ⟨ha, hrest⟩ := pairwise_cons.mp horder
    cases rest with
    | nil => exact fun b hb => hlast b (mem_singleton.mp hb ▸ rfl)
    | cons b rest =>
      have hlater := ih hrest (fun c hc => hoff c (mem_cons_of_mem _ hc)) hlast
      refine forall_mem_cons.mpr ⟨?_, hlater⟩
      have hab := (ha b mem_cons_self).2
      have hb := hoff b (mem_cons_of_mem _ mem_cons_self)
      omega

theorem off_le_of_head {after : List Asfrag} {n : Int} (horder : after.Pairwise Precedes) (hhead : ∀ a ∈ after.head?, n ≤ a.off) :
    ∀ a ∈ after, n ≤ a.off := by
  cases after with
  | nil => exact fun _ ha => nomatch ha
  | cons b rest =>
    have hb : n ≤ b.off := hhead b rfl
    refine forall_mem_cons.mpr ⟨hb, fun a ha => ?_⟩
    have hba := ((pairwise_cons.mp horder).1 a ha).1
    omega

theorem place_eq_some (h : place ip6af frags = some frags') : ∃ before after, frags = before ++ after ∧
    frags' = before ++ ip6af :: after ∧ (∀ a ∈ before, a.off ≤ ip6af.off) ∧ (∀ a ∈ after.head?, ip6af.off < a.off) ∧
    (∀ up ∈ before.getLast?, up.stop ≤ ip6af.off) ∧ ∀ a ∈ after.head?, ip6af.stop ≤ a.off := by
  simp only [place] at h
  split at h
  · cases h
  · next hclear =>
    rw [not_or] at hclear
    refine ⟨_, _, (takeWhile_append_dropWhile (p := fun a => a.off ≤ ip6af.off)).symm, (Option.some.inj h).symm, ?_, ?_, ?_, ?_⟩
    · intro a ha
      exact of_decide_eq_true (mem_takeWhile_imp (p := fun a : Asfrag => decide (a.off ≤ ip6af.off)) ha)
    · intro a ha
      have hhead := head?_dropWhile_not (fun a : Asfrag => decide (a.off ≤ ip6af.off)) frags
      rw [ha] at hhead
      simpa using hhead
    · intro up hup
      have hle : ¬ up.stop - ip6af.off > 0 := fun hgt => hclear.1 ⟨up, hup, hgt⟩
      omega
    · intro a ha
      have hle : ¬ ip6af.stop - a.off > 0 := fun hgt => hclear.2 ⟨a, ha, hgt⟩
      omega

theorem place_sorted (horder : frags.Pairwise Precedes) (h : place ip6af frags = some frags') : frags'.Pairwise Precedes := by
  obtain ⟨before, after, rfl, rfl, hbefore, hafter, hup, hdown⟩ := place_eq_some h
  obtain ⟨hb, ha, hba⟩ := pairwise_append.mp horder
  have hstop := stop_le_of_getLast hb hbefore hup
  have hoff : ∀ a ∈ after, (ip6af.off : Int) ≤ a.off := off_le_of_head ha fun a ha => Int.ofNat_le.mpr (le_of_lt (hafter a ha))
  have hend := off_le_of_head ha hdown
  refine pairwise_append.mpr ⟨hb, pairwise_cons.mpr ⟨fun a ha => ?_, ha⟩, fun a ha b hb => ?_⟩
  · exact ⟨Int.ofNat_le.mp (hoff a ha), hend a ha⟩
  obtain rfl | hb := mem_cons.mp hb
  · exact ⟨hbefore a ha, hstop a ha⟩
  · exact hba a ha b hb

theorem place_length (h : place ip6af frags = some frags') : frags'.length = frags.length + 1 := by
  obtain ⟨before, after, rfl, rfl, -⟩ := place_eq_some h
  simp only [length_append, length_cons]
  rfl

/-! ### The counts -/

structure QueueOk (q6 : Queue) : Prop where
  nfrag : q6.nfrag = q6.frags.length
  sorted : q6.frags.Pairwise Precedes

/-- The fragments on all queues. -/
def fragsOf (queues : List Queue) : Nat := (queues.map fun q6 => q6.frags.length).sum

theorem fragsOf_append (a b : List Queue) : fragsOf (a ++ b) = fragsOf a + fragsOf b := by
  rw [fragsOf, map_append, sum_append, fragsOf, fragsOf]

theorem fragsOf_cons (q6 : Queue) (rest : List Queue) : fragsOf (q6 :: rest) = q6.frags.length + fragsOf rest := by
  rw [fragsOf, map_cons, sum_cons, fragsOf]

/-- The books, but that a queue may be empty. -/
structure Inv (s : Reass6) : Prop where
  packets : s.nfragpackets = s.queues.length
  frags : s.nfrags = fragsOf s.queues
  ok : ∀ q6 ∈ s.queues, QueueOk q6
  head : s.headFreed = false

theorem Inv.put (h : Inv s) (hfind : s.findQueue q6.key = some q6) (hkey : q6'.key = q6.key) (hok : QueueOk q6') {d : Nat}
    (hlen : q6'.frags.length = q6.frags.length + d) : Inv ({ s with nfrags := s.nfrags + d }.put q6') := by
  obtain ⟨pre, post, hsplit, -, hput⟩ := Keyed.put_split hfind
  have hqueues : ({ s with nfrags := s.nfrags + d }.put q6').queues = pre ++ q6' :: post := by
    change Keyed.put Queue.key q6'.key (some q6') s.queues = _
    rw [hkey, hput]
    rfl
  have hold := h.ok
  rw [hsplit] at hold
  refine ⟨?_, ?_, ?_, h.head⟩
  · have hpackets := h.packets
    rw [hsplit, length_append] at hpackets
    rw [hqueues, length_append]
    exact hpackets
  · have hfrags := h.frags
    rw [hsplit, fragsOf_append, fragsOf_cons] at hfrags
    rw [hqueues, fragsOf_append, fragsOf_cons]
    change s.nfrags + d = _
    omega
  rw [hqueues]
  intro x hx
  obtain hx | hx := mem_append.mp hx
  · exact hold x (mem_append_left _ hx)
  obtain rfl | hx := mem_cons.mp hx
  · exact hok
  · exact hold x (mem_append_right _ (mem_cons_of_mem _ hx))

theorem Inv.uncount {pre post : List Queue} (h : Inv s) (hsplit : s.queues = pre ++ q6 :: post) :
    Inv ({ s with queues := pre ++ post }.uncount q6) := by
  have hold := h.ok
  have hpackets := h.packets
  have hfrags := h.frags
  rw [hsplit] at hold
  rw [hsplit, length_append, length_cons] at hpackets
  rw [hsplit, fragsOf_append, fragsOf_cons, ← (hold q6 (mem_append_right _ mem_cons_self)).nfrag] at hfrags
  refine ⟨?_, ?_, fun x hx => ?_, h.head⟩
  · change s.nfragpackets - 1 = (pre ++ post).length
    rw [length_append]
    omega
  · change s.nfrags - q6.nfrag = fragsOf (pre ++ post)
    rw [fragsOf_append]
    omega
  · obtain hx | hx := mem_append.mp hx
    · exact hold x (mem_append_left _ hx)
    · exact hold x (mem_append_right _ (mem_cons_of_mem _ hx))

theorem Inv.remque (h : Inv s) (hfind : s.findQueue q6.key = some q6) : Inv (frag6Remque s q6) := by
  obtain ⟨pre, post, hsplit, -, hput⟩ := Keyed.put_split hfind
  have hqueues : Keyed.put Queue.key q6.key none s.queues = pre ++ post := hput none
  rw [frag6Remque, hqueues]
  exact h.uncount hsplit

theorem first_same (q6 : Queue) (h : Header) (offset : Nat) : (q6.first h offset).key = q6.key ∧
    (q6.first h offset).nfrag = q6.nfrag ∧ (q6.first h offset).frags = q6.frags := by
  rw [Queue.first]
  split
  · exact ⟨rfl, rfl, rfl⟩
  · exact ⟨rfl, rfl, rfl⟩

theorem recheck_key (q6 : Queue) (h : Header) : (q6.recheck h).key = q6.key := by
  rw [Queue.recheck]
  split <;> rfl

theorem find_put {key : Key} (hfind : s.findQueue key = some q6) (hkey : q6'.key = key) : (s.put q6').findQueue q6'.key = some q6' := by
  obtain rfl := hkey
  exact Keyed.find_put_self hfind rfl

theorem Inv.finish (hinv : Inv s) (hfind : s.findQueue q6.key = some q6) (hkey : q6'.key = q6.key) (hok : QueueOk q6')
    (hlen : q6'.frags.length = q6.frags.length + 1) : Inv (finish { s with nfrags := s.nfrags + 1 } q6' alloc).2 := by
  have hput := hinv.put hfind hkey hok hlen
  have hfound : ({ s with nfrags := s.nfrags + 1 }.put q6').findQueue q6'.key = some q6' :=
    find_put (s := { s with nfrags := s.nfrags + 1 }) hfind hkey
  rw [Frag6.finish]
  split
  · exact hput.remque hfound
  · exact hput

theorem Inv.enter (hinv : Inv s) (hfind : s.findQueue q6.key = some q6)
    (hkeeps : (q6.first h offset).recheck h = q6.first h offset) : Inv (enter s q6 m h offset alloc).2 := by
  obtain ⟨hkey, hnfrag, hfrags⟩ := first_same q6 h offset
  have hold : QueueOk q6 := hinv.ok q6 (mem_of_find?_eq_some hfind)
  have hok : QueueOk (q6.first h offset) := ⟨by rw [hnfrag, hfrags, hold.nfrag], by rw [hfrags]; exact hold.sorted⟩
  have hput : Inv (s.put (q6.first h offset)) := hinv.put (d := 0) hfind hkey hok (by rw [hfrags]; rfl)
  simp only [Frag6.enter, hkeeps]
  split
  · exact hput
  split
  · exact hput
  split
  · exact hput
  · next frags hplace =>
    have hlen : frags.length = q6.frags.length + 1 := by rw [place_length hplace, hfrags]
    refine hinv.finish hfind hkey ⟨?_, place_sorted hok.sorted hplace⟩ hlen
    rw [hlen, hnfrag, hold.nfrag]

/-- What is left of the queue has fragments, when it had one before or the fragment is not refused. -/
theorem enter_queues (hfind : s.findQueue q6.key = some q6) (hkeeps : (q6.first h offset).recheck h = q6.first h offset)
    (hne : q6.frags ≠ [] ∨ ¬(q6.first h offset).exceeds h.fragoff (newAsfrag m h offset).frglen ∧ alloc.af6 = true) :
    ∃ new : Option Queue, (enter s q6 m h offset alloc).2.queues = Keyed.put Queue.key q6.key new s.queues ∧ ∀ x ∈ new, x.frags ≠ [] := by
  obtain ⟨hkey, -, hfrags⟩ := first_same q6 h offset
  have hput {t : Reass6} (ht : t.queues = s.queues) {x : Queue} (hx : x.key = q6.key) (hxne : x.frags ≠ []) :
      ∃ new : Option Queue, (t.put x).queues = Keyed.put Queue.key q6.key new s.queues ∧ ∀ x ∈ new, x.frags ≠ [] := by
    refine ⟨some x, ?_, fun y hy => Option.some.inj hy ▸ hxne⟩
    rw [Reass6.put, ht, hx]
  have hnonempty (hold : q6.frags ≠ []) : (q6.first h offset).frags ≠ [] := by rwa [hfrags]
  simp only [Frag6.enter, hkeeps]
  split
  · next hexceeds =>
    obtain hold | hnew := hne
    · exact hput rfl hkey (hnonempty hold)
    · exact absurd hexceeds hnew.1
  split
  · next haf6 =>
    obtain hold | hnew := hne
    · exact hput rfl hkey (hnonempty hold)
    · rw [hnew.2] at haf6
      cases haf6
  split
  · next hplace =>
    apply hput rfl hkey
    intro hnil
    rw [hnil] at hplace
    cases hplace
  · next frags hplace =>
    have hfull : frags ≠ [] := ne_nil_of_length_eq_add_one (place_length hplace)
    rw [Frag6.finish]
    split
    · refine ⟨none, ?_, fun x hx => absurd hx (Option.not_mem_none x)⟩
      rw [hkey]
      apply Keyed.put_put hfind
      rfl
    · exact hput (t := { s with nfrags := s.nfrags + 1 }) rfl hkey hfull

/-! ### Every path -/

structure Books (s : Reass6) : Prop where
  packets : s.nfragpackets = s.queues.length
  frags : s.nfrags = (s.queues.map fun q6 => q6.frags.length).sum
  full : ∀ q6 ∈ s.queues, q6.frags ≠ []
  sorted : ∀ q6 ∈ s.queues, q6.frags.Pairwise fun a b => a.off ≤ b.off ∧ a.stop ≤ b.off
  head : s.headFreed = false

/-- A stored fragment is taken off when the first one has come: `ip6q_nfrag` and `frag6_nfrags` stay. -/
def Queue.Loses (q6 : Queue) (h : Header) : Prop :=
  h.fragoff = 0 ∧ ∃ af6 ∈ q6.frags, ipv6Maxpacket < q6.unfrglen + af6.off + af6.frglen

/-- The fragment gets as far as to the search for its queue. -/
structure Reaches (s : Reass6) (m : Chain) (h : Header) (offset : Nat) (alloc : Alloc) : Prop where
  exthdr : alloc.exthdr = true
  len : offset + 8 ≤ m.flatten.length
  plen : h.plen ≠ 0
  length : ¬(h.mff = true ∧ badLength h offset)
  more : ¬(h.fragoff = 0 ∧ h.mff = false)
  room : ¬(0 ≤ s.maxfrags ∧ s.maxfrags ≤ s.nfrags)

/-- What puts the books out: a fragment that is the first to arrive and for which there is no queue, or that is refused by its
new queue or not allocated for it; and a fragment that makes its queue lose another. -/
def Leaks (s : Reass6) : Action → Prop
  | .input m ipsecflags offset alloc =>
    let h := header m.flatten offset
    Reaches s m h offset alloc ∧ ((s.findQueue h.key = none ∧ ¬(0 ≤ s.maxfragpackets ∧ s.maxfragpackets ≤ s.nfragpackets) ∧
        (alloc.q6 = false ∨ alloc.af6 = false ∨
          ((newQueue h.key ipsecflags).first h (offset + 8)).exceeds h.fragoff (newAsfrag m h (offset + 8)).frglen)) ∨
      ∃ q6, s.findQueue h.key = some q6 ∧ q6.ipsec = ipsecflags ∧ (q6.first h (offset + 8)).Loses h)
  | _ => False

structure Sound (s : Reass6) : Prop extends Inv s where
  full : ∀ q6 ∈ s.queues, q6.frags ≠ []

theorem Sound.books (h : Sound s) : Books s :=
  ⟨h.packets, h.frags, h.full, fun q6 hq6 => (h.ok q6 hq6).sorted, h.head⟩

theorem recheck_of_not_loses (hkeeps : ¬q6.Loses h) : q6.recheck h = q6 := by
  rw [Queue.recheck]
  split
  · next hoff =>
    have hall : ∀ af6 ∈ q6.frags, decide (q6.unfrglen + af6.off + af6.frglen ≤ ipv6Maxpacket) = true := by
      intro af6 haf6
      exact decide_eq_true (Int.not_lt.mp fun hlt => hkeeps ⟨hoff, af6, haf6, hlt⟩)
    rw [filter_eq_self.mpr hall]
  · rfl

theorem Inv.insque (hinv : Inv s) (key : Key) : Inv (frag6Insque { s with nfragpackets := s.nfragpackets + 1 } (newQueue key ipsecflags)) where
  packets := congrArg Nat.succ hinv.packets
  frags := by
    rw [hinv.frags]
    exact (zero_add _).symm
  ok := forall_mem_cons.mpr ⟨⟨rfl, .nil⟩, hinv.ok⟩
  head := hinv.head

theorem newQueue_keeps (key : Key) (h : Header) (offset : Nat) : ¬((newQueue key ipsecflags).first h offset).Loses h := by
  rintro ⟨-, af6, haf6, -⟩
  rw [(first_same _ h offset).2.2] at haf6
  cases haf6

theorem Sound.locked (hs : Sound s) (hreaches : Reaches s m h offset alloc)
    (hfound : ∀ q6, s.findQueue h.key = some q6 → q6.ipsec = ipsecflags → ¬(q6.first h (offset + 8)).Loses h)
    (hnew : s.findQueue h.key = none → ¬(0 ≤ s.maxfragpackets ∧ s.maxfragpackets ≤ s.nfragpackets) →
      alloc.q6 = true ∧ alloc.af6 = true ∧
        ¬((newQueue h.key ipsecflags).first h (offset + 8)).exceeds h.fragoff (newAsfrag m h (offset + 8)).frglen) :
    Sound (locked s m ipsecflags h (offset + 8) alloc).2 := by
  rw [Frag6.locked, if_neg hreaches.room]
  cases hfind : s.findQueue h.key with
  | some q6 =>
    by_cases hipsec : q6.ipsec ≠ ipsecflags
    · simp only [if_pos hipsec]
      exact hs
    simp only [if_neg hipsec]
    have hkey : q6.key = h.key := Keyed.key_of_find hfind
    have hself : s.findQueue q6.key = some q6 := by rw [hkey, hfind]
    have hkeeps := recheck_of_not_loses (hfound q6 hfind (not_not.mp hipsec))
    have hold := hs.full q6 (mem_of_find?_eq_some hfind)
    obtain ⟨new, hqueues, hnewne⟩ := @enter_queues _ _ m _ _ alloc hself hkeeps (.inl hold)
    refine ⟨hs.toInv.enter hself hkeeps, fun x hx => ?_⟩
    rw [hqueues] at hx
    obtain hx | hx := Keyed.mem_of_mem_put hx
    · exact hnewne x hx
    · exact hs.full x hx
  | none =>
    by_cases hroom : 0 ≤ s.maxfragpackets ∧ s.maxfragpackets ≤ s.nfragpackets
    · simp only [if_pos hroom]
      exact hs
    obtain ⟨hq6, haf6, hfits⟩ := hnew hfind hroom
    simp only [if_neg hroom, hq6, Bool.true_eq_false, if_false]
    have hself : (frag6Insque { s with nfragpackets := s.nfragpackets + 1 } (newQueue h.key ipsecflags)).findQueue h.key =
        some (newQueue h.key ipsecflags) := Keyed.find_cons_self rfl
    have hkeeps := recheck_of_not_loses (@newQueue_keeps ipsecflags h.key h (offset + 8))
    obtain ⟨new, hqueues, hnewne⟩ := @enter_queues _ _ m _ _ alloc hself hkeeps (.inr ⟨hfits, haf6⟩)
    refine ⟨(hs.toInv.insque h.key).enter hself hkeeps, fun x hx => ?_⟩
    have hput : Keyed.put Queue.key h.key new (newQueue h.key ipsecflags :: s.queues) = new.toList ++ s.queues := if_pos rfl
    change _ = Keyed.put Queue.key h.key new (newQueue h.key ipsecflags :: s.queues) at hqueues
    rw [hqueues, hput] at hx
    obtain hx | hx := mem_append.mp hx
    · exact hnewne x (Option.mem_toList.mp hx)
    · exact hs.full x hx

theorem Sound.input (hs : Sound s) (hkept : ¬Leaks s (.input m ipsecflags offset alloc)) : Sound (frag6Input s m ipsecflags offset alloc).2 := by
  rw [frag6Input]
  by_cases hext : alloc.exthdr = false ∨ m.flatten.length < offset + 8
  · rw [if_pos hext]
    exact hs
  rw [if_neg hext]
  by_cases hplen : (header m.flatten offset).plen = 0
  · simp only [if_pos hplen]
    exact hs
  simp only [if_neg hplen]
  by_cases hlength : (header m.flatten offset).mff = true ∧ badLength (header m.flatten offset) offset
  · rw [if_pos hlength]
    exact hs
  rw [if_neg hlength]
  by_cases hmore : (header m.flatten offset).fragoff = 0 ∧ (header m.flatten offset).mff = false
  · rw [if_pos hmore]
    exact hs
  rw [if_neg hmore]
  rw [not_or, Bool.not_eq_false, not_lt] at hext
  by_cases hroom : 0 ≤ s.maxfrags ∧ s.maxfrags ≤ s.nfrags
  · rw [Frag6.locked, if_pos hroom]
    exact hs
  have hreaches : Reaches s m (header m.flatten offset) offset alloc := ⟨hext.1, hext.2, hplen, hlength, hmore, hroom⟩
  apply hs.locked hreaches
  · exact fun q6 hfind hipsec hloses => hkept ⟨hreaches, .inr ⟨q6, hfind, hipsec, hloses⟩⟩
  intro hfind hlimit
  have hfails : ¬(_ ∨ _ ∨ _) := fun hbad => hkept ⟨hreaches, .inl ⟨hfind, hlimit, hbad⟩⟩
  rw [not_or, not_or, Bool.not_eq_false, Bool.not_eq_false] at hfails
  exact hfails

/-! ### Timer and drain -/

theorem Sound.uncount {pre post : List Queue} (h : Sound s) (hsplit : s.queues = pre ++ q6 :: post) :
    Sound ({ s with queues := pre ++ post }.uncount q6) := by
  refine ⟨h.toInv.uncount hsplit, fun x hx => h.full x ?_⟩
  rw [hsplit]
  obtain hx | hx := mem_append.mp hx
  · exact mem_append_left _ hx
  · exact mem_append_right _ (mem_cons_of_mem _ hx)

theorem Sound.ageLoop {before todo : List Queue} (h : Sound { s with queues := before ++ todo }) : Sound (ageLoop s before todo) := by
  induction todo generalizing s before with
  | nil =>
    rw [append_nil] at h
    exact h
  | cons q6 rest ih =>
    rw [Frag6.ageLoop]
    split
    · exact ih (h.uncount rfl)
    apply ih
    have hq6 : q6 ∈ before ++ q6 :: rest := mem_append_right _ mem_cons_self
    have hok := h.ok q6 hq6
    have hfull := h.full q6 hq6
    have hother {x : Queue} (hx : x ∈ before ++ [{ q6 with ttl := q6.ttl - 1 }] ++ rest) :
        x = { q6 with ttl := q6.ttl - 1 } ∨ x ∈ before ++ q6 :: rest := by
      rw [append_assoc] at hx
      obtain hx | hx := mem_append.mp hx
      · exact .inr (mem_append_left _ hx)
      obtain rfl | hx := mem_cons.mp hx
      · exact .inl rfl
      · exact .inr (mem_append_right _ (mem_cons_of_mem _ hx))
    refine ⟨⟨?_, ?_, fun x hx => ?_, h.head⟩, fun x hx => ?_⟩
    · have hpackets := h.packets
      simp only [length_append, length_cons, append_assoc, singleton_append] at hpackets ⊢
      exact hpackets
    · have hfrags := h.frags
      simp only [fragsOf_append, fragsOf_cons, append_assoc, singleton_append] at hfrags ⊢
      exact hfrags
    · obtain rfl | hx := hother hx
      · exact ⟨hok.nfrag, hok.sorted⟩
      · exact h.ok x hx
    · obtain rfl | hx := hother hx
      · exact hfull
      · exact h.full x hx

theorem Sound.overflowLoop (fuel : Nat) (h : Sound s) : Sound (overflowLoop fuel s) := by
  induction fuel generalizing s with
  | zero => exact h
  | succ fuel ih =>
    rw [Frag6.overflowLoop]
    split
    · next hover =>
      cases hlast : s.queues.getLast? with
      | none =>
        have hpackets := h.packets
        rw [getLast?_eq_none_iff.mp hlast] at hpackets
        rw [hpackets] at hover
        cases hover
      | some q6 =>
        have hsplit : s.queues = s.queues.dropLast ++ q6 :: [] := by
          rw [dropLast_append_getLast? q6 hlast]
        have hdrained := h.uncount hsplit
        rw [append_nil] at hdrained
        exact ih hdrained
    · exact h

theorem Sound.drainLoop {todo : List Queue} (h : Sound { s with queues := todo }) : Sound (drainLoop s todo) := by
  induction todo generalizing s with
  | nil => exact h
  | cons q6 rest ih =>
    apply ih
    exact @Sound.uncount { s with queues := q6 :: rest } q6 [] rest h rfl

theorem sound_init (maxfrags maxfragpackets : Int) : Sound (frag6Init maxfrags maxfragpackets) :=
  ⟨⟨rfl, rfl, (fun _ h => nomatch h), rfl⟩, fun _ h => nomatch h⟩

theorem Sound.step (h : Sound s) {a : Action} (hkept : ¬Leaks s a) : Sound (step s a) := by
  cases a with
  | input m ipsecflags offset alloc => exact h.input hkept
  | slowtimo =>
    have haged : Sound (Frag6.ageLoop s [] s.queues) := @Sound.ageLoop s [] s.queues h
    exact haged.overflowLoop _
  | drain locked =>
    cases locked with
    | false => exact h
    | true => exact h.drainLoop
  | sysctl maxfrags maxfragpackets => exact ⟨⟨h.packets, h.frags, h.ok, h.head⟩, h.full⟩

/-- The books are exact as long as nothing leaks. -/
theorem books_exact (h : frag6System.Reach (fun s a => ¬Leaks s a) s) : Books s := by
  have hsound : Sound s := by
    apply h.invariant
    · rintro s ⟨maxfrags, maxfragpackets, rfl⟩
      exact sound_init maxfrags maxfragpackets
    · rintro s a s' hs hkept rfl
      exact hs.step hkept
  exact hsound.books

/-- A fragment with no header between the IPv6 header and the fragment header: the field of its offset, and its data. -/
def plainFragment (offlg : Nat) (data : List Byte) : Chain :=
  let plen := 8 + data.length
  [[0x60, 0, 0, 0] ++ htons plen ++ [44, 64] ++ replicate 32 0 ++ [59, 0] ++ htons offlg ++ [0, 0, 0, 7] ++ data]

/-- The first fragment of a packet waits, and a tick of the timer passes. -/
theorem books_exact_waiting : ∃ s, Books s ∧ s.nfragpackets = 1 ∧ s.nfrags = 1 ∧ s.queues.map Queue.ttl = [119] := by
  let m := plainFragment 1 (replicate 16 0)
  let s₀ := frag6Init 100 100
  have hkept : ¬Leaks s₀ (.input m 0 40 ⟨true, true, true, true, true⟩) := by
    rintro ⟨-, ⟨-, -, hq6 | haf6 | hexceeds⟩ | ⟨q6, hfind, -⟩⟩
    · cases hq6
    · cases haf6
    · exact absurd hexceeds (by decide)
    · cases hfind
  have h₁ : frag6System.Reach (fun s a => ¬Leaks s a) (step s₀ (.input m 0 40 ⟨true, true, true, true, true⟩)) :=
    .step (.init ⟨100, 100, rfl⟩) hkept rfl
  have h₂ := h₁.step (a := .slowtimo) id rfl
  exact ⟨_, books_exact h₂, by decide⟩

/-- A fragment beyond the largest packet leaves its new queue empty. And a queue that was counted and not allocated makes the
timer free the list head, when the limit is lowered. -/
theorem books_leak : (∃ s, frag6System.Reachable s ∧ ¬Books s) ∧ ∃ s, frag6System.Reachable s ∧ s.headFreed = true := by
  constructor
  · let m := plainFragment 0xfff9 (replicate 16 0)
    have h₁ : frag6System.Reachable (step (frag6Init 100 100) (.input m 0 40 ⟨true, true, true, true, true⟩)) :=
      .step (.init ⟨100, 100, rfl⟩) trivial rfl
    refine ⟨_, h₁, fun hbooks => ?_⟩
    have hempty : (step (frag6Init 100 100) (.input m 0 40 ⟨true, true, true, true, true⟩)).queues.map Queue.frags = [[]] := by
      decide
    obtain ⟨q6, hq6, hnil⟩ := mem_map.mp (hempty.symm ▸ mem_singleton_self [])
    exact hbooks.full q6 hq6 hnil
  · let m := plainFragment 1 (replicate 16 0)
    have h₁ : frag6System.Reachable (step (frag6Init 100 100) (.input m 0 40 ⟨true, false, true, true, true⟩)) :=
      .step (.init ⟨100, 100, rfl⟩) trivial rfl
    have h₂ := h₁.step (a := .sysctl 100 0) trivial rfl
    have h₃ := h₂.step (a := .slowtimo) trivial rfl
    exact ⟨_, h₃, by decide⟩

end NetBSD.Netinet6.Frag6
