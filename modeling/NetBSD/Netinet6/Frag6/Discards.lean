import NetBSD.Netinet6.Frag6.Books

/-! What a fragment that is discarded leaves in the queue it was for.

A fragment at offset 0 tells the length of the unfragmentable part and the next header, and has stored fragments checked again, before
it is known whether it stays (`Queue.first`, `Queue.recheck`). So it leaves a trace unless it tells what is known (`Told`) and no stored
fragment is too far for it; any other fragment leaves none, but the one that completes a packet whose header stays. -/
namespace NetBSD.Netinet6.Frag6
open List Option
open Lib

/-- The fragment is not kept, and nothing is returned. -/
def Answer.discards : Answer → Bool
  | .held => false
  | .packet .. => false
  | .dropfrag => true
  | .icmp6Error _ => true
  | .gone => true

/-- The queue is where it was, with the fragments, the length and the next header it had. -/
def NoTrace (s : Reass6) (q6 : Queue) (s' : Reass6) : Prop :=
  ∃ q6', s'.queues = Keyed.put Queue.key q6.key (some q6') s.queues ∧ q6'.key = q6.key ∧ q6'.frags = q6.frags ∧
    q6'.unfrglen = q6.unfrglen ∧ q6'.nxt = q6.nxt

/-- What the fragment tells as the first one is known. -/
def Queue.Told (q6 : Queue) (h : Header) (offset : Nat) : Prop :=
  h.fragoff = 0 → q6.unfrglen = (offset : Int) - 48 ∧ q6.nxt = h.nxt

/-- The packet is complete, and the fragment header can't be taken out of it or the next header field not be reached. -/
def HeaderStays (q6 : Queue) (alloc : Alloc) : Prop :=
  ∃ next ip6af rest, complete q6.frags = some next ∧ q6.frags = ip6af :: rest ∧
    ∀ m ∈ deleteHeader (restoreHeader (concatenate ip6af rest) (next + (ip6af.offset - 8 : Nat) - 40) q6.key) (ip6af.offset - 8) alloc.split,
      alloc.prevhdr = false ∨ m.flatten.length ≤ ip6GetPrevhdr m.flatten (ip6af.offset - 8)

variable {s : Reass6} {q6 : Queue} {m : Chain} {h : Header} {offset : Nat} {alloc : Alloc} {ipsecflags : BitVec 2}

/-- The fragment is too long: what it tells must be known. It is not allocated or overlaps: no stored one may be taken off, either. It
stays: the packet must not be lost that it completes. -/
def Harmless (s : Reass6) (q6 : Queue) (m : Chain) (ipsecflags : BitVec 2) (offset : Nat) (alloc : Alloc) : Prop :=
  let h := header m.flatten offset
  let ip6af := newAsfrag m h (offset + 8)
  let checked := (q6.first h (offset + 8)).recheck h
  Reaches s m h offset alloc → q6.ipsec = ipsecflags →
    if (q6.first h (offset + 8)).exceeds h.fragoff ip6af.frglen then q6.Told h (offset + 8)
    else if alloc.af6 = false ∨ place ip6af checked.frags = none then q6.Told h (offset + 8) ∧ ¬q6.Loses h
    else ∀ frags ∈ place ip6af checked.frags, ¬HeaderStays { checked with frags := frags, nfrag := checked.nfrag + 1 } alloc

theorem first_of_told (htold : q6.Told h offset) : q6.first h offset = q6 := by
  rw [Queue.first]
  split
  · next hoff =>
    obtain ⟨hlen, hnxt⟩ := htold hoff
    rw [← hlen, ← hnxt]
  · rfl

theorem told_of_first (hlen : (q6.first h offset).unfrglen = q6.unfrglen) (hnxt : (q6.first h offset).nxt = q6.nxt) : q6.Told h offset := by
  intro hoff
  rw [Queue.first, if_pos hoff] at hlen hnxt
  exact ⟨hlen.symm, hnxt.symm⟩

theorem recheck_same (q6 : Queue) (h : Header) : (q6.recheck h).unfrglen = q6.unfrglen ∧ (q6.recheck h).nxt = q6.nxt := by
  rw [Queue.recheck]
  split
  · exact ⟨rfl, rfl⟩
  · exact ⟨rfl, rfl⟩

theorem not_loses_of_recheck (hfrags : (q6.recheck h).frags = q6.frags) : ¬q6.Loses h := by
  rintro ⟨hoff, af6, hmem, hlt⟩
  rw [Queue.recheck, if_pos hoff] at hfrags
  have hle := of_decide_eq_true (filter_eq_self.mp hfrags af6 hmem)
  omega

theorem noTrace_put {q6' : Queue} {s' : Reass6} (hfind : s.findQueue q6.key = some q6) (hkey : q6'.key = q6.key)
    (hs' : s'.queues = Keyed.put Queue.key q6.key (some q6') s.queues) :
    NoTrace s q6 s' ↔ q6'.frags = q6.frags ∧ q6'.unfrglen = q6.unfrglen ∧ q6'.nxt = q6.nxt := by
  constructor
  · rintro ⟨q6'', hq6'', -, hsame⟩
    rw [hs', Keyed.put_inj hfind, Option.some.injEq] at hq6''
    exact hq6'' ▸ hsame
  · exact fun hsame => ⟨q6', hs', hkey, hsame⟩

theorem put_found (hfind : s.findQueue q6.key = some q6) : s.put q6 = s := by rw [Reass6.put, Keyed.put_self hfind]

theorem finish_discards : (finish s q6 alloc).1.discards = true ↔ HeaderStays q6 alloc := by
  have hopen : ∀ r : Answer × Reass6, r.1 = .held → (∀ next ip6af rest, complete q6.frags = some next → q6.frags ≠ ip6af :: rest) →
      (r.1.discards = true ↔ HeaderStays q6 alloc) := by
    intro r hr hnone
    rw [hr]
    exact iff_of_false Bool.false_ne_true fun ⟨next, ip6af, rest, hcomplete, hfrags, _⟩ => hnone next ip6af rest hcomplete hfrags
  rw [finish]
  split
  · next next ip6af rest hcomplete hfrags =>
    have hstays : HeaderStays q6 alloc ↔ ∀ m ∈ deleteHeader (restoreHeader (concatenate ip6af rest)
        (next + (ip6af.offset - 8 : Nat) - 40) q6.key) (ip6af.offset - 8) alloc.split,
        alloc.prevhdr = false ∨ m.flatten.length ≤ ip6GetPrevhdr m.flatten (ip6af.offset - 8) := by
      constructor
      · rintro ⟨next', ip6af', rest', hnext, hcons, hall⟩
        obtain rfl := some.inj (hcomplete.symm.trans hnext)
        obtain ⟨rfl, rfl⟩ := List.cons.inj (hfrags.symm.trans hcons)
        exact hall
      · exact fun hall => ⟨next, ip6af, rest, hcomplete, hfrags, hall⟩
    rw [hstays, reassembled]
    cases hdelete : deleteHeader (restoreHeader (concatenate ip6af rest) (next + (ip6af.offset - 8 : Nat) - 40) q6.key)
        (ip6af.offset - 8) alloc.split with
    | none => exact iff_of_true rfl fun m hm => absurd hm (not_mem_none m)
    | some m =>
      simp only [mem_some_iff, forall_eq']
      split
      · next hlost => exact iff_of_true rfl hlost
      · next hlost => exact iff_of_false Bool.false_ne_true hlost
  · next hother => exact hopen _ rfl fun next ip6af rest hcomplete hfrags => hother next ip6af rest hcomplete hfrags

theorem enter_cases (s : Reass6) (q6 : Queue) (m : Chain) (h : Header) (offset : Nat) (alloc : Alloc) :
    let ip6af := newAsfrag m h offset
    let checked := (q6.first h offset).recheck h
    (q6.first h offset).exceeds h.fragoff ip6af.frglen ∧ (enter s q6 m h offset alloc).1.discards = true ∧
        (enter s q6 m h offset alloc).2 = s.put (q6.first h offset) ∨
      ¬(q6.first h offset).exceeds h.fragoff ip6af.frglen ∧ (alloc.af6 = false ∨ place ip6af checked.frags = none) ∧
        enter s q6 m h offset alloc = (.dropfrag, s.put checked) ∨
      ¬(q6.first h offset).exceeds h.fragoff ip6af.frglen ∧ ¬(alloc.af6 = false ∨ place ip6af checked.frags = none) ∧
        ∃ frags, place ip6af checked.frags = some frags ∧ enter s q6 m h offset alloc =
          finish { s with nfrags := s.nfrags + 1 } { checked with frags := frags, nfrag := checked.nfrag + 1 } alloc := by
  dsimp only
  by_cases hexceeds : (q6.first h offset).exceeds h.fragoff (newAsfrag m h offset).frglen
  · refine .inl ⟨hexceeds, ?_⟩
    rw [enter, if_pos hexceeds]
    exact ⟨rfl, rfl⟩
  by_cases haf6 : alloc.af6 = false
  · refine .inr (.inl ⟨hexceeds, .inl haf6, ?_⟩)
    rw [enter, if_neg hexceeds, if_pos haf6]
  cases hplace : place (newAsfrag m h offset) ((q6.first h offset).recheck h).frags with
  | none =>
    refine .inr (.inl ⟨hexceeds, .inr rfl, ?_⟩)
    rw [enter, if_neg hexceeds, if_neg haf6, hplace]
  | some frags =>
    refine .inr (.inr ⟨hexceeds, not_or.mpr ⟨haf6, some_ne_none frags⟩, frags, rfl, ?_⟩)
    rw [enter, if_neg hexceeds, if_neg haf6, hplace]

/-- It comes to its queue, or nothing changes. -/
theorem frag6Input_cases (ipsecflags : BitVec 2) (alloc : Alloc) (hfind : s.findQueue (header m.flatten offset).key = some q6) :
    ¬(Reaches s m (header m.flatten offset) offset alloc ∧ q6.ipsec = ipsecflags) ∧ (frag6Input s m ipsecflags offset alloc).2 = s ∨
      Reaches s m (header m.flatten offset) offset alloc ∧ q6.ipsec = ipsecflags ∧
        frag6Input s m ipsecflags offset alloc = enter s q6 m (header m.flatten offset) (offset + 8) alloc := by
  rw [frag6Input]
  by_cases hext : alloc.exthdr = false ∨ m.flatten.length < offset + 8
  · rw [if_pos hext]
    refine .inl ⟨fun hreaches => ?_, rfl⟩
    obtain hext | hlen := hext
    · exact absurd hreaches.1.exthdr (Bool.eq_false_iff.mp hext)
    · exact absurd hreaches.1.len (Nat.not_le.mpr hlen)
  rw [if_neg hext]
  by_cases hplen : (header m.flatten offset).plen = 0
  · simp only [if_pos hplen]
    exact .inl ⟨fun hreaches => hreaches.1.plen hplen, trivial⟩
  simp only [if_neg hplen]
  by_cases hlength : (header m.flatten offset).mff = true ∧ badLength (header m.flatten offset) offset
  · rw [if_pos hlength]
    exact .inl ⟨fun hreaches => hreaches.1.length hlength, rfl⟩
  rw [if_neg hlength]
  by_cases hmore : (header m.flatten offset).fragoff = 0 ∧ (header m.flatten offset).mff = false
  · rw [if_pos hmore]
    exact .inl ⟨fun hreaches => hreaches.1.more hmore, rfl⟩
  rw [if_neg hmore, locked]
  by_cases hroom : 0 ≤ s.maxfrags ∧ s.maxfrags ≤ s.nfrags
  · rw [if_pos hroom]
    exact .inl ⟨fun hreaches => hreaches.1.room hroom, rfl⟩
  rw [if_neg hroom, hfind]
  dsimp only
  by_cases hipsec : q6.ipsec = ipsecflags
  · rw [not_or, Bool.not_eq_false, not_lt] at hext
    rw [if_neg (not_not.mpr hipsec)]
    exact .inr ⟨⟨hext.1, hext.2, hplen, hlength, hmore, hroom⟩, hipsec, rfl⟩
  · rw [if_pos hipsec]
    exact .inl ⟨fun hreaches => hipsec hreaches.2, rfl⟩

theorem traceless_iff (hfind : s.findQueue (header m.flatten offset).key = some q6) :
    ((frag6Input s m ipsecflags offset alloc).1.discards = true → NoTrace s q6 (frag6Input s m ipsecflags offset alloc).2) ↔
      Harmless s q6 m ipsecflags offset alloc := by
  have hkey : q6.key = (header m.flatten offset).key := Keyed.key_of_find hfind
  have hfind' : s.findQueue q6.key = some q6 := hkey ▸ hfind
  have hfkey := (first_same q6 (header m.flatten offset) (offset + 8)).1
  have hckey := (recheck_key (q6.first (header m.flatten offset) (offset + 8)) (header m.flatten offset)).trans hfkey
  obtain ⟨hout, hs⟩ | ⟨hreaches, hipsec, henter⟩ := frag6Input_cases ipsecflags alloc hfind
  · rw [hs]
    refine iff_of_true (fun _ => ⟨q6, ?_, rfl, rfl, rfl, rfl⟩) fun hreaches hipsec => absurd ⟨hreaches, hipsec⟩ hout
    rw [Keyed.put_self hfind']
  rw [henter, Harmless]
  simp only [hreaches, hipsec, true_imp_iff]
  obtain ⟨hexceeds, hdiscards, hs⟩ | ⟨hexceeds, hrefused, henter⟩ | ⟨hexceeds, hplaced, frags, hplace, henter⟩ :=
    enter_cases s q6 m (header m.flatten offset) (offset + 8) alloc
  · rw [if_pos hexceeds, hs, noTrace_put hfind' hfkey (by rw [Reass6.put, hfkey])]
    refine ⟨fun hsame => told_of_first (hsame hdiscards).2.1 (hsame hdiscards).2.2, fun htold _ => ?_⟩
    rw [first_of_told htold]
    exact ⟨rfl, rfl, rfl⟩
  · rw [if_neg hexceeds, if_pos hrefused, henter, noTrace_put hfind' hckey (by rw [Reass6.put, hckey])]
    obtain ⟨hlen, hnxt⟩ := recheck_same (q6.first (header m.flatten offset) (offset + 8)) (header m.flatten offset)
    constructor
    · intro hsame
      obtain ⟨hsfrags, hslen, hsnxt⟩ := hsame rfl
      have htold := told_of_first (hlen.symm.trans hslen) (hnxt.symm.trans hsnxt)
      rw [first_of_told htold] at hsfrags
      exact ⟨htold, not_loses_of_recheck hsfrags⟩
    · rintro ⟨htold, hkeeps⟩ -
      rw [first_of_told htold, recheck_of_not_loses hkeeps]
      exact ⟨rfl, rfl, rfl⟩
  rw [if_neg hexceeds, if_neg hplaced, hplace, henter, finish_discards]
  simp only [mem_some_iff, forall_eq']
  refine ⟨fun hsame hstays => ?_, fun hstays hlost => absurd hlost hstays⟩
  obtain ⟨q6', hq6', -⟩ := hsame hstays
  obtain ⟨next, ip6af, rest, hcomplete, hcons, -⟩ := hstays
  rw [finish, hcomplete, hcons] at hq6'
  change Keyed.put Queue.key _ none (Keyed.put Queue.key _ (some _) s.queues) = _ at hq6'
  rw [hckey] at hq6'
  rw [Keyed.put_put hfind', Keyed.put_inj hfind'] at hq6'
  · cases hq6'
  · rfl

/-! ### Runs -/

/-- A fragment that has a queue and is discarded. -/
def discarded (s : Reass6) : Action → Bool
  | .input m ipsecflags offset alloc =>
    (s.findQueue (header m.flatten offset).key).isSome && (frag6Input s m ipsecflags offset alloc).1.discards
  | .slowtimo => false
  | .drain _ => false
  | .sysctl _ _ => false

/-- A run without the fragments that are discarded in it. -/
def accepted (s : Reass6) : List Action → List Action
  | [] => []
  | a :: rest => if discarded s a then accepted (step s a) rest else a :: accepted (step s a) rest

def HarmlessStep (s : Reass6) : Action → Prop
  | .input m ipsecflags offset alloc => ∀ q6 ∈ s.findQueue (header m.flatten offset).key, Harmless s q6 m ipsecflags offset alloc
  | .slowtimo => True
  | .drain _ => True
  | .sysctl _ _ => True

def HarmlessRun (s : Reass6) : List Action → Prop
  | [] => True
  | a :: rest => HarmlessStep s a ∧ HarmlessRun (step s a) rest

theorem discarded_same (hfind : s.findQueue (header m.flatten offset).key = some q6) (hharmless : Harmless s q6 m ipsecflags offset alloc)
    (hdiscards : (frag6Input s m ipsecflags offset alloc).1.discards = true) : (frag6Input s m ipsecflags offset alloc).2 = s := by
  have hkey : q6.key = (header m.flatten offset).key := Keyed.key_of_find hfind
  have hput : s.put q6 = s := put_found (hkey ▸ hfind)
  obtain ⟨-, hs⟩ | ⟨hreaches, hipsec, henter⟩ := frag6Input_cases ipsecflags alloc hfind
  · exact hs
  rw [henter] at hdiscards ⊢
  have hharmless := hharmless hreaches hipsec
  obtain ⟨hexceeds, -, hs⟩ | ⟨hexceeds, hrefused, henter⟩ | ⟨hexceeds, hplaced, frags, hplace, henter⟩ :=
    enter_cases s q6 m (header m.flatten offset) (offset + 8) alloc
  · rw [if_pos hexceeds] at hharmless
    rw [hs, first_of_told hharmless, hput]
  · rw [if_neg hexceeds, if_pos hrefused] at hharmless
    rw [henter, first_of_told hharmless.1, recheck_of_not_loses hharmless.2, hput]
  rw [if_neg hexceeds, if_neg hplaced] at hharmless
  rw [henter, finish_discards] at hdiscards
  exact absurd hdiscards (hharmless frags hplace)

theorem step_discarded {a : Action} (hharmless : HarmlessStep s a) (hdiscarded : discarded s a = true) : step s a = s := by
  cases a with
  | input m ipsecflags offset alloc =>
    obtain ⟨hsome, hdiscards⟩ := Bool.and_eq_true_iff.mp hdiscarded
    obtain ⟨q6, hfind⟩ := isSome_iff_exists.mp hsome
    exact discarded_same hfind (hharmless q6 hfind) hdiscards
  | slowtimo => cases hdiscarded
  | drain locked => cases hdiscarded
  | sysctl maxfrags maxfragpackets => cases hdiscarded

theorem run_accepted {acts : List Action} (hharmless : HarmlessRun s acts) : (accepted s acts).foldl step s = acts.foldl step s := by
  induction acts generalizing s with
  | nil => rfl
  | cons a rest ih =>
    obtain ⟨hstep, hrest⟩ := hharmless
    rw [accepted]
    split
    · next hdiscarded =>
      rw [foldl_cons, step_discarded hstep hdiscarded] at *
      exact ih hrest
    · exact ih hrest

/-- **Discarded fragments.** A fragment that has a queue and is discarded leaves no trace in it exactly when it is harmless. In a run whose
fragments are harmless the state is at the end as if those discarded had not come. -/
theorem discards_leave_no_trace (hfind : s.findQueue (header m.flatten offset).key = some q6) :
    (((frag6Input s m ipsecflags offset alloc).1.discards = true → NoTrace s q6 (frag6Input s m ipsecflags offset alloc).2) ↔
      Harmless s q6 m ipsecflags offset alloc) ∧
    ∀ acts, HarmlessRun s acts → (accepted s acts).foldl step s = acts.foldl step s :=
  ⟨traceless_iff hfind, fun _ => run_accepted⟩

/-- The state when the first fragment of a packet has come. -/
def firstHeld : Reass6 := step (frag6Init 100 100) (.input (plainFragment 1 (replicate 16 0)) 0 40 ⟨true, true, true, true, true⟩)

/-- It comes once more. -/
theorem discards_leave_no_trace_twice : ∃ q6, firstHeld.findQueue (header (plainFragment 1 (replicate 16 0)).flatten 40).key = some q6 ∧
    Harmless firstHeld q6 (plainFragment 1 (replicate 16 0)) 0 40 ⟨true, true, true, true, true⟩ := by
  refine ⟨_, rfl, (discards_leave_no_trace rfl).1.mp fun _ => ⟨_, ?_, rfl, rfl, rfl, rfl⟩⟩
  decide

/-- A fragment at offset 0 with another next header. -/
def otherFirst : Chain := [(plainFragment 1 (replicate 16 0)).flatten.set 40 6]

/-- It overlaps the one that is there, and is dropped; the packet is returned with its next header. -/
theorem discards_leave_next_header : frag6System.Reachable firstHeld ∧ (∃ q6, firstHeld.findQueue (header otherFirst.flatten 40).key = some q6 ∧
      (frag6Input firstHeld otherFirst 0 40 ⟨true, true, true, true, true⟩).1 = .dropfrag ∧
      ¬NoTrace firstHeld q6 (frag6Input firstHeld otherFirst 0 40 ⟨true, true, true, true, true⟩).2) ∧
    (frag6Input (frag6Input firstHeld otherFirst 0 40 ⟨true, true, true, true, true⟩).2 (plainFragment 16 (replicate 8 2)) 0 40
      ⟨true, true, true, true, true⟩).1 ≠
    (frag6Input firstHeld (plainFragment 16 (replicate 8 2)) 0 40 ⟨true, true, true, true, true⟩).1 := by
  refine ⟨.step (.init ⟨100, 100, rfl⟩) trivial rfl, ⟨_, rfl, by decide, ?_⟩, by decide⟩
  rintro ⟨q6', hqueues, -, -, -, hnxt⟩
  have hother : (frag6Input firstHeld otherFirst 0 40 ⟨true, true, true, true, true⟩).2.queues.map Queue.nxt = [6] := by decide
  rw [hqueues] at hother
  have hsix : q6'.nxt = 6 := singleton_inj.mp hother
  exact absurd (hnxt.symm.trans hsix) (by decide)

end NetBSD.Netinet6.Frag6
