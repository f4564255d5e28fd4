import NetBSD.Netinet6.Frag6.Pieces

/-! The packet that is returned.

The queue of a packet holds the pieces that have come and are not refused (`Holding`), and what arrives for other packets does
not touch it. So when the last of the pieces comes the packet is returned, with its headers as they were.

The length test of `frag6_input` takes the offset of the fragment header for that of the data: it refuses a piece of 32 bytes
unless it is the last (`badLength_iff`). With such a piece no packet is returned, and without one it is (`frag6_exact_iff`). -/
namespace NetBSD.Netinet6.Frag6
open List Nat
open Lib

structure Arrival where
  m : Chain
  ipsecflags : BitVec 2
  offset : Nat
  alloc : Alloc

def input (s : Reass6) (a : Arrival) : Answer × Reass6 := frag6Input s a.m a.ipsecflags a.offset a.alloc

def Arrival.key (a : Arrival) : Key := (header a.m.flatten a.offset).key

/-- A fragment that carries a piece of the packet. -/
structure IsPiece (d : Original) (i : Nat) (a : Arrival) : Prop where
  carries : Carries d i a.m.flatten a.offset
  ipsec : a.ipsecflags = d.ipsec

/-- No limit stands in the way of the arrival, and no allocation fails. -/
structure Unlimited (s : Reass6) (a : Arrival) : Prop where
  alloc : a.alloc = ⟨true, true, true, true, true⟩
  frags : ¬(0 ≤ s.maxfrags ∧ s.maxfrags ≤ s.nfrags)
  packets : s.findQueue a.key = none → ¬(0 ≤ s.maxfragpackets ∧ s.maxfragpackets ≤ s.nfragpackets)

/-- The packet is returned, with the offset and the number of what follows its headers. -/
def Returns (d : Original) (answer : Answer) : Prop :=
  ∃ m, answer = .packet m (d.unfrag.length + d.n) d.unfrag.length d.nxt ∧ m.flatten = d.unfrag ++ d.payload

def Answer.consumed : Answer → Bool
  | .packet .. => false
  | _ => true

variable {d : Original} {i j : Nat} {s : Reass6} {a : Arrival} {q6 : Queue} {got : Nat → Prop} {m : Chain} {offset : Nat}
  {alloc : Alloc}

/-! ### The queue of the packet -/

/-- The queue of the packet holds the pieces that have been got. -/
structure Holding (d : Original) (q6 : Queue) (got : Nat → Prop) : Prop where
  key : q6.key = d.key
  ipsec : q6.ipsec = d.ipsec
  unfrglen : q6.unfrglen = -1 ∨ q6.unfrglen = (d.unfrag.length - 40 : Nat)
  nxt : got 0 → q6.nxt = d.nxt
  of : Of d q6.frags
  sorted : q6.frags.Pairwise Precedes
  has : ∀ j, Has d q6.frags j ↔ got j

theorem Carries.first_iff (h : Carries d i m.flatten offset) : (header m.flatten offset).fragoff = 0 ↔ i = 0 := by
  rw [h.off]
  constructor
  · intro hzero
    have htwo : 2 ≤ d.count := d.two
    exact Original.off_inj h.lt (by omega) hzero
  · rintro rfl
    rfl

theorem Holding.first (h : Holding d q6 got) (hi : Carries d i m.flatten offset) : Holding d (q6.first (header m.flatten offset) (offset + 8)) got ∧
      (i = 0 → (q6.first (header m.flatten offset) (offset + 8)).nxt = d.nxt) := by
  rw [Queue.first]
  split
  · next hoff =>
    obtain rfl := hi.first_iff.mp hoff
    obtain ⟨hend, hnxt, -⟩ := hi.first rfl
    have hmin := hi.minimal
    refine ⟨⟨h.key, h.ipsec, .inr ?_, fun _ => hnxt, h.of, h.sorted, h.has⟩, fun _ => hnxt⟩
    change ((offset + 8 : Nat) : Int) - 48 = (d.unfrag.length - 40 : Nat)
    omega
  · next hoff => exact ⟨h, fun hzero => absurd (hi.first_iff.mpr hzero) hoff⟩

theorem Carries.newAsfrag (h : Carries d i m.flatten offset) : Stored d i (newAsfrag m (header m.flatten offset) (offset + 8)) where
  carries := h
  offset := Nat.le_add_left 8 offset
  off := h.off
  frglen := by
    have hmin := h.minimal
    change (40 : Int) + (header m.flatten offset).plen - (offset + 8 : Nat) = d.len i
    rw [h.plen]
    omega
  mff := h.mff

section
variable (h : Holding d q6 got)
include h

theorem Holding.fits {off len : Nat} (hle : off + len ≤ d.n) : (if 0 ≤ q6.unfrglen then q6.unfrglen else 0) + off + len ≤ ipv6Maxpacket := by
  have hfits := d.fits
  rw [Original.n] at hle
  split
  · obtain hlen | hlen := h.unfrglen <;> omega
  · omega

theorem Holding.not_exceeds (hi : Carries d i m.flatten offset) :
    ¬q6.exceeds (header m.flatten offset).fragoff (newAsfrag m (header m.flatten offset) (offset + 8)).frglen := by
  rw [Queue.exceeds, hi.off, hi.newAsfrag.frglen]
  have hfits := h.fits (Original.stop_le hi.lt)
  omega

theorem Holding.not_loses (hd : Header) : ¬q6.Loses hd := by
  rintro ⟨-, e, he, hgt⟩
  obtain ⟨j, hj⟩ := h.of e he
  have hfits := h.fits (Original.stop_le hj.carries.lt)
  rw [hj.off, hj.frglen] at hgt
  split at hfits <;> omega

theorem Holding.add (hi : Carries d i m.flatten offset) (hnxt : i = 0 → q6.nxt = d.nxt)
    {frags : List Asfrag} (hplace : place (newAsfrag m (header m.flatten offset) (offset + 8)) q6.frags = some frags) :
    Holding d { q6 with frags := frags, nfrag := q6.nfrag + 1 } fun j => got j ∨ j = i := by
  obtain ⟨before, after, hsplit, rfl, -⟩ := place_eq_some hplace
  have hmem {e : Asfrag} : e ∈ before ++ newAsfrag m (header m.flatten offset) (offset + 8) :: after ↔
      e = newAsfrag m (header m.flatten offset) (offset + 8) ∨ e ∈ q6.frags := by
    rw [hsplit, mem_append, mem_cons, mem_append]
    tauto
  refine ⟨h.key, h.ipsec, h.unfrglen, fun hzero => ?_, fun e he => ?_, place_sorted h.sorted hplace, fun j => ?_⟩
  · exact hzero.elim h.nxt fun hzero => hnxt hzero.symm
  · obtain rfl | he := hmem.mp he
    · exact ⟨i, hi.newAsfrag⟩
    · exact h.of e he
  constructor
  · rintro ⟨e, he, hj⟩
    obtain rfl | he := hmem.mp he
    · exact .inr (hj.index hi.newAsfrag)
    · exact .inl ((h.has j).mp ⟨e, he, hj⟩)
  rintro (hj | rfl)
  · obtain ⟨e, he, hstored⟩ := (h.has j).mpr hj
    exact ⟨e, hmem.mpr (.inr he), hstored⟩
  · exact ⟨_, hmem.mpr (.inl rfl), hi.newAsfrag⟩

theorem Holding.returns {next : Int} (hcomplete : complete q6.frags = some next) {ip6af : Asfrag}
    {rest : List Asfrag} (hfrags : q6.frags = ip6af :: rest) (hsplit : alloc.split = true) (hprevhdr : alloc.prevhdr = true) :
    Returns d (reassembled q6 ip6af rest next alloc) := by
  obtain ⟨hn, hdata, hcont, hall⟩ := complete_spec h.of hcomplete
  have hof := h.of
  rw [hfrags] at hof hdata hcont
  -- The fragment at the head begins where the payload does.
  obtain ⟨k, hk⟩ := hof ip6af mem_cons_self
  have hoff : ip6af.off = 0 := by
    rw [contiguous] at hcont
    split at hcont
    · cases hcont
    · next hzero => exact Int.ofNat.inj (not_not.mp hzero)
  have htwo : 2 ≤ d.count := d.two
  obtain rfl : k = 0 := Original.off_inj hk.carries.lt (by omega) (hk.off.symm.trans hoff)
  obtain ⟨hend, -, -⟩ := hk.carries.first rfl
  have hlen := hk.carries.length
  have hoffset : ip6af.offset = ip6af.offset - 8 + 8 := (Nat.sub_add_cancel hk.offset).symm
  have hkey : q6.key = (header ip6af.m.flatten (ip6af.offset - 8)).key := h.key.trans hk.carries.key.symm
  have hnxt : q6.nxt = d.nxt := h.nxt ((h.has 0).mp (hall 0 (by omega)))
  obtain ⟨m, hanswer, hbytes⟩ := @reassembled_bytes _ _ q6 _ rest next alloc hoffset (by omega)
    hk.carries.minimal (congrArg Key.src hkey) (congrArg Key.dst hkey) hk.carries.lastHeader hsplit hprevhdr
  rw [flatMap_cons] at hdata
  rw [hdata] at hanswer hbytes
  rw [hnxt] at hanswer hbytes
  refine ⟨m, ?_, ?_⟩
  · rw [hanswer, ← hend]
    rfl
  · rw [hbytes, hn, hk.carries.headers]

end

/-! ### A fragment of the packet -/

/-- The queue and the pieces that have been got: there is no queue before the first, and no complete one. -/
structure Tracks (d : Original) (s : Reass6) (got : Nat → Prop) : Prop where
  empty : s.findQueue d.key = none → ∀ j, ¬got j
  holding : ∀ q6, s.findQueue d.key = some q6 → Holding d q6 got ∧ ¬∀ j < d.count, got j

/-- After a fragment: the packet is returned when all pieces have been got, and nothing is before. -/
structure Came (d : Original) (got : Nat → Prop) (r : Answer × Reass6) : Prop where
  returns : (∀ j < d.count, got j) → Returns d r.1
  waits : (¬∀ j < d.count, got j) → r.1.consumed = true ∧ Tracks d r.2 got

theorem Holding.tracks (h : Holding d q6 got) (hfind : s.findQueue d.key = some q6) (hopen : ¬∀ j < d.count, got j) : Tracks d s got := by
  refine ⟨fun hnone => ?_, fun q6' hfind' => ?_⟩
  · rw [hfind] at hnone
    cases hnone
  rw [hfind] at hfind'
  obtain rfl := Option.some.inj hfind'
  exact ⟨h, hopen⟩

theorem Holding.finish (h : Holding d q6 got) (hfound : (s.put q6).findQueue d.key = some q6) (hne : q6.frags ≠ []) :
    Came d got (finish s q6 ⟨true, true, true, true, true⟩) := by
  obtain ⟨e, rest, hfrags⟩ := exists_cons_of_ne_nil hne
  constructor
  · intro hall
    obtain ⟨next, hcomplete⟩ := complete_of_all h.of h.sorted fun j hj => (h.has j).mpr (hall j hj)
    have hreturns := @Holding.returns d q6 got ⟨true, true, true, true, true⟩ h next hcomplete e rest hfrags rfl rfl
    rw [hfrags] at hcomplete
    simp only [Frag6.finish, hfrags, hcomplete]
    exact hreturns
  intro hmissing
  have hopen : complete q6.frags = none := by
    cases hcomplete : complete q6.frags with
    | none => rfl
    | some next => exact absurd (fun j hj => (h.has j).mp ((complete_spec h.of hcomplete).2.2.2 j hj)) hmissing
  simp only [Frag6.finish, hopen]
  exact ⟨rfl, h.tracks hfound hmissing⟩

theorem Holding.enter (h : Holding d q6 got) (hfind : s.findQueue d.key = some q6) (hopen : ¬∀ j < d.count, got j)
    (hi : Carries d i m.flatten offset) :
    Came d (fun j => got j ∨ j = i)
      (enter s q6 m (header m.flatten offset) (offset + 8) ⟨true, true, true, true, true⟩) := by
  obtain ⟨hfirst, hnxt⟩ := h.first hi
  have hfound {t : Reass6} (ht : t.queues = s.queues) {q' : Queue} (hq' : q'.key = d.key) :
      (t.put q').findQueue d.key = some q' := by
    rw [Reass6.put, ht, hq']
    exact Keyed.find_put_self hfind hq'
  simp only [Frag6.enter, if_neg (hfirst.not_exceeds hi), recheck_of_not_loses (hfirst.not_loses _), Bool.true_eq_false, if_false]
  split
  · next hplace =>
    -- The piece is on the queue already.
    have hhas : got i := (hfirst.has i).mp (place_stored hfirst.of hi.newAsfrag hplace)
    have hsame : (fun j => got j ∨ j = i) = got := by
      funext j
      exact propext (or_iff_left_of_imp fun hj => hj ▸ hhas)
    rw [hsame]
    exact ⟨fun hall => absurd hall hopen, fun _ => ⟨rfl, hfirst.tracks (hfound rfl hfirst.key) hopen⟩⟩
  · next frags hplace =>
    have hadd := hfirst.add hi hnxt hplace
    have hne : frags ≠ [] := ne_nil_of_length_eq_add_one (place_length hplace)
    exact hadd.finish (hfound rfl hfirst.key) hne

theorem newQueue_holding : Holding d (newQueue d.key d.ipsec) fun _ => False where
  key := rfl
  ipsec := rfl
  unfrglen := .inl rfl
  nxt h := h.elim
  of _ he := nomatch he
  sorted := .nil
  has _ := ⟨(fun ⟨_, he, _⟩ => nomatch he), False.elim⟩

theorem badLength_iff {b : List Byte} (h : Carries d i b offset) (hmore : i + 1 < d.count) : badLength (header b offset) offset ↔ d.len i = 32 := by
  have hmin := h.minimal
  obtain ⟨k, hk⟩ : 8 ∣ d.len i := (d.cut i hmore).2
  rw [badLength, h.plen]
  omega

/-- What has been got when a fragment of the packet has come. -/
theorem Tracks.came (h : Tracks d s got) (hpiece : IsPiece d i a) (hlimit : Unlimited s a) :
    Came d (fun j => got j ∨ j = i ∧ ¬d.Refused j) (input s a) := by
  obtain ⟨m, ipsecflags, offset, alloc⟩ := a
  obtain rfl : alloc = ⟨true, true, true, true, true⟩ := hlimit.alloc
  obtain rfl : ipsecflags = d.ipsec := hpiece.ipsec
  have hi : Carries d i m.flatten offset := hpiece.carries
  have hkey : (header m.flatten offset).key = d.key := hi.key
  have hopen : ¬∀ j < d.count, got j := by
    cases hfind : s.findQueue d.key with
    | none =>
      have htwo : 2 ≤ d.count := d.two
      exact fun hall => h.empty hfind 0 (hall 0 (by omega))
    | some q6 => exact (h.holding q6 hfind).2
  have hplen : (header m.flatten offset).plen ≠ 0 := by
    rw [hi.plen]
    omega
  have hlen : ¬((⟨true, true, true, true, true⟩ : Alloc).exthdr = false ∨ m.flatten.length < offset + 8) := by
    rw [hi.length]
    simp
  simp only [Frag6.input, frag6Input, if_neg hlen, if_neg hplen]
  by_cases hrefused : d.Refused i
  · -- An ICMP error answers it.
    have hbad : (header m.flatten offset).mff = true ∧ badLength (header m.flatten offset) offset :=
      ⟨hi.mff.trans (decide_eq_true hrefused.1), (badLength_iff hi hrefused.1).mpr hrefused.2⟩
    have hsame : (fun j => got j ∨ j = i ∧ ¬d.Refused j) = got := by
      funext j
      exact propext (or_iff_left_of_imp fun hj => absurd (hj.1 ▸ hrefused) hj.2)
    rw [if_pos hbad, hsame]
    exact ⟨fun hall => absurd hall hopen, fun _ => ⟨rfl, h⟩⟩
  have hgood : ¬((header m.flatten offset).mff = true ∧ badLength (header m.flatten offset) offset) := by
    rintro ⟨hmff, hbad⟩
    have hmore : i + 1 < d.count := of_decide_eq_true (hi.mff.symm.trans hmff)
    exact hrefused ⟨hmore, (badLength_iff hi hmore).mp hbad⟩
  have hwhole : ¬((header m.flatten offset).fragoff = 0 ∧ (header m.flatten offset).mff = false) := by
    rintro ⟨hoff, hmff⟩
    obtain rfl := hi.first_iff.mp hoff
    have htwo : 2 ≤ d.count := d.two
    exact absurd (hi.mff.symm.trans hmff) (by rw [decide_eq_true (by omega)]; decide)
  have hsame : (fun j => got j ∨ j = i ∧ ¬d.Refused j) = fun j => got j ∨ j = i := by
    funext j
    exact propext (or_congr_right (and_iff_left_of_imp fun hj => hj ▸ hrefused))
  rw [if_neg hgood, if_neg hwhole, hsame, locked, if_neg hlimit.frags, hkey]
  cases hfind : s.findQueue d.key with
  | some q6 =>
    obtain ⟨hholding, -⟩ := h.holding q6 hfind
    simp only [if_neg (not_not.mpr hholding.ipsec)]
    exact hholding.enter hfind hopen hi
  | none =>
    have hroom := hlimit.packets (by rw [Arrival.key, hkey]; exact hfind)
    have hnone : got = fun _ => False := by
      funext j
      exact propext ⟨h.empty hfind j, False.elim⟩
    simp only [if_neg hroom, Bool.true_eq_false, if_false]
    have hself : (frag6Insque { s with nfragpackets := s.nfragpackets + 1 } (newQueue d.key d.ipsec)).findQueue d.key =
        some (newQueue d.key d.ipsec) := Keyed.find_cons_self rfl
    rw [hnone] at hopen ⊢
    exact newQueue_holding.enter hself hopen hi

theorem findQueue_put_ne {key : Key} (hq6 : q6.key ≠ key) : (s.put q6).findQueue key = s.findQueue key :=
  Keyed.find_put_of_ne (Ne.symm hq6) fun _ hy => Option.some.inj hy ▸ rfl

theorem findQueue_enter_ne {h : Header} {key : Key} (hq6 : q6.key ≠ key) : (enter s q6 m h offset alloc).2.findQueue key = s.findQueue key := by
  have hfirst : (q6.first h offset).key = q6.key := (first_same q6 h offset).1
  have hrecheck : ((q6.first h offset).recheck h).key = q6.key := (recheck_key _ h).trans hfirst
  have hput {t : Reass6} (ht : t.queues = s.queues) {q' : Queue} (hq' : q'.key = q6.key) :
      (t.put q').findQueue key = s.findQueue key := by
    rw [findQueue_put_ne (hq' ▸ hq6), Reass6.findQueue, ht]
    rfl
  simp only [enter]
  split
  · exact hput rfl hfirst
  split
  · exact hput rfl hrecheck
  split
  · exact hput rfl hrecheck
  rw [finish]
  split
  · refine Eq.trans (Keyed.find_put_of_ne ?_ fun y hy => absurd hy (Option.not_mem_none y)) (hput rfl hrecheck)
    exact fun heq => hq6 (hrecheck.symm.trans heq.symm)
  · exact hput rfl hrecheck

theorem findQueue_input_ne {key : Key} (hkey : a.key ≠ key) : (input s a).2.findQueue key = s.findQueue key := by
  rw [input, frag6Input]
  split
  · rfl
  dsimp only
  split
  · rfl
  split
  · rfl
  split
  · rfl
  rw [locked]
  split
  · rfl
  split
  · next q6 hfind =>
    split
    · rfl
    · exact findQueue_enter_ne fun heq => hkey ((Keyed.key_of_find hfind).symm.trans heq)
  split
  · rfl
  split
  · rfl
  · rw [findQueue_enter_ne hkey]
    exact Keyed.find_cons_ne hkey

theorem Tracks.other (h : Tracks d s got) (hkey : a.key ≠ d.key) : Tracks d (input s a).2 got := by
  have hsame := @findQueue_input_ne s a d.key hkey
  refine ⟨fun hnone => h.empty (hsame.symm.trans hnone), fun q6 hfind => h.holding q6 (hsame.symm.trans hfind)⟩

/-! ### One arrival after another -/

def arrive (s : Reass6) (as : List Arrival) : Reass6 := as.foldl (fun s a => (input s a).2) s

/-- The pieces that have come, but for those that are refused. -/
def Got (d : Original) (as : List Arrival) (j : Nat) : Prop := ∃ a ∈ as, IsPiece d j a ∧ ¬d.Refused j

/-- No limit stands in the way of the packet. -/
def UnlimitedRun (d : Original) (s : Reass6) : List Arrival → Prop
  | [] => True
  | a :: rest => (a.key = d.key → Unlimited s a) ∧ UnlimitedRun d (input s a).2 rest

/-- What has the key of the packet is a piece of it. -/
def Pieces (d : Original) (as : List Arrival) : Prop := ∀ a ∈ as, a.key = d.key → ∃ i, IsPiece d i a

variable {as before : List Arrival}

theorem IsPiece.key (h : IsPiece d i a) : a.key = d.key := h.carries.key

theorem IsPiece.index (h : IsPiece d i a) (h' : IsPiece d j a) : i = j :=
  Original.off_inj h.carries.lt h'.carries.lt (h.carries.off.symm.trans h'.carries.off)

theorem got_append (h : IsPiece d i a) : Got d (as ++ [a]) = fun j => Got d as j ∨ j = i ∧ ¬d.Refused j := by
  funext j
  apply propext
  constructor
  · rintro ⟨b, hb, hpiece, hgood⟩
    obtain hb | hb := mem_append.mp hb
    · exact .inl ⟨b, hb, hpiece, hgood⟩
    · obtain rfl := mem_singleton.mp hb
      exact .inr ⟨hpiece.index h, hgood⟩
  · rintro (⟨b, hb, hgot⟩ | ⟨rfl, hgood⟩)
    · exact ⟨b, mem_append_left _ hb, hgot⟩
    · exact ⟨a, mem_append_right _ (mem_singleton_self a), h, hgood⟩

theorem got_append_other (h : a.key ≠ d.key) : Got d (as ++ [a]) = Got d as := by
  funext j
  apply propext
  constructor
  · rintro ⟨b, hb, hpiece, hgood⟩
    obtain hb | hb := mem_append.mp hb
    · exact ⟨b, hb, hpiece, hgood⟩
    · exact absurd hpiece.key (mem_singleton.mp hb ▸ h)
  · rintro ⟨b, hb, hgot⟩
    exact ⟨b, mem_append_left _ hb, hgot⟩

/-- As long as a piece is missing, no packet is returned. -/
theorem Tracks.run (h : Tracks d s (Got d as)) (hpieces : Pieces d before) (hlimits : UnlimitedRun d s before)
    (hmissing : ¬∀ j < d.count, Got d (as ++ before) j) :
    Tracks d (arrive s before) (Got d (as ++ before)) ∧
      ∀ pre b post, before = pre ++ b :: post → b.key = d.key → (input (arrive s pre) b).1.consumed = true := by
  induction before generalizing s as with
  | nil =>
    rw [append_nil]
    exact ⟨h, fun pre b post hsplit => by cases pre <;> cases hsplit⟩
  | cons a rest ih =>
    obtain ⟨ha, hrest⟩ := forall_mem_cons.mp hpieces
    obtain ⟨hlimit, hlimits⟩ := hlimits
    have hone : ¬∀ j < d.count, Got d (as ++ [a]) j := by
      intro hall
      refine hmissing fun j hj => ?_
      obtain ⟨b, hb, hgot⟩ := hall j hj
      refine ⟨b, ?_, hgot⟩
      obtain hb | hb := mem_append.mp hb
      · exact mem_append_left _ hb
      · exact mem_append_right _ (mem_singleton.mp hb ▸ mem_cons_self)
    have hstep : (a.key = d.key → (input s a).1.consumed = true) ∧ Tracks d (input s a).2 (Got d (as ++ [a])) := by
      by_cases hkey : a.key = d.key
      · obtain ⟨i, hpiece⟩ := ha hkey
        have hcame := h.came hpiece (hlimit hkey)
        rw [← got_append hpiece] at hcame
        exact ⟨fun _ => (hcame.waits hone).1, (hcame.waits hone).2⟩
      · rw [got_append_other hkey]
        exact ⟨fun hsame => absurd hsame hkey, h.other hkey⟩
    have hsplit : as ++ a :: rest = as ++ [a] ++ rest := by rw [append_assoc, singleton_append]
    rw [hsplit] at hmissing ⊢
    obtain ⟨htracks, hconsumed⟩ := ih hstep.2 hrest hlimits hmissing
    refine ⟨htracks, fun pre b post heq hkey => ?_⟩
    cases pre with
    | nil =>
      obtain ⟨rfl, rfl⟩ := List.cons.inj heq
      exact hstep.1 hkey
    | cons c pre =>
      obtain ⟨rfl, rfl⟩ := List.cons.inj heq
      exact hconsumed pre b post rfl hkey

/-- The last piece to come returns the packet, and what came before did not. -/
def Delivers (d : Original) (s : Reass6) (before : List Arrival) (a : Arrival) : Prop :=
  (∀ pre b post, before = pre ++ b :: post → b.key = d.key → (input (arrive s pre) b).1.consumed = true) ∧
    Returns d (input (arrive s before) a).1

theorem unlimitedRun_append (h : UnlimitedRun d s (before ++ [a])) :
    UnlimitedRun d s before ∧ (a.key = d.key → Unlimited (arrive s before) a) := by
  induction before generalizing s with
  | nil => exact ⟨trivial, h.1⟩
  | cons b rest ih =>
    obtain ⟨hb, hrest⟩ := h
    obtain ⟨hbefore, hlast⟩ := ih hrest
    exact ⟨⟨hb, hbefore⟩, hlast⟩

/-- From fragments that come in any order, with duplicates and what is for others between them, the packet is returned when the
last piece comes, if and only if none of its pieces but the last has 32 bytes. -/
theorem frag6_exact_iff (hnone : s.findQueue d.key = none) (hpieces : Pieces d (before ++ [a]))
    (hlimits : UnlimitedRun d s (before ++ [a])) {i : Nat} (ha : IsPiece d i a) (hnew : ∀ b ∈ before, ¬IsPiece d i b)
    (hothers : ∀ j < d.count, j ≠ i → ∃ b ∈ before, IsPiece d j b) :
    Delivers d s before a ↔ ∀ j, j + 1 < d.count → d.len j ≠ 32 := by
  obtain ⟨hbefore, hlast⟩ := unlimitedRun_append hlimits
  have hstart : Tracks d s (Got d []) := by
    refine ⟨(fun _ j ⟨_, hmem, _⟩ => nomatch hmem), fun q6 hfind => ?_⟩
    rw [hnone] at hfind
    cases hfind
  have hmissing : ¬∀ j < d.count, Got d ([] ++ before) j := by
    intro hall
    obtain ⟨b, hb, hpiece, -⟩ := hall i ha.carries.lt
    exact hnew b hb hpiece
  obtain ⟨htracks, hconsumed⟩ := hstart.run (fun b hb => hpieces b (mem_append_left _ hb)) hbefore hmissing
  have hcame := htracks.came ha (hlast ha.key)
  rw [← got_append ha] at hcame
  constructor
  · rintro ⟨-, m, hreturns, -⟩ j hmore hlen
    have hopen : ¬∀ j < d.count, Got d ([] ++ before ++ [a]) j := by
      intro hall
      obtain ⟨-, -, -, hgood⟩ := hall j (lt_of_succ_lt hmore)
      exact hgood ⟨hmore, hlen⟩
    have hwaits := (hcame.waits hopen).1
    rw [hreturns] at hwaits
    cases hwaits
  · intro hlen
    refine ⟨hconsumed, hcame.returns fun j hj => ?_⟩
    have hgood : ¬d.Refused j := fun hrefused => hlen j hrefused.1 hrefused.2
    by_cases hji : j = i
    · exact ⟨a, mem_append_right _ (mem_singleton_self a), hji ▸ ha, hgood⟩
    · obtain ⟨b, hb, hpiece⟩ := hothers j hj hji
      exact ⟨b, mem_append_left _ hb, hpiece, hgood⟩

/-! ### Two packets -/

/-- A packet without extension headers, of a piece of 16 or 32 bytes and one of 8. -/
def plainOriginal (k : Nat) (hk : k = 16 ∨ k = 32) : Original where
  unfrag := [0x60, 0, 0, 0] ++ htons (k + 8) ++ [59, 64] ++ replicate 32 0
  nxtField := 6
  payload := replicate k 1 ++ replicate 8 2
  lens := [k, 8]
  key := ⟨[0, 0, 0, 7], replicate 16 0, replicate 16 0⟩
  ipsec := 0
  two := le_refl 2
  sum := by obtain rfl | rfl := hk <;> decide
  cut i hi := by
    obtain rfl : i = 0 := lt_one_iff.mp (lt_of_succ_lt_succ hi)
    obtain rfl | rfl := hk <;> decide
  fits := by obtain rfl | rfl := hk <;> decide
  headers := .last
  plen := by obtain rfl | rfl := hk <;> decide

def plainArrival (offlg : Nat) (data : List Byte) : Arrival := ⟨plainFragment offlg data, 0, 40, ⟨true, true, true, true, true⟩⟩

theorem plain_pieces {k : Nat} (hk : k = 16 ∨ k = 32) : IsPiece (plainOriginal k hk) 0 (plainArrival 1 (replicate k 1)) ∧
      IsPiece (plainOriginal k hk) 1 (plainArrival k (replicate 8 2)) := by
  obtain rfl | rfl := hk
  · exact ⟨⟨⟨by decide, by decide, by decide, by decide, by decide, by decide, by decide, by decide, by decide⟩, rfl⟩,
      ⟨⟨by decide, by decide, by decide, by decide, by decide, by decide, by decide, by decide, nofun⟩, rfl⟩⟩
  · exact ⟨⟨⟨by decide, by decide, by decide, by decide, by decide, by decide, by decide, by decide, by decide⟩, rfl⟩,
      ⟨⟨by decide, by decide, by decide, by decide, by decide, by decide, by decide, by decide, nofun⟩, rfl⟩⟩

/-- The last piece comes first, and twice. -/
def plainBefore (k : Nat) : List Arrival := [plainArrival k (replicate 8 2), plainArrival k (replicate 8 2)]

structure PlainRun (k : Nat) (hk : k = 16 ∨ k = 32) : Prop where
  pieces : Pieces (plainOriginal k hk) (plainBefore k ++ [plainArrival 1 (replicate k 1)])
  limits : UnlimitedRun (plainOriginal k hk) (frag6Init 100 100) (plainBefore k ++ [plainArrival 1 (replicate k 1)])
  last : IsPiece (plainOriginal k hk) 0 (plainArrival 1 (replicate k 1))
  new : ∀ b ∈ plainBefore k, ¬IsPiece (plainOriginal k hk) 0 b
  others : ∀ j < (plainOriginal k hk).count, j ≠ 0 → ∃ b ∈ plainBefore k, IsPiece (plainOriginal k hk) j b

theorem plainRun {k : Nat} (hk : k = 16 ∨ k = 32) : PlainRun k hk := by
  obtain ⟨hfirst, hlast⟩ := plain_pieces hk
  have hbefore : ∀ b ∈ plainBefore k, IsPiece (plainOriginal k hk) 1 b :=
    forall_mem_cons.mpr ⟨hlast, forall_mem_singleton.mpr hlast⟩
  refine ⟨fun b hb _ => ?_, ?_, hfirst, fun b hb h => ?_, fun j hj hne => ?_⟩
  · obtain hb | hb := mem_append.mp hb
    · exact ⟨1, hbefore b hb⟩
    · exact ⟨0, mem_singleton.mp hb ▸ hfirst⟩
  · obtain rfl | rfl := hk
    · exact ⟨fun _ => ⟨rfl, by decide, fun _ => by decide⟩, fun _ => ⟨rfl, by decide, fun _ => by decide⟩,
        fun _ => ⟨rfl, by decide, fun _ => by decide⟩, trivial⟩
    · exact ⟨fun _ => ⟨rfl, by decide, fun _ => by decide⟩, fun _ => ⟨rfl, by decide, fun _ => by decide⟩,
        fun _ => ⟨rfl, by decide, fun _ => by decide⟩, trivial⟩
  · exact absurd ((hbefore b hb).index h) (by decide)
  · have htwo : j < 2 := hj
    obtain rfl : j = 1 := by omega
    exact ⟨_, mem_cons_self, hlast⟩

/-- A packet whose first piece has 16 bytes is returned. -/
theorem frag6_exact_iff_plain : (Delivers (plainOriginal 16 (.inl rfl)) (frag6Init 100 100) (plainBefore 16) (plainArrival 1 (replicate 16 1)) ↔
      ∀ j, j + 1 < (plainOriginal 16 (.inl rfl)).count → (plainOriginal 16 (.inl rfl)).len j ≠ 32) ∧
    Delivers (plainOriginal 16 (.inl rfl)) (frag6Init 100 100) (plainBefore 16) (plainArrival 1 (replicate 16 1)) := by
  have hrun := plainRun (.inl rfl : (16 : Nat) = 16 ∨ 16 = 32)
  have hiff := frag6_exact_iff (show (frag6Init 100 100).findQueue (plainOriginal 16 (.inl rfl)).key = none from rfl)
    hrun.pieces hrun.limits hrun.last hrun.new hrun.others
  refine ⟨hiff, hiff.mpr fun j hj => ?_⟩
  obtain rfl : j = 0 := lt_one_iff.mp (lt_of_succ_lt_succ hj)
  decide

/-- One whose first piece has 32 bytes is not. -/
theorem frag6_refuses_piece : ∃ hk : 32 = 16 ∨ 32 = 32, PlainRun 32 hk ∧
    ¬Delivers (plainOriginal 32 hk) (frag6Init 100 100) (plainBefore 32) (plainArrival 1 (replicate 32 1)) := by
  refine ⟨.inr rfl, plainRun _, ?_⟩
  rintro ⟨-, m, hreturns, -⟩
  cases hreturns

end NetBSD.Netinet6.Frag6
