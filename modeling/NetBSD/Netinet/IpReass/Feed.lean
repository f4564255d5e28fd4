import NetBSD.Netinet.IpReass.Exact

/-! Fragments that do not overlap.

When the fragments that cut a payload arrive one after another, in any order, each but the last leaves a byte open that one
behind it holds. So the last returns the payload, and nothing is returned before. -/
namespace NetBSD.Netinet.IpReass
open List

/-- What `ip_reass_packet` answers to fragments that arrive one after another, when no allocation fails. -/
def feed (s : Reass) : List Fragment → List (Except Errno (Option Packet))
  | [] => []
  | f :: rest => (ipReassPacket s f ⟨true, true⟩).1 :: feed (ipReassPacket s f ⟨true, true⟩).2 rest

/-- Packets that have no byte of the payload in common. -/
def Apart (p q : Packet) : Prop :=
  p.ip.offBytes + p.data.length ≤ q.ip.offBytes ∨ q.ip.offBytes + q.data.length ≤ p.ip.offBytes

theorem Apart.symm {p q : Packet} (h : Apart p q) : Apart q p := Or.symm h

/-- A fragment that is taken in. -/
structure Takes (d : Datagram) (f : Fragment) : Prop extends FragmentOf d f where
  key : f.ip.key = d.key
  pos : 0 < f.data.length
  accepted : Accepted f

variable {d : Datagram} {s : Reass} {done order : List Fragment} {f : Fragment}

theorem Takes.start_lt (h : Takes d f) : f.ip.offBytes < d.n := by
  have hpos := h.pos
  cases hmf : f.ip.mf with
  | true => exact lt_of_le_of_lt (Nat.le_add_right _ _) (h.more hmf).2.2
  | false =>
    have hlast := h.last hmf
    omega

theorem not_covers (h : Takes d f) (hapart : ∀ g ∈ done, Apart g.toPacket f.toPacket) : ¬ Covers d done := by
  intro hcov
  obtain ⟨g, hg, hold⟩ := hcov f.ip.offBytes h.start_lt
  have hpos := h.pos
  obtain ⟨hlow, hhigh⟩ := hold
  obtain hbefore | hbehind := hapart g hg
  · omega
  · omega

theorem feed_exact (h : Tracks d ⟨s, done⟩) (hne : order ≠ []) (htakes : ∀ f ∈ order, Takes d f)
    (hroom : s.findQueue d.key = none → s.ipMaxfragpackets < 0 ∨ s.ipNfragpackets < s.ipMaxfragpackets)
    (hpairs : order.Pairwise fun f g => Apart f.toPacket g.toPacket)
    (hapart : ∀ f ∈ done, ∀ g ∈ order, Apart f.toPacket g.toPacket)
    (hcov : ∀ x < d.n, ∃ f, (f ∈ order ∨ f ∈ done) ∧ f.Holds x) :
    ∃ pkt : Packet, feed s order = replicate (order.length - 1) (.ok none) ++ [.ok (some pkt)] ∧
      pkt.data = d.payload ∧ pkt.ip.len = pkt.ip.hlen + d.n ∧ pkt.ip.key = d.key := by
  induction order generalizing s done with
  | nil => exact absurd rfl hne
  | cons f rest ih =>
    obtain ⟨hf, hrest⟩ := forall_mem_cons.mp htakes
    obtain ⟨hfirst, hpairs⟩ := pairwise_cons.mp hpairs
    have hlimit : NoLimit s ⟨f, true, true⟩ := ⟨rfl, rfl, fun hnone => hroom (hf.key ▸ hnone)⟩
    have hinv := ipReassPacket_inv h.inv f ⟨true, true⟩
    obtain ⟨⟨out, s'⟩, heq, harrived⟩ :=
      @ipReassPacket_arrived d ⟨s, done⟩ ⟨f, true, true⟩ h hf.toFragmentOf hf.key hf.pos hf.accepted hlimit
    rw [heq] at hinv
    rw [feed, heq]
    cases rest with
    | nil =>
      have hall : Covers d (f :: done) := by
        intro x hx
        obtain ⟨g, hg, hold⟩ := hcov x hx
        refine ⟨g, ?_, hold⟩
        obtain hg | hg := hg
        · exact mem_cons.mpr (.inl (mem_singleton.mp hg))
        · exact mem_cons_of_mem _ hg
      obtain ⟨-, pkt, rfl, hpkt⟩ := harrived.completes hall
      exact ⟨pkt, rfl, hpkt⟩
    | cons g rest =>
      have hopen : ¬ Covers d (f :: done) := by
        refine not_covers (hrest g mem_cons_self) fun f' hf' => ?_
        obtain rfl | hf' := mem_cons.mp hf'
        · exact hfirst g mem_cons_self
        · exact hapart f' hf' g (mem_cons_of_mem _ mem_cons_self)
      obtain ⟨rfl, fp, hfp, hholding⟩ := harrived.waits hopen
      have htracks : Tracks d ⟨s', f :: done⟩ := by
        refine ⟨hinv, fun hnone => ?_, fun fp' hfp' => ?_⟩
        · cases hfp.symm.trans hnone
        · obtain rfl := Option.some.inj (hfp.symm.trans hfp')
          exact ⟨hholding, hopen⟩
      obtain ⟨pkt, hfeed, hpkt⟩ := ih htracks (cons_ne_nil _ _) hrest
        (fun hnone => by cases hfp.symm.trans hnone) hpairs
        (fun f' hf' g' hg' => by
          obtain rfl | hf' := mem_cons.mp hf'
          · exact hfirst g' hg'
          · exact hapart f' hf' g' (mem_cons_of_mem _ hg'))
        (fun x hx => by
          obtain ⟨f', hf', hold⟩ := hcov x hx
          refine ⟨f', ?_, hold⟩
          obtain hf' | hf' := hf'
          · obtain rfl | hf' := mem_cons.mp hf'
            · exact .inr mem_cons_self
            · exact .inl hf'
          · exact .inr (mem_cons_of_mem _ hf'))
      exact ⟨pkt, congrArg (List.cons (.ok none)) hfeed, hpkt⟩

theorem feed_returns (h : reassSystem.Reachable s) (hnone : s.findQueue d.key = none)
    (hroom : s.ipMaxfragpackets < 0 ∨ s.ipNfragpackets < s.ipMaxfragpackets) (hne : order ≠ [])
    (htakes : ∀ f ∈ order, Takes d f) (hpairs : order.Pairwise fun f g => Apart f.toPacket g.toPacket)
    (hcov : Covers d order) :
    ∃ pkt : Packet, feed s order = replicate (order.length - 1) (.ok none) ++ [.ok (some pkt)] ∧
      pkt.data = d.payload ∧ pkt.ip.len = pkt.ip.hlen + d.n ∧ pkt.ip.key = d.key := by
  have htracks : Tracks d ⟨s, []⟩ :=
    ⟨reachable_inv h, fun _ => rfl, fun fp hfp => by cases hnone.symm.trans hfp⟩
  refine feed_exact htracks hne htakes (fun _ => hroom) hpairs (fun f hf => nomatch hf) fun x hx => ?_
  obtain ⟨f, hf, hold⟩ := hcov x hx
  exact ⟨f, .inl hf, hold⟩

end NetBSD.Netinet.IpReass
