import NetBSD.Netinet.IpFragment.Chain
import NetBSD.Netinet.IpReass.Feed

/-! Reassembly undoes fragmentation.

The pieces of a datagram lie one behind the other, so they are fragments of it that lie apart and cover its payload. The
receiver takes them all when the second of them is not below the minimal fragment size, and the last to arrive gives back
the payload. -/
namespace NetBSD.Netinet.IpFragment
open List

variable {more : Bool} {o : Nat} {f : Packet} {pre post rest chain : List Packet}

theorem Tiled.tail (h : Tiled more o (f :: rest)) (hne : rest ≠ []) :
    f.ip.offset = o ∧ f.ip.mf = true ∧ f.data.length % 8 = 0 ∧ Tiled more (o + f.data.length / 8) rest := by
  cases rest with
  | nil => exact absurd rfl hne
  | cons g rest => exact h

theorem Tiled.split (h : Tiled more o (pre ++ f :: post)) :
    8 * f.ip.offset = 8 * o + (pre.map Packet.data).flatten.length ∧ (f.ip.mf = false → post = []) ∧
      (f.ip.mf = true → post = [] → more = true) ∧ (post ≠ [] → f.data.length % 8 = 0) := by
  induction pre generalizing o with
  | nil =>
    cases post with
    | nil =>
      obtain ⟨hoff, hmf⟩ := h
      exact ⟨by rw [hoff]; rfl, fun _ => rfl, fun htrue _ => hmf.symm.trans htrue, fun hne => absurd rfl hne⟩
    | cons g post =>
      obtain ⟨hoff, hmf, h8, -⟩ := h.tail (cons_ne_nil _ _)
      exact ⟨by rw [hoff]; rfl, fun hfalse => Bool.noConfusion (hmf.symm.trans hfalse), fun _ hnil => absurd hnil (cons_ne_nil _ _),
        fun _ => h8⟩
  | cons g pre ih =>
    obtain ⟨-, -, h8, hrest⟩ := h.tail (append_ne_nil_of_right_ne_nil pre (cons_ne_nil _ _))
    obtain ⟨hoff, hflags⟩ := ih hrest
    refine ⟨?_, hflags⟩
    rw [map_cons, flatten_cons, length_append]
    omega

theorem Tiled.pairwise (h : Tiled more o chain) : chain.Pairwise fun f g => 8 * f.ip.offset + f.data.length ≤ 8 * g.ip.offset := by
  induction chain generalizing o with
  | nil => exact .nil
  | cons f rest ih =>
    cases rest with
    | nil => exact pairwise_singleton _ _
    | cons g rest =>
      obtain ⟨hoff, -, h8, hrest⟩ := h.tail (cons_ne_nil _ _)
      refine pairwise_cons.mpr ⟨fun g' hg' => ?_, ih hrest⟩
      obtain ⟨pre, post, hsplit⟩ := append_of_mem hg'
      rw [hsplit] at hrest
      have hstart := hrest.split.1
      omega

theorem exists_piece {x : Nat} (hx : x < (chain.map Packet.data).flatten.length) :
    ∃ pre f post, chain = pre ++ f :: post ∧ (pre.map Packet.data).flatten.length ≤ x ∧
      x < (pre.map Packet.data).flatten.length + f.data.length := by
  induction chain generalizing x with
  | nil => exact absurd hx (Nat.not_lt_zero x)
  | cons f rest ih =>
    rw [map_cons, flatten_cons, length_append] at hx
    by_cases hfirst : x < f.data.length
    · exact ⟨[], f, rest, rfl, Nat.zero_le x, by omega⟩
    obtain ⟨pre, g, post, rfl, hle, hlt⟩ := @ih (x - f.data.length) (by omega)
    refine ⟨f :: pre, g, post, rfl, ?_, ?_⟩
    · rw [map_cons, flatten_cons, length_append]
      omega
    · rw [map_cons, flatten_cons, length_append]
      omega

/-! ### The receiver -/

/-- The packet as the receiver has it. -/
def Packet.received (f : Packet) : IpReass.Packet :=
  ⟨⟨f.ip.hl, f.ip.tos, f.ip.len.toNat, f.ip.id, f.ip.mf, f.ip.off.setWidth 13, f.ip.p, f.ip.src, f.ip.dst⟩, f.data⟩

/-- The datagram, for the receiver; `ipsec` is what it marks every piece with. -/
def Packet.datagram (m : Packet) (ipsec : BitVec 2) : IpReass.Datagram :=
  ⟨⟨m.ip.src, m.ip.dst, m.ip.p, m.ip.id⟩, m.ip.tos, ipsec, m.data⟩

/-- Packets in the order in which they arrive. -/
structure Arrives (ipsec : BitVec 2) (chain : List Packet) (order : List IpReass.Fragment) : Prop where
  perm : (order.map IpReass.Fragment.toPacket).Perm (chain.map Packet.received)
  ipsec : ∀ r ∈ order, r.ipsecflags = ipsec

theorem offBytes_received (f : Packet) : f.received.ip.offBytes = 8 * f.ip.offset := by
  have hwidth : (f.ip.off.setWidth 13).toNat = f.ip.offset := by
    rw [BitVec.toNat_setWidth, Ip.offset, toNat_and_offmask]
  exact congrArg (8 * ·) hwidth

variable {m first : Packet} {mtu : Nat} {options : List Byte} {ipsec : BitVec 2} {r : IpReass.Fragment}
  {order : List IpReass.Fragment}

section
variable (h : Pieces m mtu options first rest) (hok : m.Ok) (hle : options.length ≤ m.options.length) (hoff : m.ip.offset = 0)
  (hmf : m.ip.mf = false) (hmin : IpReass.ipMinfragsize - 1 ≤ pieceLen m mtu + 20 + options.length)
include h hok hle hoff hmf hmin

theorem Pieces.takes (hsplit : first :: rest = pre ++ f :: post)
    (hr : r.toPacket = f.received) (hipsec : r.ipsecflags = ipsec) : IpReass.Takes (m.datagram ipsec) r := by
  have hmem : f ∈ first :: rest := by
    rw [hsplit]
    exact mem_append_right _ mem_cons_self
  obtain ⟨hfok, hinherits, -, hpos⟩ := h.fits f hmem
  have htiled := h.tiled
  have hpayload := h.payload
  rw [hsplit] at htiled hpayload
  obtain ⟨hstart, hlast, hmore, h8⟩ := htiled.split
  rw [map_append, map_cons, flatten_append, flatten_cons] at hpayload
  have hn := congrArg List.length hpayload
  rw [length_append, length_append] at hn
  have hbytes : r.ip.offBytes = (pre.map Packet.data).flatten.length := by
    have : r.ip.offBytes = 8 * f.ip.offset := (congrArg (fun p => IpReass.Ip.offBytes p.ip) hr).trans (offBytes_received f)
    omega
  have hdata : r.data = f.data := congrArg IpReass.Packet.data hr
  have hrmf : r.ip.mf = f.ip.mf := congrArg (fun p => p.ip.mf) hr
  have hrhlen : r.ip.hlen = f.hlen := congrArg (fun p => p.ip.hlen) hr
  have hrlen := r.len_eq
  have htotal := hok.len
  have hlt := m.ip.len.isLt
  have hmore' : f.ip.mf = true → post ≠ [] := by
    intro htrue hnil
    cases hmf.symm.trans (hmore htrue hnil)
  have hpost : post ≠ [] → 0 < (post.map Packet.data).flatten.length := by
    intro hne
    obtain ⟨g, post, rfl⟩ := exists_cons_of_ne_nil hne
    have hg := (h.fits g (by rw [hsplit]; exact mem_append_right _ (mem_cons_of_mem _ mem_cons_self))).2.2.2
    rw [map_cons, flatten_cons, length_append]
    omega
  -- The first piece has the header of the datagram, the others have one that is no longer.
  have hfirst : f.hlen ≤ m.hlen ∧ IpReass.ipMinfragsize - 1 ≤
      if r.ip.offBytes > 0 then r.ip.offBytes + r.ip.hlen else r.ip.len := by
    have hmhlen := hok.hlen
    have hfhlen := hfok.hlen
    cases pre with
    | nil =>
      obtain ⟨rfl, rfl⟩ := List.cons.inj hsplit
      rw [h.firstOptions] at hfhlen
      have hlength := h.firstLen
      refine ⟨by omega, ?_⟩
      rw [if_neg (by rw [hbytes]; exact lt_irrefl 0), hrlen, hrhlen, hdata]
      omega
    | cons g pre =>
      obtain ⟨-, rfl⟩ := List.cons.inj hsplit
      obtain ⟨hoptions, hoffset⟩ := h.options f (mem_append_right _ mem_cons_self)
      rw [hoptions] at hfhlen
      have h0 : pieceLen m mtu ≤ r.ip.offBytes := by
        rw [pieceLen] at hoffset ⊢
        omega
      refine ⟨by omega, ?_⟩
      rw [hrhlen]
      split
      · omega
      · rw [hrlen, hrhlen, hdata]
        omega
  have hfits : r.ip.offBytes + f.data.length ≤ m.data.length := by omega
  refine ⟨⟨?_, hipsec, ?_, ?_, ?_, ?_⟩, ?_, by rw [hdata]; exact hpos, ?_⟩
  · exact (congrArg (fun p => p.ip.tos) hr).trans hinherits.tos
  · rw [hbytes, hdata, IpReass.Datagram.slice]
    change f.data = (m.data.drop _).take _
    rw [← hpayload, drop_left, take_left]
  · intro htrue
    rw [hrmf] at htrue
    have hbehind := hpost (hmore' htrue)
    rw [hdata]
    refine ⟨hpos, h8 (hmore' htrue), ?_⟩
    change _ < m.data.length
    omega
  · intro hfalse
    rw [hrmf] at hfalse
    obtain rfl := hlast hfalse
    rw [hdata]
    change _ = m.data.length
    rw [map_nil, flatten_nil, length_nil] at hn
    omega
  · intro _
    change _ + m.data.length ≤ 65535
    rw [hrhlen]
    omega
  · have hkey : r.ip.key = ⟨f.ip.src, f.ip.dst, f.ip.p, f.ip.id⟩ := congrArg (fun p => p.ip.key) hr
    rw [hkey, hinherits.src, hinherits.dst, hinherits.p, hinherits.id]
    rfl
  rintro (hsmall | hlarge | ⟨htrue, hempty | hodd⟩)
  · omega
  · change _ > 65535 at hlarge
    rw [hrlen, hdata] at hlarge
    omega
  · rw [hrlen, hdata] at hempty
    omega
  · rw [hrlen, Nat.add_sub_cancel_left, hdata] at hodd
    exact hodd (h8 (hmore' (hrmf ▸ htrue)))

/-- In whatever order the pieces of a datagram arrive, the last gives back the payload. -/
theorem Pieces.returns {s : IpReass.Reass} (hs : IpReass.reassSystem.Reachable s) (hnone : s.findQueue (m.datagram ipsec).key = none)
    (hroom : s.ipMaxfragpackets < 0 ∨ s.ipNfragpackets < s.ipMaxfragpackets) (harrives : Arrives ipsec (first :: rest) order) :
    ∃ pkt : IpReass.Packet, IpReass.feed s order = replicate rest.length (.ok none) ++ [.ok (some pkt)] ∧
      pkt.data = m.data ∧ pkt.ip.len = pkt.ip.hlen + m.data.length ∧ pkt.ip.key = (m.datagram ipsec).key := by
  have hlength : order.length = rest.length + 1 := by
    have := harrives.perm.length_eq
    rwa [length_map, length_map] at this
  have hne : order ≠ [] := by
    rintro rfl
    cases hlength
  have htakes : ∀ r ∈ order, IpReass.Takes (m.datagram ipsec) r := by
    intro r hr
    obtain ⟨f, hf, hreceived⟩ := mem_map.mp (harrives.perm.mem_iff.mp (mem_map_of_mem hr))
    obtain ⟨pre, post, hsplit⟩ := append_of_mem hf
    exact h.takes hok hle hoff hmf hmin hsplit hreceived.symm (harrives.ipsec r hr)
  -- To lie apart is symmetric, so it survives any order.
  have hpairs : order.Pairwise fun r r' => IpReass.Apart r.toPacket r'.toPacket := by
    have hchain : ((first :: rest).map Packet.received).Pairwise IpReass.Apart := by
      refine pairwise_map.mpr (h.tiled.pairwise.imp fun {f g} hle => .inl ?_)
      rw [offBytes_received, offBytes_received]
      exact hle
    exact pairwise_map.mp ((harrives.perm.pairwise_iff IpReass.Apart.symm).mpr hchain)
  have hcov : IpReass.Covers (m.datagram ipsec) order := by
    intro x hx
    change x < m.data.length at hx
    rw [← h.payload] at hx
    obtain ⟨pre, f, post, hsplit, hle, hlt⟩ := exists_piece hx
    have hf : f ∈ first :: rest := by
      rw [hsplit]
      exact mem_append_right _ mem_cons_self
    obtain ⟨r, hr, hreceived⟩ := mem_map.mp (harrives.perm.mem_iff.mpr (mem_map_of_mem hf))
    have htiled := h.tiled
    rw [hsplit] at htiled
    have hstart := htiled.split.1
    have hbytes : r.ip.offBytes = 8 * f.ip.offset :=
      (congrArg (fun p => IpReass.Ip.offBytes p.ip) hreceived).trans (offBytes_received f)
    have hdata : r.data = f.data := congrArg IpReass.Packet.data hreceived
    refine ⟨r, hr, ?_, ?_⟩
    · omega
    · rw [hdata]
      omega
  obtain ⟨pkt, hfeed, hpkt⟩ := IpReass.feed_returns hs hnone hroom hne htakes hpairs hcov
  rw [hlength] at hfeed
  exact ⟨pkt, hfeed, hpkt⟩

end

/-- Without a failed allocation the packet is cut into pieces, in which all further ones have the copied options. If the
queue has room they are left to the caller, and the receiver gives back the payload of a datagram. With a failed allocation
the packet and all fragments made so far are freed. -/
theorem fragmentation_undone {diagnostic : Bool} {opts : List Opt} {tail : List Byte} (h : m.Cuttable)
    (hparsed : Parsed m.options opts tail) (hassert : Asserted diagnostic opts tail) (hlow : m.hlen + 8 ≤ mtu)
    (hhigh : mtu < m.ip.len.toNat) (room : Option Int) (alloc : Nat → Alloc) :
    ((∀ i, (alloc i).Ok) → ∃ first rest, Pieces m mtu (copiedOptions opts) first rest ∧ ipFragment diagnostic m room mtu alloc =
        some (if room.any fun n => n < (rest.length : Int) then ⟨some .ENOBUFS, [], first :: rest⟩
          else ⟨none, first :: rest, []⟩) ∧
      (m.ip.offset = 0 → m.ip.mf = false → IpReass.ipMinfragsize - 1 ≤ pieceLen m mtu + 20 + (copiedOptions opts).length →
        ∀ s ipsec order, IpReass.reassSystem.Reachable s → s.findQueue (m.datagram ipsec).key = none →
          (s.ipMaxfragpackets < 0 ∨ s.ipNfragpackets < s.ipMaxfragpackets) → Arrives ipsec (first :: rest) order →
          ∃ pkt : IpReass.Packet, IpReass.feed s order = replicate rest.length (.ok none) ++ [.ok (some pkt)] ∧
            pkt.data = m.data ∧ pkt.ip.len = pkt.ip.hlen + m.data.length ∧ pkt.ip.key = (m.datagram ipsec).key)) ∧
    ∀ j, (∀ i < j, (alloc i).Ok) → ¬ (alloc j).Ok → (j + 1) * pieceLen m mtu < m.data.length →
      ∃ freed, ipFragment diagnostic m room mtu alloc = some ⟨some .ENOBUFS, [], freed⟩ ∧
        freed.length = 1 + j + if (alloc j).gethdr then 1 else 0 := by
  have hcopies := h.toOk.copies hparsed hassert
  have hle := hparsed.length_le h.toOk.mod_four
  constructor
  · intro halloc
    obtain ⟨first, rest, hpieces, heq⟩ := ipFragment_ok h hcopies hle halloc hlow hhigh room
    refine ⟨first, rest, hpieces, heq, ?_⟩
    intro hoff hmf hmin s ipsec order hs hnone hroom harrives
    exact hpieces.returns h.toOk hle.1 hoff hmf hmin hs hnone hroom harrives
  · intro j halloc hfail hj
    exact ipFragment_fail h.toOk hcopies hlow halloc hfail hj room

/-! A datagram of 100 bytes with an option of the copied class and one that is not, cut at 76 bytes. -/

def sampleIp (hl : BitVec 4) (len off : BitVec 16) : Ip := ⟨hl, 0, len, 7, off, 64, 17, 0x0a000001, 0x0a000002⟩

def samplePacket : Packet :=
  ⟨sampleIp 7 128 0, [0x94, 4, 0, 0, 0x44, 4, 5, 0], replicate 50 1 ++ replicate 50 2⟩

def sampleChain : List Packet :=
  [⟨sampleIp 7 76 0x2000, samplePacket.options, replicate 48 1⟩, ⟨sampleIp 6 72 0x2006, [0x94, 4, 0, 0], replicate 2 1 ++ replicate 46 2⟩,
    ⟨sampleIp 6 28 12, [0x94, 4, 0, 0], replicate 4 2⟩]

def sampleOrder : List IpReass.Fragment :=
  [⟨⟨⟨6, 0, 28, 7, false, 12, 17, 0x0a000001, 0x0a000002⟩, replicate 4 2⟩, 0, by decide, by decide⟩,
    ⟨⟨⟨7, 0, 76, 7, true, 0, 17, 0x0a000001, 0x0a000002⟩, replicate 48 1⟩, 0, by decide, by decide⟩,
    ⟨⟨⟨6, 0, 72, 7, true, 6, 17, 0x0a000001, 0x0a000002⟩, replicate 2 1 ++ replicate 46 2⟩, 0, by decide, by decide⟩]

def sampleAlloc : Nat → Alloc := fun _ => ⟨true, true⟩

theorem fragmentation_undone_sample : ipFragment false samplePacket (some 2) 76 sampleAlloc = some ⟨none, sampleChain, []⟩ ∧
      (∃ pkt : IpReass.Packet, IpReass.feed (IpReass.ipReassInit 1024) sampleOrder =
        [.ok none, .ok none, .ok (some pkt)] ∧ pkt.data = samplePacket.data) ∧
      ∃ freed, ipFragment false samplePacket none 76 (fun i => ⟨true, i = 0⟩) = some ⟨some .ENOBUFS, [], freed⟩ ∧
        freed.length = 3 := by
  have hcut : samplePacket.Cuttable := ⟨⟨rfl, rfl⟩, by decide, by decide⟩
  have hparsed : Parsed samplePacket.options [.opt 0x94 [0, 0], .opt 0x44 [5, 0]] [] :=
    ⟨rfl, by decide, .inl rfl⟩
  have hassert : Asserted false [.opt 0x94 [0, 0], .opt 0x44 [5, 0]] [] := nofun
  obtain ⟨hok, -⟩ := fragmentation_undone hcut hparsed hassert (show samplePacket.hlen + 8 ≤ 76 by decide) (by decide) (some 2)
    sampleAlloc
  obtain ⟨-, hfail⟩ := fragmentation_undone hcut hparsed hassert (show samplePacket.hlen + 8 ≤ 76 by decide) (by decide) none
    fun i => ⟨true, i = 0⟩
  obtain ⟨first, rest, hpieces, heq, hfeed⟩ := hok fun _ => ⟨rfl, rfl⟩
  have hrun : ipFragment false samplePacket (some 2) 76 sampleAlloc = some ⟨none, sampleChain, []⟩ := by decide
  have hchain : first :: rest = sampleChain := by
    have hsame := Option.some.inj (heq.symm.trans hrun)
    split at hsame
    · cases congrArg Outcome.error hsame
    · exact congrArg Outcome.chain hsame
  refine ⟨hrun, ?_, ?_⟩
  · obtain ⟨pkt, hreturned, hdata, -⟩ := hfeed (by decide) (by decide) (by decide) (IpReass.ipReassInit 1024) 0 sampleOrder
      (.init ⟨1024, rfl⟩) rfl (by decide) (by rw [hchain]; exact ⟨by decide, by decide⟩)
    have hrest : rest.length = 2 := congrArg (List.length ∘ List.tail) hchain
    rw [hrest] at hreturned
    exact ⟨pkt, hreturned, hdata⟩
  · obtain ⟨freed, hfreed, hlength⟩ := hfail 1 (by decide) (by decide) (by decide)
    exact ⟨freed, hfreed, hlength⟩

/-! The receiver refuses pieces below the minimal fragment size. -/

def tinyPacket : Packet := ⟨sampleIp 5 36 0, [], replicate 16 1⟩

def tinyOrder : List IpReass.Fragment :=
  [⟨⟨⟨5, 0, 28, 7, true, 0, 17, 0x0a000001, 0x0a000002⟩, replicate 8 1⟩, 0, by decide, by decide⟩,
    ⟨⟨⟨5, 0, 28, 7, false, 1, 17, 0x0a000001, 0x0a000002⟩, replicate 8 1⟩, 0, by decide, by decide⟩]

theorem fragmentation_not_undone :
    ¬ ∀ (m : Packet) (opts : List Opt) (tail : List Byte) (mtu : Nat) (chain : List Packet) (order : List IpReass.Fragment),
      m.Cuttable → Parsed m.options opts tail → m.ip.off &&& IP_DF = 0 → m.ip.offset = 0 → m.ip.mf = false →
      m.hlen + 8 ≤ mtu → mtu < m.ip.len.toNat → ipFragment false m none mtu sampleAlloc = some ⟨none, chain, []⟩ →
      Arrives 0 chain order →
      ∃ pkt : IpReass.Packet, .ok (some pkt) ∈ IpReass.feed (IpReass.ipReassInit 1024) order ∧ pkt.data = m.data := by
  intro h
  have hcut : tinyPacket.Cuttable := ⟨⟨rfl, rfl⟩, by decide, by decide⟩
  have hparsed : Parsed tinyPacket.options [] [] := ⟨rfl, by decide, .inl rfl⟩
  obtain ⟨pkt, hpkt, -⟩ := h tinyPacket [] [] 28
    [⟨sampleIp 5 28 0x2000, [], replicate 8 1⟩, ⟨sampleIp 5 28 1, [], replicate 8 1⟩] tinyOrder hcut hparsed
    (by decide) (by decide) (by decide) (by decide) (by decide) (by decide) ⟨by decide, by decide⟩
  have hrefused : IpReass.feed (IpReass.ipReassInit 1024) tinyOrder = [.error .einval, .error .einval] := rfl
  rw [hrefused] at hpkt
  simp at hpkt

end NetBSD.Netinet.IpFragment
