import NetBSD.Net.SlCompress.Rebuild

/-! What a compressed line delivers.

For every connection the receiver has the same header as the sender, so that a change against the one is a change against
the other. An uncompressed packet sets both. A compressed one does so too, but for what it does not tell: the flags ECE and
CWR and the unused bits, which the sender does not compare, a flag URG of the last packet, which the special encodings do
not clear, and a checksum of all ones, which the receiver writes as zero. -/
namespace NetBSD.Net.SlCompress
open List Function
open Lib Lib.Fields

/-- A TCP packet of IP version 4, whose checksum verifies. -/
structure IsTcp (p : List (BitVec 8)) : Prop where
  version : ipV (mem p) = 4
  hl : 20 ≤ ipHlen (mem p)
  proto : mem p 9 = IPPROTO_TCP
  len : ipLen (mem p) = BitVec.ofNat 16 p.length
  header : ipHlen (mem p) + 20 ≤ p.length
  off : 20 ≤ thHlen (mem p) (ipHlen (mem p))
  sum : headerSum (mem p) (ipHlen (mem p)) = 0xffff

instance (p : List (BitVec 8)) : Decidable (IsTcp p) :=
  decidable_of_iff (ipV (mem p) = 4 ∧ 20 ≤ ipHlen (mem p) ∧ mem p 9 = IPPROTO_TCP ∧ ipLen (mem p) = BitVec.ofNat 16 p.length ∧
      ipHlen (mem p) + 20 ≤ p.length ∧ 20 ≤ thHlen (mem p) (ipHlen (mem p)) ∧ headerSum (mem p) (ipHlen (mem p)) = 0xffff)
    ⟨fun ⟨h1, h2, h3, h4, h5, h6, h7⟩ => ⟨h1, h2, h3, h4, h5, h6, h7⟩,
      fun h => ⟨h.version, h.hl, h.proto, h.len, h.header, h.off, h.sum⟩⟩

/-- A packet that is not compressible, or not to be compressed, or one whose changes are all told. -/
def told (comp : Slcompress) (p : List (BitVec 8)) : Bool :=
  let ip := mem p
  let th := ipHlen ip
  let hlen := th + thHlen ip th
  if ipOff ip &&& (0x3fff : BitVec 16) ≠ 0 ∨ p.length < 40 then true
  else if thFlags ip th &&& (TH_SYN ||| TH_FIN ||| TH_RST ||| TH_ACK) ≠ TH_ACK then true
  else
    match comp.lru.find? fun c => sameConnection ip (comp.tstate c) with
    | none => true
    | some c =>
      let cs := comp.tstate c
      if hlen > p.length then true
      else if unexpected ip cs th then true
      else
        match changed ip cs th hlen with
        | none => true
        | some (changes, _) =>
          ip (th + 12) = cs (th + 12) ∧ thFlags ip th &&& (TH_ECE ||| TH_CWR) = thFlags cs th &&& (TH_ECE ||| TH_CWR) ∧
            ipSum ip ≠ 0xffff ∧ (changes = specialI ∨ changes = specialD → thFlags cs th &&& TH_URG = 0)

def hdrLen (ip : Mem) : Nat := ipHlen ip + thHlen ip (ipHlen ip)

/-- A header has the flags of packets that are compressible, or there is none. -/
def Compressible (cs : Mem) : Prop :=
  cs 0 = 0 ∨ thFlags cs (ipHlen cs) &&& (TH_SYN ||| TH_FIN ||| TH_RST ||| TH_ACK) = TH_ACK

structure Inv (line : Line) : Prop where
  ids : ∀ c ∈ line.xmit.lru, c < maxStates
  some_id : line.xmit.lru ≠ []
  header : ∀ c, line.recv.rstate c = ⟨hdrLen (line.xmit.tstate c), line.xmit.tstate c⟩
  flags : ∀ c, Compressible (line.xmit.tstate c)
  implicit : line.xmit.lastXmit ≠ 255 → line.recv.toss = false ∧ line.recv.lastRecv = line.xmit.lastXmit
  delivered : ∀ e ∈ line.log, e.2 = some e.1

variable {p : List (BitVec 8)} {xmit recv : Slcompress} {log : List (List (BitVec 8) × Option (List (BitVec 8)))} {c hlen : Nat}

theorem IsTcp.hdrLen_memcpy (h : IsTcp p) (cs : Mem) :
    hdrLen (memcpy cs (mem p) (hdrLen (mem p))) = hdrLen (mem p) ∧ ipHlen (memcpy cs (mem p) (hdrLen (mem p))) = ipHlen (mem p) := by
  have hoff := h.off
  have hfirst : memcpy cs (mem p) (hdrLen (mem p)) 0 = mem p 0 := if_pos (by rw [hdrLen]; omega)
  have hth : ipHlen (memcpy cs (mem p) (hdrLen (mem p))) = ipHlen (mem p) := by rw [ipHlen, hfirst, ipHlen]
  have hoffset : memcpy cs (mem p) (hdrLen (mem p)) (ipHlen (mem p) + 12) = mem p (ipHlen (mem p) + 12) :=
    if_pos (by rw [hdrLen]; omega)
  refine ⟨?_, hth⟩
  rw [hdrLen, hth, thHlen, hoffset]
  rfl

theorem header_append (cs : Mem) (hle : hlen ≤ p.length) : (List.range hlen).map (memcpy cs (mem p) hlen) ++ p.drop hlen = p := by
  have hhead : (List.range hlen).map (memcpy cs (mem p) hlen) = p.take hlen := by
    apply ext_getElem
    · rw [length_map, length_range, length_take]
      omega
    intro i hi hi'
    rw [length_map, length_range] at hi
    rw [getElem_map, getElem_range, getElem_take, memcpy, if_pos hi, mem, getD_eq_getElem _ _ (by omega)]
  rw [hhead, take_append_drop]

theorem mem_length (h : IsTcp p) : 9 < p.length := by
  have := h.header
  omega

theorem IsTcp.set_proto (h : IsTcp p) (c : BitVec 8) : (p.set 9 c).set 9 IPPROTO_TCP = p := by
  have hproto := h.proto
  rw [mem, getD_eq_getElem _ _ (mem_length h)] at hproto
  rw [set_set, ← hproto, set_getElem_self]

/-! ### The ends -/

theorem Inv.passed (h : Inv ⟨xmit, recv, log⟩) : Inv ⟨xmit, recv, (p, some p) :: log⟩ where
  ids := h.ids
  some_id := h.some_id
  header := h.header
  flags := h.flags
  implicit := h.implicit
  delivered e he := by
    obtain rfl | he := mem_cons.mp he
    · rfl
    · exact h.delivered e he

theorem Inv.newest (h : Inv ⟨xmit, recv, log⟩) (hc : c ∈ xmit.lru) {rest : List Nat} (hrest : ∀ d ∈ rest, d ∈ xmit.lru) :
    Inv ⟨{ xmit with lru := c :: rest }, recv, log⟩ where
  ids d hd := by
    obtain rfl | hd := mem_cons.mp hd
    · exact h.ids d hc
    · exact h.ids d (hrest d hd)
  some_id := cons_ne_nil c rest
  header := h.header
  flags := h.flags
  implicit := h.implicit
  delivered := h.delivered

theorem compressible_memcpy (h : IsTcp p) (cs : Mem)
    (hflags : thFlags (mem p) (ipHlen (mem p)) &&& (TH_SYN ||| TH_FIN ||| TH_RST ||| TH_ACK) = TH_ACK) :
    Compressible (memcpy cs (mem p) (hdrLen (mem p))) := by
  obtain ⟨-, hth⟩ := h.hdrLen_memcpy cs
  have hoff := h.off
  have hbyte : memcpy cs (mem p) (hdrLen (mem p)) (ipHlen (mem p) + 13) = mem p (ipHlen (mem p) + 13) :=
    if_pos (by rw [hdrLen]; omega)
  refine .inr ?_
  rw [hth, thFlags, hbyte]
  exact hflags

theorem Inv.synced (h : Inv ⟨xmit, recv, log⟩) (hp : IsTcp p)
    (hflags : thFlags (mem p) (ipHlen (mem p)) &&& (TH_SYN ||| TH_FIN ||| TH_RST ||| TH_ACK) = TH_ACK) :
    Inv ⟨{ xmit with
        tstate := update xmit.tstate c (memcpy (xmit.tstate c) (mem p) (hdrLen (mem p))), lastXmit := c },
      { recv with
        lastRecv := c, toss := false,
        rstate := update recv.rstate c ⟨hdrLen (mem p), memcpy (xmit.tstate c) (mem p) (hdrLen (mem p))⟩ },
      (p, some p) :: log⟩ where
  ids := h.ids
  some_id := h.some_id
  header d := by
    change update recv.rstate c _ d = _
    change _ = (⟨hdrLen (update xmit.tstate c _ d), update xmit.tstate c _ d⟩ : Cstate)
    by_cases hd : d = c
    · rw [hd, update_self, update_self, (hp.hdrLen_memcpy _).1]
    · rw [update_of_ne hd, update_of_ne hd]
      exact h.header d
  flags d := by
    change Compressible (update xmit.tstate c _ d)
    by_cases hd : d = c
    · rw [hd, update_self]
      exact compressible_memcpy hp _ hflags
    · rw [update_of_ne hd]
      exact h.flags d
  implicit _ := ⟨rfl, rfl⟩
  delivered := (Inv.passed (p := p) h).delivered

theorem Inv.uncompressed (h : Inv ⟨xmit, recv, log⟩) (hp : IsTcp p) (hc : c < maxStates)
    (hflags : thFlags (mem p) (ipHlen (mem p)) &&& (TH_SYN ||| TH_FIN ||| TH_RST ||| TH_ACK) = TH_ACK)
    (hlen : hdrLen (mem p) ≤ p.length) :
    Inv ⟨(uncompressed xmit p c (hdrLen (mem p))).1, (syncHeader recv (uncompressed xmit p c (hdrLen (mem p))).2.2).1,
      (p, (syncHeader recv (uncompressed xmit p c (hdrLen (mem p))).2.2).2) :: log⟩ := by
  have hid : mem (p.set 9 (BitVec.ofNat 8 c)) 9 = BitVec.ofNat 8 c := by
    rw [mem, getD_eq_getElem?_getD, getElem?_set_self (mem_length hp)]
    rfl
  have hnat : (BitVec.ofNat 8 c).toNat = c := by
    rw [BitVec.toNat_ofNat]
    rw [maxStates] at hc
    omega
  have hsync : syncHeader recv (p.set 9 (BitVec.ofNat 8 c)) = ({ recv with
      lastRecv := c, toss := false,
      rstate := update recv.rstate c ⟨hdrLen (mem p), memcpy (xmit.tstate c) (mem p) (hdrLen (mem p))⟩ }, some p) := by
    have hheader := h.header c
    have hmax : hdrLen (mem p) ≤ maxHdr := by
      rw [hdrLen, ipHlen, thHlen, maxHdr]
      omega
    rw [syncHeader, hid, hnat, if_neg (by omega), hp.set_proto]
    rw [if_neg (by have := hp.header; omega), ← hdrLen, if_neg (not_or.mpr ⟨Nat.not_lt.mpr hmax, Nat.not_lt.mpr hlen⟩), hheader]
  change Inv ⟨_, (syncHeader recv (p.set 9 (BitVec.ofNat 8 c))).1, (p, (syncHeader recv (p.set 9 (BitVec.ofNat 8 c))).2) :: log⟩
  rw [hsync]
  exact h.synced hp hflags

theorem sent_bits : ∀ u w a s i q e : Bool,
    let v := mask u w a s ||| (if i then newI else 0) ||| (if q then tcpPushBit else 0)
    let v' := if e then v ||| newC else v
    v' &&& specialsMask = mask u w a s ∧ (v' &&& newI ≠ 0 ↔ i = true) ∧ (v' &&& tcpPushBit ≠ 0 ↔ q = true) ∧
      (v' &&& newC ≠ 0 ↔ e = true) := by
  decide

theorem mask_of_changed {ip s : Mem} {th : Nat} {x : BitVec 8} {seq : List (BitVec 8)}
    (h : changed ip s th hlen = some (x, seq)) : ∃ u w a s, x = mask u w a s := by
  obtain ⟨-, -, -, ⟨rfl, -⟩ | ⟨rfl, -⟩ | ⟨-, hmask, -⟩⟩ := changed_cases h
  · exact ⟨true, true, false, true, by decide⟩
  · exact ⟨true, true, true, true, by decide⟩
  · exact ⟨_, _, _, _, hmask⟩

theorem kept_eq {f g : BitVec 8} (hlow : f &&& (TH_SYN ||| TH_FIN ||| TH_RST ||| TH_ACK) = g &&& (TH_SYN ||| TH_FIN ||| TH_RST ||| TH_ACK))
    (hhigh : f &&& (TH_ECE ||| TH_CWR) = g &&& (TH_ECE ||| TH_CWR)) : f &&& kept = g &&& kept := by
  have hkept : ∀ v, v &&& kept = (v &&& (TH_SYN ||| TH_FIN ||| TH_RST ||| TH_ACK)) ||| (v &&& (TH_ECE ||| TH_CWR)) := by
    intro v
    have hparts : kept = (TH_SYN ||| TH_FIN ||| TH_RST ||| TH_ACK) ||| (TH_ECE ||| TH_CWR) := by decide
    rw [hparts]
    exact BitVec.and_or_distrib_left
  rw [hkept, hkept, hlow, hhigh]

theorem compared {ip cs : Mem} (hsame : sameConnection ip cs = true) (hexpected : ¬ unexpected ip cs (ipHlen ip) = true)
    (hoff : ip (ipHlen ip + 12) = cs (ipHlen ip + 12)) :
    Compared ip cs (ipHlen ip) (hdrLen ip) ∧ ipHlen cs = ipHlen ip := by
  obtain ⟨hsrc, hdst, hports⟩ := of_decide_eq_true hsame
  rw [unexpected, decide_eq_true_eq] at hexpected
  simp only [not_or, not_and, not_not] at hexpected
  obtain ⟨hfirst, hfrag, httl, -, hip, htcp⟩ := hexpected
  have hth : ipHlen cs = ipHlen ip := by rw [ipHlen, ← (get16_eq_iff.mp hfirst).1, ipHlen]
  rw [hth] at hports
  refine ⟨⟨hfirst, hfrag, httl, hsrc, hdst, ?_, hports, hoff, ?_⟩, hth⟩
  · intro i hlow hhigh
    have hbytes := of_decide_eq_true (hip (by omega)) (i - 20) (by omega)
    rwa [Nat.add_sub_cancel' hlow] at hbytes
  intro i hlow hhigh
  rw [hdrLen] at hhigh
  have hbytes := of_decide_eq_true (htcp (by omega)) (i - (ipHlen ip + 20)) (by omega)
  rwa [Nat.add_sub_cancel' hlow] at hbytes

theorem IsTcp.first_pos (h : IsTcp p) : 0 < (get16 (mem p) 0).toNat ∧ mem p 0 ≠ 0 := by
  have hversion := h.version
  rw [ipV] at hversion
  refine ⟨?_, fun hzero => ?_⟩
  · rw [get16, BitVec.toNat_append]
    refine lt_of_lt_of_le ?_ Nat.left_le_or
    omega
  · rw [hzero] at hversion
    cases hversion

/-- The receiver makes the packet from the header that it has. -/
theorem Inv.uncompressHeader (h : Inv ⟨xmit, recv, log⟩) (hp : IsTcp p) (hlen : hdrLen (mem p) ≤ p.length)
    (hflags : thFlags (mem p) (ipHlen (mem p)) &&& (TH_SYN ||| TH_FIN ||| TH_RST ||| TH_ACK) = TH_ACK)
    (hsame : sameConnection (mem p) (xmit.tstate c) = true)
    (hexpected : ¬ unexpected (mem p) (xmit.tstate c) (ipHlen (mem p)) = true) {x changes : BitVec 8} {seq : List (BitVec 8)}
    (hchanged : changed (mem p) (xmit.tstate c) (ipHlen (mem p)) (hdrLen (mem p)) = some (x, seq))
    (hmarked : Marked changes x (mem p) (xmit.tstate c) (ipHlen (mem p)))
    (hoff : mem p (ipHlen (mem p) + 12) = xmit.tstate c (ipHlen (mem p) + 12))
    (hecn : thFlags (mem p) (ipHlen (mem p)) &&& (TH_ECE ||| TH_CWR) = thFlags (xmit.tstate c) (ipHlen (mem p)) &&& (TH_ECE ||| TH_CWR))
    (hones : ipSum (mem p) ≠ 0xffff)
    (hurg : x = specialI ∨ x = specialD → thFlags (xmit.tstate c) (ipHlen (mem p)) &&& TH_URG = 0) :
    uncompressHeader { recv with toss := false, lastRecv := c } changes
      ([(thSum (mem p) (ipHlen (mem p))).extractLsb' 8 8, (thSum (mem p) (ipHlen (mem p))).extractLsb' 0 8] ++
        (seq ++ if (ipId (mem p)).setWidth 32 - (ipId (xmit.tstate c)).setWidth 32 ≠ (1 : BitVec 32) then
          encodeZ (((ipId (mem p)).setWidth 32 - (ipId (xmit.tstate c)).setWidth 32).setWidth 16) else []) ++
        p.drop (hdrLen (mem p))) =
      ({ recv with
        lastRecv := c, toss := false,
        rstate := update recv.rstate c ⟨hdrLen (mem p), memcpy (xmit.tstate c) (mem p) (hdrLen (mem p))⟩ }, some p) := by
  obtain ⟨hcompared, hths⟩ := compared hsame hexpected hoff
  have hheader := h.header c
  have hhdr : hdrLen (xmit.tstate c) = hdrLen (mem p) := by rw [hdrLen, hths, thHlen, ← hoff, hdrLen, thHlen]
  have hlow : thFlags (xmit.tstate c) (ipHlen (mem p)) &&& (TH_SYN ||| TH_FIN ||| TH_RST ||| TH_ACK) = TH_ACK := by
    obtain hzero | hlow := h.flags c
    · have hfirst := (get16_eq_iff.mp hcompared.first).1
      exact absurd (hfirst.trans hzero) hp.first_pos.2
    · rwa [hths] at hlow
  have hrebuild := rebuild_eq hcompared hths hp.hl (by rw [ipHlen]; omega) (by rw [ipHlen]; omega)
    (by have := hp.off; rw [hdrLen]; omega) hchanged hmarked (kept_eq (hlow.trans hflags.symm) hecn.symm) hurg
    (show ipLen (mem p) = BitVec.ofNat 16 (hdrLen (mem p) + (p.drop (hdrLen (mem p))).length) by
      rw [length_drop, Nat.add_sub_cancel' hlen]
      exact hp.len)
    hp.first_pos.1 hp.sum hones
  rw [SlCompress.uncompressHeader]
  rw [hheader, hhdr, hrebuild]
  dsimp only
  rw [header_append _ hlen]

/-- A packet that tells its changes, with the id of its connection or without. -/
theorem Inv.compressed (h : Inv ⟨xmit, recv, log⟩) (hp : IsTcp p) (hc : c < maxStates) (hlen : hdrLen (mem p) ≤ p.length)
    (hflags : thFlags (mem p) (ipHlen (mem p)) &&& (TH_SYN ||| TH_FIN ||| TH_RST ||| TH_ACK) = TH_ACK)
    (hsame : sameConnection (mem p) (xmit.tstate c) = true)
    (hexpected : ¬ unexpected (mem p) (xmit.tstate c) (ipHlen (mem p)) = true) {x : BitVec 8} {seq : List (BitVec 8)}
    (hchanged : changed (mem p) (xmit.tstate c) (ipHlen (mem p)) (hdrLen (mem p)) = some (x, seq))
    (hoff : mem p (ipHlen (mem p) + 12) = xmit.tstate c (ipHlen (mem p) + 12))
    (hecn : thFlags (mem p) (ipHlen (mem p)) &&& (TH_ECE ||| TH_CWR) = thFlags (xmit.tstate c) (ipHlen (mem p)) &&& (TH_ECE ||| TH_CWR))
    (hones : ipSum (mem p) ≠ 0xffff)
    (hurg : x = specialI ∨ x = specialD → thFlags (xmit.tstate c) (ipHlen (mem p)) &&& TH_URG = 0) (compressCid : Bool) :
    Inv ⟨(compressed xmit p c (hdrLen (mem p)) compressCid x seq).1,
      (slUncompressTcp recv (compressed xmit p c (hdrLen (mem p)) compressCid x seq).2.2 .compressedTcp).1,
      (p, (slUncompressTcp recv (compressed xmit p c (hdrLen (mem p)) compressCid x seq).2.2 .compressedTcp).2) :: log⟩ := by
  have hnat : (BitVec.ofNat 8 c).toNat = c := by
    rw [BitVec.toNat_ofNat]
    rw [maxStates] at hc
    omega
  have hreceive : slUncompressTcp recv (SlCompress.compressed xmit p c (hdrLen (mem p)) compressCid x seq).2.2 .compressedTcp = ({ recv with
        lastRecv := c, toss := false,
        rstate := update recv.rstate c ⟨hdrLen (mem p), memcpy (xmit.tstate c) (mem p) (hdrLen (mem p))⟩ }, some p) := by
    obtain ⟨u, w, a, s, hx⟩ := mask_of_changed hchanged
    rw [SlCompress.compressed]
    by_cases he : compressCid = false ∨ xmit.lastXmit ≠ c
    · obtain ⟨hspecial, hI, hpush, hC⟩ := sent_bits u w a s
        (decide ((ipId (mem p)).setWidth 32 - (ipId (xmit.tstate c)).setWidth 32 ≠ (1 : BitVec 32)))
        (decide (thFlags (mem p) (ipHlen (mem p)) &&& TH_PUSH ≠ 0)) true
      simp only [decide_eq_true_eq, if_true] at hspecial hI hpush hC
      rw [← hx] at hspecial hI hpush hC
      rw [if_pos he, slUncompressTcp.eq_def]
      dsimp only [cons_append, nil_append]
      rw [if_pos (hC.mpr trivial), hnat, if_neg (Nat.not_le.mpr hc)]
      exact h.uncompressHeader hp hlen hflags hsame hexpected hchanged ⟨hspecial, hI, hpush⟩ hoff hecn hones hurg
    obtain ⟨-, hlast⟩ := not_or.mp he
    have hlast : xmit.lastXmit = c := not_not.mp hlast
    obtain ⟨htoss, hrecv⟩ := h.implicit (by
      change xmit.lastXmit ≠ 255
      rw [maxStates] at hc
      omega)
    have hsync : recv = { recv with toss := false, lastRecv := c } := by
      rw [← htoss, ← hlast, ← hrecv]
    obtain ⟨hspecial, hI, hpush, hC⟩ := sent_bits u w a s
      (decide ((ipId (mem p)).setWidth 32 - (ipId (xmit.tstate c)).setWidth 32 ≠ (1 : BitVec 32)))
      (decide (thFlags (mem p) (ipHlen (mem p)) &&& TH_PUSH ≠ 0)) false
    simp only [decide_eq_true_eq, Bool.false_eq_true, if_false, iff_false] at hspecial hI hpush hC
    rw [← hx] at hspecial hI hpush hC
    rw [if_neg he, slUncompressTcp.eq_def]
    dsimp only [cons_append, nil_append]
    rw [if_neg hC]
    conv_lhs => rw [hsync]
    exact h.uncompressHeader hp hlen hflags hsame hexpected hchanged ⟨hspecial, hI, hpush⟩ hoff hecn hones hurg
  rw [hreceive]
  exact h.synced hp hflags

/-! ### Runs -/

theorem Inv.send (h : Inv ⟨xmit, recv, log⟩) (hp : IsTcp p) (htold : told xmit p = true) (compressCid : Bool) :
    Inv (send ⟨xmit, recv, log⟩ (p, compressCid)) := by
  have hpass : ∀ {lru}, Inv ⟨{ xmit with lru := lru }, recv, log⟩ →
      Inv ⟨{ xmit with lru := lru }, (deliver recv .ip p).1, (p, (deliver recv .ip p).2) :: log⟩ := fun h => h.passed
  rw [told] at htold
  rw [SlCompress.send]
  rw [slCompressTcp]
  rw [← hdrLen] at htold ⊢
  by_cases hfrag : ipOff (mem p) &&& (0x3fff : BitVec 16) ≠ 0 ∨ p.length < 40
  · rw [if_pos hfrag]
    exact hpass h
  rw [if_neg hfrag] at htold ⊢
  by_cases hflags : thFlags (mem p) (ipHlen (mem p)) &&& (TH_SYN ||| TH_FIN ||| TH_RST ||| TH_ACK) ≠ TH_ACK
  · rw [if_pos hflags]
    exact hpass h
  rw [if_neg hflags] at htold ⊢
  have hflags := not_not.mp hflags
  cases hfind : xmit.lru.find? fun c => sameConnection (mem p) (xmit.tstate c) with
  | none =>
    dsimp only
    have hlast : xmit.lru.getLastD 0 ∈ xmit.lru := by
      rw [getLastD_eq_getLast?, getLast?_eq_some_getLast h.some_id]
      exact getLast_mem h.some_id
    have hnewest := h.newest hlast fun d hd => mem_of_mem_dropLast hd
    split
    · exact hpass hnewest
    · next hlen => exact hnewest.uncompressed hp (h.ids _ hlast) hflags (Nat.not_lt.mp hlen)
  | some c =>
    dsimp only
    rw [hfind] at htold
    dsimp only at htold
    have hsame : sameConnection (mem p) (xmit.tstate c) = true :=
      find?_some (p := fun c => sameConnection (mem p) (xmit.tstate c)) hfind
    have hmem : c ∈ xmit.lru := mem_of_find?_eq_some hfind
    have hnewest := h.newest hmem fun d (hd : d ∈ xmit.lru.erase c) => mem_of_mem_erase hd
    by_cases hlen : hdrLen (mem p) > p.length
    · rw [if_pos hlen]
      exact hpass hnewest
    rw [if_neg hlen] at htold ⊢
    have hlen := Nat.not_lt.mp hlen
    by_cases hexpected : unexpected (mem p) (xmit.tstate c) (ipHlen (mem p)) = true
    · rw [if_pos hexpected]
      exact hnewest.uncompressed hp (h.ids c hmem) hflags hlen
    rw [if_neg hexpected] at htold ⊢
    cases hchanged : changed (mem p) (xmit.tstate c) (ipHlen (mem p)) (hdrLen (mem p)) with
    | none => exact hnewest.uncompressed hp (h.ids c hmem) hflags hlen
    | some change =>
      rw [hchanged] at htold
      obtain ⟨hoff, hecn, hones, hurg⟩ := of_decide_eq_true htold
      exact hnewest.compressed hp (h.ids c hmem) hlen hflags hsame hexpected hchanged hoff hecn hones hurg compressCid

theorem inv_setup {maxState maxState' : Int} (h : Setup maxState) : Inv ⟨slCompressSetup maxState, slCompressSetup maxState', []⟩ where
  ids c hc := by
    have hlt := mem_range.mp (mem_reverse.mp hc)
    rw [Setup, maxStates] at h
    rw [maxStates] at hlt ⊢
    split at hlt <;> omega
  some_id := by
    exact reverse_ne_nil_iff.mpr (range_succ ▸ append_ne_nil_of_right_ne_nil _ (cons_ne_nil _ _))
  header c := by
    change (⟨0, _⟩ : Cstate) = ⟨hdrLen fun _ => 0, _⟩
    rfl
  flags c := .inl rfl
  implicit hne := absurd rfl hne
  delivered e he := nomatch he

/-- Every packet is delivered as it was sent, in a run in which every packet is told. -/
theorem lossless {line : Line} (h : system.Reach (fun line a => IsTcp a.1 ∧ told line.xmit a.1 = true) line) :
    ∀ e ∈ line.log, e.2 = some e.1 := by
  have hinv : Inv line := by
    apply System.Reach.invariant ?_ ?_ h
    · rintro line ⟨maxState, maxState', hsetup, -, rfl⟩
      exact inv_setup hsetup
    rintro ⟨xmit, recv, log⟩ ⟨p, compressCid⟩ line hinv ⟨hp, htold⟩ hstep
    cases hstep
    exact hinv.send hp htold compressCid
  exact hinv.delivered

/-- A segment of one byte, the first of a connection or the second. -/
def segment (second : Bool) (flags urp : BitVec 8) : List (BitVec 8) :=
  let n : BitVec 8 := if second then 1 else 0
  [0x45, 0, 0, 41, 0, n, 0, 0, 64, 6, 0x66, 0xcd - n, 10, 0, 0, 1, 10, 0, 0, 2,
    0, 1, 0, 2, 0, 0, 0, n, 0, 0, 0, 0, 0x50, flags, 0, 0, 0, 0, 0, urp, 0]

theorem exists_lost {packets : List (List (BitVec 8) × Bool)}
    (hrun : ((System.run (System.guarded (fun _ a => IsTcp a.1) fun line a => some (send line a))
      ⟨slCompressSetup 15, slCompressSetup 15, []⟩ packets).map fun line => line.log.all fun e => e.2 == some e.1) = some false) :
    ∃ line, system.Reach (fun _ a => IsTcp a.1) line ∧ ¬ ∀ e ∈ line.log, e.2 = some e.1 := by
  obtain ⟨line, hline, hlog⟩ := Option.map_eq_some_iff.mp hrun
  refine ⟨line, System.reach_run _ _ _ _ _ ⟨15, 15, by decide, by decide, rfl⟩ hline, fun hall => ?_⟩
  have htrue : (line.log.all fun e => e.2 == some e.1) = true := all_eq_true.mpr fun e he => beq_iff_eq.mpr (hall e he)
  cases htrue.symm.trans hlog

/-- The second segment is sent without the flag URG of the first, or with a flag ECE that the first has not. -/
def flagsLost (f g : BitVec 8) : Prop :=
  ((System.run (System.guarded (fun _ a => IsTcp a.1) fun line a => some (send line a))
    ⟨slCompressSetup 15, slCompressSetup 15, []⟩ [(segment false f 1, true), (segment true g 1, true)]).map fun line =>
    line.log.all fun e => e.2 == some e.1) = some false

instance (f g : BitVec 8) : Decidable (flagsLost f g) := inferInstanceAs (Decidable (_ = some false))

theorem lossless_flags : flagsLost (TH_ACK ||| TH_URG) TH_ACK ∧ flagsLost TH_ACK (TH_ACK ||| TH_ECE) ∧
    ∃ line, system.Reach (fun _ a => IsTcp a.1) line ∧ ¬ ∀ e ∈ line.log, e.2 = some e.1 := by
  have hurg : flagsLost (TH_ACK ||| TH_URG) TH_ACK := by decide
  exact ⟨hurg, by decide, exists_lost hurg⟩

/-- Two segments, of which the second is compressed. -/
theorem lossless_two : ∃ line, (system.Reach (fun line a => IsTcp a.1 ∧ told line.xmit a.1 = true) line ∧
    ∀ e ∈ line.log, e.2 = some e.1) ∧ line.log.length = 2 := by
  have hrun : ((System.run (System.guarded (fun line a => IsTcp a.1 ∧ told line.xmit a.1 = true) fun line a => some (send line a))
      ⟨slCompressSetup (-1), slCompressSetup 3, []⟩ [(segment false TH_ACK 0, true), (segment true (TH_ACK ||| TH_PUSH) 0, true)]).map
      fun line => line.log.length) = some 2 := by decide
  obtain ⟨line, hline, hlog⟩ := Option.map_eq_some_iff.mp hrun
  have h : system.Reach (fun line a => IsTcp a.1 ∧ told line.xmit a.1 = true) line :=
    System.reach_run _ _ _ _ _ ⟨-1, 3, by decide, by decide, rfl⟩ hline
  exact ⟨line, ⟨h, lossless h⟩, hlog⟩

end NetBSD.Net.SlCompress
