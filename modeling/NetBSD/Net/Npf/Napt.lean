import NetBSD.Net.Npf.Inet
import Mathlib.Logic.Function.Basic

/-! Rewriting the address and the port of a packet.

The checksums that were right are right afterwards (`napt_rwr_cksum`), up to the two zeroes, of which the checksum of a UDP datagram
can become the wrong one (`rwrcksum_udp`). -/
namespace NetBSD.Net.Npf.Inet
open List Function Nat
open Lib

/-! ### Packets -/

inductive Errno where
  | EINVAL
  | ENOTSUP

inductive Which where
  | NPF_SRC
  | NPF_DST
  deriving DecidableEq

def IPPROTO_ICMP : BitVec 8 := 1

def IPPROTO_TCP : BitVec 8 := 6

def IPPROTO_UDP : BitVec 8 := 17

def IPPROTO_ICMPV6 : BitVec 8 := 58

/-- The header apart from the addresses. -/
inductive IpHdr where
  | v4 (ipSum : BitVec 16) (others : List (BitVec 16))
  | v6

structure TcpHdr where
  thSport : BitVec 16
  thDport : BitVec 16
  thSum : BitVec 16
  others : List (BitVec 16)

structure UdpHdr where
  uhSport : BitVec 16
  uhDport : BitVec 16
  uhUlen : BitVec 16
  uhSum : BitVec 16

/-- What the cache knows of layer 4. -/
inductive L4Hdr where
  | tcp (th : TcpHdr)
  | udp (uh : UdpHdr)
  | icmp
  | none

/-- The packet, as the pointers of the cache reach it. -/
structure NpfCache where
  ip : IpHdr
  ips : Which → NpfAddr
  proto : BitVec 8
  l4 : L4Hdr
  payload : List (BitVec 8)

def NpfCache.alen (npc : NpfCache) : Nat :=
  match npc.ip with
  | .v4 _ _ => 4
  | .v6 => 16

def L4Hdr.cached : L4Hdr → Bool
  | .none => false
  | _ => true

def L4Hdr.cachedIcmp : L4Hdr → Bool
  | .icmp => true
  | _ => false

def TcpHdr.port (th : TcpHdr) (which : Which) : BitVec 16 := if which = .NPF_SRC then th.thSport else th.thDport

def UdpHdr.port (uh : UdpHdr) (which : Which) : BitVec 16 := if which = .NPF_SRC then uh.uhSport else uh.uhDport

def TcpHdr.setPort (th : TcpHdr) (which : Which) (port : BitVec 16) : TcpHdr :=
  if which = .NPF_SRC then {th with thSport := port} else {th with thDport := port}

def UdpHdr.setPort (uh : UdpHdr) (which : Which) (port : BitVec 16) : UdpHdr :=
  if which = .NPF_SRC then {uh with uhSport := port} else {uh with uhDport := port}

def memcpy (dst src : NpfAddr) (size : Nat) : NpfAddr := fun i => if i < size / 2 then src i else dst i

def npfRwrip (npc : NpfCache) (which : Which) (addr : NpfAddr) : Bool × NpfCache :=
  (true, {npc with ips := update npc.ips which (memcpy (npc.ips which) addr npc.alen)})

/-- There is no answer where an assertion fails. -/
def npfRwrport (npc : NpfCache) (which : Which) (port : BitVec 16) : Option (Bool × NpfCache) :=
  match npc.l4 with
  | .tcp th => if npc.proto = IPPROTO_TCP then some (true, {npc with l4 := .tcp (th.setPort which port)}) else none
  | .udp uh => if npc.proto = IPPROTO_UDP then some (true, {npc with l4 := .udp (uh.setPort which port)}) else none
  | _ => none

/-- The fix-ups for the address and, if there is one, for the port. -/
def fixupL4 (o : ByteOrder) (ocksum : BitVec 16) (alen : Nat) (oaddr addr : NpfAddr) (oport port : BitVec 16) : BitVec 16 :=
  let cksum := npfAddrCksum o ocksum alen oaddr addr
  if port ≠ 0 then npfFixup16Cksum cksum oport port else cksum

def rwrIpSum (o : ByteOrder) (npc : NpfCache) (which : Which) (addr : NpfAddr) : IpHdr :=
  match npc.ip with
  | .v4 ipSum others => .v4 (npfAddrCksum o ipSum npc.alen (npc.ips which) addr) others
  | .v6 => .v6

def npfRwrcksum (o : ByteOrder) (npc : NpfCache) (which : Which) (addr : NpfAddr) (port : BitVec 16) : Option (Bool × NpfCache) :=
  if npc.l4.cached = false then none
  else
    let npc' := {npc with ip := rwrIpSum o npc which addr}
    -- nothing else to do for ICMP
    if npc.proto = IPPROTO_ICMP ∨ npc.proto = IPPROTO_ICMPV6 then some (true, npc')
    else
      match npc.l4 with
      | .tcp th =>
        if npc.proto = IPPROTO_TCP then
          some (true, {npc' with
            l4 := .tcp {th with thSum := fixupL4 o th.thSum npc.alen (npc.ips which) addr (th.port which) port}})
        else none
      | .udp uh =>
        if npc.proto = IPPROTO_UDP then
          if uh.uhSum = 0 then some (true, npc')
          else some (true, {npc' with
            l4 := .udp {uh with uhSum := fixupL4 o uh.uhSum npc.alen (npc.ips which) addr (uh.port which) port}})
        else none
      | _ => none

def npfNaptRwr (o : ByteOrder) (npc : NpfCache) (which : Which) (addr : NpfAddr) (port : BitVec 32) : Option (Option Errno × NpfCache) :=
  (npfRwrcksum o npc which addr (port.setWidth 16)).bind fun r =>
    if r.1 = false then some (some .EINVAL, r.2)
    else
      let r := npfRwrip r.2 which addr
      if r.1 = false then some (some .EINVAL, r.2)
      else if port = 0 then some (none, r.2)
      else if npc.proto = IPPROTO_TCP ∨ npc.proto = IPPROTO_UDP then
        (npfRwrport r.2 which (port.setWidth 16)).map fun r => (if r.1 = false then some .EINVAL else none, r.2)
      else if npc.proto = IPPROTO_ICMP ∨ npc.proto = IPPROTO_ICMPV6 then
        if r.2.l4.cachedIcmp then some (none, r.2) else none
      else some (some .ENOTSUP, r.2)

/-! ### What the checksums cover -/

def load16 : ByteOrder → BitVec 8 → BitVec 8 → BitVec 16
  | .little, a, b => b ++ a
  | .big, a, b => a ++ b

def htons (o : ByteOrder) (x : BitVec 16) : BitVec 16 := load16 o (x.extractLsb' 8 8) (x.extractLsb' 0 8)

/-- The bytes in words, with a zero behind the last one if their number is odd. -/
def load (o : ByteOrder) : List (BitVec 8) → List (BitVec 16)
  | a :: b :: bs => load16 o a b :: load o bs
  | [a] => [load16 o a 0]
  | [] => []

def addrWords (npc : NpfCache) : List (BitVec 16) :=
  wordsOf (npc.ips .NPF_SRC) (npc.alen / 2) ++ wordsOf (npc.ips .NPF_DST) (npc.alen / 2)

/-- IPv6 has no checksum of its header. -/
def ipWords (npc : NpfCache) : List (BitVec 16) :=
  match npc.ip with
  | .v4 ipSum others => ipSum :: others ++ addrWords npc
  | .v6 => []

/-- The length and the protocol of the pseudo-header. -/
def pseudoHdr (o : ByteOrder) (npc : NpfCache) (len : Nat) : List (BitVec 16) :=
  match npc.ip with
  | .v4 _ _ => [load16 o 0 npc.proto, htons o (BitVec.ofNat 16 len)]
  | .v6 => [htons o (BitVec.ofNat 16 (len / 65536)), htons o (BitVec.ofNat 16 len), 0, load16 o 0 npc.proto]

def l4Words (o : ByteOrder) (npc : NpfCache) : List (BitVec 16) :=
  match npc.l4 with
  | .tcp th =>
    addrWords npc ++ pseudoHdr o npc (6 + 2 * th.others.length + npc.payload.length) ++
      th.thSport :: th.thDport :: th.thSum :: th.others ++ load o npc.payload
  | .udp uh =>
    addrWords npc ++ pseudoHdr o npc (8 + npc.payload.length) ++ [uh.uhSport, uh.uhDport, uh.uhUlen, uh.uhSum] ++ load o npc.payload
  | _ => []

/-- A packet of TCP, or of UDP with a checksum. -/
def Checksummed (npc : NpfCache) : Prop :=
  match npc.l4 with
  | .tcp _ => npc.proto = IPPROTO_TCP
  | .udp uh => npc.proto = IPPROTO_UDP ∧ uh.uhSum ≠ 0
  | _ => False

def IpHdr.withSum (ip : IpHdr) (ipSum : BitVec 16) : IpHdr :=
  match ip with
  | .v4 _ others => .v4 ipSum others
  | .v6 => .v6

def L4Hdr.rewritten (l4 : L4Hdr) (which : Which) (port sum : BitVec 16) : L4Hdr :=
  match l4 with
  | .tcp th => .tcp {if port = 0 then th else th.setPort which port with thSum := sum}
  | .udp uh => .udp {if port = 0 then uh else uh.setPort which port with uhSum := sum}
  | l4 => l4

/-- The packet with another address and another port, if it is not 0, and with these checksums. -/
def rewritten (npc : NpfCache) (which : Which) (addr : NpfAddr) (port ipSum sum : BitVec 16) : NpfCache :=
  {npc with
    ip := npc.ip.withSum ipSum
    ips := update npc.ips which (memcpy (npc.ips which) addr npc.alen)
    l4 := npc.l4.rewritten which port sum}

def IpHdr.sum (ip : IpHdr) : BitVec 16 :=
  match ip with
  | .v4 ipSum _ => ipSum
  | .v6 => 0

def L4Hdr.port (l4 : L4Hdr) (which : Which) : BitVec 16 :=
  match l4 with
  | .tcp th => th.port which
  | .udp uh => uh.port which
  | _ => 0

def L4Hdr.sum (l4 : L4Hdr) : BitVec 16 :=
  match l4 with
  | .tcp th => th.thSum
  | .udp uh => uh.uhSum
  | _ => 0

/-- The words that a translation takes out. -/
def oldWords (npc : NpfCache) (which : Which) (port : BitVec 16) : List (BitVec 16) :=
  wordsOf (npc.ips which) (npc.alen / 2) ++ if port = 0 then [] else [npc.l4.port which]

def newWords (npc : NpfCache) (addr : NpfAddr) (port : BitVec 16) : List (BitVec 16) :=
  wordsOf addr (npc.alen / 2) ++ if port = 0 then [] else [port]

section Rewrite
variable {o : ByteOrder} {npc : NpfCache} {which : Which} {addr : NpfAddr} {port ipSum sum c : BitVec 16} {th : TcpHdr} {uh : UdpHdr}

theorem two_mul_alen (npc : NpfCache) : 2 * (npc.alen / 4) = npc.alen / 2 := by
  rw [NpfCache.alen]
  split <;> rfl

theorem alen_rewritten (npc : NpfCache) (which : Which) (addr : NpfAddr) (port ipSum sum : BitVec 16) :
    (rewritten npc which addr port ipSum sum).alen = npc.alen := by
  rw [NpfCache.alen, NpfCache.alen, rewritten]
  cases npc.ip <;> rfl

theorem wordsOf_memcpy (old addr : NpfAddr) (size : Nat) : wordsOf (memcpy old addr size) (size / 2) = wordsOf addr (size / 2) := by
  refine map_congr_left fun i hi => ?_
  rw [memcpy, if_pos (mem_range.mp hi)]

theorem wordSum_addrWords_rewritten : wordSum (addrWords (rewritten npc which addr port ipSum sum)) +
    wordSum (wordsOf (npc.ips which) (npc.alen / 2)) = wordSum (addrWords npc) + wordSum (wordsOf addr (npc.alen / 2)) := by
  have hnew := wordsOf_memcpy (npc.ips which) addr npc.alen
  rw [addrWords, addrWords, wordSum_append, wordSum_append, alen_rewritten, rewritten]
  dsimp only
  cases which with
  | NPF_SRC =>
    rw [update_self, update_of_ne (by decide), hnew]
    omega
  | NPF_DST =>
    rw [update_self, update_of_ne (by decide), hnew]
    omega

theorem npfAddrCksum_modEq (o : ByteOrder) (npc : NpfCache) (c : BitVec 16) (which : Which) (addr : NpfAddr) :
    (npfAddrCksum o c npc.alen (npc.ips which) addr).toNat + wordSum (wordsOf addr (npc.alen / 2)) ≡
      c.toNat + wordSum (wordsOf (npc.ips which) (npc.alen / 2)) [MOD 65535] := by
  have hstored := npfAddrCksum_stored o c npc.alen (npc.ips which) addr
  rw [two_mul_alen] at hstored
  exact stored_modEq hstored (wordSum_not _)

theorem fixupL4_stored (o : ByteOrder) (npc : NpfCache) (c : BitVec 16) (which : Which) (addr : NpfAddr) (port : BitVec 16) :
    (fixupL4 o c npc.alen (npc.ips which) addr (npc.l4.port which) port).toNat =
      stored c (wordSum ((oldWords npc which port).map (~~~·)) + wordSum (newWords npc addr port)) := by
  have hstored := npfAddrCksum_stored o c npc.alen (npc.ips which) addr
  rw [two_mul_alen] at hstored
  rw [fixupL4, oldWords, newWords]
  by_cases hport : port = 0
  · rw [if_neg (not_not_intro hport), if_pos hport, if_pos hport, append_nil, append_nil]
    exact hstored
  rw [if_pos hport, if_neg hport, if_neg hport, map_append, wordSum_append, wordSum_append]
  refine (npfFixup16Cksum_stored _ _ _).trans ((stored_stored hstored).trans ?_)
  have hone (w : BitVec 16) : wordSum [w] = w.toNat := by
    rw [wordSum_cons, wordSum_nil, add_zero]
  rw [map_cons, map_nil, hone, hone]
  congr 1
  omega

theorem fixupL4_modEq (o : ByteOrder) (npc : NpfCache) (c : BitVec 16) (which : Which) (addr : NpfAddr) (port : BitVec 16) :
    (fixupL4 o c npc.alen (npc.ips which) addr (npc.l4.port which) port).toNat + wordSum (newWords npc addr port) ≡
      c.toNat + wordSum (oldWords npc which port) [MOD 65535] :=
  stored_modEq (fixupL4_stored o npc c which addr port) (wordSum_not _)

theorem pseudoHdr_rewritten (len : Nat) : pseudoHdr o (rewritten npc which addr port ipSum sum) len = pseudoHdr o npc len := by
  rw [pseudoHdr, pseudoHdr, rewritten]
  cases npc.ip <;> rfl

theorem ports_rewritten (p q v : BitVec 16) (which : Which) : (if which = .NPF_SRC then v else p).toNat + (if which = .NPF_SRC then q else v).toNat +
    (if which = .NPF_SRC then p else q).toNat = p.toNat + q.toNat + v.toNat := by
  split <;> omega

theorem TcpHdr.setPort_eq (th : TcpHdr) (which : Which) (port : BitVec 16) : th.setPort which port =
    ⟨if which = .NPF_SRC then port else th.thSport, if which = .NPF_SRC then th.thDport else port, th.thSum, th.others⟩ := by
  cases which <;> rfl

theorem UdpHdr.setPort_eq (uh : UdpHdr) (which : Which) (port : BitVec 16) : uh.setPort which port =
    ⟨if which = .NPF_SRC then port else uh.uhSport, if which = .NPF_SRC then uh.uhDport else port, uh.uhUlen, uh.uhSum⟩ := by
  cases which <;> rfl

theorem wordSum_l4Words_rewritten (hl4 : Checksummed npc) : wordSum (l4Words o (rewritten npc which addr port ipSum sum)) +
    (npc.l4.sum.toNat + wordSum (oldWords npc which port)) = wordSum (l4Words o npc) + (sum.toNat + wordSum (newWords npc addr port)) := by
  have haddr := @wordSum_addrWords_rewritten npc which addr port ipSum sum
  have hpseudo (len : Nat) := @pseudoHdr_rewritten o npc which addr port ipSum sum len
  have hl4' : (rewritten npc which addr port ipSum sum).l4 = npc.l4.rewritten which port sum := rfl
  have hpayload : (rewritten npc which addr port ipSum sum).payload = npc.payload := rfl
  rw [l4Words, l4Words, hl4', hpayload, oldWords, newWords]
  rw [Checksummed] at hl4
  cases htype : npc.l4 with
  | tcp th =>
    simp only [L4Hdr.rewritten, L4Hdr.sum, L4Hdr.port, hpseudo, wordSum_append, wordSum_cons]
    by_cases hport : port = 0
    · simp only [if_pos hport, wordSum_nil]
      omega
    have hports := ports_rewritten th.thSport th.thDport port which
    simp only [if_neg hport, TcpHdr.setPort_eq, TcpHdr.port, wordSum_cons, wordSum_nil]
    omega
  | udp uh =>
    simp only [L4Hdr.rewritten, L4Hdr.sum, L4Hdr.port, hpseudo, wordSum_append, wordSum_cons]
    by_cases hport : port = 0
    · simp only [if_pos hport, wordSum_nil]
      omega
    have hports := ports_rewritten uh.uhSport uh.uhDport port which
    simp only [if_neg hport, UdpHdr.setPort_eq, UdpHdr.port, wordSum_cons, wordSum_nil]
    omega
  | icmp => simp only [htype] at hl4
  | none => simp only [htype] at hl4

theorem wordSum_ipWords_rewritten (hip : npc.ip ≠ .v6) : wordSum (ipWords (rewritten npc which addr port ipSum sum)) +
    (npc.ip.sum.toNat + wordSum (wordsOf (npc.ips which) (npc.alen / 2))) =
    wordSum (ipWords npc) + (ipSum.toNat + wordSum (wordsOf addr (npc.alen / 2))) := by
  have haddr := @wordSum_addrWords_rewritten npc which addr port ipSum sum
  have hip' : (rewritten npc which addr port ipSum sum).ip = npc.ip.withSum ipSum := rfl
  rw [ipWords, ipWords, hip']
  cases hversion : npc.ip with
  | v4 oldSum others =>
    simp only [IpHdr.withSum, IpHdr.sum, cons_append, wordSum_cons, wordSum_append]
    omega
  | v6 => exact absurd hversion hip

theorem npfRwrcksum_eq (o : ByteOrder) (which : Which) (addr : NpfAddr) (port : BitVec 16) (hl4 : Checksummed npc) :
    npfRwrcksum o npc which addr port = some (true, {npc with
      ip := npc.ip.withSum (npfAddrCksum o npc.ip.sum npc.alen (npc.ips which) addr)
      l4 := npc.l4.rewritten which 0 (fixupL4 o npc.l4.sum npc.alen (npc.ips which) addr (npc.l4.port which) port)}) := by
  have hip : rwrIpSum o npc which addr = npc.ip.withSum (npfAddrCksum o npc.ip.sum npc.alen (npc.ips which) addr) := by
    rw [rwrIpSum]
    cases npc.ip <;> rfl
  rw [npfRwrcksum, hip]
  rw [Checksummed] at hl4
  cases htype : npc.l4 with
  | tcp th =>
    simp only [htype] at hl4
    rw [if_neg (by change ¬true = false; decide), if_neg (by rw [hl4]; decide)]
    dsimp only
    rw [if_pos hl4]
    rfl
  | udp uh =>
    simp only [htype] at hl4
    rw [if_neg (by change ¬true = false; decide), if_neg (by rw [hl4.1]; decide)]
    dsimp only
    rw [if_pos hl4.1, if_neg hl4.2]
    rfl
  | icmp => simp only [htype] at hl4
  | none => simp only [htype] at hl4

theorem npfRwrport_eq (sum : BitVec 16) (hl4 : Checksummed npc) (hport : port ≠ 0) :
    npfRwrport {rewritten npc which addr 0 ipSum sum with proto := npc.proto} which port = some (true, rewritten npc which addr port ipSum sum) := by
  rw [npfRwrport]
  rw [Checksummed] at hl4
  cases htype : npc.l4 with
  | tcp th =>
    simp only [htype] at hl4
    simp only [htype, L4Hdr.rewritten, if_pos hl4, rewritten, if_neg hport, TcpHdr.setPort_eq, if_true]
  | udp uh =>
    simp only [htype] at hl4
    simp only [htype, L4Hdr.rewritten, if_pos hl4.1, rewritten, if_neg hport, UdpHdr.setPort_eq, if_true]
  | icmp => simp only [htype] at hl4
  | none => simp only [htype] at hl4

theorem npfNaptRwr_eq (o : ByteOrder) (which : Which) (addr : NpfAddr) (port : BitVec 16) (hl4 : Checksummed npc) :
    npfNaptRwr o npc which addr (port.setWidth 32) = some (none, rewritten npc which addr port
      (npfAddrCksum o npc.ip.sum npc.alen (npc.ips which) addr)
      (fixupL4 o npc.l4.sum npc.alen (npc.ips which) addr (npc.l4.port which) port)) := by
  have hnarrow : (port.setWidth 32).setWidth 16 = port := by
    apply BitVec.eq_of_toNat_eq
    rw [BitVec.toNat_setWidth, toNat_widened, mod_eq_of_lt port.isLt]
  have halen : NpfCache.alen {npc with
      ip := npc.ip.withSum (npfAddrCksum o npc.ip.sum npc.alen (npc.ips which) addr)
      l4 := npc.l4.rewritten which 0 (fixupL4 o npc.l4.sum npc.alen (npc.ips which) addr (npc.l4.port which) port)} = npc.alen :=
    alen_rewritten npc which addr 0 _ 0
  rw [npfNaptRwr, hnarrow, npfRwrcksum_eq o which addr port hl4, Option.bind_some, npfRwrip, halen]
  dsimp only
  by_cases hport : port = 0
  · rw [hport]
    rfl
  have hwide : port.setWidth 32 ≠ 0 := by
    intro h
    rw [h] at hnarrow
    exact hport hnarrow.symm
  have hproto : npc.proto = IPPROTO_TCP ∨ npc.proto = IPPROTO_UDP := by
    rw [Checksummed] at hl4
    cases htype : npc.l4 with
    | tcp th =>
      simp only [htype] at hl4
      exact .inl hl4
    | udp uh =>
      simp only [htype] at hl4
      exact .inr hl4.1
    | icmp => simp only [htype] at hl4
    | none => simp only [htype] at hl4
  rw [if_neg hwide, if_pos hproto]
  refine (congrArg (Option.map _) (npfRwrport_eq _ hl4 hport)).trans ?_
  rfl

theorem wordSum_ipWords_filled (hip : npc.ip ≠ .v6) : wordSum (ipWords (rewritten npc which addr port ipSum sum)) =
    ipSum.toNat + wordSum (ipWords (rewritten npc which addr port 0 0)) := by
  have hzero : (0 : BitVec 16).toNat = 0 := rfl
  have hzeroed := @wordSum_ipWords_rewritten npc which addr port 0 0 hip
  have hfilled := @wordSum_ipWords_rewritten npc which addr port ipSum sum hip
  omega

theorem wordSum_l4Words_filled (hl4 : Checksummed npc) : wordSum (l4Words o (rewritten npc which addr port ipSum sum)) =
    sum.toNat + wordSum (l4Words o (rewritten npc which addr port 0 0)) := by
  have hzero : (0 : BitVec 16).toNat = 0 := rfl
  have hzeroed := @wordSum_l4Words_rewritten o npc which addr port 0 0 hl4
  have hfilled := @wordSum_l4Words_rewritten o npc which addr port ipSum sum hl4
  omega

/-- **Checksums stay right.** The checksum of an IPv4 header and the one of TCP or UDP, if they were right, are right after the
translation, and are what they would be if they were computed afresh. -/
theorem napt_rwr_cksum (o : ByteOrder) (npc : NpfCache) (which : Which) (addr : NpfAddr) (port : BitVec 16) (hl4 : Checksummed npc)
    (hip : wordSum (ipWords npc) ≡ 0 [MOD 65535]) (htransport : wordSum (l4Words o npc) ≡ 0 [MOD 65535]) :
    ∃ ipSum sum, npfNaptRwr o npc which addr (port.setWidth 32) = some (none, rewritten npc which addr port ipSum sum) ∧
      wordSum (ipWords (rewritten npc which addr port ipSum sum)) ≡ 0 [MOD 65535] ∧
      wordSum (l4Words o (rewritten npc which addr port ipSum sum)) ≡ 0 [MOD 65535] ∧
      (npc.ip ≠ .v6 → ipSum.toNat ≡ (inCksum (ipWords (rewritten npc which addr port 0 0))).toNat [MOD 65535]) ∧
      sum.toNat ≡ (inCksum (l4Words o (rewritten npc which addr port 0 0))).toNat [MOD 65535] := by
  have hzero : (0 : BitVec 16).toNat = 0 := rfl
  have hipFix := npfAddrCksum_modEq o npc npc.ip.sum which addr
  have hfix := fixupL4_modEq o npc npc.l4.sum which addr port
  have hipValid (hv4 : npc.ip ≠ .v6) : (npfAddrCksum o npc.ip.sum npc.alen (npc.ips which) addr).toNat +
      wordSum (ipWords (rewritten npc which addr port 0 0)) ≡ 0 [MOD 65535] := by
    have hchange := @wordSum_ipWords_rewritten npc which addr port 0 0 hv4
    rw [ModEq] at hip hipFix ⊢
    omega
  have hvalid : (fixupL4 o npc.l4.sum npc.alen (npc.ips which) addr (npc.l4.port which) port).toNat +
      wordSum (l4Words o (rewritten npc which addr port 0 0)) ≡ 0 [MOD 65535] := by
    have hchange := @wordSum_l4Words_rewritten o npc which addr port 0 0 hl4
    rw [ModEq] at htransport hfix ⊢
    omega
  refine ⟨_, _, npfNaptRwr_eq o which addr port hl4, ?_, ?_, fun hv4 => modEq_inCksum (hipValid hv4), modEq_inCksum hvalid⟩
  · by_cases hv6 : npc.ip = .v6
    · rw [rewritten, hv6]
      rfl
    · rw [wordSum_ipWords_filled hv6]
      exact hipValid hv6
  · rw [wordSum_l4Words_filled hl4]
    exact hvalid

end Rewrite

/-- A datagram from 10.0.0.2 to 192.0.2.9, as a little-endian host loads it. -/
def datagram : NpfCache where
  ip := .v4 0xc2ae [0x0045, 0x1f00, 0x0100, 0, 0x1140]
  ips := fun which i => (if which = .NPF_SRC then [0x000a, 0x0200] else [0x00c0, 0x0902]).getD i 0
  proto := IPPROTO_UDP
  l4 := .udp ⟨0x0004, 0x3500, 0x0b00, 0x3924⟩
  payload := [234, 94, 33]

def publicAddr : NpfAddr := fun i => [0x33c6, 0x0764].getD i 0

theorem napt_rwr_cksum_datagram : ∃ ipSum sum, npfNaptRwr .little datagram .NPF_DST publicAddr ((0x0008 : BitVec 16).setWidth 32) =
      some (none, rewritten datagram .NPF_DST publicAddr 0x0008 ipSum sum) ∧
    wordSum (ipWords (rewritten datagram .NPF_DST publicAddr 0x0008 ipSum sum)) ≡ 0 [MOD 65535] ∧
    wordSum (l4Words .little (rewritten datagram .NPF_DST publicAddr 0x0008 ipSum sum)) ≡ 0 [MOD 65535] := by
  obtain ⟨ipSum, sum, hrun, hip, hl4, -⟩ := napt_rwr_cksum .little datagram .NPF_DST publicAddr 0x0008
    ⟨rfl, by decide⟩ (by decide) (by decide)
  exact ⟨ipSum, sum, hrun, hip, hl4⟩

/-- The words that go and the checksum are worth what comes, so that a checksum of zero results. The exception is the zero that nothing
is added to. -/
def Cancels (c : BitVec 16) (old new : List (BitVec 16)) : Prop :=
  c.toNat + wordSum old ≡ wordSum new [MOD 65535] ∧ ¬(c = 0xffff ∧ (∀ w ∈ old, w = 0xffff) ∧ ∀ w ∈ new, w = 0)

theorem wordSum_eq_zero (ws : List (BitVec 16)) : wordSum ws = 0 ↔ ∀ w ∈ ws, w = 0 := by
  induction ws with
  | nil => exact iff_of_true rfl fun w hw => absurd hw not_mem_nil
  | cons w ws ih =>
    rw [wordSum_cons, Nat.add_eq_zero_iff, ih, forall_mem_cons, BitVec.toNat_eq]
    rfl

theorem wordSum_not_eq_zero (ws : List (BitVec 16)) : wordSum (ws.map (~~~·)) = 0 ↔ ∀ w ∈ ws, w = 0xffff := by
  rw [wordSum_eq_zero, forall_mem_map]
  refine forall₂_congr fun w _ => ?_
  rw [BitVec.toNat_eq, BitVec.toNat_eq, toNat_not16, show (0 : BitVec 16).toNat = 0 from rfl, show (0xffff : BitVec 16).toNat = 65535 from rfl]
  omega

theorem stored_eq_zero (c : BitVec 16) (old new : List (BitVec 16)) :
    stored c (wordSum (old.map (~~~·)) + wordSum new) = 0 ↔ Cancels c old new := by
  have hle := endAround_le (show 0 < 65535 by decide) ((65535 - c.toNat) + (wordSum (old.map (~~~·)) + wordSum new))
  have htop := @endAround_eq_top 65535 ((65535 - c.toNat) + (wordSum (old.map (~~~·)) + wordSum new)) (by decide)
  have hold := wordSum_not old
  have hcFull : c = 0xffff ↔ 65535 - c.toNat = 0 := by
    rw [BitVec.toNat_eq, show (0xffff : BitVec 16).toNat = 65535 from rfl]
    omega
  have hsum : c.toNat + wordSum old ≡ wordSum new [MOD 65535] ↔
      (65535 - c.toNat) + (wordSum (old.map (~~~·)) + wordSum new) ≡ 0 [MOD 65535] := by
    rw [ModEq, ModEq]
    omega
  rw [Cancels, ← wordSum_not_eq_zero, ← wordSum_eq_zero, hcFull, hsum, stored, and_comm (a := _ ≡ _ [MOD 65535])]
  constructor
  · intro h
    obtain ⟨hpos, hzero⟩ := htop.mp (by omega)
    exact ⟨by omega, hzero⟩
  intro h
  have hpos : 0 < (65535 - c.toNat) + (wordSum (old.map (~~~·)) + wordSum new) := by omega
  have hfull := htop.mpr ⟨hpos, h.2⟩
  omega

/-- **The checksum of a datagram** after the fix-ups is not zero, which would mean that there is none, unless what goes and what comes
cancel. -/
theorem rwrcksum_udp (o : ByteOrder) (npc : NpfCache) (which : Which) (addr : NpfAddr) (port : BitVec 16) (uh : UdpHdr)
    (hproto : npc.proto = IPPROTO_UDP) (hl4 : npc.l4 = .udp uh) (hsum : uh.uhSum ≠ 0) :
    (∃ npc' uh', npfRwrcksum o npc which addr port = some (true, npc') ∧ npc'.l4 = .udp uh' ∧ uh'.uhSum ≠ 0) ↔
      ¬Cancels uh.uhSum (oldWords npc which port) (newWords npc addr port) := by
  have hchecked : Checksummed npc := by
    rw [Checksummed, hl4]
    exact ⟨hproto, hsum⟩
  have hrun := npfRwrcksum_eq o which addr port hchecked
  have hstored := fixupL4_stored o npc uh.uhSum which addr port
  rw [← stored_eq_zero, ← hstored]
  rw [hl4] at hrun ⊢
  constructor
  · intro h hzero
    obtain ⟨npc', uh', hrun', hl4', hne⟩ := h
    obtain rfl : _ = npc' := congrArg Prod.snd (Option.some.inj (hrun.symm.trans hrun'))
    obtain rfl := L4Hdr.udp.inj hl4'
    exact hne (BitVec.eq_of_toNat_eq hzero)
  · intro h
    exact ⟨_, _, hrun, rfl, fun hzero => h (congrArg BitVec.toNat hzero)⟩

/-- A translation of the destination, where nothing cancels. -/
theorem rwrcksum_udp_datagram : ¬Cancels 0x3924 (oldWords datagram .NPF_DST 0x0008) (newWords datagram publicAddr 0x0008) ∧
    ∃ npc' uh', npfRwrcksum .little datagram .NPF_DST publicAddr 0x0008 = some (true, npc') ∧ npc'.l4 = .udp uh' ∧ uh'.uhSum ≠ 0 :=
  have hkept : ¬Cancels 0x3924 (oldWords datagram .NPF_DST 0x0008) (newWords datagram publicAddr 0x0008) :=
    fun h => absurd h.1 (by decide)
  ⟨hkept, (rwrcksum_udp .little datagram .NPF_DST publicAddr 0x0008 ⟨0x0004, 0x3500, 0x0b00, 0x3924⟩ rfl rfl (by decide)).mpr hkept⟩

/-- A translation of the source to port 2048, which leaves a datagram with a checksum without one. -/
theorem rwrcksum_udp_lost : ¬∀ (o : ByteOrder) (npc : NpfCache) (which : Which) (addr : NpfAddr) (port : BitVec 16) (uh : UdpHdr),
    npc.proto = IPPROTO_UDP → npc.l4 = .udp uh → uh.uhSum ≠ 0 → wordSum (ipWords npc) ≡ 0 [MOD 65535] →
    wordSum (l4Words o npc) ≡ 0 [MOD 65535] →
    ∃ npc' uh', npfRwrcksum o npc which addr port = some (true, npc') ∧ npc'.l4 = .udp uh' ∧ uh'.uhSum ≠ 0 := by
  intro h
  obtain ⟨npc', uh', hrun, hl4, hne⟩ := h .little datagram .NPF_SRC publicAddr 0x0008 ⟨0x0004, 0x3500, 0x0b00, 0x3924⟩ rfl rfl
    (by decide) (by decide) (by decide)
  have hchecked : Checksummed datagram := ⟨rfl, by decide⟩
  obtain rfl : _ = npc' := congrArg Prod.snd (Option.some.inj ((npfRwrcksum_eq .little .NPF_SRC publicAddr 0x0008 hchecked).symm.trans hrun))
  obtain rfl := L4Hdr.udp.inj hl4
  exact hne (show fixupL4 .little 0x3924 4 (datagram.ips .NPF_SRC) publicAddr 0x0004 0x0008 = 0 by decide)

end NetBSD.Net.Npf.Inet
