import NetBSD.Netinet.IpFragment.Fragment

/-! The three loops over the options of an IPv4 header (`sys/netinet/ip_input.c`, `sys/netinet/ip_output.c`).

`ip_dooptions` goes over the options of a packet that has come in and writes addresses and times into some of them, `ip_pcbopts` over
those that a process sets for a socket, and `ip_optcopy` over those of a packet that is fragmented. Each counts what is left in a `cnt`
of its own. Their pointer `cp` is here the list of the bytes that really are left, so that it shows when one behind them is touched. -/
namespace NetBSD.Netinet.IpOptions
open IpFragment (Byte IPOPT_EOL IPOPT_NOP ipoptCopied padOptions)

def IPOPT_RR : Byte := 7
def IPOPT_TS : Byte := 68
def IPOPT_LSRR : Byte := 131
def IPOPT_SSRR : Byte := 137
def IPOPT_OPTVAL : Nat := 0
def IPOPT_OLEN : Nat := 1
def IPOPT_OFFSET : Nat := 2
def IPOPT_MINOFF : Nat := 4
def IPOPT_TS_TSONLY : Byte := 0
def IPOPT_TS_TSANDADDR : Byte := 1
def IPOPT_TS_PRESPEC : Byte := 3
def ICMP_UNREACH : Nat := 3
def ICMP_UNREACH_HOST : Nat := 1
def ICMP_UNREACH_SRCFAIL : Nat := 5
def ICMP_UNREACH_NET_PROHIB : Nat := 9
def ICMP_PARAMPROB : Nat := 12
def MAX_IPOPTLEN : Nat := 40

/-- `struct in_addr`, in the order of the network. -/
abbrev InAddr := Vector Byte 4

def inMulticast (a : InAddr) : Bool := a[0] &&& 0xf0 = 0xe0

/-- Why a function does not get to its end: a byte behind the header is touched, an assertion fails, the packet is bad and is answered
with an ICMP message, or the rounds of a loop are not enough. -/
inductive Stop where
  | beyond
  | assertion
  | bad (type code : Nat)
  | rounds
  deriving DecidableEq

def load (cp : List Byte) (i : Nat) : Except Stop Byte :=
  match cp[i]? with
  | some b => .ok b
  | none => .error .beyond

def loadN (cp : List Byte) (n : Nat) : Except Stop (List Byte) := if n ≤ cp.length then .ok (cp.take n) else .error .beyond

def loadAddr (cp : List Byte) (i : Nat) : Except Stop InAddr := do
  return #v[← load cp i, ← load cp (i + 1), ← load cp (i + 2), ← load cp (i + 3)]

def store (cp : List Byte) (i : Nat) (bs : List Byte) : Except Stop (List Byte) :=
  if i + bs.length ≤ cp.length then .ok (cp.take i ++ (bs ++ cp.drop (i + bs.length))) else .error .beyond

def kassert (diagnostic : Bool) (p : Prop) [Decidable p] : Except Stop Unit :=
  if diagnostic = true ∧ ¬p then .error .assertion else .ok ()

/-- An option that is not the end of the list: how far the loop moves on, and what it copies. -/
def copyOption (diagnostic : Bool) (cnt : Int) (opt : Byte) (cp : List Byte) : Except Stop (Nat × List Byte) :=
  if opt = IPOPT_NOP then .ok (1, [IPOPT_NOP])
  else do
    kassert diagnostic (cnt ≥ IPOPT_OLEN + 1)
    let optlen := (← load cp IPOPT_OLEN).toNat
    kassert diagnostic (optlen ≥ IPOPT_OLEN + 1 ∧ optlen < cnt)
    let optlen := if optlen > cnt then cnt.toNat else optlen
    if ipoptCopied opt then return (optlen, ← loadN cp optlen) else return (optlen, [])

def ipOptcopyLoop (diagnostic : Bool) : Nat → Int → List Byte → List Byte → Except Stop (List Byte)
  | 0, _, _, _ => .error .rounds
  | rounds + 1, cnt, cp, dp =>
    if cnt > 0 then do
      let opt ← load cp 0
      if opt = IPOPT_EOL then return dp
      else do
        let (optlen, bytes) ← copyOption diagnostic cnt opt cp
        ipOptcopyLoop diagnostic rounds (cnt - optlen) (cp.drop optlen) (dp ++ bytes)
    else return dp

/-- What is written to the other header, whose length is what is returned; `options` is what is behind the first twenty bytes. -/
def ipOptcopy (diagnostic : Bool) (hl : BitVec 4) (options : List Byte) : Except Stop (List Byte) := do
  let dp ← ipOptcopyLoop diagnostic (options.length + 1) (4 * hl.toNat - 20) options []
  return padOptions dp

/-! ### `ip_dooptions` -/

/-- What the settings, the tables of addresses and routes, the interface the packet has come in on, and the clock say. -/
structure Env where
  allowsrcrt : Bool
  forwsrcrt : Bool
  ifwithaddr : InAddr → Option InAddr
  ifwithladdr : InAddr → Option InAddr
  rtaddr : InAddr → Option InAddr
  rcvif : Bool
  ifpforaddr : InAddr → Option InAddr
  time : InAddr

/-- What the loop keeps beside the options: `ip_dst`, which options were there, and the interface address found last. -/
structure Seen where
  dst : InAddr
  srr : Bool
  rr : Bool
  ts : Bool
  forward : Bool
  ifa : Option InAddr

/-- `IPOPT_LSRR` and `IPOPT_SSRR`. -/
def sourceRoute (env : Env) (pos : Nat) (opt : Byte) (optlen : Nat) (s : Seen) (cp : List Byte) : Except Stop (Seen × List Byte) :=
  if env.allowsrcrt = false then .error (.bad ICMP_UNREACH ICMP_UNREACH_NET_PROHIB)
  else if s.srr then .error (.bad ICMP_PARAMPROB (pos + IPOPT_OPTVAL))
  else if optlen < IPOPT_OFFSET + 1 then .error (.bad ICMP_PARAMPROB (pos + IPOPT_OLEN))
  else do
    let offset ← load cp IPOPT_OFFSET
    if offset.toNat < IPOPT_MINOFF then .error (.bad ICMP_PARAMPROB (pos + IPOPT_OFFSET))
    else match env.ifwithaddr s.dst with
      | none =>
        if opt = IPOPT_SSRR then .error (.bad ICMP_UNREACH ICMP_UNREACH_SRCFAIL)
        else return ({ s with srr := true, ifa := none }, cp)
      | some ifa => do
        let off := offset.toNat - 1
        -- the end of the route: `save_rte` keeps a copy
        if off + 4 > optlen then return ({ s with srr := true, ifa := some ifa }, cp)
        else do
          let dst ← loadAddr cp off
          match if opt = IPOPT_SSRR then env.ifwithladdr dst else env.rtaddr dst with
          | none => .error (.bad ICMP_UNREACH ICMP_UNREACH_SRCFAIL)
          | some ia => do
            let cp ← store cp off ia.toList
            let cp ← store cp IPOPT_OFFSET [offset + 4]
            return ({ s with
              dst := dst, srr := true, forward := !inMulticast dst, ifa := some (if opt = IPOPT_SSRR then ia else ifa) }, cp)

def recordRoute (env : Env) (pos optlen : Nat) (s : Seen) (cp : List Byte) : Except Stop (Seen × List Byte) :=
  if s.rr then .error (.bad ICMP_PARAMPROB (pos + IPOPT_OPTVAL))
  else if optlen < IPOPT_OFFSET + 1 then .error (.bad ICMP_PARAMPROB (pos + IPOPT_OLEN))
  else do
    let offset ← load cp IPOPT_OFFSET
    if offset.toNat < IPOPT_MINOFF then .error (.bad ICMP_PARAMPROB (pos + IPOPT_OFFSET))
    else
      let off := offset.toNat - 1
      if off + 4 > optlen then return ({ s with rr := true }, cp)
      else
        match (env.ifwithaddr s.dst).or (env.rtaddr s.dst) with
        | none => .error (.bad ICMP_UNREACH ICMP_UNREACH_HOST)
        | some ia => do
          let cp ← store cp off ia.toList
          let cp ← store cp IPOPT_OFFSET [offset + 4]
          return ({ s with rr := true, ifa := env.ifwithaddr s.dst }, cp)

/-- The time goes where `ipt_ptr` says. -/
def stamp (env : Env) (s : Seen) (cp : List Byte) : Except Stop (Seen × List Byte) := do
  let ptr ← load cp 2
  let cp ← store cp (ptr.toNat - 1) env.time.toList
  let cp ← store cp 2 [ptr + 4]
  return (s, cp)

/-- `IPOPT_TS`; the fields of `struct ip_timestamp` are at 1 (`ipt_len`), 2 (`ipt_ptr`) and 3 (`ipt_oflw` and `ipt_flg`). -/
def timestamp (env : Env) (dst : InAddr) (pos : Nat) (s : Seen) (cp : List Byte) : Except Stop (Seen × List Byte) :=
  if s.ts then .error (.bad ICMP_PARAMPROB (pos + IPOPT_OPTVAL))
  else do
    let len := (← load cp 1).toNat
    if len < 4 ∨ len > 40 then .error (.bad ICMP_PARAMPROB (pos + 1))
    else do
      let ptr ← load cp 2
      if ptr.toNat < 5 then .error (.bad ICMP_PARAMPROB (pos + 2))
      else do
        let s := { s with ts := true }
        let field ← load cp 3
        if ptr.toNat > len - 4 then do
          let cp ← store cp 3 [field + 0x10]
          if (field + 0x10) >>> 4 = 0 then .error (.bad ICMP_PARAMPROB (pos + 2)) else return (s, cp)
        else if field &&& 0x0f = IPOPT_TS_TSONLY then stamp env s cp
        else if field &&& 0x0f = IPOPT_TS_TSANDADDR then
          if ptr.toNat - 1 + 4 + 4 > len then .error (.bad ICMP_PARAMPROB (pos + 2))
          else
            match if env.rcvif then env.ifpforaddr dst else s.ifa with
            | none => stamp env { s with ifa := none } cp
            | some ia => do
              let cp ← store cp (ptr.toNat - 1) ia.toList
              let cp ← store cp 2 [ptr + 4]
              stamp env { s with ifa := some ia } cp
        else if field &&& 0x0f = IPOPT_TS_PRESPEC then
          if ptr.toNat - 1 + 4 + 4 > len then .error (.bad ICMP_PARAMPROB (pos + 2))
          else do
            let addr ← loadAddr cp (ptr.toNat - 1)
            match env.ifwithaddr addr with
            | none => return ({ s with ifa := none }, cp)
            | some ia => do
              let cp ← store cp 2 [ptr + 4]
              stamp env { s with ifa := some ia } cp
        else .error (.bad ICMP_PARAMPROB (pos + 3))

def dooption (env : Env) (dst : InAddr) (pos : Nat) (opt : Byte) (optlen : Nat) (s : Seen) (cp : List Byte) :
    Except Stop (Seen × List Byte) :=
  if opt = IPOPT_LSRR ∨ opt = IPOPT_SSRR then sourceRoute env pos opt optlen s cp
  else if opt = IPOPT_RR then recordRoute env pos optlen s cp
  else if opt = IPOPT_TS then timestamp env dst pos s cp
  else .ok (s, cp)

/-- How long the option is at `cp`, which is not the end of the list. -/
def optionLength (cnt : Int) (pos : Nat) (opt : Byte) (cp : List Byte) : Except Stop Nat :=
  if opt = IPOPT_NOP then .ok 1
  else if cnt < IPOPT_OLEN + 1 then .error (.bad ICMP_PARAMPROB (pos + IPOPT_OLEN))
  else do
    let optlen := (← load cp IPOPT_OLEN).toNat
    if optlen < IPOPT_OLEN + 1 ∨ optlen > cnt then .error (.bad ICMP_PARAMPROB (pos + IPOPT_OLEN)) else return optlen

/-- The loop; `env` is what is found out when `cnt` bytes are left, and `pos` is where `cp` is in the header. -/
def dooptionsLoop (env : Nat → Env) (dst : InAddr) : Nat → Int → Nat → Seen → List Byte → Except Stop (Seen × List Byte)
  | 0, _, _, _, _ => .error .rounds
  | rounds + 1, cnt, pos, s, cp =>
    if cnt > 0 then do
      let opt ← load cp IPOPT_OPTVAL
      if opt = IPOPT_EOL then return (s, cp)
      else do
        let optlen ← optionLength cnt pos opt cp
        let (s, cp) ← dooption (env cnt.toNat) dst pos opt optlen s cp
        let (s, rest) ← dooptionsLoop env dst rounds (cnt - optlen) (pos + optlen) s (cp.drop optlen)
        return (s, cp.take optlen ++ rest)
    else return (s, cp)

/-- The header behind the first twenty bytes, and whether the packet has been forwarded. -/
structure Processed where
  dst : InAddr
  options : List Byte
  forwarded : Bool
  deriving DecidableEq

def ipDooptions (env : Nat → Env) (hl : BitVec 4) (dst : InAddr) (options : List Byte) : Except Stop Processed := do
  let (s, options) ← dooptionsLoop env dst (options.length + 1) (4 * hl.toNat - 20) 20 ⟨dst, false, false, false, false, none⟩ options
  if s.forward = false then return ⟨s.dst, options, false⟩
  else if (env 0).forwsrcrt = false then .error (.bad ICMP_UNREACH ICMP_UNREACH_SRCFAIL)
  else if (env 0).rcvif = false then .error (.bad ICMP_UNREACH ICMP_UNREACH_HOST)
  else return ⟨s.dst, options, true⟩

/-- The mbuf of `inp_options`: four bytes of address, then options; `len` is its `m_len`. -/
structure Opts where
  data : List Byte
  len : Nat

/-- What `ip_insertoptions` puts behind the header. -/
def Opts.list (m : Opts) : List Byte := (m.data.drop 4).take (m.len - 4)

inductive Errno where
  | EINVAL
  | ENOBUFS

/-- `memcpy` to a place in the mbuf. -/
def Opts.write (m : Opts) (i : Nat) (bs : List Byte) : Opts := { m with data := m.data.take i ++ (bs ++ m.data.drop (i + bs.length)) }

/-- How long the option is at `cp`; `none` is `bad`, here and below. -/
def pcboptLength (cp : List Byte) (optval : Byte) : Option Nat :=
  if optval = IPOPT_EOL ∨ optval = IPOPT_NOP then some 1
  else if cp.length < IPOPT_OLEN + 1 then none
  else
    let olen := (cp.getD IPOPT_OLEN 0).toNat
    if olen < IPOPT_OLEN + 1 ∨ olen > cp.length then none else some olen

/-- The round of the loop: it is left at the end of both branches. -/
def pcbopt (m : Opts) (cp : List Byte) : Option Opts :=
  let optval := cp.headD 0
  (pcboptLength cp optval).bind fun olen =>
    if optval = IPOPT_LSRR ∨ optval = IPOPT_SSRR then
      if olen < IPOPT_OFFSET + 1 + 4 then none
      else
        let offset := cp.getD IPOPT_OFFSET 0
        let m := m.write 0 ((cp.drop (IPOPT_OFFSET + 1)).take 4)
        let cp := cp.drop 4
        let olen := olen - 4
        if m.len + olen > MAX_IPOPTLEN + 4 then none
        else some ((m.write 4 (cp.take olen)).write 4 [optval, BitVec.ofNat 8 olen, offset])
    else if m.len + olen > MAX_IPOPTLEN + 4 then none
    else some (m.write 4 (cp.take olen))

/-- What is returned, and `inp_options` then; `mget` is what is in the mbuf that `m_get` gives. -/
def ipPcbopts (mget : Option (List Byte)) (sopt : List Byte) : Option Errno × Option Opts :=
  if sopt.length = 0 then (none, none)
  else if sopt.length % 4 ≠ 0 then (some .EINVAL, none)
  else
    match mget with
    | none => (some .ENOBUFS, none)
    | some data =>
      match pcbopt ((⟨data, 4⟩ : Opts).write 0 [0, 0, 0, 0]) sopt with
      | none => (some .EINVAL, none)
      | some m => (none, some m)

end NetBSD.Netinet.IpOptions
