import Mathlib.Data.BitVec
import Mathlib.Tactic.Common
import Mathlib.Data.List.Basic

/-! IPv4 fragmentation (`sys/netinet/ip_output.c`).

`ip_fragment` makes a chain of a packet: the packet itself, cut behind its first piece, and a new packet for each further
piece. The chain is the list of its packets. A failed assertion stops a kernel with `DIAGNOSTIC`, and is then the answer
`none`. -/
namespace NetBSD.Netinet.IpFragment
open List Nat

abbrev Byte := BitVec 8

def IP_RF : BitVec 16 := 0x8000
def IP_DF : BitVec 16 := 0x4000
def IP_MF : BitVec 16 := 0x2000
def IP_OFFMASK : BitVec 16 := 0x1fff
def IPOPT_EOL : Byte := 0
def IPOPT_NOP : Byte := 1

def ipoptCopied (o : Byte) : Bool := o &&& 0x80 ≠ 0

/-- `struct ip`, but for the version and the checksum. -/
structure Ip where
  hl : BitVec 4
  tos : BitVec 8
  len : BitVec 16
  id : BitVec 16
  off : BitVec 16
  ttl : BitVec 8
  p : BitVec 8
  src : BitVec 32
  dst : BitVec 32
  deriving DecidableEq

/-- A packet: its header, the options in it, and the payload. -/
structure Packet where
  ip : Ip
  options : List Byte
  data : List Byte
  deriving DecidableEq

def Packet.hlen (m : Packet) : Nat := 4 * m.ip.hl.toNat

/-- The loop over the options, of which `cp` are left. -/
def ipOptcopyLoop (diagnostic : Bool) : Nat → List Byte → Option (List Byte)
  | 0, _ => none
  | rounds + 1, cp =>
    match cp with
    | [] => some []
    | opt :: rest =>
      if opt = IPOPT_EOL then some []
      else if opt = IPOPT_NOP then (ipOptcopyLoop diagnostic rounds rest).map fun dp => IPOPT_NOP :: dp
      else
        let cnt := cp.length
        let optlen := (rest.headD 0).toNat
        if diagnostic ∧ ¬ (cnt ≥ 2 ∧ optlen ≥ 2 ∧ optlen < cnt) then none
        else
          let optlen := if optlen > cnt then cnt else optlen
          (ipOptcopyLoop diagnostic rounds (cp.drop optlen)).map fun dp =>
            if ipoptCopied opt then cp.take optlen ++ dp else dp

def padOptions (dp : List Byte) : List Byte := dp ++ replicate ((4 - dp.length % 4) % 4) IPOPT_EOL

def ipOptcopy (diagnostic : Bool) (options : List Byte) : Option (List Byte) :=
  (ipOptcopyLoop diagnostic (options.length + 1) options).map padOptions

/-- Whether the allocations for a further fragment succeed. -/
structure Alloc where
  gethdr : Bool
  copym : Bool

inductive Errno where
  | EMSGSIZE
  | ENOBUFS
  deriving DecidableEq

/-- The header and the payload of a further fragment, which has `len` bytes from `off` on. -/
def fragment (m0 : Packet) (options : List Byte) (off len : Nat) (last : Bool) : Packet :=
  let ip := m0.ip
  let hlen := m0.hlen
  let mhlen := 20 + options.length
  let ipoff := ip.off &&& IP_OFFMASK
  let ipflg := ip.off &&& (IP_RF ||| IP_DF ||| IP_MF)
  ⟨{ ip with
      hl := if hlen > 20 then BitVec.ofNat 4 (mhlen / 4) else ip.hl
      off := BitVec.ofNat 16 ((off - hlen) / 8 + ipoff.toNat) ||| ipflg ||| if last then 0 else IP_MF
      len := BitVec.ofNat 16 (len + mhlen) },
    options, (m0.data.drop (off - hlen)).take len⟩

/-- The loop over the payload behind the first fragment. A failure is answered with the fragments that are linked to the
chain by then. -/
def fragmentLoop (diagnostic : Bool) (m0 : Packet) (alloc : Nat → Alloc) : Nat → Nat → Nat → Nat → Option (List Packet × Option Errno)
  | 0, _, _, _ => none
  | rounds + 1, fragments, off, len =>
    if off < m0.ip.len.toNat then
      if (alloc fragments).gethdr = false then some ([], some .ENOBUFS)
      else do
        let options ← (if m0.hlen > 20 then ipOptcopy diagnostic m0.options else some [])
        let last := off + len ≥ m0.ip.len.toNat
        let len := if last then m0.ip.len.toNat - off else len
        let m := fragment m0 options off len last
        if (alloc fragments).copym = false then some ([{ m with data := [] }], some .ENOBUFS)
        else (fragmentLoop diagnostic m0 alloc rounds (fragments + 1) (off + len) len).map fun r => (m :: r.1, r.2)
    else some ([], none)

/-- The packet, cut behind its first `firstlen` bytes. -/
def trimFirst (m : Packet) (firstlen : Nat) : Packet :=
  { m with
    ip := { m.ip with len := BitVec.ofNat 16 (m.hlen + firstlen), off := m.ip.off ||| IP_MF }
    data := m.data.take firstlen }

/-- What is left to the caller, and what has been freed. -/
structure Outcome where
  error : Option Errno
  chain : List Packet
  freed : List Packet
  deriving DecidableEq

/-- `room` is what the send queue of the interface can take, if there is an interface. -/
def ipFragment (diagnostic : Bool) (m : Packet) (room : Option Int) (mtu : Nat) (alloc : Nat → Alloc) : Option Outcome :=
  let hlen := m.hlen
  let len := (mtu - hlen) / 8 * 8
  if len < 8 then some ⟨some .EMSGSIZE, [], [m]⟩
  else do
    let (chain, error) ← fragmentLoop diagnostic m alloc (m.ip.len.toNat + 1) 0 (hlen + len) len
    let first := if error.isSome then m else trimFirst m len
    let error := if error = none ∧ (room.any fun n => n < (chain.length : Int)) then some .ENOBUFS else error
    match error with
    | some error => return ⟨some error, [], first :: chain⟩
    | none => return ⟨none, first :: chain, []⟩

/-! The pieces of a packet.

The loop of `ip_fragment` is where the payload is cut: from a position on it makes the pieces of what is left (`Cut`), each
with the offset of its position and all but the last with the flag MF. Options of the copied class, and the NOPs, are in
every piece. -/

/-! ### Options -/

inductive Opt where
  | nop
  | opt (type : Byte) (data : List Byte)

def Opt.bytes : Opt → List Byte
  | .nop => [IPOPT_NOP]
  | .opt type data => type :: BitVec.ofNat 8 (data.length + 2) :: data

def Opt.Ok : Opt → Prop
  | .nop => True
  | .opt type data => type ≠ IPOPT_EOL ∧ type ≠ IPOPT_NOP ∧ data.length + 2 < 256

instance : DecidablePred Opt.Ok
  | .nop => inferInstanceAs (Decidable True)
  | .opt .. => inferInstanceAs (Decidable (_ ∧ _ ∧ _))

/-- An option of the copied class, or a NOP. -/
def Opt.copied : Opt → Bool
  | .nop => true
  | .opt type _ => ipoptCopied type

def render (opts : List Opt) : List Byte := opts.flatMap Opt.bytes

/-- The bytes of options, and what is behind them: nothing, or the end of the list and more bytes. -/
structure Parsed (options : List Byte) (opts : List Opt) (tail : List Byte) : Prop where
  bytes : options = render opts ++ tail
  ok : ∀ o ∈ opts, o.Ok
  eol : tail = [] ∨ ∃ rest, tail = IPOPT_EOL :: rest

/-- The assertion that there is something behind every option that is not a NOP. -/
def Asserted (diagnostic : Bool) (opts : List Opt) (tail : List Byte) : Prop :=
  diagnostic = true → tail = [] → ∀ o ∈ opts.getLast?, o = .nop

variable {diagnostic : Bool} {options tail : List Byte} {opts : List Opt}

theorem render_cons (o : Opt) (opts : List Opt) : render (o :: opts) = o.bytes ++ render opts := flatMap_cons

theorem asserted_tail {o : Opt} (h : Asserted diagnostic (o :: opts) tail) : Asserted diagnostic opts tail := by
  intro hd htail o' ho'
  apply h hd htail o'
  cases opts with
  | nil => cases ho'
  | cons o'' rest => rwa [getLast?_cons_cons]

theorem asserted_rest {type : Byte} {data : List Byte} (h : Asserted diagnostic (.opt type data :: opts) tail)
    (hd : diagnostic = true) : 0 < (render opts ++ tail).length := by
  by_contra hzero
  have hnil := append_eq_nil_iff.mp (eq_nil_of_length_eq_zero (Nat.eq_zero_of_not_pos hzero))
  cases opts with
  | nil => cases h hd hnil.2 _ rfl
  | cons o rest =>
    cases o with
    | nop => cases (append_eq_nil_iff.mp hnil.1).1
    | opt => cases (append_eq_nil_iff.mp hnil.1).1

theorem ipOptcopyLoop_nop (rounds : Nat) (cp : List Byte) : ipOptcopyLoop diagnostic (rounds + 1) (Opt.nop.bytes ++ cp) =
    (ipOptcopyLoop diagnostic rounds cp).map fun dp => IPOPT_NOP :: dp := by
  change ipOptcopyLoop diagnostic (rounds + 1) (IPOPT_NOP :: cp) = _
  rw [ipOptcopyLoop]
  rw [if_neg (by decide), if_pos rfl]

theorem ipOptcopyLoop_opt {type : Byte} {data : List Byte} (hok : (Opt.opt type data).Ok) (rounds : Nat) (cp : List Byte) :
    ipOptcopyLoop diagnostic (rounds + 1) ((Opt.opt type data).bytes ++ cp) = if diagnostic = true ∧ cp = [] then none
      else (ipOptcopyLoop diagnostic rounds cp).map fun dp =>
        if (Opt.opt type data).copied then (Opt.opt type data).bytes ++ dp else dp := by
  obtain ⟨heol, hnop, hlen⟩ := hok
  have hoptlen : (BitVec.ofNat 8 (data.length + 2)).toNat = data.length + 2 := by
    rw [BitVec.toNat_ofNat]
    omega
  have hlength : (type :: BitVec.ofNat 8 (data.length + 2) :: (data ++ cp)).length = data.length + 2 + cp.length := by
    rw [length_cons, length_cons, length_append]
    omega
  have hdrop : (type :: BitVec.ofNat 8 (data.length + 2) :: (data ++ cp)).drop (data.length + 2) = cp := drop_left
  have htake : (type :: BitVec.ofNat 8 (data.length + 2) :: (data ++ cp)).take (data.length + 2) = (Opt.opt type data).bytes := by
    change List.take (Opt.opt type data).bytes.length ((Opt.opt type data).bytes ++ _) = _
    exact take_left
  change ipOptcopyLoop diagnostic (rounds + 1) (type :: BitVec.ofNat 8 (data.length + 2) :: (data ++ cp)) = _
  rw [ipOptcopyLoop]
  dsimp only [headD_cons]
  rw [if_neg heol, if_neg hnop, hoptlen, hlength, if_neg (by omega : ¬data.length + 2 > data.length + 2 + cp.length), hdrop, htake]
  refine if_congr (and_congr_right fun _ => ?_) rfl rfl
  rw [← length_eq_zero_iff]
  omega

theorem ipOptcopyLoop_eq (hok : ∀ o ∈ opts, o.Ok) (heol : tail = [] ∨ ∃ rest, tail = IPOPT_EOL :: rest)
    (hassert : Asserted diagnostic opts tail) {rounds : Nat} (hrounds : (render opts ++ tail).length < rounds) :
    ipOptcopyLoop diagnostic rounds (render opts ++ tail) = some (render (opts.filter Opt.copied)) := by
  induction opts generalizing rounds with
  | nil =>
    obtain ⟨rounds, rfl⟩ := exists_eq_succ_of_ne_zero (ne_of_gt (zero_lt_of_lt hrounds))
    obtain rfl | ⟨rest, rfl⟩ := heol
    · rfl
    change ipOptcopyLoop diagnostic (rounds + 1) (IPOPT_EOL :: rest) = _
    rw [ipOptcopyLoop]
    exact if_pos rfl
  | cons o opts ih =>
    obtain ⟨rounds, rfl⟩ := exists_eq_succ_of_ne_zero (ne_of_gt (zero_lt_of_lt hrounds))
    have ih := @ih (fun o ho => hok o (mem_cons_of_mem _ ho)) (asserted_tail hassert)
    rw [render_cons, append_assoc] at hrounds ⊢
    cases o with
    | nop =>
      change (render opts ++ tail).length + 1 < rounds + 1 at hrounds
      rw [ipOptcopyLoop_nop, ih (by omega)]
      rfl
    | opt type data =>
      have hless : (render opts ++ tail).length < rounds := by
        rw [length_append] at hrounds
        change data.length + 2 + _ < _ at hrounds
        omega
      rw [ipOptcopyLoop_opt (hok _ mem_cons_self), ih hless, Option.map_some, if_neg]
      · by_cases hcopied : (Opt.opt type data).copied = true
        · rw [if_pos hcopied, filter_cons_of_pos hcopied, render_cons]
        · rw [if_neg hcopied, filter_cons_of_neg hcopied]
      rintro ⟨hd, hnil⟩
      have hrest := asserted_rest hassert hd
      rw [hnil] at hrest
      exact lt_irrefl 0 hrest

theorem length_render_filter (p : Opt → Bool) (opts : List Opt) : (render (opts.filter p)).length ≤ (render opts).length := by
  induction opts with
  | nil => exact le_refl 0
  | cons o opts ih =>
    by_cases hp : p o = true
    · rw [filter_cons_of_pos hp, render_cons, render_cons, length_append, length_append]
      omega
    · rw [filter_cons_of_neg hp, render_cons, length_append]
      omega

theorem length_padOptions (dp : List Byte) :
    (padOptions dp).length % 4 = 0 ∧ dp.length ≤ (padOptions dp).length ∧ (padOptions dp).length < dp.length + 4 := by
  rw [padOptions, length_append, length_replicate]
  omega

/-- The options of a further fragment. -/
def copiedOptions (opts : List Opt) : List Byte := padOptions (render (opts.filter Opt.copied))

theorem Parsed.ipOptcopy (h : Parsed options opts tail) (hassert : Asserted diagnostic opts tail) :
    ipOptcopy diagnostic options = some (copiedOptions opts) := by
  rw [IpFragment.ipOptcopy, h.bytes, ipOptcopyLoop_eq h.ok h.eol hassert (lt_succ_self _)]
  rfl

theorem Parsed.length_le (h : Parsed options opts tail) (h4 : options.length % 4 = 0) :
    (copiedOptions opts).length ≤ options.length ∧ (copiedOptions opts).length % 4 = 0 := by
  obtain ⟨hmod, -, hlt⟩ := length_padOptions (render (opts.filter Opt.copied))
  have hle := length_render_filter Opt.copied opts
  have hbytes := congrArg List.length h.bytes
  rw [length_append] at hbytes
  rw [copiedOptions]
  omega

/-! ### The field of offset and flags -/

/-- The offset in units of eight bytes. -/
def Ip.offset (ip : Ip) : Nat := (ip.off &&& IP_OFFMASK).toNat

def Ip.mf (ip : Ip) : Bool := ip.off &&& IP_MF ≠ 0

/-- The flags that every piece inherits. -/
def Ip.flags (ip : Ip) : BitVec 16 := ip.off &&& (IP_RF ||| IP_DF)

theorem toNat_and_offmask (v : BitVec 16) : (v &&& IP_OFFMASK).toNat = v.toNat % 2 ^ 13 := by
  exact and_two_pow_sub_one_eq_mod v.toNat 13

theorem and_offmask {v : BitVec 16} (h : v.toNat < 2 ^ 13) : v &&& IP_OFFMASK = v :=
  BitVec.eq_of_toNat_eq (by rw [toNat_and_offmask, mod_eq_of_lt h])

theorem and_flag {v m : BitVec 16} (h : v.toNat < 2 ^ 13) (hm : IP_OFFMASK &&& m = 0#16) : v &&& m = 0#16 := by
  rw [← and_offmask h, BitVec.and_assoc, hm]
  exact BitVec.and_zero

theorem off_field (off : BitVec 16) {n : Nat} (h : n < 2 ^ 13) (last : Bool) :
    let v := BitVec.ofNat 16 n ||| (off &&& (IP_RF ||| IP_DF ||| IP_MF)) ||| if last then 0 else IP_MF
    v &&& IP_OFFMASK = BitVec.ofNat 16 n ∧ v &&& (IP_RF ||| IP_DF) = off &&& (IP_RF ||| IP_DF) ∧
      v &&& IP_MF = if last then off &&& IP_MF else IP_MF := by
  have hn : (BitVec.ofNat 16 n).toNat < 2 ^ 13 := by
    rw [BitVec.toNat_ofNat]
    omega
  have hmask : ∀ m m' : BitVec 16, (off &&& m) &&& m' = off &&& (m &&& m') := fun m m' => BitVec.and_assoc ..
  have hzero : (IP_RF ||| IP_DF ||| IP_MF) &&& IP_OFFMASK = 0#16 := by decide
  have hflags : (IP_RF ||| IP_DF ||| IP_MF) &&& (IP_RF ||| IP_DF) = IP_RF ||| IP_DF := by decide
  have hmf' : ∀ b : Bool, (if b then 0 else IP_MF) &&& IP_OFFMASK = 0#16 ∧ (if b then 0 else IP_MF) &&& (IP_RF ||| IP_DF) = 0#16 := by
    decide
  refine ⟨?_, ?_, ?_⟩
  · rw [BitVec.and_or_distrib_right, BitVec.and_or_distrib_right, and_offmask hn, hmask, hzero, (hmf' last).1, BitVec.and_zero,
      BitVec.or_zero, BitVec.or_zero]
  · rw [BitVec.and_or_distrib_right, BitVec.and_or_distrib_right, and_flag hn (by decide), hmask, hflags, (hmf' last).2,
      BitVec.zero_or, BitVec.or_zero]
  rw [BitVec.and_or_distrib_right, BitVec.and_or_distrib_right, and_flag hn (by decide), hmask, BitVec.zero_or]
  cases last
  · change off &&& IP_MF ||| IP_MF &&& IP_MF = IP_MF
    rw [BitVec.and_self]
    apply BitVec.eq_of_getLsbD_eq
    intro i _
    rw [BitVec.getLsbD_or, BitVec.getLsbD_and]
    cases IP_MF.getLsbD i <;> simp
  · change off &&& IP_MF ||| 0#16 &&& IP_MF = off &&& IP_MF
    rw [BitVec.zero_and, BitVec.or_zero]

theorem off_or_mf (off : BitVec 16) : (off ||| IP_MF) &&& IP_OFFMASK = off &&& IP_OFFMASK ∧
    (off ||| IP_MF) &&& (IP_RF ||| IP_DF) = off &&& (IP_RF ||| IP_DF) ∧ (off ||| IP_MF) &&& IP_MF = IP_MF := by
  refine ⟨?_, ?_, ?_⟩
  · rw [BitVec.and_or_distrib_right, show IP_MF &&& IP_OFFMASK = 0#16 from by decide, BitVec.or_zero]
  · rw [BitVec.and_or_distrib_right, show IP_MF &&& (IP_RF ||| IP_DF) = 0#16 from by decide, BitVec.or_zero]
  apply BitVec.eq_of_getLsbD_eq
  intro i _
  rw [BitVec.getLsbD_and, BitVec.getLsbD_or]
  cases IP_MF.getLsbD i <;> simp

/-! ### The pieces -/

/-- A packet whose length fields are right. -/
structure Packet.Ok (m : Packet) : Prop where
  hlen : m.hlen = 20 + m.options.length
  len : m.ip.len.toNat = m.hlen + m.data.length

/-- A packet, whole datagram or fragment of one, as it may be received. -/
structure Packet.Cuttable (m : Packet) : Prop extends m.Ok where
  more : m.ip.mf = true → m.data.length % 8 = 0
  size : 8 * m.ip.offset + m.data.length ≤ 65535

/-- The fields of a header that every piece has. -/
structure Inherits (m f : Packet) : Prop where
  tos : f.ip.tos = m.ip.tos
  id : f.ip.id = m.ip.id
  ttl : f.ip.ttl = m.ip.ttl
  p : f.ip.p = m.ip.p
  src : f.ip.src = m.ip.src
  dst : f.ip.dst = m.ip.dst
  flags : f.ip.flags = m.ip.flags

/-- Offsets and MF of pieces that lie one behind the other. -/
def Tiled (more : Bool) : Nat → List Packet → Prop
  | _, [] => False
  | o, [f] => f.ip.offset = o ∧ f.ip.mf = more
  | o, f :: rest => f.ip.offset = o ∧ f.ip.mf = true ∧ f.data.length % 8 = 0 ∧ Tiled more (o + f.data.length / 8) rest

theorem tiled_cons {more : Bool} {o : Nat} {f : Packet} {rest : List Packet} (ho : f.ip.offset = o) (hmf : f.ip.mf = true)
    (h8 : f.data.length % 8 = 0) (hrest : Tiled more (o + f.data.length / 8) rest) : Tiled more o (f :: rest) := by
  cases rest with
  | nil => cases hrest
  | cons g rest => exact ⟨ho, hmf, h8, hrest⟩

variable {m : Packet} {k n len : Nat}

theorem Packet.hlen_le (m : Packet) : m.hlen ≤ 60 := by
  rw [Packet.hlen]
  omega

theorem Packet.Ok.noOptions (h : m.Ok) (hparsed : Parsed m.options opts tail) (h20 : ¬ m.hlen > 20) : copiedOptions opts = [] := by
  have hnil : m.options = [] := eq_nil_of_length_eq_zero (by have := h.hlen; omega)
  rw [hnil] at hparsed
  obtain ⟨hrender, -⟩ := append_eq_nil_iff.mp hparsed.bytes.symm
  cases opts with
  | nil => rfl
  | cons o opts =>
    cases o <;> cases (append_eq_nil_iff.mp hrender).1

theorem Packet.Ok.mod_four (h : m.Ok) : m.options.length % 4 = 0 := by
  have hhlen := h.hlen
  rw [Packet.hlen] at hhlen
  omega

theorem Packet.Cuttable.piece (h : m.Cuttable) (hle : options.length ≤ m.options.length) (h4 : options.length % 4 = 0)
    (h8 : k % 8 = 0) (hkn : k + n ≤ m.data.length) (hn : 0 < n) (last : Bool) :
    let f := fragment m options (m.hlen + k) n last
    f.Ok ∧ Inherits m f ∧ f.hlen ≤ m.hlen ∧ f.data = (m.data.drop k).take n ∧ f.ip.offset = m.ip.offset + k / 8 ∧
      f.ip.mf = (if last then m.ip.mf else true) := by
  intro f
  have hhlen := h.hlen
  have h60 := m.hlen_le
  have hlen := h.len
  have hsize := h.size
  have hlt := m.ip.len.isLt
  have hdata : f.data = (m.data.drop k).take n := by
    change (m.data.drop (m.hlen + k - m.hlen)).take n = _
    rw [Nat.add_sub_cancel_left]
  have hlength : f.data.length = n := by
    rw [hdata, length_take, length_drop]
    omega
  have hhl : f.hlen = 20 + options.length := by
    change 4 * (if m.hlen > 20 then BitVec.ofNat 4 ((20 + options.length) / 4) else m.ip.hl).toNat = _
    split
    · rw [BitVec.toNat_ofNat]
      omega
    · change m.hlen = _
      omega
  have hunit : (m.hlen + k - m.hlen) / 8 + m.ip.offset = m.ip.offset + k / 8 := by
    rw [Nat.add_sub_cancel_left, add_comm]
  obtain ⟨hoff, hflags, hmf⟩ := off_field m.ip.off (n := (m.hlen + k - m.hlen) / 8 + m.ip.offset) (by omega) last
  refine ⟨⟨hhl, ?_⟩, ⟨rfl, rfl, rfl, rfl, rfl, rfl, hflags⟩, by omega, hdata, ?_, ?_⟩
  · change (BitVec.ofNat 16 (n + (20 + options.length))).toNat = _
    rw [BitVec.toNat_ofNat]
    omega
  · rw [← hunit]
    refine (congrArg BitVec.toNat hoff).trans ?_
    rw [BitVec.toNat_ofNat, mod_eq_of_lt (by omega)]
  have hbit : f.ip.off &&& IP_MF = if last then m.ip.off &&& IP_MF else IP_MF := hmf
  rw [Ip.mf, hbit]
  cases last
  · rfl
  · rfl

/-- The pieces from a position on, each but the last of `len` bytes. -/
inductive Cut (m : Packet) (options : List Byte) (len : Nat) : Nat → List Packet → Prop where
  | last {k : Nat} : k < m.data.length → m.data.length ≤ k + len →
      Cut m options len k [fragment m options (m.hlen + k) (m.data.length - k) true]
  | cons {k : Nat} {rest : List Packet} : k + len < m.data.length → Cut m options len (k + len) rest →
      Cut m options len k (fragment m options (m.hlen + k) len false :: rest)

theorem Cut.tiled (h : m.Cuttable) (hle : options.length ≤ m.options.length) (h4 : options.length % 4 = 0) (hpos : 0 < len)
    (hlen8 : len % 8 = 0) {chain : List Packet} (hcut : Cut m options len k chain) (h8 : k % 8 = 0) :
    Tiled m.ip.mf (m.ip.offset + k / 8) chain ∧ (chain.map Packet.data).flatten = m.data.drop k ∧
      ∀ f ∈ chain, f.Ok ∧ Inherits m f ∧ f.hlen + f.data.length ≤ m.hlen + len ∧ 0 < f.data.length ∧ f.options = options ∧
        m.ip.offset + k / 8 ≤ f.ip.offset := by
  induction hcut with
  | @last k hk hend =>
    obtain ⟨hok, hinherits, hhlen, hdata, hoffset, hmf⟩ := h.piece hle h4 h8 (n := m.data.length - k) (by omega) (by omega) true
    have hall : (m.data.drop k).take (m.data.length - k) = m.data.drop k :=
      take_of_length_le (le_of_eq length_drop)
    refine ⟨⟨hoffset, hmf⟩, ?_, fun f hf => ?_⟩
    · rw [map_singleton, flatten_singleton, hdata, hall]
    obtain rfl := mem_singleton.mp hf
    have hlength : (fragment m options (m.hlen + k) (m.data.length - k) true).data.length = m.data.length - k := by
      rw [hdata, hall, length_drop]
    exact ⟨hok, hinherits, by omega, by omega, rfl, le_of_eq hoffset.symm⟩
  | @cons k rest hk hcut ih =>
    obtain ⟨hok, hinherits, hhlen, hdata, hoffset, hmf⟩ := h.piece hle h4 h8 (n := len) (by omega) hpos false
    obtain ⟨htiled, hflat, heach⟩ := ih (by omega)
    have hlength : (fragment m options (m.hlen + k) len false).data.length = len := by
      rw [hdata, length_take, length_drop]
      omega
    have hunit : m.ip.offset + k / 8 + len / 8 = m.ip.offset + (k + len) / 8 := by omega
    refine ⟨tiled_cons hoffset hmf (by rw [hlength]; exact hlen8) (by rw [hlength, hunit]; exact htiled), ?_, fun f hf => ?_⟩
    · rw [map_cons, flatten_cons, hflat, hdata, ← drop_drop, take_append_drop]
    obtain rfl | hf := mem_cons.mp hf
    · exact ⟨hok, hinherits, by omega, by omega, rfl, le_of_eq hoffset.symm⟩
    · obtain ⟨hok, hinherits, hle, hpos, hoptions, hoffset⟩ := heach f hf
      exact ⟨hok, hinherits, hle, hpos, hoptions, by omega⟩

end NetBSD.Netinet.IpFragment
