import NetBSD.Netinet.IpFragment.Fragment

/-! The chain that `ip_fragment` makes.

Without a failure it is the trimmed packet and the pieces of what has been cut off. With one it is what has been linked up
to then, and all of it is freed. -/
namespace NetBSD.Netinet.IpFragment
open List Option Nat

def Alloc.Ok (a : Alloc) : Prop := a.gethdr = true ∧ a.copym = true

instance (a : Alloc) : Decidable a.Ok := inferInstanceAs (Decidable (_ ∧ _))

variable {diagnostic : Bool} {m : Packet} {alloc : Nat → Alloc} {options : List Byte} {len k : Nat}

/-- The options that every further fragment has. -/
def Copies (diagnostic : Bool) (m : Packet) (options : List Byte) : Prop :=
  (if m.hlen > 20 then ipOptcopy diagnostic m.options else some []) = some options

theorem Packet.Ok.copies {opts : List Opt} {tail : List Byte} (h : m.Ok) (hparsed : Parsed m.options opts tail)
    (hassert : Asserted diagnostic opts tail) : Copies diagnostic m (copiedOptions opts) := by
  rw [Copies]
  split
  · exact hparsed.ipOptcopy hassert
  · next h20 => rw [h.noOptions hparsed h20]

theorem fragmentLoop_succ (hok : m.Ok) (hcopies : Copies diagnostic m options) {rounds fragments : Nat}
    (halloc : (alloc fragments).Ok) (hk : k < m.data.length) :
    fragmentLoop diagnostic m alloc (rounds + 1) fragments (m.hlen + k) len =
      if k + len ≥ m.data.length then
        (fragmentLoop diagnostic m alloc rounds (fragments + 1) (m.hlen + m.data.length) (m.data.length - k)).map fun r =>
          (fragment m options (m.hlen + k) (m.data.length - k) true :: r.1, r.2)
      else
        (fragmentLoop diagnostic m alloc rounds (fragments + 1) (m.hlen + (k + len)) len).map fun r =>
          (fragment m options (m.hlen + k) len false :: r.1, r.2) := by
  have hlen := hok.len
  rw [fragmentLoop, if_pos (by omega), if_neg (by rw [halloc.1]; exact Bool.noConfusion)]
  rw [hcopies, bind_eq_bind, bind_some, if_neg (by rw [halloc.2]; exact Bool.noConfusion)]
  by_cases hend : k + len ≥ m.data.length
  · have hlast : m.hlen + k + len ≥ m.ip.len.toNat := by omega
    have hsize : m.ip.len.toNat - (m.hlen + k) = m.data.length - k := by omega
    have hoff : m.hlen + k + (m.data.length - k) = m.hlen + m.data.length := by omega
    rw [if_pos hend, if_pos hlast, decide_eq_true hlast, hsize, hoff]
  · have hlast : ¬ m.hlen + k + len ≥ m.ip.len.toNat := by omega
    rw [if_neg hend, if_neg hlast, decide_eq_false hlast, add_assoc]

theorem fragmentLoop_end (hok : m.Ok) {rounds fragments : Nat} :
    fragmentLoop diagnostic m alloc (rounds + 1) fragments (m.hlen + m.data.length) len = some ([], none) := by
  have hlen := hok.len
  rw [fragmentLoop, if_neg (by omega)]

theorem fragmentLoop_cut (hok : m.Ok) (hcopies : Copies diagnostic m options) (halloc : ∀ i, (alloc i).Ok) (hpos : 0 < len)
    {rounds : Nat} (fragments : Nat) (hk : k < m.data.length) (hrounds : m.data.length - k < rounds) :
    ∃ chain, fragmentLoop diagnostic m alloc rounds fragments (m.hlen + k) len = some (chain, none) ∧ Cut m options len k chain := by
  induction rounds generalizing k fragments with
  | zero => omega
  | succ rounds ih =>
    rw [fragmentLoop_succ hok hcopies (halloc fragments) hk]
    split
    · next hend =>
      obtain ⟨rounds, rfl⟩ := exists_eq_succ_of_ne_zero (show rounds ≠ 0 by omega)
      rw [fragmentLoop_end hok]
      exact ⟨_, rfl, .last hk hend⟩
    · next hend =>
      obtain ⟨chain, hchain, hcut⟩ := @ih (k + len) (fragments + 1) (by omega) (by omega)
      rw [hchain]
      exact ⟨_, rfl, .cons (Nat.lt_of_not_ge hend) hcut⟩

theorem fragmentLoop_fail (hok : m.Ok) (hcopies : Copies diagnostic m options) {rounds j : Nat} (fragments : Nat)
    (halloc : ∀ i < j, (alloc (fragments + i)).Ok) (hfail : ¬ (alloc (fragments + j)).Ok)
    (hj : k + j * len < m.data.length) (hrounds : j < rounds) :
    ∃ chain, fragmentLoop diagnostic m alloc rounds fragments (m.hlen + k) len = some (chain, some .ENOBUFS) ∧
      chain.length = j + if (alloc (fragments + j)).gethdr then 1 else 0 := by
  induction j generalizing k fragments rounds with
  | zero =>
    obtain ⟨rounds, rfl⟩ := exists_eq_succ_of_ne_zero (show rounds ≠ 0 by omega)
    have hlen := hok.len
    rw [fragmentLoop, if_pos (by omega)]
    cases hhdr : (alloc fragments).gethdr with
    | false => exact ⟨[], rfl, rfl⟩
    | true =>
      have hcopym : (alloc fragments).copym = false := Bool.eq_false_iff.mpr fun hcopym => hfail ⟨hhdr, hcopym⟩
      rw [hcopies, bind_eq_bind, bind_some, if_pos hcopym]
      exact ⟨_, rfl, rfl⟩
  | succ j ih =>
    obtain ⟨rounds, rfl⟩ := exists_eq_succ_of_ne_zero (show rounds ≠ 0 by omega)
    rw [succ_mul] at hj
    have hshift : ∀ i, fragments + 1 + i = fragments + (i + 1) := fun i => by omega
    have hfirst : (alloc fragments).Ok := halloc 0 (succ_pos j)
    rw [fragmentLoop_succ hok hcopies hfirst (by omega), if_neg (by omega)]
    obtain ⟨chain, hchain, hlength⟩ := @ih (k + len) rounds (fragments + 1)
      (fun i hi => by rw [hshift]; exact halloc (i + 1) (succ_lt_succ hi)) (by rw [hshift]; exact hfail) (by omega) (by omega)
    rw [hchain]
    refine ⟨_, rfl, ?_⟩
    rw [length_cons, hlength, hshift]
    omega

def pieceLen (m : Packet) (mtu : Nat) : Nat := (mtu - m.hlen) / 8 * 8

theorem Packet.Ok.trimFirst (hok : m.Ok) (hlen : len ≤ m.data.length) :
    (trimFirst m len).Ok ∧ Inherits m (trimFirst m len) ∧ (trimFirst m len).data.length = len ∧
      (trimFirst m len).ip.offset = m.ip.offset ∧ (trimFirst m len).ip.mf = true := by
  have hlength : (IpFragment.trimFirst m len).data.length = len := by
    change (m.data.take len).length = len
    rw [length_take]
    omega
  obtain ⟨hoff, hflags, hmf⟩ := off_or_mf m.ip.off
  refine ⟨⟨hok.hlen, ?_⟩, ⟨rfl, rfl, rfl, rfl, rfl, rfl, hflags⟩, hlength, congrArg BitVec.toNat hoff, ?_⟩
  · have hold := hok.len
    rw [hlength]
    change (BitVec.ofNat 16 (m.hlen + len)).toNat = m.hlen + len
    rw [BitVec.toNat_ofNat]
    omega
  · have hbit : (IpFragment.trimFirst m len).ip.off &&& IP_MF = IP_MF := hmf
    rw [Ip.mf, hbit]
    rfl

/-- The pieces of a whole packet, the first of which is the packet itself. -/
structure Pieces (m : Packet) (mtu : Nat) (options : List Byte) (first : Packet) (rest : List Packet) : Prop where
  tiled : Tiled m.ip.mf m.ip.offset (first :: rest)
  payload : ((first :: rest).map Packet.data).flatten = m.data
  more : rest ≠ []
  fits : ∀ f ∈ first :: rest, f.Ok ∧ Inherits m f ∧ f.ip.len.toNat ≤ mtu ∧ 0 < f.data.length
  firstOptions : first.options = m.options
  firstLen : first.data.length = pieceLen m mtu
  options : ∀ f ∈ rest, f.options = options ∧ m.ip.offset + pieceLen m mtu / 8 ≤ f.ip.offset

theorem ipFragment_ok {opts : List Opt} (h : m.Cuttable) (hcopies : Copies diagnostic m (copiedOptions opts))
    (hle : (copiedOptions opts).length ≤ m.options.length ∧ (copiedOptions opts).length % 4 = 0)
    (halloc : ∀ i, (alloc i).Ok) {mtu : Nat} (hlow : m.hlen + 8 ≤ mtu) (hhigh : mtu < m.ip.len.toNat) (room : Option Int) :
    ∃ first rest, Pieces m mtu (copiedOptions opts) first rest ∧ ipFragment diagnostic m room mtu alloc =
      some (if room.any fun n => n < (rest.length : Int) then ⟨some .ENOBUFS, [], first :: rest⟩
        else ⟨none, first :: rest, []⟩) := by
  have hlen := h.len
  have hpiece : 8 ≤ pieceLen m mtu ∧ m.hlen + pieceLen m mtu ≤ mtu ∧ pieceLen m mtu % 8 = 0 := by
    rw [pieceLen]
    omega
  obtain ⟨chain, hchain, hcut⟩ := fragmentLoop_cut h.toOk hcopies halloc (show 0 < pieceLen m mtu by omega) 0
    (show pieceLen m mtu < m.data.length by omega) (show m.data.length - pieceLen m mtu < m.ip.len.toNat + 1 by omega)
  obtain ⟨htiled, hflat, heach⟩ := hcut.tiled h hle.1 hle.2 (by omega) hpiece.2.2 hpiece.2.2
  obtain ⟨hok, hinherits, hlength, hoffset, hmf⟩ := h.toOk.trimFirst (show pieceLen m mtu ≤ m.data.length by omega)
  refine ⟨IpFragment.trimFirst m (pieceLen m mtu), chain, ⟨?_, ?_, ?_, ?_, rfl, hlength, ?_⟩, ?_⟩
  · exact tiled_cons hoffset hmf (by rw [hlength]; exact hpiece.2.2) (by rw [hlength]; exact htiled)
  · rw [map_cons, flatten_cons, hflat]
    exact take_append_drop _ _
  · rintro rfl
    cases htiled
  · intro f hf
    obtain rfl | hf := mem_cons.mp hf
    · refine ⟨hok, hinherits, ?_, by omega⟩
      rw [hok.len, hlength]
      exact hpiece.2.1
    obtain ⟨hok, hinherits, hle, hpos, -, -⟩ := heach f hf
    refine ⟨hok, hinherits, ?_, hpos⟩
    rw [hok.len]
    omega
  · intro f hf
    obtain ⟨-, -, -, -, hoptions, hoffset⟩ := heach f hf
    exact ⟨hoptions, hoffset⟩
  · rw [ipFragment]
    dsimp only
    rw [← pieceLen, if_neg (by omega), hchain, bind_eq_bind, bind_some]
    cases hroom : room.any fun n => n < (chain.length : Int)
    · rfl
    · rfl

theorem ipFragment_fail (hok : m.Ok) (hcopies : Copies diagnostic m options) {mtu : Nat} (hlow : m.hlen + 8 ≤ mtu) {j : Nat}
    (halloc : ∀ i < j, (alloc i).Ok) (hfail : ¬ (alloc j).Ok) (hj : (j + 1) * pieceLen m mtu < m.data.length)
    (room : Option Int) :
    ∃ freed, ipFragment diagnostic m room mtu alloc = some ⟨some .ENOBUFS, [], freed⟩ ∧
      freed.length = 1 + j + if (alloc j).gethdr then 1 else 0 := by
  have hlen := hok.len
  have hpiece : 8 ≤ pieceLen m mtu := by
    rw [pieceLen]
    omega
  have hrounds : j * 1 ≤ j * pieceLen m mtu := Nat.mul_le_mul_left j (by omega)
  rw [succ_mul] at hj
  obtain ⟨chain, hchain, hlength⟩ := fragmentLoop_fail hok hcopies 0
    (fun i hi => by rw [zero_add]; exact halloc i hi) (by rw [zero_add]; exact hfail)
    (show pieceLen m mtu + j * pieceLen m mtu < m.data.length by omega)
    (show j < m.ip.len.toNat + 1 by omega)
  rw [zero_add] at hlength
  refine ⟨m :: chain, ?_, ?_⟩
  · rw [ipFragment]
    rw [← pieceLen, if_neg (by omega), hchain]
    rfl
  · rw [length_cons]
    omega

end NetBSD.Netinet.IpFragment
