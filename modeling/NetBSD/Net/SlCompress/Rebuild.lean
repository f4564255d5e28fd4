import NetBSD.Net.SlCompress.Compress
import Mathlib.Data.List.GetD

/-! The header that a compressed packet stands for.

The receiver starts from the header that the sender compared the packet with. Each number that is sent makes one more field
what it is in the packet, and a field with no number is so already. At the end all fields that may change are, and the
others have been compared. -/
namespace NetBSD.Net.SlCompress
open List Function Option
open Lib.Fields

theorem bytes_of_word (n : BitVec 16) : n.extractLsb' 8 8 ++ n.extractLsb' 0 8 = n :=
  BitVec.extractLsb'_append_extractLsb' (w := 8)

theorem byte_of_word {n : BitVec 16} (h : n.toNat < 256) : (n.extractLsb' 0 8).setWidth 16 = n := by
  apply BitVec.eq_of_toNat_eq
  rw [BitVec.toNat_setWidth, BitVec.extractLsb'_toNat]
  omega

theorem decode_word (n : BitVec 16) (rest : List (BitVec 8)) : decode ([0, n.extractLsb' 8 8, n.extractLsb' 0 8] ++ rest) = some (n, rest) := by
  change some (n.extractLsb' 8 8 ++ n.extractLsb' 0 8, rest) = _
  rw [bytes_of_word]

theorem decode_byte {n : BitVec 16} (h : n.toNat < 256) (h0 : n ≠ 0) (rest : List (BitVec 8)) :
    decode ([n.extractLsb' 0 8] ++ rest) = some (n, rest) := by
  have hbyte := byte_of_word h
  have hne : n.extractLsb' 0 8 ≠ 0 := by
    intro hzero
    rw [hzero] at hbyte
    exact h0 hbyte.symm
  rw [singleton_append, decode.eq_def]
  dsimp only
  rw [if_neg hne, hbyte]

theorem decode_encode {n : BitVec 16} (h0 : n ≠ 0) (rest : List (BitVec 8)) : decode (encode n ++ rest) = some (n, rest) := by
  rw [encode]
  split
  · exact decode_word n rest
  · next h => exact decode_byte (Nat.lt_of_not_ge h) h0 rest

theorem decode_encodeZ (n : BitVec 16) (rest : List (BitVec 8)) : decode (encodeZ n ++ rest) = some (n, rest) := by
  rw [encodeZ]
  split
  · exact decode_word n rest
  · next h => exact decode_byte (by omega) (fun h0 => h (.inr h0)) rest

variable {fs : List (Nat × Nat)} {ip s : Mem} {a : Nat} {rest : List (BitVec 8)}

theorem decodeU_field (a : Nat) : decodeU a (overlay fs ip s, encodeZ (get16 ip a) ++ rest) = some (overlay ((a, 2) :: fs) ip s, rest) := by
  rw [decodeU, decode_encodeZ]
  exact congrArg (fun m => some (m, rest)) (set16_overlay rfl)

theorem field_same16 (h : get16 ip a = get16 s a) : overlay ((a, 2) :: fs) ip s = overlay fs ip s :=
  overlay_same fun _ hlow hhigh => same_of_get16 h.symm hlow hhigh

theorem field_same32 (h : get32 ip a = get32 s a) : overlay ((a, 4) :: fs) ip s = overlay fs ip s :=
  overlay_same fun _ hlow hhigh => same_of_get32 h.symm hlow hhigh

theorem decodeS_field (h : Apart fs a 2) {bit : Prop} [Decidable bit] (hbit : bit ↔ get16 ip a - get16 s a ≠ 0) (rest : List (BitVec 8)) :
    (if bit then decodeS a (overlay fs ip s, (if get16 ip a - get16 s a ≠ 0 then encode (get16 ip a - get16 s a) else []) ++ rest)
      else some (overlay fs ip s, (if get16 ip a - get16 s a ≠ 0 then encode (get16 ip a - get16 s a) else []) ++ rest)) =
      some (overlay ((a, 2) :: fs) ip s, rest) := by
  by_cases h0 : get16 ip a - get16 s a ≠ 0
  · rw [if_pos (hbit.mpr h0), if_pos h0, decodeS, decode_encode h0]
    refine congrArg (fun m => some (m, rest)) (set16_overlay ?_)
    rw [get16_overlay h, BitVec.add_comm, BitVec.sub_add_cancel]
  · have hsame : get16 ip a = get16 s a := sub_eq_zero.mp (not_not.mp h0)
    rw [if_neg fun hb => h0 (hbit.mp hb), if_neg h0, field_same16 hsame]
    rfl

theorem setWidth_small {n : BitVec 32} (h : ¬ n.toNat > 0xffff) : (n.setWidth 16).setWidth 32 = n := by
  apply BitVec.eq_of_toNat_eq
  rw [BitVec.toNat_setWidth, BitVec.toNat_setWidth]
  omega

theorem decodeL_field (h : Apart fs a 4) {bit : Prop} [Decidable bit] (hbit : bit ↔ get32 ip a - get32 s a ≠ 0)
    (hsmall : ¬ (get32 ip a - get32 s a).toNat > 0xffff) (rest : List (BitVec 8)) :
    (if bit then decodeL a (overlay fs ip s, (if get32 ip a - get32 s a ≠ 0 then encode ((get32 ip a - get32 s a).setWidth 16) else []) ++ rest)
      else some (overlay fs ip s, (if get32 ip a - get32 s a ≠ 0 then encode ((get32 ip a - get32 s a).setWidth 16) else []) ++ rest)) =
      some (overlay ((a, 4) :: fs) ip s, rest) := by
  have hwidth := setWidth_small hsmall
  by_cases h0 : get32 ip a - get32 s a ≠ 0
  · have h0' : (get32 ip a - get32 s a).setWidth 16 ≠ 0 := by
      intro hzero
      rw [hzero] at hwidth
      exact h0 hwidth.symm
    rw [if_pos (hbit.mpr h0), if_pos h0, decodeL, decode_encode h0']
    refine congrArg (fun m => some (m, rest)) (set32_overlay ?_)
    rw [hwidth, get32_overlay h, BitVec.add_comm, BitVec.sub_add_cancel]
  · have hsame : get32 ip a = get32 s a := sub_eq_zero.mp (not_not.mp h0)
    rw [if_neg fun hb => h0 (hbit.mp hb), if_neg h0, field_same32 hsame]
    rfl

/-- The mask for the four changes that are in one piece with the special encodings. -/
def mask (u w a s : Bool) : BitVec 8 :=
  (if u then newU else 0) ||| (if w then newW else 0) ||| (if a then newA else 0) ||| (if s then newS else 0)

/-- What `changed` can answer: a special encoding, of which no number is sent, or the mask with all its numbers. -/
theorem changed_cases {th hlen : Nat} {x : BitVec 8} {seq : List (BitVec 8)} (h : changed ip s th hlen = some (x, seq)) :
    ¬ (thAck ip th - thAck s th).toNat > 0xffff ∧ ¬ (thSeq ip th - thSeq s th).toNat > 0xffff ∧
    (thFlags ip th &&& TH_URG = 0 → thUrp ip th = thUrp s th) ∧
    (x = specialI ∧ seq = [] ∧ thFlags ip th &&& TH_URG = 0 ∧ thWin ip th - thWin s th = 0 ∧
        thAck ip th - thAck s th = dataLen s hlen ∧ thSeq ip th - thSeq s th = dataLen s hlen ∨
      x = specialD ∧ seq = [] ∧ thFlags ip th &&& TH_URG = 0 ∧ thWin ip th - thWin s th = 0 ∧
        thAck ip th - thAck s th = 0 ∧ thSeq ip th - thSeq s th = dataLen s hlen ∨
      (x ≠ specialI ∧ x ≠ specialD) ∧ x = mask (decide (thFlags ip th &&& TH_URG ≠ 0)) (decide (thWin ip th - thWin s th ≠ 0))
          (decide (thAck ip th - thAck s th ≠ 0)) (decide (thSeq ip th - thSeq s th ≠ 0)) ∧
        seq = (if thFlags ip th &&& TH_URG ≠ 0 then encodeZ (thUrp ip th) else []) ++
          (if thWin ip th - thWin s th ≠ 0 then encode (thWin ip th - thWin s th) else []) ++
          (if thAck ip th - thAck s th ≠ 0 then encode ((thAck ip th - thAck s th).setWidth 16) else []) ++
          (if thSeq ip th - thSeq s th ≠ 0 then encode ((thSeq ip th - thSeq s th).setWidth 16) else [])) := by
  have hecho : ∀ u w a s : Bool, mask u w a s = newS ||| newA → u = false ∧ w = false := by decide
  have htransfer : ∀ u w a s : Bool, mask u w a s = newS → u = false ∧ w = false ∧ a = false := by decide
  have hmask : (if thFlags ip th &&& TH_URG ≠ 0 then newU else 0) |||
      (if thWin ip th - thWin s th ≠ 0 then newW else 0) ||| (if thAck ip th - thAck s th ≠ 0 then newA else 0) |||
      (if thSeq ip th - thSeq s th ≠ 0 then newS else 0) =
      mask (decide (thFlags ip th &&& TH_URG ≠ 0)) (decide (thWin ip th - thWin s th ≠ 0))
        (decide (thAck ip th - thAck s th ≠ 0)) (decide (thSeq ip th - thSeq s th ≠ 0)) := by
    simp only [mask, decide_eq_true_eq]
  rw [changed] at h
  dsimp only at h
  rw [hmask] at h
  split at h
  · cases h
  · next hurp =>
    have hurp : thFlags ip th &&& TH_URG = 0 → thUrp ip th = thUrp s th := by
      intro hclear
      by_contra hne
      exact hurp ⟨not_not.mpr hclear, hne⟩
    split at h
    · cases h
    · next hA =>
      split at h
      · cases h
      · next hS =>
        refine ⟨hA, hS, hurp, ?_⟩
        split at h
        · next hzero =>
          split at h
          · cases h
            refine .inr (.inr ⟨?_, rfl, rfl⟩)
            rw [hzero]
            decide
          · cases h
        split at h
        · cases h
        · next hspecial =>
          split at h
          · next hall =>
            obtain ⟨hx, hsame, hdata⟩ := hall
            obtain ⟨hu, hw⟩ := hecho _ _ _ _ hx
            cases h
            exact .inl ⟨rfl, rfl, not_not.mp (of_decide_eq_false hu), not_not.mp (of_decide_eq_false hw), hsame ▸ hdata, hdata⟩
          split at h
          · next hall =>
            obtain ⟨hx, hdata⟩ := hall
            obtain ⟨hu, hw, ha⟩ := htransfer _ _ _ _ hx
            cases h
            exact .inr (.inl ⟨rfl, rfl, not_not.mp (of_decide_eq_false hu), not_not.mp (of_decide_eq_false hw),
              not_not.mp (of_decide_eq_false ha), hdata⟩)
          · cases h
            exact .inr (.inr ⟨not_or.mp hspecial, rfl, rfl⟩)

/-! ### The flags -/

theorem getLsbD_setFlag (f g : BitVec 8) {k : Nat} (hk : k < 8) (i : Nat) :
    (if g &&& BitVec.twoPow 8 k ≠ 0 then f ||| BitVec.twoPow 8 k else f &&& ~~~BitVec.twoPow 8 k).getLsbD i =
      if i = k then g.getLsbD k else f.getLsbD i := by
  have hbit : (BitVec.twoPow 8 k).getLsbD i = decide (i = k) := by
    rw [BitVec.getLsbD_twoPow, decide_eq_true hk]
    exact decide_eq_decide.mpr eq_comm
  have hset : g &&& BitVec.twoPow 8 k ≠ 0 ↔ g.getLsbD k = true := by
    rw [BitVec.and_twoPow]
    split
    · next h => exact ⟨fun _ => h, fun _ hzero => by
        have := congrArg (fun v : BitVec 8 => v.getLsbD k) hzero
        simp [hk] at this⟩
    · next h => exact ⟨fun hne => absurd rfl hne, fun hset => absurd hset h⟩
  by_cases hg : g &&& BitVec.twoPow 8 k ≠ 0
  · rw [if_pos hg, BitVec.getLsbD_or, hbit, hset.mp hg]
    split
    · next hi => rw [decide_eq_true hi, Bool.or_true]
    · next hi => rw [decide_eq_false hi, Bool.or_false]
  have hclear : g.getLsbD k = false := Bool.eq_false_iff.mpr fun h => hg (hset.mpr h)
  rw [if_neg hg, BitVec.getLsbD_and, BitVec.getLsbD_not, hbit, hclear]
  split
  · next hi => rw [decide_eq_true hi, Bool.not_true, Bool.and_false, Bool.and_false]
  · next hi =>
    rw [decide_eq_false hi, Bool.not_false, Bool.and_true]
    by_cases hi8 : i < 8
    · rw [decide_eq_true hi8, Bool.and_true]
    · rw [BitVec.getLsbD_of_ge f i (by omega), Bool.false_and]

def setPush (f g : BitVec 8) : BitVec 8 := if g &&& TH_PUSH ≠ 0 then f ||| TH_PUSH else f &&& ~~~TH_PUSH

def setUrg (f g : BitVec 8) : BitVec 8 := if g &&& TH_URG ≠ 0 then f ||| TH_URG else f &&& ~~~TH_URG

/-- The flags that a compressed packet does not carry. -/
def kept : BitVec 8 := TH_FIN ||| TH_SYN ||| TH_RST ||| TH_ACK ||| TH_ECE ||| TH_CWR

variable {f g : BitVec 8}

theorem getLsbD_setPush (i : Nat) : (setPush f g).getLsbD i = if i = 3 then g.getLsbD 3 else f.getLsbD i := by
  have hpush : TH_PUSH = BitVec.twoPow 8 3 := by decide
  rw [setPush, hpush]
  exact getLsbD_setFlag f g (by decide) i

theorem getLsbD_setUrg (i : Nat) : (setUrg f g).getLsbD i = if i = 5 then g.getLsbD 5 else f.getLsbD i := by
  have hurg : TH_URG = BitVec.twoPow 8 5 := by decide
  rw [setUrg, hurg]
  exact getLsbD_setFlag f g (by decide) i

section
variable (h : f &&& kept = g &&& kept)
include h

theorem getLsbD_kept {i : Nat} (hi : i < 8) (h3 : i ≠ 3) (h5 : i ≠ 5) : f.getLsbD i = g.getLsbD i := by
  have hmask : ∀ i < 8, i ≠ 3 → i ≠ 5 → kept.getLsbD i = true := by decide
  have hbit : (f &&& kept).getLsbD i = (g &&& kept).getLsbD i := by rw [h]
  rwa [BitVec.getLsbD_and, BitVec.getLsbD_and, hmask i hi h3 h5, Bool.and_true, Bool.and_true] at hbit

theorem setUrg_setPush : setUrg (setPush f g) g = g := by
  apply BitVec.eq_of_getLsbD_eq
  intro i hi
  rw [getLsbD_setUrg, getLsbD_setPush]
  split
  · next h5 => rw [h5]
  · next h5 =>
    split
    · next h3 => rw [h3]
    · next h3 => exact getLsbD_kept h hi h3 h5

theorem setPush_eq (hf : f &&& TH_URG = 0) (hg : g &&& TH_URG = 0) : setPush f g = g := by
  have hclear : ∀ v : BitVec 8, v &&& TH_URG = 0 → v.getLsbD 5 = false := by
    intro v hv
    have hbit : (v &&& TH_URG).getLsbD 5 = false := by rw [hv]; rfl
    have hset : TH_URG.getLsbD 5 = true := by decide
    rwa [BitVec.getLsbD_and, hset, Bool.and_true] at hbit
  apply BitVec.eq_of_getLsbD_eq
  intro i hi
  rw [getLsbD_setPush]
  split
  · next h3 => rw [h3]
  · next h3 =>
    by_cases h5 : i = 5
    · rw [h5, hclear f hf, hclear g hg]
    · exact getLsbD_kept h hi h3 h5

end

/-! ### The changes -/

/-- The fields of the TCP header that may change. -/
def tcpFields (th : Nat) : List (Nat × Nat) := [(th + 4, 4), (th + 8, 4), (th + 14, 2), (th + 18, 2), (th + 13, 1), (th + 16, 2)]

variable {th hlen : Nat} {x changes : BitVec 8} {seq : List (BitVec 8)}

theorem apart_win : Apart [(th + 18, 2), (th + 13, 1), (th + 16, 2)] (th + 14) 2 := by
  simp only [apart_cons, apart_nil, and_true]
  omega

theorem apart_ack : Apart [(th + 14, 2), (th + 18, 2), (th + 13, 1), (th + 16, 2)] (th + 8) 4 := by
  simp only [apart_cons, apart_nil, and_true]
  omega

theorem apart_seq : Apart [(th + 8, 4), (th + 14, 2), (th + 18, 2), (th + 13, 1), (th + 16, 2)] (th + 4) 4 := by
  simp only [apart_cons, apart_nil, and_true]
  omega

theorem apart_tcpFields (hth : 20 ≤ th) {k : Nat} (h : a + k ≤ 20) : Apart (tcpFields th) a k := by
  simp only [tcpFields, apart_cons, apart_nil, and_true]
  omega

theorem masked (h : changes &&& specialsMask = x) (b : BitVec 8) (hb : specialsMask &&& b = b) : changes &&& b = x &&& b := by
  rw [← h, BitVec.and_assoc, hb]

theorem mask_bits : ∀ u w a s : Bool, (mask u w a s &&& newU ≠ 0 ↔ u = true) ∧ (mask u w a s &&& newW ≠ 0 ↔ w = true) ∧
    (mask u w a s &&& newA ≠ 0 ↔ a = true) ∧ (mask u w a s &&& newS ≠ 0 ↔ s = true) := by
  decide

theorem decodeChanges_mask (hA : ¬ (thAck ip th - thAck s th).toNat > 0xffff)
    (hS : ¬ (thSeq ip th - thSeq s th).toNat > 0xffff) (hurp : thFlags ip th &&& TH_URG = 0 → thUrp ip th = thUrp s th)
    (hx : changes &&& specialsMask = mask (decide (thFlags ip th &&& TH_URG ≠ 0)) (decide (thWin ip th - thWin s th ≠ 0))
      (decide (thAck ip th - thAck s th ≠ 0)) (decide (thSeq ip th - thSeq s th ≠ 0)))
    (hI : changes &&& specialsMask ≠ specialI) (hD : changes &&& specialsMask ≠ specialD)
    (hflags : setUrg f (thFlags ip th) = thFlags ip th) :
    decodeChanges changes th hlen (update (overlay [(th + 16, 2)] ip s) (th + 13) f,
      ((if thFlags ip th &&& TH_URG ≠ 0 then encodeZ (thUrp ip th) else []) ++
        (if thWin ip th - thWin s th ≠ 0 then encode (thWin ip th - thWin s th) else []) ++
        (if thAck ip th - thAck s th ≠ 0 then encode ((thAck ip th - thAck s th).setWidth 16) else []) ++
        (if thSeq ip th - thSeq s th ≠ 0 then encode ((thSeq ip th - thSeq s th).setWidth 16) else [])) ++ rest) =
      some (overlay (tcpFields th) ip s, rest) := by
  obtain ⟨hu, hw, ha, hs⟩ := mask_bits (decide (thFlags ip th &&& TH_URG ≠ 0)) (decide (thWin ip th - thWin s th ≠ 0))
    (decide (thAck ip th - thAck s th ≠ 0)) (decide (thSeq ip th - thSeq s th ≠ 0))
  rw [← masked hx newU (by decide), decide_eq_true_eq] at hu
  rw [← masked hx newW (by decide), decide_eq_true_eq] at hw
  rw [← masked hx newA (by decide), decide_eq_true_eq] at ha
  rw [← masked hx newS (by decide), decide_eq_true_eq] at hs
  have hbase : update (overlay [(th + 16, 2)] ip s) (th + 13) (thFlags ip th) = overlay [(th + 13, 1), (th + 16, 2)] ip s :=
    update_overlay (th + 13)
  rw [decodeChanges, if_neg hI, if_neg hD]
  have hflag : thFlags (update (overlay [(th + 16, 2)] ip s) (th + 13) f) th = f := update_self ..
  rw [hflag, update_idem, update_idem]
  have hfirst : ∀ rest' : List (BitVec 8), (if changes &&& newU ≠ 0 then
        decodeU (th + 18) (update (overlay [(th + 16, 2)] ip s) (th + 13) (f ||| TH_URG),
          (if thFlags ip th &&& TH_URG ≠ 0 then encodeZ (thUrp ip th) else []) ++ rest')
      else some (update (overlay [(th + 16, 2)] ip s) (th + 13) (f &&& ~~~TH_URG),
        (if thFlags ip th &&& TH_URG ≠ 0 then encodeZ (thUrp ip th) else []) ++ rest')) =
      some (overlay [(th + 18, 2), (th + 13, 1), (th + 16, 2)] ip s, rest') := by
    intro rest'
    rw [setUrg] at hflags
    by_cases hurg : thFlags ip th &&& TH_URG ≠ 0
    · rw [if_pos hurg] at hflags
      rw [if_pos (hu.mpr hurg), if_pos hurg, hflags, hbase]
      exact decodeU_field (th + 18)
    · rw [if_neg hurg] at hflags
      rw [if_neg fun h => hurg (hu.mp h), if_neg hurg, hflags, hbase, field_same16 (hurp (not_not.mp hurg))]
      rfl
  rw [append_assoc, append_assoc, append_assoc, hfirst, bind_eq_bind, bind_some]
  have hwin := decodeS_field apart_win hw
  have hack := decodeL_field apart_ack ha hA
  have hseq := decodeL_field apart_seq hs hS
  rw [thWin, thWin, hwin, bind_some, thAck, thAck, hack]
  exact hseq rest

theorem decodeChanges_special (hth : 20 ≤ th) (hurp : thUrp ip th = thUrp s th) (hwin : thWin ip th - thWin s th = 0)
    (hseq : thSeq ip th - thSeq s th = dataLen s hlen) (hflags : f = thFlags ip th)
    (hack : changes &&& specialsMask = specialI ∧ thAck ip th - thAck s th = dataLen s hlen ∨
      changes &&& specialsMask = specialD ∧ thAck ip th - thAck s th = 0) :
    decodeChanges changes th hlen (update (overlay [(th + 16, 2)] ip s) (th + 13) f, rest) = some (overlay (tcpFields th) ip s, rest) := by
  have hbase : update (overlay [(th + 16, 2)] ip s) (th + 13) f = overlay [(th + 14, 2), (th + 18, 2), (th + 13, 1), (th + 16, 2)] ip s := by
    rw [hflags, field_same16 (sub_eq_zero.mp hwin), field_same16 hurp]
    exact update_overlay (th + 13)
  have hdata : ∀ {fs}, Apart fs 2 2 → dataLen (overlay fs ip s) hlen = dataLen s hlen := by
    intro fs hfs
    rw [dataLen, dataLen, ipLen, ipLen, get16_overlay hfs]
  have hsum : ∀ {v v' d : BitVec 32}, v - v' = d → v' + d = v := by
    intro v v' d h
    rw [← h, BitVec.add_comm, BitVec.sub_add_cancel]
  rw [hbase, decodeChanges]
  obtain ⟨hx, hack⟩ | ⟨hx, hack⟩ := hack
  · rw [if_pos hx]
    dsimp only
    rw [set32_overlay (p := ip), set32_overlay (p := ip)]
    · rfl
    · rw [thSeq, get32_overlay apart_seq]
      exact hsum hseq
    · rw [thAck, get32_overlay apart_ack]
      exact hsum hack
  · have hne : specialD ≠ specialI := by decide
    rw [if_neg (hx ▸ hne), if_pos hx]
    rw [← field_same32 (sub_eq_zero.mp hack), set32_overlay (p := ip)]
    · rfl
    · rw [thSeq, get32_overlay apart_seq]
      exact hsum hseq

theorem setWidth_sub (v v' : BitVec 16) : (v.setWidth 32 - v'.setWidth 32).setWidth 16 = v - v' := by
  apply BitVec.eq_of_toNat_eq
  rw [BitVec.toNat_setWidth, BitVec.toNat_sub, BitVec.toNat_sub, BitVec.toNat_setWidth, BitVec.toNat_setWidth]
  omega

theorem decodeId_field (hth : 20 ≤ th) (hI : changes &&& newI ≠ 0 ↔ (ipId ip).setWidth 32 - (ipId s).setWidth 32 ≠ (1 : BitVec 32)) :
    decodeId changes (overlay (tcpFields th) ip s, (if (ipId ip).setWidth 32 - (ipId s).setWidth 32 ≠ (1 : BitVec 32) then
        encodeZ (((ipId ip).setWidth 32 - (ipId s).setWidth 32).setWidth 16) else []) ++ rest) =
      some (overlay ((4, 2) :: tcpFields th) ip s, rest) := by
  have hold : ipId (overlay (tcpFields th) ip s) = ipId s := get16_overlay (apart_tcpFields hth (by decide))
  have hsub := setWidth_sub (ipId ip) (ipId s)
  rw [decodeId]
  by_cases h : (ipId ip).setWidth 32 - (ipId s).setWidth 32 ≠ (1 : BitVec 32)
  · rw [if_pos (hI.mpr h), if_pos h, decodeS, decode_encodeZ, hsub]
    refine congrArg (fun m => some (m, rest)) (set16_overlay ?_)
    change ipId (overlay (tcpFields th) ip s) + _ = ipId ip
    rw [hold, BitVec.add_comm, BitVec.sub_add_cancel]
  rw [if_neg fun hb => h (hI.mp hb), if_neg h]
  refine congrArg (fun m => some (m, rest)) (set16_overlay ?_)
  rw [not_not.mp h] at hsub
  change ipId (overlay (tcpFields th) ip s) + 1 = ipId ip
  rw [hold, BitVec.add_comm, ← BitVec.sub_add_cancel (ipId ip) (ipId s), ← hsub]
  rfl

theorem wordSum_le (m : Mem) (n : Nat) : wordSum m n ≤ n * 65535 := by
  induction n with
  | zero => exact le_refl 0
  | succ n ih =>
    rw [wordSum]
    omega

theorem wordSum_add {m : Mem} (hzero : get16 m 10 = 0) (n : Nat) (h : ∀ i < n, i ≠ 5 → get16 m (2 * i) = get16 ip (2 * i)) :
    wordSum m n + (if 5 < n then (ipSum ip).toNat else 0) = wordSum ip n := by
  induction n with
  | zero => rfl
  | succ n ih =>
    have ih := ih fun i hi => h i (Nat.lt_succ_of_lt hi)
    rw [wordSum, wordSum]
    by_cases hn : n = 5
    · rw [if_neg (by omega)] at ih
      rw [hn, hzero, if_pos (by decide), ← hn, ← ih]
      change _ + 0 + (get16 ip 10).toNat = _ + _ + (get16 ip (2 * n)).toNat
      rw [hn]
    · rw [h n (Nat.lt_succ_self n) hn, ← ih]
      split_ifs <;> omega

theorem wordSum_pos {m : Mem} (h : 0 < (get16 m 0).toNat) {n : Nat} (hn : 0 < n) : 0 < wordSum m n := by
  induction n with
  | zero => omega
  | succ n ih =>
    by_cases h0 : n = 0
    · rw [h0]
      exact Nat.add_pos_right _ h
    · exact Nat.add_pos_left (ih (by omega)) _

theorem checksum_unique {sum v : Nat} (hpos : 0 < sum) (hsum : sum ≤ 30 * 65535) (hv : v < 65535)
    (h : fold (fold (sum + v)) = 0xffff) : v = 65535 - fold (fold sum) ∧ fold (fold sum) ≤ 65535 := by
  unfold fold at *
  omega

/-! ### The whole header -/

/-- The bytes that have been compared. -/
structure Compared (ip s : Mem) (th hlen : Nat) : Prop where
  first : get16 ip 0 = get16 s 0
  off : get16 ip 6 = get16 s 6
  ttl : get16 ip 8 = get16 s 8
  src : get32 ip 12 = get32 s 12
  dst : get32 ip 16 = get32 s 16
  options : ∀ i, 20 ≤ i → i < th → ip i = s i
  ports : get32 ip th = get32 s th
  thOff : ip (th + 12) = s (th + 12)
  thOptions : ∀ i, th + 20 ≤ i → i < hlen → ip i = s i

/-- Every field of the header that may change is what it is in the packet. -/
def headerFields (th : Nat) : List (Nat × Nat) := (10, 2) :: (2, 2) :: (4, 2) :: tcpFields th

theorem Compared.ipHeader (h : Compared ip s th hlen) {i : Nat} (hi : i < th) (h10 : i ≠ 10) (h11 : i ≠ 11) :
    overlay ((2, 2) :: (4, 2) :: tcpFields th) ip s i = ip i := by
  apply overlay_of_eq
  intro hout
  simp only [tcpFields, within_cons, not_or] at hout
  by_cases h20 : 20 ≤ i
  · exact (h.options i h20 hi).symm
  by_cases h16 : 16 ≤ i
  · exact same_of_get32 h.dst.symm h16 (by omega)
  by_cases h12 : 12 ≤ i
  · exact same_of_get32 h.src.symm h12 (by omega)
  by_cases h8 : 8 ≤ i
  · exact same_of_get16 h.ttl.symm h8 (by omega)
  by_cases h6 : 6 ≤ i
  · exact same_of_get16 h.off.symm h6 (by omega)
  · exact same_of_get16 h.first.symm (Nat.zero_le i) (by omega)

theorem Compared.overlay_eq (h : Compared ip s th hlen) (hth : 20 ≤ th) (hlen20 : th + 20 ≤ hlen) :
    overlay (headerFields th) ip s = memcpy s ip hlen := by
  funext i
  rw [memcpy]
  split
  · next hi =>
    apply overlay_of_eq
    intro hout
    have hsum : ¬ (10 ≤ i ∧ i < 12) := fun hin => hout (within_cons.mpr (.inl hin))
    have hrest : ¬ Within ((2, 2) :: (4, 2) :: tcpFields th) i := fun hin => hout (within_cons.mpr (.inr hin))
    by_cases hip : i < th
    · have hsame := h.ipHeader hip (by omega) (by omega)
      rwa [overlay_of_not_within hrest] at hsame
    simp only [tcpFields, within_cons, not_or] at hrest
    by_cases hports : i < th + 4
    · exact same_of_get32 h.ports.symm (by omega) hports
    by_cases hoff : i = th + 12
    · rw [hoff, h.thOff]
    · exact (h.thOptions i (by omega) hi).symm
  · next hi =>
    apply overlay_of_not_within
    simp only [headerFields, tcpFields, within_cons]
    rintro (h | h | h | h | h | h | h | h | h | ⟨f, hf, -⟩)
    all_goals first | omega | cases hf

theorem set16_set16 (m : Mem) (a : Nat) (v v' : BitVec 16) : set16 (set16 m a v) a v' = set16 m a v' := by
  have hne : a + 1 ≠ a := by omega
  rw [set16, set16, set16, update_comm hne _ _ (update _ _ _), update_idem, update_idem]

theorem get16_set16_self (m : Mem) (a : Nat) (v : BitVec 16) : get16 (set16 m a v) a = v := by
  rw [get16, set16, update_of_ne (by omega), update_self, update_self]
  exact bytes_of_word v

theorem get16_set16_of_ne (m : Mem) {a b : Nat} (v : BitVec 16) (h : b + 2 ≤ a ∨ a + 2 ≤ b) : get16 (set16 m a v) b = get16 m b := by
  rw [get16, set16, update_of_ne (by omega), update_of_ne (by omega), update_of_ne (by omega), update_of_ne (by omega), get16]

theorem Compared.checksum (h : Compared ip s th hlen) (hth : 20 ≤ th) (h60 : th ≤ 60) (hdiv : 2 ∣ th)
    (hpos : 0 < (get16 ip 0).toNat) (hsum : headerSum ip th = 0xffff) (hones : ipSum ip ≠ 0xffff) :
    ~~~BitVec.ofNat 16 (headerSum (set16 (overlay ((2, 2) :: (4, 2) :: tcpFields th) ip s) 10 0) th) = ipSum ip := by
  have hword : ∀ i < th / 2, i ≠ 5 → get16 (set16 (overlay ((2, 2) :: (4, 2) :: tcpFields th) ip s) 10 0) (2 * i) = get16 ip (2 * i) := by
    intro i hi h5
    rw [get16_set16_of_ne _ _ (by omega), get16, h.ipHeader (by omega) (by omega) (by omega), h.ipHeader (by omega) (by omega) (by omega), get16]
  have hadd := wordSum_add (get16_set16_self _ _ _) (th / 2) hword
  rw [if_pos (by omega)] at hadd
  have hle := le_trans (wordSum_le (set16 (overlay ((2, 2) :: (4, 2) :: tcpFields th) ip s) 10 0) (th / 2))
    (Nat.mul_le_mul_right 65535 (show th / 2 ≤ 30 by omega))
  have hfirst : get16 (set16 (overlay ((2, 2) :: (4, 2) :: tcpFields th) ip s) 10 0) 0 = get16 ip 0 :=
    hword 0 (by omega) (by decide)
  have hsumpos := wordSum_pos (hfirst ▸ hpos) (show 0 < th / 2 by omega)
  have hv : (ipSum ip).toNat < 65535 := by
    have hne : (ipSum ip).toNat ≠ 65535 := fun heq => hones (BitVec.eq_of_toNat_eq heq)
    omega
  rw [headerSum, ← hadd] at hsum
  obtain ⟨heq, hle'⟩ := checksum_unique hsumpos hle hv hsum
  apply BitVec.eq_of_toNat_eq
  rw [heq, headerSum, BitVec.toNat_not, BitVec.toNat_ofNat, Nat.mod_eq_of_lt (Nat.lt_succ_of_le hle')]

/-- The bits of a byte of changes that are read. -/
structure Marked (changes x : BitVec 8) (ip s : Mem) (th : Nat) : Prop where
  special : changes &&& specialsMask = x
  id : changes &&& newI ≠ 0 ↔ (ipId ip).setWidth 32 - (ipId s).setWidth 32 ≠ (1 : BitVec 32)
  push : changes &&& tcpPushBit ≠ 0 ↔ thFlags ip th &&& TH_PUSH ≠ 0

theorem set16_first (m : Mem) (a : Nat) : set16 m a (get16 ip a) = overlay [(a, 2)] ip m := by
  have h : set16 (overlay [] ip m) a (get16 ip a) = overlay [(a, 2)] ip m := set16_overlay rfl
  rwa [overlay_nil] at h

theorem decodeChanges_eq (hth : 20 ≤ th) (hchanged : changed ip s th hlen = some (x, seq)) (hx : changes &&& specialsMask = x)
    (hkept : thFlags s th &&& kept = thFlags ip th &&& kept)
    (hurg : x = specialI ∨ x = specialD → thFlags s th &&& TH_URG = 0) :
    decodeChanges changes th hlen
      (update (overlay [(th + 16, 2)] ip s) (th + 13) (setPush (thFlags s th) (thFlags ip th)), seq ++ rest) =
      some (overlay (tcpFields th) ip s, rest) := by
  obtain ⟨hA, hS, hurp, hcases⟩ := changed_cases hchanged
  obtain ⟨rfl, rfl, hclear, hwin, hack, hseq⟩ | ⟨rfl, rfl, hclear, hwin, hack, hseq⟩ | ⟨hne, hmask, rfl⟩ := hcases
  · exact decodeChanges_special hth (hurp hclear) hwin hseq (setPush_eq hkept (hurg (.inl rfl)) hclear) (.inl ⟨hx, hack⟩)
  · exact decodeChanges_special hth (hurp hclear) hwin hseq (setPush_eq hkept (hurg (.inr rfl)) hclear) (.inr ⟨hx, hack⟩)
  · exact decodeChanges_mask hA hS hurp (hx.trans hmask) (hx ▸ hne.1) (hx ▸ hne.2) (setUrg_setPush hkept)

theorem rebuild_eq {data : List (BitVec 8)} (h : Compared ip s th hlen) (hths : ipHlen s = th) (hth : 20 ≤ th) (h60 : th ≤ 60)
    (hdiv : 2 ∣ th) (hlen20 : th + 20 ≤ hlen) (hchanged : changed ip s th hlen = some (x, seq)) (hmarked : Marked changes x ip s th)
    (hkept : thFlags s th &&& kept = thFlags ip th &&& kept)
    (hurg : x = specialI ∨ x = specialD → thFlags s th &&& TH_URG = 0) (hdata : ipLen ip = BitVec.ofNat 16 (hlen + data.length))
    (hpos : 0 < (get16 ip 0).toNat) (hsum : headerSum ip th = 0xffff) (hones : ipSum ip ≠ 0xffff) :
    rebuild ⟨hlen, s⟩ changes ([(thSum ip th).extractLsb' 8 8, (thSum ip th).extractLsb' 0 8] ++
      (seq ++ if (ipId ip).setWidth 32 - (ipId s).setWidth 32 ≠ (1 : BitVec 32) then
        encodeZ (((ipId ip).setWidth 32 - (ipId s).setWidth 32).setWidth 16) else []) ++ data) =
      some (memcpy s ip hlen, data) := by
  have hflags : thFlags (overlay [(th + 16, 2)] ip s) th = thFlags s th := by
    apply overlay_of_not_within
    simp only [within_cons]
    rintro (h | ⟨f, hf, -⟩)
    · omega
    · cases hf
  have hpush : (if changes &&& tcpPushBit ≠ 0 then thFlags (overlay [(th + 16, 2)] ip s) th ||| TH_PUSH
      else thFlags (overlay [(th + 16, 2)] ip s) th &&& ~~~TH_PUSH) = setPush (thFlags s th) (thFlags ip th) := by
    rw [hflags]
    exact if_congr hmarked.push rfl rfl
  have hlength : set16 (overlay ((4, 2) :: tcpFields th) ip s) 2 (BitVec.ofNat 16 (hlen + data.length)) =
      overlay ((2, 2) :: (4, 2) :: tcpFields th) ip s := set16_overlay hdata.symm
  have hfinal : set16 (overlay ((2, 2) :: (4, 2) :: tcpFields th) ip s) 10 (ipSum ip) = overlay (headerFields th) ip s := set16_overlay rfl
  rw [append_assoc, append_assoc, rebuild.eq_def]
  dsimp only [cons_append, nil_append]
  rw [hths, bytes_of_word, thSum, set16_first, hpush, decodeChanges_eq hth hchanged hmarked.special hkept hurg,
    bind_eq_bind, bind_some, decodeId_field hth hmarked.id, bind_some]
  rw [hlength, set16_set16, h.checksum hth h60 hdiv hpos hsum hones, hfinal, h.overlay_eq hth hlen20]
  rfl

end NetBSD.Net.SlCompress
