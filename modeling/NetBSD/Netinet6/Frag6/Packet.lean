import NetBSD.Netinet6.Frag6.Input

/-! The bytes of a reassembled packet.

Where the mbufs of a chain end does not matter to what is done with it, so a packet is the bytes of the first fragment up to
its fragment header, and the data behind it (`reassembled_bytes`). The next header field is that of the header before, which
`ip6_get_prevhdr` finds on the way that the headers tell (`LastHeader`). -/
namespace NetBSD.Netinet6.Frag6
open List
open Lib

variable {m : Chain} {b b' : List Byte} {i j n off f len p : Nat} {v : Byte} {vs : List Byte}

theorem mAdj_flatten (n : Nat) (m : Chain) : (mAdj n m).flatten = m.flatten.drop n := by
  induction m generalizing n with
  | nil => rw [mAdj, flatten_nil, drop_nil]
  | cons b rest ih =>
    rw [mAdj, flatten_cons, drop_append]
    split
    · next hle => rw [flatten_cons, ih, drop_eq_nil_of_le hle]
    · next hgt => rw [flatten_cons, Nat.sub_eq_zero_of_le (Nat.le_of_not_le hgt), drop_zero]

theorem chainSet_flatten (v : Byte) (i : Nat) (m : Chain) : (chainSet v i m).flatten = m.flatten.set i v := by
  induction m generalizing i with
  | nil => rw [chainSet, flatten_nil, set_nil]
  | cons b rest ih =>
    rw [chainSet, flatten_cons, set_append]
    split
    · rw [flatten_cons]
    · rw [flatten_cons, ih]

theorem mSplit_flatten (hm : m ≠ []) (hn : n ≤ m.flatten.length) :
    ∃ head tail, mSplit n m = some (head, tail) ∧ head.flatten = m.flatten.take n ∧ tail.flatten = m.flatten.drop n := by
  induction m generalizing n with
  | nil => exact absurd rfl hm
  | cons b rest ih =>
    rw [flatten_cons, length_append] at hn
    rw [mSplit, flatten_cons, take_append, drop_append]
    split
    · next hgt =>
      have hrest : rest ≠ [] := by
        rintro rfl
        rw [flatten_nil, length_nil] at hn
        omega
      obtain ⟨head, tail, heq, hhead, htail⟩ := ih hrest (show n - b.length ≤ rest.flatten.length by omega)
      refine ⟨b :: head, tail, ?_, ?_, ?_⟩
      · rw [heq]
        rfl
      · rw [flatten_cons, hhead, take_of_length_le (le_of_lt hgt)]
      · rw [htail, drop_eq_nil_of_le (le_of_lt hgt), nil_append]
    · next hle =>
      have hzero : n - b.length = 0 := Nat.sub_eq_zero_of_le (Nat.le_of_not_lt hle)
      refine ⟨[b.take n], b.drop n :: rest, rfl, ?_, ?_⟩
      · rw [flatten_singleton, hzero, take_zero, append_nil]
      · rw [flatten_cons, hzero, drop_zero]

theorem deleteHeader_flatten (hn : n + 8 ≤ m.flatten.length) :
    ∃ m', deleteHeader m n true = some m' ∧ m'.flatten = m.flatten.take n ++ m.flatten.drop (n + 8) := by
  cases m with
  | nil => cases hn
  | cons b rest =>
    rw [deleteHeader]
    split
    · next hge =>
      refine ⟨_, rfl, ?_⟩
      rw [flatten_cons, flatten_cons, append_assoc, take_append_of_le_length (by omega), drop_append_of_le_length hge]
    obtain ⟨head, tail, heq, hhead, htail⟩ := mSplit_flatten (cons_ne_nil b rest) (le_trans (Nat.le_add_right n 8) hn)
    refine ⟨head ++ mAdj 8 tail, ?_, ?_⟩
    · rw [heq]
      rfl
    · rw [flatten_append, mAdj_flatten, hhead, htail, drop_drop]

/-! ### Bytes that are written -/

def writeAt (b : List Byte) (i : Nat) : List Byte → List Byte
  | [] => b
  | v :: vs => writeAt (b.set i v) (i + 1) vs

theorem chainWrite_flatten (m : Chain) (i : Nat) (vs : List Byte) : (chainWrite m i vs).flatten = writeAt m.flatten i vs := by
  induction vs generalizing m i with
  | nil => rfl
  | cons v vs ih => rw [chainWrite, ih, chainSet_flatten, writeAt]

theorem length_writeAt (b : List Byte) (i : Nat) (vs : List Byte) : (writeAt b i vs).length = b.length := by
  induction vs generalizing b i with
  | nil => rfl
  | cons v vs ih => rw [writeAt, ih, length_set]

theorem getElem?_writeAt_of_out (h : j < i ∨ i + vs.length ≤ j) : (writeAt b i vs)[j]? = b[j]? := by
  induction vs generalizing b i with
  | nil => rfl
  | cons v vs ih =>
    rw [length_cons] at h
    rw [writeAt, ih (by omega), getElem?_set_ne (by omega)]

theorem writeAt_self (h : ∀ k < vs.length, b[i + k]? = vs[k]?) : writeAt b i vs = b := by
  induction vs generalizing b i with
  | nil => rfl
  | cons v vs ih =>
    have hfirst : b[i]? = some v := h 0 (Nat.zero_lt_succ _)
    have hset : b.set i v = b := by
      obtain ⟨hi, hv⟩ := List.getElem?_eq_some_iff.mp hfirst
      rw [← hv, set_getElem_self]
    rw [writeAt, hset]
    apply ih
    intro k hk
    rw [add_assoc, add_comm 1]
    exact h (k + 1) (Nat.succ_lt_succ hk)

theorem getElem?_writeAt (hj : i + j < b.length) (hvs : j < vs.length) : (writeAt b i vs)[i + j]? = vs[j]? := by
  induction vs generalizing b i j with
  | nil => cases hvs
  | cons v vs ih =>
    rw [writeAt]
    cases j with
    | zero =>
      change (writeAt (b.set i v) (i + 1) vs)[i]? = some v
      rw [getElem?_writeAt_of_out (Or.inl (Nat.lt_succ_self i))]
      exact getElem?_set_self hj
    | succ j =>
      rw [← add_assoc, add_right_comm, ih (by rw [length_set]; omega) (Nat.lt_of_succ_lt_succ hvs)]
      rfl

theorem writeAt_append (h : i + vs.length ≤ b.length) : writeAt (b ++ b') i vs = writeAt b i vs ++ b' := by
  induction vs generalizing b i with
  | nil => rfl
  | cons v vs ih =>
    rw [length_cons] at h
    rw [writeAt, set_append_left _ _ (by omega), ih (by rw [length_set]; omega), writeAt]

theorem getElem?_field (h : j < n) : (field b i n)[j]? = b[i + j]? := by
  rw [Frag6.field, getElem?_take_of_lt h, getElem?_drop]

theorem writeAt_field (h : ∀ j < n, b[i + j]? = b'[i + j]?) : writeAt b i (field b' i n) = b := by
  apply writeAt_self
  intro k hk
  have hkn : k < n := lt_of_lt_of_le hk (length_take_le ..)
  rw [getElem?_field hkn, h k hkn]

theorem byteAt_congr (h : b[i]? = b'[i]?) : byteAt b i = byteAt b' i := by
  rw [byteAt, byteAt, getD_eq_getElem?_getD, getD_eq_getElem?_getD, h]

/-- The header whose next header field is at `f` ends at `len`, and in the headers from there up to `off`, each of which is
told by the one before, the last has its field at `p`. -/
inductive LastHeader (b : List Byte) (off : Nat) : (f len p : Nat) → Prop where
  | last {f : Nat} : LastHeader b off f off f
  | next {f len p : Nat} : len < off →
      LastHeader b off len (len + extLen (byteAt b f).toNat (byteAt b (len + 1)).toNat) p → LastHeader b off f len p

theorem eight_le_extLen (nxt len : Nat) : 8 ≤ extLen nxt len := by
  rw [extLen]
  split
  · exact le_refl 8
  split <;> omega

section
variable (h : LastHeader b off f len p)
include h

theorem LastHeader.bounds : len ≤ off ∧ (p = f ∨ len ≤ p ∧ p < off) := by
  induction h with
  | last => exact ⟨le_refl _, .inl rfl⟩
  | @next f len p hlt _ ih =>
    refine ⟨le_of_lt hlt, .inr ?_⟩
    obtain ⟨-, rfl | hp⟩ := ih
    · exact ⟨le_refl _, hlt⟩
    · omega

theorem LastHeader.congr (hlen : 40 ≤ len) (hlt : f < len) (hfield : f ≠ p → byteAt b' f = byteAt b f)
    (hsame : ∀ j, 40 ≤ j → j < off → j ≠ p → byteAt b' j = byteAt b j) : LastHeader b' off f len p := by
  induction h with
  | last => exact .last
  | @next f len p hoff hrest ih =>
    have hext := eight_le_extLen (byteAt b f).toNat (byteAt b (len + 1)).toNat
    obtain ⟨hend, hp⟩ := hrest.bounds
    have hnxt : byteAt b' f = byteAt b f := hfield (by omega)
    have hsize : byteAt b' (len + 1) = byteAt b (len + 1) := hsame (len + 1) (by omega) (by omega) (by omega)
    refine .next hoff ?_
    rw [hnxt, hsize]
    exact ih (by omega) (by omega) (hsame len hlen hoff) hsame

theorem prevhdrLoop_eq {fuel nlen : Nat} (hfuel : off ≤ len + fuel)
    (hlast : len = off → len - nlen = f) : prevhdrLoop b off fuel len nlen (byteAt b f).toNat = p := by
  induction h generalizing fuel nlen with
  | last =>
    cases fuel with
    | zero => exact hlast rfl
    | succ fuel =>
      rw [prevhdrLoop, if_neg (lt_irrefl _)]
      exact hlast rfl
  | @next f len p hlt _ ih =>
    have hext := eight_le_extLen (byteAt b f).toNat (byteAt b (len + 1)).toNat
    cases fuel with
    | zero => omega
    | succ fuel =>
      rw [prevhdrLoop, if_pos hlt]
      exact ih (by omega) fun _ => Nat.add_sub_cancel ..

end

theorem ip6GetPrevhdr_eq (h : LastHeader b off 6 40 p) : ip6GetPrevhdr b off = p := by
  rw [ip6GetPrevhdr]
  split
  · next hoff =>
    obtain ⟨-, rfl | hp⟩ := h.bounds
    · rfl
    · omega
  · next hoff => exact prevhdrLoop_eq h (Nat.le_add_left _ _) fun heq => absurd heq.symm hoff

def Asfrag.data (af6 : Asfrag) : List Byte := af6.m.flatten.drop af6.offset

theorem concatenate_flatten (ip6af : Asfrag) (rest : List Asfrag) :
    (concatenate ip6af rest).flatten = ip6af.m.flatten ++ rest.flatMap Asfrag.data := by
  rw [concatenate, flatten_append]
  congr 1
  induction rest with
  | nil => rfl
  | cons e rest ih => rw [flatMap_cons, flatten_append, ih, mAdj_flatten, flatMap_cons, Asfrag.data]

theorem length_htons (v : Int) : (htons v).length = 2 := rfl

theorem restoreHeader_flatten {m : Chain} {key : Key} (plen : Int) (hsrc : key.src = field m.flatten 8 16)
    (hdst : key.dst = field m.flatten 24 16) : (restoreHeader m plen key).flatten = writeAt m.flatten 4 (htons plen) := by
  have hout {j : Nat} (hj : 8 ≤ j) : (writeAt m.flatten 4 (htons plen))[j]? = m.flatten[j]? :=
    getElem?_writeAt_of_out (.inr (by rw [length_htons]; omega))
  rw [restoreHeader, chainWrite_flatten, chainWrite_flatten, chainWrite_flatten, hsrc, hdst]
  rw [writeAt_field (b := writeAt m.flatten 4 (htons plen)) fun j _ => hout (by omega)]
  exact writeAt_field fun j _ => hout (by omega)

variable {q6 : Queue} {ip6af : Asfrag} {rest : List Asfrag} {next : Int} {alloc : Alloc}

/-- The headers of the first fragment, with the length and the next header field of the packet, and all the data. -/
theorem reassembled_bytes (hoff : ip6af.offset = off + 8) (hlen : off + 8 ≤ ip6af.m.flatten.length)
    (hmin : 40 ≤ off) (hsrc : q6.key.src = field ip6af.m.flatten 8 16) (hdst : q6.key.dst = field ip6af.m.flatten 24 16)
    (hlast : LastHeader ip6af.m.flatten off 6 40 p) (hsplit : alloc.split = true) (hprevhdr : alloc.prevhdr = true) :
    ∃ m, reassembled q6 ip6af rest next alloc = .packet m (off + (ip6af.data ++ rest.flatMap Asfrag.data).length) off q6.nxt ∧
      m.flatten = (writeAt (ip6af.m.flatten.take off) 4 (htons (next + off - 40))).set p q6.nxt ++ (ip6af.data ++ rest.flatMap Asfrag.data) := by
  have hpre : (ip6af.m.flatten.take off).length = off := length_take_of_le (by omega)
  have hfield (i n : Nat) (hin : i + n ≤ ip6af.m.flatten.length) :
      field (concatenate ip6af rest).flatten i n = field ip6af.m.flatten i n := by
    rw [concatenate_flatten, Frag6.field, drop_append_of_le_length (by omega), take_append_of_le_length (by rw [length_drop]; omega), Frag6.field]
  -- The chain is cut at the fragment header.
  have hcut : (concatenate ip6af rest).flatten = ip6af.m.flatten.take off ++ (ip6af.m.flatten.drop off ++ rest.flatMap Asfrag.data) := by
    rw [concatenate_flatten, ← append_assoc, take_append_drop]
  have hrestored := restoreHeader_flatten (m := concatenate ip6af rest) (next + off - 40)
    (hsrc.trans (hfield 8 16 (by omega)).symm) (hdst.trans (hfield 24 16 (by omega)).symm)
  rw [hcut, writeAt_append (by rw [hpre, length_htons]; omega)] at hrestored
  obtain ⟨H, hH⟩ : ∃ H, H = writeAt (ip6af.m.flatten.take off) 4 (htons (next + off - 40)) := ⟨_, rfl⟩
  rw [← hH] at hrestored ⊢
  have hHlen : H.length = off := by rw [hH, length_writeAt, hpre]
  obtain ⟨m, hm, hflat⟩ := deleteHeader_flatten (m := restoreHeader (concatenate ip6af rest) (next + off - 40) q6.key)
    (n := off) (by rw [hrestored, length_append, length_append, hHlen, length_drop]; omega)
  have hdata : ip6af.data = ip6af.m.flatten.drop (off + 8) := by rw [Asfrag.data, hoff]
  have hmbytes : m.flatten = H ++ (ip6af.data ++ rest.flatMap Asfrag.data) := by
    rw [hflat, hrestored, take_left' hHlen, ← hHlen, drop_append, hHlen]
    rw [drop_eq_nil_of_le (by omega), nil_append, Nat.add_sub_cancel_left, drop_append_of_le_length (by rw [length_drop]; omega), drop_drop, hdata]
  -- The way to the last header is still there.
  have hsame (j : Nat) (hj : j < off) (hj6 : 6 ≤ j) : byteAt m.flatten j = byteAt ip6af.m.flatten j := by
    have hj6' : 4 + (htons (next + off - 40)).length ≤ j := hj6
    apply byteAt_congr
    rw [hmbytes, getElem?_append_left (by omega), hH, getElem?_writeAt_of_out (Or.inr hj6'), getElem?_take_of_lt hj]
  have hway : LastHeader m.flatten off 6 40 p :=
    hlast.congr (le_refl _) (by decide) (fun _ => hsame 6 (by omega) (le_refl _)) fun j hj hjoff _ =>
      hsame j hjoff (by omega)
  have hp : p < off := by
    obtain ⟨-, rfl | hp⟩ := hlast.bounds
    · omega
    · exact hp.2
  have hmlen : m.flatten.length = off + (ip6af.data ++ rest.flatMap Asfrag.data).length := by
    rw [hmbytes, length_append, hHlen]
  refine ⟨chainSet q6.nxt p m, ?_, ?_⟩
  · simp only [reassembled, hoff, Nat.add_sub_cancel, hsplit, hm, ip6GetPrevhdr_eq hway]
    rw [if_neg, hmlen]
    rw [hprevhdr, not_or]
    exact ⟨by decide, by omega⟩
  · rw [chainSet_flatten, hmbytes, set_append_left _ _ (by omega)]

end NetBSD.Netinet6.Frag6
