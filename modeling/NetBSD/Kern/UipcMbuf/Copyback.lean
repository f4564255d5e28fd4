import NetBSD.Kern.UipcMbuf.Rounds

/-! `m_copyback`, `m_copyback_cow` and `m_makewritable`.

What they do to the bytes of the chain (`copyback_range`). A header does not get the length when nothing is written behind its end. -/
namespace NetBSD.Kern.UipcMbuf
open List Option
open Lib

/-- Bytes with others from `off` on, and zeroes behind them. -/
def formOf (old : List Byte) (off : Nat) (cp : List Byte) (i : Nat) : Byte :=
  if off ≤ i ∧ i < off + cp.length then cp.getD (i - off) 0 else old.getD i 0

/-- Zeroes are put behind the bytes up to a length. -/
def padded (old : List Byte) (n : Nat) : List Byte := old ++ replicate (n - old.length) 0

section Calls
variable {T : Task} {h : Heap} {out : Nat → Nat} {m0 : Mbuf} {rest : List Mbuf} {old cp : List Byte} {off len : Nat} {c : Cursor} {f : Flags}

theorem slice_eq {b : Nat → Byte} {l : List Byte} {i : Nat} (hl : ∀ k < l.length, l[k]? = some (b (i + k))) : slice b i l.length = l := by
  apply ext_getElem? fun k => ?_
  by_cases hk : k < l.length
  · rw [getElem?_slice hk, hl k hk]
  · rw [getElem?_eq_none (by rw [length_slice]; omega), getElem?_eq_none (by omega)]

theorem getElem?_padded {n i : Nat} (hi : i < max old.length n) : (padded old n)[i]? = some (old.getD i 0) := by
  rw [padded, getD_eq_getElem?_getD]
  by_cases hlt : i < old.length
  · rw [getElem?_append_left hlt, getElem?_eq_getElem hlt]
    rfl
  · rw [getElem?_append_right (by omega), getElem?_replicate, if_pos (by omega), getElem?_eq_none (by omega)]
    rfl

theorem length_padded (old : List Byte) (n : Nat) : (padded old n).length = max old.length n := by
  rw [padded, length_append, length_replicate]
  omega

theorem slice_formOf (old cp : List Byte) (off : Nat) : slice (formOf old off cp) 0 (max old.length (off + cp.length)) =
    (padded old (off + cp.length)).take off ++ cp ++ (padded old (off + cp.length)).drop (off + cp.length) := by
  have hlength := length_padded old (off + cp.length)
  have hsplit : max old.length (off + cp.length) = ((padded old (off + cp.length)).take off).length + cp.length +
      ((padded old (off + cp.length)).drop (off + cp.length)).length := by
    rw [length_take, length_drop]
    omega
  have hfront : ((padded old (off + cp.length)).take off).length = off := by
    rw [length_take]
    omega
  rw [hsplit, slice_add, slice_add]
  congr 1
  · congr 1
    · refine slice_eq fun k hk => ?_
      rw [hfront] at hk
      rw [getElem?_take_of_lt hk, getElem?_padded (by omega), formOf, if_neg (by omega), zero_add]
    · refine slice_eq fun k hk => ?_
      rw [hfront, formOf, if_pos (by omega), getD_eq_getElem?_getD, show 0 + off + k - off = k by omega, getElem?_eq_getElem hk]
      rfl
  · refine slice_eq fun k hk => ?_
    rw [getElem?_drop, getElem?_padded (by omega), formOf, if_neg (by omega)]
    congr 2
    omega

theorem padded_of_le {n : Nat} (hle : n ≤ old.length) : padded old n = old := by
  rw [padded, Nat.sub_eq_zero_of_le hle, replicate_zero, append_nil]

theorem start_good (hheld : Held h T.out (m0 :: rest)) (hform : T.form = formOf (chainBytes h (m0 :: rest)) T.lo cp)
    (hheap : T.heap = h) (hhi : T.lo + len = T.hi) (hsize : T.size = mLength (m0 :: rest)) (hhdr : T.hdr = m0.pkthdr)
    (hcp : T.f.copyback = true → cp.length = len) (hpreserve : T.f.copyback = false → cp = [])
    (hclear : T.f.cow = false → Clear h T.lo T.hi 0 (m0 :: rest)) : Good T (.seek ⟨h, [], m0, rest, T.lo, len, 0, cp⟩) := by
  have hpos : Cursor.pos ⟨h, [], m0, rest, T.lo, len, 0, cp⟩ = T.lo := zero_add _
  refine ⟨⟨hheld, le_of_eq hpos.symm, by rw [hpos, hhi], ?_, fun hcb => ⟨hcp hcb, fun i hi => ?_⟩, ?_, ⟨le_refl _, fun _ => rfl⟩,
    hhdr.symm, trivial, hclear, fun x _ => by rw [hheap]⟩, ⟨fun hlt => ?_, fun _ hne => hne⟩, .inr hpos⟩
  · intro i hi hout
    show (chainBytes h (m0 :: rest))[i]? = some (T.form i)
    have hi : i < (chainBytes h (m0 :: rest)).length := hi
    have hrange : ¬(T.lo ≤ i ∧ i < T.lo + cp.length) := by
      cases hcb : T.f.copyback with
      | true =>
        rw [hcb, if_pos rfl] at hout
        rw [hcp hcb]
        omega
      | false =>
        rw [hpreserve hcb]
        show ¬(T.lo ≤ i ∧ i < T.lo + 0)
        omega
    rw [hform, formOf, if_neg hrange, getD_eq_getElem?_getD, getElem?_eq_getElem hi]
    rfl
  · have hlt : i < cp.length := by rwa [hcp hcb]
    rw [hpos, hform, formOf, if_pos (by omega), Nat.add_sub_cancel_left, getD_eq_getElem?_getD, getElem?_eq_getElem hlt]
    rfl
  · rw [hsize]
    exact ⟨le_refl _, le_max_left _ _⟩
  · dsimp only
    omega

theorem finish_extend (hext : f.extend = true) : ∃ chain, finish f c = some chain ∧ hdrOf chain = (hdrOf c.chain).map (max · c.totlen) ∧
    ∀ h, chainBytes h chain = chainBytes h c.chain := by
  unfold finish
  cases hchain : c.pre ++ c.m :: c.rest with
  | nil => exact absurd hchain (append_ne_nil_of_right_ne_nil _ (cons_ne_nil _ _))
  | cons m rest =>
    have hc : c.chain = m :: rest := hchain
    dsimp only
    cases hhdr : m.pkthdr with
    | none => exact ⟨m :: rest, rfl, by rw [hc, hdrOf, head?_cons, bind_some, hhdr]; rfl, fun _ => by rw [hc]⟩
    | some n =>
      have hof : hdrOf (m :: rest) = some n := hhdr
      rw [hc, hof]
      dsimp only
      by_cases hlt : n < c.totlen
      · rw [if_pos hlt, if_pos hext]
        refine ⟨_, rfl, ?_, fun _ => rfl⟩
        exact congrArg some (max_eq_right (le_of_lt hlt)).symm
      rw [if_neg hlt]
      refine ⟨_, rfl, ?_, fun _ => rfl⟩
      rw [hof]
      exact congrArg some (max_eq_left (Nat.le_of_not_lt hlt)).symm

theorem finish_same (hle : ∀ n, hdrOf c.chain = some n → c.totlen ≤ n) : finish f c = some c.chain := by
  unfold finish
  cases hchain : c.pre ++ c.m :: c.rest with
  | nil => exact absurd hchain (append_ne_nil_of_right_ne_nil _ (cons_ne_nil _ _))
  | cons m rest =>
    have hc : c.chain = m :: rest := hchain
    dsimp only
    cases hhdr : m.pkthdr with
    | none => exact congrArg some hc.symm
    | some n =>
      dsimp only
      rw [if_neg (Nat.not_lt.mpr (hle n (by rw [hc]; exact hhdr))), hc]

/-- The rounds for a chain that is writable in the range. -/
theorem mCopyback_spec (hheld : Held h out (m0 :: rest)) {mem : Nat → Mem} (hmem : ∀ i, mem i = ⟨true, true⟩) (junk : Nat → Nat → Byte)
    (hclear : Clear h off (off + cp.length) 0 (m0 :: rest)) : ∃ n, ∀ fuel ≥ n, ∃ r, mCopyback mem junk fuel h (m0 :: rest) off cp.length cp = some r ∧
      r.enobufs = false ∧ chainBytes r.heap r.chain = slice (formOf (chainBytes h (m0 :: rest)) off cp) 0
        (max (mLength (m0 :: rest)) (off + cp.length)) ∧
      ∃ totlen, hdrOf r.chain = m0.pkthdr.map (max · totlen) ∧ (0 < cp.length → totlen = off + cp.length) ∧ (cp.length = 0 → off ≠ 0 → totlen < off) ∧
        totlen ≤ off + cp.length := by
  let T : Task := {
    f := ⟨true, false, true, false⟩, form := formOf (chainBytes h (m0 :: rest)) off cp, out := out, heap := h, lo := off, hi := off + cp.length
    size := mLength (m0 :: rest), hdr := m0.pkthdr, extend_eq := rfl, preserve_eq := rfl, copies := fun _ => rfl
    inside := fun h => (by cases h)
    zero := fun _ i hi hlt => by
      rw [formOf, if_neg (by omega), getD_eq_getElem?_getD, getElem?_eq_none (by rwa [length_chainBytes])]
      rfl }
  have hgood : Good T (.seek ⟨h, [], m0, rest, off, cp.length, 0, cp⟩) :=
    start_good (T := T) hheld rfl rfl rfl rfl rfl (fun _ => rfl) (fun h => (by cases h)) fun _ => hclear
  refine ⟨measure T (.seek ⟨h, [], m0, rest, off, cp.length, 0, cp⟩) + 1, fun fuel hfuel => ?_⟩
  obtain ⟨c, hdone, hrun⟩ := rounds_done junk hmem fuel _ hgood hfuel
  obtain ⟨chain, hfinish, hhdr, hbytes⟩ := finish_extend (c := c) (show T.f.extend = true from rfl)
  refine ⟨⟨false, c.heap, chain⟩, ?_, rfl, ?_, c.totlen, ?_, fun hpos => ?_, fun hzero hne => ?_, hdone.totlen⟩
  · rw [hfinish] at hrun
    exact hrun
  · rw [hbytes, hdone.agrees.eq_slice, length_chainBytes, hdone.size]
  · rw [hhdr, hdone.hdr]
  · exact hdone.full rfl (show off < off + cp.length by omega)
  have hshort := hdone.short rfl (show off = off + cp.length by omega) hne
  rw [show T.hi = off + cp.length from rfl, hzero] at hshort
  exact hshort

/-- The rounds for a range inside of a chain, copied back or preserved. -/
theorem cow_spec (copyback : Bool) (cp : List Byte) (hheld : Held h out (m0 :: rest)) {mem : Nat → Mem} (hmem : ∀ i, mem i = ⟨true, true⟩) (junk : Nat → Nat → Byte)
    (hin : off + len ≤ mLength (m0 :: rest)) (hhdr : ∀ n, m0.pkthdr = some n → off + len ≤ n)
    (hcp : copyback = true → cp.length = len) (hpreserve : copyback = false → cp = []) : ∃ n, ∀ fuel ≥ n, ∃ r,
      mCopybackInternal ⟨copyback, !copyback, false, true⟩ mem junk fuel h (m0 :: rest) off (some len) cp = some r ∧ r.enobufs = false ∧
      chainBytes r.heap r.chain = slice (formOf (chainBytes h (m0 :: rest)) off cp) 0 (mLength (m0 :: rest)) ∧
      mLength r.chain = mLength (m0 :: rest) ∧ hdrOf r.chain = m0.pkthdr ∧ Clear r.heap off (off + len) 0 r.chain ∧
      ∀ x, 0 < out x → (r.heap.ext x).buf = (h.ext x).buf := by
  let T : Task := {
    f := ⟨copyback, !copyback, false, true⟩, form := formOf (chainBytes h (m0 :: rest)) off cp, out := out, heap := h, lo := off
    hi := off + len, size := mLength (m0 :: rest), hdr := m0.pkthdr, extend_eq := rfl, preserve_eq := rfl
    copies := fun h => (by cases h), inside := fun _ => hin, zero := fun h => (by cases h) }
  have hgood : Good T (.seek ⟨h, [], m0, rest, off, len, 0, cp⟩) :=
    start_good (T := T) hheld rfl rfl rfl rfl rfl hcp hpreserve fun h => (by cases h)
  refine ⟨measure T (.seek ⟨h, [], m0, rest, off, len, 0, cp⟩) + 1, fun fuel hfuel => ?_⟩
  obtain ⟨c, hdone, hrun⟩ := rounds_done junk hmem fuel _ hgood hfuel
  have hsize : mLength c.chain = mLength (m0 :: rest) := hdone.size.trans (max_eq_left hin)
  have hfinish : finish T.f c = some c.chain := finish_same fun n hn => by
    rw [hdone.hdr] at hn
    exact le_trans hdone.totlen (hhdr n hn)
  refine ⟨⟨false, c.heap, c.chain⟩, ?_, rfl, ?_, hsize, hdone.hdr, hdone.clear, hdone.shared⟩
  · rw [hfinish] at hrun
    exact hrun
  · rw [hdone.agrees.eq_slice, length_chainBytes, hsize]

/-- **Just the range is written.** With memory, and references counted: `m_copyback` to writable mbufs puts zeroes behind the bytes
as far as needed, then the source in place; and the header gets the length just when something is written or it has it already.
Where the range is in the chain, `m_copyback_cow` replaces it and `m_makewritable` changes no byte; the length stays, in the range no
mbuf is read-only any more, and no storage that is used elsewhere is written. -/
theorem copyback_range (hheld : Held h out (m0 :: rest)) (mem : Nat → Mem) (hmem : ∀ i, mem i = ⟨true, true⟩) (junk : Nat → Nat → Byte) (off : Nat) :
    (∀ cp, Clear h off (off + cp.length) 0 (m0 :: rest) → ∃ n, ∀ fuel ≥ n, ∃ r,
      mCopyback mem junk fuel h (m0 :: rest) off cp.length cp = some r ∧ r.enobufs = false ∧
      chainBytes r.heap r.chain = (padded (chainBytes h (m0 :: rest)) (off + cp.length)).take off ++ cp ++
        (padded (chainBytes h (m0 :: rest)) (off + cp.length)).drop (off + cp.length) ∧
      (hdrOf r.chain = m0.pkthdr.map (max · (off + cp.length)) ↔ (cp = [] → ∀ len, m0.pkthdr = some len → off ≤ len))) ∧
    (∀ cp, off + cp.length ≤ mLength (m0 :: rest) → (∀ len, m0.pkthdr = some len → off + cp.length ≤ len) → ∃ n, ∀ fuel ≥ n, ∃ r,
      mCopybackCow mem junk fuel h (m0 :: rest) off cp.length cp = some r ∧ r.enobufs = false ∧
      chainBytes r.heap r.chain = (chainBytes h (m0 :: rest)).take off ++ cp ++ (chainBytes h (m0 :: rest)).drop (off + cp.length) ∧
      mLength r.chain = mLength (m0 :: rest) ∧ hdrOf r.chain = m0.pkthdr ∧ Clear r.heap off (off + cp.length) 0 r.chain ∧
      ∀ x, 0 < out x → (r.heap.ext x).buf = (h.ext x).buf) ∧
    ∀ len : Option Nat, off + len.getD (mLength (m0 :: rest) - off) ≤ mLength (m0 :: rest) →
      (∀ n, m0.pkthdr = some n → off + len.getD (mLength (m0 :: rest) - off) ≤ n) → ∃ n, ∀ fuel ≥ n, ∃ r,
      mMakewritable mem junk fuel h (m0 :: rest) off len = some r ∧ r.enobufs = false ∧
      chainBytes r.heap r.chain = chainBytes h (m0 :: rest) ∧
      mLength r.chain = mLength (m0 :: rest) ∧ hdrOf r.chain = m0.pkthdr ∧
      Clear r.heap off (off + len.getD (mLength (m0 :: rest) - off)) 0 r.chain ∧ ∀ x, 0 < out x → (r.heap.ext x).buf = (h.ext x).buf := by
  refine ⟨fun cp hclear => ?_, fun cp hin hhdr => ?_, fun len hin hhdr => ?_⟩
  · obtain ⟨n, hrun⟩ := mCopyback_spec hheld hmem junk hclear
    refine ⟨n, fun fuel hfuel => ?_⟩
    obtain ⟨r, hr, hok, hbytes, totlen, hhdr, hfull, hshort, hle⟩ := hrun fuel hfuel
    refine ⟨r, hr, hok, ?_, ?_⟩
    · rw [hbytes, ← slice_formOf, length_chainBytes]
    rw [hhdr]
    cases hp : m0.pkthdr with
    | none => exact ⟨fun _ _ len hlen => (by cases hlen), fun _ => rfl⟩
    | some len =>
      rw [map_some, map_some]
      constructor
      · intro heq hempty len' hlen
        obtain rfl := some.inj hlen
        have hmax := some.inj heq
        rw [hempty] at hmax hshort
        by_contra hlt
        have hless := hshort rfl (by omega)
        omega
      · intro hcond
        congr 1
        by_cases hempty : cp = []
        · have hlen := hcond hempty len rfl
          omega
        · rw [hfull (length_pos_iff.mpr hempty)]
  · obtain ⟨n, hrun⟩ := cow_spec true cp hheld hmem junk hin hhdr (fun _ => rfl) fun h => (by cases h)
    refine ⟨n, fun fuel hfuel => ?_⟩
    obtain ⟨r, hr, hok, hbytes, hrest⟩ := hrun fuel hfuel
    refine ⟨r, ?_, hok, ?_, hrest⟩
    · refine (congrArg (Option.map _) hr).trans ?_
      rw [map_some, hok]
      rfl
    · have hform := slice_formOf (chainBytes h (m0 :: rest)) cp off
      rw [length_chainBytes, max_eq_left hin, padded_of_le (by rwa [length_chainBytes])] at hform
      rw [hbytes, hform]
  · obtain ⟨n, hrun⟩ := cow_spec false [] hheld hmem junk hin hhdr (fun h => (by cases h)) fun _ => rfl
    refine ⟨n, fun fuel hfuel => ?_⟩
    obtain ⟨r, hr, hok, hbytes, hrest⟩ := hrun fuel hfuel
    refine ⟨r, ?_, hok, ?_, hrest⟩
    · exact hr
    rw [hbytes, ← length_chainBytes h]
    refine slice_eq fun k hk => ?_
    rw [formOf, length_nil, if_neg (by omega), zero_add, getD_eq_getElem?_getD, getElem?_eq_getElem hk]
    rfl

end Calls

/-- A cluster of five bytes that is used elsewhere too. -/
def sharedHeap : Heap := ⟨fun _ => ⟨2, fun i => BitVec.ofNat 8 (i + 1), MCLBYTES⟩, 1⟩

/-- A header without data, and the cluster. -/
def sharedChain : List Mbuf := [⟨1, 56, 0, some 5, .dat fun _ => 0⟩, ⟨1, 0, 5, none, .ext 0 false true⟩]

theorem sharedChain_held : Held sharedHeap (fun x => if x = 0 then 1 else 0) sharedChain where
  refcnt := by
    intro x hx
    obtain rfl : x = 0 := Nat.lt_one_iff.mp hx
    rfl
  valid := by
    intro m hm x hx
    rw [sharedChain, mem_cons, mem_singleton] at hm
    obtain rfl | rfl := hm
    · cases hx
    · exact (some.inj hx).symm ▸ Nat.zero_lt_one
  fresh := fun x hx => if_neg (ne_of_gt hx)

/-- Two bytes in the middle are replaced, and the cluster has what it had. -/
theorem copyback_range_shared : ∃ n r, mCopybackCow (fun _ => ⟨true, true⟩) (fun _ _ => 0) n sharedHeap sharedChain 2 2 [8, 9] = some r ∧
    chainBytes r.heap r.chain = [1, 2, 8, 9, 5] ∧ (r.heap.ext 0).buf = (sharedHeap.ext 0).buf := by
  obtain ⟨-, hcow, -⟩ := copyback_range sharedChain_held (fun _ => ⟨true, true⟩) (fun _ => rfl) (fun _ _ => 0) 2
  obtain ⟨n, hrun⟩ := hcow [8, 9] (by decide) fun len hlen => by
    obtain rfl := some.inj hlen
    decide
  obtain ⟨r, hr, -, hbytes, -, -, -, hshared⟩ := hrun n (le_refl n)
  exact ⟨n, r, hr, hbytes, hshared 0 Nat.zero_lt_one⟩

/-- Zeroes are put behind an empty packet, and nothing else: the header says it is empty still. -/
theorem copyback_range_header : (mCopyback (fun _ => ⟨true, true⟩) (fun _ _ => 0) 4 ⟨fun _ => ⟨0, fun _ => 0, 0⟩, 0⟩
    [⟨1, 56, 0, some 0, .dat fun _ => 0⟩] 3 0 []).map (fun r => (r.enobufs, hdrOf r.chain, chainBytes r.heap r.chain)) =
      some (false, some 0, [0, 0, 0]) ∧ max 0 (3 + 0) ≠ 0 := by decide

end NetBSD.Kern.UipcMbuf
