import NetBSD.Kern.UipcMbuf.Extend

/-! The second loop of `m_copyback_internal`.

A read-only mbuf is split where the range begins, then new ones take the place of it, and what is writable is written. From a good
start the rounds end with the task done (`rounds_done`). -/
namespace NetBSD.Kern.UipcMbuf
open List Nat
open Lib

section Rounds
variable {T : Task} {c : Cursor} {mem : Mem} {junk : Nat → Byte} {n : Mbuf} {rest : List Mbuf}

theorem Inv.out (hinv : Inv T c) (hleft : Left T c) (hle : c.off ≤ c.m.len) (hlen : c.len = 0) : Done T c := by
  have htotal := hinv.total
  have hsize := hinv.size
  have hchain := c.mLength_chain
  have hempty : T.hi ≤ T.lo := by
    by_contra hlt
    have hpos := hleft.len (Nat.lt_of_not_le hlt)
    omega
  rw [hlen, add_zero] at htotal
  have hagrees := hinv.agrees
  rw [htotal, ite_self] at hagrees
  rw [Cursor.pos] at htotal
  refine ⟨hinv.held, hagrees, by omega, ?_, fun _ hlt => by omega, fun hcow heq hne => ?_, hinv.hdr, clear_of_empty hempty, hinv.shared⟩
  · have htotlen := hinv.totlen.1
    omega
  have htotlen := hinv.totlen.2 hcow
  have hoff := hleft.off heq hne
  omega

theorem mSplit_spec (junk : Nat → Byte) {h : Heap} {m : Mbuf} {off : Nat} (hro : readonly h m = true) (hlt : off < m.len) (rest : List Mbuf) :
    ∃ n, mSplitInternal ⟨true, true⟩ junk h (m :: rest) off = some (addReference h m, [{m with len := off}], n :: rest) ∧
      n.ref = m.ref ∧ n.len = m.len - off ∧ bytes h {m with len := off} ++ bytes h n = bytes h m := by
  rw [mSplitInternal, if_neg (by omega), if_neg (by omega)]
  cases hstore : m.store with
  | dat buf =>
    rw [readonly, hstore] at hro
    cases hro
  | ext x romap rw =>
    refine ⟨_, rfl, ?_, rfl, ?_⟩
    · rw [Mbuf.ref, Mbuf.ref, hstore]
    have hbuf : buffer h m = (h.ext x).buf := by rw [buffer, hstore]
    show slice (h.ext x).buf m.data off ++ slice (h.ext x).buf (m.data + off) (m.len - off) = slice (buffer h m) m.data m.len
    rw [hbuf, ← slice_add, add_sub_of_le (le_of_lt hlt)]

theorem Inv.reform (hinv : Inv T c) (hcow : T.f.cow = true) {c' : Cursor} (hheld : Held c'.heap T.out c'.chain) (hpos : c'.pos = c.pos)
    (hlen : c'.len = c.len) (hcp : c'.cp = c.cp) (htotlen : c'.totlen = c.totlen) (hpre : mLength c.pre ≤ mLength c'.pre)
    (hsize : mLength c'.chain = mLength c.chain)
    (hagrees : Agrees (chainBytes c'.heap c'.chain) T.form (if T.f.copyback then c.pos else T.hi) T.hi)
    (hhdr : hdrOf c'.chain = hdrOf c.chain) (hdone : Clear c'.heap T.lo T.hi 0 c'.pre)
    (hshared : ∀ x, 0 < T.out x → (c'.heap.ext x).buf = (c.heap.ext x).buf) : Inv T c' where
  held := hheld
  begun := hpos.symm ▸ hinv.begun
  total := by rw [hpos, hlen, hinv.total]
  agrees := by
    rw [hpos]
    exact hagrees
  source := by
    rw [hpos, hlen, hcp]
    exact hinv.source
  size := hsize.symm ▸ hinv.size
  totlen := by
    rw [htotlen]
    refine ⟨le_trans hinv.totlen.1 hpre, fun h => ?_⟩
    rw [hcow] at h
    cases h
  hdr := hhdr.trans hinv.hdr
  done := hdone
  todo := by
    intro h
    rw [hcow] at h
    cases h
  shared := fun x hx => (hshared x hx).trans (hinv.shared x hx)

theorem split_good (hgood : Good T (.copy c)) (hcow : T.f.cow = true) (hsome : 0 < c.len) (hro : readonly c.heap c.m = true) (hoff : 0 < c.off)
    (hlt : c.off < c.m.len) (href : n.ref = c.m.ref) (hnlen : n.len = c.m.len - c.off)
    (hbytes : bytes c.heap {c.m with len := c.off} ++ bytes c.heap n = bytes c.heap c.m) {c' : Cursor}
    (hc' : c' = {c with heap := addReference c.heap c.m, pre := c.pre ++ [{c.m with len := c.off}], m := n, off := 0}) :
    Good T (.copy c') ∧ measure T (.copy c') < measure T (.copy c) := by
  obtain ⟨hinv, hleft, hle, hpos⟩ := hgood
  obtain ⟨hheld, hkeeps, hbuf⟩ := hinv.held.addReference hro href (show {c.m with len := c.off}.ref = c.m.ref from rfl)
  have hstart : c.pos = T.lo := (hpos hcow).resolve_left (ne_of_gt hoff)
  have hchain : c'.chain = c.pre ++ {c.m with len := c.off} :: n :: c.rest := by
    rw [hc', Cursor.chain, append_assoc]
    rfl
  have hpre : mLength (c.pre ++ [{c.m with len := c.off}]) = mLength c.pre + c.off := mLength_append
  have hsize : mLength c'.chain = mLength c.chain := by
    rw [hchain, c.mLength_chain, mLength_append, mLength_cons, mLength_cons, hnlen]
    dsimp only
    omega
  have hall : chainBytes (addReference c.heap c.m) c'.chain = chainBytes c.heap c.chain := by
    rw [hchain, chainBytes_congr fun y _ => hbuf y, chainBytes_append, chainBytes_cons, chainBytes_cons, Cursor.chain, chainBytes_append,
      chainBytes_cons, ← hbytes, append_assoc]
  have hpos' : c'.pos = c.pos := by
    rw [hc']
    exact hpre
  have hlen : c'.len = c.len := by rw [hc']
  have hzero : c'.off = 0 := by rw [hc']
  have hlo : mLength c.pre + c.off = T.lo := hstart
  have hclear : Clear (addReference c.heap c.m) T.lo T.hi 0 (c.pre ++ [{c.m with len := c.off}]) := by
    refine clear_append.mpr ⟨hinv.done.mono fun y hy => hkeeps.left.writable y hy, clear_singleton.mpr fun hin => ?_⟩
    dsimp only at hin
    omega
  refine ⟨⟨?_, ⟨?_, fun heq hne => ?_⟩, ?_, fun _ => .inl hzero⟩, ?_⟩
  · refine hinv.reform hcow ?_ hpos' hlen (by rw [hc']) (by rw [hc']) ?_ hsize ?_ ?_ ?_ ?_
    · rw [hchain, hc']
      exact hheld
    · rw [hc']
      exact hpre.symm ▸ Nat.le_add_right _ c.off
    · rw [hc'] at hall ⊢
      rw [hall]
      exact hinv.agrees
    · rw [hchain]
      exact hdrOf_mid rfl
    · rw [hc']
      exact hclear
    · rw [hc']
      exact hkeeps.shared
  · rw [hlen]
    exact hleft.len
  · have htotal := hinv.total
    omega
  · rw [hzero]
    exact zero_le _
  · have hsteps := (steps_le c').2 hzero
    have hbefore : steps c = 3 := by rw [steps, if_neg (by omega), if_pos hro, if_pos hoff]
    rw [measure, measure, hlen]
    have hrest : c'.rest = c.rest := by rw [hc']
    rw [hrest]
    omega

/-- What is left when mbufs are eaten. -/
structure Eaten (h : Heap) (out : Nat → Nat) (a chain : List Mbuf) (eatlen : Nat) (r : Heap × List Mbuf × Nat × List Byte) : Prop where
  held : Held r.1 out (a ++ r.2.1)
  keeps : ∀ chain, Keeps h r.1 out chain
  bytes : chainBytes h chain = r.2.2.2 ++ chainBytes r.1 r.2.1
  length : r.2.2.2.length + r.2.2.1 = eatlen
  rest : r.2.1.length ≤ chain.length

theorem eat_eaten {out : Nat → Nat} {a : List Mbuf} (type : Nat) (h : Heap) (chain : List Mbuf) (eatlen : Nat) (hheld : Held h out (a ++ chain)) :
    Eaten h out a chain eatlen (eat type h chain eatlen) := by
  induction chain generalizing h eatlen with
  | nil => exact ⟨hheld, fun _ => Keeps.refl _ _ _, rfl, zero_add _, le_refl _⟩
  | cons m rest ih =>
    rw [eat]
    split
    · dsimp only
      have href : ({m with data := m.data + min eatlen m.len, len := m.len - min eatlen m.len} : Mbuf).ref = m.ref := rfl
      split
      -- All of the mbuf is eaten, and it is freed.
      · next hzero =>
        generalize ({m with data := m.data + min eatlen m.len, len := m.len - min eatlen m.len} : Mbuf) = m' at href ⊢
        have hall : min eatlen m.len = m.len := by omega
        obtain ⟨hheld', hkeeps, hbytes, hlength, hrest⟩ := ih (mFree h m') (eatlen - min eatlen m.len) (hheld.replace href).mFree
        refine ⟨hheld', fun _ => (mFree_keeps h m' out _).trans (hkeeps _), ?_, ?_, le_succ_of_le hrest⟩
        · rw [chainBytes_cons, ← (mFree_keeps h m' out rest).chainBytes, hbytes, hall, take_of_length_le (le_of_eq (length_bytes h m)),
            append_assoc]
        rw [hall] at hlength ⊢
        rw [length_append, length_take, length_bytes, Nat.min_self, add_assoc]
        exact (congrArg (m.len + ·) hlength).trans (add_sub_of_le (by omega))
      · next hne =>
        have hall : min eatlen m.len = eatlen := by omega
        refine ⟨hheld.replace href, fun _ => Keeps.refl _ _ _, ?_, ?_, le_refl _⟩
        · rw [hall, chainBytes_cons, chainBytes_cons, ← append_assoc]
          congr 1
          show bytes h m = (bytes h m).take eatlen ++ slice (buffer h m) (m.data + eatlen) (m.len - eatlen)
          rw [bytes, take_slice (by omega), ← slice_add, add_sub_of_le (by omega)]
        · dsimp only
          rw [length_take, length_bytes]
          omega
    · exact ⟨hheld, fun _ => Keeps.refl _ _ _, rfl, zero_add _, le_refl _⟩

theorem eat_pos {type : Nat} {h : Heap} {m : Mbuf} {eatlen : Nat} (rest : List Mbuf) (hro : readonly h m = true) (htype : type = m.type)
    (heat : 0 < eatlen) (hlen : 0 < m.len) : 0 < (eat type h (m :: rest) eatlen).2.2.2.length := by
  rw [eat, if_pos ⟨hro, htype, heat⟩]
  dsimp only
  split
  · rw [length_append, length_take, length_bytes]
    omega
  · rw [length_take, length_bytes]
    omega

/-- The new mbuf is writable and not empty; the old one has its data still. -/
structure Fronted (h : Heap) (out : Nat → Nat) (a : List Mbuf) (m : Mbuf) (rest : List Mbuf) (r : Heap × Mbuf × Mbuf) : Prop where
  held : Held r.1 out (a ++ r.2.1 :: r.2.2 :: rest)
  keeps : Keeps h r.1 out (a ++ m :: rest)
  new : readonly r.1 r.2.1 = false ∧ 0 < r.2.1.len ∧ r.2.1.pkthdr = m.pkthdr ∧ r.2.1.type = r.2.2.type
  old : readonly r.1 r.2.2 = readonly h m ∧ r.2.2.len = m.len ∧ bytes r.1 r.2.2 = bytes h m

theorem newFront_fronted {out : Nat → Nat} (mem : Mem) (junk : Nat → Byte) (hheld : Held c.heap out c.chain) : Fronted c.heap out c.pre c.m c.rest (newFront mem junk c) := by
  unfold newFront
  have hnew : Held c.heap out (c.pre ++ mGet junk c.m.type :: (c.m :: c.rest)) := hheld.insert rfl
  split
  · next hhdr =>
    refine ⟨?_, Keeps.refl _ _ _, ⟨rfl, zero_lt_succ 399, rfl, rfl⟩, rfl, rfl, rfl⟩
    refine hheld.congr fun x => ?_
    rw [uses_append, uses_cons, uses_cons, Cursor.chain, uses_append, uses_cons]
    congr 1
  · next hhdr =>
    have hcl := hnew.mayClget (decide (c.len ≥ MINCLSIZE) && mem.cluster) (fun _ => ⟨rfl, rfl⟩) junk
    have hext := fun x => @mayClget_ext x c.heap (mGet junk c.m.type) (decide (c.len ≥ MINCLSIZE) && mem.cluster) junk
    have hmem : c.m ∈ c.chain := mem_append_right _ mem_cons_self
    refine ⟨hcl.held.replace rfl, hcl.keeps, ⟨hcl.readonly rfl, ?_, ?_, hcl.type⟩, ?_, rfl, ?_⟩
    · dsimp only
      split <;> decide
    · rw [show c.m.pkthdr = none from Option.not_isSome_iff_eq_none.mp hhdr]
      exact hcl.pkthdr
    · exact readonly_eq fun x hx => hext x (hheld.valid c.m hmem x hx)
    · exact bytes_congr (hcl.keeps.buffer c.m (mem_append_right _ mem_cons_self))

theorem overwritten_good (junk : Nat → Byte) (hgood : Good T (.copy c)) (hcow : T.f.cow = true) (hsome : 0 < c.len) (hro : readonly c.heap c.m = true)
    (hoff : c.off = 0) (hlt : 0 < c.m.len) : ∃ c', overwritten T.f ⟨true, true⟩ junk c = .copy c' ∧ Good T (.copy c') ∧
      measure T (.copy c') < measure T (.copy c) := by
  obtain ⟨hinv, hleft, -, -⟩ := hgood
  have hf := newFront_fronted ⟨true, true⟩ junk hinv.held
  unfold overwritten
  rw [if_neg (by simp)]
  dsimp only
  generalize newFront ⟨true, true⟩ junk c = r at hf ⊢
  obtain ⟨h₁, n₁, m₁⟩ := r
  obtain ⟨hheld₁, hkeeps₁, ⟨hnro, hnlen, hnhdr, hntype⟩, hmro, hmlen, hmbytes⟩ := hf
  dsimp only at hheld₁ hkeeps₁ hnro hnlen hnhdr hntype hmro hmlen hmbytes ⊢
  generalize hk : min n₁.len c.len = k
  have hheld₁' : Held h₁ T.out ((c.pre ++ [{n₁ with len := k}]) ++ m₁ :: c.rest) := by
    rw [append_assoc]
    exact hheld₁.replace rfl
  have heat := eat_eaten n₁.type h₁ (m₁ :: c.rest) k hheld₁'
  have hsomeEaten := eat_pos c.rest (hmro.trans hro) hntype (show 0 < k by omega) (show 0 < m₁.len by omega)
  generalize eat n₁.type h₁ (m₁ :: c.rest) k = r at heat hsomeEaten ⊢
  obtain ⟨h₂, rest, eatlen, data⟩ := r
  obtain ⟨hheld₂, hkeeps₂, hbytes, hlength, hrest⟩ := heat
  dsimp only at hheld₂ hkeeps₂ hbytes hlength hrest hsomeEaten ⊢
  rw [append_assoc] at hheld₂
  have hheld₂' : Held h₂ T.out (c.pre ++ {n₁ with len := k} :: rest) := hheld₂
  have hnro₂ : readonly h₂ {n₁ with len := k} = false := (hkeeps₂ [{n₁ with len := k}]).writable _ mem_cons_self hnro
  have hw := hheld₂'.mayWrite (i := 0) (l := data) (.inl hnro₂) T.f.preserve
  generalize (if T.f.preserve = true then write h₂ {n₁ with len := k} 0 data else (h₂, {n₁ with len := k})) = r at hw ⊢
  obtain ⟨h₃, n₃⟩ := r
  dsimp only at hw ⊢
  have hlen : n₃.len - eatlen = data.length := by
    rw [hw.len]
    dsimp only
    omega
  rw [hlen]
  have hpre : chainBytes h₃ c.pre = chainBytes c.heap c.pre := by
    rw [hw.keeps.left.chainBytes, (hkeeps₂ c.pre).chainBytes, hkeeps₁.left.chainBytes]
  have hold : chainBytes c.heap c.chain = chainBytes c.heap c.pre ++ data ++ chainBytes h₂ rest := by
    rw [Cursor.chain, chainBytes_append, append_assoc, ← hbytes, chainBytes_cons, chainBytes_cons, hmbytes,
      (hkeeps₁.right.subset fun y => mem_cons_of_mem c.m).chainBytes]
  have hnew : chainBytes h₃ (c.pre ++ {n₃ with len := data.length} :: rest) =
      chainBytes c.heap c.pre ++ bytes h₃ {n₃ with len := data.length} ++ chainBytes h₂ rest := by
    rw [chainBytes_append, chainBytes_cons, hpre, hw.keeps.right.chainBytes, append_assoc]
  have hsize : mLength (c.pre ++ {n₃ with len := data.length} :: rest) = mLength c.chain := by
    rw [← length_chainBytes h₃, hnew, ← length_chainBytes c.heap, hold, length_append, length_append, length_append,
      length_append, length_bytes]
  have hwritable : ∀ y ∈ c.pre, readonly c.heap y = false → readonly h₃ y = false := fun y hy hyw =>
    hw.keeps.left.writable y hy ((hkeeps₂ c.pre).writable y hy (hkeeps₁.left.writable y hy hyw))
  have htotal := hinv.total
  rw [Cursor.pos, hoff, add_zero] at htotal
  refine ⟨_, rfl, ⟨?_, ⟨hleft.len, hleft.off⟩, ?_, fun _ => .inl hoff⟩, ?_⟩
  · refine hinv.reform hcow (hw.held.replace rfl) rfl rfl rfl rfl (le_refl _) hsize ?_ ?_ (hinv.done.mono hwritable) fun x hx => ?_
    · have hagrees := hinv.agrees
      rw [hold] at hagrees
      show Agrees (chainBytes h₃ (c.pre ++ {n₃ with len := data.length} :: rest)) _ _ _
      rw [hnew]
      cases hcb : T.f.copyback with
      | true =>
        rw [hcb, if_pos rfl, Cursor.pos, hoff, add_zero] at hagrees
        rw [if_pos rfl, Cursor.pos, hoff, add_zero]
        refine hagrees.splice (length_bytes _ _) ?_ ?_
        · rw [length_chainBytes]
        · rw [length_chainBytes]
          omega
      | false =>
        have hpreserve : T.f.preserve = true := by rw [T.preserve_eq, hcb]; rfl
        have hsame : bytes h₃ {n₃ with len := data.length} = data := by
          show slice (buffer h₃ n₃) n₃.data data.length = data
          rw [hw.buffer, if_pos hpreserve, hw.data, add_zero, slice_poke]
        rw [hsame]
        rw [hcb] at hagrees
        exact hagrees
    · exact hdrOf_mid (hw.pkthdr.trans hnhdr)
    · exact (hw.keeps.shared x hx).trans (((hkeeps₂ []).shared x hx).trans (hkeeps₁.shared x hx))
  · rw [hoff]
    exact zero_le _
  · have hbefore : steps c = 2 := by rw [steps, if_neg (by omega), if_pos hro, if_neg (by omega)]
    have hafter : steps {c with heap := h₃, m := {n₃ with len := data.length}, rest := rest} = 0 := by
      rw [steps, if_neg (by dsimp only; omega), if_neg]
      rw [show readonly h₃ {n₃ with len := data.length} = readonly h₃ n₃ from rfl, hw.readonly, hnro₂]
      exact Bool.false_ne_true
    rw [measure, measure, hbefore]
    dsimp only [Cursor.chain]
    rw [hsize, Cursor.chain]
    rw [length_cons] at hrest
    omega

/-- The cursor behind what was written. -/
def Cursor.written (c : Cursor) (f : Flags) : Cursor :=
  let mlen := min (c.m.len - c.off) c.len
  let r := if f.copyback then write c.heap c.m c.off (c.cp.take mlen) else (c.heap, c.m)
  {c with heap := r.1, m := r.2, cp := c.cp.drop mlen, len := c.len - mlen, off := c.off + mlen}

/-- What there is of the mbuf is written, and it is not read-only if that is something. -/
theorem written_inv (hinv : Inv T c) (hle : c.off ≤ c.m.len) (hok : c.m.len - c.off = 0 ∨ readonly c.heap c.m = false) :
    Inv T (c.written T.f) ∧ (c.written T.f).m.len = c.m.len ∧ mLength (c.written T.f).chain = mLength c.chain ∧
      (readonly c.heap c.m = false → readonly (c.written T.f).heap (c.written T.f).m = false) := by
  unfold Cursor.written
  dsimp only
  generalize hmlen : min (c.m.len - c.off) c.len = mlen
  have hw := hinv.held.mayWrite (i := c.off) (l := c.cp.take mlen) (by
    refine hok.symm.imp_right fun hzero => ?_
    rw [show mlen = 0 by omega, take_zero]) T.f.copyback
  generalize (if T.f.copyback = true then write c.heap c.m c.off (List.take mlen c.cp) else (c.heap, c.m)) = r at hw ⊢
  obtain ⟨h, m⟩ := r
  dsimp only at hw ⊢
  have hpre : chainBytes h c.pre = chainBytes c.heap c.pre := hw.keeps.left.chainBytes
  have hrest : chainBytes h c.rest = chainBytes c.heap c.rest := hw.keeps.right.chainBytes
  have hold : chainBytes c.heap c.chain = (chainBytes c.heap c.pre ++ slice (buffer c.heap c.m) c.m.data c.off) ++
      slice (buffer c.heap c.m) (c.m.data + c.off) mlen ++
      (slice (buffer c.heap c.m) (c.m.data + c.off + mlen) (c.m.len - (c.off + mlen)) ++ chainBytes c.heap c.rest) := by
    have hm : c.m.len = c.off + mlen + (c.m.len - (c.off + mlen)) := by omega
    rw [Cursor.chain, chainBytes_append, chainBytes_cons, bytes]
    conv_lhs => rw [hm, slice_add, slice_add]
    simp only [append_assoc, add_assoc]
  have hsource : T.f.copyback = true → (c.cp.take mlen).length = mlen := by
    intro hcb
    rw [length_take, (hinv.source hcb).1]
    omega
  have hnew : chainBytes h (c.pre ++ m :: c.rest) = (chainBytes c.heap c.pre ++ slice (buffer c.heap c.m) c.m.data c.off) ++
      (if T.f.copyback then c.cp.take mlen else slice (buffer c.heap c.m) (c.m.data + c.off) mlen) ++
      (slice (buffer c.heap c.m) (c.m.data + c.off + mlen) (c.m.len - (c.off + mlen)) ++ chainBytes c.heap c.rest) := by
    cases hcb : T.f.copyback with
    | true =>
      have htake := hsource hcb
      rw [if_pos rfl, chainBytes_append, chainBytes_cons, hpre, hrest, bytes, hw.buffer, hcb, if_pos rfl, hw.data, hw.len,
        slice_poke_mid (by omega), htake]
      simp only [append_assoc]
    | false =>
      rw [if_neg Bool.false_ne_true, ← hold, Cursor.chain, chainBytes_append, chainBytes_append, chainBytes_cons, chainBytes_cons, hpre, hrest,
        bytes, hw.buffer, hcb, if_neg Bool.false_ne_true, hw.data, hw.len, bytes]
  have hsize : mLength (c.pre ++ m :: c.rest) = mLength c.chain := by
    rw [mLength_append, mLength_cons, hw.len, c.mLength_chain]
  have htotal := hinv.total
  have hro : readonly h m = readonly c.heap c.m := hw.readonly
  have hpos : mLength c.pre + (c.off + mlen) = c.pos + mlen := (add_assoc _ _ _).symm
  refine ⟨⟨hw.held, ?_, ?_, ?_, fun hcb => ?_, ?_, hinv.totlen, ?_, ?_, fun hcow => ?_, fun x hx => ?_⟩, hw.len, hsize, hro.trans⟩
  · show T.lo ≤ mLength c.pre + (c.off + mlen)
    rw [hpos]
    exact le_trans hinv.begun (Nat.le_add_right _ _)
  · rw [Cursor.pos] at htotal ⊢
    dsimp only
    omega
  · have hagrees := hinv.agrees
    rw [hold] at hagrees
    show Agrees (chainBytes h (c.pre ++ m :: c.rest)) _ _ _
    rw [hnew]
    have hfront : (chainBytes c.heap c.pre ++ slice (buffer c.heap c.m) c.m.data c.off).length = c.pos := by
      rw [length_append, length_chainBytes, length_slice, Cursor.pos]
    cases hcb : T.f.copyback with
    | true =>
      rw [hcb, if_pos rfl, ← hfront] at hagrees
      have hwrite := hagrees.write (y := c.cp.take mlen) ?_ ?_
      · rw [hfront, hsource hcb, ← hpos] at hwrite
        rw [if_pos rfl, if_pos rfl]
        exact hwrite
      · rw [hsource hcb, length_slice]
      intro i hi
      rw [hsource hcb] at hi
      rw [getElem?_take_of_lt hi, hfront]
      exact (hinv.source hcb).2 i (by omega)
    | false =>
      rw [hcb] at hagrees
      exact hagrees
  · obtain ⟨hlength, hbytes⟩ := hinv.source hcb
    refine ⟨?_, fun i hi => ?_⟩
    · rw [length_drop, hlength]
    dsimp only at hi ⊢
    rw [getElem?_drop, hbytes (mlen + i) (by omega)]
    congr 2
    show mLength c.pre + c.off + (mlen + i) = mLength c.pre + (c.off + mlen) + i
    omega
  · rw [Cursor.chain]
    rw [hsize]
    exact hinv.size
  · rw [← hinv.hdr]
    exact hdrOf_mid hw.pkthdr
  · exact hinv.done.mono fun y hy => hw.keeps.left.writable y hy
  · obtain ⟨hm, hbehind⟩ := hinv.todo hcow
    refine ⟨fun hin => ?_, ?_⟩
    · rw [hw.len] at hin
      exact hro.trans (hm hin)
    · rw [hw.len]
      exact hbehind.mono fun y hy => hw.keeps.right.writable y hy
  · exact (hw.keeps.shared x hx).trans (hinv.shared x hx)

theorem copyRound_write (hsome : 0 < c.len) (hle : c.off ≤ c.m.len) (hok : c.m.len - c.off = 0 ∨ readonly c.heap c.m = false)
    (hmlen : (c.written T.f).m.len = c.m.len) :
    copyRound T.f mem junk c =
      if (c.written T.f).len = 0 then some (.out {c.written T.f with off := 0, totlen := c.totlen + (c.written T.f).off})
      else
        match c.rest with
        | [] =>
          some (extend T.f mem junk {c.written T.f with
            off := (c.written T.f).off - (c.written T.f).m.len, totlen := c.totlen + (c.written T.f).m.len})
        | n :: rest =>
          some (.copy {c.written T.f with
            pre := c.pre ++ [(c.written T.f).m], m := n, rest := rest, off := (c.written T.f).off - (c.written T.f).m.len,
            totlen := c.totlen + (c.written T.f).m.len}) := by
  have hcond : ¬(c.m.len - c.off ≠ 0 ∧ readonly c.heap c.m = true) := by
    rintro ⟨hne, hro⟩
    obtain hzero | hw := hok
    · exact hne hzero
    · rw [hw] at hro
      cases hro
  have htotlen : c.totlen + (min (c.m.len - c.off) c.len + c.off) = c.totlen + (c.written T.f).off := by
    rw [add_comm (min _ _)]
    rfl
  unfold copyRound
  rw [if_neg (ne_of_gt hsome), if_neg hcond]
  dsimp only
  rw [htotlen]
  by_cases hlen : c.len - min (c.m.len - c.off) c.len = 0
  · rw [if_pos hlen, if_pos (show (c.written T.f).len = 0 from hlen)]
    rfl
  have hall : (c.written T.f).off = (c.written T.f).m.len := by
    omega
  rw [if_neg hlen, if_neg (show ¬(c.written T.f).len = 0 from hlen), hall, Nat.sub_self]
  rfl

theorem write_good (hgood : Good T (.copy c)) (hsome : 0 < c.len) (hok : c.m.len - c.off = 0 ∨ readonly c.heap c.m = false) :
    ∃ next, copyRound T.f ⟨true, true⟩ junk c = some next ∧ Good T next ∧ measure T next < measure T (.copy c) := by
  obtain ⟨hinv, hleft, hle, hpos⟩ := hgood
  obtain ⟨hinv', hmlen, hsize, hro⟩ := written_inv hinv hle hok
  have htotal := hinv.total
  have hbegun := hinv.begun
  have hchain := c.mLength_chain
  rw [Cursor.pos] at htotal hbegun hpos
  have hrange : T.lo < T.hi := by omega
  have hoff : (c.written T.f).off = c.off + min (c.m.len - c.off) c.len := rfl
  have hlen : (c.written T.f).len = c.len - min (c.m.len - c.off) c.len := rfl
  have hleft' : ¬(c.written T.f).len = 0 → Left T (c.written T.f) := fun hne => ⟨fun _ => Nat.pos_of_ne_zero hne, fun heq => by omega⟩
  -- The mbuf is writable, or has nothing behind the start of the range.
  have hclear : Clear (c.written T.f).heap T.lo T.hi (mLength c.pre) [(c.written T.f).m] := by
    refine clear_singleton.mpr fun hin => ?_
    rw [hmlen] at hin
    obtain hzero | hw := hok
    · cases hcow : T.f.cow with
      | true =>
        have hstart := hpos hcow
        omega
      | false => exact (hinv'.todo hcow).1 (by rwa [hmlen])
    · exact hro hw
  rw [copyRound_write hsome hle hok hmlen]
  by_cases hzero : (c.written T.f).len = 0
  · rw [if_pos hzero]
    refine ⟨_, rfl, ?_, succ_pos _⟩
    have hagrees := hinv'.agrees
    have hsize' := hinv'.size
    have hdone : (c.written T.f).pos = T.hi := by
      have htotal' := hinv'.total
      rwa [hzero, add_zero] at htotal'
    rw [hdone, ite_self] at hagrees
    have hend : mLength c.pre + (c.written T.f).off = T.hi := hdone
    have htotlen := hinv.totlen
    refine ⟨hinv'.held, hagrees, ?_, ?_, fun hcow _ => ?_, fun _ heq => by omega, hinv'.hdr, ?_, hinv'.shared⟩
    · show mLength (c.written T.f).chain = _
      rw [hsize] at hsize' ⊢
      omega
    · show c.totlen + (c.written T.f).off ≤ T.hi
      omega
    · show c.totlen + (c.written T.f).off = T.hi
      rw [htotlen.2 hcow, hend]
    refine clear_append.mpr ⟨hinv'.done, ?_⟩
    rw [zero_add]
    refine ⟨hclear.1, clear_of_behind ?_⟩
    show T.hi ≤ mLength c.pre + (c.written T.f).m.len
    omega
  rw [if_neg hzero]
  have hall : c.off + min (c.m.len - c.off) c.len = c.m.len := by omega
  have hfull : (c.written T.f).m.len ≤ (c.written T.f).off := by rw [hmlen, hoff, hall]
  cases hrest : c.rest with
  | nil =>
    rw [hrest] at hchain
    have hlt : mLength (c.written T.f).chain < T.hi := by
      rw [hsize, hchain]
      show mLength c.pre + (c.m.len + 0) < T.hi
      omega
    obtain ⟨c', hext, hgood, hrest', hlen', hlonger⟩ := extend_spec junk hinv' (hleft' hzero) hrest hfull hlt fun hlt => by omega
    refine ⟨_, congrArg some hext, hgood, ?_⟩
    rw [measure, measure, hrest', hlen', hrest]
    rw [hsize] at hlt hlonger
    show 8 * (T.hi - mLength c'.chain) + 2 * (c.written T.f).len + 0 + 5 < 8 * (T.hi - mLength c.chain) + 2 * c.len + 0 + steps c + 1
    omega
  | cons n rest =>
    have hnext := hinv'.advance hrest hfull hclear
    have hoff' : (c.written T.f).off - (c.written T.f).m.len = 0 := by omega
    refine ⟨_, rfl, ⟨hnext, ⟨(hleft' hzero).len, fun heq => by omega⟩, ?_, fun _ => .inl hoff'⟩, ?_⟩
    · dsimp only
      rw [hoff']
      exact zero_le _
    generalize hc' : ({c.written T.f with
      pre := c.pre ++ [(c.written T.f).m], m := n, rest := rest, off := (c.written T.f).off - (c.written T.f).m.len,
      totlen := c.totlen + (c.written T.f).m.len} : Cursor) = c'
    have hsteps := (steps_le c').2 (by rw [← hc']; exact hoff')
    have hsame : mLength c'.chain = mLength c.chain := by
      rw [← hsize, Cursor.chain_cons (c := c.written T.f) hrest, ← hc']
      rfl
    have hlen' : c'.len = (c.written T.f).len := by rw [← hc']
    have hrest' : c'.rest = rest := by rw [← hc']
    rw [measure, measure, hrest', hrest, length_cons]
    have hbefore : c.m.len - c.off = 0 → steps c = 2 := fun h => by rw [steps, if_pos h]
    omega

theorem copyRound_good (junk : Nat → Byte) (hgood : Good T (.copy c)) : ∃ next, copyRound T.f ⟨true, true⟩ junk c = some next ∧ Good T next ∧
    measure T next < measure T (.copy c) := by
  have hgood' := hgood
  obtain ⟨hinv, hleft, hle, hpos⟩ := hgood'
  by_cases hlen : c.len = 0
  · exact ⟨.out c, by rw [copyRound, if_pos hlen], hinv.out hleft hle hlen, succ_pos _⟩
  have hsome := Nat.pos_of_ne_zero hlen
  by_cases hro : c.m.len - c.off ≠ 0 ∧ readonly c.heap c.m = true
  · obtain ⟨hne, hro⟩ := hro
    have htotal := hinv.total
    have hbegun := hinv.begun
    rw [Cursor.pos] at htotal hbegun
    have hcow : T.f.cow = true := by
      by_contra hcow
      have htodo := (hinv.todo (by rwa [Bool.not_eq_true] at hcow)).1 (by omega)
      rw [hro] at htodo
      cases htodo
    unfold copyRound
    rw [if_neg hlen, if_pos ⟨hne, hro⟩, if_neg (by rw [hcow]; decide)]
    by_cases hoff : c.off > 0
    · rw [if_pos hoff]
      have hlt : c.off < c.m.len := by omega
      obtain ⟨n, hsplit, href, hnlen, hbytes⟩ := mSplit_spec junk hro hlt c.rest
      obtain ⟨hgood, hless⟩ := split_good hgood hcow hsome hro hoff hlt href hnlen hbytes rfl
      rw [hsplit]
      exact ⟨_, rfl, hgood, hless⟩
    · rw [if_neg hoff]
      obtain ⟨c', hrun, hgood, hless⟩ := overwritten_good junk hgood hcow hsome hro (by omega) (by omega)
      exact ⟨_, congrArg some hrun, hgood, hless⟩
  · refine write_good hgood hsome ?_
    by_cases hzero : c.m.len - c.off = 0
    · exact .inl hzero
    · rw [not_and, Bool.not_eq_true] at hro
      exact .inr (hro hzero)

theorem rounds_done {mem : Nat → Mem} (junk : Nat → Nat → Byte) (hmem : ∀ i, mem i = ⟨true, true⟩) (fuel : Nat) (next : Next)
    (hgood : Good T next) (hfuel : measure T next < fuel) :
    ∃ c, Done T c ∧ rounds T.f mem junk fuel next = (finish T.f c).map fun chain => ⟨false, c.heap, chain⟩ := by
  induction fuel generalizing next with
  | zero => exact absurd hfuel (Nat.not_lt_zero _)
  | succ fuel ih =>
    cases next with
    | seek c =>
      obtain ⟨hgood', hless⟩ := seekRound_good (junk fuel) hgood
      rw [rounds, hmem]
      exact ih _ hgood' (by omega)
    | copy c =>
      obtain ⟨next, hround, hgood', hless⟩ := copyRound_good (junk fuel) hgood
      rw [rounds, hmem, hround]
      exact ih _ hgood' (by omega)
    | out c => exact ⟨c, hgood, rfl⟩
    | enobufs c => exact hgood.elim

end Rounds

end NetBSD.Kern.UipcMbuf
