import NetBSD.Kern.UipcMbuf.Held

/-! What the rounds of `m_copyback_internal` keep, and those of the first loop.

A `Task` says what the bytes are to be (`form`). All along they are that but for the rest of the range, which begins where the
cursor is (`Inv`). A round makes `measure` smaller. -/
namespace NetBSD.Kern.UipcMbuf
open List
open Lib

/-! ### Ranges without read-only mbufs -/

/-- No mbuf with bytes from `lo` up to `hi` is read-only; the first begins at `base`. -/
def Clear (h : Heap) (lo hi : Nat) : Nat → List Mbuf → Prop
  | _, [] => True
  | base, m :: rest => (max lo base < min hi (base + m.len) → readonly h m = false) ∧ Clear h lo hi (base + m.len) rest

section
variable {h h' : Heap} {lo hi base : Nat} {m m' : Mbuf} {a b b' chain : List Mbuf}

theorem clear_append : Clear h lo hi base (a ++ b) ↔ Clear h lo hi base a ∧ Clear h lo hi (base + mLength a) b := by
  induction a generalizing base with
  | nil => exact iff_of_eq (true_and _).symm
  | cons m a ih => rw [cons_append, Clear, Clear, ih, mLength_cons, add_assoc, and_assoc]

theorem Clear.mono (hc : Clear h lo hi base chain) (hw : ∀ y ∈ chain, readonly h y = false → readonly h' y = false) :
    Clear h' lo hi base chain := by
  induction chain generalizing base with
  | nil => trivial
  | cons m chain ih =>
    exact ⟨fun hin => hw m mem_cons_self (hc.1 hin), ih hc.2 fun y hy => hw y (mem_cons_of_mem _ hy)⟩

theorem clear_of_behind (hle : hi ≤ base) : Clear h lo hi base chain := by
  induction chain generalizing base with
  | nil => trivial
  | cons m chain ih => exact ⟨fun hin => by omega, ih (by omega)⟩

theorem clear_of_empty (hle : hi ≤ lo) : Clear h lo hi base chain := by
  induction chain generalizing base with
  | nil => trivial
  | cons m chain ih => exact ⟨fun hin => by omega, ih⟩

theorem clear_singleton : Clear h lo hi base [m] ↔ (max lo base < min hi (base + m.len) → readonly h m = false) :=
  iff_of_eq (and_true _)

/-- The header of the first mbuf. -/
def hdrOf (chain : List Mbuf) : Option Nat := chain.head?.bind Mbuf.pkthdr

theorem hdrOf_mid (hp : m'.pkthdr = m.pkthdr) : hdrOf (a ++ m' :: b') = hdrOf (a ++ m :: b) := by
  cases a with
  | nil => exact hp
  | cons y a => rfl

end

/-! ### Tasks -/

/-- The bytes of a chain with `size` of them, and those up to `hi`, are to be as `form` says; the range begins at `lo`. -/
structure Task where
  f : Flags
  form : Nat → Byte
  out : Nat → Nat
  heap : Heap
  lo : Nat
  hi : Nat
  size : Nat
  hdr : Option Nat
  extend_eq : f.extend = !f.cow
  preserve_eq : f.preserve = !f.copyback
  copies : f.cow = false → f.copyback = true
  inside : f.cow = true → hi ≤ size
  zero : f.cow = false → ∀ i, size ≤ i → i < lo → form i = 0

def Cursor.chain (c : Cursor) : List Mbuf := c.pre ++ c.m :: c.rest

def Cursor.pos (c : Cursor) : Nat := mLength c.pre + c.off

structure Inv (T : Task) (c : Cursor) : Prop where
  held : Held c.heap T.out c.chain
  begun : T.lo ≤ c.pos
  total : c.pos + c.len = T.hi
  agrees : Agrees (chainBytes c.heap c.chain) T.form (if T.f.copyback then c.pos else T.hi) T.hi
  source : T.f.copyback = true → c.cp.length = c.len ∧ ∀ i < c.len, c.cp[i]? = some (T.form (c.pos + i))
  size : T.size ≤ mLength c.chain ∧ mLength c.chain ≤ max T.size T.hi
  totlen : c.totlen ≤ mLength c.pre ∧ (T.f.cow = false → c.totlen = mLength c.pre)
  hdr : hdrOf c.chain = T.hdr
  done : Clear c.heap T.lo T.hi 0 c.pre
  todo : T.f.cow = false → Clear c.heap T.lo T.hi (mLength c.pre) (c.m :: c.rest)
  shared : ∀ x, 0 < T.out x → (c.heap.ext x).buf = (T.heap.ext x).buf

structure Left (T : Task) (c : Cursor) : Prop where
  len : T.lo < T.hi → 0 < c.len
  off : T.lo = T.hi → T.lo ≠ 0 → c.off ≠ 0

structure Done (T : Task) (c : Cursor) : Prop where
  held : Held c.heap T.out c.chain
  agrees : Agrees (chainBytes c.heap c.chain) T.form T.hi T.hi
  size : mLength c.chain = max T.size T.hi
  totlen : c.totlen ≤ T.hi
  full : T.f.cow = false → T.lo < T.hi → c.totlen = T.hi
  short : T.f.cow = false → T.lo = T.hi → T.lo ≠ 0 → c.totlen < T.hi
  hdr : hdrOf c.chain = T.hdr
  clear : Clear c.heap T.lo T.hi 0 c.chain
  shared : ∀ x, 0 < T.out x → (c.heap.ext x).buf = (T.heap.ext x).buf

def Good (T : Task) : Next → Prop
  | .seek c => Inv T c ∧ Left T c ∧ (T.f.cow = false ∧ c.off ≤ c.m.len ∨ c.pos = T.lo)
  | .copy c => Inv T c ∧ Left T c ∧ c.off ≤ c.m.len ∧ (T.f.cow = true → c.off = 0 ∨ c.pos = T.lo)
  | .out c => Done T c
  | .enobufs _ => False

/-- How far an mbuf is from being written. -/
def steps (c : Cursor) : Nat :=
  if c.m.len - c.off = 0 then 2 else if readonly c.heap c.m then if c.off > 0 then 3 else 2 else 0

def measure (T : Task) : Next → Nat
  | .seek c => 8 * (T.hi - mLength c.chain) + 2 * c.len + c.rest.length + 5
  | .copy c => 8 * (T.hi - mLength c.chain) + 2 * c.len + c.rest.length + steps c + 1
  | _ => 0

section Rounds
variable {T : Task} {c : Cursor} {mem : Mem} {junk : Nat → Byte} {n : Mbuf} {rest : List Mbuf}

theorem Cursor.chain_cons (hrest : c.rest = n :: rest) : c.chain = (c.pre ++ [c.m]) ++ n :: rest := by
  rw [Cursor.chain, hrest, append_assoc]
  rfl

theorem Inv.advance (hinv : Inv T c) (hrest : c.rest = n :: rest) (hle : c.m.len ≤ c.off) (hclear : Clear c.heap T.lo T.hi (mLength c.pre) [c.m]) :
    Inv T {c with pre := c.pre ++ [c.m], m := n, rest := rest, off := c.off - c.m.len, totlen := c.totlen + c.m.len} := by
  have hchain : Cursor.chain {c with pre := c.pre ++ [c.m], m := n, rest := rest, off := c.off - c.m.len, totlen := c.totlen + c.m.len} =
      c.chain := (Cursor.chain_cons hrest).symm
  have hlen : mLength (c.pre ++ [c.m]) = mLength c.pre + c.m.len := mLength_append
  have hpos : Cursor.pos {c with pre := c.pre ++ [c.m], m := n, rest := rest, off := c.off - c.m.len, totlen := c.totlen + c.m.len} = c.pos := by
    rw [Cursor.pos, Cursor.pos]
    dsimp only
    omega
  refine ⟨?_, ?_, ?_, ?_, ?_, ?_, ?_, ?_, ?_, fun hcow => ?_, hinv.shared⟩
  · rw [hchain]
    exact hinv.held
  · rw [hpos]
    exact hinv.begun
  · rw [hpos]
    exact hinv.total
  · rw [hchain, hpos]
    exact hinv.agrees
  · rw [hpos]
    exact hinv.source
  · rw [hchain]
    exact hinv.size
  · rw [hlen]
    exact ⟨Nat.add_le_add_right hinv.totlen.1 _, fun hcow => by rw [hinv.totlen.2 hcow]⟩
  · rw [hchain]
    exact hinv.hdr
  · exact clear_append.mpr ⟨hinv.done, (zero_add (mLength c.pre)).symm ▸ hclear⟩
  have htodo := hinv.todo hcow
  rw [hrest] at htodo
  rw [hlen]
  exact htodo.2

/-- The chain gets longer at its end, inside of the range or with zeroes. -/
theorem Inv.grow (hinv : Inv T c) (hrest : c.rest = []) (hcow : T.f.cow = false) (hle : c.m.len ≤ c.off)
    (hzero : c.m.len < c.off → c.pos = T.lo) {c' : Cursor} {e : List Byte} (hrest' : c'.rest = [])
    (hheld : Held c'.heap T.out (c'.pre ++ [c'.m])) (hpos : c'.pos = c.pos) (hlen : c'.len = c.len) (hcp : c'.cp = c.cp)
    (hbytes : chainBytes c'.heap (c'.pre ++ [c'.m]) = chainBytes c.heap c.chain ++ e) (he : mLength c.chain + e.length ≤ T.hi)
    (hzeros : ∀ i < e.length, i < c.off - c.m.len → e[i]? = some 0) (htotlen : c'.totlen = mLength c'.pre)
    (hhdr : hdrOf (c'.pre ++ [c'.m]) = T.hdr) (hclear : Clear c'.heap T.lo T.hi 0 (c'.pre ++ [c'.m]))
    (hshared : ∀ x, 0 < T.out x → (c'.heap.ext x).buf = (T.heap.ext x).buf) : Inv T c' := by
  have hchain : c'.chain = c'.pre ++ [c'.m] := by rw [Cursor.chain, hrest']
  have hold : mLength c.chain = mLength c.pre + c.m.len := by
    rw [Cursor.chain, hrest, mLength_append]
    rfl
  have hnew : mLength c'.chain = mLength c.chain + e.length := by
    rw [hchain, ← length_chainBytes c'.heap, hbytes, length_append, length_chainBytes]
  have hsize := hinv.size
  obtain ⟨hdone, htodo⟩ := clear_append.mp hclear
  rw [zero_add] at htodo
  refine ⟨?_, ?_, ?_, ?_, ?_, ?_, ?_, ?_, hdone, fun _ => ?_, hshared⟩
  · rw [hchain]
    exact hheld
  · rw [hpos]
    exact hinv.begun
  · rw [hpos, hlen]
    exact hinv.total
  · rw [hchain, hbytes, hpos]
    refine hinv.agrees.append fun i hi hout => ?_
    rw [length_chainBytes] at hout ⊢
    rw [if_pos (T.copies hcow), Cursor.pos] at hout
    have hin : i < c.off - c.m.len := by omega
    have hlo := hzero (by omega)
    rw [Cursor.pos] at hlo
    rw [hzeros i hi hin, T.zero hcow _ (by omega) (by omega)]
  · rw [hpos, hlen, hcp]
    exact hinv.source
  · omega
  · rw [htotlen]
    exact ⟨le_refl _, fun _ => rfl⟩
  · rw [hchain]
    exact hhdr
  · rw [hrest']
    exact htodo

theorem trailingspace_pos {h : Heap} {m : Mbuf} (hpos : 0 < trailingspace h m) : readonly h m = false := by
  by_contra hro
  rw [Bool.not_eq_false] at hro
  rw [trailingspace, if_pos hro] at hpos
  exact lt_irrefl 0 hpos

theorem new_room (h : Heap) (type : Nat) (want : Bool) (junk : Nat → Byte) :
    0 < trailingspace (mayClget h (mGet junk type) want junk).1 (mayClget h (mGet junk type) want junk).2 := by
  cases want with
  | false =>
    show 0 < MLEN - (0 + 0)
    decide
  | true =>
    rw [mayClget, if_pos rfl]
    simp only [mClget, trailingspace, readonly, Function.update_self]
    show 0 < MCLBYTES - (0 + 0)
    decide

theorem zeroes_front {b : Nat → Byte} {j k n i : Nat} (hk : k ≤ n) (hi : i < k) : (slice (poke b j (replicate k 0)) j n)[i]? = some 0 := by
  rw [getElem?_slice (by omega), poke_of_in (by rwa [length_replicate]), getElem_replicate]

/-- Where the chain ends inside of the range, it is made longer. -/
theorem extend_spec (junk : Nat → Byte) (hinv : Inv T c) (hleft : Left T c) (hrest : c.rest = []) (hle : c.m.len ≤ c.off) (hlt : mLength c.chain < T.hi)
    (hzero : c.m.len < c.off → c.pos = T.lo) :
    ∃ c', extend T.f ⟨true, true⟩ junk {c with off := c.off - c.m.len, totlen := c.totlen + c.m.len} = .seek c' ∧ Good T (.seek c') ∧
      c'.rest = [] ∧ c'.len = c.len ∧ mLength c.chain < mLength c'.chain := by
  have hsize := hinv.size
  have htotal := hinv.total
  have hcow : T.f.cow = false := by
    by_contra hcow
    have hinside := T.inside (by rwa [Bool.not_eq_false] at hcow)
    omega
  have hext : T.f.extend = true := by rw [T.extend_eq, hcow]; rfl
  have hchain : c.chain = c.pre ++ [c.m] := by rw [Cursor.chain, hrest]
  have hlen : mLength c.chain = mLength c.pre + c.m.len := by
    rw [hchain, mLength_append]
    rfl
  rw [Cursor.pos] at htotal hzero
  have hheld := hinv.held
  rw [hchain] at hheld
  have hwant : (decide (c.off - c.m.len + c.len ≥ MINCLSIZE ∧ c.m.ref = none ∧ c.m.len = 0) && true) = true → c.m.ref = none ∧ c.m.len = 0 := by
    intro h
    rw [Bool.and_true] at h
    exact (of_decide_eq_true h).2
  have hcl := hheld.mayClget _ hwant junk
  unfold extend
  rw [if_neg (by rw [hext]; decide)]
  dsimp only
  generalize mayClget c.heap c.m _ junk = r at hcl ⊢
  obtain ⟨h₁, m₁⟩ := r
  dsimp only at hcl ⊢
  have hmid : chainBytes h₁ (c.pre ++ [m₁]) = chainBytes c.heap c.chain := by
    rw [hchain, chainBytes_append, chainBytes_append, chainBytes_cons, chainBytes_cons, hcl.keeps.left.chainBytes, hcl.bytes]
    rfl
  have hshared : ∀ x, 0 < T.out x → (h₁.ext x).buf = (T.heap.ext x).buf := fun x hx => (hcl.keeps.shared x hx).trans (hinv.shared x hx)
  have hdone : Clear h₁ T.lo T.hi 0 c.pre := hinv.done.mono fun y hy => hcl.keeps.left.writable y hy
  by_cases hspace : trailingspace h₁ m₁ > 0
  · rw [if_pos hspace]
    have hro := trailingspace_pos hspace
    obtain ⟨hheld', hkeeps⟩ := hcl.held.write hro m₁.len (replicate (min (c.off - c.m.len) (min (trailingspace h₁ m₁) (c.off - c.m.len + c.len))) 0)
    have hw := write_written h₁ m₁ m₁.len (replicate (min (c.off - c.m.len) (min (trailingspace h₁ m₁) (c.off - c.m.len + c.len))) 0)
    generalize htspace : min (trailingspace h₁ m₁) (c.off - c.m.len + c.len) = tspace at hheld' hkeeps hw ⊢
    generalize write h₁ m₁ m₁.len _ = r at hheld' hkeeps hw ⊢
    obtain ⟨h₂, m₂⟩ := r
    dsimp only at hheld' hkeeps hw ⊢
    have hoff : c.off - c.m.len + c.m.len = c.off := by omega
    have hadd : mLength (c.pre ++ [{m₂ with len := m₂.len + tspace}]) = mLength c.chain + tspace := by
      rw [mLength_append, hlen, mLength_cons]
      dsimp only
      rw [hw.len, hcl.len]
      show _ + (_ + _ + 0) = _
      omega
    refine ⟨_, rfl, ⟨?_, ⟨hleft.len, fun hle hne => ?_⟩, ?_⟩, hrest, rfl, ?_⟩
    · refine hinv.grow hrest hcow hle hzero (e := slice (buffer h₂ m₂) (m₂.data + m₁.len) tspace) hrest (hheld'.replace rfl) ?_ rfl rfl ?_ ?_ ?_ ?_ ?_ ?_ ?_
      · show mLength c.pre + (c.off - c.m.len + c.m.len) = mLength c.pre + c.off
        rw [hoff]
      · rw [← hmid, chainBytes_append, chainBytes_append, hkeeps.left.chainBytes, append_assoc]
        congr 1
        show slice (buffer h₂ m₂) m₂.data (m₂.len + tspace) ++ [] = slice (buffer h₁ m₁) m₁.data m₁.len ++ [] ++ _
        rw [append_nil, append_nil, slice_add, hw.len, hw.buffer, hw.data, slice_poke_of_out (.inl (le_refl _))]
      · rw [length_slice]
        omega
      · intro i hi hin
        rw [length_slice] at hi
        rw [hw.buffer, hw.data]
        exact zeroes_front (by omega) (by omega)
      · dsimp only
        rw [hinv.totlen.2 hcow]
        omega
      · rw [← hinv.hdr, hchain]
        exact hdrOf_mid (hw.pkthdr.trans hcl.pkthdr)
      · refine clear_append.mpr ⟨hdone.mono fun y hy => hkeeps.left.writable y hy, clear_singleton.mpr fun _ => ?_⟩
        exact hw.readonly.trans hro
      · exact fun x hx => (hkeeps.shared x hx).trans (hshared x hx)
    · dsimp only
      rw [hoff]
      exact hleft.off hle hne
    · by_cases hseek : c.m.len < c.off
      · right
        show mLength c.pre + (c.off - c.m.len + c.m.len) = T.lo
        rw [hoff]
        exact hzero hseek
      left
      refine ⟨hcow, ?_⟩
      dsimp only
      rw [hw.len, hcl.len]
      omega
    · show _ < mLength (c.pre ++ _ :: c.rest)
      rw [hrest, hadd]
      omega
  rw [if_neg hspace, if_neg (by simp)]
  have hnew : Held h₁ T.out ((c.pre ++ [m₁]) ++ mGet junk m₁.type :: []) := by
    refine Held.insert ?_ rfl
    rw [append_nil]
    exact hcl.held
  have hcl' := hnew.mayClget (decide (c.off - c.m.len + c.len ≥ MINCLSIZE)) (fun _ => ⟨rfl, rfl⟩) junk
  have hroom := new_room h₁ m₁.type (decide (c.off - c.m.len + c.len ≥ MINCLSIZE)) junk
  generalize mayClget h₁ (mGet junk m₁.type) _ junk = r at hcl' hroom ⊢
  obtain ⟨h₂, n₂⟩ := r
  dsimp only at hcl' hroom ⊢
  have hro : readonly h₂ n₂ = false := hcl'.readonly rfl
  generalize hnlen : min (trailingspace h₂ n₂) (c.off - c.m.len + c.len) = nlen
  obtain ⟨hheld', hkeeps⟩ := hcl'.held.write hro 0 (replicate (min nlen (c.off - c.m.len)) 0)
  have hw := write_written h₂ n₂ 0 (replicate (min nlen (c.off - c.m.len)) 0)
  generalize write h₂ n₂ 0 _ = r at hheld' hkeeps hw ⊢
  obtain ⟨h₃, n₃⟩ := r
  dsimp only at hheld' hkeeps hw ⊢
  have hfirst : mLength (c.pre ++ [m₁]) = mLength c.chain := by
    rw [mLength_append, hlen, mLength_cons, hcl.len]
    rfl
  have hadd : mLength (c.pre ++ [m₁] ++ [{n₃ with len := nlen}]) = mLength c.chain + nlen := by
    rw [mLength_append, hfirst]
    rfl
  have hpos : mLength (c.pre ++ [m₁]) + (c.off - c.m.len) = mLength c.pre + c.off := by omega
  refine ⟨_, rfl, ⟨?_, ⟨hleft.len, fun hle hne => ?_⟩, ?_⟩, hrest, rfl, ?_⟩
  · refine hinv.grow hrest hcow hle hzero (e := slice (buffer h₃ n₃) n₃.data nlen) hrest (hheld'.replace rfl) hpos rfl rfl ?_ ?_ ?_ ?_ ?_ ?_ ?_
    · dsimp only
      rw [← hmid, chainBytes_append, hkeeps.left.chainBytes, hcl'.keeps.left.chainBytes]
      congr 1
      exact append_nil _
    · rw [length_slice]
      omega
    · intro i hi hin
      rw [length_slice] at hi
      rw [hw.buffer, hw.data, add_zero]
      exact zeroes_front (by omega) (by omega)
    · dsimp only
      rw [hfirst, hinv.totlen.2 hcow, hlen]
    · rw [← hinv.hdr, hchain, append_assoc]
      exact hdrOf_mid hcl.pkthdr
    · have htodo := hinv.todo hcow
      rw [hrest, clear_singleton] at htodo
      refine clear_append.mpr ⟨clear_append.mpr ⟨?_, clear_singleton.mpr fun hin => ?_⟩, clear_singleton.mpr fun _ => ?_⟩
      · exact hdone.mono fun y hy hy' => hkeeps.left.left.writable y hy (hcl'.keeps.left.left.writable y hy hy')
      · rw [zero_add, hcl.len] at hin
        exact hkeeps.left.right.writable _ mem_cons_self (hcl'.keeps.left.right.writable _ mem_cons_self (hcl.readonly (htodo hin)))
      · exact hw.readonly.trans hro
    · exact fun x hx => (hkeeps.shared x hx).trans ((hcl'.keeps.shared x hx).trans (hshared x hx))
  · have hbegun := hinv.begun
    rw [Cursor.pos] at hbegun
    dsimp only
    omega
  · by_cases hseek : c.m.len < c.off
    · right
      exact hpos.trans (hzero hseek)
    left
    refine ⟨hcow, ?_⟩
    dsimp only
    omega
  · show _ < mLength (c.pre ++ [m₁] ++ _ :: c.rest)
    rw [hrest, hadd]
    omega

theorem steps_le (c : Cursor) : steps c ≤ 3 ∧ (c.off = 0 → steps c ≤ 2) := by
  unfold steps
  split
  · exact ⟨by decide, fun _ => le_refl 2⟩
  split
  · split
    · next hoff => exact ⟨le_refl 3, fun hzero => by omega⟩
    · exact ⟨by decide, fun _ => le_refl 2⟩
  · exact ⟨by decide, fun _ => Nat.zero_le 2⟩

theorem Cursor.mLength_chain (c : Cursor) : mLength c.chain = mLength c.pre + (c.m.len + mLength c.rest) := by
  rw [Cursor.chain, mLength_append, mLength_cons]

theorem seekRound_good (junk : Nat → Byte) (hgood : Good T (.seek c)) : Good T (seekRound T.f ⟨true, true⟩ junk c) ∧
    measure T (seekRound T.f ⟨true, true⟩ junk c) < measure T (.seek c) := by
  obtain ⟨hinv, hleft, hpos⟩ := hgood
  have htotal := hinv.total
  have hchain := c.mLength_chain
  rw [Cursor.pos] at htotal hpos
  unfold seekRound
  by_cases hoff : c.off > c.m.len
  · rw [if_pos hoff]
    have hlo : mLength c.pre + c.off = T.lo := hpos.resolve_left fun h => by omega
    dsimp only
    cases hrest : c.rest with
    | nil =>
      rw [hrest] at hchain
      have hlt : mLength c.chain < T.hi := by
        rw [hchain]
        show mLength c.pre + (c.m.len + 0) < T.hi
        omega
      obtain ⟨c', hext, hgood, hrest', hlen, hlonger⟩ := extend_spec junk hinv hleft hrest (le_of_lt hoff) hlt fun _ => hlo
      rw [hrest] at hext
      dsimp only
      rw [hext]
      refine ⟨hgood, ?_⟩
      rw [measure, measure, hrest', hlen, hrest]
      omega
    | cons n rest =>
      dsimp only
      have hclear : Clear c.heap T.lo T.hi (mLength c.pre) [c.m] := clear_singleton.mpr fun hin => by omega
      have hnext := hinv.advance hrest (le_of_lt hoff) hclear
      have hpre : mLength (c.pre ++ [c.m]) = mLength c.pre + c.m.len := mLength_append
      refine ⟨⟨hnext, ⟨hleft.len, fun _ _ => ?_⟩, .inr ?_⟩, ?_⟩
      · dsimp only
        omega
      · show mLength (c.pre ++ [c.m]) + (c.off - c.m.len) = T.lo
        omega
      rw [measure, measure, hrest, Cursor.chain_cons hrest, length_cons]
      dsimp only [Cursor.chain]
      omega
  · rw [if_neg hoff]
    refine ⟨⟨hinv, hleft, Nat.le_of_not_lt hoff, fun hcow => .inr (hpos.resolve_left fun h => ?_)⟩, ?_⟩
    · rw [hcow] at h
      exact absurd h.1 Bool.noConfusion
    have hsteps := (steps_le c).1
    rw [measure, measure]
    omega

end Rounds

end NetBSD.Kern.UipcMbuf
