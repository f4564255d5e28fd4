import NetBSD.Net.Bpf.Safety

/-! Packets in chains of mbufs.

A word that is not inside one mbuf is put together from two, and a half word takes its second byte from
the mbuf behind without asking for its length. So the loads see the packet as it is when no mbuf behind
data is empty and no word needs a third one (`Solid`), and only then. -/
namespace NetBSD.Net.Bpf
open List Option Nat
open Lib

/-- Neighbours: `m` has data, `m0` and `rest` come behind it. -/
structure Joined (m m0 : List Byte) (rest : List (List Byte)) : Prop where
  ne : m0 ≠ []
  word : ∀ r, 1 ≤ r → r ≤ m.length → r + m0.length < 4 → r + m0.length + rest.flatten.length < 4

def Solid : List (List Byte) → Prop
  | [] => True
  | [_] => True
  | m :: m0 :: rest => (m ≠ [] → Joined m m0 rest) ∧ Solid (m0 :: rest)

/-- What a load at `k` should give. -/
def loadBytes (w : Width) (bytes : List Byte) (k : Nat) : Option Word := if k + w.bytes ≤ bytes.length then extract w bytes k else none

section Bytes
variable {m m0 : Mbuf} {rest : List Mbuf} {t : List Byte} {w : Width} {k i : Nat}

def dataOf (chain : List Mbuf) : List Byte := (chain.map Mbuf.data).flatten

theorem dataOf_cons : dataOf (m :: rest) = m.data ++ dataOf rest := rfl

theorem at_eq (hi : i < m.data.length) : (m.data ++ t)[i]? = some (m.at i) := by
  rw [getElem?_append_left hi, Mbuf.at, getD_eq_getElem?_getD, getElem?_eq_getElem hi]
  rfl

theorem at_second (hle : m.data.length ≤ i) (hi : i - m.data.length < m0.data.length) :
    (m.data ++ (m0.data ++ t))[i]? = some (m0.at (i - m.data.length)) := by
  rw [getElem?_append_right hle, at_eq hi]

theorem extract_word {bytes : List Byte} {a b c d : Byte} (ha : bytes[k]? = some a) (hb : bytes[k + 1]? = some b)
    (hc : bytes[k + 2]? = some c) (hd : bytes[k + 3]? = some d) : extract .W bytes k = some (be32dec a b c d) := by
  simp [extract, ha, hb, hc, hd]

theorem extract_half {bytes : List Byte} {a b : Byte} (ha : bytes[k]? = some a) (hb : bytes[k + 1]? = some b) :
    extract .H bytes k = some (be16dec a b) := by
  simp [extract, ha, hb]

theorem extract_append {l : List Byte} (hle : l.length ≤ k) : extract w (l ++ t) k = extract w t (k - l.length) := by
  cases w with
  | W =>
    simp only [extract]
    rw [getElem?_append_right hle, getElem?_append_right (show l.length ≤ k + 1 by omega),
      getElem?_append_right (show l.length ≤ k + 2 by omega), getElem?_append_right (show l.length ≤ k + 3 by omega),
      show k + 1 - l.length = k - l.length + 1 by omega, show k + 2 - l.length = k - l.length + 2 by omega,
      show k + 3 - l.length = k - l.length + 3 by omega]
  | H =>
    simp only [extract]
    rw [getElem?_append_right hle, getElem?_append_right (show l.length ≤ k + 1 by omega),
      show k + 1 - l.length = k - l.length + 1 by omega]
  | B =>
    simp only [extract]
    rw [getElem?_append_right hle]

theorem loadBytes_append {l : List Byte} (hle : l.length ≤ k) : loadBytes w (l ++ t) k = loadBytes w t (k - l.length) := by
  rw [loadBytes, extract_append hle, length_append]
  congr 1
  exact propext (by omega)

theorem xload_skip (hle : m.data.length ≤ k) : xload w (m :: rest) k = xload w rest (k - m.data.length) := by
  have hskip : mindex (m :: rest) k = mindex rest (k - m.data.length) := by rw [mindex, if_pos hle]
  cases w with
  | W => rw [xload, xload, mXword, mXword, hskip]
  | H => rw [xload, xload, mXhalf, mXhalf, hskip]
  | B => rw [xload, xload, mXbyte, mXbyte, hskip]

section
variable (hlt : k < m.data.length)
include hlt

theorem mindex_here : mindex (m :: rest) k = some (m, k, rest) := by
  rw [mindex, if_neg (Nat.not_le_of_lt hlt)]

theorem xbyte_here : xload .B (m :: rest) k = loadBytes .B (dataOf (m :: rest)) k := by
  have hb : (dataOf (m :: rest))[k]? = some (m.at k) := at_eq hlt
  have hlen : k + Width.bytes .B ≤ (dataOf (m :: rest)).length := (List.getElem?_eq_some_iff.mp hb).1
  rw [xload, mXbyte, mindex_here hlt, loadBytes, if_pos hlen, extract, hb]
  rfl

theorem xhalf_here (hne : ∀ m0 ∈ rest.head?, m0.data ≠ []) : xload .H (m :: rest) k = loadBytes .H (dataOf (m :: rest)) k := by
  have ha : (dataOf (m :: rest))[k]? = some (m.at k) := at_eq hlt
  rw [xload, mXhalf, mindex_here hlt, bind_some]
  dsimp only
  split
  · have hb : (dataOf (m :: rest))[k + 1]? = some (m.at (k + 1)) := at_eq (by omega)
    have hlen : k + Width.bytes .H ≤ (dataOf (m :: rest)).length := (List.getElem?_eq_some_iff.mp hb).1
    rw [loadBytes, if_pos hlen, extract_half ha hb]
  cases rest with
  | nil =>
    rw [loadBytes, if_neg]
    show ¬k + 2 ≤ (m.data ++ []).length
    rw [append_nil]
    omega
  | cons m0 rest =>
    have hpos := length_pos_iff.mpr (hne m0 rfl)
    have hb : (dataOf (m :: m0 :: rest))[k + 1]? = some (m0.at (k + 1 - m.data.length)) := at_second (by omega) (by omega)
    have hlen : k + Width.bytes .H ≤ (dataOf (m :: m0 :: rest)).length := (List.getElem?_eq_some_iff.mp hb).1
    rw [show k + 1 - m.data.length = 0 by omega] at hb
    rw [loadBytes, if_pos hlen, extract_half ha hb]

/-- A word whose bytes are in the first two mbufs, or that the packet does not have. -/
theorem xword_here (hjoin : ∀ m0 rest', rest = m0 :: rest' → m.data.length - k + m0.data.length < 4 →
      m.data.length - k + m0.data.length + (dataOf rest').length < 4) :
    xload .W (m :: rest) k = loadBytes .W (dataOf (m :: rest)) k := by
  have ha : (dataOf (m :: rest))[k]? = some (m.at k) := at_eq hlt
  rw [xload, mXword, mindex_here hlt, bind_some]
  dsimp only
  split
  · have hb : (dataOf (m :: rest))[k + 1]? = some (m.at (k + 1)) := at_eq (by omega)
    have hc : (dataOf (m :: rest))[k + 2]? = some (m.at (k + 2)) := at_eq (by omega)
    have hd : (dataOf (m :: rest))[k + 3]? = some (m.at (k + 3)) := at_eq (by omega)
    have hlen : k + Width.bytes .W ≤ (dataOf (m :: rest)).length := (List.getElem?_eq_some_iff.mp hd).1
    rw [loadBytes, if_pos hlen, extract_word ha hb hc hd]
  · next hshort =>
    cases rest with
    | nil =>
      rw [loadBytes, if_neg]
      show ¬k + 4 ≤ (m.data ++ []).length
      rw [append_nil]
      omega
    | cons m0 rest =>
      have htotal : (dataOf (m :: m0 :: rest)).length = m.data.length + (m0.data.length + (dataOf rest).length) := by
        rw [dataOf_cons, dataOf_cons, length_append, length_append]
      dsimp only
      split
      · next hfew =>
        have hfour := hjoin m0 rest rfl hfew
        rw [loadBytes, if_neg]
        show ¬k + 4 ≤ _
        omega
      · next hmany =>
        have hlen : k + Width.bytes .W ≤ (dataOf (m :: m0 :: rest)).length := by
          show k + 4 ≤ _
          omega
        rw [loadBytes, if_pos hlen]
        -- One, two or three bytes are in the first mbuf.
        split
        · next hr =>
          have hb : (dataOf (m :: m0 :: rest))[k + 1]? = some (m0.at (k + 1 - m.data.length)) := at_second (by omega) (by omega)
          have hc : (dataOf (m :: m0 :: rest))[k + 2]? = some (m0.at (k + 2 - m.data.length)) := at_second (by omega) (by omega)
          have hd : (dataOf (m :: m0 :: rest))[k + 3]? = some (m0.at (k + 3 - m.data.length)) := at_second (by omega) (by omega)
          rw [extract_word ha hb hc hd, show k + 1 - m.data.length = 0 by omega, show k + 2 - m.data.length = 1 by omega,
            show k + 3 - m.data.length = 2 by omega]
        · next hr =>
          have hb : (dataOf (m :: m0 :: rest))[k + 1]? = some (m.at (k + 1)) := at_eq (by omega)
          have hc : (dataOf (m :: m0 :: rest))[k + 2]? = some (m0.at (k + 2 - m.data.length)) := at_second (by omega) (by omega)
          have hd : (dataOf (m :: m0 :: rest))[k + 3]? = some (m0.at (k + 3 - m.data.length)) := at_second (by omega) (by omega)
          rw [extract_word ha hb hc hd, show k + 2 - m.data.length = 0 by omega, show k + 3 - m.data.length = 1 by omega]
        · next hne1 hne2 =>
          have hr : m.data.length - k = 3 := by
            have : m.data.length - k ≠ 1 := fun h => hne1 h
            have : m.data.length - k ≠ 2 := fun h => hne2 h
            omega
          have hb : (dataOf (m :: m0 :: rest))[k + 1]? = some (m.at (k + 1)) := at_eq (by omega)
          have hc : (dataOf (m :: m0 :: rest))[k + 2]? = some (m.at (k + 2)) := at_eq (by omega)
          have hd : (dataOf (m :: m0 :: rest))[k + 3]? = some (m0.at (k + 3 - m.data.length)) := at_second (by omega) (by omega)
          rw [extract_word ha hb hc hd, show k + 3 - m.data.length = 0 by omega]

end

theorem xload_solid (chain : List Mbuf) (h : Solid (chain.map Mbuf.data)) (w : Width) (k : Nat) : xload w chain k = loadBytes w (dataOf chain) k := by
  induction chain generalizing k with
  | nil =>
    cases w <;> rfl
  | cons m rest ih =>
    have htail : Solid (rest.map Mbuf.data) := by
      cases rest with
      | nil => trivial
      | cons m0 rest => exact h.2
    obtain hle | hlt := Nat.lt_or_ge k m.data.length |>.symm
    · rw [xload_skip hle, ih htail, dataOf_cons, loadBytes_append hle]
    have hne : m.data ≠ [] := ne_nil_of_length_pos (by omega)
    cases w with
    | B => exact xbyte_here hlt
    | H =>
      apply xhalf_here hlt
      intro m0 hm0
      cases rest with
      | nil => exact absurd hm0 (by simp)
      | cons m1 rest =>
        obtain rfl : m1 = m0 := some.inj hm0
        exact (h.1 hne).ne
    | W =>
      apply xword_here hlt
      rintro m0 rest' rfl hfew
      exact (h.1 hne).word _ (by omega) (sub_le _ _) hfew

end Bytes

/-! ### The same loads, the same verdict -/

section Verdict
variable {bytes : List Byte} {chain : List Mbuf} {w : Width} {wirelen : Nat} {k : Nat} {out : Bool}

theorem loadAt_flat (hne : bytes ≠ []) (hout : out = true ↔ ¬k + w.bytes ≤ bytes.length) :
    loadAt ⟨.flat bytes, wirelen⟩ w k out = (loadBytes w bytes k).elim .reject .value := by
  have hbuf : Args.buflen ⟨.flat bytes, wirelen⟩ ≠ 0 := by
    exact fun h => hne (length_eq_zero_iff.mp h)
  rw [loadAt, loadBytes]
  cases out with
  | true => rw [if_pos rfl, if_pos hbuf, if_neg (hout.mp rfl), elim_none]
  | false =>
    have hin : k + w.bytes ≤ bytes.length := by
      by_contra hnot
      exact absurd (hout.mpr hnot) (by simp)
    obtain ⟨v, hv⟩ := extract_isSome hin
    rw [if_pos hin]
    simp [hv, elim_some]

theorem loadAt_chain (hout : out = true) : loadAt ⟨.chain chain, wirelen⟩ w k out = (xload w chain k).elim .reject .value := by
  rw [loadAt, if_pos hout, if_neg (by simp [Args.buflen])]

theorem loadAbs_flat (hne : bytes ≠ []) (k : Word) : loadAbs ⟨.flat bytes, wirelen⟩ w k = (loadBytes w bytes k.toNat).elim .reject .value := by
  cases w with
  | B =>
    apply loadAt_flat hne
    show decide (k.toNat ≥ bytes.length) = true ↔ ¬k.toNat + 1 ≤ bytes.length
    rw [decide_eq_true_eq]
    omega
  | W =>
    apply loadAt_flat hne
    show decide (k.toNat > bytes.length ∨ 4 > bytes.length - k.toNat) = true ↔ ¬k.toNat + 4 ≤ bytes.length
    rw [decide_eq_true_eq]
    omega
  | H =>
    apply loadAt_flat hne
    show decide (k.toNat > bytes.length ∨ 2 > bytes.length - k.toNat) = true ↔ ¬k.toNat + 2 ≤ bytes.length
    rw [decide_eq_true_eq]
    omega

theorem loadAbs_chain (k : Word) : loadAbs ⟨.chain chain, wirelen⟩ w k = (xload w chain k.toNat).elim .reject .value := by
  cases w with
  | B =>
    apply loadAt_chain
    exact decide_eq_true (zero_le _)
  | W =>
    apply loadAt_chain
    rw [decide_eq_true_eq]
    exact .inr (lt_of_le_of_lt (sub_le _ _) (by show 0 < 4; decide))
  | H =>
    apply loadAt_chain
    rw [decide_eq_true_eq]
    exact .inr (lt_of_le_of_lt (sub_le _ _) (by show 0 < 2; decide))

theorem loadInd_flat (hne : bytes ≠ []) (x k : Word) : loadInd ⟨.flat bytes, wirelen⟩ w x k =
    if x + k < x then .reject else (loadBytes w bytes (x + k).toNat).elim .reject .value := by
  have hpos := w.bytes_pos
  rw [loadInd]
  congr 1
  apply loadAt_flat hne
  show decide ((x + k).toNat ≥ bytes.length ∨ w.bytes > bytes.length - (x + k).toNat) = true ↔ ¬(x + k).toNat + w.bytes ≤ bytes.length
  rw [decide_eq_true_eq]
  omega

theorem loadInd_chain (x k : Word) : loadInd ⟨.chain chain, wirelen⟩ w x k =
    if x + k < x then .reject else (xload w chain (x + k).toNat).elim .reject .value := by
  have hout : decide ((x + k).toNat ≥ Args.buflen ⟨.chain chain, wirelen⟩ ∨
      w.bytes > Args.buflen ⟨.chain chain, wirelen⟩ - (x + k).toNat) = true := decide_eq_true (.inl (zero_le _))
  rw [loadInd, loadAt_chain hout]

theorem loads_eq (hne : dataOf chain ≠ []) (h : Solid (chain.map Mbuf.data)) :
    Args.loads ⟨.chain chain, wirelen⟩ = Args.loads ⟨.flat (dataOf chain), wirelen⟩ := by
  have habs : loadAbs ⟨.chain chain, wirelen⟩ = loadAbs ⟨.flat (dataOf chain), wirelen⟩ := by
    funext w k
    rw [loadAbs_chain, loadAbs_flat hne, xload_solid chain h]
  have hind : loadInd ⟨.chain chain, wirelen⟩ = loadInd ⟨.flat (dataOf chain), wirelen⟩ := by
    funext w x k
    rw [loadInd_chain, loadInd_flat hne, xload_solid chain h]
  rw [Args.loads, Args.loads, habs, hind]

end Verdict

/-- bpf_filter, with as many rounds as there are instructions. -/
def bpfFilter (wide : Word → Word → Word) (prog : List Insn) (args : Args) : Option (Except Fault (Word × Unit)) :=
  run wide (none : Option (Ctx Unit)) prog args prog.length (.start (fun _ => none) ())

def bpfValidate (prog : List Insn) : Bool := bpfValidateExt (none : Option (Ctx Unit)) prog

theorem run_congr {wide : Word → Word → Word} {prog : List Insn} {args args' : Args} (hloads : args.loads = args'.loads)
    (hlen : args.wirelen = args'.wirelen) (rounds : Nat) (s : State Unit) :
    run wide (none : Option (Ctx Unit)) prog args rounds s = run wide none prog args' rounds s := by
  have hstep : step wide (none : Option (Ctx Unit)) prog args = step wide none prog args' := by
    funext s
    rw [step, step, hloads]
    cases prog[s.pc]? with
    | none => rfl
    | some insn =>
      dsimp only
      cases hop : decode insn.code with
      | none => rfl
      | some op =>
        cases op <;> simp only [exec, hlen]
  induction rounds generalizing s with
  | zero => rfl
  | succ rounds ih =>
    rw [run, run, hstep]
    cases step wide none prog args' s with
    | next s' => exact ih s'
    | ret v ext => rfl
    | fault f => rfl

/-- Every chain with the data gets the verdict of the buffer, from every program and whatever stands in memory
behind the data of its mbufs. -/
def SameVerdict (datas : List (List Byte)) : Prop :=
  ∀ chain : List Mbuf, chain.map Mbuf.data = datas → ∀ wide prog wirelen, bpfValidate prog = true →
    bpfFilter wide prog ⟨.chain chain, wirelen⟩ = bpfFilter wide prog ⟨.flat datas.flatten, wirelen⟩

/-! ### Where the verdicts part -/

section Parts
variable {args : Args} {wide : Word → Word → Word} {k : Word}

/-- The answer of a program that loads and returns what it loaded. -/
def Load.answer : Load → Option (Except Fault (Word × Unit))
  | .value v => some (.ok (v, ()))
  | .reject => some (.ok (0, ()))
  | .fault => some (.error .pkt)

def loadHalf (k : Word) : List Insn := [⟨BPF_LD ||| BPF_H ||| BPF_ABS, 0, 0, k⟩, ⟨BPF_RET ||| BPF_A, 0, 0, 0⟩]

/-- A program that answers one if the packet has the word. -/
def hasWord (k : Word) : List Insn := [⟨BPF_LD ||| BPF_W ||| BPF_ABS, 0, 0, k⟩, ⟨BPF_RET ||| BPF_K, 0, 0, 1⟩]

theorem bpfFilter_loadHalf : bpfFilter wide (loadHalf k) args = (loadAbs args .H k).answer := by
  have hdecode : decode (BPF_LD ||| BPF_H ||| BPF_ABS) = some (.ldAbs .H) := by decide
  have hret : decode (BPF_RET ||| BPF_A) = some .retA := by decide
  show run wide none (loadHalf k) args 2 _ = _
  simp only [run, step, loadHalf, State.start, getElem?_cons_zero, hdecode, exec, Args.loads]
  cases loadAbs args .H k with
  | value v => simp [State.loadA, getElem?_cons_succ, getElem?_cons_zero, hret, Load.answer]
  | reject => rfl
  | fault => rfl

theorem bpfFilter_hasWord : bpfFilter wide (hasWord k) args =
    match loadAbs args .W k with
    | .value _ => some (.ok (1, ()))
    | .reject => some (.ok (0, ()))
    | .fault => some (.error .pkt) := by
  have hdecode : decode (BPF_LD ||| BPF_W ||| BPF_ABS) = some (.ldAbs .W) := by decide
  have hret : decode (BPF_RET ||| BPF_K) = some .retK := by decide
  show run wide none (hasWord k) args 2 _ = _
  simp only [run, step, hasWord, State.start, getElem?_cons_zero, hdecode, exec, Args.loads]
  cases loadAbs args .W k with
  | value v => simp [State.loadA, getElem?_cons_succ, getElem?_cons_zero, hret]
  | reject => rfl
  | fault => rfl

theorem two_valid {p q : Insn} (hp : Kind.plain.Has p.code) (hq : Kind.ret.Has q.code)
    (hcode : ¬(q.code ≠ BPF_RET ||| BPF_K ∧ q.code ≠ BPF_RET ||| BPF_A)) : bpfValidate [p, q] = true := by
  show (if q.code ≠ BPF_RET ||| BPF_K ∧ q.code ≠ BPF_RET ||| BPF_A then false else _) = true
  rw [if_neg hcode, checkFrom, check_plain hp]
  dsimp only
  rw [checkFrom, check_ret hq]
  rfl

theorem loadHalf_valid : bpfValidate (loadHalf k) = true :=
  two_valid (show Kind.plain.Has (BPF_LD ||| BPF_H ||| BPF_ABS) by decide) (by decide) (by decide)

theorem hasWord_valid : bpfValidate (hasWord k) = true :=
  two_valid (show Kind.plain.Has (BPF_LD ||| BPF_W ||| BPF_ABS) by decide) (by decide) (by decide)

end Parts

theorem be16dec_low (a b : Byte) : (be16dec a b).setWidth 8 = b := by
  simp [be16dec]

theorem xload_pre {w : Width} (pre t : List Mbuf) (k : Nat) : xload w (pre ++ t) ((dataOf pre).length + k) = xload w t k := by
  induction pre with
  | nil => rw [nil_append, show (dataOf []).length = 0 from rfl, zero_add]
  | cons m pre ih =>
    have hlen : (dataOf (m :: pre)).length = m.data.length + (dataOf pre).length := by rw [dataOf_cons, length_append]
    rw [cons_append, xload_skip (by omega), hlen, add_assoc, Nat.add_sub_cancel_left, ih]

theorem exists_not_joined (datas : List (List Byte)) (h : ¬Solid datas) :
    ∃ pre m m0 rest, datas = pre ++ m :: m0 :: rest ∧ m ≠ [] ∧ ¬Joined m m0 rest := by
  induction datas with
  | nil => exact absurd trivial h
  | cons m rest ih =>
    cases rest with
    | nil => exact absurd trivial h
    | cons m0 rest =>
      by_cases hj : m ≠ [] → Joined m m0 rest
      · obtain ⟨pre, a, b, c, heq, hne, hnot⟩ := ih fun hs => h ⟨hj, hs⟩
        exact ⟨m :: pre, a, b, c, by rw [heq, cons_append], hne, hnot⟩
      · exact ⟨[], m, m0, rest, rfl, Classical.not_imp.mp hj⟩

/-- The chain of the data, with the byte `c` everywhere behind it. -/
def chainOf (c : Byte) (datas : List (List Byte)) : List Mbuf := datas.map fun d => ⟨d, fun _ => c⟩

theorem chainOf_data (c : Byte) (datas : List (List Byte)) : (chainOf c datas).map Mbuf.data = datas := by
  rw [chainOf, List.map_map]
  exact map_id _

theorem dataOf_chainOf (c : Byte) (datas : List (List Byte)) : dataOf (chainOf c datas) = datas.flatten := by
  rw [dataOf, chainOf_data]

section Differ
variable {datas pre rest : List (List Byte)} {m m0 : List Byte}

/-- The second byte of a half word comes from an empty mbuf. -/
theorem differ_half (hlen : datas.flatten.length < 2 ^ 32) (hdatas : datas = pre ++ m :: [] :: rest) (hne : m ≠ []) (h : SameVerdict datas) : False := by
  have hpos := length_pos_iff.mpr hne
  have htotal : datas.flatten.length = pre.flatten.length + (m.length + rest.flatten.length) := by
    rw [hdatas]
    simp
  -- A byte that is not the next one of the packet.
  generalize hc : (datas.flatten[pre.flatten.length + m.length]?).elim 1 (· + 1) = c
  have hk : (BitVec.ofNat 32 (pre.flatten.length + (m.length - 1))).toNat = pre.flatten.length + (m.length - 1) := by
    rw [BitVec.toNat_ofNat, mod_eq_of_lt (by omega)]
  have hne' : datas.flatten ≠ [] := ne_nil_of_length_pos (by omega)
  have hverdict := h (chainOf c datas) (chainOf_data c datas) (fun a _ => a)
    (loadHalf (BitVec.ofNat 32 (pre.flatten.length + (m.length - 1)))) 0 loadHalf_valid
  rw [bpfFilter_loadHalf, bpfFilter_loadHalf, loadAbs_chain, loadAbs_flat hne', hk] at hverdict
  have hx : xload .H (chainOf c datas) (pre.flatten.length + (m.length - 1)) = some (be16dec ((⟨m, fun _ => c⟩ : Mbuf).at (m.length - 1)) c) := by
    have hsplit : chainOf c datas = chainOf c pre ++ (⟨m, fun _ => c⟩ :: ⟨[], fun _ => c⟩ :: chainOf c rest) := by
      rw [hdatas]
      simp [chainOf]
    rw [hsplit, ← dataOf_chainOf c pre, xload_pre, xload, mXhalf, mindex_here (show m.length - 1 < m.length by omega), bind_some]
    dsimp only
    rw [if_neg (by omega)]
    rfl
  rw [hx, elim_some] at hverdict
  rw [loadBytes] at hverdict
  split at hverdict
  · next hin =>
    have hin' : pre.flatten.length + (m.length - 1) + 2 ≤ datas.flatten.length := hin
    obtain ⟨a, ha⟩ : ∃ a, datas.flatten[pre.flatten.length + (m.length - 1)]? = some a :=
      ⟨_, getElem?_eq_getElem (by omega)⟩
    obtain ⟨b, hb⟩ : ∃ b, datas.flatten[pre.flatten.length + (m.length - 1) + 1]? = some b :=
      ⟨_, getElem?_eq_getElem (by omega)⟩
    rw [extract_half ha hb] at hverdict
    have heq : be16dec _ c = be16dec _ _ := congrArg (fun r => (r.elim 0 fun e => e.toOption.elim 0 Prod.fst : Word)) hverdict
    have hlow := congrArg (fun w => w.setWidth 8) heq
    simp only [be16dec_low] at hlow
    rw [show pre.flatten.length + (m.length - 1) + 1 = pre.flatten.length + m.length by omega] at hb
    rw [hb, hlow] at hc
    exact absurd (BitVec.add_right_eq_self.mp hc) (by decide)
  · next hout =>
    have hout' : ¬pre.flatten.length + (m.length - 1) + 2 ≤ datas.flatten.length := hout
    have hnone : datas.flatten[pre.flatten.length + m.length]? = none := getElem?_eq_none (by omega)
    rw [hnone] at hc
    have heq : be16dec _ c = (0 : Word) := congrArg (fun r => (r.elim 0 fun e => e.toOption.elim 0 Prod.fst : Word)) hverdict
    have hlow := congrArg (fun w => w.setWidth 8) heq
    simp only [be16dec_low, ← hc] at hlow
    exact absurd hlow (by decide)

theorem differ_word (hlen : datas.flatten.length < 2 ^ 32) (hdatas : datas = pre ++ m :: m0 :: rest) {r : Nat} (hr : 1 ≤ r) (hrm : r ≤ m.length)
    (hfew : r + m0.length < 4) (hmore : 4 ≤ r + m0.length + rest.flatten.length) (h : SameVerdict datas) : False := by
  have htotal : datas.flatten.length = pre.flatten.length + (m.length + (m0.length + rest.flatten.length)) := by
    rw [hdatas]
    simp
  have hk : (BitVec.ofNat 32 (pre.flatten.length + (m.length - r))).toNat = pre.flatten.length + (m.length - r) := by
    rw [BitVec.toNat_ofNat, mod_eq_of_lt (by omega)]
  have hne' : datas.flatten ≠ [] := ne_nil_of_length_pos (by omega)
  have hverdict := h (chainOf 0 datas) (chainOf_data 0 datas) (fun a _ => a)
    (hasWord (BitVec.ofNat 32 (pre.flatten.length + (m.length - r)))) 0 hasWord_valid
  rw [bpfFilter_hasWord, bpfFilter_hasWord, loadAbs_chain, loadAbs_flat hne', hk] at hverdict
  have hx : xload .W (chainOf 0 datas) (pre.flatten.length + (m.length - r)) = none := by
    have hsplit : chainOf 0 datas = chainOf 0 pre ++ (⟨m, fun _ => 0⟩ :: ⟨m0, fun _ => 0⟩ :: chainOf 0 rest) := by
      rw [hdatas]
      simp [chainOf]
    rw [hsplit, ← dataOf_chainOf 0 pre, xload_pre, xload, mXword, mindex_here (show m.length - r < m.length by omega), bind_some]
    dsimp only
    rw [if_neg (by omega), if_pos (by omega)]
  have hin : pre.flatten.length + (m.length - r) + Width.bytes .W ≤ datas.flatten.length := by
    show _ + 4 ≤ _
    omega
  obtain ⟨v, hv⟩ := extract_isSome hin
  rw [hx, loadBytes, if_pos hin, hv] at hverdict
  have heq : (0 : Word) = 1 := congrArg (fun r => (r.elim 0 fun e => e.toOption.elim 0 Prod.fst : Word)) hverdict
  exact absurd heq (by decide)

end Differ

/-- The verdict on a chain is the one on the buffer, for every program, exactly when the split is solid. -/
theorem same_verdict_iff (datas : List (List Byte)) (hne : datas.flatten ≠ []) (hlen : datas.flatten.length < 2 ^ 32) :
    SameVerdict datas ↔ Solid datas := by
  refine ⟨?_, ?_⟩
  · intro h
    by_contra hsolid
    obtain ⟨pre, m, m0, rest, hdatas, hm, hjoin⟩ := exists_not_joined datas hsolid
    apply hjoin
    refine ⟨?_, ?_⟩
    · rintro rfl
      exact differ_half hlen hdatas hm h
    intro r hr hrm hfew
    by_contra hmore
    exact differ_word hlen hdatas hr hrm hfew (Nat.le_of_not_lt hmore) h
  · intro hsolid chain hchain wide prog wirelen _
    subst hchain
    exact run_congr (loads_eq hne hsolid) rfl _ _

/-- Three mbufs, the middle one long enough. -/
theorem same_verdict_three : Solid [[1, 2], [3, 4, 5], [6]] ∧ SameVerdict [[1, 2], [3, 4, 5], [6]] := by
  have hsolid : Solid [[1, 2], [3, 4, 5], [6]] := by
    refine ⟨fun _ => ⟨by decide, ?_⟩, fun _ => ⟨by decide, ?_⟩, trivial⟩
    · intro r hr _ hfew
      change r + 3 < 4 at hfew
      omega
    · intro r hr _ hfew
      exact hfew
  exact ⟨hsolid, (same_verdict_iff _ (by decide) (by decide)).mpr hsolid⟩

/-- Four bytes, the first of them followed by an empty mbuf: the word is in the buffer but not in the chain. -/
theorem empty_mbuf_hides_word : bpfValidate (hasWord 0) = true ∧
    bpfFilter (fun a _ => a) (hasWord 0) ⟨.flat [1, 2, 3, 4], 4⟩ = some (.ok (1, ())) ∧
    bpfFilter (fun a _ => a) (hasWord 0) ⟨.chain [⟨[1], fun _ => 0⟩, ⟨[], fun _ => 0⟩, ⟨[2, 3, 4], fun _ => 0⟩], 4⟩ = some (.ok (0, ())) ∧
    ¬SameVerdict [[1], [], [2, 3, 4]] := by
  refine ⟨hasWord_valid, rfl, rfl, ?_⟩
  intro h
  exact differ_half (by decide) (show [[1], [], [2, 3, 4]] = [] ++ [1] :: [] :: [[2, 3, 4]] from rfl) (by decide) h

end NetBSD.Net.Bpf
