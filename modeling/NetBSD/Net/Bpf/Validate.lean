import NetBSD.Net.Bpf.Filter

/-! What the validator's one pass establishes.

`Typed` says that masks of possibly unwritten words can be given to the instructions such that every
instruction hands its mask on to where it goes, and reads only words its mask does not have. The pass
computes such masks; a typed program never faults and never goes back. -/
namespace NetBSD.Net.Bpf
open List Function Option
open Lib

theorem decode_mem {code : BitVec 16} {op : Op} (h : decode code = some op) : (code, op) ∈ opcodes := by
  obtain ⟨e, he, rfl⟩ := map_eq_some_iff.mp h
  have hcode := find?_some he
  obtain rfl := of_decide_eq_true hcode
  exact mem_of_find?_eq_some he

/-! ### The branches of the pass -/

/-- What the validator tells apart. -/
inductive Kind where
  | plain
  | read
  | write
  | ja
  | jmp
  | div
  | cop (fixed : Bool)
  | ret
  deriving DecidableEq

def Op.kind : Op → Kind
  | .retK | .retA => .ret
  | .ldMem | .ldxMem => .read
  | .st | .stx => .write
  | .ja => .ja
  | .jmp _ _ => .jmp
  | .alu .DIV .K | .alu .MOD .K => .div
  | .cop => .cop true
  | .copx => .cop false
  | _ => .plain

/-- The masked parts of a code that lead to the branch of its kind. -/
def Kind.Has (code : BitVec 16) : Kind → Prop
  | .plain => ((bpfClass code = BPF_LD ∨ bpfClass code = BPF_LDX) ∧ bpfMode code ∈ [BPF_ABS, BPF_IND, BPF_MSH, BPF_IMM, BPF_LEN]) ∨
      (bpfClass code = BPF_ALU ∧ bpfOp code ∈ [BPF_ADD, BPF_SUB, BPF_MUL, BPF_OR, BPF_XOR, BPF_AND, BPF_LSH, BPF_RSH, BPF_NEG]) ∨
      (bpfClass code = BPF_ALU ∧ bpfOp code ∈ [BPF_DIV, BPF_MOD] ∧ bpfSrc code ≠ BPF_K) ∨
      (bpfClass code = BPF_MISC ∧ ¬(bpfMiscop code = BPF_COP ∨ bpfMiscop code = BPF_COPX))
  | .read => (bpfClass code = BPF_LD ∨ bpfClass code = BPF_LDX) ∧ bpfMode code = BPF_MEM
  | .write => bpfClass code = BPF_ST ∨ bpfClass code = BPF_STX
  | .ja => bpfClass code = BPF_JMP ∧ bpfOp code = BPF_JA
  | .jmp => bpfClass code = BPF_JMP ∧ bpfOp code ∈ [BPF_JEQ, BPF_JGT, BPF_JGE, BPF_JSET]
  | .div => bpfClass code = BPF_ALU ∧ bpfOp code ∈ [BPF_DIV, BPF_MOD] ∧ bpfSrc code = BPF_K
  | .cop true => bpfClass code = BPF_MISC ∧ bpfMiscop code = BPF_COP
  | .cop false => bpfClass code = BPF_MISC ∧ bpfMiscop code = BPF_COPX
  | .ret => bpfClass code = BPF_RET

instance (code : BitVec 16) : DecidablePred (Kind.Has code)
  | .plain => inferInstanceAs (Decidable (_ ∨ _))
  | .read | .ja | .jmp | .div | .cop true | .cop false => inferInstanceAs (Decidable (_ ∧ _))
  | .write => inferInstanceAs (Decidable (_ ∨ _))
  | .ret => inferInstanceAs (Decidable (_ = _))

theorem decode_has {code : BitVec 16} {op : Op} (h : decode code = some op) : op.kind.Has code := by
  have hall : ∀ e ∈ opcodes, e.2.kind.Has e.1 := by decide
  exact hall _ (decode_mem h)

section Check
variable {σ : Type*} {bc : Option (Ctx σ)} {len i : Nat} {p : Insn} {invalid : Word} {mem : Nat → Word}

theorem divs_apart {c : BitVec 16} (h : c ∈ [BPF_DIV, BPF_MOD]) :
    c ∉ [BPF_ADD, BPF_SUB, BPF_MUL, BPF_OR, BPF_XOR, BPF_AND, BPF_LSH, BPF_RSH, BPF_NEG] := by
  obtain rfl | rfl := mem_pair.mp h <;> decide

/-- The pass by kinds. -/
def checkKind (bc : Option (Ctx σ)) (len i : Nat) (p : Insn) (invalid : Word) (mem : Nat → Word) :
    Kind → Option (Word × (Nat → Word))
  | .plain | .ret => some (invalid, mem)
  | .read =>
    if p.k.toNat ≥ memwords bc then none
    else if invalid &&& memwordInit p.k.toNat ≠ 0 then none
    else some (invalid, mem)
  | .write => if p.k.toNat ≥ memwords bc then none else some (invalid &&& ~~~memwordInit p.k.toNat, mem)
  | .ja =>
    if (i + 1 + p.k.toNat) % 2 ^ 32 ≥ len then none
    else if (i + 1 + p.k.toNat) % 2 ^ 32 < i + 1 then none
    else some (0, mark mem ((i + 1 + p.k.toNat) % 2 ^ 32) invalid)
  | .jmp =>
    if i + 1 + p.jt.toNat ≥ len ∨ i + 1 + p.jf.toNat ≥ len then none
    else some (0, mark (mark mem (i + 1 + p.jt.toNat) invalid) (i + 1 + p.jf.toNat) invalid)
  | .div => if p.k = 0 then none else some (invalid, mem)
  | .cop fixed =>
    match bc with
    | none => none
    | some bc =>
      if bc.copfuncs.isNone then none
      else if fixed ∧ p.k.toNat ≥ bc.nfuncs then none
      else some (invalid, mem)

theorem check_plain (h : Kind.plain.Has p.code) : check bc len i p invalid mem = some (invalid, mem) := by
  unfold check
  obtain ⟨hc, hm⟩ | ⟨hc, ho⟩ | ⟨hc, ho, hs⟩ | ⟨hc, hm⟩ := h
  · have hmem : bpfMode p.code ≠ BPF_MEM := by
      intro heq
      rw [heq] at hm
      exact absurd hm (by decide)
    rw [if_pos hc, if_neg hmem, if_pos hm]
  · rw [hc, if_neg (by decide), if_neg (by decide), if_pos rfl, if_pos ho]
  · rw [hc, if_neg (by decide), if_neg (by decide), if_pos rfl, if_neg (divs_apart ho), if_pos ho, if_neg (fun h => hs h.1)]
  · rw [hc, if_neg (by decide), if_neg (by decide), if_neg (by decide), if_neg (by decide), if_neg (by decide), if_neg hm]

theorem check_ret (h : Kind.ret.Has p.code) : check bc len i p invalid mem = some (invalid, mem) := by
  unfold check
  rw [show bpfClass p.code = BPF_RET from h, if_neg (by decide), if_neg (by decide), if_neg (by decide), if_neg (by decide), if_pos rfl]

theorem check_read (h : Kind.read.Has p.code) : check bc len i p invalid mem = checkKind bc len i p invalid mem .read := by
  unfold check checkKind
  rw [if_pos h.1, if_pos h.2]

theorem check_write (h : Kind.write.Has p.code) : check bc len i p invalid mem = checkKind bc len i p invalid mem .write := by
  unfold check checkKind
  have hld : ¬(bpfClass p.code = BPF_LD ∨ bpfClass p.code = BPF_LDX) := by
    obtain hc | hc := h <;> rw [hc] <;> decide
  rw [if_neg hld, if_pos (show _ ∨ _ from h)]

theorem check_ja (h : Kind.ja.Has p.code) : check bc len i p invalid mem = checkKind bc len i p invalid mem .ja := by
  unfold check checkKind
  rw [h.1, if_neg (by decide), if_neg (by decide), if_neg (by decide), if_pos rfl]
  rw [if_pos h.2]

theorem check_jmp (h : Kind.jmp.Has p.code) : check bc len i p invalid mem = checkKind bc len i p invalid mem .jmp := by
  unfold check checkKind
  have hja : bpfOp p.code ≠ BPF_JA := by
    intro heq
    have hmem := h.2
    rw [heq] at hmem
    exact absurd hmem (by decide)
  rw [h.1, if_neg (by decide), if_neg (by decide), if_neg (by decide), if_pos rfl]
  rw [if_neg hja, if_pos h.2]

theorem check_div (h : Kind.div.Has p.code) : check bc len i p invalid mem = checkKind bc len i p invalid mem .div := by
  unfold check checkKind
  rw [h.1, if_neg (by decide), if_neg (by decide), if_neg (divs_apart h.2.1), if_pos h.2.1, h.2.2]
  simp

theorem check_cop {fixed : Bool} (h : (Kind.cop fixed).Has p.code) :
    check bc len i p invalid mem = checkKind bc len i p invalid mem (.cop fixed) := by
  unfold check checkKind
  cases fixed with
  | true =>
    rw [h.1, if_neg (by decide), if_neg (by decide), if_neg (by decide), if_neg (by decide), if_neg (by decide), h.2]
    cases bc with
    | none => rfl
    | some bc => simp
  | false =>
    have hne : BPF_COPX ≠ BPF_COP := by decide
    rw [h.1, if_neg (by decide), if_neg (by decide), if_neg (by decide), if_neg (by decide), if_neg (by decide), h.2]
    cases bc with
    | none => rfl
    | some bc => simp [hne, false_and, Bool.false_eq_true]

end Check

/-! ### Masks for the instructions -/

/-- Where the interpreter goes from instruction `i`. -/
def Op.targets (i : Nat) (p : Insn) : Op → List Nat
  | .retK | .retA => []
  | .ja => [i + 1 + p.k.toNat]
  | .jmp _ _ => [i + 1 + p.jt.toNat, i + 1 + p.jf.toNat]
  | _ => [i + 1]

def Op.reads (p : Insn) : Op → Option Nat
  | .ldMem | .ldxMem => some p.k.toNat
  | _ => none

def Op.writes (p : Insn) : Op → Option Nat
  | .st | .stx => some p.k.toNat
  | _ => none

/-- Every bit of `a` is one of `b`. -/
def Sub (a b : Word) : Prop := ∀ j, a.getLsbD j = true → b.getLsbD j = true

theorem Sub.trans {a b c : Word} (hab : Sub a b) (hbc : Sub b c) : Sub a c := fun j hj => hbc j (hab j hj)

theorem sub_or_left (a b : Word) : Sub a (a ||| b) := fun j hj => by rw [BitVec.getLsbD_or, hj, Bool.true_or]

theorem sub_or_right (a b : Word) : Sub b (a ||| b) := fun j hj => by rw [BitVec.getLsbD_or, hj, Bool.or_true]

section Typed
variable {σ : Type*} {bc : Option (Ctx σ)} {len i : Nat} {p : Insn} {op : Op}

/-- The masks fit together at instruction `i`. -/
structure FlowOk (bc : Option (Ctx σ)) (len : Nat) (inv : Nat → Word) (i : Nat) (p : Insn) (op : Op) : Prop where
  read : ∀ k ∈ op.reads p, k < memwords bc ∧ (inv i).getLsbD k = false
  write : ∀ k ∈ op.writes p, k < memwords bc
  jump : ∀ t ∈ op.targets i p, t = i + 1 ∨ t < len
  flow : ∀ t ∈ op.targets i p, t < len → ∀ j, (inv i).getLsbD j = true → op.writes p ≠ some j → (inv t).getLsbD j = true
  div : op.kind = .div → p.k ≠ 0
  cop : ∀ fixed, op.kind = .cop fixed → ∃ b funcs, bc = some b ∧ b.copfuncs = some funcs

structure Typed (bc : Option (Ctx σ)) (prog : List Insn) (inv : Nat → Word) : Prop where
  start : Sub (~~~preinited bc) (inv 0)
  flow : ∀ i p op, prog[i]? = some p → decode p.code = some op → FlowOk bc prog.length inv i p op
  last : ∃ p op, prog[prog.length - 1]? = some p ∧ decode p.code = some op ∧ op.kind = .ret

theorem sub_mark (mem : Nat → Word) (i : Nat) (invalid : Word) (j : Nat) : Sub (mem j) (mark mem i invalid j) := by
  intro b hb
  rw [mark]
  by_cases hj : j = i
  · subst hj
    rw [update_self]
    exact sub_or_left _ _ b hb
  · rw [update_of_ne hj]
    exact hb

theorem sub_marked (mem : Nat → Word) (i : Nat) (invalid : Word) : Sub invalid (mark mem i invalid i) := by
  rw [mark, update_self]
  exact sub_or_right _ _

/-- What one round leaves for the instructions behind. -/
structure Handed (bc : Option (Ctx σ)) (len i : Nat) (p : Insn) (op : Op) (invalid : Word) (mem : Nat → Word) (r : Word × (Nat → Word)) :
    Prop where
  grows : ∀ j, Sub (mem j) (r.2 j)
  read : ∀ k ∈ op.reads p, k < memwords bc ∧ invalid &&& memwordInit k = 0
  write : ∀ k ∈ op.writes p, k < memwords bc
  next : ∀ t ∈ op.targets i p, (t = i + 1 ∧ Sub (invalid &&& ~~~(op.writes p).elim 0 memwordInit) r.1) ∨
    (i + 1 ≤ t ∧ t < len ∧ Sub invalid (r.2 t))
  div : op.kind = .div → p.k ≠ 0
  cop : ∀ fixed, op.kind = .cop fixed → ∃ b funcs, bc = some b ∧ b.copfuncs = some funcs

section Targets
attribute [local simp] Op.kind

theorem Op.targets_plain (h : op.kind = .plain ∨ op.kind = .read ∨ op.kind = .write ∨ op.kind = .div ∨ ∃ fixed, op.kind = .cop fixed) :
    op.targets i p = [i + 1] := by
  revert h
  cases op with
  | alu a src => cases a <;> cases src <;> simp [Op.targets]
  | _ => simp [Op.targets]

theorem Op.reads_eq : op.reads p = if op.kind = .read then some p.k.toNat else none := by
  cases op with
  | alu a src => cases a <;> cases src <;> rfl
  | _ => rfl

theorem Op.writes_eq : op.writes p = if op.kind = .write then some p.k.toNat else none := by
  cases op with
  | alu a src => cases a <;> cases src <;> rfl
  | _ => rfl

theorem Op.targets_ja (h : op.kind = .ja) : op.targets i p = [i + 1 + p.k.toNat] := by
  revert h
  cases op with
  | alu a src => cases a <;> cases src <;> simp
  | _ => simp [Op.targets]

theorem Op.targets_jmp (h : op.kind = .jmp) : op.targets i p = [i + 1 + p.jt.toNat, i + 1 + p.jf.toNat] := by
  revert h
  cases op with
  | alu a src => cases a <;> cases src <;> simp
  | _ => simp [Op.targets]

theorem Op.targets_ret (h : op.kind = .ret) : op.targets i p = [] := by
  revert h
  cases op with
  | alu a src => cases a <;> cases src <;> simp
  | _ => simp [Op.targets]

end Targets

section Handed
variable {invalid : Word} {mem : Nat → Word} {r : Word × (Nat → Word)}

theorem handed_plain (hr : r = (invalid, mem)) (hread : op.kind ≠ .read) (hwrite : op.kind ≠ .write)
    (htargets : ∀ t ∈ op.targets i p, t = i + 1) (hdiv : op.kind = .div → p.k ≠ 0)
    (hcop : ∀ fixed, op.kind = .cop fixed → ∃ b funcs, bc = some b ∧ b.copfuncs = some funcs) :
    Handed bc len i p op invalid mem r := by
  subst hr
  refine ⟨fun j b hb => hb, ?_, ?_, ?_, hdiv, hcop⟩
  · rw [Op.reads_eq, if_neg hread]
    nofun
  · rw [Op.writes_eq, if_neg hwrite]
    nofun
  intro t ht
  refine .inl ⟨htargets t ht, ?_⟩
  intro b hb
  rw [BitVec.getLsbD_and] at hb
  exact (Bool.and_eq_true_iff.mp hb).1

theorem check_handed (hop : decode p.code = some op) (hi : i < 2 ^ 31) (h : check bc len i p invalid mem = some r) :
    Handed bc len i p op invalid mem r := by
  have hhas := decode_has hop
  cases hk : op.kind with
  | plain =>
    rw [hk] at hhas
    rw [check_plain hhas] at h
    exact handed_plain (some.inj h).symm (by simp [hk]) (by simp [hk])
      (by rw [Op.targets_plain (.inl hk)]; simp) (by simp [hk]) (by simp [hk])
  | ret =>
    rw [hk] at hhas
    rw [check_ret hhas] at h
    exact handed_plain (some.inj h).symm (by simp [hk]) (by simp [hk]) (by rw [Op.targets_ret hk]; simp) (by simp [hk])
      (by simp [hk])
  | read =>
    rw [hk] at hhas
    rw [check_read hhas, checkKind] at h
    split at h
    · exact absurd h (by simp)
    · next hlt =>
      split at h
      · exact absurd h (by simp)
      · next hinv =>
        obtain rfl := some.inj h
        refine ⟨fun j b hb => hb, ?_, ?_, ?_, by simp [hk], by simp [hk]⟩
        · rw [Op.reads_eq, if_pos hk]
          rintro k ⟨⟩
          exact ⟨Nat.lt_of_not_le hlt, not_not.mp hinv⟩
        · rw [Op.writes_eq, if_neg (by simp [hk])]
          nofun
        rw [Op.targets_plain (.inr (.inl hk)), Op.writes_eq, if_neg (by simp [hk])]
        intro t ht
        refine .inl ⟨mem_singleton.mp ht, ?_⟩
        intro b hb
        rw [BitVec.getLsbD_and] at hb
        exact (Bool.and_eq_true_iff.mp hb).1
  | write =>
    rw [hk] at hhas
    rw [check_write hhas, checkKind] at h
    split at h
    · exact absurd h (by simp)
    · next hlt =>
      obtain rfl := some.inj h
      refine ⟨fun j b hb => hb, ?_, ?_, ?_, by simp [hk], by simp [hk]⟩
      · rw [Op.reads_eq, if_neg (by simp [hk])]
        nofun
      · rw [Op.writes_eq, if_pos hk]
        rintro k ⟨⟩
        exact Nat.lt_of_not_le hlt
      · rw [Op.targets_plain (.inr (.inr (.inl hk))), Op.writes_eq, if_pos hk]
        intro t ht
        exact .inl ⟨mem_singleton.mp ht, fun b hb => hb⟩
  | ja =>
    rw [hk] at hhas
    rw [check_ja hhas, checkKind] at h
    split at h
    · exact absurd h (by simp)
    · next hlt =>
      split at h
      · exact absurd h (by simp)
      · next hge =>
        obtain rfl := some.inj h
        -- A sum that wraps is below the index it started from.
        have hsum : (i + 1 + p.k.toNat) % 2 ^ 32 = i + 1 + p.k.toNat := by
          have := p.k.isLt
          omega
        rw [hsum] at hlt hge ⊢
        refine ⟨sub_mark _ _ _, ?_, ?_, ?_, by simp [hk], by simp [hk]⟩
        · rw [Op.reads_eq, if_neg (by simp [hk])]
          nofun
        · rw [Op.writes_eq, if_neg (by simp [hk])]
          nofun
        rw [Op.targets_ja hk]
        intro t ht
        obtain rfl := mem_singleton.mp ht
        exact .inr ⟨by omega, by omega, sub_marked _ _ _⟩
  | jmp =>
    rw [hk] at hhas
    rw [check_jmp hhas, checkKind] at h
    split at h
    · exact absurd h (by simp)
    · next hlt =>
      obtain rfl := some.inj h
      refine ⟨fun j => (sub_mark _ _ _ j).trans (sub_mark _ _ _ j), ?_, ?_, ?_, by simp [hk], by simp [hk]⟩
      · rw [Op.reads_eq, if_neg (by simp [hk])]
        nofun
      · rw [Op.writes_eq, if_neg (by simp [hk])]
        nofun
      rw [Op.targets_jmp hk]
      intro t ht
      obtain rfl | rfl := mem_pair.mp ht
      · exact .inr ⟨by omega, by omega, (sub_marked _ _ _).trans (sub_mark _ _ _ _)⟩
      · exact .inr ⟨by omega, by omega, sub_marked _ _ _⟩
  | div =>
    rw [hk] at hhas
    rw [check_div hhas, checkKind] at h
    split at h
    · exact absurd h (by simp)
    · next hne =>
      exact handed_plain (some.inj h).symm (by simp [hk]) (by simp [hk])
        (by rw [Op.targets_plain (.inr (.inr (.inr (.inl hk))))]; simp) (fun _ => hne) (by simp [hk])
  | cop fixed =>
    rw [hk] at hhas
    rw [check_cop hhas] at h
    cases bc with
    | none => exact absurd h (by simp [checkKind])
    | some b =>
      rw [checkKind] at h
      split at h
      · exact absurd h (by simp)
      · next hfuncs =>
        split at h
        · exact absurd h (by simp)
        refine handed_plain (some.inj h).symm (by simp [hk]) (by simp [hk])
          (by rw [Op.targets_plain (.inr (.inr (.inr (.inr ⟨fixed, hk⟩))))]; simp) (by simp [hk]) ?_
        intro _ _
        rw [isNone_iff_eq_none] at hfuncs
        obtain ⟨funcs, hf⟩ := ne_none_iff_exists'.mp hfuncs
        exact ⟨b, funcs, rfl, hf⟩

theorem check_grows (h : check bc len i p invalid mem = some r) (j : Nat) : Sub (mem j) (r.2 j) := by
  have hsame : ∀ {w : Word}, some (w, mem) = some r → Sub (mem j) (r.2 j) := by
    intro w heq
    obtain rfl := some.inj heq
    exact fun _ hb => hb
  unfold check at h
  split at h
  · split at h
    · split at h
      · exact absurd h (by simp)
      split at h
      · exact absurd h (by simp)
      · exact hsame h
    · split at h
      · exact hsame h
      · exact absurd h (by simp)
  split at h
  · split at h
    · exact absurd h (by simp)
    · exact hsame h
  split at h
  · split at h
    · exact hsame h
    split at h
    · split at h
      · exact absurd h (by simp)
      · exact hsame h
    · exact absurd h (by simp)
  split at h
  · dsimp only at h
    split at h
    · split at h
      · exact absurd h (by simp)
      split at h
      · exact absurd h (by simp)
      · obtain rfl := some.inj h
        exact sub_mark _ _ _ j
    split at h
    · split at h
      · exact absurd h (by simp)
      · obtain rfl := some.inj h
        exact (sub_mark _ _ _ j).trans (sub_mark _ _ _ j)
    · exact absurd h (by simp)
  · split at h
    · exact hsame h
    split at h
    · cases bc with
      | none => exact absurd h (by simp)
      | some b =>
        dsimp only at h
        split at h
        · exact absurd h (by simp)
        split at h
        · exact absurd h (by simp)
        · exact hsame h
    · exact hsame h

end Handed

theorem memwords_le (hbc : ∀ b ∈ bc, b.Ok) : memwords bc ≤ 30 := by
  rw [memwords]
  cases bc with
  | none => exact Nat.le_of_ble_eq_true rfl
  | some b =>
    have hle : b.extwords ≤ 30 := (hbc b rfl).1
    split
    · exact hle
    · decide

theorem getLsbD_memwordInit {k : Nat} (hk : k < 32) (j : Nat) : (memwordInit k).getLsbD j = decide (j = k) := getLsbD_one_shiftLeft hk

theorem getLsbD_unwritten {w : Option Nat} {b : Nat} (hb : b < 32) (hw : ∀ k ∈ w, k < 32) (hne : w ≠ some b) :
    (~~~w.elim 0 memwordInit).getLsbD b = true := by
  rw [BitVec.getLsbD_not, decide_eq_true hb, Bool.true_and]
  cases w with
  | none =>
    show (!(0#32).getLsbD b) = true
    rw [BitVec.getLsbD_zero, Bool.not_false]
  | some k =>
    have hbk : b ≠ k := fun heq => hne (heq ▸ rfl)
    rw [elim_some, getLsbD_memwordInit (hw k rfl), decide_eq_false hbk, Bool.not_false]

theorem checkFrom_flow (hbc : ∀ b ∈ bc, b.Ok) (hlen : len ≤ BPF_MAXINSNS) (insns : List Insn) (i : Nat) (invalid : Word) (mem : Nat → Word)
    (hi : i + insns.length = len) (h : checkFrom bc len i insns invalid mem = true) :
    ∃ inv : Nat → Word, Sub invalid (inv i) ∧ (∀ j, i ≤ j → Sub (mem j) (inv j)) ∧
      ∀ j p op, insns[j]? = some p → decode p.code = some op → FlowOk bc len inv (i + j) p op := by
  induction insns generalizing i invalid mem with
  | nil => exact ⟨fun j => invalid ||| mem j, sub_or_left _ _, fun j _ => sub_or_right _ _, by simp⟩
  | cons p rest ih =>
    rw [length_cons] at hi
    have hmax : BPF_MAXINSNS = 512 := rfl
    rw [checkFrom] at h
    cases hc : check bc len i p (invalid ||| mem i) mem with
    | none =>
      rw [hc] at h
      exact absurd h (by simp)
    | some r =>
      rw [hc] at h
      obtain ⟨inv, hstart, hmem, hflow⟩ := ih (i + 1) r.1 r.2 (by omega) h
      have hgrows := check_grows hc
      refine ⟨update inv i (invalid ||| mem i), ?_, ?_, ?_⟩
      · rw [update_self]
        exact sub_or_left _ _
      · intro j hj
        by_cases heq : j = i
        · rw [heq, update_self]
          exact sub_or_right _ _
        · rw [update_of_ne heq]
          exact (hgrows j).trans (hmem j (by omega))
      intro j q op hq hop
      cases j with
      | zero =>
        obtain rfl := some.inj hq
        have hh := check_handed hop (by omega) hc
        rw [add_zero]
        refine ⟨?_, hh.write, ?_, ?_, hh.div, hh.cop⟩
        · intro k hk
          obtain ⟨hlt, hzero⟩ := hh.read k hk
          have hk32 : k < 32 := by
            have := memwords_le hbc
            omega
          refine ⟨hlt, ?_⟩
          have hbit := congrArg (fun w => w.getLsbD k) hzero
          simp only [BitVec.getLsbD_and, getLsbD_memwordInit hk32, decide_true, Bool.and_true] at hbit
          rw [update_self, hbit]
          exact BitVec.getLsbD_zero
        · intro t ht
          obtain ⟨ht', -⟩ | ⟨-, hlt, -⟩ := hh.next t ht
          · exact .inl ht'
          · exact .inr hlt
        intro t ht hlt b hb hne
        rw [update_self] at hb
        obtain ⟨rfl, hsub⟩ | ⟨hle, -, hsub⟩ := hh.next t ht
        · rw [update_of_ne (by omega)]
          apply hstart
          apply hsub
          rw [BitVec.getLsbD_and, hb]
          refine getLsbD_unwritten (BitVec.lt_of_getLsbD hb) ?_ hne
          intro k hk
          have := memwords_le hbc
          have := hh.write k hk
          omega
        · rw [update_of_ne (by omega)]
          exact hmem t hle b (hsub b hb)
      | succ j =>
        have hok := hflow j q op hq hop
        rw [show i + 1 + j = i + (j + 1) by omega] at hok
        -- Masks behind `i` are asked for only.
        have hne : ∀ t ∈ op.targets (i + (j + 1)) q, t ≠ i := by
          intro t ht
          have hge : i + (j + 1) + 1 ≤ t := by
            revert ht
            cases op <;> simp only [Op.targets, mem_cons, not_mem_nil, or_false, false_imp_iff] <;> omega
          omega
        have hself : update inv i (invalid ||| mem i) (i + (j + 1)) = inv (i + (j + 1)) :=
          update_of_ne (by omega) _ _
        refine ⟨?_, hok.write, hok.jump, ?_, hok.div, hok.cop⟩
        · rw [hself]
          exact hok.read
        intro t ht
        rw [hself, update_of_ne (hne t ht)]
        exact hok.flow t ht

theorem validated_typed {prog : List Insn} (hbc : ∀ b ∈ bc, b.Ok) (h : bpfValidateExt bc prog = true) : ∃ inv, Typed bc prog inv := by
  rw [bpfValidateExt] at h
  split at h
  · exact absurd h (by simp)
  · next hpos =>
    split at h
    · exact absurd h (by simp)
    · next hlen =>
      split at h
      · exact absurd h (by simp)
      · next last hlast =>
        split at h
        · exact absurd h (by simp)
        · next hcode =>
          obtain ⟨inv, hstart, -, hflow⟩ := checkFrom_flow hbc (Nat.le_of_not_lt hlen) prog 0 _ _ (zero_add _) h
          refine ⟨inv, hstart, ?_, ?_⟩
          · intro i p op hp hop
            have hok := hflow i p op hp hop
            rwa [zero_add] at hok
          rw [getLast?_eq_getElem?] at hlast
          have hret : last.code = BPF_RET ||| BPF_K ∨ last.code = BPF_RET ||| BPF_A := by
            by_contra hnot
            exact hcode (not_or.mp hnot)
          obtain hc | hc := hret
          · exact ⟨last, .retK, hlast, by rw [hc]; decide, rfl⟩
          · exact ⟨last, .retA, hlast, by rw [hc]; decide, rfl⟩

end Typed

end NetBSD.Net.Bpf
