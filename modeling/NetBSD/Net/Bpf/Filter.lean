import NetBSD.Lib.Words
import Mathlib.Logic.Function.Basic

/-! The packet filter machine: its instructions, the interpreter and the validator.

`decode` lists the cases of the interpreter's switch; every other code is its default. A word of the
scratch memory that was never written is `none`. Reading one, an index out of an array, a division by
zero, a call through a null pointer and running out of the program are faults: what the C program would
do is undefined there. The lengths are 64 bits wide, so the sums of the bounds checks do not wrap. -/
namespace NetBSD.Net.Bpf
open Function
open Lib

abbrev Byte := BitVec 8

structure Insn where
  code : BitVec 16
  jt : Byte
  jf : Byte
  k : Word

/-! ### Codes -/

def BPF_LD : BitVec 16 := 0x00
def BPF_LDX : BitVec 16 := 0x01
def BPF_ST : BitVec 16 := 0x02
def BPF_STX : BitVec 16 := 0x03
def BPF_ALU : BitVec 16 := 0x04
def BPF_JMP : BitVec 16 := 0x05
def BPF_RET : BitVec 16 := 0x06
def BPF_MISC : BitVec 16 := 0x07

def BPF_W : BitVec 16 := 0x00
def BPF_H : BitVec 16 := 0x08
def BPF_B : BitVec 16 := 0x10

def BPF_IMM : BitVec 16 := 0x00
def BPF_ABS : BitVec 16 := 0x20
def BPF_IND : BitVec 16 := 0x40
def BPF_MEM : BitVec 16 := 0x60
def BPF_LEN : BitVec 16 := 0x80
def BPF_MSH : BitVec 16 := 0xa0

def BPF_ADD : BitVec 16 := 0x00
def BPF_SUB : BitVec 16 := 0x10
def BPF_MUL : BitVec 16 := 0x20
def BPF_DIV : BitVec 16 := 0x30
def BPF_OR : BitVec 16 := 0x40
def BPF_AND : BitVec 16 := 0x50
def BPF_LSH : BitVec 16 := 0x60
def BPF_RSH : BitVec 16 := 0x70
def BPF_NEG : BitVec 16 := 0x80
def BPF_MOD : BitVec 16 := 0x90
def BPF_XOR : BitVec 16 := 0xa0

def BPF_JA : BitVec 16 := 0x00
def BPF_JEQ : BitVec 16 := 0x10
def BPF_JGT : BitVec 16 := 0x20
def BPF_JGE : BitVec 16 := 0x30
def BPF_JSET : BitVec 16 := 0x40

def BPF_K : BitVec 16 := 0x00
def BPF_X : BitVec 16 := 0x08
def BPF_A : BitVec 16 := 0x10

def BPF_TAX : BitVec 16 := 0x00
def BPF_COP : BitVec 16 := 0x20
def BPF_COPX : BitVec 16 := 0x40
def BPF_TXA : BitVec 16 := 0x80

def bpfClass (code : BitVec 16) : BitVec 16 := code &&& 0x07
def bpfMode (code : BitVec 16) : BitVec 16 := code &&& 0xe0
def bpfOp (code : BitVec 16) : BitVec 16 := code &&& 0xf0
def bpfSrc (code : BitVec 16) : BitVec 16 := code &&& 0x08
def bpfMiscop (code : BitVec 16) : BitVec 16 := code &&& 0xf8

def BPF_MAXINSNS : Nat := 512
def BPF_MEMWORDS : Nat := 16
def BPF_MAX_MEMWORDS : Nat := 30

inductive Width where
  | W
  | H
  | B
  deriving DecidableEq

def Width.bytes : Width → Nat
  | .W => 4
  | .H => 2
  | .B => 1

inductive Src where
  | K
  | X
  deriving DecidableEq

inductive Cond where
  | JEQ
  | JGT
  | JGE
  | JSET
  deriving DecidableEq

inductive Alu where
  | ADD
  | SUB
  | MUL
  | DIV
  | MOD
  | AND
  | OR
  | XOR
  | LSH
  | RSH
  deriving DecidableEq

inductive Op where
  | retK
  | retA
  | ldAbs (w : Width)
  | ldLen
  | ldxLen
  | ldInd (w : Width)
  | ldxMsh
  | ldImm
  | ldxImm
  | ldMem
  | ldxMem
  | st
  | stx
  | ja
  | jmp (c : Cond) (src : Src)
  | alu (op : Alu) (src : Src)
  | neg
  | tax
  | txa
  | cop
  | copx
  deriving DecidableEq

/-- The cases of the switch. -/
def opcodes : List (BitVec 16 × Op) :=
  [(BPF_RET ||| BPF_K, .retK), (BPF_RET ||| BPF_A, .retA),
    (BPF_LD ||| BPF_W ||| BPF_ABS, .ldAbs .W), (BPF_LD ||| BPF_H ||| BPF_ABS, .ldAbs .H), (BPF_LD ||| BPF_B ||| BPF_ABS, .ldAbs .B),
    (BPF_LD ||| BPF_W ||| BPF_LEN, .ldLen), (BPF_LDX ||| BPF_W ||| BPF_LEN, .ldxLen),
    (BPF_LD ||| BPF_W ||| BPF_IND, .ldInd .W), (BPF_LD ||| BPF_H ||| BPF_IND, .ldInd .H), (BPF_LD ||| BPF_B ||| BPF_IND, .ldInd .B),
    (BPF_LDX ||| BPF_MSH ||| BPF_B, .ldxMsh), (BPF_LD ||| BPF_IMM, .ldImm), (BPF_LDX ||| BPF_IMM, .ldxImm),
    (BPF_LD ||| BPF_MEM, .ldMem), (BPF_LDX ||| BPF_MEM, .ldxMem), (BPF_ST, .st), (BPF_STX, .stx), (BPF_JMP ||| BPF_JA, .ja),
    (BPF_JMP ||| BPF_JGT ||| BPF_K, .jmp .JGT .K), (BPF_JMP ||| BPF_JGE ||| BPF_K, .jmp .JGE .K),
    (BPF_JMP ||| BPF_JEQ ||| BPF_K, .jmp .JEQ .K), (BPF_JMP ||| BPF_JSET ||| BPF_K, .jmp .JSET .K),
    (BPF_JMP ||| BPF_JGT ||| BPF_X, .jmp .JGT .X), (BPF_JMP ||| BPF_JGE ||| BPF_X, .jmp .JGE .X),
    (BPF_JMP ||| BPF_JEQ ||| BPF_X, .jmp .JEQ .X), (BPF_JMP ||| BPF_JSET ||| BPF_X, .jmp .JSET .X),
    (BPF_ALU ||| BPF_ADD ||| BPF_X, .alu .ADD .X), (BPF_ALU ||| BPF_SUB ||| BPF_X, .alu .SUB .X),
    (BPF_ALU ||| BPF_MUL ||| BPF_X, .alu .MUL .X), (BPF_ALU ||| BPF_DIV ||| BPF_X, .alu .DIV .X),
    (BPF_ALU ||| BPF_MOD ||| BPF_X, .alu .MOD .X), (BPF_ALU ||| BPF_AND ||| BPF_X, .alu .AND .X),
    (BPF_ALU ||| BPF_OR ||| BPF_X, .alu .OR .X), (BPF_ALU ||| BPF_XOR ||| BPF_X, .alu .XOR .X),
    (BPF_ALU ||| BPF_LSH ||| BPF_X, .alu .LSH .X), (BPF_ALU ||| BPF_RSH ||| BPF_X, .alu .RSH .X),
    (BPF_ALU ||| BPF_ADD ||| BPF_K, .alu .ADD .K), (BPF_ALU ||| BPF_SUB ||| BPF_K, .alu .SUB .K),
    (BPF_ALU ||| BPF_MUL ||| BPF_K, .alu .MUL .K), (BPF_ALU ||| BPF_DIV ||| BPF_K, .alu .DIV .K),
    (BPF_ALU ||| BPF_MOD ||| BPF_K, .alu .MOD .K), (BPF_ALU ||| BPF_AND ||| BPF_K, .alu .AND .K),
    (BPF_ALU ||| BPF_OR ||| BPF_K, .alu .OR .K), (BPF_ALU ||| BPF_XOR ||| BPF_K, .alu .XOR .K),
    (BPF_ALU ||| BPF_LSH ||| BPF_K, .alu .LSH .K), (BPF_ALU ||| BPF_RSH ||| BPF_K, .alu .RSH .K),
    (BPF_ALU ||| BPF_NEG, .neg), (BPF_MISC ||| BPF_TAX, .tax), (BPF_MISC ||| BPF_TXA, .txa),
    (BPF_MISC ||| BPF_COP, .cop), (BPF_MISC ||| BPF_COPX, .copx)]

def decode (code : BitVec 16) : Option Op := (opcodes.find? fun e => e.1 = code).map Prod.snd

/-! ### Packets -/

/-- `beyond` is what stands in memory behind the data. -/
structure Mbuf where
  data : List Byte
  beyond : Nat → Byte

def Mbuf.at (m : Mbuf) (i : Nat) : Byte := m.data.getD i (m.beyond (i - m.data.length))

inductive Pkt where
  | flat (bytes : List Byte)
  | chain (m : List Mbuf)

structure Args where
  pkt : Pkt
  wirelen : Nat

/-- Zero says that the packet is a chain. -/
def Args.buflen (args : Args) : Nat :=
  match args.pkt with
  | .flat bytes => bytes.length
  | .chain _ => 0

def be32dec (a b c d : Byte) : Word := a.setWidth 32 <<< 24 ||| b.setWidth 32 <<< 16 ||| c.setWidth 32 <<< 8 ||| d.setWidth 32

def be16dec (a b : Byte) : Word := a.setWidth 32 <<< 8 ||| b.setWidth 32

/-- MINDEX: the mbuf with byte `k`, the place in it, and what comes behind it. -/
def mindex : List Mbuf → Nat → Option (Mbuf × Nat × List Mbuf)
  | [], _ => none
  | m :: rest, k => if k ≥ m.data.length then mindex rest (k - m.data.length) else some (m, k, rest)

def mXword (m : List Mbuf) (k : Nat) : Option Word :=
  (mindex m k).bind fun (m, k, rest) =>
    let len := m.data.length
    if len - k ≥ 4 then some (be32dec (m.at k) (m.at (k + 1)) (m.at (k + 2)) (m.at (k + 3)))
    else match rest with
      | [] => none
      | m0 :: _ =>
        if (len - k) + m0.data.length < 4 then none
        else match len - k with
          | 1 => some (be32dec (m.at k) (m0.at 0) (m0.at 1) (m0.at 2))
          | 2 => some (be32dec (m.at k) (m.at (k + 1)) (m0.at 0) (m0.at 1))
          | _ => some (be32dec (m.at k) (m.at (k + 1)) (m.at (k + 2)) (m0.at 0))

def mXhalf (m : List Mbuf) (k : Nat) : Option Word :=
  (mindex m k).bind fun (m, k, rest) =>
    if m.data.length - k ≥ 2 then some (be16dec (m.at k) (m.at (k + 1)))
    else match rest with
      | [] => none
      | m0 :: _ => some (be16dec (m.at k) (m0.at 0))

def mXbyte (m : List Mbuf) (k : Nat) : Option Word := (mindex m k).map fun (m, k, _) => (m.at k).setWidth 32

def xload (w : Width) (m : List Mbuf) (k : Nat) : Option Word :=
  match w with
  | .W => mXword m k
  | .H => mXhalf m k
  | .B => mXbyte m k

/-- EXTRACT_LONG, EXTRACT_SHORT or the byte at `k`. -/
def extract (w : Width) (bytes : List Byte) (k : Nat) : Option Word :=
  match w with
  | .W => do return be32dec (← bytes[k]?) (← bytes[k + 1]?) (← bytes[k + 2]?) (← bytes[k + 3]?)
  | .H => do return be16dec (← bytes[k]?) (← bytes[k + 1]?)
  | .B => do return (← bytes[k]?).setWidth 32

/-- What a load gives: a value, the answer 0 of the whole program, or a read out of bounds. -/
inductive Load where
  | value (v : Word)
  | reject
  | fault

/-- A load at `k`; `out` says that it is not inside the buffer. -/
def loadAt (args : Args) (w : Width) (k : Nat) (out : Bool) : Load :=
  if out then
    if args.buflen ≠ 0 then .reject
    else match args.pkt with
      | .flat _ => .fault
      | .chain m => (xload w m k).elim .reject .value
  else match args.pkt with
    | .flat bytes => (extract w bytes k).elim .fault .value
    | .chain _ => .fault

def loadAbs (args : Args) (w : Width) (k : Word) : Load :=
  match w with
  | .B => loadAt args .B k.toNat (k.toNat ≥ args.buflen)
  | w => loadAt args w k.toNat (k.toNat > args.buflen ∨ w.bytes > args.buflen - k.toNat)

-- For a byte the source has the first test only; the second says nothing more then.
def loadInd (args : Args) (w : Width) (x k : Word) : Load :=
  if x + k < x then .reject
  else loadAt args w (x + k).toNat ((x + k).toNat ≥ args.buflen ∨ w.bytes > args.buflen - (x + k).toNat)

/-! ### The interpreter -/

abbrev Mem := Nat → Option Word

/-- A coprocessor function: from the arguments, its own state, the memory and `A` to its state, the
memory and the new `A`. It leaves words that were written. -/
structure Cop (σ : Type*) where
  run : Args → σ → Mem → Word → σ × Mem × Word
  keeps : ∀ args ext mem a i, (mem i).isSome → ((run args ext mem a).2.1 i).isSome

structure Ctx (σ : Type*) where
  copfuncs : Option (Nat → Cop σ)
  nfuncs : Nat
  extwords : Nat
  preinited : Word

/-- What bpf_set_extmem accepts. -/
def Ctx.Ok {σ : Type*} (bc : Ctx σ) : Prop := bc.extwords ≤ BPF_MAX_MEMWORDS ∧ bc.preinited >>> bc.extwords = 0

section
variable {σ : Type*}

def memwords (bc : Option (Ctx σ)) : Nat :=
  let extwords := bc.elim 0 Ctx.extwords
  if extwords ≠ 0 then extwords else BPF_MEMWORDS

def preinited (bc : Option (Ctx σ)) : Word :=
  if bc.elim 0 Ctx.extwords ≠ 0 then bc.elim 0 Ctx.preinited else 0

structure State (σ : Type*) where
  pc : Nat
  A : Word
  X : Word
  mem : Mem
  ext : σ

inductive Fault where
  | pc
  | pkt
  | memIndex
  | memUninit
  | div
  | cop

inductive Outcome (σ : Type*) where
  | next (s : State σ)
  | ret (v : Word) (ext : σ)
  | fault (f : Fault)

/-- A shift by 32 or more is undefined in C: `wide` is what the machine does then. -/
def Alu.eval (wide : Word → Word → Word) (op : Alu) (a b : Word) : Word :=
  match op with
  | .ADD => a + b
  | .SUB => a - b
  | .MUL => a * b
  | .DIV => a / b
  | .MOD => a % b
  | .AND => a &&& b
  | .OR => a ||| b
  | .XOR => a ^^^ b
  | .LSH => if b.toNat < 32 then a <<< b.toNat else wide a b
  | .RSH => if b.toNat < 32 then a >>> b.toNat else wide a b

def Cond.eval (c : Cond) (a b : Word) : Bool :=
  match c with
  | .JEQ => a = b
  | .JGT => a > b
  | .JGE => a ≥ b
  | .JSET => a &&& b ≠ 0

def Src.val (src : Src) (insn : Insn) (s : State σ) : Word :=
  match src with
  | .K => insn.k
  | .X => s.X

def State.loadA (s : State σ) : Load → Outcome σ
  | .value v => .next { s with pc := s.pc + 1, A := v }
  | .reject => .ret 0 s.ext
  | .fault => .fault .pkt

def State.loadX (s : State σ) : Load → Outcome σ
  | .value v => .next { s with pc := s.pc + 1, X := v }
  | .reject => .ret 0 s.ext
  | .fault => .fault .pkt

def State.read (words : Nat) (s : State σ) (k : Nat) (f : Word → State σ) : Outcome σ :=
  if k ≥ words then .fault .memIndex
  else match s.mem k with
    | none => .fault .memUninit
    | some v => .next (f v)

def State.write (words : Nat) (s : State σ) (k : Nat) (v : Word) : Outcome σ :=
  if k ≥ words then .fault .memIndex
  else .next { s with pc := s.pc + 1, mem := update s.mem k (some v) }

/-- `fn = bc->copfuncs[i]; A = fn(bc, args, A)` -/
def State.call (bc : Ctx σ) (args : Args) (s : State σ) (i : Nat) : Outcome σ :=
  match bc.copfuncs with
  | none => .fault .cop
  | some funcs =>
    if i ≥ bc.nfuncs then .fault .cop
    else
      let r := (funcs i).run args s.ext s.mem s.A
      .next { s with pc := s.pc + 1, ext := r.1, mem := r.2.1, A := r.2.2 }

/-- What the loads of the program do: the length, a load at `k`, at `X + k`, and the header length at `k`. -/
structure Loads where
  abs : Width → Word → Load
  ind : Width → Word → Word → Load
  msh : Word → Load

def Load.headerLength : Load → Load
  | .value v => .value ((v &&& 0xf) <<< 2)
  | .reject => .reject
  | .fault => .fault

def Args.loads (args : Args) : Loads where
  abs := loadAbs args
  ind := loadInd args
  msh k := (loadAbs args .B k).headerLength

/-- One round of the loop, on an instruction that has been decoded. -/
def exec (wide : Word → Word → Word) (bc : Option (Ctx σ)) (args : Args) (loads : Loads) (s : State σ) (insn : Insn) :
    Option Op → Outcome σ
  | none => .ret 0 s.ext
  | some .retK => .ret insn.k s.ext
  | some .retA => .ret s.A s.ext
  | some (.ldAbs w) => s.loadA (loads.abs w insn.k)
  | some .ldLen => .next { s with pc := s.pc + 1, A := BitVec.ofNat 32 args.wirelen }
  | some .ldxLen => .next { s with pc := s.pc + 1, X := BitVec.ofNat 32 args.wirelen }
  | some (.ldInd w) => s.loadA (loads.ind w s.X insn.k)
  | some .ldxMsh => s.loadX (loads.msh insn.k)
  | some .ldImm => .next { s with pc := s.pc + 1, A := insn.k }
  | some .ldxImm => .next { s with pc := s.pc + 1, X := insn.k }
  | some .ldMem => s.read (memwords bc) insn.k.toNat fun v => { s with pc := s.pc + 1, A := v }
  | some .ldxMem => s.read (memwords bc) insn.k.toNat fun v => { s with pc := s.pc + 1, X := v }
  | some .st => s.write (memwords bc) insn.k.toNat s.A
  | some .stx => s.write (memwords bc) insn.k.toNat s.X
  | some .ja => .next { s with pc := s.pc + insn.k.toNat + 1 }
  | some (.jmp c src) =>
    .next { s with pc := s.pc + (if c.eval s.A (src.val insn s) then insn.jt else insn.jf).toNat + 1 }
  | some (.alu op src) =>
    -- The division by X is checked when it is done, the one by a constant by the validator.
    if (op = .DIV ∨ op = .MOD) ∧ src.val insn s = 0 then
      match src with
      | .X => .ret 0 s.ext
      | .K => .fault .div
    else .next { s with pc := s.pc + 1, A := op.eval wide s.A (src.val insn s) }
  | some .neg => .next { s with pc := s.pc + 1, A := -s.A }
  | some .tax => .next { s with pc := s.pc + 1, X := s.A }
  | some .txa => .next { s with pc := s.pc + 1, A := s.X }
  | some .cop =>
    match bc with
    | none => .fault .cop
    | some bc => if insn.k.toNat < bc.nfuncs then s.call bc args insn.k.toNat else .ret 0 s.ext
  | some .copx =>
    match bc with
    | none => .fault .cop
    | some bc => if s.X.toNat < bc.nfuncs then s.call bc args s.X.toNat else .ret 0 s.ext

def step (wide : Word → Word → Word) (bc : Option (Ctx σ)) (prog : List Insn) (args : Args) (s : State σ) : Outcome σ :=
  match prog[s.pc]? with
  | none => .fault .pc
  | some insn => exec wide bc args args.loads s insn (decode insn.code)

/-- bpf_filter_ext from a state on; `none` after too few rounds. -/
def run (wide : Word → Word → Word) (bc : Option (Ctx σ)) (prog : List Insn) (args : Args) :
    Nat → State σ → Option (Except Fault (Word × σ))
  | 0, _ => none
  | rounds + 1, s =>
    match step wide bc prog args s with
    | .next s => run wide bc prog args rounds s
    | .ret v ext => some (.ok (v, ext))
    | .fault f => some (.error f)

/-- `A = X = 0`; the memory is what the caller hands over. -/
def State.start (mem : Mem) (ext : σ) : State σ := ⟨0, 0, 0, mem, ext⟩

def memwordInit (k : Nat) : Word := 1 <<< k

def mark (mem : Nat → Word) (i : Nat) (invalid : Word) : Nat → Word := update mem i (mem i ||| invalid)

/-- One round of the loop of bpf_validate_ext; `none` is `goto out`. The new `invalid` and `mem`. -/
def check (bc : Option (Ctx σ)) (len i : Nat) (p : Insn) (invalid : Word) (mem : Nat → Word) : Option (Word × (Nat → Word)) :=
  if bpfClass p.code = BPF_LD ∨ bpfClass p.code = BPF_LDX then
    if bpfMode p.code = BPF_MEM then
      if p.k.toNat ≥ memwords bc then none
      else if invalid &&& memwordInit p.k.toNat ≠ 0 then none
      else some (invalid, mem)
    else if bpfMode p.code ∈ [BPF_ABS, BPF_IND, BPF_MSH, BPF_IMM, BPF_LEN] then some (invalid, mem)
    else none
  else if bpfClass p.code = BPF_ST ∨ bpfClass p.code = BPF_STX then
    if p.k.toNat ≥ memwords bc then none else some (invalid &&& ~~~memwordInit p.k.toNat, mem)
  else if bpfClass p.code = BPF_ALU then
    if bpfOp p.code ∈ [BPF_ADD, BPF_SUB, BPF_MUL, BPF_OR, BPF_XOR, BPF_AND, BPF_LSH, BPF_RSH, BPF_NEG] then some (invalid, mem)
    else if bpfOp p.code ∈ [BPF_DIV, BPF_MOD] then
      if bpfSrc p.code = BPF_K ∧ p.k = 0 then none else some (invalid, mem)
    else none
  else if bpfClass p.code = BPF_JMP then
    let fromIdx := i + 1
    if bpfOp p.code = BPF_JA then
      let dst := (fromIdx + p.k.toNat) % 2 ^ 32
      if dst ≥ len then none
      else if dst < fromIdx then none
      else some (0, mark mem dst invalid)
    else if bpfOp p.code ∈ [BPF_JEQ, BPF_JGT, BPF_JGE, BPF_JSET] then
      if fromIdx + p.jt.toNat ≥ len ∨ fromIdx + p.jf.toNat ≥ len then none
      else some (0, mark (mark mem (fromIdx + p.jt.toNat) invalid) (fromIdx + p.jf.toNat) invalid)
    else none
  else if bpfClass p.code = BPF_RET then some (invalid, mem)
  else
    -- BPF_MISC: the class has three bits.
    if bpfMiscop p.code = BPF_COP ∨ bpfMiscop p.code = BPF_COPX then
      match bc with
      | none => none
      | some bc =>
        if bc.copfuncs.isNone then none
        else if bpfMiscop p.code = BPF_COP ∧ p.k.toNat ≥ bc.nfuncs then none
        else some (invalid, mem)
    else some (invalid, mem)

/-- The instructions from index `i` on. -/
def checkFrom (bc : Option (Ctx σ)) (len : Nat) : Nat → List Insn → Word → (Nat → Word) → Bool
  | _, [], _, _ => true
  | i, p :: rest, invalid, mem =>
    match check bc len i p (invalid ||| mem i) mem with
    | none => false
    | some (invalid, mem) => checkFrom bc len (i + 1) rest invalid mem

/-- bpf_validate_ext, for a program of `signed_len` instructions. -/
def bpfValidateExt (bc : Option (Ctx σ)) (f : List Insn) : Bool :=
  if f.length < 1 then false
  else if f.length > BPF_MAXINSNS then false
  else match f.getLast? with
    | none => false
    | some last =>
      if last.code ≠ BPF_RET ||| BPF_K ∧ last.code ≠ BPF_RET ||| BPF_A then false
      else checkFrom bc f.length 0 f (~~~preinited bc) fun _ => 0

end

end NetBSD.Net.Bpf
