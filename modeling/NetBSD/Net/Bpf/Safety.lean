import NetBSD.Lib.System
import NetBSD.Net.Bpf.Validate

/-! A program the validator accepts runs safely.

One round of a typed program ends, or goes on at one of the targets of its instruction with the words
its mask promises. So the masks are an invariant of the run, and no round is a fault. -/
namespace NetBSD.Net.Bpf
open List Function
open Lib

section Loads
variable {args : Args} {w : Width} {k : Nat}

/-- Zero as the length of a buffer means a chain, so a buffer has a byte. -/
def Args.Ok (args : Args) : Prop :=
  match args.pkt with
  | .flat bytes => bytes ≠ []
  | .chain _ => True

instance (args : Args) : Decidable args.Ok :=
  match h : args.pkt with
  | .flat bytes => decidable_of_iff (bytes ≠ []) (by rw [Args.Ok, h])
  | .chain _ => isTrue (by rw [Args.Ok, h]; trivial)

theorem extract_isSome {bytes : List Byte} (h : k + w.bytes ≤ bytes.length) : ∃ v, extract w bytes k = some v := by
  cases w with
  | W =>
    have hb : k + 4 ≤ bytes.length := h
    simp [extract, show k < bytes.length by omega, show k + 1 < bytes.length by omega, show k + 2 < bytes.length by omega,
      show k + 3 < bytes.length by omega]
  | H =>
    have hb : k + 2 ≤ bytes.length := h
    simp [extract, show k < bytes.length by omega, show k + 1 < bytes.length by omega]
  | B =>
    have hb : k + 1 ≤ bytes.length := h
    simp [extract, show k < bytes.length by omega]

theorem Width.bytes_pos (w : Width) : 0 < w.bytes := by
  cases w <;> decide

theorem loadAt_ne_fault (hargs : args.Ok) {out : Bool} (hout : out = false → k + w.bytes ≤ args.buflen) : loadAt args w k out ≠ .fault := by
  rw [loadAt]
  cases out with
  | true =>
    rw [if_pos rfl]
    split
    · nofun
    · next hbuf =>
      rw [Args.Ok] at hargs
      rw [Args.buflen] at hbuf
      split
      · next bytes hpkt =>
        rw [hpkt] at hargs hbuf
        exact absurd (length_eq_zero_iff.mp (not_not.mp hbuf)) hargs
      · next m hpkt =>
        cases xload w m k <;> nofun
  | false =>
    have hle := hout rfl
    have hpos := w.bytes_pos
    rw [if_neg (by simp)]
    rw [Args.buflen] at hle
    split
    · next bytes hpkt =>
      rw [hpkt] at hle
      obtain ⟨v, hv⟩ := extract_isSome hle
      rw [hv]
      nofun
    · next m hpkt =>
      rw [hpkt] at hle
      dsimp only at hle
      omega

theorem loadAbs_ne_fault (hargs : args.Ok) (w : Width) (k : Word) : loadAbs args w k ≠ .fault := by
  have hwide : ∀ w : Width, loadAt args w k.toNat (k.toNat > args.buflen ∨ w.bytes > args.buflen - k.toNat) ≠ .fault := by
    intro w
    apply loadAt_ne_fault hargs
    intro hout
    rw [decide_eq_false_iff_not] at hout
    omega
  cases w with
  | W => exact hwide .W
  | H => exact hwide .H
  | B =>
    apply loadAt_ne_fault hargs
    intro hout
    rw [decide_eq_false_iff_not] at hout
    show _ + 1 ≤ _
    omega

theorem loadInd_ne_fault (hargs : args.Ok) (w : Width) (x k : Word) : loadInd args w x k ≠ .fault := by
  rw [loadInd]
  split
  · nofun
  apply loadAt_ne_fault hargs
  intro hout
  rw [decide_eq_false_iff_not] at hout
  omega

/-- No load of the program reads out of bounds. -/
structure Loads.Safe (loads : Loads) : Prop where
  abs : ∀ w k, loads.abs w k ≠ .fault
  ind : ∀ w x k, loads.ind w x k ≠ .fault
  msh : ∀ k, loads.msh k ≠ .fault

theorem Args.loads_safe (hargs : args.Ok) : args.loads.Safe where
  abs := loadAbs_ne_fault hargs
  ind := loadInd_ne_fault hargs
  msh := by
    intro k
    have h := loadAbs_ne_fault hargs .B k
    show (loadAbs args .B k).headerLength ≠ .fault
    cases hl : loadAbs args .B k with
    | value v => nofun
    | reject => nofun
    | fault => exact absurd hl h

end Loads

section Exec
variable {σ : Type*} {wide : Word → Word → Word} {bc : Option (Ctx σ)} {args : Args} {loads : Loads} {s : State σ} {p : Insn} {op : Op}

/-- The round ends the program, or goes on where the instruction says and leaves what was written. -/
def Outcome.Safe (s : State σ) (p : Insn) (op : Op) : Outcome σ → Prop
  | .next s' => s'.pc ∈ op.targets s.pc p ∧ (∀ j, (s.mem j).isSome → (s'.mem j).isSome) ∧ ∀ k ∈ op.writes p, (s'.mem k).isSome
  | .ret _ _ => True
  | .fault _ => False

section
variable {l : Load} (hl : l ≠ .fault) (ht : s.pc + 1 ∈ op.targets s.pc p) (hw : op.writes p = none)
include hl ht hw

theorem loadA_safe : (s.loadA l).Safe s p op := by
  cases l with
  | value v => exact ⟨ht, fun _ h => h, by rw [hw]; nofun⟩
  | reject => trivial
  | fault => exact absurd rfl hl

theorem loadX_safe : (s.loadX l).Safe s p op := by
  cases l with
  | value v => exact ⟨ht, fun _ h => h, by rw [hw]; nofun⟩
  | reject => trivial
  | fault => exact absurd rfl hl

end

theorem read_safe {k : Nat} {f : Word → State σ} (hk : k < memwords bc) (hsome : (s.mem k).isSome) (hpc : ∀ v, (f v).pc = s.pc + 1)
    (hmem : ∀ v, (f v).mem = s.mem) (ht : s.pc + 1 ∈ op.targets s.pc p) (hw : op.writes p = none) :
    (s.read (memwords bc) k f).Safe s p op := by
  rw [State.read, if_neg (Nat.not_le_of_lt hk)]
  obtain ⟨v, hv⟩ := Option.isSome_iff_exists.mp hsome
  rw [hv]
  refine ⟨by rw [hpc]; exact ht, ?_, by rw [hw]; nofun⟩
  rw [hmem]
  exact fun _ h => h

theorem write_safe {k : Nat} {v : Word} (hk : k < memwords bc) (ht : s.pc + 1 ∈ op.targets s.pc p) (hw : op.writes p = some k) :
    (s.write (memwords bc) k v).Safe s p op := by
  rw [State.write, if_neg (Nat.not_le_of_lt hk)]
  refine ⟨ht, ?_, ?_⟩
  · intro j hj
    by_cases hjk : j = k
    · subst hjk
      show (update s.mem j (some v) j).isSome
      rw [update_self]
      rfl
    · show (update s.mem k (some v) j).isSome
      rw [update_of_ne hjk]
      exact hj
  · rw [hw]
    rintro j ⟨⟩
    show (update s.mem k (some v) k).isSome
    rw [update_self]
    rfl

theorem call_safe {b : Ctx σ} {funcs : Nat → Cop σ} (hf : b.copfuncs = some funcs) {i : Nat} (hi : i < b.nfuncs)
    (ht : s.pc + 1 ∈ op.targets s.pc p) (hw : op.writes p = none) : (s.call b args i).Safe s p op := by
  rw [State.call, hf]
  dsimp only
  rw [if_neg (Nat.not_le_of_lt hi)]
  exact ⟨ht, (funcs i).keeps args s.ext s.mem s.A, by rw [hw]; nofun⟩

theorem exec_safe (hloads : loads.Safe) (hread : ∀ k ∈ op.reads p, k < memwords bc ∧ (s.mem k).isSome)
    (hwrite : ∀ k ∈ op.writes p, k < memwords bc) (hdiv : op.kind = .div → p.k ≠ 0)
    (hcop : ∀ fixed, op.kind = .cop fixed → ∃ b funcs, bc = some b ∧ b.copfuncs = some funcs) :
    (exec wide bc args loads s p (some op)).Safe s p op := by
  have hkeep : ∀ j, (s.mem j).isSome → (s.mem j).isSome := fun _ h => h
  cases op with
  | retK => trivial
  | retA => trivial
  | ldAbs w => exact loadA_safe (hloads.abs w p.k) mem_cons_self rfl
  | ldInd w => exact loadA_safe (hloads.ind w s.X p.k) mem_cons_self rfl
  | ldxMsh => exact loadX_safe (hloads.msh p.k) mem_cons_self rfl
  | ldLen => exact ⟨mem_cons_self, hkeep, nofun⟩
  | ldxLen => exact ⟨mem_cons_self, hkeep, nofun⟩
  | ldImm => exact ⟨mem_cons_self, hkeep, nofun⟩
  | ldxImm => exact ⟨mem_cons_self, hkeep, nofun⟩
  | ldMem =>
    obtain ⟨hk, hsome⟩ := hread _ rfl
    exact read_safe hk hsome (fun _ => rfl) (fun _ => rfl) mem_cons_self rfl
  | ldxMem =>
    obtain ⟨hk, hsome⟩ := hread _ rfl
    exact read_safe hk hsome (fun _ => rfl) (fun _ => rfl) mem_cons_self rfl
  | st => exact write_safe (hwrite _ rfl) mem_cons_self rfl
  | stx => exact write_safe (hwrite _ rfl) mem_cons_self rfl
  | ja =>
    refine ⟨?_, hkeep, nofun⟩
    rw [add_right_comm]
    exact mem_cons_self
  | jmp c src =>
    refine ⟨?_, hkeep, nofun⟩
    rw [add_right_comm s.pc (BitVec.toNat _)]
    split
    · exact mem_cons_self
    · exact mem_cons_of_mem _ mem_cons_self
  | alu a src =>
    unfold exec
    dsimp only
    split
    · next hzero =>
      cases src with
      | X => trivial
      | K =>
        -- A division by a constant: the constant is not zero.
        obtain ⟨rfl | rfl, hk⟩ := hzero
        · exact absurd hk (hdiv rfl)
        · exact absurd hk (hdiv rfl)
    · exact ⟨mem_cons_self, hkeep, nofun⟩
  | neg => exact ⟨mem_cons_self, hkeep, nofun⟩
  | tax => exact ⟨mem_cons_self, hkeep, nofun⟩
  | txa => exact ⟨mem_cons_self, hkeep, nofun⟩
  | cop =>
    obtain ⟨b, funcs, rfl, hf⟩ := hcop true rfl
    rw [exec]
    split
    · next hk => exact call_safe hf hk mem_cons_self rfl
    · trivial
  | copx =>
    obtain ⟨b, funcs, rfl, hf⟩ := hcop false rfl
    rw [exec]
    split
    · next hk => exact call_safe hf hk mem_cons_self rfl
    · trivial

end Exec

/-! ### The run -/

section Run
variable {σ : Type*} {wide : Word → Word → Word} {bc : Option (Ctx σ)} {args : Args} {prog : List Insn} {inv : Nat → Word} {s s' : State σ}

/-- Inside the program, with the words the mask does not have. -/
structure Masked (bc : Option (Ctx σ)) (prog : List Insn) (inv : Nat → Word) (s : State σ) : Prop where
  pc : s.pc < prog.length
  mem : ∀ j < memwords bc, (inv s.pc).getLsbD j = false → (s.mem j).isSome

theorem targets_gt {i t : Nat} {p : Insn} {op : Op} (ht : t ∈ op.targets i p) : i < t := by
  revert ht
  cases op <;> simp only [Op.targets, mem_cons, not_mem_nil, or_false, false_imp_iff] <;> omega

theorem step_safe (ht : Typed bc prog inv) (hargs : args.Ok) (hs : Masked bc prog inv s) :
    match step wide bc prog args s with
    | .next s' => s.pc < s'.pc ∧ Masked bc prog inv s'
    | .ret _ _ => True
    | .fault _ => False := by
  obtain ⟨p, hp⟩ : ∃ p, prog[s.pc]? = some p := ⟨_, getElem?_eq_getElem hs.pc⟩
  rw [step, hp]
  dsimp only
  cases hop : decode p.code with
  | none => trivial
  | some op =>
    have hflow := ht.flow s.pc p op hp hop
    have hsafe := @exec_safe σ wide bc args args.loads s p op (args.loads_safe hargs)
      (fun k hk => ⟨(hflow.read k hk).1, hs.mem k (hflow.read k hk).1 (hflow.read k hk).2⟩) hflow.write hflow.div hflow.cop
    revert hsafe
    cases hexec : exec wide bc args args.loads s p (some op) with
    | ret v ext => exact fun _ => trivial
    | fault f => exact fun h => h
    | next s' =>
      rintro ⟨htarget, hkeep, hwrite⟩
      have hlt : s'.pc < prog.length := by
        obtain heq | hlt := hflow.jump _ htarget
        · -- The last instruction ends the program, so this one is not the last.
          obtain ⟨last, lop, hlast, hlop, hret⟩ := ht.last
          by_contra hge
          have hpc : s.pc = prog.length - 1 := by
            have := hs.pc
            omega
          rw [hpc, hlast] at hp
          obtain rfl := Option.some.inj hp
          obtain rfl := Option.some.inj (hlop.symm.trans hop)
          rw [Op.targets_ret hret] at htarget
          exact absurd htarget not_mem_nil
        · exact hlt
      refine ⟨targets_gt htarget, hlt, ?_⟩
      intro j hj hclear
      cases hold : (inv s.pc).getLsbD j with
      | false => exact hkeep j (hs.mem j hj hold)
      | true =>
        by_cases hw : op.writes p = some j
        · exact hwrite j hw
        · rw [hflow.flow _ htarget hlt j hold hw] at hclear
          exact absurd hclear (by simp)

theorem run_ends (ht : Typed bc prog inv) (hargs : args.Ok) (rounds : Nat) (s : State σ) (hs : Masked bc prog inv s)
    (hrounds : prog.length ≤ s.pc + rounds) : ∃ r, run wide bc prog args rounds s = some (.ok r) := by
  induction rounds generalizing s with
  | zero =>
    have := hs.pc
    omega
  | succ rounds ih =>
    have hsafe := @step_safe σ wide _ _ _ _ _ ht hargs hs
    rw [run]
    cases hstep : step wide bc prog args s with
    | next s' =>
      rw [hstep] at hsafe
      exact ih s' hsafe.2 (by omega)
    | ret v ext => exact ⟨_, rfl⟩
    | fault f =>
      rw [hstep] at hsafe
      exact hsafe.elim

/-- The interpreter as a system, started on a memory. -/
def machine (wide : Word → Word → Word) (bc : Option (Ctx σ)) (prog : List Insn) (args : Args) (mem : Mem) (ext : σ) : System (State σ) Unit where
  init s := s = .start mem ext
  step s _ s' := step wide bc prog args s = .next s'

theorem start_masked (ht : Typed bc prog inv) {mem : Mem} {ext : σ} (hbc : ∀ b ∈ bc, b.Ok)
    (hmem : ∀ j, (preinited bc).getLsbD j = true → (mem j).isSome) : Masked bc prog inv (.start mem ext) := by
  refine ⟨?_, ?_⟩
  · obtain ⟨p, -, hp, -⟩ := ht.last
    have hlt := (List.getElem?_eq_some_iff.mp hp).1
    show 0 < prog.length
    omega
  intro j hj hclear
  apply hmem
  by_contra hnot
  have hj32 : j < 32 := by
    have := memwords_le hbc
    omega
  have hset : (~~~preinited bc).getLsbD j = true := by
    rw [BitVec.getLsbD_not, decide_eq_true hj32, Bool.true_and, Bool.eq_false_of_not_eq_true hnot, Bool.not_false]
  rw [show (inv (State.start mem ext).pc).getLsbD j = true from ht.start j hset] at hclear
  exact absurd hclear (by simp)

/-- A program the validator accepts ends, and in every state on the way the program counter is inside the
program and only goes up, and nothing undefined is done. -/
theorem validated_runs_safely (wide : Word → Word → Word) (bc : Option (Ctx σ)) (prog : List Insn) (args : Args) (mem : Mem) (ext : σ)
    (hbc : ∀ b ∈ bc, b.Ok) (hv : bpfValidateExt bc prog = true) (hargs : args.Ok)
    (hmem : ∀ j, (preinited bc).getLsbD j = true → (mem j).isSome) :
    (∀ rounds, prog.length ≤ rounds → ∃ r, run wide bc prog args rounds (.start mem ext) = some (.ok r)) ∧
      ∀ s, (machine wide bc prog args mem ext).Reachable s → s.pc < prog.length ∧
        (∀ f, step wide bc prog args s ≠ .fault f) ∧ ∀ s', step wide bc prog args s = .next s' → s.pc < s'.pc := by
  obtain ⟨inv, ht⟩ := validated_typed hbc hv
  refine ⟨?_, ?_⟩
  · intro rounds hrounds
    exact run_ends ht hargs rounds _ (start_masked ht hbc hmem) (by omega)
  intro s hs
  have hmasked : Masked bc prog inv s := by
    apply hs.invariant
    · intro s h
      exact h ▸ start_masked ht hbc hmem
    intro s _ s' h _ hstep
    have hsafe := @step_safe σ wide _ _ _ _ _ ht hargs h
    rw [show step wide bc prog args s = .next s' from hstep] at hsafe
    exact hsafe.2
  have hsafe := @step_safe σ wide _ _ _ _ _ ht hargs hmasked
  refine ⟨hmasked.pc, ?_, ?_⟩
  · intro f hf
    rw [hf] at hsafe
    exact hsafe
  · intro s' hs'
    rw [hs'] at hsafe
    exact hsafe.1

/-- A context with one coprocessor function and two words, the first of them written by the caller. -/
def counting : Ctx Nat where
  copfuncs := some fun _ => ⟨fun _ ext mem a => (ext + 1, mem, a + 1), fun _ _ _ _ _ h => h⟩
  nfuncs := 1
  extwords := 2
  preinited := 1

/-- A program that reads the word, calls the function, and stores and tests what it gave. -/
def countingProg : List Insn :=
  [⟨BPF_LD ||| BPF_MEM, 0, 0, 0⟩, ⟨BPF_MISC ||| BPF_COP, 0, 0, 0⟩, ⟨BPF_ST, 0, 0, 1⟩,
    ⟨BPF_JMP ||| BPF_JEQ ||| BPF_K, 0, 1, 5⟩, ⟨BPF_RET ||| BPF_K, 0, 0, 7⟩, ⟨BPF_LDX ||| BPF_MEM, 0, 0, 1⟩,
    ⟨BPF_RET ||| BPF_A, 0, 0, 0⟩]

theorem validated_runs_safely_counting :
    (∃ r, run (fun a _ => a) (some counting) countingProg ⟨.flat [1, 2, 3], 3⟩ 7 (.start (fun j => if j = 0 then some 4 else none) 0) =
      some (.ok r)) ∧
      run (fun a _ => a) (some counting) countingProg ⟨.flat [1, 2, 3], 3⟩ 7 (.start (fun j => if j = 0 then some 4 else none) 0) =
        some (.ok (7, 1)) := by
  have hrun : run (fun a _ => a) (some counting) countingProg ⟨.flat [1, 2, 3], 3⟩ 7
      (.start (fun j => if j = 0 then some 4 else none) 0) = some (.ok (7, 1)) := rfl
  refine ⟨(validated_runs_safely _ (some counting) countingProg _ _ _ ?_ (by decide) (by decide) ?_).1 7 (by decide), hrun⟩
  · rintro b ⟨⟩
    exact ⟨by decide, by decide⟩
  intro j hj
  have hzero : j = 0 := by
    by_contra hne
    rw [show preinited (some counting) = 1#32 <<< 0 from rfl, getLsbD_one_shiftLeft (by decide), decide_eq_true_eq] at hj
    exact hne hj
  rw [hzero]
  rfl

end Run

end NetBSD.Net.Bpf
