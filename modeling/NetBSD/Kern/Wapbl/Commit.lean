import Mathlib.Data.BitVec
import NetBSD.Lib.System

/-! The commit header of the WAPBL log (`sys/kern/vfs_wapbl.c`).

A log starts with two slots for commit headers. `wapbl_write_commit` writes the
current head and tail to the slot its 32-bit generation selects by parity and then
steps the generation; after a generation of zero — the first commit, and every
rollover — it writes the same head and tail again under the next one.
`wapbl_replay_start` takes the slot with the larger generation, compared as plain
unsigned numbers.

Header writes are atomic and the machine may crash between any two of them.
`replay_start_selects` is what that gives: once the first commit has returned, the
header selected after a crash is the one of the last commit that returned or of the
commit in progress, however often the generation has rolled over. -/
namespace NetBSD.Kern.Wapbl
open Lib

/-- The on-disk commit header: the fields a commit sets and replay selects by. The
geometry fields never change and the checksum is not verified. -/
structure WcHeader where
  wcType : Nat
  wcGeneration : BitVec 32
  wcHead : Int
  wcTail : Int
  deriving DecidableEq

def wapblWcHeader : Nat := 0x5741424c

/-- The two header blocks at the start of the log. -/
structure Slots where
  slot0 : WcHeader
  slot1 : WcHeader
  deriving DecidableEq

/-- A freshly initialised log: both header blocks are zero. -/
def Slots.zero : Slots := ⟨⟨0, 0, 0, 0⟩, ⟨0, 0, 0, 0⟩⟩

/-- One header written to block `wl_logpbn + wc_generation % 2`. -/
def Slots.write (d : Slots) (wc : WcHeader) : Slots :=
  if wc.wcGeneration % 2 = 0 then {d with slot0 := wc} else {d with slot1 := wc}

/-- What a call of `wapbl_write_commit` does without I/O errors: the headers it
writes, in order, and the generation it leaves in `wl_wc_header`. -/
def wapblWriteCommit (wcGeneration : BitVec 32) (head tail : Int) : List WcHeader × BitVec 32 :=
  let write g : WcHeader := ⟨wapblWcHeader, g, head, tail⟩
  if wcGeneration = 0 then
    -- The duplicate commit runs under generation one, so it does not call itself again.
    ([write wcGeneration, write (wcGeneration + 1)], wcGeneration + 1 + 1)
  else ([write wcGeneration], wcGeneration + 1)

/-- The header `wapbl_replay_start` goes on with; `none` is `EFTYPE`. -/
def wapblReplayStart (d : Slots) : Option WcHeader :=
  if d.slot0.wcType ≠ wapblWcHeader then none
  else if d.slot1.wcGeneration > d.slot0.wcGeneration then some d.slot1
  else some d.slot0

theorem wapblWriteCommit_zero (head tail : Int) : wapblWriteCommit 0 head tail =
      ([⟨wapblWcHeader, 0, head, tail⟩, ⟨wapblWcHeader, 1, head, tail⟩], 2) := rfl

theorem wapblWriteCommit_pos (g : BitVec 32) (head tail : Int) (hg : g ≠ 0) :
    wapblWriteCommit g head tail = ([⟨wapblWcHeader, g, head, tail⟩], g + 1) := if_neg hg

/-! ### Commits and crashes -/

/-- The writer and the disk under it. `pending` are the headers the call in progress
still has to write. -/
structure Commits where
  disk : Slots
  wcGeneration : BitVec 32
  /-- Head and tail of the last commit that returned. -/
  last : Option (Int × Int)
  /-- Head and tail of the commit in progress. -/
  current : Option (Int × Int)
  pending : List WcHeader
  deriving DecidableEq

inductive CommitStep where
  /-- `wapbl_write_commit(wl, head, tail)` is entered. -/
  | call (head tail : Int)
  /-- The next header reaches the disk. -/
  | write
  /-- The call returns. -/
  | return

def Commits.next (s : Commits) : CommitStep → Option Commits
  | .call head tail =>
    if s.current.isSome then none else
      let (headers, g) := wapblWriteCommit s.wcGeneration head tail
      some {s with wcGeneration := g, current := some (head, tail), pending := headers}
  | .write => match s.pending with
    | [] => none
    | wc :: rest => some {s with disk := s.disk.write wc, pending := rest}
  | .return =>
    if s.current.isSome ∧ s.pending = [] then some {s with last := s.current, current := none} else none

/-- A log just initialised, before its first commit. -/
def Commits.fresh : Commits := ⟨.zero, 0, none, none, []⟩

/-- The writer and every crash point: a crash leaves the disk of a reachable state. -/
def commitSystem : System Commits CommitStep := .ofStep (· = .fresh) Commits.next

/-- The disk after a commit has returned: the newest header carries it under the
generation before the next one, the other slot the generation before that. The next
generation is never one, since a generation of zero is written out twice. -/
structure Settled (d : Slots) (g : BitVec 32) (c : Int × Int) : Prop where
  twice : g ≠ 1
  type0 : d.slot0.wcType = wapblWcHeader
  even : g % 2 = 0 → d.slot1 = ⟨wapblWcHeader, g - 1, c.1, c.2⟩ ∧ d.slot0.wcGeneration = g - 2
  odd : g % 2 ≠ 0 → d.slot0 = ⟨wapblWcHeader, g - 1, c.1, c.2⟩ ∧ d.slot1.wcGeneration = g - 2

theorem succ_even_iff (g : BitVec 32) : (g + 1) % 2 = 0 ↔ g % 2 ≠ 0 := by
  have hsucc : (g + 1).toNat = (g.toNat + 1) % 4294967296 := BitVec.toNat_add g 1
  have hmod (x : BitVec 32) : x % 2 = 0 ↔ x.toNat % 2 = 0 :=
    ⟨fun h => congrArg BitVec.toNat h, fun h => BitVec.eq_of_toNat_eq h⟩
  rw [Ne, hmod, hmod]
  omega

theorem write_even (d : Slots) (wc : WcHeader) (h : wc.wcGeneration % 2 = 0) : d.write wc = {d with slot0 := wc} := if_pos h

theorem write_odd (d : Slots) (wc : WcHeader) (h : wc.wcGeneration % 2 ≠ 0) : d.write wc = {d with slot1 := wc} := if_neg h

section
variable {d : Slots} {g : BitVec 32} {c : Int × Int} (h : Settled d g c)
include h

theorem Settled.replay : wapblReplayStart d = some ⟨wapblWcHeader, g - 1, c.1, c.2⟩ := by
  have hg := h.twice
  rw [wapblReplayStart, if_neg (not_not.mpr h.type0)]
  by_cases hp : g % 2 = 0
  · obtain ⟨h1, h0⟩ := h.even hp
    have hlt : g - 1 > g - 2 := by bv_omega
    rw [h1, h0, if_pos hlt]
  · obtain ⟨h0, h1⟩ := h.odd hp
    have hle : ¬ g - 2 > g - 1 := by bv_omega
    rw [h0, h1, if_neg hle]

theorem Settled.write (hg : g ≠ 0) (c' : Int × Int) : Settled (d.write ⟨wapblWcHeader, g, c'.1, c'.2⟩) (g + 1) c' := by
  have hone : g + 1 ≠ 1 := by bv_omega
  have hsub : g + 1 - 1 = g := BitVec.add_sub_cancel g 1
  have hsub2 : g + 1 - 2 = g - 1 := by
    rw [show (2 : BitVec 32) = 1 + 1 from rfl, ← BitVec.sub_sub, hsub]
  by_cases hp : g % 2 = 0
  · have hodd : (g + 1) % 2 ≠ 0 := fun h => (succ_even_iff g).mp h hp
    rw [write_even _ _ hp]
    refine ⟨hone, rfl, fun he => absurd he hodd, fun _ => ?_⟩
    rw [hsub, hsub2]
    exact ⟨rfl, by rw [(h.even hp).1]⟩
  have heven : (g + 1) % 2 = 0 := (succ_even_iff g).mpr hp
  rw [write_odd _ _ hp]
  refine ⟨hone, h.type0, fun _ => ?_, fun ho => absurd heven ho⟩
  rw [hsub, hsub2]
  exact ⟨rfl, by rw [(h.odd hp).1]⟩

end

theorem settled_duplicate (d : Slots) (c : Int × Int) :
    Settled ((d.write ⟨wapblWcHeader, 0, c.1, c.2⟩).write ⟨wapblWcHeader, 1, c.1, c.2⟩) 2 c :=
  ⟨by decide, rfl, fun _ => ⟨rfl, rfl⟩, fun h => absurd rfl h⟩

theorem Settled.replay_rollover {d : Slots} {c : Int × Int} (h : Settled d 0 c) (c' : Int × Int) :
    wapblReplayStart (d.write ⟨wapblWcHeader, 0, c'.1, c'.2⟩) = some ⟨wapblWcHeader, BitVec.allOnes 32, c.1, c.2⟩ := by
  obtain ⟨h1, _⟩ := h.even rfl
  simp only [wapblReplayStart, Slots.write, h1]
  rfl

/-- Before the first commit has returned there is no settled log. -/
def Before (d : Slots) (g : BitVec 32) : Option (Int × Int) → Prop
  | none => g = 0
  | some c => Settled d g c

inductive Phase : Commits → Prop where
  | idle {d g last} : Before d g last → Phase ⟨d, g, last, none, []⟩
  | called {d g last} (c : Int × Int) : Before d g last →
    Phase ⟨d, (wapblWriteCommit g c.1 c.2).2, last, some c, (wapblWriteCommit g c.1 c.2).1⟩
  /-- The first of the two writes under generation zero is on the disk. -/
  | half {d last} (c : Int × Int) : Before d 0 last →
    Phase ⟨d.write ⟨wapblWcHeader, 0, c.1, c.2⟩, 2, last, some c, [⟨wapblWcHeader, 1, c.1, c.2⟩]⟩
  | written {d g last} (c : Int × Int) : Settled d g c → Phase ⟨d, g, last, some c, []⟩

theorem phase_call {s s' : Commits} {head tail : Int} (h : Phase s) (hs : s.next (.call head tail) = some s') : Phase s' := by
  cases h with
  | idle hb =>
    simp only [Commits.next, Option.isSome_none, Bool.false_eq_true, if_false, Option.some.injEq] at hs
    exact hs ▸ .called (head, tail) hb
  | called | half | written => simp [Commits.next] at hs

theorem phase_write {s s' : Commits} (h : Phase s) (hs : s.next .write = some s') : Phase s' := by
  cases h with
  | idle | written => simp [Commits.next] at hs
  | @called d g last c hb =>
    by_cases hg : g = 0
    · subst hg
      simp only [wapblWriteCommit_zero, Commits.next, Option.some.injEq] at hs
      exact hs ▸ .half c hb
    simp only [wapblWriteCommit_pos g c.1 c.2 hg, Commits.next, Option.some.injEq] at hs
    cases last with
    | none => exact absurd hb hg
    | some c₀ => exact hs ▸ .written c (Settled.write hb hg c)
  | @half d last c hb =>
    simp only [Commits.next, Option.some.injEq] at hs
    exact hs ▸ .written c (settled_duplicate d c)

theorem phase_return {s s' : Commits} (h : Phase s) (hs : s.next .return = some s') : Phase s' := by
  cases h with
  | idle | half => simp [Commits.next] at hs
  | @called d g last c hb =>
    have hne : (wapblWriteCommit g c.1 c.2).1 ≠ [] := by
      rw [wapblWriteCommit]
      split <;> simp
    simp [Commits.next, hne] at hs
  | written c hd =>
    simp only [Commits.next, Option.isSome_some, and_self, if_true, Option.some.injEq] at hs
    exact hs ▸ .idle hd

theorem phase_reachable {s : Commits} (h : commitSystem.Reachable s) : Phase s := by
  refine System.Reach.invariant ?_ ?_ h
  · rintro s rfl
    exact @Phase.idle _ _ none rfl
  intro s a s' hp _ hs
  cases a with
  | call head tail => exact phase_call hp hs
  | write => exact phase_write hp hs
  | «return» => exact phase_return hp hs

/-- Once the first commit has returned, a crash at any point leaves a log whose
selected header is the one of the last commit that returned or of the commit in
progress. -/
theorem replay_start_selects (s : Commits) (h : commitSystem.Reachable s) (c : Int × Int) (hlast : s.last = some c) :
    ∃ wc, wapblReplayStart s.disk = some wc ∧ ((wc.wcHead, wc.wcTail) = c ∨ some (wc.wcHead, wc.wcTail) = s.current) := by
  cases phase_reachable h with
  | @idle d g last hb =>
    subst hlast
    exact ⟨_, Settled.replay hb, .inl rfl⟩
  | @called d g last c' hb =>
    subst hlast
    exact ⟨_, Settled.replay hb, .inl rfl⟩
  | @half d last c' hb =>
    subst hlast
    exact ⟨_, Settled.replay_rollover hb c', .inl rfl⟩
  | written c' hd => exact ⟨_, hd.replay, .inr rfl⟩

/-- The first commit of a fresh log has returned and a second one is under way. -/
theorem replay_start_selects_second : ∃ wc, wapblReplayStart ⟨⟨wapblWcHeader, 2, 4096, 1024⟩, ⟨wapblWcHeader, 1, 0, 0⟩⟩ = some wc ∧
      ((wc.wcHead, wc.wcTail) = (0, 0) ∨ some (wc.wcHead, wc.wcTail) = some (4096, 1024)) := 
  replay_start_selects
    ⟨⟨⟨wapblWcHeader, 2, 4096, 1024⟩, ⟨wapblWcHeader, 1, 0, 0⟩⟩, 3, some (0, 0), some (4096, 1024), []⟩
    (System.reach_run _ _ _ .fresh [.call 0 0, .write, .write, .return, .call 4096 1024, .write] rfl
      (by decide)) (0, 0) rfl

end NetBSD.Kern.Wapbl
