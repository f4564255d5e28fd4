import NetBSD.Net.Npf.NpfNat

/-! The accesses to the map of ports.

A port below the first has no place in the map, and only an import can bring one. While none does, every access is within the map, and
over the life of an entry the bit that is set for it is the bit that is cleared (`portmap_in_bounds`). -/
namespace NetBSD.Net.Npf.NpfNat
open List
open Lib

/-- The words of the map that a step reads or swaps. -/
def accesses (w : World) : Label → List Nat
  | .import_ _ np _ _ tport valid => if valid = true ∧ (w.policy np).portmap = true ∧ tport ≠ 0 then [portIdx tport] else []
  | .go c =>
    match w.phase c with
    | .scan _ _ idx => [idx]
    | .cas _ _ idx _ => [idx]
    | .take nt _ => [portIdx nt.ntTport]
    | .put nt => [portIdx nt.ntTport]
    | .putCas nt _ => [portIdx nt.ntTport]
    | _ => []
  | _ => []

/-- No port below the first is imported for a map. -/
def InRange (w : World) : Label → Prop
  | .import_ _ np _ _ tport valid => valid = true → (w.policy np).portmap = true → tport = 0 ∨ PORTMAP_FIRST ≤ tport.toNat
  | _ => True

/-- What a phase knows of its places in the map. -/
def Phase.Inside (policy : Nat → Natpolicy) : Phase → Prop
  | .scan nt _ idx => idx < PORTMAP_SIZE ∧ (policy nt.np).portmap = true
  | .cas nt _ idx map => idx < PORTMAP_SIZE ∧ (policy nt.np).portmap = true ∧ map ≠ PORTMAP_FILLED
  | .take nt map => portIdx nt.ntTport < PORTMAP_SIZE ∧ map.getLsbD (portBit nt.ntTport) = false
  | .fault => False
  | .live nt => Maps policy nt → portIdx nt.ntTport < PORTMAP_SIZE
  | .put nt => portIdx nt.ntTport < PORTMAP_SIZE
  | .putCas nt _ => portIdx nt.ntTport < PORTMAP_SIZE
  | _ => True

def AllInside (w : World) : Prop := ∀ c, (w.phase c).Inside w.policy

/-- The phase has the place, or has given it back. -/
inductive Phase.Holds (n : Nat) : Phase → Prop where
  | live (nt : Entry) : slot nt.ntTport = n → Phase.Holds n (.live nt)
  | put (nt : Entry) : slot nt.ntTport = n → Phase.Holds n (.put nt)
  | putCas (nt : Entry) (map : Word) : slot nt.ntTport = n → Phase.Holds n (.putCas nt map)
  | gone : Phase.Holds n .gone

def Label.call : Label → Nat
  | .create c _ _ _ _ => c
  | .import_ c _ _ _ _ _ => c
  | .go c => c
  | .destroy c => c

section Steps
variable {w w' : World} {a : Label} {c n : Nat} {p : Phase}

/-- What a step does: one call goes to another phase, which knows its places, and with a place it goes on with the same. -/
structure Moved (w : World) (c : Nat) (w' : World) : Prop where
  policy : w'.policy = w.policy
  others : ∀ c', c' ≠ c → w'.phase c' = w.phase c'
  inside : (w'.phase c).Inside w.policy
  holds : ∀ n, (w.phase c).Holds n → (w'.phase c).Holds n

theorem moved_goto (b : Nat → Word) (hin : p.Inside w.policy) (hholds : ∀ n, (w.phase c).Holds n → p.Holds n) :
    Moved w c ({w with bitmap := b}.goto c p) := by
  refine ⟨rfl, fun c' hc => ?_, ?_, fun n hn => ?_⟩
  · rw [phase_goto, if_neg hc]
  · rw [phase_goto, if_pos rfl]
    exact hin
  · rw [phase_goto, if_pos rfl]
    exact hholds n hn

theorem not_holds_idle (h : w.phase c = .idle) (n : Nat) : ¬(w.phase c).Holds n := by
  rw [h]
  intro hn
  cases hn

theorem portIdx_lt_iff_first (port : BitVec 16) : portIdx port < PORTMAP_SIZE ↔ PORTMAP_FIRST ≤ port.toNat := by
  refine ⟨fun h => ?_, portIdx_lt⟩
  rw [portIdx_lt_iff, slot, BitVec.toNat_sub, BitVec.toNat_ofNat] at h
  simp only [PORTMAP_FIRST, PORTMAP_SIZE] at h ⊢
  omega

theorem moved_create (hidle : w.phase c = .idle) (np : Nat) (npc : Cache) (space : Bool) (random : Nat) :
    Moved w c (npfNatCreate w c np npc space random) := by
  have hnone (p : Phase) (n : Nat) (h : (w.phase c).Holds n) : p.Holds n := absurd h (not_holds_idle hidle n)
  rw [npfNatCreate]
  dsimp only
  split
  · exact moved_goto w.bitmap trivial (hnone _)
  split
  · exact moved_goto w.bitmap (fun hmaps => absurd rfl hmaps.2) (hnone _)
  split
  · next hmap => exact moved_goto w.bitmap ⟨Nat.mod_lt _ (by decide), hmap⟩ (hnone _)
  · next hmap => exact moved_goto w.bitmap (fun hmaps => absurd hmaps.1 hmap) (hnone _)

theorem moved_import (hidle : w.phase c = .idle) (np : Nat) (oaddr : BitVec 128) (oport tport : BitVec 16) (valid : Bool)
    (hrange : valid = true → (w.policy np).portmap = true → tport = 0 ∨ PORTMAP_FIRST ≤ tport.toNat) :
    Moved w c (npfNatImport w c np oaddr oport tport valid) := by
  have hnone (p : Phase) (n : Nat) (h : (w.phase c).Holds n) : p.Holds n := absurd h (not_holds_idle hidle n)
  rw [npfNatImport]
  dsimp only
  split
  · exact moved_goto w.bitmap trivial (hnone _)
  · next hvalid =>
    rw [Bool.not_eq_false] at hvalid
    split
    · next hmaps =>
      have hidx : portIdx tport < PORTMAP_SIZE := portIdx_lt ((hrange hvalid hmaps.1).resolve_left hmaps.2)
      rw [if_neg (Nat.not_le.mpr hidx)]
      split
      · exact moved_goto w.bitmap trivial (hnone _)
      · next hfree => exact moved_goto w.bitmap ⟨hidx, taken_bit hfree⟩ (hnone _)
    · next hmaps => exact moved_goto w.bitmap (fun hm => absurd hm hmaps) (hnone _)

section
variable {nt : Entry}

theorem moved_read {idx : Nat} (hscan : w.phase c = .scan nt n idx) (hin : (w.phase c).Inside w.policy) : Moved w c (getportRead w c nt n idx) := by
  have hnone (p : Phase) (k : Nat) (h : (w.phase c).Holds k) : p.Holds k := by
    rw [hscan] at h
    cases h
  rw [hscan] at hin
  obtain ⟨hidx, hmap⟩ := hin
  rw [getportRead]
  split
  · split
    · exact moved_goto w.bitmap (fun hmaps => absurd rfl hmaps.2) (hnone _)
    refine moved_goto w.bitmap ⟨?_, hmap⟩ (hnone _)
    split
    · omega
    · decide
  · next hfree => exact moved_goto w.bitmap ⟨hidx, hmap, hfree⟩ (hnone _)

theorem moved_cas {idx : Nat} {map : Word} (hcas : w.phase c = .cas nt n idx map) (hin : (w.phase c).Inside w.policy) :
    Moved w c (getportCas w c nt n idx map) := by
  have hnone (p : Phase) (k : Nat) (h : (w.phase c).Holds k) : p.Holds k := by
    rw [hcas] at h
    cases h
  rw [hcas] at hin
  obtain ⟨hidx, hmap, hfree⟩ := hin
  rw [getportCas]
  split
  · refine moved_goto _ (fun _ => ?_) (hnone _)
    obtain ⟨hbit, -⟩ := free_bit hfree
    obtain ⟨hslot, -⟩ := slot_ofNat hidx hbit
    rw [portIdx_eq]
    dsimp only
    omega
  · exact moved_goto w.bitmap ⟨hidx, hmap⟩ (hnone _)

theorem moved_take {map : Word} (htake : w.phase c = .take nt map) (hin : (w.phase c).Inside w.policy) : Moved w c (takeportCas w c nt map) := by
  have hnone (p : Phase) (k : Nat) (h : (w.phase c).Holds k) : p.Holds k := by
    rw [htake] at h
    cases h
  rw [htake] at hin
  rw [takeportCas]
  split
  · exact moved_goto _ (fun _ => hin.1) (hnone _)
  · exact moved_goto w.bitmap trivial (hnone _)

theorem moved_destroy (hlive : w.phase c = .live nt) (hin : (w.phase c).Inside w.policy) : Moved w c (npfNatDestroy w c nt) := by
  rw [hlive] at hin
  rw [npfNatDestroy]
  split
  · next hmaps =>
    refine moved_goto w.bitmap (hin hmaps) fun k hk => ?_
    rw [hlive] at hk
    cases hk with
    | live nt hslot => exact .put nt hslot
  · exact moved_goto w.bitmap trivial fun _ _ => .gone

theorem moved_put (hput : w.phase c = .put nt) (hin : (w.phase c).Inside w.policy) (map : Word) : Moved w c (w.goto c (.putCas nt map)) := by
  rw [hput] at hin
  refine moved_goto w.bitmap hin fun k hk => ?_
  rw [hput] at hk
  cases hk with
  | put nt hslot => exact .putCas nt map hslot

theorem moved_putCas {map : Word} (hput : w.phase c = .putCas nt map) (hin : (w.phase c).Inside w.policy) : Moved w c (putportCas w c nt map) := by
  rw [hput] at hin
  rw [putportCas]
  split
  · exact moved_goto _ trivial fun _ _ => .gone
  refine moved_goto w.bitmap hin fun k hk => ?_
  rw [hput] at hk
  cases hk with
  | putCas nt map hslot => exact .put nt hslot

end

theorem next_moved (hin : AllInside w) (hrange : InRange w a) (hnext : next w a = some w') : Moved w a.call w' := by
  cases a with
  | create c np npc space random =>
    cases hp : w.phase c <;> simp only [NpfNat.next, hp, Option.some.injEq, reduceCtorEq] at hnext
    subst hnext
    exact moved_create hp np npc space random
  | import_ c np oaddr oport tport valid =>
    cases hp : w.phase c <;> simp only [NpfNat.next, hp, Option.some.injEq, reduceCtorEq] at hnext
    subst hnext
    exact moved_import hp np oaddr oport tport valid hrange
  | go c =>
    cases hp : w.phase c <;> simp only [NpfNat.next, hp, Option.some.injEq, reduceCtorEq] at hnext <;> subst hnext
    case scan nt n idx => exact moved_read hp (hin c)
    case cas nt n idx map => exact moved_cas hp (hin c)
    case take nt map => exact moved_take hp (hin c)
    case put nt => exact moved_put hp (hin c) _
    case putCas nt map => exact moved_putCas hp (hin c)
  | destroy c =>
    cases hp : w.phase c <;> simp only [NpfNat.next, hp, Option.some.injEq, reduceCtorEq] at hnext
    subst hnext
    exact moved_destroy hp (hin c)

theorem Moved.all_inside (h : Moved w c w') (hin : AllInside w) : AllInside w' := by
  intro c'
  rw [h.policy]
  by_cases hc : c' = c
  · rw [hc]
    exact h.inside
  · rw [h.others c' hc]
    exact hin c'

theorem reach_inside (h : system.Reach InRange w) : AllInside w := by
  refine h.invariant (fun w hinit c => ?_) fun w a w' hin hrange hnext => ?_
  · rw [hinit.2]
    trivial
  · exact (next_moved hin hrange hnext).all_inside hin

theorem holds_reach {w₁ w₂ : World} (hin : AllInside w₁) (hholds : (w₁.phase c).Holds n)
    (h : (System.ofStep (· = w₁) next).Reach InRange w₂) : AllInside w₂ ∧ (w₂.phase c).Holds n := by
  refine @System.Reach.invariant _ _ _ _ (fun w => AllInside w ∧ (w.phase c).Holds n) (fun w hinit => ?_)
    (fun w a w' hw hrange hnext => ?_) _ h
  · rw [hinit]
    exact ⟨hin, hholds⟩
  have hmoved := next_moved hw.1 hrange hnext
  refine ⟨hmoved.all_inside hw.1, ?_⟩
  by_cases hc : c = a.call
  · rw [hc] at hw ⊢
    exact hmoved.holds n hw.2
  · rw [hmoved.others c hc]
    exact hw.2

theorem live_of_goto {b : Nat → Word} {nt : Entry} (h : ({w with bitmap := b}.goto c p).phase c = .live nt) : p = .live nt := by
  rwa [phase_goto, if_pos rfl] at h

/-- A step by which an entry comes into use with a port from the map sets the bit of that port. -/
theorem next_taken {nt : Entry} (hin : AllInside w) (hnext : next w (.go c) = some w') (hlive : w'.phase c = .live nt)
    (hmaps : Maps w.policy nt) : slot nt.ntTport < 32 * PORTMAP_SIZE ∧ mapBit w.bitmap (slot nt.ntTport) = false ∧
      ∀ m, mapBit w'.bitmap m = (mapBit w.bitmap m || decide (m = slot nt.ntTport)) := by
  have hinc := hin c
  cases hp : w.phase c <;> simp only [NpfNat.next, hp, Option.some.injEq, reduceCtorEq] at hnext <;> subst hnext <;> rw [hp] at hinc
  case scan nt' n idx =>
    rw [getportRead] at hlive
    split at hlive
    · split at hlive
      · obtain rfl := Phase.live.inj (live_of_goto hlive)
        exact absurd rfl hmaps.2
      · cases live_of_goto hlive
    · cases live_of_goto hlive
  case cas nt' n idx map =>
    obtain ⟨hidx, -, hfree⟩ := hinc
    obtain ⟨hbit, hclear⟩ := free_bit hfree
    obtain ⟨hslot, -⟩ := slot_ofNat hidx hbit
    have hdiv : (idx * 32 + (ffs (~~~map) - 1)) / 32 = idx := by omega
    have hmod : (idx * 32 + (ffs (~~~map) - 1)) % 32 = ffs (~~~map) - 1 := by omega
    rw [getportCas] at hlive ⊢
    split at hlive
    · next heq =>
      obtain rfl := Phase.live.inj (live_of_goto hlive)
      rw [hslot, if_pos heq]
      refine ⟨by omega, ?_, fun m => ?_⟩
      · rw [mapBit_word idx hbit, heq]
        exact hclear
      have hset := @mapBit_or w.bitmap m (idx * 32 + (ffs (~~~map) - 1))
      rw [hdiv, hmod, heq] at hset
      exact hset
    · cases live_of_goto hlive
  case take nt' map =>
    rw [takeportCas] at hlive ⊢
    split at hlive
    · next heq =>
      obtain rfl := Phase.live.inj (live_of_goto hlive)
      rw [if_pos heq]
      refine ⟨(portIdx_lt_iff _).mp hinc.1, ?_, fun m => ?_⟩
      · rw [mapBit, ← portIdx_eq, ← portBit_eq, heq]
        exact hinc.2
      have hset := @mapBit_or w.bitmap m (slot nt'.ntTport)
      rw [← portIdx_eq, ← portBit_eq, heq] at hset
      exact hset
    · cases live_of_goto hlive
  case put nt' => cases live_of_goto hlive
  case putCas nt' map =>
    rw [putportCas] at hlive
    split at hlive <;> cases live_of_goto hlive

theorem next_given (hholds : (w.phase c).Holds n) (hnext : next w (.go c) = some w') (hgone : w'.phase c = .gone) (m : Nat) :
    mapBit w'.bitmap m = (mapBit w.bitmap m && !decide (m = n)) := by
  cases hp : w.phase c <;> simp only [NpfNat.next, hp, Option.some.injEq, reduceCtorEq] at hnext <;> rw [hp] at hholds <;>
    try cases hholds
  case put nt hslot =>
    subst hnext
    rw [World.goto] at hgone
    simp at hgone
  case putCas nt map hslot =>
    subst hnext
    rw [putportCas] at hgone ⊢
    split
    · next heq =>
      have hclear := @mapBit_andNot w.bitmap m (slot nt.ntTport)
      rw [← portIdx_eq, ← portBit_eq, heq, hslot] at hclear
      exact hclear
    · next hne =>
      rw [if_neg hne, World.goto] at hgone
      simp at hgone

theorem accesses_in_range (hin : AllInside w) (a : Label) : (∀ i ∈ accesses w a, i < PORTMAP_SIZE) ↔ InRange w a := by
  cases a with
  | create c np npc space random => exact iff_of_true (fun i hi => absurd hi not_mem_nil) trivial
  | import_ c np oaddr oport tport valid =>
    rw [accesses]
    split
    · next hcond =>
      rw [forall_mem_singleton, portIdx_lt_iff_first]
      exact ⟨fun h _ _ => .inr h, fun h => (h hcond.1 hcond.2.1).resolve_left hcond.2.2⟩
    · next hcond =>
      refine iff_of_true (fun i hi => absurd hi not_mem_nil) fun hvalid hmap => ?_
      by_contra hport
      exact hcond ⟨hvalid, hmap, fun hzero => hport (.inl hzero)⟩
  | go c =>
    refine iff_of_true ?_ trivial
    have hinc := hin c
    rw [accesses]
    cases hp : w.phase c <;> rw [hp] at hinc <;> simp only [forall_mem_singleton, not_mem_nil, false_implies, implies_true]
    case scan nt n idx => exact hinc.1
    case cas nt n idx map => exact hinc.1
    case take nt map => exact hinc.1
    case put nt => exact hinc
    case putCas nt map => exact hinc
  | destroy c => exact iff_of_true (fun i hi => absurd hi not_mem_nil) trivial

/-- **Accesses to the map.** In a run that imports no port below the first, every step accesses words of the map only, and would not
if it imported such a port; and what is set in the map when an entry comes into use is what is cleared when it ends. -/
theorem portmap_in_bounds (h : system.Reach InRange w) :
    (∀ c, w.phase c ≠ .fault) ∧ (∀ a, (∀ i ∈ accesses w a, i < PORTMAP_SIZE) ↔ InRange w a) ∧
    ∀ c w₁ nt, next w (.go c) = some w₁ → w₁.phase c = .live nt → Maps w.policy nt →
      ∃ n < 32 * PORTMAP_SIZE, mapBit w.bitmap n = false ∧ (∀ m, mapBit w₁.bitmap m = (mapBit w.bitmap m || decide (m = n))) ∧
      ∀ w₂ w₃, (System.ofStep (· = w₁) next).Reach InRange w₂ → next w₂ (.go c) = some w₃ → w₃.phase c = .gone →
        ∀ m, mapBit w₃.bitmap m = (mapBit w₂.bitmap m && !decide (m = n)) := by
  have hin := reach_inside h
  refine ⟨fun c hfault => ?_, accesses_in_range hin, fun c w₁ nt hnext hlive hmaps => ?_⟩
  · have hinc := hin c
    rw [hfault] at hinc
    exact hinc
  obtain ⟨hlt, hfree, hset⟩ := next_taken hin hnext hlive hmaps
  refine ⟨slot nt.ntTport, hlt, hfree, hset, fun w₂ w₃ hrun hput hgone => ?_⟩
  have hin₁ := (next_moved (a := .go c) hin trivial hnext).all_inside hin
  have hholds : (w₁.phase c).Holds (slot nt.ntTport) := by
    rw [hlive]
    exact .live nt rfl
  exact next_given (holds_reach hin₁ hholds hrun).2 hput hgone

end Steps

def unused : World := ⟨fun _ => mapping, fun _ => 0, fun _ => .idle⟩

/-- The port 2000 is imported. -/
theorem portmap_in_bounds_import : (∀ i ∈ accesses (npfNatImport unused 0 0 1 3 2000 true) (.go 0), i < PORTMAP_SIZE) ∧
    ∃ w₁ nt, next (npfNatImport unused 0 0 1 3 2000 true) (.go 0) = some w₁ ∧ w₁.phase 0 = .live nt ∧ nt.ntTport = 2000 ∧
      ∃ n < 32 * PORTMAP_SIZE, mapBit w₁.bitmap n = true ∧
        ∀ w₂ w₃, (System.ofStep (· = w₁) next).Reach InRange w₂ → next w₂ (.go 0) = some w₃ → w₃.phase 0 = .gone →
          mapBit w₃.bitmap n = false := by
  have hreach : system.Reach InRange (npfNatImport unused 0 0 1 3 2000 true) :=
    .step (s := unused) (a := .import_ 0 0 1 3 2000 true) (.init ⟨rfl, rfl⟩) (fun _ _ => .inr (by decide)) rfl
  obtain ⟨-, hrange, hlife⟩ := portmap_in_bounds hreach
  obtain ⟨n, hlt, -, hset, hclear⟩ := hlife 0 _ ⟨0, none, 1, 3, 2000⟩ rfl rfl ⟨rfl, by decide⟩
  refine ⟨(hrange _).mpr trivial, _, _, rfl, rfl, rfl, n, hlt, ?_, fun w₂ w₃ hrun hput hgone => ?_⟩
  · rw [hset, decide_eq_true rfl, Bool.or_true]
  · rw [hclear w₂ w₃ hrun hput hgone, decide_eq_true rfl, Bool.not_true, Bool.and_false]

/-- The import of port 80 accesses word 2018 of 2016. -/
theorem portmap_out_of_bounds : ¬∀ w, system.Reachable w → ∀ a, ∀ i ∈ accesses w a, i < PORTMAP_SIZE := by
  intro h
  exact absurd (h unused (.init ⟨rfl, rfl⟩) (.import_ 0 0 0 0 80 true) 2018 (by decide)) (by decide)

end NetBSD.Net.Npf.NpfNat
