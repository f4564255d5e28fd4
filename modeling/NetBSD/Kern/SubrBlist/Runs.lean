import NetBSD.Kern.SubrBlist.Frees
import NetBSD.Kern.SubrBlist.Allocs

/-! The free blocks of a blist over whole runs. -/
namespace NetBSD.Kern.SubrBlist
open Option Nat
open Lib

section
variable {hp : Prop} {l scan c j : Nat} {t t' : Tree}

/-- What initializing a node of level `l` is to do. -/
def InitSpec (hp : Prop) (l : Nat) (op : Tree → Nat → Nat → Nat × Tree) : Prop :=
  ∀ {t scan c}, 0 < c → c ≤ radix l → Ok hp l (op t scan c).2 scan c ∧
    (∀ p < c, isFree l (op t scan c).2 scan p = false) ∧ ∀ i, i < scan ∨ scan + skip l < i → (op t scan c).2 i = t i

theorem initLoop_spec {child : Tree → Nat → Nat → Nat × Tree} (hchild : InitSpec hp l child) {rounds memindex : Nat}
    (hc : c ≤ radix (l + 1)) (hrounds : 17 ≤ rounds + j) (hj : j ≤ 16)
    (hdone : ∀ j' < j, j' * radix l < c → Shape l t (kid l scan j') (kidBlocks l c j')) :
    (∀ j', j' * radix l < c → Shape l (initLoop child l scan rounds t (1 + j * (skip l + 1)) memindex (c - j * radix l)).2
        (kid l scan j') (kidBlocks l c j')) ∧
      (∀ j' < 16, j ≤ j' → (j' - 1) * radix l < c → c ≤ j' * radix l →
        ((initLoop child l scan rounds t (1 + j * (skip l + 1)) memindex (c - j * radix l)).2 (kid l scan j')).bighint = terminator) ∧
      ∀ i, i ≤ scan ∨ scan + skip (l + 1) < i →
        (initLoop child l scan rounds t (1 + j * (skip l + 1)) memindex (c - j * radix l)).2 i = t i := by
  induction rounds generalizing j t memindex with
  | zero => omega
  | succ rounds ih =>
    rw [initLoop]
    have hsucc : (j + 1) * radix l = j * radix l + radix l := succ_mul _ _
    have hpos := radix_pos l
    by_cases hj16 : j < 16
    · rw [if_pos ((round_iff l j).2 hj16), kid_def, nextSkip_eq, round_next]
      by_cases hjc : j * radix l < c
      · -- The child has blocks, all it can have or fewer.
        have hblocks : ∀ n, n = kidBlocks l c j → ∀ m,
            (∀ j', j' * radix l < c → Shape l (initLoop child l scan rounds (child t (kid l scan j) n).2
                (1 + (j + 1) * (skip l + 1)) m (c - (j + 1) * radix l)).2 (kid l scan j') (kidBlocks l c j')) ∧
              (∀ j' < 16, j ≤ j' → (j' - 1) * radix l < c → c ≤ j' * radix l →
                ((initLoop child l scan rounds (child t (kid l scan j) n).2 (1 + (j + 1) * (skip l + 1)) m
                  (c - (j + 1) * radix l)).2 (kid l scan j')).bighint = terminator) ∧
              ∀ i, i ≤ scan ∨ scan + skip (l + 1) < i → (initLoop child l scan rounds (child t (kid l scan j) n).2
                (1 + (j + 1) * (skip l + 1)) m (c - (j + 1) * radix l)).2 i = t i := by
          rintro n rfl m
          obtain ⟨hok, -, hframe⟩ := @hchild t (kid l scan j) _ (kidBlocks_pos hjc) (kidBlocks_le l c j)
          have hother : ∀ j' < j, Agree l t (child t (kid l scan j) (kidBlocks l c j)).2 (kid l scan j') := by
            intro j' hlt i hlo hhi
            have := @kid_lt_kid l _ scan _ hlt
            exact hframe i (by omega)
          obtain ⟨hshape, hterm, hrest⟩ := ih (j := j + 1) (t := (child t (kid l scan j) (kidBlocks l c j)).2)
            (by omega) hj16 (fun j' hlt hj' => by
              by_cases heq : j' = j
              · exact heq ▸ hok.shape
              · exact shape_congr (hother j' (by omega)) (kidBlocks_le _ _ _) (hdone j' (by omega) hj'))
          refine ⟨hshape, fun j' hj' hle hlt hge => ?_, fun i hi => ?_⟩
          · have hne : j' ≠ j := fun heq => by rw [heq] at hge; omega
            exact hterm j' hj' (by omega) hlt hge
          rw [hrest i hi]
          have := @kid_le l _ scan hj16
          have := lt_kid l scan j
          exact hframe i (by omega)
        split
        case isTrue hfull =>
          rw [show c - j * radix l - radix l = c - (j + 1) * radix l by omega]
          exact hblocks (radix l) (by unfold kidBlocks; omega) _
        case isFalse hfull =>
          rw [if_pos (by omega), show (0 : Nat) = c - (j + 1) * radix l by omega]
          exact hblocks (c - j * radix l) (by unfold kidBlocks; omega) _
      · rw [if_neg (by omega), if_neg (by omega)]
        refine ⟨fun j' hj' => ?_, fun j' hj' hle hlt hge => ?_, fun i hi => ?_⟩
        · have hlt : j' < j := by
            by_contra hge
            have := Nat.mul_le_mul_right (radix l) (not_lt.1 hge)
            omega
          refine shape_congr (fun i hlo hhi => ?_) (kidBlocks_le _ _ _) (hdone j' hlt hj')
          have := @kid_lt_kid l _ scan _ hlt
          exact Tree.set_of_ne (by omega) _
        · have heq : j' = j := by
            by_contra hne
            have := Nat.mul_le_mul_right (radix l) (show j ≤ j' - 1 by omega)
            omega
          rw [heq]
          dsimp only
          rw [Tree.set_self]
        · have := @kid_le l _ scan hj16
          have := lt_kid l scan j
          exact Tree.set_of_ne (by omega) _
    · rw [if_neg fun h => hj16 ((round_iff l j).1 h)]
      refine ⟨fun j' hj' => hdone j' ?_ hj', fun j' hj' hle => by omega, fun i _ => rfl⟩
      have := kid_lt_sixteen hc hj'
      omega

theorem blstRadixInit_spec (l : Nat) : InitSpec hp l (blstRadixInit l) := by
  induction l with
  | zero =>
    intro t scan c hpos hc
    have hfree : ∀ p, isFree 0 (blstRadixInit 0 t scan c).2 scan p = false := by
      intro p
      rw [isFree, blstRadixInit]
      dsimp only
      rw [Tree.set_self]
      exact BitVec.getLsbD_zero
    refine ⟨⟨hpos, hc, ?_, fun p _ _ => hfree p, fun _ => bound_of_clear fun p _ => hfree p⟩, fun p _ => hfree p, fun i hi => ?_⟩
    · rw [Shape, blstRadixInit]
      dsimp only
      rw [Tree.set_self]
      exact (by decide : (0 : Nat) ≠ terminator)
    · exact Tree.set_of_ne (by omega) _
  | succ l ih =>
    intro t scan c hpos hc
    obtain ⟨hshape, hterm, hframe⟩ := @initLoop_spec _ _ scan _ 0
      (t.set scan { t scan with bighint := 0, avail := 0 }) _ ih 17 0 hc (by omega) (by omega) (fun j' hlt => by omega)
    rw [Nat.zero_mul, Nat.zero_mul, Nat.sub_zero] at hshape hterm hframe
    have hself := hframe scan (.inl (le_refl _))
    rw [Tree.set_self] at hself
    have havail : ((blstRadixInit (l + 1) t scan c).2 scan).avail = 0 := by rw [blstRadixInit, hself]
    have hfree : ∀ p, isFree (l + 1) (blstRadixInit (l + 1) t scan c).2 scan p = false := fun p => by
      rw [isFree, if_pos havail]
    refine ⟨⟨hpos, hc, ⟨?_, hshape, fun j hj hlt hle => hterm j hj (Nat.zero_le _) hlt hle⟩, ?_,
      fun _ => bound_of_clear fun p _ => hfree p, fun hne => absurd havail hne⟩, fun p _ => hfree p, fun i hi => ?_⟩
    · rw [blstRadixInit, hself]
      exact (by decide : (0 : Nat) ≠ terminator)
    · rw [havail, Row.count_empty fun p _ => hfree p]
    · rw [blstRadixInit, hframe i (by omega), Tree.set_of_ne (by omega)]

theorem radixLoop_some {blocks rounds level level' : Nat} (hblocks : blocks ≤ 2 ^ 29) (hlevel : level ≤ 6)
    (h : radixLoop blocks rounds (radix level) level = some level') : blocks ≤ radix level' ∧ level' ≤ 6 := by
  induction rounds generalizing level with
  | zero => cases h
  | succ rounds ih =>
    rw [radixLoop] at h
    split at h
    case isTrue hlt =>
      have hne : level ≠ 6 := fun heq => by
        rw [heq, show radix 6 = 2 ^ 29 from rfl] at hlt
        omega
      rw [radix_wrap (by omega)] at h
      exact ih (by omega) h
    case isFalse hge =>
      cases h
      exact ⟨not_lt.1 hge, hlevel⟩
where
  radix_wrap {level : Nat} (h : level < 6) : radix level * 16 % 2 ^ 32 = radix (level + 1) := by
    have hall : ∀ l < 6, radix l * 16 < 2 ^ 32 := by decide
    exact mod_eq_of_lt (hall level h)

end

theorem radixLoop_ends {blocks : Nat} (hblocks : blocks ≤ 2 ^ 29) (rounds level : Nat) (hlevel : level ≤ 6)
    (hrounds : 7 ≤ rounds + level) : (radixLoop blocks rounds (radix level) level).isSome := by
  induction rounds generalizing level with
  | zero => omega
  | succ rounds ih =>
    rw [radixLoop]
    split
    case isTrue hlt =>
      have hne : level ≠ 6 := fun heq => by
        rw [heq, show radix 6 = 2 ^ 29 from rfl] at hlt
        omega
      rw [radixLoop_some.radix_wrap (by omega)]
      exact ih (level + 1) (by omega) (by omega)
    case isFalse => rfl

theorem radixLoop_zero {blocks : Nat} (h : 0 < blocks) (rounds level : Nat) : radixLoop blocks rounds 0 level = none := by
  induction rounds generalizing level with
  | zero => rfl
  | succ rounds ih =>
    rw [radixLoop, if_pos h]
    exact ih (level + 1)

theorem radixLoop_wraps {blocks : Nat} (hblocks : 2 ^ 29 < blocks) (rounds level : Nat) (hlevel : level ≤ 6) :
    radixLoop blocks rounds (radix level) level = none := by
  induction rounds generalizing level with
  | zero => rfl
  | succ rounds ih =>
    have hle : radix level ≤ 2 ^ 29 := by
      match level with
      | 0 | 1 | 2 | 3 | 4 | 5 | 6 => decide
    rw [radixLoop, if_pos (by omega)]
    by_cases hlt : level < 6
    · rw [radixLoop_some.radix_wrap hlt]
      exact ih (level + 1) hlt
    · rw [show level = 6 by omega]
      exact radixLoop_zero (by omega) rounds 7

/-! ### Calls -/

inductive Call where
  | alloc (count : Nat)
  | free (blkno count : Nat)
  | fill (blkno count : Nat)

def next (bl : Blist) : Call → Option Blist
  | .alloc count => (blistAlloc bl count).map Prod.snd
  | .free blkno count => blistFree bl blkno count
  | .fill blkno count => (blistFill bl blkno count).map Prod.snd

/-- Counts within the limits, ranges of blocks of the list, and no block freed that is free. -/
def Valid (bl : Blist) : Call → Prop
  | .alloc count => 1 ≤ count ∧ count ≤ 32
  | .free blkno count => 1 ≤ count ∧ blkno + count ≤ bl.blocks ∧ ∀ p < count, isFree bl.level bl.root 0 (blkno + p) = false
  | .fill blkno count => 1 ≤ count ∧ blkno + count ≤ bl.blocks

instance (bl : Blist) (c : Call) : Decidable (Valid bl c) :=
  match c with
  | .alloc count => inferInstanceAs (Decidable (1 ≤ count ∧ count ≤ 32))
  | .free blkno count => inferInstanceAs (Decidable (1 ≤ count ∧ blkno + count ≤ bl.blocks ∧
      ∀ p < count, isFree bl.level bl.root 0 (blkno + p) = false))
  | .fill blkno count => inferInstanceAs (Decidable (1 ≤ count ∧ blkno + count ≤ bl.blocks))

/-- Runs start with a list for `n` blocks. -/
def system (n : Nat) : System Blist Call :=
  .ofStep (fun bl => 1 ≤ n ∧ ∃ rounds mem, blistCreate rounds mem n = some bl) next

def freeBlocks (bl : Blist) : Finset Nat := (Finset.range bl.blocks).filter fun p => isFree bl.level bl.root 0 p = true

/-- The list is as it should be, and counts its free blocks. -/
structure Sound (hp : Prop) (bl : Blist) : Prop where
  level : bl.level ≤ 6
  ok : Ok hp bl.level bl.root 0 bl.blocks
  free : bl.free = (freeBlocks bl).card

section
variable {hp : Prop} {bl : Blist} {root : Tree} {a k : Nat} {b : Bool}

theorem Sound.radix_lt (h : Sound hp bl) : radix bl.level < terminator := by
  have hle := h.level
  match hl : bl.level with
  | 0 | 1 | 2 | 3 | 4 | 5 | 6 => decide
  | l + 7 => omega

theorem mem_freeBlocks {p : Nat} : p ∈ freeBlocks bl ↔ p < bl.blocks ∧ isFree bl.level bl.root 0 p = true := by
  rw [freeBlocks, Finset.mem_filter, Finset.mem_range]

theorem freeBlocks_sdiff {free : Nat} (he : Effect hp bl.level bl.root root 0 bl.blocks a k false) :
    freeBlocks { bl with root := root, free := free } = freeBlocks bl \ Finset.Ico a (a + k) := by
  ext p
  rw [Finset.mem_sdiff, mem_freeBlocks, mem_freeBlocks]
  by_cases hp : p < bl.blocks
  · rw [he.free p hp]
    unfold Row.fill
    split
    case isTrue hin => simp [hin]
    case isFalse hin => simp [hin]
  · simp [hp]

theorem freeBlocks_union {free : Nat} (he : Effect hp bl.level bl.root root 0 bl.blocks a k true) (hak : a + k ≤ bl.blocks) :
    freeBlocks { bl with root := root, free := free } = freeBlocks bl ∪ Finset.Ico a (a + k) := by
  ext p
  rw [Finset.mem_union, mem_freeBlocks, mem_freeBlocks]
  by_cases hp : p < bl.blocks
  · rw [he.free p hp]
    unfold Row.fill
    split
    case isTrue hin => simp [hin, hp]
    case isFalse hin => simp [hin]
  · have hout : ¬(a ≤ p ∧ p < a + k) := by omega
    simp [hp, hout]

theorem card_inter (hak : a + k ≤ bl.blocks) : (freeBlocks bl ∩ Finset.Ico a (a + k)).card = Row.countIn (isFree bl.level bl.root 0) a k := by
  have hsum := Row.count_fill_clear (f := isFree bl.level bl.root 0) hak
  have hsplit := Finset.card_sdiff_add_card_inter (freeBlocks bl) (Finset.Ico a (a + k))
  have hleft : (freeBlocks bl \ Finset.Ico a (a + k)).card = Row.count bl.blocks (Row.fill (isFree bl.level bl.root 0) a k false) := by
    congr 1
    ext p
    rw [Finset.mem_sdiff, mem_freeBlocks, Finset.mem_filter]
    unfold Row.fill
    split
    case isTrue hin => simp [hin]
    case isFalse hin => simp [hin]
  have hall : (freeBlocks bl).card = Row.count bl.blocks (isFree bl.level bl.root 0) := rfl
  omega

/-- `blk` is what an allocation of `count` blocks is to return, and what it is to leave. -/
def Taken (bl bl' : Blist) (count : Nat) : Option Nat → Prop
  | none => freeBlocks bl' = freeBlocks bl
  | some blk => Finset.Ico blk (blk + count) ⊆ freeBlocks bl ∧ freeBlocks bl' = freeBlocks bl \ Finset.Ico blk (blk + count)

theorem Sound.alloc (h : Sound hp bl) {count : Nat} (hpos : 1 ≤ count) (hcount : count ≤ 32) :
    ∃ r bl', blistAlloc bl count = some (r, bl') ∧ Taken bl bl' count r ∧ Sound hp bl' ∧
      (hp → r = none → NoRoom (isFree bl.level bl.root 0) bl.blocks count) := by
  obtain ⟨r, t', hrun, ⟨rfl, heff, hno⟩ | ⟨a, rfl, hac, hset, heff⟩⟩ :=
    @blstAlloc_spec _ _ count h.radix_lt hpos hcount _ _ _ 0 h.ok
  · beta_reduce at hrun
    have hsame : freeBlocks { bl with root := t', free := bl.free } = freeBlocks bl := by
      rw [freeBlocks_sdiff heff, Finset.Ico_self, Finset.sdiff_empty]
    refine ⟨none, { bl with root := t', free := bl.free }, by rw [blistAlloc, hrun]; rfl, hsame, ⟨h.level, heff.ok, ?_⟩, fun hhp _ => hno hhp⟩
    rw [hsame]
    exact h.free
  beta_reduce at hrun
  rw [zero_add] at hrun
  have hsub : Finset.Ico a (a + count) ⊆ freeBlocks bl := by
    intro p hp
    rw [Finset.mem_Ico] at hp
    exact mem_freeBlocks.2 ⟨by omega, hset p hp.1 hp.2⟩
  have hfree : freeBlocks { bl with root := t', free := bl.free - count } = freeBlocks bl \ Finset.Ico a (a + count) :=
    freeBlocks_sdiff heff
  refine ⟨some a, { bl with root := t', free := bl.free - count }, by rw [blistAlloc, hrun]; rfl, ⟨hsub, hfree⟩,
    ⟨h.level, heff.ok, ?_⟩, fun _ hne => absurd hne nofun⟩
  rw [hfree, Finset.card_sdiff_of_subset hsub, card_Ico, Nat.add_sub_cancel_left, ← h.free]

theorem Sound.free_blocks (h : Sound hp bl) {blkno count : Nat} (hv : Valid bl (.free blkno count))
    (hkeep : hp → KeepsHint bl.level bl.root 0 blkno count) :
    ∃ bl', blistFree bl blkno count = some bl' ∧ freeBlocks bl' = freeBlocks bl ∪ Finset.Ico blkno (blkno + count) ∧ Sound hp bl' := by
  obtain ⟨hpos, hin, hclear⟩ := hv
  obtain ⟨t', hrun, heff⟩ := @blstFree_spec hp _ h.radix_lt _ _ _ _ _ 0 h.ok hpos hin rfl (fun p hlo hhi => by
    have hcell := hclear (p - blkno) (by omega)
    rwa [Nat.add_sub_cancel' hlo] at hcell) hkeep
  rw [zero_add] at hrun
  have hfree : freeBlocks { bl with root := t', free := bl.free + count } = freeBlocks bl ∪ Finset.Ico blkno (blkno + count) :=
    freeBlocks_union heff hin
  refine ⟨_, by rw [blistFree, hrun]; rfl, hfree, h.level, heff.ok, ?_⟩
  have hdisj : Disjoint (freeBlocks bl) (Finset.Ico blkno (blkno + count)) := by
    rw [Finset.disjoint_left]
    intro p hp hp'
    rw [Finset.mem_Ico] at hp'
    have hcell := hclear (p - blkno) (by omega)
    rw [Nat.add_sub_cancel' hp'.1, (mem_freeBlocks.1 hp).2] at hcell
    exact absurd hcell (by decide)
  rw [hfree, Finset.card_union_of_disjoint hdisj, card_Ico, Nat.add_sub_cancel_left, ← h.free]

theorem Sound.fill (h : Sound hp bl) {blkno count : Nat} (hpos : 1 ≤ count) (hin : blkno + count ≤ bl.blocks) :
    ∃ bl', blistFill bl blkno count = some ((freeBlocks bl ∩ Finset.Ico blkno (blkno + count)).card, bl') ∧
      freeBlocks bl' = freeBlocks bl \ Finset.Ico blkno (blkno + count) ∧ Sound hp bl' := by
  obtain ⟨t', hrun, heff⟩ := @blstFill_spec hp _ h.radix_lt _ _ _ _ _ 0 h.ok hpos hin rfl
  rw [zero_add, ← card_inter hin] at hrun
  have hfree : freeBlocks { bl with root := t', free := bl.free - (freeBlocks bl ∩ Finset.Ico blkno (blkno + count)).card } =
      freeBlocks bl \ Finset.Ico blkno (blkno + count) := freeBlocks_sdiff heff
  refine ⟨_, by rw [blistFill, hrun]; rfl, hfree, h.level, heff.ok, ?_⟩
  have hsplit := Finset.card_sdiff_add_card_inter (freeBlocks bl) (Finset.Ico blkno (blkno + count))
  have hold := h.free
  rw [hfree]
  show bl.free - _ = _
  omega

theorem create_sound {n rounds : Nat} {mem : Tree} (hn : 1 ≤ n) (h : blistCreate rounds mem n = some bl) :
    n ≤ 2 ^ 29 ∧ Sound hp bl ∧ freeBlocks bl = ∅ := by
  obtain ⟨level, hloop, rfl⟩ := map_eq_some_iff.1 h
  have hblocks : n ≤ 2 ^ 29 := by
    by_contra hgt
    rw [show (32 : Nat) = radix 0 from rfl, radixLoop_wraps (not_le.1 hgt) rounds 0 (zero_le _)] at hloop
    cases hloop
  obtain ⟨hle, hlevel⟩ := @radixLoop_some _ _ 0 _ hblocks (zero_le _) hloop
  obtain ⟨hok, hfree, -⟩ := @blstRadixInit_spec hp level mem 0 _ hn hle
  have hempty : freeBlocks ⟨n, level, 0, 1 + (blstRadixInit level mem 0 n).1, (blstRadixInit level mem 0 n).2⟩ = ∅ := by
    rw [freeBlocks, Finset.filter_eq_empty_iff]
    intro p hp
    rw [hfree p (Finset.mem_range.1 hp)]
    decide
  exact ⟨hblocks, ⟨hlevel, hok, by rw [hempty]; rfl⟩, hempty⟩

/-! ### Runs -/

/-- The calls that also keep the hints. -/
def KeepsHints (bl : Blist) : Call → Prop
  | .free blkno count => KeepsHint bl.level bl.root 0 blkno count
  | _ => True

instance (bl : Blist) (c : Call) : Decidable (KeepsHints bl c) :=
  match c with
  | .free blkno count => inferInstanceAs (Decidable (KeepsHint bl.level bl.root 0 blkno count))
  | .alloc _ => inferInstanceAs (Decidable True)
  | .fill _ _ => inferInstanceAs (Decidable True)

theorem next_sound {c : Call} {bl' : Blist} (h : Sound hp bl) (hv : Valid bl c) (hkeep : hp → KeepsHints bl c)
    (hn : next bl c = some bl') : Sound hp bl' := by
  cases c with
  | alloc count =>
    obtain ⟨r, bl₁, hrun, -, hs, -⟩ := h.alloc hv.1 hv.2
    rw [next, hrun] at hn
    cases hn
    exact hs
  | free blkno count =>
    obtain ⟨bl₁, hrun, -, hs⟩ := h.free_blocks hv hkeep
    rw [next, hrun] at hn
    cases hn
    exact hs
  | fill blkno count =>
    obtain ⟨bl₁, hrun, -, hs⟩ := h.fill hv.1 hv.2
    rw [next, hrun] at hn
    cases hn
    exact hs

theorem reach_sound {ok : Blist → Call → Prop} {n : Nat} (hok : ∀ bl c, ok bl c → Valid bl c ∧ (hp → KeepsHints bl c))
    (h : (system n).Reach ok bl) : Sound hp bl := by
  refine System.Reach.invariant ?_ ?_ h
  · rintro bl ⟨hn, rounds, mem, hcreate⟩
    exact (create_sound hn hcreate).2.1
  · intro bl c bl' hs hc hstep
    exact next_sound hs (hok bl c hc).1 (hok bl c hc).2 hstep

end

/-- The list behaves as a set of free blocks, and counts it. -/
structure Refines (bl : Blist) : Prop where
  free_card : bl.free = (freeBlocks bl).card
  alloc : ∀ count, 1 ≤ count → count ≤ 32 → ∃ r bl', blistAlloc bl count = some (r, bl') ∧ Taken bl bl' count r
  free : ∀ blkno count, 1 ≤ count → blkno + count ≤ bl.blocks → Disjoint (Finset.Ico blkno (blkno + count)) (freeBlocks bl) →
    ∃ bl', blistFree bl blkno count = some bl' ∧ freeBlocks bl' = freeBlocks bl ∪ Finset.Ico blkno (blkno + count)
  fill : ∀ blkno count, 1 ≤ count → blkno + count ≤ bl.blocks →
    ∃ bl', blistFill bl blkno count = some ((freeBlocks bl ∩ Finset.Ico blkno (blkno + count)).card, bl') ∧
      freeBlocks bl' = freeBlocks bl \ Finset.Ico blkno (blkno + count)

theorem Sound.refines {bl : Blist} (h : Sound False bl) : Refines bl := by
  refine ⟨h.free, fun count hpos hcount => ?_, fun blkno count hpos hin hdisj => ?_, fun blkno count hpos hin => ?_⟩
  · obtain ⟨r, bl', hrun, htaken, -, -⟩ := h.alloc hpos hcount
    exact ⟨r, bl', hrun, htaken⟩
  · have hclear : ∀ p < count, isFree bl.level bl.root 0 (blkno + p) = false := by
      intro p hp
      by_contra hset
      rw [Bool.not_eq_false] at hset
      exact Finset.disjoint_left.1 hdisj (Finset.mem_Ico.2 ⟨Nat.le_add_right _ _, by omega⟩)
        (mem_freeBlocks.2 ⟨by omega, hset⟩)
    obtain ⟨bl', hrun, hfree, -⟩ := h.free_blocks ⟨hpos, hin, hclear⟩ nofun
    exact ⟨bl', hrun, hfree⟩
  · obtain ⟨bl', hrun, hfree, -⟩ := h.fill hpos hin
    exact ⟨bl', hrun, hfree⟩

/-- A list for `n` blocks is made, empty, and refines its set of free blocks in every run, if and
only if the radix that has the blocks fits into 32 bits. -/
theorem blist_refines_set (n : Nat) (hn : 1 ≤ n) : ((∀ mem, ∃ rounds bl, blistCreate rounds mem n = some bl ∧ freeBlocks bl = ∅) ∧
      ∀ bl, (system n).Reach Valid bl → Refines bl) ↔ n ≤ 2 ^ 29 := by
  constructor
  · intro h
    obtain ⟨rounds, bl, hcreate, -⟩ := h.1 fun _ => ⟨0, 0, 0⟩
    exact (@create_sound False _ _ _ _ hn hcreate).1
  intro hle
  refine ⟨fun mem => ?_, fun bl h => ?_⟩
  · obtain ⟨level, hlevel⟩ := isSome_iff_exists.1 (radixLoop_ends hle 7 0 (zero_le _) (le_refl _))
    have hcreate : blistCreate 7 mem n = some ⟨n, level, 0, 1 + (blstRadixInit level mem 0 n).1, (blstRadixInit level mem 0 n).2⟩ := by
      rw [blistCreate, show (32 : Nat) = radix 0 from rfl, hlevel]
      rfl
    exact ⟨7, _, hcreate, (@create_sound False _ _ _ _ hn hcreate).2.2⟩
  · exact (@reach_sound False _ _ _ (fun bl c hv => ⟨hv, nofun⟩) h).refines

/-- The most blocks there can be. -/
theorem blist_refines_set_most : (∀ mem, ∃ rounds bl, blistCreate rounds mem (2 ^ 29) = some bl ∧ freeBlocks bl = ∅) ∧
    ∀ bl, (system (2 ^ 29)).Reach Valid bl → Refines bl :=
  (blist_refines_set (2 ^ 29) (by decide)).2 (le_refl _)

/-- One block more, and the loop for the radix goes on for ever. -/
theorem create_hangs : ¬((∀ mem, ∃ rounds bl, blistCreate rounds mem (2 ^ 29 + 1) = some bl ∧ freeBlocks bl = ∅) ∧
    ∀ bl, (system (2 ^ 29 + 1)).Reach Valid bl → Refines bl) ∧
    ∀ rounds mem, (blistCreate rounds mem (2 ^ 29 + 1)).isNone := by
  have hnone : ∀ rounds mem, blistCreate rounds mem (2 ^ 29 + 1) = none := fun rounds mem => by
    rw [blistCreate, show (32 : Nat) = radix 0 from rfl, radixLoop_wraps (lt_succ_self _) rounds 0 (zero_le _)]
    rfl
  refine ⟨fun h => ?_, fun rounds mem => by rw [hnone]; rfl⟩
  obtain ⟨rounds, bl, hcreate, -⟩ := h.1 fun _ => ⟨0, 0, 0⟩
  rw [hnone] at hcreate
  cases hcreate

/-- The hint of every node that is not stale is at least the most free blocks in a row in a leaf. -/
def HintsHigh : Nat → Tree → Nat → Nat → Prop
  | 0, t, scan, c => Bound (isFree 0 t scan) c (t scan).bighint
  | l + 1, t, scan, c => Bound (isFree (l + 1) t scan) c (t scan).bighint ∧ ((t scan).avail ≠ 0 → (t scan).avail ≠ radix (l + 1) →
        ∀ j, j * radix l < c → HintsHigh l t (kid l scan j) (kidBlocks l c j))

theorem Content.hintsHigh {l scan c : Nat} {t : Tree} (h : Content True l t scan c) : HintsHigh l t scan c := by
  induction l generalizing scan c with
  | zero => exact h.2 trivial
  | succ l ih => exact ⟨h.2.1 trivial, fun h0 hr j hj => ih (h.2.2 h0 hr j hj)⟩

/-- In every run in which no call completes a node whose hint is too low for it: no hint is too
low, and an allocation fails only where no leaf has room. -/
theorem hints_not_low (n : Nat) (bl : Blist) (h : (system n).Reach (fun bl c => Valid bl c ∧ KeepsHints bl c) bl) :
    HintsHigh bl.level bl.root 0 bl.blocks ∧ ∀ count bl', 1 ≤ count → count ≤ 32 → blistAlloc bl count = some (none, bl') →
        NoRoom (isFree bl.level bl.root 0) bl.blocks count := by
  have hs : Sound True bl := reach_sound (fun bl c hv => ⟨hv.1, fun _ => hv.2⟩) h
  refine ⟨hs.ok.content.hintsHigh, fun count bl' hpos hcount hrun => ?_⟩
  obtain ⟨r, bl₁, hrun', -, -, hno⟩ := hs.alloc hpos hcount
  rw [hrun] at hrun'
  cases hrun'
  exact hno trivial rfl

/-- A list for 1024 blocks, in memory that held nothing of use. -/
def newBlist : Blist :=
  ⟨1024, 2, 0, 1 + (blstRadixInit 2 (fun _ => ⟨7, 9, 5⟩) 0 1024).1, (blstRadixInit 2 (fun _ => ⟨7, 9, 5⟩) 0 1024).2⟩

/-- All but two blocks of a node are filled; three are found in the next node. -/
theorem hints_not_low_two : ∃ bl, (system 1024).Reach (fun bl c => Valid bl c ∧ KeepsHints bl c) bl ∧ bl.free = 14 ∧
    HintsHigh bl.level bl.root 0 bl.blocks := by
  have hrun : (System.run (System.guarded (fun bl c => Valid bl c ∧ KeepsHints bl c) next) newBlist
      [.free 0 512, .fill 0 510, .alloc 3, .free 600 15, .alloc 3]).map (·.free) = some 14 := by
    set_option maxRecDepth 4000 in decide
  obtain ⟨bl, hbl, hfree⟩ := map_eq_some_iff.1 hrun
  have hreach : (system 1024).Reach (fun bl c => Valid bl c ∧ KeepsHints bl c) bl :=
    System.reach_run _ _ _ _ _ ⟨by decide, 10, _, rfl⟩ hbl
  exact ⟨bl, hreach, hfree, (hints_not_low 1024 bl hreach).1⟩

/-- A search for three blocks fails in a node that has two; then the node is completed, keeps the
hint 2, and the search fails again. -/
theorem hint_stays_low : ∃ bl bl', (system 1024).Reach Valid bl ∧ blistAlloc bl 3 = some (none, bl') ∧
    (∀ p < 512, isFree bl.level bl.root 0 p = true) ∧ bl.blocks = 1024 ∧
    ¬NoRoom (isFree bl.level bl.root 0) bl.blocks 3 ∧ ¬HintsHigh bl.level bl.root 0 bl.blocks := by
  have hrun : (System.run (System.guarded Valid next) newBlist [.free 0 512, .fill 0 510, .alloc 3, .free 0 510]).map
      (fun bl => (((blistAlloc bl 3).map Prod.fst, bl.blocks, bl.level, (List.range 512).all (isFree bl.level bl.root 0)),
        (bl.root 0).avail, (bl.root (kid 1 0 0)).bighint)) = some ((some none, 1024, 2, true), 512, 2) := by
    set_option maxRecDepth 4000 in decide
  obtain ⟨bl, hbl, hobs⟩ := map_eq_some_iff.1 hrun
  simp only [Prod.mk.injEq] at hobs
  obtain ⟨⟨halloc, hblocks, hlevel, hfree⟩, havail, hhint⟩ := hobs
  obtain ⟨⟨r, bl'⟩, halloc, rfl⟩ := map_eq_some_iff.1 halloc
  have hfree : ∀ p < 512, isFree bl.level bl.root 0 p = true := fun p hp => List.all_eq_true.1 hfree p (List.mem_range.2 hp)
  have hroom : ∀ p, 0 ≤ p → p < 0 + 3 → isFree bl.level bl.root 0 p = true := fun p _ hp => hfree p (by omega)
  refine ⟨bl, bl', System.reach_run _ _ _ _ _ ⟨by decide, 10, _, rfl⟩ hbl, halloc, hfree, hblocks, fun hno => ?_, fun hhigh => ?_⟩
  · exact hno 0 (by decide) (by omega) hroom
  rw [hblocks, hlevel] at hhigh
  rw [hlevel] at hroom
  have hbound := hhigh.2 (by omega) (by rw [havail]; decide) 0 (by decide)
  have hle := hbound.1 0 3 (by decide) (by decide) fun p hlo hhi => by
    have hcell := hroom p hlo hhi
    rw [isFree, if_neg (by omega), if_neg (by rw [havail]; decide)] at hcell
    rw [div_eq_of_lt (show p < radix 1 by rw [show radix 1 = 512 from rfl]; omega),
      mod_eq_of_lt (show p < radix 1 by rw [show radix 1 = 512 from rfl]; omega)] at hcell
    exact hcell
  rw [hhint] at hle
  omega

end NetBSD.Kern.SubrBlist
