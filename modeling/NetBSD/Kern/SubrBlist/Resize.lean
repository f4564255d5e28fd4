import NetBSD.Kern.SubrBlist.Runs

/-! Another size for a list.

`blist_resize` makes a new list, all allocated, and frees in it what is free in the old one. The two
trees differ in shape and depth, so the copy is a run of `blist_free` on the new list: each call finds
its blocks allocated, since the walk of the old tree comes to each block once (`blstCopy_spec`). -/
namespace NetBSD.Kern.SubrBlist
open Lib

/-- The set bits of a leaf, of those below `count`. -/
def copyBits (v : Word) (blk count : Nat) : Nat → Nat → Blist → Option Blist
  | 0, _, dest => some dest
  | rounds + 1, j, dest =>
    if j < count then
      if v &&& (1#32 <<< j) ≠ 0 then (blistFree dest (blk + j) 1).bind (copyBits v blk count rounds (j + 1))
      else copyBits v blk count rounds (j + 1) dest
    else some dest

section
variable (child : Nat → Nat → Blist → Nat → Option Blist) (l : Nat) (t : Tree) (scan : Nat)

def copyLoop : Nat → Nat → Nat → Blist → Nat → Option Blist
  | 0, _, _, _, _ => none
  | rounds + 1, i, blk, dest, count =>
    if count ≠ 0 ∧ i ≤ skip (l + 1) then
      if (t (scan + i)).bighint = terminator then some dest
      else if count ≥ radix l then
        (child (scan + i) blk dest (radix l)).bind fun dest =>
          copyLoop rounds (i + nextSkip l) (blk + radix l) dest (count - radix l)
      else
        (child (scan + i) blk dest count).bind fun dest =>
          copyLoop rounds (i + nextSkip l) (blk + radix l) dest 0
    else some dest

end

/-- What is free under the node is freed in the other list; `count` blocks are looked at. -/
def blstCopy : Nat → Tree → Nat → Nat → Blist → Nat → Option Blist
  | 0, t, scan, blk, dest, count =>
    if (t scan).bitmap = -1 then blistFree dest blk count
    else if (t scan).bitmap ≠ 0 then copyBits (t scan).bitmap blk count 32 0 dest
    else some dest
  | l + 1, t, scan, blk, dest, count =>
    if (t scan).avail = 0 then some dest
    else if (t scan).avail = radix (l + 1) then
      if count < radix (l + 1) then blistFree dest blk count else blistFree dest blk (radix (l + 1))
    else copyLoop (blstCopy l t) l t scan 17 1 blk dest count

/-- `mem` is the memory of the new list. -/
def blistResize (rounds : Nat) (mem : Tree) (bl : Blist) (count : Nat) (freenew : Bool) : Option Blist :=
  (blistCreate rounds mem count).bind fun newbl =>
    let count := if count > bl.blocks then bl.blocks else count
    (blstCopy bl.level bl.root 0 0 newbl count).bind fun newbl =>
      if freenew ∧ count < newbl.blocks then blistFree newbl count (newbl.blocks - count) else some newbl

/-! ### The copy -/

/-- Of the `count` blocks from `blk` on, those of a row have been freed. -/
structure Copied (row : Nat → Bool) (dest dest' : Blist) (blk count : Nat) : Prop where
  sound : Sound False dest'
  blocks : dest'.blocks = dest.blocks
  free : ∀ p, p ∈ freeBlocks dest' ↔ p ∈ freeBlocks dest ∨ ∃ q < count, p = blk + q ∧ row q = true

/-- The blocks are there, and allocated. -/
structure Ready (dest : Blist) (blk count : Nat) : Prop where
  sound : Sound False dest
  inside : blk + count ≤ dest.blocks
  clear : ∀ q < count, blk + q ∉ freeBlocks dest

section
variable {row row' : Nat → Bool} {dest dest' dest'' : Blist} {blk count k l j scan c : Nat} {t : Tree}

theorem Copied.congr (h : Copied row dest dest' blk count) (hrow : ∀ q < count, row' q = row q) : Copied row' dest dest' blk count := by
  refine ⟨h.sound, h.blocks, fun p => (h.free p).trans (or_congr_right ?_)⟩
  exact exists_congr fun q => and_congr_right fun hq => by rw [hrow q hq]

theorem Ready.none (h : Ready dest blk count) (hrow : ∀ q < count, row q = false) : Copied row dest dest blk count := by
  refine ⟨h.sound, rfl, fun p => ⟨.inl, fun hp => hp.resolve_right fun ⟨q, hq, _, hset⟩ => ?_⟩⟩
  rw [hrow q hq] at hset
  cases hset

theorem Copied.trans (h : Copied row dest dest' blk k) (h' : Copied (fun q => row (k + q)) dest' dest'' (blk + k) count) :
    Copied row dest dest'' blk (k + count) := by
  refine ⟨h'.sound, h'.blocks.trans h.blocks, fun p => ?_⟩
  rw [h'.free, h.free, or_assoc]
  apply or_congr_right
  constructor
  · rintro (⟨q, hq, rfl, hset⟩ | ⟨q, hq, rfl, hset⟩)
    · exact ⟨q, by omega, rfl, hset⟩
    · exact ⟨k + q, by omega, add_assoc _ _ _, hset⟩
  rintro ⟨q, hq, rfl, hset⟩
  rcases Nat.lt_or_ge q k with hlt | hge
  · exact .inl ⟨q, hlt, rfl, hset⟩
  · obtain ⟨r, rfl⟩ := Nat.exists_eq_add_of_le hge
    exact .inr ⟨r, by omega, (add_assoc _ _ _).symm, hset⟩

theorem Ready.head (h : Ready dest blk (k + count)) : Ready dest blk k :=
  ⟨h.sound, by have := h.inside; omega, fun q hq => h.clear q (by omega)⟩

theorem Ready.rest (h : Ready dest blk (k + count)) (hc : Copied row dest dest' blk k) : Ready dest' (blk + k) count := by
  refine ⟨hc.sound, by rw [hc.blocks]; have := h.inside; omega, fun q hq hmem => ?_⟩
  rcases (hc.free _).mp hmem with hold | ⟨r, hr, heq, -⟩
  · rw [add_assoc] at hold
    exact h.clear (k + q) (by omega) hold
  · omega

theorem Ready.all (h : Ready dest blk count) (hpos : 0 < count) (hrow : ∀ q < count, row q = true) :
    ∃ dest', blistFree dest blk count = some dest' ∧ Copied row dest dest' blk count := by
  have hclear (q : Nat) (hq : q < count) : isFree dest.level dest.root 0 (blk + q) = false := by
    by_contra hset
    have hin := h.inside
    exact h.clear q hq (mem_freeBlocks.mpr ⟨by omega, Bool.eq_true_of_not_eq_false hset⟩)
  obtain ⟨dest', hrun, hfree, hsound⟩ := h.sound.free_blocks (show Valid dest (.free blk count) from ⟨hpos, h.inside, hclear⟩) nofun
  have hblocks : dest'.blocks = dest.blocks := by
    obtain ⟨root, -, rfl⟩ := Option.map_eq_some_iff.mp hrun
    rfl
  refine ⟨dest', hrun, hsound, hblocks, fun p => ?_⟩
  rw [hfree, Finset.mem_union, Finset.mem_Ico]
  apply or_congr_right
  constructor
  · rintro ⟨hge, hlt⟩
    exact ⟨p - blk, by omega, by omega, hrow _ (by omega)⟩
  · omega

theorem copyBits_spec {v : Word} {rounds : Nat} (hrounds : rounds + j = 32) (hcount : j + k = count) (hle : count ≤ 32) (h : Ready dest (blk + j) k) :
    ∃ dest', copyBits v blk count rounds j dest = some dest' ∧ Copied (fun q => v.getLsbD (j + q)) dest dest' (blk + j) k := by
  induction rounds generalizing j k dest with
  | zero => exact ⟨dest, rfl, h.none fun q hq => by omega⟩
  | succ rounds ih =>
    rw [copyBits]
    rcases Nat.eq_zero_or_pos k with rfl | hpos
    · rw [if_neg (by omega)]
      exact ⟨dest, rfl, h.none fun q hq => absurd hq (Nat.not_lt_zero q)⟩
    obtain ⟨k, rfl⟩ := Nat.exists_eq_add_of_le hpos
    rw [if_pos (by omega)]
    have hbit := and_mask_eq_zero (w := v) (isMask_one (r := j) (by omega)) (by omega)
    have hfirst : ∃ dest₁, (if v &&& (1#32 <<< j) ≠ 0 then (blistFree dest (blk + j) 1).bind (copyBits v blk count rounds (j + 1))
        else copyBits v blk count rounds (j + 1) dest) = copyBits v blk count rounds (j + 1) dest₁ ∧
        Copied (fun q => v.getLsbD (j + q)) dest dest₁ (blk + j) 1 := by
      split
      · next hset =>
        have hone (q : Nat) (hq : q < 1) : v.getLsbD (j + q) = true := by
          rw [Nat.lt_one_iff.mp hq]
          by_contra hno
          refine hset (hbit.mpr fun i hlo hhi => ?_)
          rw [show i = j by omega]
          exact Bool.eq_false_iff.mpr hno
        obtain ⟨dest₁, hrun, hcopied⟩ := h.head.all one_pos hone
        rw [hrun]
        exact ⟨dest₁, rfl, hcopied⟩
      · next hclear =>
        refine ⟨dest, rfl, h.head.none fun q hq => ?_⟩
        rw [Nat.lt_one_iff.mp hq]
        exact hbit.mp (not_not.mp hclear) j (le_refl _) (Nat.lt_succ_self _)
    obtain ⟨dest₁, heq, hcopied⟩ := hfirst
    have hrest := h.rest hcopied
    obtain ⟨dest', hrun, hcopied'⟩ := ih (j := j + 1) (by omega) (by omega) hrest
    rw [heq]
    refine ⟨dest', hrun, hcopied.trans ?_⟩
    exact hcopied'.congr fun q _ => by rw [add_assoc]

/-- What the copy of a node does. -/
def CopySpec (l : Nat) (t : Tree) (op : Nat → Nat → Blist → Nat → Option Blist) : Prop :=
  ∀ {scan c blk count : Nat} {dest : Blist}, Ok False l t scan c → 0 < count → count ≤ c → Ready dest blk count →
    ∃ dest', op scan blk dest count = some dest' ∧ Copied (isFree l t scan) dest dest' blk count

theorem copyLoop_spec {child : Nat → Nat → Blist → Nat → Option Blist} (hchild : CopySpec l t child) (hk : Kids False l t scan c)
    (hc : c ≤ radix (l + 1)) {rounds : Nat} (hrounds : rounds + j = 17) (hj : j ≤ 16) (hin : 0 < count → j * radix l + count ≤ c)
    (h : Ready dest blk count) : ∃ dest', copyLoop child l t scan rounds (1 + j * (skip l + 1)) blk dest count = some dest' ∧
      Copied (fun q => below l t scan (j * radix l + q)) dest dest' blk count := by
  induction rounds generalizing j blk dest count with
  | zero => omega
  | succ rounds ih =>
    rw [copyLoop]
    rcases Nat.eq_zero_or_pos count with rfl | hpos
    · exact ⟨dest, rfl, h.none fun q hq => absurd hq (Nat.not_lt_zero q)⟩
    have hjc : j * radix l < c := by omega
    have hj16 := kid_lt_sixteen hc hjc
    have hkid := hk.ok j hjc
    rw [if_pos ⟨ne_of_gt hpos, (round_iff l j).mpr hj16⟩, kid_def, if_neg hkid.hint, nextSkip_eq, round_next]
    have hsucc : (j + 1) * radix l = j * radix l + radix l := Nat.succ_mul _ _
    -- the first child has its blocks in the row of the node
    have hrow {k : Nat} (hkr : k ≤ radix l) (q : Nat) (hq : q < k) :
        below l t scan (j * radix l + q) = isFree l t (kid l scan j) q := below_kid (lt_of_lt_of_le hq hkr)
    have hpart : min (radix l) count ≤ kidBlocks l c j := by
      unfold kidBlocks
      omega
    split
    · next hge =>
      obtain ⟨k, rfl⟩ := Nat.exists_eq_add_of_le hge
      obtain ⟨dest₁, hrun, hcopied⟩ := hchild hkid (radix_pos l) (by omega) h.head
      have hcopied := hcopied.congr (hrow (le_refl _))
      obtain ⟨dest', hloop, hrest⟩ := ih (j := j + 1) (by omega) hj16 (fun _ => by omega) (h.rest hcopied)
      rw [hrun, Nat.add_sub_cancel_left]
      exact ⟨dest', hloop, hcopied.trans (hrest.congr fun q _ => by rw [hsucc, add_assoc])⟩
    · next hlt =>
      obtain ⟨dest₁, hrun, hcopied⟩ := hchild hkid hpos (by omega) h
      have hcopied := hcopied.congr (hrow (by omega))
      -- one more round, with nothing left
      obtain ⟨rounds, rfl⟩ := Nat.exists_eq_succ_of_ne_zero (show rounds ≠ 0 by omega)
      rw [hrun, Option.bind_some]
      exact ⟨dest₁, rfl, hcopied⟩

theorem blstCopy_spec (l : Nat) (t : Tree) : CopySpec l t (blstCopy l t) := by
  induction l with
  | zero =>
    intro scan c blk count dest hok hpos hcount h
    have hle : c ≤ 32 := hok.le
    rw [blstCopy]
    split
    · next hones =>
      refine h.all hpos fun q hq => ?_
      rw [isFree, hones]
      exact getLsbD_neg_one (by omega)
    split
    · obtain ⟨dest', hrun, hcopied⟩ := @copyBits_spec _ _ _ _ 0 (t scan).bitmap 32 rfl (zero_add count) (by omega) h
      exact ⟨dest', hrun, hcopied.congr fun q _ => by rw [zero_add]; rfl⟩
    · next hzero =>
      refine ⟨dest, rfl, h.none fun q _ => ?_⟩
      rw [isFree, not_not.mp hzero]
      exact BitVec.getLsbD_zero
  | succ l ih =>
    intro scan c blk count dest hok hpos hcount h
    rw [blstCopy]
    split
    · next hempty => exact ⟨dest, rfl, h.none fun q _ => if_pos hempty⟩
    · next hsome =>
      split
      · next hfull =>
        have hrow (q : Nat) (_ : q < count) : isFree (l + 1) t scan q = true := by
          rw [isFree, if_neg hsome, if_pos hfull]
        split
        · exact h.all hpos hrow
        · next hge =>
          have heq : radix (l + 1) = count := le_antisymm (Nat.le_of_not_lt hge) (le_trans hcount hok.le)
          rw [heq]
          exact h.all hpos hrow
      · next hpart =>
        have hin (_ : 0 < count) : 0 * radix l + count ≤ c := by omega
        obtain ⟨dest', hrun, hcopied⟩ := copyLoop_spec ih (hok.kids hsome hpart) hok.le (show 17 + 0 = 17 from rfl) (Nat.zero_le _) hin h
        rw [zero_mul] at hrun
        refine ⟨dest', hrun, hcopied.congr fun q _ => ?_⟩
        rw [isFree, if_neg hsome, if_neg hpart, zero_mul, zero_add, below]

end

/-- The blocks that are in both lists are kept, and the new ones are free or allocated. -/
structure Resized (bl bl' : Blist) (count : Nat) (freenew : Bool) : Prop where
  blocks : bl'.blocks = count
  free : freeBlocks bl' = freeBlocks bl ∩ Finset.range (min bl.blocks count) ∪ if freenew then Finset.Ico bl.blocks count else ∅
  card : bl'.free = (freeBlocks bl').card

section
variable {bl newbl : Blist} {rounds count : Nat} {mem : Tree}

theorem blistCreate_blocks (h : blistCreate rounds mem count = some newbl) : newbl.blocks = count := by
  obtain ⟨level, -, rfl⟩ := Option.map_eq_some_iff.mp h
  rfl

theorem blistResize_spec (hs : Sound False bl) (hpos : 1 ≤ count) (hcreate : blistCreate rounds mem count = some newbl) (freenew : Bool) :
    ∃ bl', blistResize rounds mem bl count freenew = some bl' ∧ Sound False bl' ∧ Resized bl bl' count freenew := by
  obtain ⟨-, hnew, hempty⟩ := @create_sound False _ _ _ _ hpos hcreate
  have hblocks := blistCreate_blocks hcreate
  have hold := hs.ok.pos
  have hmin : (if count > bl.blocks then bl.blocks else count) = min bl.blocks count := by
    split <;> omega
  have hnone (p : Nat) : p ∉ freeBlocks newbl := by
    rw [hempty]
    exact Finset.notMem_empty p
  have hready : Ready newbl 0 (min bl.blocks count) := ⟨hnew, by omega, fun q _ => hnone _⟩
  obtain ⟨dest, hcopy, hcopied⟩ := blstCopy_spec bl.level bl.root hs.ok (by omega) (min_le_left _ _) hready
  have hdest := hcopied.blocks.trans hblocks
  -- what was free before, as far as it is in the new list
  have hkept : freeBlocks dest = freeBlocks bl ∩ Finset.range (min bl.blocks count) := by
    ext p
    rw [hcopied.free p, Finset.mem_inter, Finset.mem_range, @mem_freeBlocks bl p]
    constructor
    · rintro (hp | ⟨q, hq, rfl, hset⟩)
      · exact absurd hp (hnone p)
      · rw [zero_add]
        exact ⟨⟨by omega, hset⟩, hq⟩
    · rintro ⟨⟨-, hset⟩, hp⟩
      exact .inr ⟨p, hp, (zero_add p).symm, hset⟩
  unfold blistResize
  rw [hcreate, Option.bind_some]
  dsimp only
  rw [hmin, hcopy, Option.bind_some]
  split
  · next hgrow =>
    obtain ⟨hfreenew, hlt⟩ := hgrow
    rw [hdest] at hlt ⊢
    have hrest : Ready dest (min bl.blocks count) (count - min bl.blocks count) := by
      refine ⟨hcopied.sound, by omega, fun q _ hq => ?_⟩
      rw [hkept, Finset.mem_inter, Finset.mem_range] at hq
      omega
    have hall (q : Nat) (_ : q < count - min bl.blocks count) : (fun _ : Nat => true) q = true := rfl
    obtain ⟨bl', hrun, hcopied'⟩ := hrest.all (by omega) hall
    refine ⟨bl', hrun, hcopied'.sound, hcopied'.blocks.trans hdest, ?_, hcopied'.sound.free⟩
    ext p
    rw [hcopied'.free p, hkept, Finset.mem_union, if_pos hfreenew, Finset.mem_Ico]
    apply or_congr_right
    constructor
    · omega
    · rintro ⟨hge, hp⟩
      exact ⟨p - bl.blocks, by omega, by omega, rfl⟩
  · next hkeep =>
    refine ⟨dest, rfl, hcopied.sound, hdest, ?_, hcopied.sound.free⟩
    rw [hkept]
    split
    · next hfreenew =>
      have hout : ¬ bl.blocks < count := by
        intro hlt
        exact hkeep ⟨hfreenew, by omega⟩
      rw [Finset.Ico_eq_empty hout, Finset.union_empty]
    · rw [Finset.union_empty]

end

/-! ### Runs -/

inductive Event where
  | call (c : Call)
  | resize (mem : Tree) (count : Nat) (freenew : Bool)

/-- A resize goes on for as many rounds as the loop for the radix takes. -/
def Steps (bl : Blist) (e : Event) (bl' : Blist) : Prop :=
  match e with
  | .call c => next bl c = some bl'
  | .resize mem count freenew => ∃ rounds, blistResize rounds mem bl count freenew = some bl'

def Admitted (bl : Blist) : Event → Prop
  | .call c => Valid bl c
  | .resize _ count _ => 1 ≤ count

/-- Runs in which the list is resized as well. -/
def resizing (n : Nat) : System Blist Event := ⟨(system n).init, Steps⟩

theorem blistCreate_of_resize {rounds count : Nat} {mem : Tree} {bl bl' : Blist} {freenew : Bool}
    (h : blistResize rounds mem bl count freenew = some bl') : ∃ newbl, blistCreate rounds mem count = some newbl := by
  obtain ⟨newbl, hcreate, -⟩ := Option.bind_eq_some_iff.mp h
  exact ⟨newbl, hcreate⟩

theorem resizing_sound {n : Nat} {bl : Blist} (h : (resizing n).Reach Admitted bl) : Sound False bl := by
  refine System.Reach.invariant ?_ ?_ h
  · rintro bl ⟨hn, rounds, mem, hcreate⟩
    exact (create_sound hn hcreate).2.1
  rintro bl (c | ⟨mem, count, freenew⟩) bl' hs hc hstep
  · exact next_sound hs hc nofun hstep
  obtain ⟨rounds, hrun⟩ := hstep
  obtain ⟨newbl, hcreate⟩ := blistCreate_of_resize hrun
  obtain ⟨bl₁, hrun', hs', -⟩ := blistResize_spec hs hc hcreate freenew
  rw [hrun'] at hrun
  cases hrun
  exact hs'

/-- In every run, a list is resized, and keeps the blocks that stay, if and only if the radix that has
the new number of blocks fits into 32 bits. -/
theorem resize_keeps_set (n : Nat) (bl : Blist) (h : (resizing n).Reach Admitted bl) (count : Nat) (hpos : 1 ≤ count) :
    (∀ mem freenew, (∃ rounds bl', blistResize rounds mem bl count freenew = some bl') ∧
      ∀ rounds bl', blistResize rounds mem bl count freenew = some bl' → Resized bl bl' count freenew) ↔ count ≤ 2 ^ 29 := by
  have hs := resizing_sound h
  constructor
  · intro hall
    obtain ⟨⟨rounds, bl', hrun⟩, -⟩ := hall (fun _ => ⟨0, 0, 0⟩) false
    obtain ⟨newbl, hcreate⟩ := blistCreate_of_resize hrun
    exact (@create_sound False _ _ _ _ hpos hcreate).1
  intro hle mem freenew
  refine ⟨?_, fun rounds bl' hrun => ?_⟩
  · obtain ⟨level, hlevel⟩ := Option.isSome_iff_exists.mp (radixLoop_ends hle 7 0 (Nat.zero_le _) (Nat.le_refl _))
    have hcreate : ∃ newbl, blistCreate 7 mem count = some newbl := by
      rw [blistCreate, show (32 : Nat) = radix 0 from rfl, hlevel]
      exact ⟨_, rfl⟩
    obtain ⟨newbl, hcreate⟩ := hcreate
    obtain ⟨bl', hrun, -⟩ := blistResize_spec hs hpos hcreate freenew
    exact ⟨7, bl', hrun⟩
  · obtain ⟨newbl, hcreate⟩ := blistCreate_of_resize hrun
    obtain ⟨bl₁, hrun', -, hresized⟩ := blistResize_spec hs hpos hcreate freenew
    rw [hrun'] at hrun
    cases hrun
    exact hresized

/-- A list for 1024 blocks is made smaller. -/
theorem resize_keeps_set_smaller : (resizing 1024).Reach Admitted newBlist ∧
    ∀ mem freenew, ∃ rounds bl', blistResize rounds mem newBlist 40 freenew = some bl' := by
  have hreach : (resizing 1024).Reach Admitted newBlist := .init ⟨by decide, 10, _, rfl⟩
  exact ⟨hreach, fun mem freenew => ((resize_keeps_set 1024 newBlist hreach 40 (by decide)).mpr (by decide) mem freenew).1⟩

/-- One block more, and the loop for the radix goes on for ever. -/
theorem resize_hangs : ∃ bl, (resizing 1024).Reach Admitted bl ∧
    ∀ rounds mem freenew, blistResize rounds mem bl (2 ^ 29 + 1) freenew = none := by
  refine ⟨newBlist, .init ⟨by decide, 10, _, rfl⟩, fun rounds mem freenew => ?_⟩
  cases hrun : blistResize rounds mem newBlist (2 ^ 29 + 1) freenew with
  | none => rfl
  | some bl' =>
    obtain ⟨newbl, hcreate⟩ := blistCreate_of_resize hrun
    exact absurd (@create_sound False _ _ _ _ (by decide) hcreate).1 (by decide)

end NetBSD.Kern.SubrBlist
