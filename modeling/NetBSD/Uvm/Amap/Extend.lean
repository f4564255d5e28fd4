import NetBSD.Uvm.Amap.Ppref
import NetBSD.Uvm.Amap.Runs

/-! Extending an amap exposes nothing.

An amap is shared by the arefs that were split off it. As long as there is an array of references, it counts the arefs of each
slot (`Counts`), so that a slot which no aref has is wiped, and every anon is in a slot of an aref (`Aligned`). Then the slots that an
extension adds are empty, wherever they come from (`amapExtend_spec`). Where the array could not be allocated nothing is wiped. -/
namespace NetBSD.Uvm.Amap
open List Option
open Lib

/-- The first slot of an aref, and how many it has. -/
abbrev Aref := Nat × Nat

/-- How many of the arefs have the slot. -/
def refCount (arefs : List Aref) (i : Nat) : Int := arefs.countP fun e => decide (e.1 ≤ i ∧ i < e.1 + e.2)

/-- The array, if there is one, counts the arefs. Before it is made, one aref has all slots but some at the front. -/
structure Counts (am : VmAmap) (arefs : List Aref) : Prop where
  array : ∀ ppref, am.ppref = .array ppref → Encodes ppref (refCount arefs) 0 am.nslot
  null : am.ppref = .null → ∃ off ≤ am.nslot, arefs = [(off, am.nslot - off)]

section Chunks
variable {ppref ppref' c c' : Nat → Int} {lo mid hi len t off : Nat} {ref : Int}

theorem refCount_singleton (off len i : Nat) : refCount [(off, len)] i = if off ≤ i ∧ i < off + len then 1 else 0 := by
  rw [refCount, countP_singleton]
  split
  · next h => rw [if_pos (of_decide_eq_true h)]; rfl
  · next h => rw [if_neg fun hin => h (decide_eq_true hin)]; rfl

theorem adjusted_behind (off mapped add i : Nat) : adjusted (refCount [(off, mapped)]) (off + mapped) add 1 i = refCount [(off, mapped + add)] i := by
  rw [adjusted, refCount_singleton, refCount_singleton]
  by_cases hnew : off + mapped ≤ i ∧ i < off + mapped + add
  · rw [if_pos hnew, if_neg (by omega), if_pos (by omega)]
    rfl
  · rw [if_neg hnew]
    exact if_congr (by omega) rfl rfl

theorem adjusted_front {off add : Nat} (hadd : add ≤ off) (mapped i : Nat) :
    adjusted (refCount [(off, mapped)]) (off - add) add 1 i = refCount [(off - add, mapped + add)] i := by
  rw [adjusted, refCount_singleton, refCount_singleton]
  by_cases hnew : off - add ≤ i ∧ i < off - add + add
  · rw [if_pos hnew, if_neg (by omega), if_pos (by omega)]
    rfl
  · rw [if_neg hnew]
    exact if_congr (by omega) rfl rfl

theorem Encodes.cut (h : Encodes ppref c lo hi) (hlo : lo ≤ mid) (hhi : mid ≤ hi) (hedge : mid = lo ∨ mid = hi ∨ c (mid - 1) ≠ c mid) :
    Encodes ppref c lo mid ∧ Encodes ppref c mid hi := by
  induction h with
  | nil lo =>
    obtain rfl : mid = lo := by omega
    exact ⟨.nil _, .nil _⟩
  | @chunk lo hi len hchunk hsame hrest ih =>
    by_cases hstart : mid = lo
    · rw [hstart]
      exact ⟨.nil lo, .chunk len hchunk hsame hrest⟩
    have hend : lo + len ≤ mid := by
      by_contra hlt
      obtain hat | rfl | hne := hedge
      · exact hstart hat
      · have hle := hrest.le
        omega
      · rw [hsame (mid - 1) (by omega) (by omega), hsame mid hlo (by omega)] at hne
        exact hne rfl
    have hedge' : mid = lo + len ∨ mid = hi ∨ c (mid - 1) ≠ c mid := .inr (hedge.resolve_left hstart)
    obtain ⟨hfront, hback⟩ := ih hend hhi hedge'
    exact ⟨.chunk len hchunk hsame hfront, hback⟩

theorem Encodes.shift (h : Encodes ppref c lo hi) (heq : ∀ k, lo ≤ k → k < hi → ppref' (k + t) = ppref k)
    (hc : ∀ k, lo ≤ k → k < hi → c' (k + t) = c k) : Encodes ppref' c' (lo + t) (hi + t) := by
  induction h with
  | nil lo => exact .nil _
  | @chunk lo hi len hchunk hsame hrest ih =>
    have hle := hrest.le
    have hpos := hchunk.pos
    have hfirst := hc lo (le_refl _) (by omega)
    have hmoved : Chunk ppref' (lo + t) (c lo) len := by
      obtain ⟨href, ⟨hlen, hval⟩ | ⟨hlen, hval, hsecond⟩⟩ := hchunk
      · exact ⟨href, .inl ⟨hlen, by rw [heq lo (le_refl _) (by omega), hval]⟩⟩
      · refine ⟨href, .inr ⟨hlen, by rw [heq lo (le_refl _) (by omega), hval], ?_⟩⟩
        rw [add_right_comm, heq (lo + 1) (by omega) (by omega), hsecond]
    refine .chunk len (hfirst ▸ hmoved) (fun i hi hlt => ?_) ?_
    · obtain ⟨k, rfl⟩ : ∃ k, i = k + t := ⟨i - t, by omega⟩
      rw [hc k (by omega) (by omega), hfirst, hsame k (by omega) (by omega)]
    · rw [add_right_comm]
      exact ih (fun k hk => heq k (by omega)) fun k hk => hc k (by omega)

theorem Encodes.setreflen (h : Encodes ppref c 0 lo) (href : 0 ≤ ref) (hc : ∀ i, lo ≤ i → i < lo + len → c i = ref) :
    Encodes (ppSetreflen ppref lo ref len) c 0 (lo + len) := by
  have hfront : Encodes (ppSetreflen ppref lo ref len) c 0 lo := h.congr (fun k _ hk => ppSetreflen_of_out (.inl hk)) fun _ _ _ => rfl
  by_cases hlen : len = 0
  · rw [hlen] at hfront ⊢
    exact hfront
  · exact hfront.append (Encodes.of_chunk (chunk_setreflen href (by omega)) hc)

/-- An unreferenced gap, new slots, and slots that are moved up behind them. -/
theorem encodes_slid {mapped add area : Nat} {src : Nat → Int} (h : Encodes ppref (refCount [(off, mapped)]) 0 hi) (hin : off + mapped ≤ hi)
    (hoff : off ≤ area) (hadd : add ≤ area) (hsrc : ∀ k, area ≤ k → k < area + mapped → src k = ppref (k - area + off)) :
    Encodes (ppSetreflen (ppSetreflen src 0 0 (area - add)) (area - add) 1 add) (refCount [(area - add, mapped + add)]) 0 (area + mapped) := by
  have hgap : Encodes (ppSetreflen src 0 0 (area - add)) (refCount [(area - add, mapped + add)]) 0 (0 + (area - add)) := by
    refine (Encodes.nil 0).setreflen (Int.le_refl 0) fun i _ hi => ?_
    rw [refCount_singleton, if_neg (by omega)]
  rw [zero_add] at hgap
  have hnew : Encodes (ppSetreflen (ppSetreflen src 0 0 (area - add)) (area - add) 1 add) (refCount [(area - add, mapped + add)]) 0
      (area - add + add) := by
    refine hgap.setreflen Int.one_nonneg fun i hi hlt => ?_
    rw [refCount_singleton, if_pos (by omega)]
  rw [Nat.sub_add_cancel hadd] at hnew
  have hcut : Encodes ppref (refCount [(off, mapped)]) off (off + mapped) := by
    by_cases hmapped : mapped = 0
    · rw [hmapped]
      exact .nil off
    have hfirst := (h.cut (Nat.zero_le off) (by omega) (by
      by_cases hzero : off = 0
      · exact .inl hzero
      refine .inr (.inr ?_)
      rw [refCount_singleton, refCount_singleton, if_neg (by omega), if_pos (by omega)]
      decide)).2
    refine (hfirst.cut (Nat.le_add_right _ _) hin ?_).1
    refine .inr (.inr ?_)
    rw [refCount_singleton, refCount_singleton, if_pos (by omega), if_neg (by omega)]
    decide
  have hmoved : Encodes (ppSetreflen (ppSetreflen src 0 0 (area - add)) (area - add) 1 add) (refCount [(area - add, mapped + add)])
      (off + (area - off)) (off + mapped + (area - off)) := by
    refine hcut.shift (fun k hk hlt => ?_) fun k hk hlt => ?_
    · rw [ppSetreflen_of_out (by omega), ppSetreflen_of_out (by omega), hsrc _ (by omega) (by omega)]
      congr 1
      omega
    · rw [refCount_singleton, refCount_singleton, if_pos (by omega), if_pos (by omega)]
  have hlo : off + (area - off) = area := by omega
  have hhi : off + mapped + (area - off) = area + mapped := by omega
  rw [hlo, hhi] at hmoved
  exact hnew.append hmoved

end Chunks

/-! ### One aref -/

/-- An amap with one reference: its anons are in slots of the aref. -/
structure Sole (am : VmAmap) (off mapped : Nat) : Prop where
  packed : Packed am
  ref : am.ref = 1
  inside : off + mapped ≤ am.nslot
  owned : ∀ i, (am.anon i).isSome = true → off ≤ i ∧ i < off + mapped
  counts : Counts am [(off, mapped)]

/-- The aref has its pages from slot `old` on, those that were added around them, and the other slots are empty. -/
structure Extended (am am' : VmAmap) (off mapped add off' old : Nat) : Prop where
  inside : off' + (mapped + add) ≤ am'.nslot
  place : off' ≤ old ∧ old + mapped ≤ off' + (mapped + add)
  anon : ∀ k, am'.anon k = if old ≤ k ∧ k < old + mapped then am.anon (k - old + off) else none
  ref : am'.ref = am.ref
  nused : am'.nused = am.nused
  slots : ∀ i < am.nused, am'.slots i + off = am.slots i + old
  counts : Counts am' [(off', mapped + add)]

section Forwards
variable {w : Wiped} {off mapped add slot len : Nat} {mem : Mem}

section
variable {am : VmAmap} (h : Sole am off mapped)
include h

theorem Sole.anon_none {i : Nat} (hi : ¬(off ≤ i ∧ i < off + mapped)) : am.anon i = none := by
  by_contra hne
  exact hi (h.owned i (isSome_iff_ne_none.mpr hne))

theorem Sole.anon_at (k : Nat) : am.anon k = if off ≤ k ∧ k < off + mapped then am.anon (k - off + off) else none := by
  split
  · next hin => rw [Nat.sub_add_cancel hin.1]
  · next hout => exact h.anon_none hout

theorem Sole.null (hnull : am.ppref = .null) : off + mapped = am.nslot := by
  obtain ⟨first, hle, harefs⟩ := h.counts.null hnull
  obtain ⟨rfl, hmapped⟩ := Prod.mk.inj (singleton_inj.mp harefs)
  omega

end

theorem withPpref_self {p : Ppref} (h : w.amap.ppref = p) : {w with amap := {w.amap with ppref := p}} = w := by
  subst h
  rfl

theorem adjref_first (h : Sole w.amap off mapped) (hout : slot + len ≤ off ∨ off + mapped ≤ slot) (hin : slot + len ≤ w.amap.nslot) :
    ∃ p, adjref w slot len 1 = some {w with amap := {w.amap with ppref := p}} ∧ (p = .null → w.amap.ppref = .null) ∧
      ∀ ppref, p = .array ppref → Encodes ppref (adjusted (refCount [(off, mapped)]) slot len 1) 0 w.amap.nslot := by
  unfold adjref
  cases hppref : w.amap.ppref with
  | null => exact ⟨.null, by rw [withPpref_self hppref], id, fun _ h => by cases h⟩
  | none => exact ⟨.none, by rw [withPpref_self hppref], id, fun _ h => by cases h⟩
  | array ppref =>
    have hcount : ∀ i, slot ≤ i → i < slot + len → refCount [(off, mapped)] i + 1 = 1 := by
      intro i hi hlt
      rw [refCount_singleton, if_neg (by omega)]
      rfl
    obtain ⟨ppref', calls, hnew, hzeros, hrun⟩ := @amapPpAdjref_spec ppref (refCount [(off, mapped)]) w w.amap.nslot slot len 1
      (h.counts.array ppref hppref) hin fun i hi hlt => by
        rw [hcount i hi hlt, h.ref]
        decide
    have hnil : calls = [] := by
      apply eq_nil_iff_forall_not_mem.mpr
      intro r hr
      obtain ⟨hlo, hhi, hzero⟩ := (hzeros.exact r.1).mp ⟨r, hr, le_refl _, Nat.lt_add_of_pos_right (hzeros.pos r hr)⟩
      rw [adjusted, if_pos ⟨hlo, hhi⟩] at hzero
      cases hzero
    rw [hnil] at hrun
    refine ⟨.array ppref', hrun, fun h => (by cases h), fun p hp => ?_⟩
    obtain rfl := Ppref.array.inj hp
    exact hnew

/-- The new slots behind the aref have one reference each, be they in the amap already or not. -/
theorem refForwards_spec (h : Sole w.amap off mapped) (hneed : w.amap.nslot < off + mapped + add) :
    ∃ p, refForwards w (off + mapped) (off + mapped + add) = some {w with amap := {w.amap with ppref := p}} ∧
      (p = .null → w.amap.ppref = .null) ∧
      ∀ ppref, p = .array ppref → Encodes ppref (refCount [(off, mapped + add)]) 0 (off + mapped + add) := by
  have hinside := h.inside
  obtain ⟨p, hrun, hnull, harray⟩ : ∃ p, (if off + mapped < w.amap.nslot then adjref w (off + mapped) (w.amap.nslot - (off + mapped)) 1
      else some w) = some {w with amap := {w.amap with ppref := p}} ∧ (p = .null → w.amap.ppref = .null) ∧
      ∀ ppref, p = .array ppref → Encodes ppref (adjusted (refCount [(off, mapped)]) (off + mapped) (w.amap.nslot - (off + mapped)) 1) 0
        w.amap.nslot := by
    by_cases hlt : off + mapped < w.amap.nslot
    · rw [if_pos hlt]
      exact adjref_first h (.inr (le_refl _)) (by omega)
    rw [if_neg hlt]
    refine ⟨w.amap.ppref, rfl, id, fun ppref hp => (h.counts.array ppref hp).congr (fun _ _ _ => rfl) fun k _ hk => ?_⟩
    exact if_neg (by omega)
  rw [refForwards, hrun]
  cases p with
  | null => exact ⟨.null, rfl, hnull, fun _ h => by cases h⟩
  | none => exact ⟨.none, rfl, hnull, fun _ h => by cases h⟩
  | array ppref =>
    refine ⟨.array (ppSetreflen ppref w.amap.nslot 1 (off + mapped + add - w.amap.nslot)), rfl, fun h => (by cases h), fun p hp => ?_⟩
    obtain rfl := Ppref.array.inj hp
    have hold : Encodes ppref (refCount [(off, mapped + add)]) 0 w.amap.nslot := by
      refine (harray ppref rfl).congr (fun _ _ _ => rfl) fun k _ hk => ?_
      rw [adjusted_behind, refCount_singleton, refCount_singleton]
      exact if_congr (by omega) rfl rfl
    have hnew : Encodes (ppSetreflen ppref w.amap.nslot 1 (off + mapped + add - w.amap.nslot)) (refCount [(off, mapped + add)]) 0
        (w.amap.nslot + (off + mapped + add - w.amap.nslot)) := by
      refine hold.setreflen Int.one_nonneg fun i hi hlt => ?_
      rw [refCount_singleton, if_pos (by omega)]
    rw [Nat.add_sub_of_le (le_of_lt hneed)] at hnew
    exact hnew

/-- The arrays are copied to larger ones. The amap is the same, but may be without the references. -/
theorem Sole.copied {am : VmAmap} (h : Sole am off mapped) {p : Ppref} (hnull : p = .null → am.ppref = .null)
    (harray : ∀ ppref, p = .array ppref → Encodes ppref (refCount [(off, mapped)]) 0 am.nslot) :
    Sole { am with
      slots := move 0 0 am.nused am.slots fun _ => 0
      anon := move 0 0 am.nslot am.anon fun _ => none
      bckptr := move 0 0 am.nslot am.bckptr fun _ => 0
      ppref := p } off mapped ∧ move 0 0 am.nslot am.anon (fun _ => none) = am.anon := by
  have hinside := h.inside
  have hanon : move 0 0 am.nslot am.anon (fun _ => none) = am.anon := by
    funext k
    unfold move
    split
    · rfl
    · next hout =>
      symm
      apply h.anon_none
      omega
  refine ⟨⟨h.packed.copied p, h.ref, hinside, ?_, ⟨harray, fun hp => h.counts.null (hnull hp)⟩⟩, hanon⟩
  rw [hanon]
  exact h.owned

theorem Sole.newPpref {am : VmAmap} (h : Sole am off mapped) {mem : Bool} {p : Ppref} (hp : p = match am.ppref with
      | .array ppref => if mem then .array (move 0 0 am.nslot ppref fun _ => 0) else .none
      | p => p) : (p = .null → am.ppref = .null) ∧
      ∀ ppref, p = .array ppref → Encodes ppref (refCount [(off, mapped)]) 0 am.nslot := by
  cases hppref : am.ppref with
  | null =>
    rw [hppref] at hp
    exact ⟨fun _ => rfl, fun ppref hp' => by rw [hp] at hp'; cases hp'⟩
  | none =>
    rw [hppref] at hp
    exact ⟨fun hp' => (by rw [hp] at hp'; cases hp'), fun ppref hp' => by rw [hp] at hp'; cases hp'⟩
  | array old =>
    rw [hppref] at hp
    dsimp only at hp
    split at hp
    · refine ⟨fun hp' => (by rw [hp] at hp'; cases hp'), fun ppref hp' => ?_⟩
      obtain rfl := Ppref.array.inj (hp.symm.trans hp')
      exact (h.counts.array old hppref).congr (fun k _ hk => if_pos ⟨Nat.zero_le k, by omega⟩) fun _ _ _ => rfl
    · exact ⟨fun hp' => (by rw [hp] at hp'; cases hp'), fun ppref hp' => by rw [hp] at hp'; cases hp'⟩

theorem amapExtendForwards_spec (h : Sole w.amap off mapped) : ∃ w' r, amapExtendForwards w off mapped add mem = some (w', r) ∧
    (∀ off', r = .ok off' → Extended w.amap w'.amap off mapped add off' off') ∧ ∀ e, r = .error e → w' = w := by
  have hplace : off ≤ off ∧ off + mapped ≤ off + (mapped + add) := ⟨le_refl _, by omega⟩
  have hinside := h.inside
  have hend : [(off, mapped + add)] = [(off, off + mapped + add - off)] := by
    congr 2
    omega
  unfold amapExtendForwards
  dsimp only
  by_cases henough : w.amap.nslot ≥ off + mapped + add
  · rw [if_pos henough]
    obtain ⟨p, hrun, hnull, harray⟩ := adjref_first h (.inr (le_refl _)) henough
    rw [hrun]
    refine ⟨_, _, rfl, ?_, fun e he => by cases he⟩
    intro off' hoff
    obtain rfl := Except.ok.inj hoff
    refine ⟨?_, hplace, h.anon_at, rfl, rfl, fun i _ => rfl, ⟨fun ppref hp => ?_, fun hp => ⟨off, ?_, ?_⟩⟩⟩
    · show off + (mapped + add) ≤ w.amap.nslot
      omega
    · exact (harray ppref hp).congr (fun _ _ _ => rfl) fun k _ _ => (adjusted_behind off mapped add k).symm
    · show off ≤ w.amap.nslot
      omega
    have hlast := h.null (hnull hp)
    show _ = [(off, w.amap.nslot - off)]
    congr 2
    omega
  rw [if_neg henough]
  by_cases hroom : w.amap.maxslot ≥ off + mapped + add
  · rw [if_pos hroom]
    obtain ⟨p, hrun, -, harray⟩ := @refForwards_spec w off mapped add h (by omega)
    rw [hrun]
    refine ⟨_, _, rfl, ?_, fun e he => by cases he⟩
    intro off' hoff
    obtain rfl := Except.ok.inj hoff
    refine ⟨?_, hplace, h.anon_at, rfl, rfl, fun i _ => rfl, ⟨harray, fun hp => ⟨off, ?_, hend⟩⟩⟩
    · show off + (mapped + add) ≤ off + mapped + add
      omega
    · show off ≤ off + mapped + add
      omega
  rw [if_neg hroom]
  by_cases hlarge : off + mapped + add ≥ UVM_AMAP_LARGE
  · rw [if_pos hlarge]
    exact ⟨w, _, rfl, fun _ hoff => (by cases hoff), fun _ _ => rfl⟩
  rw [if_neg hlarge]
  by_cases hmem : mem.arrays = false
  · rw [if_pos hmem]
    exact ⟨w, _, rfl, fun _ hoff => (by cases hoff), fun _ _ => rfl⟩
  rw [if_neg hmem]
  obtain ⟨hnull, harray⟩ := h.newPpref rfl
  obtain ⟨hcopied, hanon⟩ := h.copied hnull harray
  obtain ⟨p, hrun, -, harray'⟩ := @refForwards_spec ⟨_, w.anRef, w.tofree⟩ off mapped add hcopied (by
    show w.amap.nslot < off + mapped + add
    omega)
  refine ⟨_, _, (congrArg (Option.map _) hrun).trans rfl, ?_, fun e he => by cases he⟩
  intro off' hoff
  obtain rfl := Except.ok.inj hoff
  refine ⟨?_, hplace, ?_, rfl, rfl, fun i hi => ?_, ⟨harray', fun hp => ⟨off, ?_, hend⟩⟩⟩
  · show off + (mapped + add) ≤ off + mapped + add
    omega
  · rw [hanon]
    exact h.anon_at
  · show move 0 0 w.amap.nused w.amap.slots (fun _ => 0) i + off = _
    rw [move, if_pos ⟨Nat.zero_le i, by omega⟩]
    rfl
  · show off ≤ off + mapped + add
    omega

end Forwards

section Backwards
variable {w : Wiped} {off mapped add area : Nat} {mem : Mem}

theorem mapPpref_spec (w : Wiped) (f : (Nat → Int) → Nat → Int) : ∃ p, mapPpref w f = {w with amap := {w.amap with ppref := p}} ∧
    (p = .null → w.amap.ppref = .null) ∧ ∀ ppref', p = .array ppref' → ∃ ppref, w.amap.ppref = .array ppref ∧ ppref' = f ppref := by
  unfold mapPpref
  cases hppref : w.amap.ppref with
  | null => exact ⟨.null, (withPpref_self hppref).symm, id, fun _ h => by cases h⟩
  | none => exact ⟨.none, (withPpref_self hppref).symm, id, fun _ h => by cases h⟩
  | array ppref => exact ⟨.array (f ppref), rfl, fun h => (by cases h), fun _ h => ⟨ppref, rfl, (Ppref.array.inj h).symm⟩⟩

section
variable (h : Sole w.amap off mapped)
include h

theorem Sole.slid (hoff : off ≤ area) (hadd : add ≤ area) {am' : VmAmap} (hnslot : am'.nslot = area + mapped)
    (hanon : ∀ k, am'.anon k = if area ≤ k ∧ k < area + mapped then w.amap.anon (k - area + off) else none)
    (href : am'.ref = w.amap.ref) (hnused : am'.nused = w.amap.nused)
    (hslots : ∀ i < w.amap.nused, am'.slots i = w.amap.slots i + (area - off))
    (harray : ∀ ppref', am'.ppref = .array ppref' → ∃ ppref src, w.amap.ppref = .array ppref ∧
      (∀ k, area ≤ k → k < area + mapped → src k = ppref (k - area + off)) ∧
      ppref' = ppSetreflen (ppSetreflen src 0 0 (area - add)) (area - add) 1 add) :
    Extended w.amap am' off mapped add (area - add) area := by
  have hinside := h.inside
  refine ⟨by omega, by omega, hanon, href, hnused, fun i hi => ?_, ⟨fun ppref' hp => ?_, fun _ => ⟨area - add, by omega, ?_⟩⟩⟩
  · rw [hslots i hi]
    omega
  · obtain ⟨ppref, src, hppref, hsrc, rfl⟩ := harray ppref' hp
    rw [hnslot]
    exact encodes_slid (h.counts.array ppref hppref) hinside hoff hadd hsrc
  · congr 2
    omega

theorem amapExtendBackwards_spec : ∃ w' r, amapExtendBackwards w off mapped add mem = some (w', r) ∧
    (∀ off', r = .ok off' → Extended w.amap w'.amap off mapped add off' (off' + add)) ∧ ∀ e, r = .error e → w' = w := by
  have hinside := h.inside
  have hpacked := h.packed.nslot_le
  unfold amapExtendBackwards
  dsimp only
  by_cases hfront : add ≤ off
  · rw [if_pos hfront]
    obtain ⟨p, hrun, hnull, harray⟩ := @adjref_first w off mapped (off - add) add h (.inl (by omega)) (by omega)
    rw [hrun]
    refine ⟨_, _, rfl, ?_, fun e he => by cases he⟩
    intro off' hoff
    obtain rfl := Except.ok.inj hoff
    rw [Nat.sub_add_cancel hfront]
    refine ⟨?_, by omega, h.anon_at, rfl, rfl, fun i _ => rfl, ⟨fun ppref hp => ?_, fun hp => ⟨off - add, ?_, ?_⟩⟩⟩
    · show off - add + (mapped + add) ≤ w.amap.nslot
      omega
    · exact (harray ppref hp).congr (fun _ _ _ => rfl) fun k _ _ => (adjusted_front hfront mapped k).symm
    · show off - add ≤ w.amap.nslot
      omega
    have hlast := h.null (hnull hp)
    show _ = [(off - add, w.amap.nslot - (off - add))]
    congr 2
    omega
  rw [if_neg hfront]
  by_cases hroom : w.amap.maxslot ≥ add + mapped
  · rw [if_pos hroom]
    obtain ⟨p, hmap, hnull, harray⟩ := mapPpref_spec w fun ppref =>
      ppSetreflen (ppSetreflen (move (w.amap.maxslot - mapped) off mapped ppref ppref) 0 0 (w.amap.maxslot - mapped - add))
        (w.amap.maxslot - mapped - add) 1 add
    rw [hmap]
    refine ⟨_, _, rfl, ?_, fun e he => by cases he⟩
    intro off' hoff
    obtain rfl := Except.ok.inj hoff
    rw [Nat.sub_add_cancel (by omega)]
    refine h.slid (by omega) (by omega) ?_ (fun k => ?_) rfl rfl (fun i hi => if_pos hi) fun ppref' hp => ?_
    · show w.amap.maxslot = _
      omega
    · dsimp only
      unfold move
      by_cases hmoved : w.amap.maxslot - mapped ≤ k ∧ k < w.amap.maxslot - mapped + mapped
      · rw [if_neg (by omega), if_pos hmoved, if_pos hmoved]
      rw [if_neg hmoved, if_neg hmoved]
      split
      · rfl
      · next hout =>
        apply h.anon_none
        omega
    · obtain ⟨ppref, hppref, rfl⟩ := harray ppref' hp
      exact ⟨ppref, _, hppref, fun k hk hlt => if_pos ⟨hk, hlt⟩, rfl⟩
  rw [if_neg hroom]
  by_cases hlarge : add + mapped ≥ UVM_AMAP_LARGE
  · rw [if_pos hlarge]
    exact ⟨w, _, rfl, fun _ hoff => (by cases hoff), fun _ _ => rfl⟩
  rw [if_neg hlarge]
  by_cases hmem : mem.arrays = false
  · rw [if_pos hmem]
    exact ⟨w, _, rfl, fun _ hoff => (by cases hoff), fun _ _ => rfl⟩
  rw [if_neg hmem]
  have hround := le_amapRoundupSlots (add + mapped)
  refine ⟨_, _, rfl, ?_, fun e he => by cases he⟩
  intro off' hoff
  obtain rfl := Except.ok.inj hoff
  rw [Nat.sub_add_cancel (by omega)]
  refine h.slid (by omega) (by omega) ?_ (fun k => rfl) rfl rfl (fun i hi => if_pos hi) fun ppref' hp => ?_
  · show amapRoundupSlots (add + mapped) = _
    omega
  cases hppref : w.amap.ppref with
  | null => rw [hppref] at hp; cases hp
  | none => rw [hppref] at hp; cases hp
  | array ppref =>
    rw [hppref] at hp
    dsimp only at hp
    split at hp
    · have hgap : amapRoundupSlots (add + mapped) - (add + mapped) = amapRoundupSlots (add + mapped) - mapped - add := by omega
      have hnew : add + mapped - mapped = add := by omega
      rw [hgap, hnew] at hp
      exact ⟨ppref, _, rfl, fun k hk hlt => if_pos ⟨hk, hlt⟩, (Ppref.array.inj hp).symm⟩
    · cases hp

theorem amapExtend_spec (forwards : Bool) : ∃ w' r, amapExtend w off mapped add forwards mem = some (w', r) ∧
    Packed w'.amap ∧ (∀ off', r = .ok off' → Extended w.amap w'.amap off mapped add off' (if forwards then off' else off' + add)) ∧
    ∀ e, r = .error e → w' = w := by
  have hcovers : Covers off mapped w.amap := fun s _ hs => h.owned s hs
  obtain ⟨w', r, hrun, hok, herr⟩ : ∃ w' r, amapExtend w off mapped add forwards mem = some (w', r) ∧
      (∀ off', r = .ok off' → Extended w.amap w'.amap off mapped add off' (if forwards then off' else off' + add)) ∧
      ∀ e, r = .error e → w' = w := by
    unfold amapExtend
    rw [if_neg (not_not_intro h.ref)]
    cases forwards with
    | true => exact amapExtendForwards_spec h
    | false => exact amapExtendBackwards_spec h
  exact ⟨w', r, hrun, amapExtend_packed h.packed h.inside (fun _ _ => hcovers) hrun, hok, herr⟩

end

end Backwards

/-! ### Split amaps -/

section Counting
variable {arefs arefs' : List Aref} {e : Aref} {k left : Nat}

theorem refCount_cons (e : Aref) (arefs : List Aref) (i : Nat) :
    refCount (e :: arefs) i = refCount arefs i + if e.1 ≤ i ∧ i < e.1 + e.2 then 1 else 0 := by
  rw [refCount, countP_cons]
  split
  · next h => rw [if_pos (of_decide_eq_true h)]; rfl
  · next h => rw [if_neg fun hin => h (decide_eq_true hin)]; rfl

theorem refCount_perm (h : arefs.Perm arefs') (i : Nat) : refCount arefs i = refCount arefs' i := by
  rw [refCount, h.countP_eq, refCount]

theorem refCount_pos {i : Nat} : 0 < refCount arefs i ↔ ∃ e ∈ arefs, e.1 ≤ i ∧ i < e.1 + e.2 := by
  rw [refCount, Int.natCast_pos, countP_pos_iff]
  exact exists_congr fun e => and_congr_right fun _ => decide_eq_true_iff

theorem refCount_le (arefs : List Aref) (i : Nat) : refCount arefs i ≤ arefs.length := Int.ofNat_le.mpr countP_le_length

theorem perm_eraseIdx (hk : arefs[k]? = some e) : (e :: arefs.eraseIdx k).Perm arefs := by
  obtain ⟨hlt, rfl⟩ := List.getElem?_eq_some_iff.mp hk
  exact getElem_cons_eraseIdx_perm hlt

theorem refCount_eraseIdx (hk : arefs[k]? = some e) (i : Nat) : refCount (arefs.eraseIdx k) i = adjusted (refCount arefs) e.1 e.2 (-1) i := by
  rw [adjusted, ← refCount_perm (perm_eraseIdx hk) i, refCount_cons]
  split
  · exact (Int.add_neg_cancel_right _ 1).symm
  · exact (Int.add_zero _).symm

theorem refCount_split (hk : arefs[k]? = some e) (hleft : left ≤ e.2) (i : Nat) :
    refCount (arefs.set k (e.1, left) ++ [(e.1 + left, e.2 - left)]) i = refCount arefs i := by
  have hlt := (List.getElem?_eq_some_iff.mp hk).1
  rw [refCount_perm (perm_append_singleton _ _) i, refCount_cons, refCount_perm (set_perm_cons_eraseIdx hlt (e.1, left)) i, refCount_cons,
    ← refCount_perm (perm_eraseIdx hk) i, refCount_cons]
  by_cases hin : e.1 ≤ i ∧ i < e.1 + e.2
  · rw [if_pos hin]
    by_cases hfront : i < e.1 + left
    · rw [if_pos ⟨hin.1, hfront⟩, if_neg (by omega)]
      rfl
    · rw [if_neg (by omega), if_pos (by omega)]
      rfl
  · rw [if_neg hin, if_neg (by omega), if_neg (by omega)]
    rfl

end Counting

/-- An amap and the arefs that share it. -/
structure Shared where
  amap : VmAmap
  anRef : Anon → Int
  arefs : List Aref

inductive Act where
  | add (slot : Nat) (a : Anon) (replace : Bool)
  /-- `amap_splitref`: the aref keeps `left` slots. -/
  | split (k left : Nat) (mem : Bool)
  /-- `amap_unref`, where it is not the last. -/
  | unref (k : Nat) (mem : Bool)
  | extend (k add : Nat) (forwards : Bool) (mem : Mem)

namespace Shared
variable {s s' : Shared} {e : Aref} {k : Nat}

def wiped (s : Shared) : Wiped := ⟨s.amap, s.anRef, []⟩

def ofWiped (w : Wiped) (arefs : List Aref) : Shared := ⟨w.amap, w.anRef, arefs⟩

def next (s : Shared) : Act → Option Shared
  | .add slot a replace =>
    if s.arefs.any fun e => decide (e.1 ≤ slot ∧ slot < e.1 + e.2) then
      (amapAdd s.amap slot a replace).map fun am => {s with amap := am}
    else none
  | .split k left mem =>
    s.arefs[k]?.bind fun e =>
      if 0 < left ∧ left < e.2 then
        some {s with amap := amapSplitref s.amap e.1 mem, arefs := s.arefs.set k (e.1, left) ++ [(e.1 + left, e.2 - left)]}
      else none
  | .unref k mem =>
    s.arefs[k]?.bind fun e =>
      if s.amap.ref = 1 then none
      else (amapAdjrefAnons s.wiped e.1 e.2 (-1) false mem).map fun w => ofWiped w (s.arefs.eraseIdx k)
  | .extend k add forwards mem =>
    s.arefs[k]?.bind fun e =>
      (amapExtend s.wiped e.1 e.2 add forwards mem).map fun (w, r) =>
        match r with
        | .ok off => ofWiped w (s.arefs.set k (off, e.2 + add))
        | .error _ => ofWiped w s.arefs

def init (s : Shared) : Prop := ∃ slots padslots, s.amap = amapAlloc1 slots padslots ∧ s.arefs = [(0, slots)]

def system : System Shared Act := System.ofStep init next

/-- No anon is left behind where there is no array of references. -/
def leavesNone (s : Shared) : Act → Bool
  | .unref k _ =>
    match s.amap.ppref with
    | .none => (s.arefs[k]?).all fun e => (List.range e.2).all fun i => (s.amap.anon (e.1 + i)).isNone
    | _ => true
  | _ => true

structure Aligned (s : Shared) : Prop where
  packed : Packed s.amap
  ref : s.amap.ref = s.arefs.length
  inside : ∀ e ∈ s.arefs, e.1 + e.2 ≤ s.amap.nslot
  owned : ∀ i, (s.amap.anon i).isSome = true → 0 < refCount s.arefs i
  counts : Counts s.amap s.arefs

theorem Aligned.of_init (h : s.init) : s.Aligned := by
  obtain ⟨slots, padslots, hamap, harefs⟩ := h
  refine ⟨?_, ?_, ?_, ?_, ?_, ?_⟩
  · rw [hamap]
    exact packed_amapAlloc1 slots padslots
  · rw [hamap, harefs]
    rfl
  · intro e he
    rw [harefs, mem_singleton] at he
    rw [he, hamap]
    exact le_of_eq (zero_add slots)
  · intro i hi
    rw [hamap] at hi
    cases hi
  · intro ppref hp
    rw [hamap] at hp
    cases hp
  · intro _
    rw [hamap, harefs]
    exact ⟨0, Nat.zero_le _, rfl⟩

theorem Aligned.sole (h : s.Aligned) (hk : s.arefs[k]? = some e) (href : s.amap.ref = 1) : s.arefs = [e] ∧ Sole s.amap e.1 e.2 := by
  obtain ⟨e', harefs⟩ := length_eq_one_iff.mp (h.ref.symm.trans href)
  obtain rfl : e' = e := by
    have hmem := mem_of_getElem? hk
    rw [harefs, mem_singleton] at hmem
    exact hmem.symm
  refine ⟨harefs, h.packed, href, h.inside e' (mem_of_getElem? hk), fun i hi => ?_, harefs ▸ h.counts⟩
  obtain ⟨e, he, hin⟩ := refCount_pos.mp (h.owned i hi)
  rw [harefs, mem_singleton] at he
  rwa [he] at hin

theorem amapAdd_same {am am' : VmAmap} {slot : Nat} {a : Anon} {replace : Bool} (h : amapAdd am slot a replace = some am') :
    am'.ref = am.ref ∧ am'.nslot = am.nslot ∧ am'.ppref = am.ppref ∧ am'.anon = Function.update am.anon slot (some a) := by
  unfold amapAdd at h
  split at h
  · cases h
  split at h
  · split at h
    · cases h
    · cases h
      exact ⟨rfl, rfl, rfl, rfl⟩
  split at h
  · cases h
  · cases h
    exact ⟨rfl, rfl, rfl, rfl⟩

theorem add_aligned {slot : Nat} {a : Anon} {replace : Bool} (h : s.Aligned) (hn : s.next (.add slot a replace) = some s') : s'.Aligned := by
  rw [next] at hn
  split at hn
  · next hany =>
    obtain ⟨am, hadd, rfl⟩ := map_eq_some_iff.mp hn
    obtain ⟨href, hnslot, hppref, hanon⟩ := amapAdd_same hadd
    refine ⟨packed_amapAdd h.packed hadd, href.trans h.ref, fun e he => ?_, fun i hi => ?_, fun ppref hp => ?_, fun hp => ?_⟩
    · rw [hnslot]
      exact h.inside e he
    · rw [hanon] at hi
      by_cases hslot : i = slot
      · obtain ⟨e, he, hin⟩ := any_eq_true.mp hany
        rw [hslot]
        exact refCount_pos.mpr ⟨e, he, of_decide_eq_true hin⟩
      · rw [Function.update_of_ne hslot] at hi
        exact h.owned i hi
    · rw [hnslot]
      exact h.counts.array ppref (hppref.symm.trans hp)
    · rw [hnslot]
      exact h.counts.null (hppref.symm.trans hp)
  · cases hn

/-- The array is made before the amap is split, or cannot be made. -/
theorem Aligned.amapSplitref_spec (h : s.Aligned) (hk : s.arefs[k]? = some e) (mem : Bool) :
    ∃ p, amapSplitref s.amap e.1 mem = {s.amap with ref := s.amap.ref + 1, ppref := p} ∧ p ≠ .null ∧
      ∀ ppref, p = .array ppref → Encodes ppref (refCount s.arefs) 0 s.amap.nslot := by
  unfold amapSplitref
  cases hppref : s.amap.ppref with
  | none => exact ⟨.none, (by dsimp only; rw [hppref]), fun hp => (by cases hp), fun _ hp => by cases hp⟩
  | array ppref =>
    refine ⟨.array ppref, (by dsimp only; rw [hppref]), fun hp => (by cases hp), fun ppref' hp => ?_⟩
    rw [← Ppref.array.inj hp]
    exact h.counts.array ppref hppref
  | null =>
    cases mem with
    | false => exact ⟨.none, rfl, fun hp => (by cases hp), fun _ hp => by cases hp⟩
    | true =>
      refine ⟨_, rfl, fun hp => (by cases hp), fun ppref hp => ?_⟩
      obtain ⟨off, hoff, harefs⟩ := h.counts.null hppref
      obtain rfl : e = (off, s.amap.nslot - off) := by
        have hmem := mem_of_getElem? hk
        rwa [harefs, mem_singleton] at hmem
      have href : s.amap.ref = 1 := by
        rw [h.ref, harefs]
        rfl
      rw [← Ppref.array.inj hp, harefs, href]
      have hfront : Encodes (ppSetreflen (fun _ => 0) 0 0 off) (refCount [(off, s.amap.nslot - off)]) 0 (0 + off) := by
        refine (Encodes.nil 0).setreflen (Int.le_refl 0) fun i _ hi => ?_
        rw [refCount_singleton, if_neg (by omega)]
      rw [zero_add] at hfront
      have hall : Encodes (ppSetreflen (ppSetreflen (fun _ => 0) 0 0 off) off 1 (s.amap.nslot - off))
          (refCount [(off, s.amap.nslot - off)]) 0 (off + (s.amap.nslot - off)) := by
        refine hfront.setreflen Int.one_nonneg fun i hi hlt => ?_
        rw [refCount_singleton, if_pos (by omega)]
      rw [Nat.add_sub_of_le hoff] at hall
      exact hall

theorem split_aligned {left : Nat} {mem : Bool} (h : s.Aligned) (hn : s.next (.split k left mem) = some s') : s'.Aligned := by
  obtain ⟨e, hk, hn⟩ := bind_eq_some_iff.mp hn
  split at hn
  case isFalse => cases hn
  case isTrue hleft =>
    obtain rfl := some.inj hn
    have hcount : refCount (s.arefs.set k (e.1, left) ++ [(e.1 + left, e.2 - left)]) = refCount s.arefs :=
      funext (refCount_split hk (le_of_lt hleft.2))
    have hin := h.inside e (mem_of_getElem? hk)
    have hlen : (s.arefs.set k (e.1, left) ++ [(e.1 + left, e.2 - left)]).length = s.arefs.length + 1 := by
      rw [length_append, length_set]
      rfl
    obtain ⟨p, hsplit, hcounts⟩ := h.amapSplitref_spec hk mem
    rw [hsplit]
    refine ⟨(h.packed.withPpref p).withRef _, ?_, fun e' he => ?_, fun i hi => ?_, fun ppref hp => ?_, fun hp => absurd hp hcounts.1⟩
    · rw [hlen, h.ref]
    · obtain he | he := mem_append.mp he
      · obtain he | rfl := mem_or_eq_of_mem_set he
        · exact h.inside e' he
        · show e.1 + left ≤ s.amap.nslot
          omega
      · rw [mem_singleton.mp he]
        show e.1 + left + (e.2 - left) ≤ s.amap.nslot
        omega
    · rw [hcount]
      exact h.owned i hi
    · rw [hcount]
      exact hcounts.2 ppref hp

/-- An aref is given back: a slot that was its alone loses the anon. -/
theorem Aligned.unref_spec (h : s.Aligned) (hk : s.arefs[k]? = some e) (href : s.amap.ref ≠ 1) {mem : Bool} {w : Wiped}
    (hrun : amapAdjrefAnons s.wiped e.1 e.2 (-1) false mem = some w)
    (hnone : s.amap.ppref = .none → ∀ i, e.1 ≤ i → i < e.1 + e.2 → s.amap.anon i = none) :
    Packed w.amap ∧ w.amap.nslot = s.amap.nslot ∧ w.amap.ref = s.amap.ref - 1 ∧ w.amap.ppref ≠ .null ∧
      (∀ ppref, w.amap.ppref = .array ppref → Encodes ppref (adjusted (refCount s.arefs) e.1 e.2 (-1)) 0 s.amap.nslot) ∧
      ∀ i, (w.amap.anon i).isSome = true → (s.amap.anon i).isSome = true ∧ ¬(e.1 ≤ i ∧ i < e.1 + e.2 ∧ refCount s.arefs i + -1 = 0) := by
  have hnull : s.amap.ppref ≠ .null := by
    intro hp
    obtain ⟨off, -, harefs⟩ := h.counts.null hp
    apply href
    rw [h.ref, harefs]
    rfl
  have hpart : establishPart s.amap e.1 e.2 false mem = s.amap := by
    unfold establishPart
    split
    · next hp => exact absurd hp hnull
    · rfl
  have hless : (s.amap.ref + -1 : Int).toNat = s.amap.ref - 1 := by omega
  unfold amapAdjrefAnons at hrun
  dsimp only [wiped] at hrun
  rw [hpart, hless] at hrun
  have hpacked := h.packed.withRef (s.amap.ref - 1)
  cases hppref : s.amap.ppref with
  | null => exact absurd hppref hnull
  | none =>
    rw [hppref] at hrun
    obtain rfl := some.inj hrun
    refine ⟨hpacked.withPpref .none, rfl, rfl, fun hp => (by cases hp), fun ppref hp => (by cases hp), fun i hi => ⟨hi, fun hin => ?_⟩⟩
    · have hgone := hnone hppref i hin.1 hin.2.1
      rw [show s.amap.anon i = none from hgone] at hi
      cases hi
  | array ppref =>
    rw [hppref] at hrun
    obtain ⟨ppref', calls, hnew, hzeros, hcalls⟩ := @amapPpAdjref_spec ppref (refCount s.arefs)
      ⟨{s.amap with ref := s.amap.ref - 1, ppref := .array ppref}, s.anRef, []⟩ s.amap.nslot e.1 e.2 (-1) (h.counts.array ppref hppref)
      (h.inside e (mem_of_getElem? hk)) fun i hi hlt => by
        have hless := refCount_le (s.arefs.eraseIdx k) i
        rw [refCount_eraseIdx hk, adjusted, if_pos ⟨hi, hlt⟩, length_eraseIdx_of_lt (List.getElem?_eq_some_iff.mp hk).1, ← h.ref]
          at hless
        have hhas : 0 < refCount s.arefs i := refCount_pos.mpr ⟨e, mem_of_getElem? hk, hi, hlt⟩
        exact ⟨by omega, hless⟩
    obtain ⟨w', hwipe, hkeeps, href', hgone, hkept⟩ := wipeCalls_packed
      calls (w := ⟨{s.amap with ref := s.amap.ref - 1, ppref := .array ppref}, s.anRef, []⟩) (hpacked.withPpref (.array ppref))
    rw [hwipe] at hcalls
    obtain rfl := some.inj (hcalls.symm.trans hrun)
    refine ⟨hkeeps.packed.withPpref _, hkeeps.nslot, href', fun hp => (by cases hp), fun ppref hp => ?_, fun i hi => ?_⟩
    · rw [← Ppref.array.inj hp]
      exact hnew
    by_cases hcall : ∃ r ∈ calls, r.1 ≤ i ∧ i < r.1 + r.2
    · rw [hgone i hcall] at hi
      cases hi
    rw [hkept i hcall] at hi
    refine ⟨hi, fun hin => hcall ((hzeros.exact i).mpr ⟨hin.1, hin.2.1, ?_⟩)⟩
    rw [adjusted, if_pos ⟨hin.1, hin.2.1⟩]
    exact hin.2.2

theorem unref_aligned {mem : Bool} (h : s.Aligned) (hkept : s.leavesNone (.unref k mem) = true) (hn : s.next (.unref k mem) = some s') :
    s'.Aligned := by
  obtain ⟨e, hk, hn⟩ := bind_eq_some_iff.mp hn
  split at hn
  case isTrue => cases hn
  case isFalse href =>
    obtain ⟨w, hrun, rfl⟩ := map_eq_some_iff.mp hn
    have hnone : s.amap.ppref = .none → ∀ i, e.1 ≤ i → i < e.1 + e.2 → s.amap.anon i = none := by
      intro hp i hi hlt
      rw [leavesNone, hp] at hkept
      rw [hk, all_some, List.all_eq_true] at hkept
      have hi' := hkept (i - e.1) (mem_range.mpr (by omega))
      rw [Nat.add_sub_cancel' hi] at hi'
      exact isNone_iff_eq_none.mp hi'
    obtain ⟨hpacked, hnslot, href', hnull, harray, hanon⟩ := h.unref_spec hk href hrun hnone
    have hcount : refCount (s.arefs.eraseIdx k) = adjusted (refCount s.arefs) e.1 e.2 (-1) := funext (refCount_eraseIdx hk)
    refine ⟨hpacked, ?_, fun e' he => ?_, fun i hi => ?_, fun ppref hp => ?_, fun hp => absurd hp hnull⟩
    · show w.amap.ref = (s.arefs.eraseIdx k).length
      rw [href', h.ref, length_eraseIdx_of_lt (List.getElem?_eq_some_iff.mp hk).1]
    · show _ ≤ w.amap.nslot
      rw [hnslot]
      exact h.inside e' (mem_of_mem_eraseIdx he)
    · obtain ⟨hold, hleft⟩ := hanon i hi
      have hpos := h.owned i hold
      show 0 < refCount (s.arefs.eraseIdx k) i
      rw [hcount, adjusted]
      split
      · next hin =>
        omega
      · exact hpos
    · show Encodes ppref (refCount (s.arefs.eraseIdx k)) 0 w.amap.nslot
      rw [hcount, hnslot]
      exact harray ppref hp

theorem extend_aligned {add : Nat} {forwards : Bool} {mem : Mem} (h : s.Aligned) (hn : s.next (.extend k add forwards mem) = some s') :
    s'.Aligned := by
  obtain ⟨e, hk, hn⟩ := bind_eq_some_iff.mp hn
  obtain ⟨⟨w', r⟩, hrun, rfl⟩ := map_eq_some_iff.mp hn
  have href : s.amap.ref = 1 := by
    by_contra hne
    rw [amapExtend, if_pos (show s.wiped.amap.ref ≠ 1 from hne)] at hrun
    cases hrun
  obtain ⟨harefs, hsole⟩ := h.sole hk href
  obtain ⟨w'', r', hrun', hpacked, hok, herr⟩ := @amapExtend_spec s.wiped e.1 e.2 add mem hsole forwards
  obtain ⟨rfl, rfl⟩ := Prod.mk.inj (some.inj (hrun'.symm.trans hrun))
  cases r' with
  | error errno =>
    obtain rfl := herr errno rfl
    exact h
  | ok off =>
    obtain ⟨old, hext⟩ : ∃ old, Extended s.amap w''.amap e.1 e.2 add off old := ⟨_, hok off rfl⟩
    have hset : s.arefs.set k (off, e.2 + add) = [(off, e.2 + add)] := by
      obtain ⟨hlt, -⟩ := List.getElem?_eq_some_iff.mp hk
      rw [harefs] at hlt ⊢
      obtain rfl : k = 0 := Nat.lt_one_iff.mp hlt
      rfl
    show (ofWiped w'' (s.arefs.set k (off, e.2 + add))).Aligned
    rw [hset]
    refine ⟨hpacked, hext.ref.trans href, fun e' he => ?_, fun i hi => ?_, hext.counts⟩
    · rw [mem_singleton.mp he]
      exact hext.inside
    have hplace := hext.place
    have hi' : (w''.amap.anon i).isSome = true := hi
    rw [hext.anon i] at hi'
    split at hi'
    · next hin =>
      exact refCount_pos.mpr ⟨_, mem_singleton_self _, show off ≤ i ∧ i < off + (e.2 + add) by omega⟩
    · cases hi'

theorem reach_aligned (h : system.Reach (fun s a => s.leavesNone a = true) s) : s.Aligned := by
  refine System.Reach.invariant (fun _ => Aligned.of_init) ?_ h
  intro s a s' hs hkept hn
  cases a with
  | add slot a replace => exact add_aligned hs hn
  | split k left mem => exact split_aligned hs hn
  | unref k mem => exact unref_aligned hs hkept hn
  | extend k add forwards mem => exact extend_aligned hs hn

/-- In every run that leaves no anons behind, an amap with one reference can be extended whichever way, and on success: the pages
of the aref have the anons they had, the added ones have none, and `slots` lists the slots where the anons are. -/
theorem extend_exposes_nothing (s : Shared) (h : system.Reach (fun s a => s.leavesNone a = true) s) (href : s.amap.ref = 1)
    (off mapped : Nat) (hmem : (off, mapped) ∈ s.arefs) (add : Nat) (forwards : Bool) (mem : Mem) :
    ∃ w' r, amapExtend s.wiped off mapped add forwards mem = some (w', r) ∧ (∀ e, r = .error e → w' = s.wiped) ∧ ∀ off', r = .ok off' →
      off' + (mapped + add) ≤ w'.amap.nslot ∧
      (∀ i < mapped, w'.amap.anon ((if forwards then off' else off' + add) + i) = s.amap.anon (off + i)) ∧
      (∀ i < add, w'.amap.anon ((if forwards then off' + mapped else off') + i) = none) ∧
      Packed w'.amap ∧ w'.amap.nused = s.amap.nused ∧
      ∀ i < s.amap.nused, w'.amap.anon (w'.amap.slots i) = s.amap.anon (s.amap.slots i) := by
  have haligned := reach_aligned h
  obtain ⟨k, hk⟩ := getElem?_of_mem hmem
  obtain ⟨-, hsole⟩ := haligned.sole hk href
  obtain ⟨w', r, hrun, hpacked, hok, herr⟩ := @amapExtend_spec s.wiped off mapped add mem hsole forwards
  refine ⟨w', r, hrun, herr, fun off' hr => ?_⟩
  have hext := hok off' hr
  refine ⟨hext.inside, fun i hi => ?_, fun i hi => ?_, hpacked, hext.nused, fun i hi => ?_⟩
  · rw [hext.anon, if_pos (by omega), Nat.add_sub_cancel_left, add_comm]
    rfl
  · rw [hext.anon]
    apply if_neg
    cases forwards with
    | true => rw [if_pos rfl, if_pos rfl]; omega
    | false => rw [if_neg Bool.false_ne_true, if_neg Bool.false_ne_true]; omega
  have hslot := hext.slots i hi
  obtain ⟨hfirst, hlast⟩ := hsole.owned (s.amap.slots i) (haligned.packed.anon i hi)
  have hslot' : w'.amap.slots i + off = s.amap.slots i + if forwards then off' else off' + add := hslot
  rw [hext.anon, if_pos (by omega)]
  congr 1
  omega

/-- An amap of four slots is split in the middle, its first half with an anon is given back, and the other is extended over it. -/
theorem extend_exposes_nothing_half : ∃ s w', system.Reach (fun s a => s.leavesNone a = true) s ∧ s.amap.ref = 1 ∧ (2, 2) ∈ s.arefs ∧
    amapExtend s.wiped 2 2 2 false ⟨true, true⟩ = some (w', .ok 0) ∧ w'.amap.anon 0 = none ∧ w'.amap.anon 3 = some 8 := by
  have hrun : (System.run (System.guarded (fun s a => Shared.leavesNone s a = true) next) ⟨amapAlloc1 4 0, fun _ => 1, [(0, 4)]⟩
      [.add 0 7 false, .add 3 8 false, .split 0 2 true, .unref 0 true]).map
        (fun s => (s.amap.ref, s.arefs, s.amap.anon 3, (amapExtend s.wiped 2 2 2 false ⟨true, true⟩).map fun r => decide (r.2.toOption = some 0))) =
      some (1, [(2, 2)], some 8, some true) := by decide
  obtain ⟨s, hs, hobs⟩ := map_eq_some_iff.mp hrun
  obtain ⟨href, harefs, hanon, hext⟩ : s.amap.ref = 1 ∧ s.arefs = [(2, 2)] ∧ s.amap.anon 3 = some 8 ∧
      (amapExtend s.wiped 2 2 2 false ⟨true, true⟩).map (fun r => decide (r.2.toOption = some 0)) = some true := by
    simpa only [Prod.mk.injEq] using hobs
  have hreach : system.Reach (fun s a => s.leavesNone a = true) s := System.reach_run _ _ _ _ _ ⟨4, 0, rfl, rfl⟩ hs
  have hmem : (2, 2) ∈ s.arefs := by
    rw [harefs]
    exact mem_singleton_self _
  obtain ⟨w', r, hr, -, hok⟩ := extend_exposes_nothing s hreach href 2 2 hmem 2 false ⟨true, true⟩
  rw [hr] at hext
  cases r with
  | error e => cases hext
  | ok off =>
    obtain rfl : off = 0 := some.inj (of_decide_eq_true (some.inj hext))
    obtain ⟨-, hold, hnew, -⟩ := hok 0 rfl
    exact ⟨s, w', hreach, href, hmem, hr, hnew 0 (by decide), (hold 1 (by decide)).trans hanon⟩

/-- The array could not be made when the amap was split, and the anon of the first half is still there when the other is extended
over it. -/
theorem extend_exposes_stray : ∃ s w', system.Reachable s ∧ s.amap.ref = 1 ∧ s.arefs = [(2, 2)] ∧
    amapExtend s.wiped 2 2 2 false ⟨true, true⟩ = some (w', .ok 0) ∧ w'.amap.anon 0 = some 7 := by
  have hrun : (System.run (System.guarded (fun _ _ => True) next) ⟨amapAlloc1 4 0, fun _ => 1, [(0, 4)]⟩
      [.add 0 7 false, .split 0 2 false, .unref 0 true]).map
        (fun s => (s.amap.ref, s.arefs, (amapExtend s.wiped 2 2 2 false ⟨true, true⟩).map
          fun r => (decide (r.2.toOption = some 0), r.1.amap.anon 0))) = some (1, [(2, 2)], some (true, some 7)) := by decide
  obtain ⟨s, hs, hobs⟩ := map_eq_some_iff.mp hrun
  obtain ⟨href, harefs, hext⟩ : s.amap.ref = 1 ∧ s.arefs = [(2, 2)] ∧ (amapExtend s.wiped 2 2 2 false ⟨true, true⟩).map
      (fun r => (decide (r.2.toOption = some 0), r.1.amap.anon 0)) = some (true, some 7) := by
    simpa only [Prod.mk.injEq] using hobs
  obtain ⟨⟨w', r⟩, hr, hval⟩ := map_eq_some_iff.mp hext
  obtain ⟨hoff, hanon⟩ := Prod.mk.inj hval
  cases r with
  | error e => cases hoff
  | ok off =>
    obtain rfl : off = 0 := some.inj (of_decide_eq_true hoff)
    exact ⟨s, w', System.reach_run _ _ _ _ _ ⟨4, 0, rfl, rfl⟩ hs, href, harefs, hr, hanon⟩

end Shared

end NetBSD.Uvm.Amap
