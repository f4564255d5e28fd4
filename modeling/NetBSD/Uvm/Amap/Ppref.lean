import NetBSD.Uvm.Amap.Steps

/-! The references of pages, in chunks.

`Encodes ppref c lo hi` says that the array has chunks from slot `lo` to slot `hi`, and that they count the references `c`. What a
chunk has in the array lies in its own slots, so that chunks are taken apart and written one by one (`Encodes.congr`, `split_chunk`).
Adjusting the references of a range adds to each count of it, and wipes the slots whose count is then 0 (`pp_adjref_adds`). -/
namespace NetBSD.Uvm.Amap
open List Function
open Lib

/-- A chunk of `len` slots with `ref` references each. -/
def Chunk (ppref : Nat → Int) (offset : Nat) (ref : Int) (len : Nat) : Prop :=
  0 ≤ ref ∧ (len = 1 ∧ ppref offset = ref + 1 ∨ 1 < len ∧ ppref offset = -(ref + 1) ∧ ppref (offset + 1) = len)

inductive Encodes (ppref : Nat → Int) (c : Nat → Int) : Nat → Nat → Prop
  | nil (lo : Nat) : Encodes ppref c lo lo
  | chunk {lo hi : Nat} (len : Nat) (hchunk : Chunk ppref lo (c lo) len) (hsame : ∀ i, lo ≤ i → i < lo + len → c i = c lo)
      (hrest : Encodes ppref c (lo + len) hi) : Encodes ppref c lo hi

section Chunks
variable {ppref ppref' : Nat → Int} {c c' : Nat → Int} {lo mid hi offset len : Nat} {ref : Int}

theorem Chunk.pos (h : Chunk ppref offset ref len) : 0 < len := by
  obtain ⟨-, ⟨rfl, -⟩ | ⟨hlen, -⟩⟩ := h
  · exact one_pos
  · omega

theorem Chunk.getreflen (h : Chunk ppref offset ref len) : ppGetreflen ppref offset = (ref, (len : Int)) := by
  obtain ⟨href, ⟨rfl, hfirst⟩ | ⟨-, hfirst, hsecond⟩⟩ := h
  · rw [ppGetreflen, hfirst, if_pos (by omega)]
    exact Prod.ext (Int.add_sub_cancel ref 1) rfl
  · rw [ppGetreflen, if_neg (by omega), hsecond]
    exact Prod.ext (by omega) rfl

theorem ppSetreflen_of_out {k : Nat} (hk : k < offset ∨ offset + len ≤ k) : ppSetreflen ppref offset ref len k = ppref k := by
  unfold ppSetreflen
  split
  · rfl
  split
  · rw [update_of_ne (by omega)]
  · rw [update_of_ne (by omega), update_of_ne (by omega)]

theorem chunk_setreflen (href : 0 ≤ ref) (hlen : 0 < len) : Chunk (ppSetreflen ppref offset ref len) offset ref len := by
  refine ⟨href, ?_⟩
  unfold ppSetreflen
  rw [if_neg (by omega)]
  by_cases hone : len = 1
  · rw [if_pos hone]
    exact .inl ⟨hone, update_self _ _ _⟩
  rw [if_neg hone]
  refine .inr ⟨by omega, ?_, update_self _ _ _⟩
  rw [update_of_ne (by omega), update_self, Int.mul_neg, Int.mul_one]

theorem Chunk.congr (h : Chunk ppref offset ref len) (heq : ∀ k, offset ≤ k → k < offset + len → ppref' k = ppref k) :
    Chunk ppref' offset ref len := by
  obtain ⟨href, ⟨rfl, hfirst⟩ | ⟨hlen, hfirst, hsecond⟩⟩ := h
  · exact ⟨href, .inl ⟨rfl, by rw [heq offset (le_refl _) (by omega), hfirst]⟩⟩
  · exact ⟨href, .inr ⟨hlen, by rw [heq offset (le_refl _) (by omega), hfirst], by rw [heq _ (by omega) (by omega), hsecond]⟩⟩

section
variable (h : Encodes ppref c lo hi)
include h

theorem Encodes.le : lo ≤ hi := by
  induction h with
  | nil lo => exact le_refl lo
  | chunk len _ _ _ ih => omega

theorem Encodes.first (hlt : lo < hi) : ∃ len, Chunk ppref lo (c lo) len ∧
    (∀ i, lo ≤ i → i < lo + len → c i = c lo) ∧ lo + len ≤ hi ∧ Encodes ppref c (lo + len) hi := by
  cases h with
  | nil => exact absurd hlt (lt_irrefl _)
  | chunk len hchunk hsame hrest => exact ⟨len, hchunk, hsame, hrest.le, hrest⟩

theorem Encodes.congr (heq : ∀ k, lo ≤ k → k < hi → ppref' k = ppref k)
    (hc : ∀ k, lo ≤ k → k < hi → c' k = c k) : Encodes ppref' c' lo hi := by
  induction h with
  | nil lo => exact .nil lo
  | @chunk lo hi len hchunk hsame hrest ih =>
    have hle := hrest.le
    have hpos := hchunk.pos
    refine .chunk len ?_ (fun i hi hlt => ?_) (ih (fun k hk => heq k (by omega)) fun k hk => hc k (by omega))
    · rw [hc lo (le_refl _) (by omega)]
      exact hchunk.congr fun k hk hlt => heq k hk (by omega)
    · rw [hc i hi (by omega), hc lo (le_refl _) (by omega), hsame i hi hlt]

end

theorem Encodes.append (h : Encodes ppref c lo mid) (h' : Encodes ppref c mid hi) : Encodes ppref c lo hi := by
  induction h with
  | nil lo => exact h'
  | chunk len hchunk hsame _ ih => exact .chunk len hchunk hsame (ih h')

theorem Encodes.of_chunk (h : Chunk ppref lo ref len) (hc : ∀ i, lo ≤ i → i < lo + len → c i = ref) : Encodes ppref c lo (lo + len) := by
  have hpos := h.pos
  have hfirst := hc lo (le_refl lo) (by omega)
  refine .chunk len (hfirst ▸ h) (fun i hi hlt => ?_) (.nil _)
  rw [hc i hi hlt, hfirst]

theorem split_chunk (h : Encodes ppref c (lo + len) hi) (hchunk : Chunk ppref lo (c lo) len)
    (hsame : ∀ i, lo ≤ i → i < lo + len → c i = c lo) (hmid : lo < mid) (hpast : mid < lo + len) :
    let ppref' := ppSetreflen (ppSetreflen ppref lo (c lo) (mid - lo)) mid (c lo) (len - (mid - lo))
    Chunk ppref' lo (c lo) (mid - lo) ∧ Encodes ppref' c mid hi ∧ ∀ k < lo, ppref' k = ppref k := by
  intro ppref'
  have hend : mid + (len - (mid - lo)) = lo + len := by omega
  refine ⟨?_, ?_, fun k hk => ?_⟩
  · apply (chunk_setreflen hchunk.1 (by omega)).congr
    exact fun k _ hk => ppSetreflen_of_out (by omega)
  · have hback : Chunk ppref' mid (c lo) (len - (mid - lo)) := chunk_setreflen hchunk.1 (by omega)
    have hrest : Encodes ppref' c (lo + len) hi := h.congr
      (fun k hk _ => (ppSetreflen_of_out (by omega)).trans (ppSetreflen_of_out (by omega))) fun _ _ _ => rfl
    refine Encodes.append (Encodes.of_chunk hback fun i hi hlt => ?_) (hend ▸ hrest)
    exact hsame i (by omega) (by omega)
  · exact (ppSetreflen_of_out (by omega)).trans (ppSetreflen_of_out (by omega))

end Chunks

section Adjref
variable {ppref : Nat → Int} {c : Nat → Int} {curslot nslot prevlcv lcv : Nat}

/-- Up to `lcv` there are chunks, of which the last begins at `prevlcv`. -/
def Behind (ppref c : Nat → Int) (prevlcv lcv : Nat) : Prop :=
  lcv = 0 ∧ prevlcv = 0 ∨ prevlcv < lcv ∧ Encodes ppref c 0 prevlcv ∧ Chunk ppref prevlcv (c prevlcv) (lcv - prevlcv) ∧
    ∀ i, prevlcv ≤ i → i < lcv → c i = c prevlcv

theorem Behind.encodes (h : Behind ppref c prevlcv lcv) : Encodes ppref c 0 lcv := by
  obtain ⟨rfl, -⟩ | ⟨hlt, hfront, hchunk, hsame⟩ := h
  · exact .nil 0
  have hend : prevlcv + (lcv - prevlcv) = lcv := by omega
  have hlast := Encodes.of_chunk hchunk fun i hi hilt => hsame i hi (by omega)
  rw [hend] at hlast
  exact hfront.append hlast

theorem ppAdvance_spec (hcur : curslot ≤ nslot) (fuel : Nat) (hbehind : Behind ppref c prevlcv lcv) (henc : Encodes ppref c lcv nslot)
    (hle : lcv ≤ curslot) (hfuel : curslot ≤ lcv + fuel) : ∃ ppref' prevlcv', ppAdvance curslot fuel ppref lcv prevlcv =
      some (ppref', curslot, prevlcv') ∧ Behind ppref' c prevlcv' curslot ∧ Encodes ppref' c curslot nslot := by
  induction fuel generalizing ppref lcv prevlcv with
  | zero =>
    obtain rfl : lcv = curslot := by omega
    exact ⟨ppref, prevlcv, by rw [ppAdvance, if_neg (lt_irrefl _)], hbehind, henc⟩
  | succ fuel ih =>
    rw [ppAdvance]
    by_cases hlt : lcv < curslot
    · obtain ⟨len, hchunk, hsame, hend, hrest⟩ := henc.first (by omega)
      have hpos := hchunk.pos
      have hfront := hbehind.encodes
      rw [if_pos hlt, hchunk.getreflen]
      dsimp only
      rw [if_neg (by omega)]
      by_cases hpast : lcv + len > curslot
      · rw [if_pos (by omega)]
        obtain ⟨hfirst, hsecond, hkept⟩ := split_chunk hrest hchunk hsame hlt hpast
        refine ih (.inr ⟨hlt, ?_, hfirst, fun i hi hic => hsame i hi (by omega)⟩) hsecond (le_refl _) (by omega)
        exact hfront.congr (fun k _ hk => hkept k hk) fun _ _ _ => rfl
      rw [if_neg (by omega)]
      refine ih (.inr ⟨by omega, hfront, ?_, fun i hi hic => hsame i hi hic⟩) hrest (by omega) (by omega)
      rw [Nat.add_sub_cancel_left]
      exact hchunk
    · rw [if_neg hlt]
      obtain rfl : lcv = curslot := by omega
      exact ⟨ppref, prevlcv, rfl, hbehind, henc⟩

end Adjref

/-! ### The range -/

/-- The slots of a range are wiped one part after the other. -/
def wipeCalls (w : Wiped) (calls : List (Nat × Nat)) : Option Wiped := calls.foldlM (fun w r => amapWiperange w r.1 r.2) w

/-- The parts are the slots of the range without a reference. -/
structure Zeros (c : Nat → Int) (lo hi : Nat) (calls : List (Nat × Nat)) : Prop where
  exact : ∀ i, (∃ r ∈ calls, r.1 ≤ i ∧ i < r.1 + r.2) ↔ lo ≤ i ∧ i < hi ∧ c i = 0
  apart : calls.Pairwise fun r r' => r.1 + r.2 ≤ r'.1
  pos : ∀ r ∈ calls, 0 < r.2

section Adjust
variable {ppref : Nat → Int} {c c' : Nat → Int} {stopslot nslot prevlcv prevlen lcv len lo hi : Nat} {adjval prevref ref : Int}
  {calls : List (Nat × Nat)}

theorem Zeros.nil (c : Nat → Int) (lo : Nat) : Zeros c lo lo [] where
  exact := by
    simp only [not_mem_nil, false_and, exists_false, false_iff]
    omega
  apart := .nil
  pos := fun _ hr => absurd hr not_mem_nil

theorem Zeros.skip (h : Zeros c (lo + len) hi calls) (hne : ∀ i, lo ≤ i → i < lo + len → c i ≠ 0) : Zeros c lo hi calls where
  exact := by
    intro i
    rw [h.exact]
    constructor
    · exact fun hi => ⟨by omega, hi.2⟩
    intro hi
    by_contra hlt
    exact hne i hi.1 (by omega) hi.2.2
  apart := h.apart
  pos := h.pos

theorem Zeros.cons (h : Zeros c (lo + len) hi calls) (hlen : 0 < len) (hend : lo + len ≤ hi)
    (hzero : ∀ i, lo ≤ i → i < lo + len → c i = 0) : Zeros c lo hi ((lo, len) :: calls) where
  exact := by
    intro i
    simp only [exists_mem_cons_iff, h.exact]
    constructor
    · rintro (hin | hin)
      · exact ⟨hin.1, by omega, hzero i hin.1 hin.2⟩
      · exact ⟨by omega, hin.2⟩
    intro hin
    by_cases hlt : i < lo + len
    · exact .inl ⟨hin.1, hlt⟩
    · exact .inr ⟨by omega, hin.2⟩
  apart := by
    refine .cons (fun r hr => ?_) h.apart
    exact ((h.exact r.1).mp ⟨r, hr, le_refl _, Nat.lt_add_of_pos_right (h.pos r hr)⟩).1
  pos := forall_mem_cons.mpr ⟨hlen, h.pos⟩

/-- The chunk before the first one of the range, with which that may be merged; -1 is that there is none. -/
def Prev (ppref c : Nat → Int) (prevref : Int) (prevlcv prevlen lcv : Nat) : Prop :=
  prevlcv + prevlen < lcv ∨ prevref = -1 ∨
    0 < prevlen ∧ prevlcv + prevlen = lcv ∧ Encodes ppref c 0 prevlcv ∧ ∀ i, prevlcv ≤ i → i < lcv → c i = prevref

theorem write_chunk (hfront : Encodes ppref c' 0 lcv) (hsuffix : Encodes ppref c (lcv + len) nslot)
    (hprev : Prev ppref c' prevref prevlcv prevlen lcv) (href : 0 ≤ ref) (hlen : 0 < len)
    (hsame : ∀ i, lcv ≤ i → i < lcv + len → c' i = ref) :
    let ppref' := if lcv = prevlcv + prevlen ∧ ref = prevref then ppSetreflen ppref prevlcv ref (prevlen + len)
      else ppSetreflen ppref lcv ref len
    Encodes ppref' c' 0 (lcv + len) ∧ Encodes ppref' c (lcv + len) nslot := by
  intro ppref'
  by_cases hmerge : lcv = prevlcv + prevlen ∧ ref = prevref
  · obtain ⟨hat, hrefs⟩ := hmerge
    have hdef : ppref' = ppSetreflen ppref prevlcv ref (prevlen + len) := if_pos ⟨hat, hrefs⟩
    obtain hfar | hnone | ⟨hprevlen, -, hfront, hprevsame⟩ := hprev
    · omega
    · omega
    have hend : prevlcv + (prevlen + len) = lcv + len := by omega
    have hchunk : Chunk ppref' prevlcv ref (prevlen + len) := hdef ▸ chunk_setreflen href (by omega)
    have hmerged : Encodes ppref' c' prevlcv (lcv + len) := by
      rw [← hend]
      refine Encodes.of_chunk hchunk fun i hi hlt => ?_
      by_cases hnew : i < lcv
      · rw [hprevsame i hi hnew, hrefs]
      · exact hsame i (by omega) (by omega)
    have hkept : Encodes ppref' c' 0 prevlcv := hfront.congr (fun k _ hk => hdef ▸ ppSetreflen_of_out (.inl hk)) fun _ _ _ => rfl
    refine ⟨hkept.append hmerged, hsuffix.congr (fun k hk _ => ?_) fun _ _ _ => rfl⟩
    rw [hdef]
    exact ppSetreflen_of_out (by omega)
  · have hdef : ppref' = ppSetreflen ppref lcv ref len := if_neg hmerge
    have hchunk : Chunk ppref' lcv ref len := hdef ▸ chunk_setreflen href hlen
    have hkept : Encodes ppref' c' 0 lcv := hfront.congr (fun k _ hk => hdef ▸ ppSetreflen_of_out (.inl hk)) fun _ _ _ => rfl
    refine ⟨hkept.append (Encodes.of_chunk hchunk hsame), hsuffix.congr (fun k hk _ => ?_) fun _ _ _ => rfl⟩
    rw [hdef]
    exact ppSetreflen_of_out (by omega)

/-- What a round does with a chunk, which ends where the range does at the latest. -/
def adjustChunk (stopslot : Nat) (adjval prevref : Int) (prevlcv prevlen fuel : Nat) (ppref : Nat → Int) (lcv len : Nat) (ref : Int)
    (w : Wiped) : Option Wiped :=
  if ref < 0 ∨ ref > w.amap.ref then none
  else
    let ppref := if lcv = prevlcv + prevlen ∧ ref = prevref then ppSetreflen ppref prevlcv ref (prevlen + len)
      else ppSetreflen ppref lcv ref len
    if ref = 0 then (amapWiperange w lcv len).bind fun w => ppAdjust stopslot adjval prevref prevlcv prevlen fuel ppref (lcv + len) w
    else ppAdjust stopslot adjval prevref prevlcv prevlen fuel ppref (lcv + len) w

theorem ppAdjust_round (fuel : Nat) (henc : Encodes ppref c lcv nslot) (hlt : lcv < stopslot) (hstop : stopslot ≤ nslot) :
    ∃ len ppref', 0 < len ∧ lcv + len ≤ stopslot ∧ (∀ i, lcv ≤ i → i < lcv + len → c i = c lcv) ∧
      Encodes ppref' c (lcv + len) nslot ∧ (∀ k < lcv, ppref' k = ppref k) ∧
      ∀ w, ppAdjust stopslot adjval prevref prevlcv prevlen (fuel + 1) ppref lcv w =
        adjustChunk stopslot adjval prevref prevlcv prevlen fuel ppref' lcv len (c lcv + adjval) w := by
  obtain ⟨len, hchunk, hsame, hend, hrest⟩ := henc.first (by omega)
  have hpos := hchunk.pos
  by_cases hpast : lcv + len > stopslot
  · obtain ⟨-, hsecond, hkept⟩ := split_chunk hrest hchunk hsame hlt hpast
    have hto : lcv + (stopslot - lcv) = stopslot := by omega
    refine ⟨stopslot - lcv, _, by omega, by omega, fun i hi hic => hsame i hi (by omega), hto.symm ▸ hsecond, hkept, fun w => ?_⟩
    have hpast' : (lcv : Int) + len > stopslot := by omega
    rw [ppAdjust, if_pos hlt, hchunk.getreflen]
    dsimp only
    rw [if_neg (by omega)]
    simp only [hpast', if_true, Int.toNat_natCast]
    rfl
  · refine ⟨len, ppref, hpos, by omega, hsame, hrest, fun _ _ => rfl, fun w => ?_⟩
    have hpast' : ¬(lcv : Int) + len > stopslot := by omega
    rw [ppAdjust, if_pos hlt, hchunk.getreflen]
    dsimp only
    rw [if_neg (by omega)]
    simp only [hpast', if_false, Int.toNat_natCast]
    rfl

theorem wipeByAnon_ref (n lcv : Nat) (w : Wiped) : (wipeByAnon n lcv w).amap.ref = w.amap.ref := by
  induction n generalizing lcv w with
  | zero => rfl
  | succ n ih =>
    rw [wipeByAnon]
    split
    · exact ih _ _
    · rw [ih]
      exact (removeSlot_eq w.amap lcv).2.2.2.2.1

theorem wipeBySlots_ref (slotoff slotend n lcv : Nat) (w : Wiped) {w' : Wiped} (h : wipeBySlots slotoff slotend n lcv w = some w') :
    w'.amap.ref = w.amap.ref := by
  induction n generalizing lcv w with
  | zero =>
    obtain rfl := Option.some.inj h
    rfl
  | succ n ih =>
    rw [wipeBySlots] at h
    split at h
    · exact ih _ _ h
    split at h
    · cases h
    · rw [ih _ _ h]
      exact (removeSlot_eq w.amap _).2.2.2.2.1

theorem amapWiperange_ref {w w' : Wiped} {off n : Nat} (h : amapWiperange w off n = some w') : w'.amap.ref = w.amap.ref := by
  unfold amapWiperange at h
  split at h
  · obtain rfl := Option.some.inj h
    exact wipeByAnon_ref n off w
  · exact wipeBySlots_ref _ _ _ _ w h

theorem ppAdjust_done (fuel : Nat) (w : Wiped) : ppAdjust stopslot adjval prevref prevlcv prevlen fuel ppref stopslot w =
    some {w with amap := {w.amap with ppref := .array ppref}} := by
  cases fuel with
  | zero => rw [ppAdjust, if_neg (lt_irrefl _)]
  | succ fuel => rw [ppAdjust, if_neg (lt_irrefl _)]

/-- Before `lcv` the array has the new counts `c'`, from there on the old ones. -/
theorem ppAdjust_spec {amref : Nat} (fuel : Nat) (hstop : stopslot ≤ nslot) (hfront : Encodes ppref c' 0 lcv)
    (hsuffix : Encodes ppref c lcv nslot) (hprev : Prev ppref c' prevref prevlcv prevlen lcv) (hle : lcv ≤ stopslot)
    (hfuel : stopslot ≤ lcv + fuel) (hnew : ∀ i, lcv ≤ i → i < stopslot → c' i = c i + adjval)
    (hold : ∀ i, stopslot ≤ i → c' i = c i) (hcounts : ∀ i, lcv ≤ i → i < stopslot → 0 ≤ c' i ∧ c' i ≤ amref) :
    ∃ ppref' calls, Encodes ppref' c' 0 nslot ∧ Zeros c' lcv stopslot calls ∧ ∀ w, w.amap.ref = amref →
      ppAdjust stopslot adjval prevref prevlcv prevlen fuel ppref lcv w =
        (wipeCalls w calls).map fun w => {w with amap := {w.amap with ppref := .array ppref'}} := by
  have hdone (fuel : Nat) {ppref : Nat → Int} (hfront : Encodes ppref c' 0 stopslot) (hsuffix : Encodes ppref c stopslot nslot) :
      ∃ ppref' calls, Encodes ppref' c' 0 nslot ∧ Zeros c' stopslot stopslot calls ∧ ∀ w, w.amap.ref = amref →
        ppAdjust stopslot adjval prevref prevlcv prevlen fuel ppref stopslot w =
          (wipeCalls w calls).map fun w => {w with amap := {w.amap with ppref := .array ppref'}} :=
    ⟨ppref, [], hfront.append (hsuffix.congr (fun _ _ _ => rfl) fun k hk _ => hold k hk), .nil c' stopslot, fun w _ => ppAdjust_done fuel w⟩
  induction fuel generalizing ppref lcv with
  | zero =>
    obtain rfl : lcv = stopslot := by omega
    exact hdone 0 hfront hsuffix
  | succ fuel ih =>
    by_cases hlt : lcv < stopslot
    · obtain ⟨len, ppref₁, hpos, hend, hsame, hrest, hkept, hround⟩ := @ppAdjust_round ppref c stopslot nslot prevlcv prevlen lcv
        adjval prevref fuel hsuffix hlt hstop
      have hfront₁ : Encodes ppref₁ c' 0 lcv := hfront.congr (fun k _ hk => hkept k hk) fun _ _ _ => rfl
      have hprev₁ : Prev ppref₁ c' prevref prevlcv prevlen lcv := by
        obtain hfar | hnone | ⟨hprevlen, hat, hfront, hprevsame⟩ := hprev
        · exact .inl hfar
        · exact .inr (.inl hnone)
        · exact .inr (.inr ⟨hprevlen, hat, hfront.congr (fun k _ hk => hkept k (by omega)) fun _ _ _ => rfl, hprevsame⟩)
      have hfirst : c' lcv = c lcv + adjval := hnew lcv (le_refl _) hlt
      have hchunk : ∀ i, lcv ≤ i → i < lcv + len → c' i = c lcv + adjval := by
        intro i hi hic
        rw [hnew i hi (by omega), hsame i hi hic]
      obtain ⟨hlow, hhigh⟩ := hcounts lcv (le_refl _) hlt
      rw [hfirst] at hlow hhigh
      obtain ⟨hwritten, hremain⟩ := write_chunk hfront₁ hrest hprev₁ hlow hpos hchunk
      have hfar : prevlcv + prevlen ≤ lcv ∨ prevref = -1 := by
        obtain hfar | hnone | ⟨-, hat, -, -⟩ := hprev
        · exact .inl (le_of_lt hfar)
        · exact .inr hnone
        · exact .inl (le_of_eq hat)
      obtain ⟨ppref', calls, hfinal, hzeros, hrun⟩ := ih hwritten hremain
        (hfar.elim (fun hle => .inl (by omega)) fun hnone => .inr (.inl hnone)) hend (by omega)
        (fun i hi => hnew i (by omega)) (fun i hi => hcounts i (by omega))
      by_cases hzero : c lcv + adjval = 0
      · refine ⟨ppref', (lcv, len) :: calls, hfinal, hzeros.cons hpos hend fun i hi hic => (hchunk i hi hic).trans hzero, fun w hw => ?_⟩
        rw [hround, adjustChunk, if_neg (by omega), if_pos hzero]
        cases hwipe : amapWiperange w lcv len with
        | none =>
          rw [wipeCalls, foldlM_cons, hwipe]
          rfl
        | some w₁ =>
          rw [Option.bind_some, hrun w₁ ((amapWiperange_ref hwipe).trans hw), wipeCalls, wipeCalls, foldlM_cons, hwipe]
          rfl
      · refine ⟨ppref', calls, hfinal, hzeros.skip fun i hi hic => by rwa [hchunk i hi hic], fun w hw => ?_⟩
        rw [hround, adjustChunk, if_neg (by omega), if_neg hzero]
        exact hrun w hw
    · obtain rfl : lcv = stopslot := by omega
      exact hdone _ hfront hsuffix

end Adjust

/-! ### `amap_pp_adjref` -/

/-- The counts with `adjval` added in a range. -/
def adjusted (c : Nat → Int) (curslot slotlen : Nat) (adjval : Int) (i : Nat) : Int :=
  if curslot ≤ i ∧ i < curslot + slotlen then c i + adjval else c i

section Adjref
variable {ppref c : Nat → Int} {w : Wiped} {nslot curslot slotlen : Nat} {adjval : Int} {calls : List (Nat × Nat)}

theorem amapPpAdjref_spec (henc : Encodes ppref c 0 nslot) (hrange : curslot + slotlen ≤ nslot)
    (hcounts : ∀ i, curslot ≤ i → i < curslot + slotlen → 0 ≤ c i + adjval ∧ c i + adjval ≤ w.amap.ref) :
    ∃ ppref' calls, Encodes ppref' (adjusted c curslot slotlen adjval) 0 nslot ∧
      Zeros (adjusted c curslot slotlen adjval) curslot (curslot + slotlen) calls ∧
      amapPpAdjref w ppref curslot slotlen adjval = (wipeCalls w calls).map fun w => {w with amap := {w.amap with ppref := .array ppref'}} := by
  obtain ⟨ppref₁, prevlcv, hadvance, hbehind, hsuffix⟩ := ppAdvance_spec (show curslot ≤ nslot by omega) curslot (.inl ⟨rfl, rfl⟩) henc
    (Nat.zero_le _) (by omega)
  have hin : ∀ i, curslot ≤ i → i < curslot + slotlen → adjusted c curslot slotlen adjval i = c i + adjval :=
    fun i hi hlt => if_pos ⟨hi, hlt⟩
  have hout : ∀ i, curslot + slotlen ≤ i → adjusted c curslot slotlen adjval i = c i := fun i hi => if_neg (by omega)
  have hfront : ∀ i < curslot, adjusted c curslot slotlen adjval i = c i := fun i hi => if_neg (by omega)
  have hhead : Encodes ppref₁ (adjusted c curslot slotlen adjval) 0 curslot :=
    hbehind.encodes.congr (fun _ _ _ => rfl) fun k _ hk => hfront k hk
  have hbounds : ∀ i, curslot ≤ i → i < curslot + slotlen →
      0 ≤ adjusted c curslot slotlen adjval i ∧ adjusted c curslot slotlen adjval i ≤ w.amap.ref := by
    intro i hi hlt
    rw [hin i hi hlt]
    exact hcounts i hi hlt
  rw [amapPpAdjref, hadvance, Option.bind_some]
  dsimp only
  rw [if_neg (not_not_intro rfl)]
  by_cases hzero : curslot = 0
  · rw [if_pos hzero]
    have hbefore : Prev ppref₁ (adjusted c curslot slotlen adjval) (-1) 0 0 curslot := .inr (.inl rfl)
    obtain ⟨ppref', calls, hnew, hzeros, hrun⟩ := ppAdjust_spec slotlen hrange hhead hsuffix hbefore (Nat.le_add_right _ _)
      (le_refl _) hin hout hbounds
    exact ⟨ppref', calls, hnew, hzeros, hrun w rfl⟩
  rw [if_neg hzero]
  obtain ⟨hcur, -⟩ | ⟨hlt, hchunks, hprev, hsame⟩ := hbehind
  · exact absurd hcur hzero
  rw [hprev.getreflen]
  have hbefore : Prev ppref₁ (adjusted c curslot slotlen adjval) (c prevlcv) prevlcv (curslot - prevlcv) curslot := by
    refine .inr (.inr ⟨by omega, by omega, ?_, fun i hi hic => ?_⟩)
    · exact hchunks.congr (fun _ _ _ => rfl) fun k _ hk => hfront k (by omega)
    · rw [hfront i hic, hsame i hi hic]
  obtain ⟨ppref', calls, hnew, hzeros, hrun⟩ := ppAdjust_spec slotlen hrange hhead hsuffix hbefore (Nat.le_add_right _ _)
    (le_refl _) hin hout hbounds
  exact ⟨ppref', calls, hnew, hzeros, hrun w rfl⟩

theorem wipeCalls_packed (calls : List (Nat × Nat)) (h : Packed w.amap) : ∃ w', wipeCalls w calls = some w' ∧ Keeps w w' ∧ w'.amap.ref = w.amap.ref ∧
    (∀ s, (∃ r ∈ calls, r.1 ≤ s ∧ s < r.1 + r.2) → w'.amap.anon s = none) ∧
    ∀ s, (¬∃ r ∈ calls, r.1 ≤ s ∧ s < r.1 + r.2) → w'.amap.anon s = w.amap.anon s := by
  induction calls generalizing w with
  | nil => exact ⟨w, rfl, Keeps.refl h, rfl, fun s hs => absurd hs (by simp), fun s _ => rfl⟩
  | cons r calls ih =>
    obtain ⟨w₁, hwipe, hwipes⟩ := amapWiperange_wipes h r.1 r.2
    obtain ⟨w', hrun, hkeeps, href, hgone, hkept⟩ := ih hwipes.packed
    refine ⟨w', ?_, hwipes.keeps.trans hkeeps, href.trans hwipes.ref, fun s hs => ?_, fun s hs => ?_⟩
    · rw [wipeCalls, foldlM_cons, hwipe]
      exact hrun
    · rw [exists_mem_cons_iff] at hs
      by_cases hlater : ∃ r ∈ calls, r.1 ≤ s ∧ s < r.1 + r.2
      · exact hgone s hlater
      · rw [hkept s hlater, hwipes.anon, if_pos (hs.resolve_right hlater)]
    · rw [exists_mem_cons_iff, not_or] at hs
      rw [hkept s hs.2, hwipes.anon, if_neg hs.1]

/-- **Adjusting references is addition.** The array has the new counts, and in a packed amap just the slots of the range whose
count is 0 are wiped, each of them once. -/
theorem pp_adjref_adds (henc : Encodes ppref c 0 nslot) (hrange : curslot + slotlen ≤ nslot)
    (hcounts : ∀ i, curslot ≤ i → i < curslot + slotlen → 0 ≤ c i + adjval ∧ c i + adjval ≤ w.amap.ref) :
    ∃ ppref' calls, Encodes ppref' (adjusted c curslot slotlen adjval) 0 nslot ∧
      (∀ i, (∃ r ∈ calls, r.1 ≤ i ∧ i < r.1 + r.2) ↔ curslot ≤ i ∧ i < curslot + slotlen ∧ c i + adjval = 0) ∧
      calls.Pairwise (fun r r' => r.1 + r.2 ≤ r'.1) ∧
      amapPpAdjref w ppref curslot slotlen adjval = (wipeCalls w calls).map (fun w => {w with amap := {w.amap with ppref := .array ppref'}}) ∧
      (Packed w.amap → ∃ w', amapPpAdjref w ppref curslot slotlen adjval = some w' ∧ w'.amap.ppref = .array ppref' ∧
        ∀ i, w'.amap.anon i = if curslot ≤ i ∧ i < curslot + slotlen ∧ c i + adjval = 0 then none else w.amap.anon i) := by
  obtain ⟨ppref', calls, hnew, hzeros, hrun⟩ := amapPpAdjref_spec henc hrange hcounts
  have hexact : ∀ i, (∃ r ∈ calls, r.1 ≤ i ∧ i < r.1 + r.2) ↔ curslot ≤ i ∧ i < curslot + slotlen ∧ c i + adjval = 0 := by
    intro i
    rw [hzeros.exact]
    refine and_congr_right fun hi => and_congr_right fun hlt => ?_
    rw [adjusted, if_pos ⟨hi, hlt⟩]
  refine ⟨ppref', calls, hnew, hexact, hzeros.apart, hrun, fun hpacked => ?_⟩
  obtain ⟨w', hwipe, -, -, hgone, hkept⟩ := wipeCalls_packed calls hpacked
  refine ⟨_, by rw [hrun, hwipe]; rfl, rfl, fun i => ?_⟩
  split
  · next hin => exact hgone i ((hexact i).mpr hin)
  · next hin => exact hkept i fun hcall => hin ((hexact i).mp hcall)

end Adjref

/-- Two slots with two references each, two with one, and one with none. -/
def fiveRefs (i : Nat) : Int := [2, 2, 1, 1, 0].getD i 0

def fiveSlots (i : Nat) : Int := [-3, 2, -2, 2, 1].getD i 0

theorem fiveSlots_encodes : Encodes fiveSlots fiveRefs 0 5 :=
  .chunk 2 (by unfold Chunk; decide) (by decide) (.chunk 2 (by unfold Chunk; decide) (by decide)
    (.chunk 1 (by unfold Chunk; decide) (by decide) (.nil 5)))

/-- The third slot and the fourth lose their last reference. -/
theorem pp_adjref_adds_last : ∃ w' ppref', amapPpAdjref ⟨{amapAlloc1 5 0 with ref := 2}, fun _ => 0, []⟩ fiveSlots 2 2 (-1) = some w' ∧
    w'.amap.ppref = .array ppref' ∧ Encodes ppref' (adjusted fiveRefs 2 2 (-1)) 0 5 ∧ adjusted fiveRefs 2 2 (-1) 3 = 0 := by
  obtain ⟨ppref', -, hnew, -, -, -, hpacked⟩ := @pp_adjref_adds fiveSlots fiveRefs ⟨{amapAlloc1 5 0 with ref := 2}, fun _ => 0, []⟩
    5 2 2 (-1) fiveSlots_encodes (by decide) (by decide)
  obtain ⟨w', hrun, hppref, -⟩ := hpacked ((packed_amapAlloc1 5 0).withRef 2)
  exact ⟨w', ppref', hrun, hppref, hnew, rfl⟩

end NetBSD.Uvm.Amap
