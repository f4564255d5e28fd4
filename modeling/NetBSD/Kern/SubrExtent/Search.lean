import NetBSD.Kern.SubrExtent.Insert
import NetBSD.Lib.Words

/-! The searches for room find room.

`extentAlign` goes up by less than the alignment, modulo 2^64 (`extentAlign_eq`). What the walk of
`extent_alloc_region` and the loop of `extent_alloc_subregion1` find `Fits`, the latter under what
`Plain` says of the request. -/
namespace NetBSD.Kern.SubrExtent
open List Nat
open Lib

section
variable {x a s : Nat} (ha : 0 < a) (hlt : a < 2 ^ 64)
include ha hlt

theorem extentAlign_masked : ∃ c ≤ a - 1, c = ulong (sub x s + (a - 1)) &&& (a - 1) ∧
    extentAlign x a s = ulong (ulong (sub x s + (a - 1)) - c + s) := by
  have hsplit := and_compl (ulong_lt (sub x s + (a - 1))) (show a - 1 < 2 ^ 64 by omega)
  refine ⟨_, and_le_right, rfl, ?_⟩
  rw [extentAlign, sub_eq (show 1 ≤ a from ha) hlt, ulong_eq (show 2 ^ 64 - a < 2 ^ 64 by omega)]
  rw [show a - 1 + 1 = a by omega] at hsplit
  congr 2
  omega

theorem extentAlign_eq (hs : s < 2 ^ 64) : ∃ t < a, extentAlign x a s = ulong (x + t) := by
  obtain ⟨c, hc, hcdef, heq⟩ := extentAlign_masked (x := x) (s := s) ha hlt
  have hle : c ≤ ulong (sub x s + (a - 1)) := hcdef ▸ and_le_left
  refine ⟨a - 1 - c, by omega, ?_⟩
  unfold sub ulong at *
  omega

end

theorem extentAlign_two_pow {x s k : Nat} (hk : k < 64) : extentAlign x (2 ^ k) s % 2 ^ k = s % 2 ^ k := by
  have hpow : 2 ^ k < 2 ^ 64 := Nat.pow_lt_pow_right (by decide) hk
  obtain ⟨c, -, hc, heq⟩ := extentAlign_masked (x := x) (s := s) (Nat.two_pow_pos k) hpow
  rw [and_two_pow_sub_one_eq_mod] at hc
  rw [heq, hc]
  generalize ulong (sub x s + (2 ^ k - 1)) = z
  have hdvd : 2 ^ k ∣ 2 ^ 64 := Nat.pow_dvd_pow 2 (by omega)
  rw [ulong, mod_mod_of_dvd _ hdvd, add_mod, sub_mod_eq_zero_of_mod_eq (mod_mod z _).symm, zero_add, mod_mod]

/-- The boundary lines do not wrap, or come round to where they began. -/
def Request.PlainBoundary (q : Request) : Prop :=
  q.boundary = 0 ∨ (∃ k < 64, q.boundary = 2 ^ k) ∨ q.subend + q.boundary < 2 ^ 64

instance (q : Request) : Decidable q.PlainBoundary := inferInstanceAs (Decidable (_ ∨ _ ∨ _))

/-- The candidate that is moved past a region comes to lie behind it. -/
def Request.PlainRelocation (ex : Extent) (q : Request) : Prop :=
  ∀ r ∈ ex.regions, r.first < extentAlign q.substart q.alignment q.skew → extentAlign q.substart q.alignment q.skew ≤ r.last →
    r.last < extentAlign (ulong (r.last + 1)) q.alignment q.skew

instance (ex : Extent) (q : Request) : Decidable (q.PlainRelocation ex) :=
  inferInstanceAs (Decidable (∀ r ∈ ex.regions, _ → _ → _))

theorem leOv_le {x y z : Nat} (hx : x < 2 ^ 64) (hy : y < 2 ^ 64) (h : leOv x y z = true) : x + y ≤ z ∧ x + y < 2 ^ 64 := by
  obtain ⟨hge, hle⟩ := Bool.and_eq_true_iff.1 h
  have hge := of_decide_eq_true hge
  have hle := of_decide_eq_true hle
  unfold ulong at hge hle
  omega

/-- The walk over the regions stands between two of them, and the candidate is behind the first. -/
structure Cursor (ex : Extent) (start : Nat) (before behind : List Interval) : Prop where
  regions : before.reverse ++ behind = ex.regions
  start_le : ex.exStart ≤ start
  start_lt : start < 2 ^ 64
  before : ∀ r ∈ before.head?, r.last < start

section
variable {ex : Extent} {start last size : Nat} {before behind : List Interval} {p : Place}

theorem Cursor.move {start' : Nat} {rp : Interval} {rest : List Interval} (h : Cursor ex start before (rp :: rest))
    (hle : ex.exStart ≤ start') (hlt : start' < 2 ^ 64) (hrp : rp.last < start') : Cursor ex start' (rp :: before) rest := by
  refine ⟨?_, hle, hlt, fun r hr => ?_⟩
  · rw [reverse_cons, append_assoc]
    exact h.regions
  · cases hr
    exact hrp

theorem findRegion_fits (hsize : 0 < size) (hend : start + (size - 1) ≤ ex.exEnd) (h : Cursor ex start before behind)
    (hf : findRegion start (start + (size - 1)) before behind = some p) : Fits ex size p ∧ p.start = start := by
  induction behind generalizing before with
  | nil =>
    cases hf
    exact ⟨⟨h.regions, hsize, h.start_le, hend, h.before, fun r hr => by cases hr⟩, rfl⟩
  | cons rp rest ih =>
    rw [findRegion] at hf
    split at hf
    · cases hf
      refine ⟨⟨h.regions, hsize, h.start_le, hend, h.before, fun r hr => ?_⟩, rfl⟩
      cases hr
      show start + size ≤ rp.first
      omega
    · split at hf
      · cases hf
      · exact ih (h.move h.start_le h.start_lt (by omega)) hf

end

/-! ### extent_alloc_subregion1 -/

theorem dontcross_cases {q : Request} {start skew : Nat} (hu : q.boundary < 2 ^ 64) (hb : q.PlainBoundary)
    (h0 : q.boundary ≠ 0) (hsub : start ≤ q.subend) (hlt : start < 2 ^ 64) (hskew : skew < 2 ^ 64) :
    sub (extentAlign (ulong (start + 1)) q.boundary skew) 1 < skew ∨ (start ≤ sub (extentAlign (ulong (start + 1)) q.boundary skew) 1) := by
  obtain ⟨t, ht, heq⟩ := extentAlign_eq (x := ulong (start + 1)) (pos_of_ne_zero h0) hu hskew
  have hline : sub (extentAlign (ulong (start + 1)) q.boundary skew) 1 = ulong (start + t) := by
    rw [heq]
    unfold sub ulong
    omega
  rw [hline]
  by_cases hwrap : start + t < 2 ^ 64
  · right
    rw [ulong_eq hwrap]
    exact Nat.le_add_right _ _
  -- The line has come round, to where the lines begin.
  obtain h | ⟨k, hk, h⟩ | h := hb
  · exact absurd h h0
  · have hmod := extentAlign_two_pow (x := ulong (start + 1)) (s := skew) hk
    have hwrapped : ulong (ulong (start + 1) + t) = start + 1 + t - 2 ^ 64 := by
      unfold ulong
      omega
    rw [← h, mod_eq_of_lt (by omega)] at hmod
    have hle := Nat.mod_le skew q.boundary
    unfold ulong
    omega
  · omega

section
variable {ex : Extent} {q : Request} {start len lim n : Nat}

theorem runsPast_fits {line : Nat} (h : boundaryCheck.runsPast ex q start line = .fits n) : n = start := by
  unfold boundaryCheck.runsPast at h
  split at h
  · cases h
  · cases h
    rfl

theorem boundaryCheck_fits (hex : ex.exStart < 2 ^ 64) (hu : q.boundary < 2 ^ 64) (hb : q.PlainBoundary)
    (hsub : start ≤ q.subend) (hlt : start < 2 ^ 64) (h : boundaryCheck ex q start len lim = .fits n) :
    start ≤ n ∧ n < 2 ^ 64 ∧ (n = start ∨ leOv n len lim = true) := by
  unfold boundaryCheck at h
  split at h
  · cases h
    exact ⟨le_refl _, hlt, .inl rfl⟩
  case isFalse h0 =>
    have hskew : (if q.flags.boundzero then 0 else ex.exStart) ≤ ex.exStart := by
      split
      · exact zero_le _
      · exact le_refl _
    have hcases := dontcross_cases hu hb h0 hsub hlt (lt_of_le_of_lt hskew hex)
    dsimp only at h
    generalize sub (extentAlign (ulong (start + 1)) q.boundary _) 1 = line at h hcases
    split at h
    · rw [runsPast_fits h]
      exact ⟨le_refl _, hlt, .inl rfl⟩
    case isFalse hline =>
      split at h
      case isTrue hcross =>
        have hw : ulong (line + 1) = line + 1 := ulong_eq (by have := ulong_lt (start + (q.size - 1)); omega)
        split at h
        case isTrue hfit =>
          rw [runsPast_fits h]
          exact ⟨by omega, ulong_lt _, .inr hfit⟩
        case isFalse => cases h
      case isFalse =>
        rw [runsPast_fits h]
        exact ⟨le_refl _, hlt, .inl rfl⟩

end

/-- The best chunk, if there is one, has room. -/
def Best.Ok (ex : Extent) (size : Nat) (best : Best) : Prop := best.ovh ≠ 0 → Fits ex size best.place

def Chunk.Ok (ex : Extent) (size : Nat) : Chunk → Prop
  | .found p => Fits ex size p
  | .skip best => best.Ok ex size
  | .fail => True

section
variable {ex : Extent} {q : Request} {start : Nat} {before behind : List Interval} {best : Best} {p : Place}

theorem weigh_ok {ovh : Nat} (hp : Fits ex q.size p) (hbest : best.Ok ex q.size) : (weigh q ovh p best).Ok ex q.size := by
  unfold weigh
  split
  · exact hp
  split
  · exact fun _ => hp
  · exact hbest

theorem giveUp_fits (hbest : best.Ok ex q.size) (h : giveUp q best = some p) : Fits ex q.size p := by
  unfold giveUp at h
  split at h
  case isTrue hc =>
    cases h
    exact hbest hc.2
  case isFalse => cases h

theorem finish_fits {c : Chunk} (hbest : best.Ok ex q.size) (hc : c.Ok ex q.size) (h : finish q best c = some p) : Fits ex q.size p := by
  cases c with
  | found p' =>
    cases h
    exact hc
  | skip best' => exact giveUp_fits hc h
  | fail => exact giveUp_fits hbest h

theorem seek_spec {n : Nat} {l : List Interval} (hr : ∀ r ∈ before.head?, r.first < n) :
    (seek n before l).before.reverse ++ (seek n before l).behind = before.reverse ++ l ∧
      (seek n before l).start = n ∧ ∀ r ∈ (seek n before l).before.head?, r.first < n := by
  induction l generalizing before with
  | nil => exact ⟨rfl, rfl, hr⟩
  | cons rp rest ih =>
    rw [seek]
    split
    · exact ⟨rfl, rfl, hr⟩
    case isFalse hlt =>
      obtain ⟨hregions, hstart, hbefore⟩ := @ih (rp :: before) (fun r h => by cases h; omega)
      refine ⟨?_, hstart, hbefore⟩
      rw [hregions, reverse_cons, append_assoc]
      rfl

variable (hs : Sorted ex) (hex : ex.exStart < 2 ^ 64) (hv : q.Valid ex) (hu : q.Ulongs) (hb : q.PlainBoundary)
include hs hex hv hu hb

theorem chunkBefore_ok {rp : Interval} {rest : List Interval} (h : Cursor ex start before (rp :: rest))
    (hrp : rp.first ≤ q.subend) (hbest : best.Ok ex q.size) : (chunkBefore ex q start before rp rest best).Ok ex q.size := by
  have hsize : 0 < q.size := by have := hv.2.1; omega
  have hmem : rp.first ≤ rp.last ∧ rp.last ≤ ex.exEnd :=
    (hs.chain.mem (h.regions ▸ mem_append_right _ mem_cons_self)).2
  unfold chunkBefore
  split
  case isTrue hfit =>
    obtain ⟨hle, hlt⟩ := leOv_le h.start_lt hu.size hfit
    match hc : boundaryCheck ex q start q.size rp.first with
    | .fits n =>
      obtain ⟨hn, hnlt, hagain⟩ := boundaryCheck_fits hex hu.boundary hb (by omega) h.start_lt hc
      have hroom : n + q.size ≤ rp.first := by
        obtain rfl | hagain := hagain
        · exact hle
        · exact (leOv_le hnlt hu.size hagain).1
      refine weigh_ok ⟨h.regions, hsize, le_trans h.start_le hn, ?_, fun r hr => lt_of_lt_of_le (h.before r hr) hn,
        fun r hr => ?_⟩ hbest
      · show n + (q.size - 1) ≤ ex.exEnd
        omega
      · cases hr
        exact hroom
    | .skip => exact hbest
    | .fail => trivial
  case isFalse => exact hbest

omit hs in
theorem finalChunk_ok {exend : Nat} (h : Cursor ex start before behind) (hbehind : ∀ r ∈ behind.head?, q.subend < r.first)
    (hbest : best.Ok ex q.size) : (finalChunk ex q start exend before behind best).Ok ex q.size := by
  have hsize : 0 < q.size := by have := hv.2.1; omega
  have hsub : q.subend ≤ ex.exEnd := by have := hv.1; omega
  have hlen : q.size - 1 < 2 ^ 64 := by have := hu.size; omega
  unfold finalChunk
  split
  case isTrue hfit =>
    obtain ⟨hle, hlt⟩ := leOv_le h.start_lt hlen hfit
    match hc : boundaryCheck ex q start (q.size - 1) q.subend with
    | .fits n =>
      obtain ⟨hn, hnlt, hagain⟩ := boundaryCheck_fits hex hu.boundary hb (by omega) h.start_lt hc
      have hroom : n + (q.size - 1) ≤ q.subend := by
        obtain rfl | hagain := hagain
        · exact hle
        · exact (leOv_le hnlt hlen hagain).1
      refine weigh_ok ⟨h.regions, hsize, le_trans h.start_le hn, le_trans hroom hsub,
        fun r hr => lt_of_lt_of_le (h.before r hr) hn, fun r hr => ?_⟩ hbest
      have := hbehind r hr
      show n + q.size ≤ r.first
      omega
    | .skip => trivial
    | .fail => trivial
  case isFalse => exact hbest

/-- The loop keeps the candidate behind the last region it passed, and finds room. -/
theorem findChunk_fits (h : Cursor ex start before behind) (hbest : best.Ok ex q.size)
    (hf : findChunk ex q start before best behind = some p) : Fits ex q.size p := by
  induction behind generalizing start before best with
  | nil => exact finish_fits hbest (finalChunk_ok hex hv hu hb h (fun r hr => by cases hr) hbest) hf
  | cons rp rest ih =>
    rw [findChunk] at hf
    split at hf
    case isTrue hpast =>
      refine finish_fits hbest (finalChunk_ok hex hv hu hb h (fun r hr => ?_) hbest) hf
      cases hr
      exact hpast
    case isFalse hpast =>
      have hok := chunkBefore_ok hs hex hv hu hb h (not_lt.1 hpast) hbest
      match hc : chunkBefore ex q start before rp rest best with
      | .found p' =>
        rw [hc] at hf hok
        cases hf
        exact hok
      | .fail =>
        rw [hc] at hf
        exact giveUp_fits hbest hf
      | .skip best' =>
        rw [hc] at hf hok
        dsimp only at hf
        split at hf
        · exact giveUp_fits hok hf
        case isFalse hover =>
          have hal : 0 < q.alignment := pos_of_ne_zero hv.2.2.1
          obtain ⟨t, ht, heq⟩ := extentAlign_eq (x := ulong (rp.last + 1)) hal hu.alignment hu.skew
          have hmem := hs.chain.mem (h.regions ▸ mem_append_right _ mem_cons_self : rp ∈ ex.regions)
          have halign := hu.alignment
          -- Less than the whole range is added, so that a sum that has not wrapped is above.
          have hpast : rp.last < extentAlign (ulong (rp.last + 1)) q.alignment q.skew := by
            rw [heq] at hover ⊢
            unfold ulong at hover ⊢
            omega
          have hlt : extentAlign (ulong (rp.last + 1)) q.alignment q.skew < 2 ^ 64 := ulong_lt _
          exact ih (h.move (by omega) hlt hpast) hok hf

theorem findSubregion_fits (hrel : q.PlainRelocation ex)
    (hstart : ex.exStart ≤ extentAlign q.substart q.alignment q.skew) (hf : findSubregion ex q = some p) :
    Fits ex q.size p := by
  unfold findSubregion at hf
  obtain ⟨hregions, hn, hfirst⟩ := @seek_spec [] (extentAlign q.substart q.alignment q.skew) ex.regions
    fun r hr => by cases hr
  generalize seek (extentAlign q.substart q.alignment q.skew) [] ex.regions = c at hregions hn hfirst hf
  have hlt : ∀ x, extentAlign x q.alignment q.skew < 2 ^ 64 := fun x => ulong_lt _
  have hcursor : Cursor ex (relocate q c).start (relocate q c).before (relocate q c).behind := by
    unfold relocate
    split
    case h_1 last before hc =>
      have hlast : last ∈ ex.regions := by
        rw [show ex.regions = c.before.reverse ++ c.behind from hregions.symm, hc]
        simp
      split
      case isTrue hover =>
        rw [hn] at hover
        have hpast := hrel last hlast (hfirst last (by rw [hc]; rfl)) hover
        refine ⟨hregions, ?_, hlt _, fun r hr => ?_⟩
        · show ex.exStart ≤ extentAlign (ulong (last.last + 1)) q.alignment q.skew
          omega
        · rw [show r = last from (Option.some.inj (hr.symm.trans (by rw [hc]; rfl)))]
          exact hpast
      case isFalse hover =>
        refine ⟨hregions, hn ▸ hstart, hn ▸ hlt _, fun r hr => ?_⟩
        rw [show r = last from (Option.some.inj (hr.symm.trans (by rw [hc]; rfl)))]
        omega
    case h_2 hc => exact ⟨hregions, hn ▸ hstart, hn ▸ hlt _, fun r hr => by rw [hc] at hr; cases hr⟩
  exact findChunk_fits hs hex hv hu hb hcursor (fun h => absurd rfl h) hf

end

end NetBSD.Kern.SubrExtent
