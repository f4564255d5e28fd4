import NetBSD.Kern.SubrExtent.Runs
import NetBSD.Lib.Words

/-! What `extent_alloc_subregion1` finds is as it was asked for.

The candidates are the first numbers on the alignment, from the start of the subregion and from the
ends of the regions on. Each is kept, or moved to the next boundary line (`boundaryCheck_honours`). The
walk over the chunks keeps what is so of its candidates (`findChunk_honours`). -/
namespace NetBSD.Kern.SubrExtent
open List Nat
open Lib

namespace Request

/-- Where the boundary lines are counted from. -/
def origin (q : Request) (ex : Extent) : Nat := if q.flags.boundzero then 0 else ex.exStart

/-- The last number before the next boundary line. -/
def dontcross (q : Request) (ex : Extent) (c : Nat) : Nat := sub (extentAlign (ulong (c + 1)) q.boundary (q.origin ex)) 1

/-- The candidate crosses a boundary line that is off the alignment, and there the subregion has room
for it. -/
def Misplaced (q : Request) (ex : Extent) (c : Nat) : Prop :=
  q.boundary ≠ 0 ∧ ex.exStart ≤ q.dontcross ex c ∧ q.dontcross ex c < ulong (c + (q.size - 1)) ∧
    ulong (q.dontcross ex c + 1) + (q.size - 1) ≤ q.subend ∧ ulong (q.dontcross ex c + 1) % q.alignment ≠ q.skew

/-- No candidate wraps where that is not noticed, or is moved off the alignment. -/
structure Straight (q : Request) (ex : Extent) : Prop where
  start : q.substart ≤ extentAlign q.substart q.alignment q.skew
  relocation : q.PlainRelocation ex
  first : (∀ r ∈ ex.regions, r.first < extentAlign q.substart q.alignment q.skew → r.last < extentAlign q.substart q.alignment q.skew) →
    ¬ q.Misplaced ex (extentAlign q.substart q.alignment q.skew)
  later : ∀ r ∈ ex.regions, q.substart ≤ r.last → ¬ q.Misplaced ex (extentAlign (ulong (r.last + 1)) q.alignment q.skew)

/-- The constraints on the size and the masks. -/
structure Masks (q : Request) : Prop where
  alignment : ∃ k < 64, q.alignment = 2 ^ k
  skew : q.skew < q.alignment
  boundary : q.boundary = 0 ∨ ∃ k < 64, q.boundary = 2 ^ k

/-- No boundary line is between the first number and the last. -/
def Uncrossed (q : Request) (ex : Extent) (r : Nat) : Prop :=
  q.boundary ≠ 0 → ∀ x, r < x → x ≤ r + (q.size - 1) → (x - q.origin ex) % q.boundary ≠ 0

structure Honours (q : Request) (ex : Extent) (r : Nat) : Prop where
  start : q.substart ≤ r
  stop : r + (q.size - 1) ≤ q.subend
  alignment : r % q.alignment = q.skew
  uncrossed : q.Uncrossed ex r

theorem origin_le (q : Request) (ex : Extent) : q.origin ex ≤ ex.exStart := by
  unfold origin
  split
  · exact zero_le _
  · exact le_refl _

theorem mod_of_line (q : Request) {ex : Extent} {x : Nat} (hle : q.origin ex ≤ x) (h : (x - q.origin ex) % q.boundary = 0) :
    x % q.boundary = q.origin ex % q.boundary := by
  have hsum : x = q.origin ex + (x - q.origin ex) := by omega
  rw [hsum, add_mod, h, add_zero, mod_mod]

end Request

section
variable {ex : Extent} {q : Request} {c n len lim : Nat}

theorem extentAlign_mod (hm : q.Masks) (x : Nat) : extentAlign x q.alignment q.skew % q.alignment = q.skew := by
  obtain ⟨k, hk, hkeq⟩ := hm.alignment
  rw [hkeq, extentAlign_two_pow hk, ← hkeq, mod_eq_of_lt hm.skew]

theorem exists_line (hx : ex.exStart < 2 ^ 64) (hm : q.Masks) (hne : q.boundary ≠ 0) (hc : ex.exStart ≤ c) (hlt : c < 2 ^ 64) :
    ∃ t, q.dontcross ex c = ulong (c + t) ∧ (c + t < 2 ^ 64 ∨ q.dontcross ex c < ex.exStart) ∧
      (c + 1 + t) % q.boundary = q.origin ex % q.boundary ∧
      ∀ x, c < x → (x - q.origin ex) % q.boundary = 0 → c + 1 + t ≤ x := by
  obtain ⟨k, hk, hkeq⟩ := hm.boundary.resolve_left hne
  have horigin := q.origin_le ex
  have hpow : 2 ^ k < 2 ^ 64 := Nat.pow_lt_pow_right (by decide) hk
  obtain ⟨t, ht, heq⟩ := extentAlign_eq (x := ulong (c + 1)) (pos_of_ne_zero hne) (hkeq ▸ hpow) (lt_of_le_of_lt horigin hx)
  have hmod := extentAlign_two_pow (x := ulong (c + 1)) (s := q.origin ex) hk
  rw [← hkeq, heq] at hmod
  have hwords : q.boundary ∣ 2 ^ 64 := hkeq ▸ Nat.pow_dvd_pow 2 (le_of_lt hk)
  have hline : ulong (ulong (c + 1) + t) = ulong (c + 1 + t) := mod_add_mod _ _ _
  have hline' : (c + 1 + t) % q.boundary = q.origin ex % q.boundary := by
    rw [← hmod, hline, ulong, mod_mod_of_dvd _ hwords]
  have hdont : q.dontcross ex c = ulong (c + t) := by
    rw [Request.dontcross, heq]
    unfold sub ulong
    omega
  refine ⟨t, hdont, ?_, hline', fun x hx' hzero => ?_⟩
  · by_cases hlt' : c + t < 2 ^ 64
    · exact .inl hlt'
    have hword : ulong (c + 1 + t) = c + 1 + t - 2 ^ 64 := by
      unfold ulong
      omega
    rw [mod_eq_of_lt (by omega)] at hmod
    have hle := Nat.mod_le (q.origin ex) q.boundary
    rw [hdont]
    unfold ulong
    omega
  · by_contra hfront
    have hxmod := q.mod_of_line (by omega) hzero
    have hapart := add_le_of_mod_eq (Nat.lt_of_not_le hfront) (hxmod.trans hline'.symm)
    omega

/-- The candidate is kept or moved, and then as it should be. -/
theorem boundaryCheck_honours (hx : ex.exStart < 2 ^ 64) (hm : q.Masks) (hsize : q.boundary ≠ 0 → 0 < q.size ∧ q.size ≤ q.boundary)
    (hc : ex.exStart ≤ c) (hend : c + (q.size - 1) < 2 ^ 64) (halign : c % q.alignment = q.skew) (hplace : ¬ q.Misplaced ex c)
    (hlim : ∀ n < 2 ^ 64, leOv n len lim = true → n + (q.size - 1) ≤ q.subend) (h : boundaryCheck ex q c len lim = .fits n) : c ≤ n ∧ n % q.alignment = q.skew ∧ q.Uncrossed ex n := by
  unfold boundaryCheck at h
  split at h
  · next hzero =>
    cases h
    exact ⟨le_refl _, halign, fun hne => absurd hzero hne⟩
  · next hne =>
    obtain ⟨t, hdont, hcases, hline, hleast⟩ := exists_line hx hm hne hc (by omega)
    have hdef : sub (extentAlign (ulong (c + 1)) q.boundary (if q.flags.boundzero = true then 0 else ex.exStart)) 1 = q.dontcross ex c := rfl
    dsimp only at h
    rw [hdef] at h
    have hnewend : ulong (c + (q.size - 1)) = c + (q.size - 1) := ulong_eq hend
    split at h
    · next hbelow =>
      rw [runsPast_fits h]
      refine ⟨le_refl _, halign, fun _ x hx' hle hzero => ?_⟩
      have hge := hleast x hx' hzero
      rcases Nat.lt_or_ge (c + t) (2 ^ 64) with hlt | hge'
      · rw [hdont, ulong_eq hlt] at hbelow
        omega
      · omega
    · next habove =>
      have hlt := hcases.resolve_right habove
      have hd : q.dontcross ex c = c + t := by rw [hdont, ulong_eq hlt]
      split at h
      · next hcross =>
        have hmoved : ulong (q.dontcross ex c + 1) = c + 1 + t := by
          rw [hd, ulong_eq (by omega)]
          omega
        split at h
        · next hroom =>
          have hn : n = c + 1 + t := (runsPast_fits h).trans hmoved
          have haligned : (c + 1 + t) % q.alignment = q.skew := by
            by_contra hoff
            rw [← hmoved] at hoff
            exact hplace ⟨hne, Nat.le_of_not_lt habove, hcross, hlim _ (ulong_lt _) hroom, hoff⟩
          rw [hn]
          refine ⟨by omega, haligned, fun _ x hx' hle hzero => ?_⟩
          have hxmod := q.mod_of_line (le_trans (q.origin_le ex) (by omega)) hzero
          have hapart := add_le_of_mod_eq hx' (hline.trans hxmod.symm)
          omega
        · cases h
      · next hfits =>
        rw [runsPast_fits h]
        refine ⟨le_refl _, halign, fun _ x hx' hle hzero => ?_⟩
        have hge := hleast x hx' hzero
        omega

end

/-! ### The walk over the chunks -/

/-- The best chunk, if there is one, is as it should be. -/
def Best.Honours (q : Request) (ex : Extent) (best : Best) : Prop := best.ovh ≠ 0 → q.Honours ex best.place.start

def Chunk.Honours (q : Request) (ex : Extent) : Chunk → Prop
  | .found p => q.Honours ex p.start
  | .skip best => best.Honours q ex
  | .fail => True

section
variable {ex : Extent} {q : Request} {start : Nat} {before behind : List Interval} {best : Best} {p : Place}

theorem weigh_honours {ovh : Nat} (hp : q.Honours ex p.start) (hbest : best.Honours q ex) : (weigh q ovh p best).Honours q ex := by
  unfold weigh
  split
  · exact hp
  split
  · exact fun _ => hp
  · exact hbest

theorem giveUp_honours (hbest : best.Honours q ex) (h : giveUp q best = some p) : q.Honours ex p.start := by
  unfold giveUp at h
  split at h
  · next hc =>
    cases h
    exact hbest hc.2
  · cases h

theorem finish_honours {chunk : Chunk} (hbest : best.Honours q ex) (hc : chunk.Honours q ex) (h : finish q best chunk = some p) :
    q.Honours ex p.start := by
  cases chunk with
  | found p' =>
    cases h
    exact hc
  | skip best' => exact giveUp_honours hc h
  | fail => exact giveUp_honours hbest h

/-- A candidate: on the alignment, not before the subregion, and not moved off the alignment. -/
structure Candidate (q : Request) (ex : Extent) (c : Nat) : Prop where
  start : q.substart ≤ c
  lt : c < 2 ^ 64
  alignment : c % q.alignment = q.skew
  place : ¬ q.Misplaced ex c

theorem seek_behind {d hi lo n : Nat} {l : List Interval} (hl : Chain d hi lo l) :
    ∀ r ∈ (seek n before l).behind, n ≤ r.first ∧ r.first ≤ r.last := by
  induction l generalizing lo before with
  | nil => exact fun r hr => (nomatch hr)
  | cons rp rest ih =>
    rw [seek]
    split
    · next hge =>
      intro r hr
      have hfrom : Chain d hi rp.first (rp :: rest) := hl.from fun s hs => by cases hs; exact le_refl _
      have hin := hfrom.mem hr
      exact ⟨le_trans hge hin.1, hin.2.1⟩
    · exact ih hl.2.2.2

variable (hs : Sorted ex) (hx : ex.exStart < 2 ^ 64) (hv : q.Valid ex) (hu : q.Ulongs) (hm : q.Masks)
include hs hx hv hu hm

omit hs in
theorem fits_honours {len lim n : Nat} (hc : Candidate q ex start) (hlen : q.size - 1 ≤ len) (hlen' : len < 2 ^ 64)
    (hlim : ∀ n, n + len ≤ lim → n + (q.size - 1) ≤ q.subend) (hfit : leOv start len lim = true)
    (h : boundaryCheck ex q start len lim = .fits n) : q.Honours ex n := by
  obtain ⟨hle, hlt⟩ := leOv_le hc.lt hlen' hfit
  have hsize : 0 < q.size := by have := hv.2.1; omega
  have hstart : ex.exStart ≤ start := by have := hv.1; have := hc.start; omega
  have hwide : q.boundary ≠ 0 → 0 < q.size ∧ q.size ≤ q.boundary := fun hne => ⟨hsize, by have := hv.2.2.2; omega⟩
  obtain ⟨hge, halign, huncrossed⟩ := boundaryCheck_honours hx hm hwide hstart (by omega) hc.alignment hc.place
    (fun n hn hroom => hlim n (leOv_le hn hlen' hroom).1) h
  have hb : q.PlainBoundary := hm.boundary.imp_right .inl
  obtain ⟨-, hnlt, hagain⟩ := boundaryCheck_fits hx hu.boundary hb (by have := hlim start hle; omega) hc.lt h
  have hroom : n + len ≤ lim := by
    rcases hagain with rfl | hagain
    · exact hle
    · exact (leOv_le hnlt hlen' hagain).1
  exact ⟨le_trans hc.start hge, hlim n hroom, halign, huncrossed⟩

omit hs in
theorem chunkBefore_honours {rp : Interval} {rest : List Interval} (hc : Candidate q ex start) (hrp : rp.first ≤ q.subend)
    (hbest : best.Honours q ex) : (chunkBefore ex q start before rp rest best).Honours q ex := by
  unfold chunkBefore
  split
  · next hfit =>
    match hcheck : boundaryCheck ex q start q.size rp.first with
    | .fits n =>
      have hlim (n : Nat) (hn : n + q.size ≤ rp.first) : n + (q.size - 1) ≤ q.subend := by omega
      exact weigh_honours (fits_honours hx hv hu hm hc (sub_le _ _) hu.size hlim hfit hcheck) hbest
    | .skip => exact hbest
    | .fail => trivial
  · exact hbest

omit hs in
theorem finalChunk_honours {exend : Nat} (hc : Candidate q ex start) (hbest : best.Honours q ex) :
    (finalChunk ex q start exend before behind best).Honours q ex := by
  unfold finalChunk
  split
  · next hfit =>
    match hcheck : boundaryCheck ex q start (q.size - 1) q.subend with
    | .fits n =>
      have hlen : q.size - 1 < 2 ^ 64 := lt_of_le_of_lt (sub_le _ _) hu.size
      exact weigh_honours (fits_honours hx hv hu hm hc (le_refl _) hlen (fun _ hn => hn) hfit hcheck) hbest
    | .skip => trivial
    | .fail => trivial
  · exact hbest

omit hs in
theorem findChunk_honours (hok : q.Straight ex) (hc : Candidate q ex start) (hregions : ∀ r ∈ behind, r ∈ ex.regions)
    (hbehind : ∀ r ∈ behind, q.substart ≤ r.last) (hbest : best.Honours q ex) (hf : findChunk ex q start before best behind = some p) :
    q.Honours ex p.start := by
  induction behind generalizing start before best with
  | nil => exact finish_honours hbest (finalChunk_honours hx hv hu hm hc hbest) hf
  | cons rp rest ih =>
    rw [findChunk] at hf
    split at hf
    · exact finish_honours hbest (finalChunk_honours hx hv hu hm hc hbest) hf
    · next hpast =>
      have hchunk : (chunkBefore ex q start before rp rest best).Honours q ex := chunkBefore_honours hx hv hu hm hc (Nat.le_of_not_lt hpast) hbest
      cases hcb : chunkBefore ex q start before rp rest best with
      | found p' =>
        rw [hcb] at hf hchunk
        cases hf
        exact hchunk
      | fail =>
        rw [hcb] at hf
        exact giveUp_honours hbest hf
      | skip best' =>
        rw [hcb] at hf hchunk
        dsimp only at hf
        split at hf
        · exact giveUp_honours hchunk hf
        · next hover =>
          have hstart := hbehind rp mem_cons_self
          have hnext : Candidate q ex (extentAlign (ulong (rp.last + 1)) q.alignment q.skew) :=
            ⟨by omega, ulong_lt _, extentAlign_mod hm _, hok.later rp (hregions rp mem_cons_self) hstart⟩
          exact ih hnext (fun r hr => hregions r (mem_cons_of_mem _ hr)) (fun r hr => hbehind r (mem_cons_of_mem _ hr)) hchunk hf

theorem findSubregion_honours (hok : q.Straight ex) (hf : findSubregion ex q = some p) : q.Honours ex p.start := by
  unfold findSubregion at hf
  obtain ⟨hregions, hn, hfirst⟩ := @seek_spec [] (extentAlign q.substart q.alignment q.skew) ex.regions fun r hr => by cases hr
  have hbehind : ∀ r ∈ (seek (extentAlign q.substart q.alignment q.skew) [] ex.regions).behind, _ := seek_behind hs.chain
  generalize seek (extentAlign q.substart q.alignment q.skew) [] ex.regions = place at hregions hn hfirst hbehind hf
  have hmem (r : Interval) (hr : r ∈ place.before ∨ r ∈ place.behind) : r ∈ ex.regions := by
    rw [show ex.regions = place.before.reverse ++ place.behind from hregions.symm]
    rcases hr with hr | hr
    · exact mem_append_left _ (mem_reverse.mpr hr)
    · exact mem_append_right _ hr
  have hstart (hfree : ∀ last ∈ place.before.head?, last.last < place.start) : Candidate q ex place.start := by
    rw [hn] at hfree ⊢
    refine ⟨hok.start, ulong_lt _, extentAlign_mod hm _, hok.first fun r hr hlt => ?_⟩
    -- it is in front of the candidate, and ends no later than the last of those
    rw [show ex.regions = place.before.reverse ++ place.behind from hregions.symm] at hr
    rcases mem_append.mp hr with hin | hin
    · have hpairs := hs.chain.pairwise
      rw [show ex.regions = place.before.reverse ++ place.behind from hregions.symm] at hpairs
      have hpairs := pairwise_reverse.mp (pairwise_append.mp hpairs).1
      cases hbefore : place.before with
      | nil =>
        rw [hbefore] at hin
        cases hin
      | cons last before =>
        rw [hbefore] at hin hpairs hfree
        have hlast := hfree last rfl
        rcases mem_cons.mp (mem_reverse.mp hin) with rfl | hin
        · exact hlast
        have hapart := (pairwise_cons.mp hpairs).1 r hin
        have hle := (hs.chain.mem (hmem last (.inl (by rw [hbefore]; exact mem_cons_self)))).2.1
        omega
    · have hge := (hbehind r hin).1
      omega
  have hkeep : (relocate q place).behind = place.behind := by
    unfold relocate
    split
    · split <;> rfl
    · rfl
  have hmoved : Candidate q ex (relocate q place).start := by
    unfold relocate
    split
    · next last before hbefore =>
      split
      · next hover =>
        have hlast := hmem last (.inl (by rw [hbefore]; exact mem_cons_self))
        rw [hn] at hover
        have hlt := hok.relocation last hlast (hfirst last (by rw [hbefore]; rfl)) hover
        have hfront := hok.start
        exact ⟨by dsimp only; omega, ulong_lt _, extentAlign_mod hm _, hok.later last hlast (by omega)⟩
      · next hover =>
        apply hstart
        intro r hr
        rw [hbefore] at hr
        cases hr
        exact Nat.lt_of_not_le hover
    · next hbefore =>
      apply hstart
      intro r hr
      rw [hbefore] at hr
      cases hr
  refine findChunk_honours hx hv hu hm hok hmoved (fun r hr => hmem r (.inr (hkeep ▸ hr))) (fun r hr => ?_) (fun h => absurd rfl h) hf
  obtain ⟨hge, hle⟩ := hbehind r (hkeep ▸ hr)
  have hfront := hok.start
  omega

end

end NetBSD.Kern.SubrExtent
