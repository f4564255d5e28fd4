import NetBSD.Kern.SubrExtent.Honoured

/-! A request without a boundary finds room where there is some.

Below 2^63 nothing wraps, and each candidate is the least number on the alignment that is behind the
regions so far (`extentAlign_low`). So no room that is as it was asked for lies before the candidate
(`Ahead`), all the way along the walk. -/
namespace NetBSD.Kern.SubrExtent
open List Option
open Lib

/-- No mask is above 2^63; so are the powers of two. -/
def Modest : Call → Prop
  | .allocSubregion1 q _ => q.alignment ≤ 2 ^ 63 ∧ q.boundary ≤ 2 ^ 63
  | _ => True

instance : DecidablePred Modest
  | .allocSubregion1 _ _ => inferInstanceAs (Decidable (_ ∧ _))
  | .allocRegion _ _ _ _ => inferInstanceAs (Decidable True)
  | .free _ _ _ => inferInstanceAs (Decidable True)

/-- Room that is as it was asked for. -/
structure Feasible (ex : Extent) (q : Request) (r : Nat) : Prop where
  start : q.substart ≤ r
  stop : r + (q.size - 1) ≤ q.subend
  alignment : r % q.alignment = q.skew
  free : ∀ reg ∈ ex.regions, r + (q.size - 1) < reg.first ∨ reg.last < r

section
variable {ex : Extent} {q : Request} {x start : Nat} {before behind : List Interval} {best : Best}

theorem extentAlign_low (hm : q.Masks) (hx : x ≤ 2 ^ 63) : extentAlign x q.alignment q.skew = alignedFrom x q.alignment q.skew := by
  obtain ⟨k, hk, hkeq⟩ := hm.alignment
  have hpow : 2 ^ k ≤ 2 ^ 63 := Nat.pow_le_pow_right (by decide) (Nat.le_of_lt_succ hk)
  have hskew := hm.skew
  obtain ⟨t, ht, heq⟩ := extentAlign_eq (x := x) (a := q.alignment) (s := q.skew) (by omega) (by omega) (by omega)
  have hword : extentAlign x q.alignment q.skew = x + t := by
    rw [heq]
    exact ulong_eq (by omega)
  apply eq_alignedFrom (by omega) (by omega) (extentAlign_mod hm x)

theorem le_extentAlign (hm : q.Masks) (hx : x ≤ 2 ^ 63) : x ≤ extentAlign x q.alignment q.skew := by
  rw [extentAlign_low hm hx]
  exact le_alignedFrom (Nat.zero_lt_of_lt hm.skew)

theorem extentAlign_le {r : Nat} (hm : q.Masks) (hx : x ≤ 2 ^ 63) (hle : x ≤ r) (hmod : r % q.alignment = q.skew) :
    extentAlign x q.alignment q.skew ≤ r := by
  rw [extentAlign_low hm hx]
  exact alignedFrom_le hm.skew hle hmod

theorem leOv_iff {x y z : Nat} (hx : x < 2 ^ 64) (hy : y < 2 ^ 64) (hz : z < 2 ^ 64) : leOv x y z = true ↔ x + y ≤ z := by
  rw [leOv, Bool.and_eq_true, decide_eq_true_eq, decide_eq_true_eq]
  unfold ulong
  omega

/-- While there is no chunk yet, no room lies before the candidate. With EX_FAST there never is one. -/
structure Ahead (ex : Extent) (q : Request) (start : Nat) (best : Best) : Prop where
  lt : start < 2 ^ 64
  fast : q.flags.fast = true → best.ovh = 0
  ahead : best.ovh = 0 → ∀ r, Feasible ex q r → start ≤ r

/-- What is found: with EX_FAST the first room, else some if there is any. -/
def Finds (ex : Extent) (q : Request) : Option Place → Prop
  | none => ∀ r, ¬ Feasible ex q r
  | some p => q.flags.fast = true → ∀ r, Feasible ex q r → p.start ≤ r

theorem giveUp_finds (hfast : q.flags.fast = true → best.ovh = 0) (hnone : best.ovh = 0 → ∀ r, ¬ Feasible ex q r) :
    Finds ex q (giveUp q best) := by
  unfold giveUp
  split
  · next hc =>
    intro hq
    rw [hc.1] at hq
    cases hq
  · next hc =>
    apply hnone
    by_contra hne
    rcases Bool.eq_false_or_eq_true q.flags.fast with hq | hq
    · exact hne (hfast hq)
    · exact hc ⟨hq, hne⟩

theorem weigh_finds (ovh : Nat) {p : Place} (h : Ahead ex q p.start best) :
    (∃ p', weigh q ovh p best = .found p' ∧ p'.start = p.start ∧ (q.flags.fast = true → ∀ r, Feasible ex q r → p'.start ≤ r)) ∨
      ∃ best', weigh q ovh p best = .skip best' ∧ best'.ovh ≠ 0 ∧ q.flags.fast = false := by
  unfold weigh
  split
  · exact .inl ⟨p, rfl, rfl, fun hq => h.ahead (h.fast hq)⟩
  · next hno =>
    rw [not_or] at hno
    have hfast := Bool.eq_false_iff.mpr hno.1
    right
    split
    · exact ⟨_, rfl, hno.2, hfast⟩
    · next hworse =>
      rw [not_or] at hworse
      exact ⟨best, rfl, hworse.1, hfast⟩

variable (hs : Sorted ex) (hend : ex.exEnd < 2 ^ 63) (hv : q.Valid ex) (hu : q.Ulongs) (hm : q.Masks) (hb : q.boundary = 0)
include hs hend hv hu hm hb

omit hs hend hv hu hm in
theorem boundaryCheck_zero (len lim : Nat) : boundaryCheck ex q start len lim = .fits start := if_pos hb

omit hs hend hv hm in
theorem finish_finds {exend : Nat} (h : Ahead ex q start best) : Finds ex q (finish q best (finalChunk ex q start exend before behind best)) := by
  have hsize := hu.size
  unfold finalChunk
  split
  · rw [boundaryCheck_zero hb]
    rcases weigh_finds (sub (sub exend start) (q.size - 1)) (p := ⟨start, before, behind⟩) h with ⟨p, heq, -, hfirst⟩ | ⟨best', heq, hne, hfast⟩
    · dsimp only
      rw [heq]
      exact hfirst
    · dsimp only
      rw [heq]
      exact giveUp_finds (fun hq => absurd (hfast.symm.trans hq) (by decide)) (fun hzero => absurd hzero hne)
  · next hno =>
    apply giveUp_finds h.fast
    intro hzero r hr
    apply hno
    have hsub : q.subend < 2 ^ 64 := hu.subend
    rw [leOv_iff h.lt (by omega) hsub]
    have hle := h.ahead hzero r hr
    have hstop := hr.stop
    omega

theorem findChunk_finds (h : Ahead ex q start best) (hregions : ∀ r ∈ behind, r ∈ ex.regions) :
    Finds ex q (findChunk ex q start before best behind) := by
  induction behind generalizing start before best with
  | nil => exact finish_finds hu hb h
  | cons rp rest ih =>
    rw [findChunk]
    split
    · exact finish_finds hu hb h
    have hin := hs.chain.mem (hregions rp mem_cons_self)
    have hword : ulong (rp.last + 1) = rp.last + 1 := ulong_eq (by omega)
    have hge : rp.last + 1 ≤ extentAlign (ulong (rp.last + 1)) q.alignment q.skew := by
      rw [hword]
      exact le_extentAlign hm (by omega)
    have hrest (r : Interval) (hr : r ∈ rest) : r ∈ ex.regions := hregions r (mem_cons_of_mem _ hr)
    -- the chunk before the region is taken, or no room is left before the next candidate
    have hchunk : (∃ p, chunkBefore ex q start before rp rest best = .found p ∧ (q.flags.fast = true → ∀ r, Feasible ex q r → p.start ≤ r)) ∨
        ∃ best', chunkBefore ex q start before rp rest best = .skip best' ∧
          Ahead ex q (extentAlign (ulong (rp.last + 1)) q.alignment q.skew) best' := by
      unfold chunkBefore
      split
      · rw [boundaryCheck_zero hb]
        rcases weigh_finds (sub (sub rp.first start) q.size) (p := ⟨start, before, rp :: rest⟩) h with ⟨p, heq, -, hfirst⟩ | ⟨best', heq, hne, hfast⟩
        · exact .inl ⟨p, heq, hfirst⟩
        · exact .inr ⟨best', heq, ulong_lt _, fun hq => absurd (hfast.symm.trans hq) (by decide), fun hzero => absurd hzero hne⟩
      · next hno =>
        refine .inr ⟨best, rfl, ulong_lt _, h.fast, fun hzero r hr => ?_⟩
        have hle := h.ahead hzero r hr
        rw [leOv_iff h.lt hu.size (by omega)] at hno
        have hlast : rp.last < r := (hr.free rp (hregions rp mem_cons_self)).resolve_left (by omega)
        rw [hword]
        exact extentAlign_le hm (by omega) hlast hr.alignment
    rcases hchunk with ⟨p, heq, hfirst⟩ | ⟨best', heq, hnext⟩
    · rw [heq]
      exact hfirst
    rw [heq]
    dsimp only
    rw [if_neg (by omega)]
    exact ih hnext hrest

theorem findSubregion_finds : Finds ex q (findSubregion ex q) := by
  have hsubstart : q.substart ≤ 2 ^ 63 := by have := hv.1; omega
  obtain ⟨hregions, hn, hfirst⟩ := @seek_spec [] (extentAlign q.substart q.alignment q.skew) ex.regions fun r hr => by cases hr
  unfold findSubregion
  generalize seek (extentAlign q.substart q.alignment q.skew) [] ex.regions = place at hregions hn hfirst
  have hmem (r : Interval) (hr : r ∈ place.before ∨ r ∈ place.behind) : r ∈ ex.regions := by
    rw [show ex.regions = place.before.reverse ++ place.behind from hregions.symm]
    rcases hr with hr | hr
    · exact mem_append_left _ (mem_reverse.mpr hr)
    · exact mem_append_right _ hr
  have hstart (r : Nat) (hr : Feasible ex q r) : place.start ≤ r := by
    rw [hn]
    exact extentAlign_le hm hsubstart hr.start hr.alignment
  have hplain : Ahead ex q place.start ⟨0, 0, [], []⟩ := ⟨hn ▸ ulong_lt _, fun _ => rfl, fun _ => hstart⟩
  have hmoved : Ahead ex q (relocate q place).start ⟨0, 0, [], []⟩ ∧ (relocate q place).behind = place.behind := by
    unfold relocate
    split
    · next last before hbefore =>
      split
      · next hover =>
        have hlast := hmem last (.inl (by rw [hbefore]; exact mem_cons_self))
        have hin := hs.chain.mem hlast
        have hfront := hfirst last (by rw [hbefore]; rfl)
        refine ⟨⟨ulong_lt _, fun _ => rfl, fun _ r hr => ?_⟩, rfl⟩
        have hge := hstart r hr
        have hbehind : last.last < r := (hr.free last hlast).resolve_left (by omega)
        rw [ulong_eq (show last.last + 1 < 2 ^ 64 by omega)]
        exact extentAlign_le hm (by omega) hbehind hr.alignment
      · exact ⟨hplain, rfl⟩
    · exact ⟨hplain, rfl⟩
  apply findChunk_finds hs hend hv hu hm hb hmoved.1
  intro r hr
  exact hmem r (.inr (hmoved.2 ▸ hr))

end

theorem insertAt_exEnd {ex ex' : Extent} {size : Nat} {flags : Flags} {found : Option Place} {ans : Answer}
    (h : insertAt ex size flags found = (ans, ex')) : ex'.exEnd = ex.exEnd := by
  cases found <;> cases h <;> rfl

theorem exec_exEnd {ex ex' : Extent} {c : Call} {ans : Answer} (h : exec ex c = some (ans, ex')) : ex'.exEnd = ex.exEnd := by
  cases c with
  | allocRegion start size flags mem =>
    rw [exec, extentAllocRegion] at h
    split at h
    · cases h
    split at h
    · cases h
      rfl
    · exact insertAt_exEnd (some.inj h)
  | allocSubregion1 q mem =>
    rw [exec, extentAllocSubregion1] at h
    split at h
    · cases h
    split at h
    · cases h
      rfl
    split at h
    · cases h
    · exact insertAt_exEnd (some.inj h)
  | free start size mem =>
    rw [exec, extentFree] at h
    split at h
    · cases h
    split at h
    · cases h
      rfl
    obtain ⟨l, -, heq⟩ := Option.map_eq_some_iff.mp h
    cases heq
    rfl

theorem Modest.plain {ex : Extent} {c : Call} (hs : Sorted ex) (hend : ex.exEnd < 2 ^ 63) (hu : c.Ulongs) (hc : Modest c)
    {ans : Answer} {ex' : Extent} (h : exec ex c = some (ans, ex')) : Plain ex c := by
  cases c with
  | allocRegion start size flags mem => trivial
  | free start size mem => trivial
  | allocSubregion1 q mem =>
    have hv : q.Valid ex := by
      by_contra hv
      rw [exec, extentAllocSubregion1, if_pos hv] at h
      cases h
    refine ⟨.inr (.inr ?_), fun r hr _ _ => ?_⟩
    · have hsubend := hv.1
      have hboundary := hc.2
      omega
    have hin := hs.chain.mem hr
    have hle := hc.1
    have hpos := pos_of_ne_zero hv.2.2.1
    obtain ⟨t, ht, heq⟩ := extentAlign_eq (x := ulong (r.last + 1)) (a := q.alignment) (s := q.skew) hpos (by omega) hu.skew
    rw [heq]
    unfold ulong
    omega

theorem reach_plain {ex : Extent} (h : system.Reach (fun _ c => Modest c) ex) (hend : ex.exEnd < 2 ^ 63) : system.Reach Plain ex := by
  induction h with
  | init hinit => exact .init hinit
  | @step ex ex' c hreach hc hstep ih =>
    have hnext : next ex c = some ex' := hstep
    unfold next at hnext
    split at hnext
    · next hu =>
      obtain ⟨⟨ans, ex₁⟩, hexec, rfl⟩ := Option.map_eq_some_iff.mp hnext
      have hkeep := exec_exEnd hexec
      have hbefore := ih (hkeep ▸ hend)
      exact .step hbefore (hc.plain (reach_sorted hbefore) (hkeep ▸ hend) hu hexec) hstep
    · cases hnext

section
variable {ex : Extent} {q : Request}

theorem findSubregion_feasible {p : Place} (hs : Sorted ex) (hend : ex.exEnd < 2 ^ 63) (hv : q.Valid ex) (hu : q.Ulongs) (hm : q.Masks)
    (hb : q.boundary = 0) (h : findSubregion ex q = some p) : Feasible ex q p.start := by
  have hsubstart : q.substart ≤ 2 ^ 63 := by have := hv.1; omega
  have hx : ex.exStart < 2 ^ 64 := by have := hv.1; omega
  have hfront : ex.exStart ≤ q.substart := by have := hv.1; omega
  have hstart := le_extentAlign hm hsubstart
  have hmove : q.PlainRelocation ex := by
    intro r hr _ _
    have hin := hs.chain.mem hr
    have hge := le_extentAlign (x := r.last + 1) hm (by omega)
    rw [ulong_eq (show r.last + 1 < 2 ^ 64 by omega)]
    omega
  have hstraight : q.Straight ex := ⟨hstart, hmove, fun _ hmis => hmis.1 hb, fun _ _ _ hmis => hmis.1 hb⟩
  have hasked := findSubregion_honours hs hx hv hu hm hstraight h
  have hfits := findSubregion_fits hs hx hv hu (.inl hb) hmove (le_trans hfront hstart) h
  refine ⟨hasked.start, hasked.stop, hasked.alignment, fun reg hreg => ?_⟩
  by_contra hmeets
  have hin := hs.chain.mem hreg
  have hcommon : (added p.start q.size).Mem (max p.start reg.first) := by
    unfold Interval.Mem added
    dsimp only
    omega
  exact hfits.free hs hcommon ⟨reg, hreg, by unfold Interval.Mem; omega⟩

end

/-- In every run below 2^63: a request without a boundary is refused only where there is no room as
it was asked for, and then nothing changes; what it gets is such room, and with EX_FAST the first. -/
theorem subregion_complete {ex : Extent} {q : Request} (h : system.Reach (fun _ c => Modest c) ex) (hend : ex.exEnd < 2 ^ 63) (hu : q.Ulongs)
    (hm : q.Masks) (hb : q.boundary = 0) (hwait : q.flags.waitspace = false) :
    (∀ ex', extentAllocSubregion1 ex q true = some (.again, ex') → ex' = ex ∧ ∀ r, ¬ Feasible ex q r) ∧
      ∀ r ex', extentAllocSubregion1 ex q true = some (.ok r, ex') →
        Feasible ex q r ∧ (q.flags.fast = true → ∀ r', Feasible ex q r' → r ≤ r') := by
  have hs := reach_sorted (reach_plain h hend)
  have hcases (ans : Answer) (ex' : Extent) (heq : extentAllocSubregion1 ex q true = some (ans, ex')) :
      q.Valid ex ∧ insertAt ex q.size q.flags (findSubregion ex q) = (ans, ex') := by
    unfold extentAllocSubregion1 at heq
    split at heq
    · cases heq
    · next hv =>
      split at heq
      · next hmem => cases hmem
      split at heq
      · cases heq
      · exact ⟨not_not.mp hv, some.inj heq⟩
  refine ⟨fun ex' heq => ?_, fun r ex' heq => ?_⟩
  · obtain ⟨hv, hins⟩ := hcases _ _ heq
    have hfinds := findSubregion_finds hs hend hv hu hm hb
    cases hf : findSubregion ex q with
    | none =>
      rw [hf] at hins hfinds
      exact ⟨(congrArg Prod.snd hins).symm, hfinds⟩
    | some p =>
      rw [hf] at hins
      cases hins
  obtain ⟨hv, hins⟩ := hcases _ _ heq
  have hfinds := findSubregion_finds hs hend hv hu hm hb
  cases hf : findSubregion ex q with
  | none =>
    rw [hf] at hins
    have hans := congrArg Prod.fst hins
    change noSpace q.flags = .ok r at hans
    unfold noSpace at hans
    rw [hwait] at hans
    cases hans
  | some p =>
    rw [hf] at hins hfinds
    cases hins
    exact ⟨findSubregion_feasible hs hend hv hu hm hb hf, hfinds⟩

/-- Behind two regions with a hole between them that is too small for the alignment. -/
theorem subregion_complete_hole : Feasible ⟨0, 99, false, [⟨10, 20⟩, ⟨30, 40⟩]⟩ ⟨10, 99, 4, 16, 0, 0, { fast := true }⟩ 48 ∧
      ∀ r', Feasible ⟨0, 99, false, [⟨10, 20⟩, ⟨30, 40⟩]⟩ ⟨10, 99, 4, 16, 0, 0, { fast := true }⟩ r' → 48 ≤ r' := by
  have hrun : System.run (System.guarded (fun _ c => Modest c) next) ⟨0, 99, false, []⟩
      [.allocRegion 10 11 {} true, .allocRegion 30 11 {} true] = some ⟨0, 99, false, [⟨10, 20⟩, ⟨30, 40⟩]⟩ := by decide
  have hreach : system.Reach (fun _ c => Modest c) _ := System.reach_run _ _ _ _ _ ⟨by decide, rfl⟩ hrun
  have hr : extentAllocSubregion1 ⟨0, 99, false, [⟨10, 20⟩, ⟨30, 40⟩]⟩ ⟨10, 99, 4, 16, 0, 0, { fast := true }⟩ true =
      some (.ok 48, ⟨0, 99, false, [⟨10, 20⟩, ⟨30, 40⟩, ⟨48, 51⟩]⟩) := by decide
  obtain ⟨hfeasible, hfirst⟩ := (subregion_complete hreach (by decide) (by decide) ⟨⟨4, by decide, rfl⟩, by decide, .inl rfl⟩ rfl rfl).2 _ _ hr
  exact ⟨hfeasible, hfirst rfl⟩

end NetBSD.Kern.SubrExtent
