import NetBSD.Kern.SubrVmem.Arena
import NetBSD.Kern.SubrVmem.Candidate

/-! The segments of an arena.

Spans are cut into segments without holes (`Tiled`), and a free segment is on the free list of its
order at least as often as on the segment list (`Listed`). Both hold in every arena that is reached;
the first one only while the spans end below 2^63, where no room is found outside of a segment. -/
namespace NetBSD.Kern.SubrVmem
open List Function Option
open Lib

section Tiled
variable {vm vm' : Vmem} {bt b sp : Bt} {q : Request} {pos stop addr size start : Nat} {l pre post old new : List Bt}

/-! ### Tiled spans -/

/-- The tags from a position in a span on that ends at `stop`. -/
def Tiled : Nat → Nat → List Bt → Prop
  | pos, stop, [] => pos = stop
  | pos, stop, bt :: rest =>
    if bt.IsSpan then pos = stop ∧ Tiled bt.btStart (bt.btStart + bt.btSize) rest
    else bt.btStart = pos ∧ 0 < bt.btSize ∧ pos + bt.btSize ≤ stop ∧ Tiled (pos + bt.btSize) stop rest

/-- The spans of a list end below 2^63. -/
def SpansLow (l : List Bt) : Prop := ∀ sp ∈ l, sp.IsSpan → sp.btStart + sp.btSize ≤ 2 ^ 63

theorem tiled_span (h : bt.IsSpan) : Tiled pos stop (bt :: l) ↔ pos = stop ∧ Tiled bt.btStart (bt.btStart + bt.btSize) l := by
  rw [Tiled, if_pos h]

theorem tiled_segment (h : ¬ bt.IsSpan) :
    Tiled pos stop (bt :: l) ↔ bt.btStart = pos ∧ 0 < bt.btSize ∧ pos + bt.btSize ≤ stop ∧ Tiled (pos + bt.btSize) stop l := by
  rw [Tiled, if_neg h]

theorem not_isSpan_of_free (h : bt.btType = .free) : ¬ bt.IsSpan := by
  rw [Bt.IsSpan, h]
  decide

theorem not_isSpan_of_busy (h : bt.btType = .busy) : ¬ bt.IsSpan := by
  rw [Bt.IsSpan, h]
  decide

theorem Tiled.bounded (h : Tiled pos stop l) (hstop : stop ≤ 2 ^ 63) (hlow : SpansLow l) (hb : b ∈ l) (hseg : ¬ b.IsSpan) :
    0 < b.btSize ∧ b.btStart + b.btSize ≤ 2 ^ 63 := by
  induction l generalizing pos stop with
  | nil => cases hb
  | cons bt rest ih =>
    have hrest : SpansLow rest := fun sp hsp => hlow sp (mem_cons_of_mem _ hsp)
    by_cases hspan : bt.IsSpan
    · have htail := ((tiled_span hspan).mp h).2
      rcases mem_cons.mp hb with rfl | hmem
      · exact absurd hspan hseg
      · exact ih htail (hlow bt mem_cons_self hspan) hrest hmem
    obtain ⟨hstart, hpos, hle, htail⟩ := (tiled_segment hspan).mp h
    rcases mem_cons.mp hb with rfl | hmem
    · exact ⟨hpos, by omega⟩
    · exact ih htail hstop hrest hmem

theorem Tiled.replace (old new : List Bt) (h : Tiled pos stop (pre ++ (old ++ post))) (hstop : stop ≤ 2 ^ 63) (hlow : SpansLow (pre ++ (old ++ post)))
    (hnew : ∀ pos stop, stop ≤ 2 ^ 63 → Tiled pos stop (old ++ post) → Tiled pos stop (new ++ post)) :
    Tiled pos stop (pre ++ (new ++ post)) := by
  induction pre generalizing pos stop with
  | nil => exact hnew pos stop hstop h
  | cons bt rest ih =>
    have hrest : SpansLow (rest ++ (old ++ post)) := fun sp hsp => hlow sp (mem_cons_of_mem _ hsp)
    by_cases hspan : bt.IsSpan
    · obtain ⟨heq, htail⟩ := (tiled_span hspan).mp h
      exact (tiled_span hspan).mpr ⟨heq, ih htail (hlow bt mem_cons_self hspan) hrest⟩
    · obtain ⟨hstart, hpos, hle, htail⟩ := (tiled_segment hspan).mp h
      exact (tiled_segment hspan).mpr ⟨hstart, hpos, hle, ih htail hstop hrest⟩

theorem Tiled.add (h : Tiled pos stop l) (hsize : 0 < size) : Tiled pos stop (l ++ [⟨.spanStatic, addr, size⟩, ⟨.free, addr, size⟩]) := by
  induction l generalizing pos stop with
  | nil => exact ⟨h, rfl, hsize, le_refl _, rfl⟩
  | cons bt rest ih =>
    by_cases hspan : bt.IsSpan
    · obtain ⟨heq, htail⟩ := (tiled_span hspan).mp h
      exact (tiled_span hspan).mpr ⟨heq, ih htail⟩
    · obtain ⟨hstart, hpos, hle, htail⟩ := (tiled_segment hspan).mp h
      exact (tiled_segment hspan).mpr ⟨hstart, hpos, hle, ih htail⟩

/-! ### Lists of tags -/

theorem splice_of_mem (h : bt ∈ l) (new : List Bt) : ∃ pre post, l = pre ++ bt :: post ∧ splice bt new l = pre ++ (new ++ post) := by
  induction l with
  | nil => cases h
  | cons b rest ih =>
    by_cases heq : b = bt
    · exact ⟨[], rest, by rw [heq]; rfl, if_pos heq⟩
    obtain ⟨pre, post, hl, hsplice⟩ := ih ((mem_cons.mp h).resolve_left fun h => heq h.symm)
    refine ⟨b :: pre, post, by rw [hl]; rfl, ?_⟩
    rw [splice, if_neg heq, hsplice]
    rfl

theorem splice_of_notMem (h : bt ∉ l) (new : List Bt) : splice bt new l = l := by
  induction l with
  | nil => rfl
  | cons b rest ih =>
    have hne : b ≠ bt := fun heq => h (heq ▸ mem_cons_self)
    rw [splice, if_neg hne, ih fun hmem => h (mem_cons_of_mem _ hmem)]

theorem count_splice_le (bt : Bt) (l new : List Bt) (b : Bt) : (splice bt new l).count b ≤ l.count b - [bt].count b + new.count b := by
  by_cases hmem : bt ∈ l
  · obtain ⟨pre, post, hl, hsplice⟩ := splice_of_mem hmem new
    rw [hsplice, hl, ← singleton_append (l := post), count_append, count_append, count_append, count_append]
    omega
  rw [splice_of_notMem hmem]
  by_cases heq : bt = b
  · rw [← heq, count_eq_zero.mpr hmem]
    omega
  · rw [count_singleton, beq_eq_false_iff_ne.mpr heq]
    exact Nat.le_add_right _ _

namespace Vmem

/-- How often a tag is on the free list of its order. -/
def listed (vm : Vmem) (b : Bt) : Nat := (vm.freelist (vm.order b.btSize)).count b

/-- What is on the lists of free and of busy tags is free and busy, and the free segments are on a
free list. -/
structure Listed (vm : Vmem) : Prop where
  free : ∀ idx, ∀ b ∈ vm.freelist idx, b.btType = .free
  busy : ∀ b ∈ vm.busylist, b.btType = .busy
  listed : ∀ b : Bt, b.btType = .free → vm.seglist.count b ≤ vm.listed b

theorem btInsfree_cases (h : vm.btInsfree bt = some vm') : ∃ fl, vm' = { vm with freelist := fl } ∧ 0 < bt.btSize ∧
    (∀ b : Bt, (fl (vm.order b.btSize)).count b = vm.listed b + [bt].count b) ∧ ∀ idx, ∀ b ∈ fl idx, b ∈ vm.freelist idx ∨ b = bt := by
  rw [btInsfree, btFreeheadTofree] at h
  split at h
  · cases h
  · next hne =>
    refine ⟨_, (some.inj h).symm, ?_, fun b => ?_, fun idx b hb => ?_⟩
    · by_contra hzero
      rw [Nat.eq_zero_of_not_pos hzero, Nat.zero_shiftRight] at hne
      exact hne rfl
    · by_cases hord : vm.order b.btSize = vm.order bt.btSize
      · rw [hord, update_self, listed, hord, count_cons, count_singleton]
      have hne' : (bt == b) = false := beq_eq_false_iff_ne.mpr fun heq => hord (heq ▸ rfl)
      rw [update_of_ne hord, count_singleton, hne']
      rfl
    by_cases hidx : idx = vm.order bt.btSize
    · rw [hidx, update_self] at hb
      rw [hidx]
      exact (mem_cons.mp hb).symm
    · rw [update_of_ne hidx] at hb
      exact .inl hb

theorem insfrees_cases (h : new.foldlM btInsfree vm = some vm') : ∃ fl, vm' = { vm with freelist := fl } ∧
    (∀ b : Bt, (fl (vm.order b.btSize)).count b = vm.listed b + new.count b) ∧ ∀ idx, ∀ b ∈ fl idx, b ∈ vm.freelist idx ∨ b ∈ new := by
  induction new generalizing vm with
  | nil => exact ⟨vm.freelist, (some.inj h).symm, fun b => rfl, fun idx b hb => .inl hb⟩
  | cons bt rest ih =>
    obtain ⟨vm₁, hins, hrest⟩ := bind_eq_some_iff.mp h
    obtain ⟨fl₁, rfl, -, hcount₁, hmem₁⟩ := btInsfree_cases hins
    obtain ⟨fl, rfl, hcount, hmem⟩ := ih hrest
    refine ⟨fl, rfl, fun b => ?_, fun idx b hb => ?_⟩
    · have hb : (fl (vm.order b.btSize)).count b = (fl₁ (vm.order b.btSize)).count b + rest.count b := hcount b
      rw [hb, hcount₁ b, ← singleton_append (l := rest), count_append, add_assoc]
    rcases hmem idx b hb with hold | hnew
    · rcases hmem₁ idx b hold with hold | rfl
      · exact .inl hold
      · exact .inr mem_cons_self
    · exact .inr (mem_cons_of_mem _ hnew)

theorem listed_btRemfree (b : Bt) : (vm.btRemfree bt).listed b = vm.listed b - [bt].count b := by
  rw [count_singleton]
  exact count_erase

end Vmem

end Tiled

/-! The two searches of an arena.

In a segment below 2^63 the place that is tried is the least admissible one (`fit_spec_low`), and
the second search goes through all lists on which large enough segments can be (`bestFit_none`). -/

variable {vm vm' : Vmem} {bt b t : Bt} {q : Request} {pos stop addr size start : Nat} {l before behind : List Bt}

theorem Request.Legal.fit_spec_low (h : q.Legal) (hend : bt.btStart + bt.btSize ≤ 2 ^ 63) (hpos : 0 < bt.btSize) :
    (∀ a, vmemFit bt q = some a → q.Admissible bt a) ∧ (vmemFit bt q = none → ∀ a, ¬ q.Admissible bt a) := by
  have hend' : bt.btStart + bt.btSize ≤ 2 ^ 64 := by omega
  by_cases hlt : q.low bt < q.high bt
  · have hlow : q.low bt < 2 ^ 63 := lt_of_lt_of_le hlt (le_trans (min_le_left _ _) hend)
    have hnear : q.first bt < q.low bt + q.align := h.first_lt
    have halign := h.align_le
    have hfirst : q.first bt < 2 ^ 64 := by omega
    apply h.fit_spec hend' hpos hfirst
    intro hne
    by_contra hover
    have hbehind := h.first_behind hfirst hne (Nat.lt_of_not_le hover)
    obtain ⟨hcross, -⟩ := h.moved_wraps h.first_phase hfirst hne (Nat.lt_of_not_le hover)
    have hnocross := (h.of_crosses h.first_phase hcross).2.2.1
    omega
  · have hnone := Request.Legal.fit_none (q := q) hend' hpos hlt
    rw [hnone]
    refine ⟨fun a ha => (nomatch ha), fun _ a ha => hlt ?_⟩
    have hlow : q.low bt ≤ a := Nat.max_le.mpr ⟨ha.start_le, ha.min_le⟩
    have hhigh : a + q.size ≤ q.high bt := Nat.le_min.mpr ⟨ha.le_end, ha.le_max⟩
    have hsize := h.size_pos
    omega

namespace Vmem

/-- A request that is met goes to a free segment in which it fits. -/
theorem xalloc_cases {instantfit tags : Bool} {r : Option Nat} (h : vm.vmemXalloc q instantfit tags = some (r, vm')) :
    r = none ∧ vm' = vm ∨ ∃ bt start, (∃ idx, bt ∈ vm.freelist idx) ∧ vmemFit bt (vm.rounded q) = some start ∧
      vm.gotit (vm.rounded q).size bt start = some (r, vm') := by
  have hsearch {instantfit : Bool} {bt : Bt} {start : Nat} (hs : vm.search (vm.rounded q) instantfit = some (some (bt, start))) :
      (∃ idx, bt ∈ vm.freelist idx) ∧ vmemFit bt (vm.rounded q) = some start := by
    obtain ⟨first, -, hfound⟩ := map_eq_some_iff.mp hs
    split at hfound
    · obtain ⟨idx, -, hidx⟩ := exists_of_findSome?_eq_some hfound
      obtain ⟨bt', hhead, hfit⟩ := bind_eq_some_iff.mp hidx
      obtain ⟨start', hfit, heq⟩ := map_eq_some_iff.mp hfit
      cases heq
      exact ⟨⟨idx, mem_of_head? hhead⟩, hfit⟩
    obtain ⟨idx, -, hidx⟩ := exists_of_findSome?_eq_some hfound
    obtain ⟨bt', hmem, hfit⟩ := exists_of_findSome?_eq_some hidx
    split at hfit
    · obtain ⟨start', hfit, heq⟩ := map_eq_some_iff.mp hfit
      cases heq
      exact ⟨⟨idx, hmem⟩, hfit⟩
    · cases hfit
  rw [vmemXalloc] at h
  split at h
  · obtain ⟨found, hfound, h⟩ := bind_eq_some_iff.mp h
    cases found with
    | none =>
      cases h
      exact .inl ⟨rfl, rfl⟩
    | some found =>
      obtain ⟨bt, start⟩ := found
      have hs : ∃ instantfit, vm.search (vm.rounded q) instantfit = some (some (bt, start)) := by
        rw [choose] at hfound
        split at hfound
        · obtain ⟨quick, hquick, hfound⟩ := bind_eq_some_iff.mp hfound
          cases quick with
          | none => exact ⟨false, hfound⟩
          | some quick =>
            cases hfound
            exact ⟨true, hquick⟩
        · exact ⟨false, hfound⟩
      obtain ⟨instantfit', hs⟩ := hs
      exact .inr ⟨bt, start, (hsearch hs).1, (hsearch hs).2, h⟩
  · cases h
    exact .inl ⟨rfl, rfl⟩

theorem xalloc_none {instantfit : Bool} (h : vm.vmemXalloc q instantfit true = some (none, vm')) :
    vm' = vm ∧ vm.search (vm.rounded q) false = some none := by
  obtain ⟨found, hfound, h⟩ := bind_eq_some_iff.mp h
  cases found with
  | none =>
    cases h
    refine ⟨rfl, ?_⟩
    rw [choose] at hfound
    split at hfound
    · obtain ⟨quick, -, hfound⟩ := bind_eq_some_iff.mp hfound
      cases quick with
      | none => exact hfound
      | some quick => cases hfound
    · exact hfound
  | some found =>
    obtain ⟨vm₁, -, h⟩ := map_eq_some_iff.mp h
    cases h

theorem bestFit_none (h : vm.search q false = some none) (hb : b ∈ vm.freelist (vm.order b.btSize)) (hlt : b.btSize < 2 ^ 64)
    (hsize : q.size ≤ b.btSize) : vmemFit b q = none := by
  obtain ⟨first, hfirst, hfound⟩ := map_eq_some_iff.mp h
  have hfirst : 0 < q.size >>> vm.quantumShift ∧ first = vm.order q.size := by
    rw [btFreeheadToalloc] at hfirst
    split at hfirst
    · cases hfirst
    · next hne => exact ⟨Nat.pos_of_ne_zero hne, (some.inj hfirst).symm⟩
  have hle : q.size >>> vm.quantumShift ≤ b.btSize >>> vm.quantumShift := by
    rw [Nat.shiftRight_eq_div_pow, Nat.shiftRight_eq_div_pow]
    exact Nat.div_le_div_right hsize
  have hord : first ≤ vm.order b.btSize ∧ vm.order b.btSize < vmemMaxorder := by
    rw [hfirst.2, order, order, Nat.log2_eq_log_two, Nat.log2_eq_log_two]
    refine ⟨Nat.log_mono_right hle, Nat.log_lt_of_lt_pow (by omega) ?_⟩
    rw [Nat.shiftRight_eq_div_pow]
    exact lt_of_le_of_lt (Nat.div_le_self _ _) hlt
  have hlists := findSome?_eq_none_iff.mp hfound (vm.order b.btSize) (mem_range'_1.mpr ⟨hord.1, by omega⟩)
  have htag := findSome?_eq_none_iff.mp hlists b hb
  rw [if_pos hsize] at htag
  exact map_eq_none_iff.mp htag

end Vmem

end NetBSD.Kern.SubrVmem
