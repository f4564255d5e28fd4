import NetBSD.Uvm.Map.Placed

/-! What is found is where it was asked for.

Upwards the search goes on behind the hint (`nextgap_up`), downwards in front of it
(`nextgap_down`), unless an address comes round at an end of the address space, or the upper edge of
the first gap is tried although it is above the hint (`Astray`). -/
namespace NetBSD.Uvm.Map
open Lib

namespace VmMap
variable {m : VmMap} {hint length align entry e r p q : Nat}

/-- The entry with the gap that is searched first. -/
def searchStart (m : VmMap) (hint : Nat) : Nat :=
  if hint = m.vmMapMin then m.firstFree
  else if (m.uvmMapLookupEntry hint).1 ∧ m.topdown then m.prev (m.uvmMapLookupEntry hint).2.1
  else (m.uvmMapLookupEntry hint).2.1

/-- Downwards, the hint is not tried or there is no room at it, and at the upper edge of the gap there
is some above it. -/
def Overshoots (m : VmMap) (hint length align : Nat) : Prop :=
  (hint = m.vmMapMin ∨ ¬ m.Fits length (m.searchStart hint) (m.aligned align hint)) ∧
    m.Fits length (m.searchStart hint) (m.aligned align (m.edge length (m.searchStart hint))) ∧
    hint < m.aligned align (m.edge length (m.searchStart hint))

/-- Downwards, the gap ends below `length`, and the alignment takes the address that has come round
away from the end of the address space. -/
def Underflows (m : VmMap) (hint length align : Nat) : Prop :=
  m.start (m.next (m.searchStart hint)) < length ∧ m.aligned align (m.edge length (m.searchStart hint)) + length < 2 ^ 64

/-- Upwards, the alignment takes the first address to 0. -/
def Wraps (m : VmMap) (hint align : Nat) : Prop :=
  hint ≠ m.vmMapMin ∧ 2 ^ 64 < (if (m.uvmMapLookupEntry hint).1 then m.stop (m.searchStart hint) else hint) + align

def Astray (m : VmMap) (hint length align : Nat) : Prop :=
  m.topdown = true ∧ (m.Overshoots hint length align ∨ m.Underflows hint length align) ∨ m.topdown = false ∧ m.Wraps hint align

instance : Decidable (m.Overshoots hint length align) := inferInstanceAs (Decidable (_ ∧ _))

instance : Decidable (m.Underflows hint length align) := inferInstanceAs (Decidable (_ ∧ _))

instance : Decidable (m.Wraps hint align) := inferInstanceAs (Decidable (_ ∧ _))

instance : Decidable (m.Astray hint length align) := inferInstanceAs (Decidable (_ ∨ _))

/-- What `uvm_map_findspace` is to find. -/
structure Admissible (m : VmMap) (hint length align : Nat) (fixed : Bool) (e r : Nat) : Prop where
  placed : m.Placed length align e r
  top : m.topdown = true → r ≤ hint
  bottom : m.topdown = false → hint ≤ r
  exact : fixed = true → r = hint

namespace WellFormed
variable (h : m.WellFormed)
include h

theorem start_next_le (hpq : p ≤ q) (hq : q ≤ m.entries.length) : m.start (m.next p) ≤ m.start (m.next q) := by
  rcases lt_or_eq_of_le hq with hlt | rfl
  · rw [next_of_lt hlt, next_of_lt (lt_of_le_of_lt hpq hlt)]
    rcases lt_or_eq_of_le hpq with hlt' | rfl
    · exact le_of_lt (h.start_lt (Nat.succ_pos p) (Nat.succ_lt_succ hlt') hlt)
    · exact le_refl _
  · rw [next_last]
    exact h.start_le_max (next_le p)

theorem stop_mono (hpq : p ≤ q) (hq : q ≤ m.entries.length) : m.stop p ≤ m.stop q := by
  rcases lt_or_eq_of_le hpq with hlt | rfl
  · exact Nat.le_trans (h.stop_le_start hlt hq) (Nat.le_of_lt (h.nonempty q (Nat.lt_of_le_of_lt (Nat.zero_le p) hlt) hq))
  · exact le_refl _

theorem start_next_le_start (hpq : p < q) (hq : q ≤ m.entries.length) : m.start (m.next p) ≤ m.start q := by
  rw [next_of_lt (lt_of_lt_of_le hpq hq)]
  rcases lt_or_eq_of_le (Nat.succ_le_of_lt hpq) with hlt | heq
  · exact le_of_lt (h.start_lt (Nat.succ_pos p) hlt hq)
  · rw [← heq]

theorem min_le_stop (hle : p ≤ m.entries.length) : m.vmMapMin ≤ m.stop p := h.stop_mono (Nat.zero_le p) hle

end WellFormed

section Search
variable (h : m.WellFormed) (halign : Alignment align) (hpos : 0 < length) (hlen : length < 2 ^ 64) (hle : entry ≤ m.entries.length)
include h halign hpos hlen hle

theorem fromCandidate_up (hbot : m.topdown = false) {prev : Option TreeNode} (hprev : ∀ node ∈ prev, m.Candidate hint length node) :
    (m.fromCandidate length align entry prev).All fun e r => m.Placed length align e r ∧ (hint ≤ r ∨ entry ≤ e) := by
  have hlist : (m.listsearchFrom length align entry).All fun e r => m.Placed length align e r ∧ (hint ≤ r ∨ entry ≤ e) :=
    (listsearch_all h halign hpos hlen hle).imp fun e r he => ⟨he.1, .inr (he.2.2 hbot)⟩
  cases prev with
  | none => trivial
  | some prev =>
    have hcand := hprev prev rfl
    have hplace := hcand.inTree.place
    have hedge : m.edge length prev.place < 2 ^ 64 := edge_lt h hplace.2
    apply tryAt_all halign hpos hlen hedge
    · intro hfits
      exact ⟨⟨hplace.2, hfits, (aligned_cases halign hedge).1⟩, .inl (le_trans (hcand.bottom hbot) hfits.1)⟩
    intro _ _
    split
    · exact hlist
    split
    · trivial
    · next tmp hdig =>
      obtain ⟨a, b, ha, hb, hleft, hright⟩ := hcand.inTree.spans
      rw [if_neg (by rw [hbot]; decide)] at hdig
      have hin := dig_spec hright hdig
      have hedge' : m.edge length tmp < 2 ^ 64 := edge_lt h (by omega)
      apply tryAt_all halign hpos hlen hedge'
      · intro hfits
        have hmono := h.stop_mono (show prev.place ≤ tmp by omega) (by omega)
        exact ⟨⟨by omega, hfits, (aligned_cases halign hedge').1⟩, .inl (le_trans (hcand.bottom hbot) (le_trans hmono hfits.1))⟩
      · intro _ _
        exact hlist

theorem nextgap_up (hbot : m.topdown = false) (hlt : hint < 2 ^ 64) :
    (m.nextgap hint length align entry).All fun e r => m.Placed length align e r ∧ (hint ≤ r ∨ entry ≤ e) := by
  unfold nextgap
  cases htree : m.rbTree with
  | nil => trivial
  | node left root right =>
    dsimp only
    have hspans := h.spans
    have haug := h.maxgap
    rw [htree] at hspans haug
    obtain ⟨htmp, hprev⟩ := descend_root hint length hspans haug
    split
    · trivial
    split
    · next hnear =>
      have hplace := htmp.place
      have hstop := lt_of_le_of_lt (h.stop_le_max hplace.2) h.max_lt
      rw [if_neg (by rw [hbot]; decide)]
      generalize hhint₂ : (if hint < m.stop (m.descend hint length (.node left root right) ⟨left, root, right⟩ none).1.place then
        m.stop (m.descend hint length (.node left root right) ⟨left, root, right⟩ none).1.place else hint) = hint₂
      have hhint : hint ≤ hint₂ ∧ hint₂ < 2 ^ 64 := by
        rw [← hhint₂]
        split
        · omega
        · omega
      obtain ⟨hdvd, -, -, hup⟩ := aligned_cases (m := m) halign hhint.2
      apply tryAt_all halign hpos hlen hhint.2
      · intro hfits
        refine ⟨⟨hplace.2, hfits, hdvd⟩, .inl ?_⟩
        have hentry := h.nonempty _ hplace.1 hplace.2
        have hfront := hfits.1
        rcases hup hbot with hge | ⟨hzero, -⟩
        · omega
        · omega
      · intro _ _
        split
        · exact (listsearch_all h halign hpos hlen hle).imp fun e r he => ⟨he.1, .inr (he.2.2 hbot)⟩
        · exact fromCandidate_up h halign hpos hlen hle hbot hprev
    · exact fromCandidate_up h halign hpos hlen hle hbot hprev

theorem fromEntry_up (hbot : m.topdown = false) :
    (m.fromEntry length align entry).All fun e r => m.Placed length align e r ∧ (m.stop entry + align ≤ 2 ^ 64 → m.stop entry ≤ r) := by
  have hedge : m.edge length entry = m.stop entry := if_neg (by rw [hbot]; decide)
  have hlt : m.stop entry < 2 ^ 64 := lt_of_le_of_lt (h.stop_le_max hle) h.max_lt
  obtain ⟨hdvd, hword, -, hup⟩ := aligned_cases (m := m) halign hlt
  rw [fromEntry, hedge]
  apply tryAt_all halign hpos hlen hlt
  · intro hfits
    exact ⟨⟨hle, hfits, hdvd⟩, fun _ => hfits.1⟩
  intro _ _
  apply (nextgap_up h halign hpos hlen hle hbot hword).imp
  intro e r ⟨hplaced, hbehind⟩
  refine ⟨hplaced, fun hok => ?_⟩
  rcases hbehind with hbehind | hbehind
  · rcases hup hbot with hge | ⟨-, hwraps⟩
    · exact le_trans hge hbehind
    · omega
  · exact le_trans (h.stop_mono hbehind hplaced.le) hplaced.fits.1

section
variable (htop : m.topdown = true) (hroom : hint + length ≤ m.start (m.next entry)) (hhint : m.aligned align (m.edge length entry) = hint)
include htop hroom hhint

theorem fromCandidate_down {prev : Option TreeNode} (hprev : ∀ node ∈ prev, m.Candidate hint length node) :
    (m.fromCandidate length align entry prev).All fun e r => m.Placed length align e r ∧ (e < entry ∨ e = entry ∧ r ≤ hint) := by
  have hlist : (m.listsearchFrom length align entry).All fun e r => m.Placed length align e r ∧ (e < entry ∨ e = entry ∧ r ≤ hint) :=
    (listsearch_all h halign hpos hlen hle).imp fun e r he =>
      ⟨he.1, (he.2.1 htop).imp_right fun ⟨heq, hr⟩ => ⟨heq, le_of_eq (hr.trans hhint)⟩⟩
  cases prev with
  | none => trivial
  | some prev =>
    have hcand := hprev prev rfl
    have hplace := hcand.inTree.place
    have hbefore : prev.place < entry := by
      by_contra hge
      have hword : vaddr (hint + length) = hint + length :=
        vaddr_of_lt (lt_of_le_of_lt (le_trans hroom (h.start_le_max (next_le entry))) h.max_lt)
      have hmono := h.start_next_le (Nat.le_of_not_lt hge) hplace.2
      have hcand := hcand.top htop
      omega
    have hedge : m.edge length prev.place < 2 ^ 64 := edge_lt h hplace.2
    apply tryAt_all halign hpos hlen hedge
    · intro hfits
      exact ⟨⟨hplace.2, hfits, (aligned_cases halign hedge).1⟩, .inl hbefore⟩
    intro _ _
    split
    · exact hlist
    split
    · trivial
    · next tmp hdig =>
      obtain ⟨a, b, ha, hb, hleft, hright⟩ := hcand.inTree.spans
      have hin := dig_spec hleft hdig
      have hedge' : m.edge length tmp < 2 ^ 64 := edge_lt h (by omega)
      apply tryAt_all halign hpos hlen hedge'
      · intro hfits
        exact ⟨⟨by omega, hfits, (aligned_cases halign hedge').1⟩, .inl (by omega)⟩
      · intro _ _
        exact hlist

theorem nextgap_down : (m.nextgap hint length align entry).All fun e r => m.Placed length align e r ∧ (e < entry ∨ e = entry ∧ r ≤ hint) := by
  have hlt : hint < 2 ^ 64 := by
    have hmax := h.start_le_max (next_le (m := m) entry)
    have hmax' := h.max_lt
    omega
  unfold nextgap
  cases htree : m.rbTree with
  | nil => trivial
  | node left root right =>
    dsimp only
    have hspans := h.spans
    have haug := h.maxgap
    rw [htree] at hspans haug
    obtain ⟨htmp, hprev⟩ := descend_root hint length hspans haug
    split
    · trivial
    split
    · next hnear =>
      have hplace := htmp.place
      generalize hnode : (m.descend hint length (.node left root right) ⟨left, root, right⟩ none).1 = tmp at *
      have hbefore : tmp.place ≤ entry := by
        by_contra hgt
        have hmono := h.start_next_le_start (Nat.lt_of_not_le hgt) hplace.2
        omega
      generalize hhint₂ : (if hint > vsub (m.start (m.next tmp.place)) length then vsub (m.start (m.next tmp.place)) length
        else hint) = hint₂
      have hle₂ : hint₂ ≤ hint := by
        rw [← hhint₂]
        split
        · next hgt => exact le_of_lt hgt
        · exact le_refl _
      have hlt₂ := lt_of_le_of_lt hle₂ hlt
      obtain ⟨hdvd, -, hdown, -⟩ := aligned_cases (m := m) halign hlt₂
      apply tryAt_all halign hpos hlen hlt₂
      · intro hfits
        refine ⟨⟨hplace.2, hfits, hdvd⟩, ?_⟩
        have hr := le_trans (hdown htop) hle₂
        exact (lt_or_eq_of_le hbefore).imp_right fun heq => ⟨heq, hr⟩
      intro _ _
      split
      · exact (listsearch_all h halign hpos hlen hle).imp fun e r he =>
          ⟨he.1, (he.2.1 htop).imp_right fun ⟨heq, hr⟩ => ⟨heq, le_of_eq (hr.trans hhint)⟩⟩
      · exact fromCandidate_down h halign hpos hlen hle htop hroom hhint hprev
    · exact fromCandidate_down h halign hpos hlen hle htop hroom hhint hprev

end

theorem fromEntry_down (htop : m.topdown = true)
    (hok : length ≤ m.start (m.next entry) ∨ 2 ^ 64 ≤ m.aligned align (m.edge length entry) + length) :
    (m.fromEntry length align entry).All fun e r => m.Placed length align e r ∧
      (e < entry ∨ e = entry ∧ r = m.aligned align (m.edge length entry)) := by
  have hedge : m.edge length entry < 2 ^ 64 := edge_lt h hle
  obtain ⟨hdvd, -, hdown, -⟩ := aligned_cases (m := m) halign hedge
  apply tryAt_all halign hpos hlen hedge
  · intro hfits
    exact ⟨⟨hle, hfits, hdvd⟩, .inr ⟨rfl, rfl⟩⟩
  intro hmiss hlt
  have hroom := hok.resolve_right (Nat.not_le.mpr hlt)
  have hstart := lt_of_le_of_lt (h.start_le_max (next_le entry)) h.max_lt
  have heq : m.edge length entry = m.start (m.next entry) - length := by
    rw [edge, if_pos htop, vsub_of_le hstart hroom]
  have hend : m.aligned align (m.edge length entry) + length ≤ m.start (m.next entry) := by
    have hdown := hdown htop
    omega
  apply (nextgap_down h halign hpos hlen hle htop hend rfl).imp
  intro e r ⟨hplaced, hin⟩
  refine ⟨hplaced, ?_⟩
  rcases hin with hlt | ⟨rfl, hr⟩
  · exact .inl hlt
  · exact absurd ⟨le_trans hplaced.fits.1 hr, hend⟩ hmiss

end Search

section First
variable (h : m.WellFormed) (hmin : m.vmMapMin ≤ hint)
include h hmin

theorem searchStart_le : m.searchStart hint ≤ m.entries.length := by
  obtain ⟨hlook, -⟩ := h.lookup_spec hmin
  have hle := hlook.le
  unfold searchStart
  split
  · exact h.firstFree
  split
  · unfold prev
    split <;> omega
  · exact hle

theorem start_searchStart_le (hne : hint ≠ m.vmMapMin) (hpos : 0 < m.searchStart hint) : m.start (m.searchStart hint) ≤ hint := by
  obtain ⟨hlook, -⟩ := h.lookup_spec hmin
  unfold searchStart at hpos ⊢
  rw [if_neg hne] at hpos ⊢
  cases hin : (m.uvmMapLookupEntry hint).1 with
  | false =>
    rw [hin] at hpos
    have hstops := hlook.stops hin
    have hentry := h.nonempty _ (by simpa using hpos) hlook.le
    exact le_trans (le_of_lt hentry) hstops
  | true =>
    rw [hin] at hpos
    have hcontains := (hlook.contains hin _).mpr rfl
    split
    · next htop =>
      rw [if_pos htop, prev, if_neg (ne_of_gt hcontains.1)] at hpos
      rw [prev, if_neg (ne_of_gt hcontains.1)]
      exact le_trans (le_of_lt (h.start_lt hpos (Nat.sub_lt hcontains.1 one_pos) hlook.le)) hcontains.2.2.1
    · exact hcontains.2.2.1

theorem le_hint_of_lt (hlt : e < m.searchStart hint) (hpos : 0 < length) (hplaced : m.Placed length align e r) : r ≤ hint := by
  have hfits := hplaced.fits
  by_cases heq : hint = m.vmMapMin
  · rw [searchStart, if_pos heq] at hlt
    have hfull := h.full e hlt
    have hstop := hfits.1
    have hend := hfits.2
    omega
  · have hnext := h.start_next_le_start hlt (searchStart_le h hmin)
    have hstart := start_searchStart_le h hmin heq (Nat.lt_of_le_of_lt (Nat.zero_le e) hlt)
    have hend := hfits.2
    omega

theorem fromEntry_top (halign : Alignment align) (hpos : 0 < length) (hlen : length < 2 ^ 64) (htop : m.topdown = true)
    (hok : ¬ m.Astray hint length align)
    (hfirst : hint = m.vmMapMin ∨ ¬ m.Fits length (m.searchStart hint) (m.aligned align hint) ∨ m.start (m.next (m.searchStart hint)) ≤ hint) :
    (m.fromEntry length align (m.searchStart hint)).All fun e r => m.Placed length align e r ∧ r ≤ hint := by
  have hroom : length ≤ m.start (m.next (m.searchStart hint)) ∨ 2 ^ 64 ≤ m.aligned align (m.edge length (m.searchStart hint)) + length := by
    by_contra hunder
    rw [not_or, not_le, not_le] at hunder
    exact hok (.inl ⟨htop, .inr hunder⟩)
  apply (fromEntry_down h halign hpos hlen (searchStart_le h hmin) htop hroom).imp
  intro e r ⟨hplaced, hin⟩
  refine ⟨hplaced, ?_⟩
  rcases hin with hlt | ⟨rfl, rfl⟩
  · exact le_hint_of_lt h hmin hlt hpos hplaced
  by_contra hover
  have hfirst' : hint = m.vmMapMin ∨ ¬ m.Fits length (m.searchStart hint) (m.aligned align hint) := by
    rcases hfirst with heq | hmiss | hle
    · exact .inl heq
    · exact .inr hmiss
    · have hend := hplaced.fits.2
      omega
  exact hok (.inl ⟨htop, .inl ⟨hfirst', hplaced.fits, Nat.lt_of_not_le hover⟩⟩)

end First

end VmMap

/-- Unless the search goes astray, what is found is where it was asked for. -/
theorem findspace_admissible {m : VmMap} {hint length align : Nat} {fixed : Bool} (h : m.WellFormed) (hmin : m.vmMapMin ≤ hint)
    (hmax : hint ≤ m.vmMapMax) (hpos : 0 < length) (hsum : hint + length < 2 ^ 64) (halign : Alignment align)
    (hfixed : fixed = true → align = 0) (hok : fixed = false → ¬ m.Astray hint length align) :
    (m.uvmMapFindspace hint length align fixed).1.All fun e r => m.Admissible hint length align fixed e r := by
  have hlen : length < 2 ^ 64 := by omega
  have hword := lt_of_le_of_lt hmax h.max_lt
  have hstart := VmMap.searchStart_le h hmin
  obtain ⟨hlook, -⟩ := h.lookup_spec hmin
  have hanswer : (m.uvmMapFindspace hint length align fixed).1 = (m.findspaceAt hint length align fixed).1 := by
    unfold VmMap.uvmMapFindspace
    rw [if_neg (by omega)]
    dsimp only
    rw [if_neg (Nat.not_lt.mpr hmin), if_neg (Nat.not_lt.mpr hmax)]
    rcases m.findspaceAt hint length align fixed with ⟨_ | _ | _, m'⟩ <;> rfl
  rw [hanswer]
  -- what the two directions give for a request that is not fixed
  have htops (hfree : fixed = false) {answer : Answer} (htop : m.topdown = true)
      (hall : answer.All fun e r => m.Placed length align e r ∧ r ≤ hint) :
      answer.All fun e r => m.Admissible hint length align fixed e r :=
    hall.imp fun e r he => ⟨he.1, fun _ => he.2, fun hbot => absurd (htop.symm.trans hbot) (by decide),
      fun hfix => absurd (hfree.symm.trans hfix) (by decide)⟩
  have hbots (hfree : fixed = false) {answer : Answer} (hbot : m.topdown = false)
      (hall : answer.All fun e r => m.Placed length align e r ∧ hint ≤ r) :
      answer.All fun e r => m.Admissible hint length align fixed e r :=
    hall.imp fun e r he => ⟨he.1, fun htop => absurd (htop.symm.trans hbot) (by decide), fun _ => he.2,
      fun hfix => absurd (hfree.symm.trans hfix) (by decide)⟩
  unfold VmMap.findspaceAt
  by_cases hbegin : fixed = false ∧ hint = m.vmMapMin
  · rw [if_pos hbegin]
    have hfirst : m.searchStart hint = m.firstFree := if_pos hbegin.2
    cases hdir : m.topdown with
    | true =>
      apply htops hbegin.1 hdir
      rw [← hfirst]
      exact VmMap.fromEntry_top h hmin halign hpos hlen hdir (hok hbegin.1) (.inl hbegin.2)
    | false =>
      apply hbots hbegin.1 hdir
      apply (VmMap.fromEntry_up h halign hpos hlen h.firstFree hdir).imp
      intro e r he
      refine ⟨he.1, ?_⟩
      rw [hbegin.2]
      exact le_trans (h.min_le_stop he.1.le) he.1.fits.1
  rw [if_neg hbegin]
  have hsearch : fixed = false → m.searchStart hint =
      if (m.uvmMapLookupEntry hint).1 ∧ m.topdown then m.prev (m.uvmMapLookupEntry hint).2.1 else (m.uvmMapLookupEntry hint).2.1 :=
    fun hfree => if_neg fun heq => hbegin ⟨hfree, heq⟩
  have hwraps (hfree : fixed = false) (hbot : m.topdown = false) :
      (if (m.uvmMapLookupEntry hint).1 then m.stop (m.searchStart hint) else hint) + align ≤ 2 ^ 64 := by
    by_contra hover
    exact hok hfree (.inr ⟨hbot, fun heq => hbegin ⟨hfree, heq⟩, Nat.lt_of_not_le hover⟩)
  rcases hl : m.uvmMapLookupEntry hint with ⟨inUse, entry, m'⟩
  rw [hl] at hlook hsearch hwraps
  dsimp only at hlook hsearch hwraps ⊢
  cases inUse with
  | true =>
    rw [if_pos rfl]
    have hcontains := (hlook.contains rfl entry).mpr rfl
    cases hfix : fixed with
    | true => trivial
    | false =>
      rw [hfix] at hsearch hwraps hok htops hbots
      specialize hsearch rfl
      rw [if_neg (by decide)]
      cases hdir : m.topdown with
      | true =>
        have heq : m.searchStart hint = m.prev entry := by rw [hsearch, if_pos ⟨rfl, hdir⟩]
        apply htops rfl hdir
        rw [if_pos rfl, ← heq]
        apply VmMap.fromEntry_top h hmin halign hpos hlen hdir (hok rfl)
        right
        right
        have hprev : m.prev entry = entry - 1 := if_neg (ne_of_gt hcontains.1)
        have hle := hcontains.2.1
        have hpos' := hcontains.1
        rw [heq, hprev, VmMap.next_of_lt (by omega), Nat.sub_add_cancel hpos']
        exact hcontains.2.2.1
      | false =>
        have heq : m.searchStart hint = entry := by rw [hsearch, if_neg (by rw [hdir]; decide)]
        apply hbots rfl hdir
        rw [if_neg (by decide)]
        apply (VmMap.fromEntry_up h halign hpos hlen hlook.le hdir).imp
        intro e r he
        have hbehind := hwraps rfl hdir
        rw [if_pos rfl, heq] at hbehind
        exact ⟨he.1, le_trans (le_of_lt hcontains.2.2.2) (he.2 hbehind)⟩
  | false =>
    rw [if_neg (by decide)]
    have hstops := hlook.stops rfl
    cases hfix : fixed with
    | true =>
      rw [if_pos rfl]
      split
      · next hfits =>
        have hend : vaddr (hint + length) = hint + length := VmMap.vaddr_of_lt hsum
        rw [hend] at hfits
        exact ⟨⟨hlook.le, ⟨hstops, hfits.1⟩, fun hne => absurd (hfixed hfix) hne⟩, fun _ => le_refl _, fun _ => le_refl _, fun _ => rfl⟩
      · trivial
    | false =>
      rw [hfix] at hsearch hwraps hok htops hbots
      specialize hsearch rfl
      have heq : m.searchStart hint = entry := by rw [hsearch, if_neg (by simp)]
      obtain ⟨hdvd, hlt, hdown, hup⟩ := VmMap.aligned_cases (m := m) halign hword
      cases hdir : m.topdown with
      | true =>
        apply htops rfl hdir
        apply VmMap.tryAt_all halign hpos hlen hword
        · intro hfits
          exact ⟨⟨hlook.le, hfits, hdvd⟩, hdown hdir⟩
        intro hmiss _
        rw [← heq]
        rw [← heq] at hmiss
        exact VmMap.fromEntry_top h hmin halign hpos hlen hdir (hok rfl) (.inr (.inl hmiss))
      | false =>
        have hbase := hwraps rfl hdir
        rw [if_neg (by decide)] at hbase
        have hge : hint ≤ m.aligned align hint := (hup hdir).resolve_right fun hzero => by omega
        apply hbots rfl hdir
        apply VmMap.tryAt_all halign hpos hlen hword
        · intro hfits
          exact ⟨⟨hlook.le, hfits, hdvd⟩, hge⟩
        intro _ _
        by_cases hlast : m.next entry = 0
        · rw [if_pos hlast]
          trivial
        rw [if_neg hlast]
        apply (VmMap.nextgap_up h halign hpos hlen (VmMap.next_le entry) hdir hlt).imp
        intro e r ⟨hplaced, hbehind⟩
        refine ⟨hplaced, ?_⟩
        rcases hbehind with hbehind | hbehind
        · exact le_trans hge hbehind
        have hfront : hint < m.stop (m.next entry) := by
          by_contra hle
          have hlast' := hlook.last rfl _ (VmMap.next_le entry) (Nat.le_of_not_lt hle)
          unfold VmMap.next at hlast' hlast
          split at hlast'
          · omega
          · next hge' => exact hlast (if_neg hge')
        exact le_trans (le_of_lt hfront) (le_trans (h.stop_mono hbehind hplaced.le) hplaced.fits.1)

/-- Downwards from 0x9000, one page on an alignment of 16 pages is found at the upper end of the map. -/
theorem findspace_admissible_above : (smallMap true).WellFormed ∧ ((smallMap true).uvmMapFindspace 0x9000 0x1000 0x10000 false).1 = .found 2 0xf0000 ∧
    ¬ (smallMap true).Admissible 0x9000 0x1000 0x10000 false 2 0xf0000 :=
  ⟨smallMap_wellFormed true, by decide, fun h => absurd (h.top rfl) (by decide)⟩

/-- Downwards from 0x9000, one page on no alignment is found there. -/
theorem findspace_admissible_there : (smallMap true).Admissible 0x9000 0x1000 0 false 2 0x9000 := by
  have hall : ((smallMap true).uvmMapFindspace 0x9000 0x1000 0 false).1.All fun e r => (smallMap true).Admissible 0x9000 0x1000 0 false e r :=
    findspace_admissible (smallMap_wellFormed true) (by decide) (by decide) (by decide) (by decide) (.inl rfl) (fun _ => rfl) (fun _ => by decide)
  exact hall

end NetBSD.Uvm.Map
