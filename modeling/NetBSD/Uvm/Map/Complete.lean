import NetBSD.Uvm.Map.Admissible

/-! Room is found where there is some.

On no alignment each gap is tried at its edge, so that a part of the search either finds room or has
looked at every gap that it is responsible for (`Answer.Ok`). The one gap that is in no tree is that in
front of the first entry (`Hidden`). -/
namespace NetBSD.Uvm.Map
open Nat
open Lib

/-- There is an answer, and if that is that there is no room, then `P`. -/
def Answer.Ok (P : Prop) : Answer → Prop
  | .found _ _ => True
  | .null => P
  | .stuck => False

theorem Answer.Ok.imp {P Q : Prop} {answer : Answer} (h : answer.Ok P) (hPQ : P → Q) : answer.Ok Q := by
  cases answer with
  | found e r => trivial
  | null => exact hPQ h
  | stuck => exact h

theorem Answer.All.const {P : Prop} (h : P) (answer : Answer) : answer.All fun _ _ => P := by
  cases answer with
  | found e r => exact h
  | null => trivial
  | stuck => trivial

namespace VmMap
variable {m : VmMap} {hint length entry e f r p q n a b : Nat} {P : Prop} {otherwise : Nat → Answer} {t : MaxTree}

/-- There is room behind an entry. -/
def Has (m : VmMap) (length p : Nat) : Prop := m.stop p + length ≤ m.start (m.next p)

theorem Fits.has (h : m.Fits length p r) : m.Has length p := le_trans (Nat.add_le_add_right h.1 _) h.2

theorem aligned_zero (x : Nat) : m.aligned 0 x = x := if_neg fun h => h.1 rfl

section Search
variable (h : m.WellFormed) (hpos : 0 < length) (hlen : length < 2 ^ 64)

include h in
theorem gap_iff (hp : 0 < p) (hle : p ≤ m.entries.length) : length ≤ m.gap p ↔ m.Has length p := by
  have hapart := h.apart p hle
  rw [h.gap p hp hle, Has]
  omega

include hpos hlen

theorem tryAt_ok (hlt : hint < 2 ^ 64) (hwraps : 2 ^ 64 ≤ hint + length → P)
    (hno : ¬ m.Fits length entry hint → hint + length < 2 ^ 64 → (otherwise hint).Ok P) : (m.tryAt hint length 0 entry otherwise).Ok P := by
  unfold tryAt uvmMapSpaceAvail
  rw [aligned_zero]
  dsimp only
  by_cases hover : hint + length < 2 ^ 64
  · rw [vaddr_of_lt hover, if_neg (by omega)]
    by_cases hfits : m.Fits length entry hint
    · rw [if_pos ⟨hfits.2, hfits.1⟩]
      trivial
    · rw [if_neg (fun hfit => hfits ⟨hfit.2, hfit.1⟩)]
      exact hno hfits hover
  · have hstop : vaddr (hint + length) < hint := by
      rw [vaddr]
      omega
    rw [if_pos hstop]
    exact hwraps (Nat.le_of_not_lt hover)

include h

omit hpos hlen in
theorem fits_edge (hhas : m.Has length p) : m.Fits length p (m.edge length p) := by
  have hstart := lt_of_le_of_lt (h.start_le_max (next_le p)) h.max_lt
  unfold Has at hhas
  unfold Fits edge
  split
  · rw [vsub_of_le hstart (by omega)]
    omega
  · exact ⟨le_refl _, hhas⟩

theorem edge_add_lt (hentry : entry ≤ m.entries.length) (hle : p ≤ m.entries.length) (hhas : m.Has length p)
    (htop : m.topdown = true → p ≤ entry) (hbot : m.topdown = false → entry ≤ p) : m.edge length entry + length < 2 ^ 64 := by
  have hmax := h.max_lt
  unfold Has at hhas
  unfold edge
  split
  · next hdir =>
    have hmono := h.start_next_le (htop hdir) hentry
    have hstart := h.start_le_max (next_le (m := m) entry)
    rw [vsub_of_le (by omega) (by omega)]
    omega
  · next hdir =>
    have hmono := h.stop_mono (hbot (Bool.eq_false_iff.mpr hdir)) hle
    have hstart := h.start_le_max (next_le (m := m) p)
    omega

theorem tryEdge_ok (hle : entry ≤ m.entries.length) (hwraps : 2 ^ 64 ≤ m.edge length entry + length → P)
    (hno : ¬ m.Has length entry → m.edge length entry + length < 2 ^ 64 → (otherwise (m.edge length entry)).Ok P) :
    (m.tryAt (m.edge length entry) length 0 entry otherwise).Ok P := by
  apply tryAt_ok hpos hlen (edge_lt h hle) hwraps
  intro hmiss hlt
  apply hno _ hlt
  intro hhas
  exact hmiss (fits_edge h hhas)

theorem listsearch_down_ok (htop : m.topdown = true) (hle : entry ≤ m.entries.length) (hfuel : entry < n) :
    (m.listsearch length 0 n entry).Ok (∀ p ≤ entry, ¬ m.Has length p) := by
  induction n generalizing entry with
  | zero => exact absurd hfuel (Nat.not_lt_zero _)
  | succ n ih =>
    apply tryEdge_ok h hpos hlen hle
    · intro hwraps p hp hhas
      have hlt := edge_add_lt h hpos hlen hle (le_trans hp hle) hhas (fun _ => hp) (fun hbot => absurd (htop.symm.trans hbot) (by decide))
      omega
    intro hno _
    rw [if_pos htop]
    by_cases hzero : entry = 0
    · rw [if_pos hzero]
      intro p hp
      rw [hzero] at hno hp
      rwa [eq_zero_of_le_zero hp]
    rw [if_neg hzero, prev, if_neg hzero]
    apply (ih (by omega) (by omega)).imp
    intro hall p hp
    rcases lt_or_eq_of_le hp with hlt | rfl
    · exact hall p (le_pred_of_lt hlt)
    · exact hno

theorem listsearch_up_ok (hbot : m.topdown = false) (hle : entry ≤ m.entries.length) (hfuel : m.entries.length < n + entry) :
    (m.listsearch length 0 n entry).Ok (∀ p, entry ≤ p → p ≤ m.entries.length → ¬ m.Has length p) := by
  induction n generalizing entry with
  | zero => exact absurd hle (by omega)
  | succ n ih =>
    apply tryEdge_ok h hpos hlen hle
    · intro hwraps p hp hle' hhas
      have hlt := edge_add_lt h hpos hlen hle hle' hhas (fun htop => absurd (htop.symm.trans hbot) (by decide)) (fun _ => hp)
      omega
    intro hno _
    rw [if_neg (by rw [hbot]; decide)]
    rcases lt_or_eq_of_le hle with hlt | heq
    · rw [next_of_lt hlt]
      apply (ih hlt (by omega)).imp
      intro hall p hp hle'
      rcases lt_or_eq_of_le hp with hlt' | rfl
      · exact hall p hlt' hle'
      · exact hno
    · rw [heq, next_last]
      intro p hp hle'
      rwa [le_antisymm hle' hp, ← heq]

omit hlen in
/-- The second way down ends at room when there is some in the tree. -/
theorem dig_ok (hspans : t.Spans a b) (haug : t.Augmented m.gap m.maxgap) (ha : 0 < a) (hb : b ≤ m.entries.length + 1)
    (htop : length ≤ t.top m.maxgap) : ∃ p, m.dig length t = some p ∧ a ≤ p ∧ p < b ∧ m.Has length p := by
  suffices hdig : ∃ p, m.dig length t = some p ∧ length ≤ m.gap p by
    obtain ⟨p, hp, hgap⟩ := hdig
    have hin := dig_spec hspans hp
    exact ⟨p, hp, hin.1, hin.2, (gap_iff h (by omega) (by omega)).mp hgap⟩
  clear hspans ha hb
  induction t with
  | nil => exact absurd htop (Nat.not_le.mpr hpos)
  | node left cur right ihl ihr =>
    change length ≤ m.maxgap cur at htop
    rw [haug.2.2, le_max_iff, le_max_iff] at htop
    unfold dig
    split
    · by_cases hright : right ≠ .nil ∧ right.top m.maxgap ≥ length
      · rw [if_pos hright]
        exact ihr haug.2.1 hright.2
      rw [if_neg hright]
      by_cases hgap : m.gap cur ≥ length
      · rw [if_pos hgap]
        exact ⟨cur, rfl, hgap⟩
      rw [if_neg hgap]
      have hright' : ¬ length ≤ right.top m.maxgap := by
        intro hle
        cases right with
        | nil => exact absurd hle (Nat.not_le.mpr hpos)
        | node _ _ _ => exact hright ⟨MaxTree.noConfusion, hle⟩
      exact ihl haug.1 ((htop.resolve_right hright').resolve_left hgap)
    by_cases hleft : left ≠ .nil ∧ left.top m.maxgap ≥ length
    · rw [if_pos hleft]
      exact ihl haug.1 hleft.2
    rw [if_neg hleft]
    by_cases hgap : m.gap cur ≥ length
    · rw [if_pos hgap]
      exact ⟨cur, rfl, hgap⟩
    rw [if_neg hgap]
    have hleft' : ¬ length ≤ left.top m.maxgap := by
      intro hle
      cases left with
      | nil => exact absurd hle (Nat.not_le.mpr hpos)
      | node _ _ _ => exact hleft ⟨MaxTree.noConfusion, hle⟩
    exact ihr haug.2.1 (htop.resolve_left fun hor => hor.elim hgap hleft')

omit hlen in
theorem Candidate.exists_has {prev : TreeNode} (hprev : m.Candidate hint length prev) : ∃ p, 0 < p ∧ p ≤ m.entries.length ∧ m.Has length p ∧
    (m.topdown = true → p ≤ prev.place) ∧ (m.topdown = false → prev.place ≤ p) ∧ (m.Has length prev.place ∨ m.dig length (m.far prev) = some p) := by
  have hplace := hprev.inTree.place
  rcases hprev.room with hgap | ⟨-, hfar⟩
  · have hhas := (gap_iff h hplace.1 hplace.2).mp hgap
    exact ⟨prev.place, hplace.1, hplace.2, hhas, fun _ => le_refl _, fun _ => le_refl _, .inl hhas⟩
  obtain ⟨a, b, ha, hb, hleft, hright⟩ := hprev.inTree.spans
  cases hdir : m.topdown with
  | true =>
    have heq : m.far prev = prev.left := by rw [far, if_pos hdir]
    rw [heq] at hfar ⊢
    obtain ⟨p, hdig, hp, hlt, hhas⟩ := dig_ok h hpos hleft hprev.inTree.left ha (by omega) hfar
    exact ⟨p, by omega, by omega, hhas, fun _ => le_of_lt hlt, fun hbot => absurd hbot (by decide), .inr hdig⟩
  | false =>
    have heq : m.far prev = prev.right := by rw [far, if_neg (by rw [hdir]; decide)]
    rw [heq] at hfar ⊢
    obtain ⟨p, hdig, hp, hlt, hhas⟩ := dig_ok h hpos hright hprev.inTree.right (succ_pos _) hb hfar
    exact ⟨p, by omega, by omega, hhas, fun htop => absurd htop (by decide), fun _ => by omega, .inr hdig⟩

theorem fromCandidate_ok {prev : Option TreeNode} (hprev : ∀ node ∈ prev, m.Candidate hint length node) (hnone : prev = none → P) :
    (m.fromCandidate length 0 entry prev).Ok P := by
  cases prev with
  | none => exact hnone rfl
  | some prev =>
    have hcand := hprev prev rfl
    have hplace := hcand.inTree.place
    obtain ⟨p, hp, hle, hhas, htop, hbot, hroom⟩ := hcand.exists_has h hpos
    apply tryEdge_ok h hpos hlen hplace.2
    · have hlt := edge_add_lt h hpos hlen hplace.2 hle hhas htop hbot
      omega
    intro hno _
    rw [if_neg (mt (gap_iff h hplace.1 hplace.2).mp hno)]
    have hdig : m.dig length (if m.topdown then prev.left else prev.right) = some p := hroom.resolve_left hno
    rw [hdig]
    apply tryEdge_ok h hpos hlen hle
    · have hlt := edge_add_lt h hpos hlen hle hle hhas (fun _ => le_refl _) (fun _ => le_refl _)
      omega
    · intro hno' _
      exact absurd hhas hno'

omit h hpos hlen in
theorem remember_isSome {tmp : TreeNode} {prev : Option TreeNode} (hprev : prev.isSome) : (m.remember hint length tmp prev).isSome := by
  unfold remember
  dsimp only
  generalize (if m.topdown = true then tmp.left else tmp.right) = child
  generalize (if m.topdown = true then _ else _ : Bool) = nearer
  split
  · rfl
  · exact hprev

omit h hpos hlen in
theorem descend_isSome {parent : TreeNode} {prev : Option TreeNode} (hprev : prev.isSome) : (m.descend hint length t parent prev).2.isSome := by
  induction t generalizing parent prev with
  | nil => exact hprev
  | node left cur right ihl ihr =>
    have hnew : (m.remember hint length ⟨left, cur, right⟩ prev).isSome := remember_isSome hprev
    unfold descend
    dsimp only
    split_ifs
    all_goals first | exact hnew | exact ihl hnew | exact ihr hnew

omit hlen in
/-- Upwards, a candidate is found where there is room behind an entry `p` behind `f`. -/
theorem descend_up (hbot : m.topdown = false) (hfront : ∀ cur, 0 < cur → cur ≤ f → m.start (m.next cur) < vaddr (hint + length))
    (hback : ∀ cur, f < cur → cur ≤ m.entries.length → hint < m.stop cur) (hp : f < p) (hhas : m.Has length p)
    (hover : ∀ cur, p ≤ cur → cur ≤ m.entries.length → vaddr (hint + length) ≤ m.start (m.next cur))
    {parent : TreeNode} {prev : Option TreeNode} (hspans : t.Spans a b) (haug : t.Augmented m.gap m.maxgap) (ha : 0 < a)
    (hb : b ≤ m.entries.length + 1) (hin : prev.isSome ∨ a ≤ p ∧ p < b) : (m.descend hint length t parent prev).2.isSome := by
  induction t generalizing a b parent prev with
  | nil =>
    rcases hin with hsome | hin
    · exact hsome
    · exact absurd hspans (Nat.ne_of_lt (Nat.lt_of_le_of_lt hin.1 hin.2))
  | node left cur right ihl ihr =>
    rcases hin with hsome | ⟨hap, hpb⟩
    · exact descend_isSome hsome
    obtain ⟨hacur, hcurb⟩ := hspans.root
    have hgap : length ≤ m.gap p := (gap_iff h (by omega) (by omega)).mpr hhas
    rcases lt_trichotomy p cur with hlt | heq | hgt
    · -- the room is in the left subtree
      have hleft : length ≤ left.top m.maxgap := le_trans hgap (haug.1.le_top hspans.1 hap hlt)
      unfold descend
      dsimp only
      rw [if_neg (Nat.not_lt.mpr (hover cur (le_of_lt hlt) (by omega))), if_pos (hback cur (by omega) (by omega)), if_neg (Nat.not_lt.mpr hleft)]
      exact ihl hspans.1 haug.1 ha (by omega) (.inr ⟨hap, hlt⟩)
    · have hsome : (m.remember hint length ⟨left, cur, right⟩ prev).isSome := by
        cases prev with
        | some prev => exact remember_isSome rfl
        | none =>
          unfold remember
          have hnear := hback cur (by omega) (by omega)
          rw [if_pos]
          · rfl
          · simp only [hbot, Bool.false_eq_true, if_false, Option.all_none, Bool.and_true, decide_eq_true_eq]
            exact ⟨le_of_lt hnear, .inl (heq ▸ hgap)⟩
      unfold descend
      dsimp only
      split_ifs
      all_goals first | exact hsome | exact descend_isSome hsome
    have hright : length ≤ right.top m.maxgap := le_trans hgap (haug.2.1.le_top hspans.2 hgt hpb)
    by_cases hcur : cur ≤ f
    · unfold descend
      dsimp only
      rw [if_pos (hfront cur (by omega) hcur), if_neg (Nat.not_lt.mpr hright)]
      exact ihr hspans.2 haug.2.1 (succ_pos cur) hb (.inr ⟨hgt, hpb⟩)
    have hsome : (m.remember hint length ⟨left, cur, right⟩ prev).isSome := by
      cases prev with
      | some prev => exact remember_isSome rfl
      | none =>
        unfold remember
        have hnear := hback cur (by omega) (by omega)
        have hchild : right ≠ .nil := fun hnil => by
          rw [hnil] at hright
          exact absurd hright (Nat.not_le.mpr hpos)
        rw [if_pos]
        · rfl
        · simp only [hbot, Bool.false_eq_true, if_false, Option.all_none, Bool.and_true, decide_eq_true_eq]
          exact ⟨le_of_lt hnear, .inr ⟨hchild, hright⟩⟩
    unfold descend
    dsimp only
    split_ifs
    all_goals first | exact hsome | exact descend_isSome hsome

omit hlen in
/-- Downwards, one is found where there is room behind an entry `p` in front of `e`. -/
theorem descend_down (htop : m.topdown = true) (hfront : ∀ cur, 0 < cur → cur < e → m.start (m.next cur) < vaddr (hint + length))
    (hback : ∀ cur, e ≤ cur → cur ≤ m.entries.length → vaddr (hint + length) ≤ m.start (m.next cur) ∧ hint < m.stop cur) (hp : p < e)
    (hhas : m.Has length p) {parent : TreeNode} {prev : Option TreeNode} (hspans : t.Spans a b) (haug : t.Augmented m.gap m.maxgap)
    (ha : 0 < a) (hb : b ≤ m.entries.length + 1) (hin : prev.isSome ∨ a ≤ p ∧ p < b) :
    (m.descend hint length t parent prev).2.isSome := by
  induction t generalizing a b parent prev with
  | nil =>
    rcases hin with hsome | hin
    · exact hsome
    · exact absurd hspans (Nat.ne_of_lt (Nat.lt_of_le_of_lt hin.1 hin.2))
  | node left cur right ihl ihr =>
    rcases hin with hsome | ⟨hap, hpb⟩
    · exact descend_isSome hsome
    obtain ⟨hacur, hcurb⟩ := hspans.root
    have hgap : length ≤ m.gap p := (gap_iff h (by omega) (by omega)).mpr hhas
    have hremember (hlt : cur < e) (hroom : length ≤ m.gap cur ∨ left ≠ .nil ∧ length ≤ left.top m.maxgap) :
        (m.descend hint length (.node left cur right) parent prev).2.isSome := by
      have hsome : (m.remember hint length ⟨left, cur, right⟩ prev).isSome := by
        cases prev with
        | some prev => exact remember_isSome rfl
        | none =>
          unfold remember
          rw [if_pos]
          · rfl
          · simp only [htop, if_true, Option.all_none, Bool.and_true, decide_eq_true_eq]
            exact ⟨hfront cur (by omega) hlt, hroom⟩
      unfold descend
      dsimp only
      split_ifs
      all_goals first | exact hsome | exact descend_isSome hsome
    rcases lt_trichotomy p cur with hlt | heq | hgt
    · have hleft : length ≤ left.top m.maxgap := le_trans hgap (haug.1.le_top hspans.1 hap hlt)
      by_cases hcur : cur < e
      · apply hremember hcur (.inr ⟨fun hnil => ?_, hleft⟩)
        rw [hnil] at hleft
        exact absurd hleft (Nat.not_le.mpr hpos)
      obtain ⟨hover, hnear⟩ := hback cur (Nat.le_of_not_lt hcur) (by omega)
      unfold descend
      dsimp only
      rw [if_neg (Nat.not_lt.mpr hover), if_pos hnear, if_neg (Nat.not_lt.mpr hleft)]
      exact ihl hspans.1 haug.1 ha (by omega) (.inr ⟨hap, hlt⟩)
    · exact hremember (heq ▸ hp) (.inl (heq ▸ hgap))
    · have hright : length ≤ right.top m.maxgap := le_trans hgap (haug.2.1.le_top hspans.2 hgt hpb)
      unfold descend
      dsimp only
      rw [if_pos (hfront cur (by omega) (lt_trans hgt hp)), if_neg (Nat.not_lt.mpr hright)]
      exact ihr hspans.2 haug.2.1 (succ_pos cur) hb (.inr ⟨hgt, hpb⟩)

/-- Upwards from an address at or behind the gap of `f`, which has no room from there on. -/
theorem nextgap_up_ok (hbot : m.topdown = false) (hf : f ≤ m.entries.length) (hentry : entry ≤ m.entries.length) (hfrom : entry ≤ f + 1)
    (hstop : m.stop f ≤ hint) (hstart : ∀ cur, f < cur → cur ≤ m.entries.length → hint ≤ m.start cur)
    (hno : m.start (m.next f) < hint + length) (hlt : hint + length < 2 ^ 64) :
    (m.nextgap hint length 0 entry).Ok (∀ p, f < p → p ≤ m.entries.length → ¬ m.Has length p) := by
  have hword : vaddr (hint + length) = hint + length := vaddr_of_lt hlt
  have hfront (cur : Nat) (hcur : 0 < cur) (hle : cur ≤ f) : m.start (m.next cur) < vaddr (hint + length) := by
    rw [hword]
    rcases lt_or_eq_of_le hle with hbefore | rfl
    · have hnext := h.start_next_le_start hbefore hf
      have hentry := h.nonempty f (by omega) hf
      omega
    · exact hno
  have hback (cur : Nat) (hcur : f < cur) (hle : cur ≤ m.entries.length) : hint < m.stop cur :=
    lt_of_le_of_lt (hstart cur hcur hle) (h.nonempty cur (by omega) hle)
  have hlist : (m.listsearchFrom length 0 entry).Ok (∀ p, f < p → p ≤ m.entries.length → ¬ m.Has length p) :=
    (listsearch_up_ok h hpos hlen hbot hentry (by omega)).imp fun hall p hp hle => hall p (by omega) hle
  unfold nextgap
  have hspans := h.spans
  have haug := h.maxgap
  cases htree : m.rbTree with
  | nil =>
    rw [htree] at hspans
    have hempty : 1 = m.entries.length + 1 := hspans
    intro p hp hle
    omega
  | node left root right =>
    rw [htree] at hspans haug
    dsimp only
    by_cases htop : m.maxgap root < length
    · rw [if_pos htop]
      intro p hp hle hhas
      have hgap := (gap_iff h (by omega) hle).mpr hhas
      have hbelow : m.gap p ≤ m.maxgap root := haug.le_top hspans (by omega) (by omega)
      omega
    rw [if_neg htop]
    obtain ⟨htmp, hprev⟩ := descend_root hint length hspans haug
    have hcand : (m.fromCandidate length 0 entry (m.descend hint length (.node left root right) ⟨left, root, right⟩ none).2).Ok
        (∀ p, f < p → p ≤ m.entries.length → ¬ m.Has length p) := by
      apply fromCandidate_ok h hpos hlen hprev
      intro hnone p hp hle hhas
      have hover (cur : Nat) (hcur : p ≤ cur) (hcurle : cur ≤ m.entries.length) : vaddr (hint + length) ≤ m.start (m.next cur) := by
        have hmono := h.start_next_le hcur hcurle
        have hnear := hback p hp hle
        unfold Has at hhas
        omega
      have hsome : (m.descend hint length (.node left root right) ⟨left, root, right⟩ none).2.isSome :=
        descend_up h hpos hbot hfront hback hp hhas hover hspans haug one_pos (le_refl _) (.inr ⟨by omega, by omega⟩)
      rw [hnone] at hsome
      cases hsome
    split
    · next hnear =>
      have hplace := htmp.place
      have hbefore : (m.descend hint length (.node left root right) ⟨left, root, right⟩ none).1.place ≤ f := by
        by_contra hgt
        have hge := hstart _ (Nat.lt_of_not_le hgt) hplace.2
        omega
      have hbelow := h.stop_mono hbefore hf
      rw [if_neg (by rw [hbot]; decide), if_neg (by omega)]
      apply tryAt_ok hpos hlen (by omega)
      · omega
      intro _ _
      split
      · exact hlist
      · exact hcand
    · exact hcand

/-- Downwards from the edge of the gap of an entry, which is below the gap. -/
theorem nextgap_down_ok (htop : m.topdown = true) (hle : entry ≤ m.entries.length) (hroom : length ≤ m.start (m.next entry))
    (hhint : hint = m.start (m.next entry) - length) (hno : hint < m.stop entry) :
    (m.nextgap hint length 0 entry).Ok (∀ p, 0 < p → p < entry → ¬ m.Has length p) ∧
      (m.nextgap hint length 0 entry).All fun _ _ => ∃ p, 0 < p ∧ p ≤ entry ∧ m.Has length p := by
  have hmax := lt_of_le_of_lt (h.start_le_max (next_le entry)) h.max_lt
  have hword : vaddr (hint + length) = m.start (m.next entry) := by
    rw [hhint, Nat.sub_add_cancel hroom, vaddr_of_lt hmax]
  have hfront (cur : Nat) (_ : 0 < cur) (hlt : cur < entry) : m.start (m.next cur) < vaddr (hint + length) := by
    have hnext := h.start_next_le_start hlt hle
    have hentry := h.nonempty entry (by omega) hle
    have hapart := h.apart entry hle
    omega
  have hback (cur : Nat) (hge : entry ≤ cur) (hcur : cur ≤ m.entries.length) :
      vaddr (hint + length) ≤ m.start (m.next cur) ∧ hint < m.stop cur :=
    ⟨hword ▸ h.start_next_le hge hcur, lt_of_lt_of_le hno (h.stop_mono hge hcur)⟩
  have hlist : (m.listsearchFrom length 0 entry).Ok (∀ p, 0 < p → p < entry → ¬ m.Has length p) :=
    (listsearch_down_ok h hpos hlen htop hle (by omega)).imp fun hall p _ hp => hall p (le_of_lt hp)
  unfold nextgap
  have hspans := h.spans
  have haug := h.maxgap
  cases htree : m.rbTree with
  | nil =>
    rw [htree] at hspans
    have hempty : 1 = m.entries.length + 1 := hspans
    exact ⟨fun p hp hlt => by omega, trivial⟩
  | node left root right =>
    rw [htree] at hspans haug
    dsimp only
    by_cases hlow : m.maxgap root < length
    · rw [if_pos hlow]
      refine ⟨fun p hp hlt hhas => ?_, trivial⟩
      have hgap := (gap_iff h hp (by omega)).mpr hhas
      have hbelow : m.gap p ≤ m.maxgap root := haug.le_top hspans hp (by omega)
      omega
    rw [if_neg hlow]
    obtain ⟨htmp, hprev⟩ := descend_root hint length hspans haug
    have hsome (p : Nat) (hp : 0 < p) (hlt : p < entry) (hhas : m.Has length p) :
        (m.descend hint length (.node left root right) ⟨left, root, right⟩ none).2.isSome :=
      descend_down h hpos htop hfront hback hlt hhas hspans haug one_pos (le_refl _) (.inr ⟨hp, by omega⟩)
    have hplace := htmp.place
    generalize (m.descend hint length (.node left root right) ⟨left, root, right⟩ none).1 = tmp at *
    generalize (m.descend hint length (.node left root right) ⟨left, root, right⟩ none).2 = prev at *
    have hcand : (m.fromCandidate length 0 entry prev).Ok (∀ p, 0 < p → p < entry → ¬ m.Has length p) := by
      apply fromCandidate_ok h hpos hlen hprev
      intro hnone p hp hlt hhas
      have hsome := hsome p hp hlt hhas
      rw [hnone] at hsome
      cases hsome
    have hcandHas : (m.fromCandidate length 0 entry prev).All fun _ _ => ∃ p, 0 < p ∧ p ≤ entry ∧ m.Has length p := by
      cases prev with
      | none => trivial
      | some prev =>
        obtain ⟨p, hp, hple, hhas, hdown, -⟩ := (hprev prev rfl).exists_has h hpos
        apply Answer.All.const
        refine ⟨p, hp, ?_, hhas⟩
        have hprevtop := (hprev prev rfl).top htop
        have hprevplace := (hprev prev rfl).inTree.place
        by_contra hgt
        have hmono := h.start_next_le (show entry ≤ prev.place by have := hdown htop; omega) hprevplace.2
        omega
    split
    · next hnear =>
      have hbefore : tmp.place ≤ entry := by
        by_contra hgt
        have hmono := h.start_next_le_start (Nat.lt_of_not_le hgt) hplace.2
        omega
      generalize hhint₂ : (if hint > vsub (m.start (m.next tmp.place)) length then vsub (m.start (m.next tmp.place)) length
        else hint) = hint₂
      have hle₂ : hint₂ ≤ hint := by
        rw [← hhint₂]
        split
        · next hgt => exact le_of_lt hgt
        · exact le_refl _
      constructor
      · apply tryAt_ok hpos hlen (by omega)
        · omega
        intro _ _
        split
        · exact hlist
        · exact hcand
      apply tryAt_all (.inl rfl) hpos hlen (by omega)
      · intro hfits
        exact ⟨tmp.place, hplace.1, hbefore, hfits.has⟩
      intro _ _
      split
      · next hgap =>
        apply Answer.All.const
        exact ⟨tmp.place, hplace.1, hbefore, (gap_iff h hplace.1 hplace.2).mp hgap⟩
      · exact hcandHas
    · exact ⟨hcand, hcandHas⟩

theorem fromEntry_up_ok (hbot : m.topdown = false) (hle : entry ≤ m.entries.length) :
    (m.fromEntry length 0 entry).Ok (∀ p, entry ≤ p → p ≤ m.entries.length → ¬ m.Has length p) := by
  have hedge : m.edge length entry = m.stop entry := if_neg (by rw [hbot]; decide)
  apply tryEdge_ok h hpos hlen hle
  · intro hwraps p hp hple hhas
    have hlt := edge_add_lt h hpos hlen hle hple hhas (fun htop => absurd (htop.symm.trans hbot) (by decide)) (fun _ => hp)
    omega
  intro hno hlt
  rw [hedge] at hlt ⊢
  apply (nextgap_up_ok h hpos hlen hbot hle hle (le_succ entry) (le_refl _) (fun cur hcur hcurle => h.stop_le_start hcur hcurle)
    (Nat.lt_of_not_le hno) hlt).imp
  intro hall p hp hple
  rcases lt_or_eq_of_le hp with hlt' | rfl
  · exact hall p hlt' hple
  · exact hno

/-- What a search downwards has looked at is all but the gap in front of the first entry. -/
theorem fromEntry_down_ok (htop : m.topdown = true) (hle : entry ≤ m.entries.length) :
    (m.fromEntry length 0 entry).Ok (∀ p ≤ entry, 0 < p ∨ p = entry → ¬ m.Has length p) ∧
      (0 < entry → (m.fromEntry length 0 entry).All fun _ _ => ∃ p, 0 < p ∧ p ≤ entry ∧ m.Has length p) := by
  have hmax := lt_of_le_of_lt (h.start_le_max (next_le entry)) h.max_lt
  have hdown (hno : ¬ m.Has length entry) (hlt : m.edge length entry + length < 2 ^ 64) :
      length ≤ m.start (m.next entry) ∧ m.edge length entry = m.start (m.next entry) - length ∧ m.edge length entry < m.stop entry := by
    have hroom : length ≤ m.start (m.next entry) := by
      rw [edge, if_pos htop, vsub, vaddr] at hlt
      omega
    have hedge : m.edge length entry = m.start (m.next entry) - length := by rw [edge, if_pos htop, vsub_of_le hmax hroom]
    unfold Has at hno
    exact ⟨hroom, hedge, by omega⟩
  constructor
  · apply tryEdge_ok h hpos hlen hle
    · intro hwraps p hp _ hhas
      have hlt := edge_add_lt h hpos hlen hle (le_trans hp hle) hhas (fun _ => hp) (fun hbot => absurd (htop.symm.trans hbot) (by decide))
      omega
    intro hno hlt
    obtain ⟨hroom, hedge, hbelow⟩ := hdown hno hlt
    apply (nextgap_down_ok h hpos hlen htop hle hroom hedge hbelow).1.imp
    intro hall p hp hor
    rcases lt_or_eq_of_le hp with hlt' | rfl
    · exact hall p (hor.resolve_right (Nat.ne_of_lt hlt')) hlt'
    · exact hno
  · intro hfirst
    apply tryAt_all (.inl rfl) hpos hlen (edge_lt h hle)
    · intro hfits
      exact ⟨entry, hfirst, le_refl _, hfits.has⟩
    intro hmiss hlt
    obtain ⟨hroom, hedge, hbelow⟩ := hdown (fun hhas => hmiss (fits_edge h hhas)) hlt
    exact (nextgap_down_ok h hpos hlen htop hle hroom hedge hbelow).2

end Search

/-! ### The whole search -/

/-- Downwards, there is room in front of the first entry, which ends at or below the hint, and none at or
below the hint behind an entry. -/
def Hidden (m : VmMap) (hint length : Nat) : Prop :=
  m.topdown = true ∧ 0 < m.entries.length ∧ m.stop 1 ≤ hint ∧ m.Has length 0 ∧
    ∀ p, 0 < p → p ≤ m.entries.length → ∀ r ≤ hint, ¬ m.Fits length p r

/-- There is an answer, and if that is that there is no room, then there is none on the right side of
the hint. -/
def Complete (m : VmMap) (hint length : Nat) (answer : Answer) : Prop :=
  answer.Ok (∀ p ≤ m.entries.length, ∀ r, m.Fits length p r → ¬ if m.topdown then r ≤ hint else hint ≤ r)

section Whole
variable (h : m.WellFormed) (hmin : m.vmMapMin ≤ hint)
include h hmin

omit h in
theorem findspace_eq (hmax : hint ≤ m.vmMapMax) (align : Nat) (fixed : Bool) :
    (m.uvmMapFindspace hint length align fixed).1 = (m.findspaceAt hint length align fixed).1 := by
  unfold uvmMapFindspace
  rw [if_neg fun hbelow => Nat.not_lt.mpr hmin hbelow.1]
  dsimp only
  rw [if_neg (Nat.not_lt.mpr hmin), if_neg (Nat.not_lt.mpr hmax)]
  rcases m.findspaceAt hint length align fixed with ⟨_ | _ | _, m'⟩ <;> rfl

omit h hmin in
theorem findspaceAt_down (htop : m.topdown = true) (align hint length : Nat) :
    (m.findspaceAt hint length align false).1 = m.fromEntry length align (m.searchStart hint) ∨ (m.findspaceAt hint length align false).1 =
        m.tryAt hint length align (m.searchStart hint) fun _ => m.fromEntry length align (m.searchStart hint) := by
  unfold findspaceAt searchStart
  by_cases hbegin : hint = m.vmMapMin
  · rw [if_pos ⟨rfl, hbegin⟩, if_pos hbegin]
    exact .inl rfl
  rw [if_neg fun hand => hbegin hand.2, if_neg hbegin]
  rcases m.uvmMapLookupEntry hint with ⟨_ | _, entry, m'⟩
  · right
    simp [htop]
  · left
    simp [htop]

theorem le_searchStart (htop : m.topdown = true) (hle : p ≤ m.entries.length) (hstop : m.stop p ≤ hint) : p ≤ m.searchStart hint := by
  obtain ⟨hlook, -⟩ := h.lookup_spec hmin
  unfold searchStart
  by_cases hbegin : hint = m.vmMapMin
  · rcases Nat.eq_zero_or_pos p with rfl | hpos
    · exact zero_le _
    have hstart := h.min_le_start hpos hle
    have hentry := h.nonempty p hpos hle
    omega
  rw [if_neg hbegin]
  cases hin : (m.uvmMapLookupEntry hint).1 with
  | false =>
    exact hlook.last hin p hle hstop
  | true =>
    rw [if_pos ⟨rfl, htop⟩]
    have hcontains := (hlook.contains hin _).mpr rfl
    rw [prev, if_neg (ne_of_gt hcontains.1)]
    by_contra hgt
    have hmono := h.stop_mono (show (m.uvmMapLookupEntry hint).2.1 ≤ p by omega) hle
    have hends := hcontains.2.2.2
    omega

theorem stop_searchStart_le (htop : m.topdown = true) (hbegin : hint ≠ m.vmMapMin) : m.stop (m.searchStart hint) ≤ hint := by
  obtain ⟨hlook, -⟩ := h.lookup_spec hmin
  unfold searchStart
  rw [if_neg hbegin]
  cases hin : (m.uvmMapLookupEntry hint).1 with
  | false =>
    exact hlook.stops hin
  | true =>
    rw [if_pos ⟨rfl, htop⟩]
    have hcontains := (hlook.contains hin _).mpr rfl
    rw [prev, if_neg (ne_of_gt hcontains.1)]
    exact le_trans (h.stop_le_start (sub_lt hcontains.1 one_pos) hlook.le) hcontains.2.2.1

theorem complete_down (hpos : 0 < length) (hsum : hint + length < 2 ^ 64) (htop : m.topdown = true) :
    m.Complete hint length (m.findspaceAt hint length 0 false).1 ↔ ¬ m.Hidden hint length := by
  have hlen : length < 2 ^ 64 := by omega
  have hle := searchStart_le h hmin
  obtain ⟨hok, hhas⟩ := fromEntry_down_ok h hpos hlen htop hle
  have hdown := findspaceAt_down htop 0 hint length
  have hall : (m.findspaceAt hint length 0 false).1.Ok (∀ p ≤ m.searchStart hint, 0 < p ∨ p = m.searchStart hint → ¬ m.Has length p) := by
    rcases hdown with heq | heq
    · rw [heq]
      exact hok
    · rw [heq]
      exact tryAt_ok hpos hlen (by omega) (fun hwraps => by omega) fun _ _ => hok
  have hplace : 0 < m.searchStart hint →
      (m.findspaceAt hint length 0 false).1.All fun _ _ => ∃ p, 0 < p ∧ p ≤ m.searchStart hint ∧ m.Has length p := by
    intro hfirst
    rcases hdown with heq | heq
    · rw [heq]
      exact hhas hfirst
    rw [heq]
    apply tryAt_all (.inl rfl) hpos hlen (by omega)
    · intro hfits
      exact ⟨m.searchStart hint, hfirst, le_refl _, hfits.has⟩
    · intro _ _
      exact hhas hfirst
  constructor
  · intro hcomplete ⟨_, hentries, hstop, hfront, hnone⟩
    have hfirst : 0 < m.searchStart hint := le_searchStart h hmin htop hentries hstop
    have hbegin : hint ≠ m.vmMapMin := by
      have hstart := h.min_le_start one_pos hentries
      have hentry := h.nonempty 1 one_pos hentries
      omega
    have hends := stop_searchStart_le h hmin htop hbegin
    have hplace := hplace hfirst
    cases hanswer : (m.findspaceAt hint length 0 false).1 with
    | found e r =>
      rw [hanswer] at hplace
      obtain ⟨p, hp, hple, hroom⟩ := hplace
      exact hnone p hp (by omega) (m.stop p) (le_trans (h.stop_mono hple hle) hends) ⟨le_refl _, hroom⟩
    | null =>
      rw [hanswer] at hcomplete
      apply hcomplete 0 (zero_le _) (m.stop 0) ⟨le_refl _, hfront⟩
      rw [if_pos htop]
      exact hmin
    | stuck =>
      rw [hanswer] at hcomplete
      exact hcomplete
  intro hopen
  apply hall.imp
  intro hno p hp r hfits hside
  rw [if_pos htop] at hside
  have hstop := le_trans hfits.1 hside
  have hple := le_searchStart h hmin htop hp hstop
  rcases Nat.eq_zero_or_pos p with rfl | hpos'
  · have hne : 0 ≠ m.searchStart hint := fun heq => hno 0 hple (.inr heq) hfits.has
    have hfirst : 0 < m.searchStart hint := Nat.pos_of_ne_zero (Ne.symm hne)
    have hbegin : hint ≠ m.vmMapMin := by
      intro heq
      rw [searchStart, if_pos heq] at hfirst
      have hfull := h.full 0 hfirst
      have hroom := hfits.has
      unfold Has at hroom
      omega
    apply hopen
    refine ⟨htop, lt_of_lt_of_le hfirst hle, ?_, hfits.has, fun p hp hple r hr hfits => ?_⟩
    · exact le_trans (h.stop_mono hfirst hle) (stop_searchStart_le h hmin htop hbegin)
    · exact hno p (le_searchStart h hmin htop hple (le_trans hfits.1 hr)) (.inl hp) hfits.has
  · exact hno p hple (.inl hpos') hfits.has

theorem complete_up (hpos : 0 < length) (hsum : hint + length < 2 ^ 64) (hbot : m.topdown = false) :
    m.Complete hint length (m.findspaceAt hint length 0 false).1 := by
  have hlen : length < 2 ^ 64 := by omega
  obtain ⟨hlook, -⟩ := h.lookup_spec hmin
  have hside (r : Nat) : (if m.topdown then r ≤ hint else hint ≤ r) ↔ hint ≤ r := by rw [hbot, if_neg (by decide)]
  unfold Complete findspaceAt
  by_cases hbegin : hint = m.vmMapMin
  · rw [if_pos ⟨rfl, hbegin⟩]
    apply (fromEntry_up_ok h hpos hlen hbot h.firstFree).imp
    intro hno p hp r hfits _
    by_cases hfree : p < m.firstFree
    · have hfull := h.full p hfree
      have hroom := hfits.has
      unfold Has at hroom
      omega
    · exact hno p (Nat.le_of_not_lt hfree) hp hfits.has
  rw [if_neg fun hand => hbegin hand.2]
  rcases hl : m.uvmMapLookupEntry hint with ⟨inUse, entry, m'⟩
  rw [hl] at hlook
  dsimp only at hlook ⊢
  cases inUse with
  | true =>
    have hcontains := (hlook.contains rfl entry).mpr rfl
    rw [hbot]
    apply (fromEntry_up_ok h hpos hlen hbot hlook.le).imp
    intro hno p hp r hfits hbehind
    rw [if_neg (by decide)] at hbehind
    by_cases hfree : p < entry
    · have hnext := h.start_next_le_start hfree hlook.le
      have hend := hfits.2
      have hstart := hcontains.2.2.1
      omega
    · exact hno p (Nat.le_of_not_lt hfree) hp hfits.has
  | false =>
    have hstops := hlook.stops rfl
    have hnext (cur : Nat) (hcur : entry < cur) (hle : cur ≤ m.entries.length) : hint ≤ m.start cur := by
      by_contra hlt
      by_cases hin : hint < m.stop cur
      · exact absurd (hlook.found.mpr ⟨cur, by omega, hle, by omega, hin⟩) (by decide)
      · have hlast := hlook.last rfl cur hle (Nat.le_of_not_lt hin)
        omega
    apply tryAt_ok hpos hlen (by omega)
    · omega
    intro hmiss hlt
    have hno : m.start (m.next entry) < hint + length := by
      by_contra hge
      exact hmiss ⟨hstops, Nat.le_of_not_lt hge⟩
    -- the gap that the hint is in, and those in front of it
    have hbefore (p : Nat) (hp : p ≤ entry) (r : Nat) (hfits : m.Fits length p r) (hbehind : hint ≤ r) : False := by
      have hmono := h.start_next_le hp hlook.le
      have hend := hfits.2
      omega
    simp only [hbot, Bool.false_eq_true, if_false]
    split
    · next hlast =>
      intro p hp r hfits hbehind
      apply hbefore p _ r hfits hbehind
      unfold next at hlast
      split at hlast
      · cases hlast
      · omega
    · next hlast =>
      have hlt' : entry < m.entries.length := by
        by_contra hge
        exact hlast (if_neg hge)
      have heq := next_of_lt hlt'
      rw [heq]
      apply (nextgap_up_ok h hpos hlen hbot hlook.le hlt' (le_refl _) hstops hnext hno hlt).imp
      intro hall p hp r hfits hbehind
      by_cases hfree : p ≤ entry
      · exact hbefore p hfree r hfits hbehind
      · exact hall p (Nat.lt_of_not_le hfree) hp hfits.has

end Whole

end VmMap

/-- The search ends, and misses room exactly where that in front of the first entry is all there is. -/
theorem findspace_complete {m : VmMap} {hint length : Nat} (h : m.WellFormed) (hmin : m.vmMapMin ≤ hint) (hmax : hint ≤ m.vmMapMax)
    (hpos : 0 < length) (hsum : hint + length < 2 ^ 64) :
    m.Complete hint length (m.uvmMapFindspace hint length 0 false).1 ↔ ¬ m.Hidden hint length := by
  rw [VmMap.findspace_eq hmin hmax]
  cases hdir : m.topdown with
  | true => exact VmMap.complete_down h hmin hpos hsum hdir
  | false =>
    apply iff_of_true (VmMap.complete_up h hmin hpos hsum hdir)
    intro hhidden
    exact absurd (hdir.symm.trans hhidden.1) (by decide)

/-- Downwards from 0x5000 there are three pages in front of the first entry, and they are not found. -/
theorem findspace_complete_front : (smallMap true).WellFormed ∧ (smallMap true).Fits 0x3000 0 0x1000 ∧
    ((smallMap true).uvmMapFindspace 0x5000 0x3000 0 false).1 = .null ∧
    ¬ (smallMap true).Complete 0x5000 0x3000 ((smallMap true).uvmMapFindspace 0x5000 0x3000 0 false).1 := by
  have hfits : (smallMap true).Fits 0x3000 0 0x1000 := by decide
  have hnull : ((smallMap true).uvmMapFindspace 0x5000 0x3000 0 false).1 = .null := by decide
  refine ⟨smallMap_wellFormed true, hfits, hnull, ?_⟩
  intro hall
  exact hall 0 (zero_le _) 0x1000 hfits (by decide)

/-- Downwards from in front of the first entry nothing is missed. -/
theorem findspace_complete_below : (smallMap true).Complete 0x2000 0x3000 ((smallMap true).uvmMapFindspace 0x2000 0x3000 0 false).1 :=
  (findspace_complete (smallMap_wellFormed true) (by decide) (by decide) (by decide) (by decide)).mpr fun h => absurd h.2.2.1 (by decide)

end NetBSD.Uvm.Map
