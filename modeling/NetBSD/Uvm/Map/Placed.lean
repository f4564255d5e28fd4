import NetBSD.Lib.Words
import NetBSD.Uvm.Map.VmMap
import NetBSD.Uvm.Map.Lookup

/-! Where the parts of the search look.

A try succeeds where there is room (`tryAt_all`). The list is searched from an entry up or down
(`listsearch_all`), and the ways down the tree end at entries of the map (`descend_spec`,
`dig_spec`). -/
namespace NetBSD.Uvm.Map
open Nat
open Lib

/-- Whatever entry and address are found are as `P` says. -/
def Answer.All (P : Nat → Nat → Prop) : Answer → Prop
  | .found e r => P e r
  | _ => True

theorem Answer.All.imp {P Q : Nat → Nat → Prop} {answer : Answer} (h : answer.All P) (hPQ : ∀ e r, P e r → Q e r) : answer.All Q := by
  cases answer with
  | found e r => exact hPQ e r h
  | null => trivial
  | stuck => trivial

/-- An alignment is 0, or a power of two. -/
def Alignment (align : Nat) : Prop := align = 0 ∨ ∃ k < 64, align = 2 ^ k

namespace VmMap
variable {m : VmMap} {hint length align entry e r a b : Nat}

/-- The gap behind an entry has the addresses. -/
def Fits (m : VmMap) (length e r : Nat) : Prop := m.stop e ≤ r ∧ r + length ≤ m.start (m.next e)

instance : Decidable (m.Fits length e r) := inferInstanceAs (Decidable (_ ∧ _))

/-- An aligned place in the gap behind an entry. -/
structure Placed (m : VmMap) (length align e r : Nat) : Prop where
  le : e ≤ m.entries.length
  fits : m.Fits length e r
  aligned : align ≠ 0 → align ∣ r

theorem vaddr_lt (x : Nat) : vaddr x < 2 ^ 64 := mod_lt x (Nat.two_pow_pos 64)

theorem vaddr_of_lt {x : Nat} (h : x < 2 ^ 64) : vaddr x = x := mod_eq_of_lt h

theorem vsub_of_le {x y : Nat} (hx : x < 2 ^ 64) (h : y ≤ x) : vsub x y = x - y := by
  rw [vsub, show x + (2 ^ 64 - y) = x - y + 2 ^ 64 by omega, vaddr, add_mod_right]
  exact mod_eq_of_lt (lt_of_le_of_lt (sub_le x y) hx)

theorem aligned_cases (halign : Alignment align) (hlt : hint < 2 ^ 64) :
    (align ≠ 0 → align ∣ m.aligned align hint) ∧ m.aligned align hint < 2 ^ 64 ∧ (m.topdown = true → m.aligned align hint ≤ hint) ∧
      (m.topdown = false → hint ≤ m.aligned align hint ∨ m.aligned align hint = 0 ∧ 2 ^ 64 < hint + align) := by
  have hself (h : align ≠ 0 → align ∣ hint) : (align ≠ 0 → align ∣ hint) ∧ hint < 2 ^ 64 ∧ (m.topdown = true → hint ≤ hint) ∧
      (m.topdown = false → hint ≤ hint ∨ hint = 0 ∧ 2 ^ 64 < hint + align) :=
    ⟨h, hlt, fun _ => le_refl _, fun _ => .inl (le_refl _)⟩
  rcases halign with rfl | ⟨k, hk, rfl⟩
  · exact hself (fun h => absurd rfl h)
  unfold aligned
  by_cases hon : hint &&& (2 ^ k - 1) = 0
  · rw [if_neg (fun h => h.2 hon)]
    rw [and_two_pow_sub_one_eq_mod] at hon
    exact hself (fun _ => dvd_of_mod_eq_zero hon)
  rw [if_pos ⟨ne_of_gt (Nat.two_pow_pos k), hon⟩]
  split
  · next htop =>
    rw [and_neg_two_pow hlt (le_of_lt hk)]
    refine ⟨fun _ => dvd_sub_mod hint, lt_of_le_of_lt (sub_le _ _) hlt, fun _ => sub_le _ _, fun hbot => ?_⟩
    exact absurd (htop.symm.trans hbot) (by decide)
  · next htop =>
    have hround : roundup hint (2 ^ k) = vaddr (hint + (2 ^ k - 1)) / 2 ^ k * 2 ^ k := rfl
    refine ⟨fun _ => Nat.dvd_mul_left _ _, ?_, fun h => absurd h htop, fun _ => ?_⟩
    · exact lt_of_le_of_lt (div_mul_le_self _ _) (vaddr_lt _)
    have hpos := Nat.two_pow_pos k
    by_cases hwraps : hint + (2 ^ k - 1) < 2 ^ 64
    · left
      have hup := le_alignedFrom (s := hint) (p := 0) hpos
      rwa [alignedFrom, zero_add, Nat.sub_zero, ← vaddr_of_lt hwraps] at hup
    · right
      rw [hround, vaddr, div_eq_of_lt (by omega), zero_mul]
      exact ⟨rfl, by omega⟩

/-! ### The parts of the search -/

section Parts
variable {P : Nat → Nat → Prop} {otherwise : Nat → Answer} (h : m.WellFormed) (halign : Alignment align) (hpos : 0 < length)
  (hlen : length < 2 ^ 64)
include halign hpos hlen

theorem tryAt_all (hlt : hint < 2 ^ 64) (hfound : m.Fits length entry (m.aligned align hint) → P entry (m.aligned align hint))
    (hno : ¬ m.Fits length entry (m.aligned align hint) → m.aligned align hint + length < 2 ^ 64 → (otherwise (m.aligned align hint)).All P) :
    (m.tryAt hint length align entry otherwise).All P := by
  unfold tryAt uvmMapSpaceAvail
  dsimp only
  generalize m.aligned align hint = start at *
  by_cases hwraps : start + length < 2 ^ 64
  · rw [vaddr_of_lt hwraps, if_neg (by omega)]
    by_cases hfits : m.Fits length entry start
    · rw [if_pos ⟨hfits.2, hfits.1⟩]
      exact hfound hfits
    · rw [if_neg (fun hfit => hfits ⟨hfit.2, hfit.1⟩)]
      exact hno hfits hwraps
  · have hstop : vaddr (start + length) < start := by
      rw [vaddr]
      omega
    rw [if_pos hstop]
    trivial

omit halign hpos hlen in
theorem next_le (entry : Nat) : m.next entry ≤ m.entries.length := by
  unfold next
  split <;> omega

include h

omit halign hpos hlen in
theorem edge_lt (hle : entry ≤ m.entries.length) : m.edge length entry < 2 ^ 64 := by
  unfold edge
  split
  · exact vaddr_lt _
  · exact lt_of_le_of_lt (h.stop_le_max hle) h.max_lt

theorem listsearch_all {n : Nat} (hle : entry ≤ m.entries.length) : (m.listsearch length align n entry).All fun e r => m.Placed length align e r ∧
      (m.topdown = true → e < entry ∨ e = entry ∧ r = m.aligned align (m.edge length entry)) ∧ (m.topdown = false → entry ≤ e) := by
  induction n generalizing entry with
  | zero => trivial
  | succ n ih =>
    have hedge : m.edge length entry < 2 ^ 64 := edge_lt h hle
    obtain ⟨hdvd, -⟩ := aligned_cases (m := m) halign hedge
    apply tryAt_all halign hpos hlen hedge
    · intro hfits
      exact ⟨⟨hle, hfits, hdvd⟩, fun _ => .inr ⟨rfl, rfl⟩, fun _ => le_refl _⟩
    intro _ _
    split
    · next htop =>
      by_cases hzero : entry = 0
      · rw [if_pos hzero]
        trivial
      have hprev : m.prev entry = entry - 1 := if_neg hzero
      rw [if_neg hzero, hprev]
      apply (ih (show entry - 1 ≤ m.entries.length by omega)).imp
      intro e r he
      refine ⟨he.1, fun _ => .inl ?_, fun hbot => absurd (htop.symm.trans hbot) (by decide)⟩
      rcases he.2.1 htop with hlt | ⟨rfl, -⟩
      · omega
      · omega
    · next htop =>
      by_cases hlast : m.next entry = 0
      · rw [if_pos hlast]
        trivial
      have hnext : m.next entry = entry + 1 := by
        unfold next at hlast ⊢
        split
        · rfl
        · next hge => exact absurd (if_neg hge) hlast
      rw [if_neg hlast]
      apply (ih (next_le entry)).imp
      intro e r he
      exact ⟨he.1, fun h => absurd h htop, fun hbot => by have := he.2.2 hbot; omega⟩

end Parts

/-- A node of the tree of the map, with its subtrees. -/
structure InTree (m : VmMap) (node : TreeNode) : Prop where
  spans : ∃ a b, 0 < a ∧ b ≤ m.entries.length + 1 ∧ node.left.Spans a node.place ∧ node.right.Spans (node.place + 1) b
  left : node.left.Augmented m.gap m.maxgap
  right : node.right.Augmented m.gap m.maxgap

theorem InTree.place {node : TreeNode} (h : m.InTree node) : 0 < node.place ∧ node.place ≤ m.entries.length := by
  obtain ⟨a, b, ha, hb, hleft, hright⟩ := h.spans
  have hle := hleft.le
  have hge := hright.le
  omega

/-- The subtree that a candidate is searched in. -/
def far (m : VmMap) (node : TreeNode) : MaxTree := if m.topdown then node.left else node.right

/-- What is known of a candidate: it is behind the hint, or in front of what is to be placed there, and
there is room behind it or in its subtree. -/
structure Candidate (m : VmMap) (hint length : Nat) (prev : TreeNode) : Prop where
  inTree : m.InTree prev
  top : m.topdown = true → m.start (m.next prev.place) < vaddr (hint + length)
  bottom : m.topdown = false → hint ≤ m.stop prev.place
  room : length ≤ m.gap prev.place ∨ m.far prev ≠ .nil ∧ length ≤ (m.far prev).top m.maxgap

theorem remember_spec {tmp : TreeNode} {prev : Option TreeNode} (htmp : m.InTree tmp) (hprev : ∀ node ∈ prev, m.Candidate hint length node) :
    ∀ node ∈ m.remember hint length tmp prev, m.Candidate hint length node := by
  intro node hnode
  unfold remember at hnode
  cases htop : m.topdown with
  | true =>
    simp only [htop, if_true] at hnode
    split at hnode
    · next hnear =>
      cases hnode
      refine ⟨htmp, fun _ => of_decide_eq_true (Bool.and_eq_true_iff.mp hnear.1).1, fun hbot => absurd (htop.symm.trans hbot) (by decide), ?_⟩
      rw [far, if_pos htop]
      exact hnear.2
    · exact hprev node hnode
  | false =>
    simp only [htop, Bool.false_eq_true, if_false] at hnode
    split at hnode
    · next hnear =>
      cases hnode
      refine ⟨htmp, fun h => absurd (htop.symm.trans h) (by decide), fun _ => of_decide_eq_true (Bool.and_eq_true_iff.mp hnear.1).1, ?_⟩
      rw [far, if_neg (by rw [htop]; decide)]
      exact hnear.2
    · exact hprev node hnode

theorem descend_spec {t : MaxTree} {parent : TreeNode} {prev : Option TreeNode} (hspans : t.Spans a b) (haug : t.Augmented m.gap m.maxgap)
    (ha : 0 < a) (hb : b ≤ m.entries.length + 1) (hparent : m.InTree parent) (hprev : ∀ node ∈ prev, m.Candidate hint length node) :
    m.InTree (m.descend hint length t parent prev).1 ∧ ∀ node ∈ (m.descend hint length t parent prev).2, m.Candidate hint length node := by
  induction t generalizing a b parent prev with
  | nil => exact ⟨hparent, hprev⟩
  | node left cur right ihl ihr =>
    have htmp : m.InTree ⟨left, cur, right⟩ := ⟨⟨a, b, ha, hb, hspans.1, hspans.2⟩, haug.1, haug.2.1⟩
    have hnew := remember_spec htmp hprev
    have hroot := hspans.root
    have hl := ihl hspans.1 haug.1 ha (by omega) htmp hnew
    have hr := ihr hspans.2 haug.2.1 (succ_pos cur) hb htmp hnew
    unfold descend
    split_ifs
    all_goals first | exact ⟨htmp, hnew⟩ | exact hl | exact hr

theorem descend_root (hint length : Nat) {left right : MaxTree} {root : Nat} (hspans : (MaxTree.node left root right).Spans 1 (m.entries.length + 1))
    (haug : (MaxTree.node left root right).Augmented m.gap m.maxgap) :
    m.InTree (m.descend hint length (.node left root right) ⟨left, root, right⟩ none).1 ∧
      ∀ node ∈ (m.descend hint length (.node left root right) ⟨left, root, right⟩ none).2, m.Candidate hint length node := by
  apply descend_spec hspans haug one_pos (le_refl _)
  · exact ⟨⟨1, m.entries.length + 1, one_pos, le_refl _, hspans.1, hspans.2⟩, haug.1, haug.2.1⟩
  · intro node hnode
    cases hnode

theorem dig_spec {t : MaxTree} {p : Nat} (hspans : t.Spans a b) (h : m.dig length t = some p) : a ≤ p ∧ p < b := by
  induction t generalizing a b with
  | nil => cases h
  | node left cur right ihl ihr =>
    have hroot := hspans.root
    have hl (hp : m.dig length left = some p) := ihl hspans.1 hp
    have hr (hp : m.dig length right = some p) := ihr hspans.2 hp
    unfold dig at h
    split_ifs at h
    all_goals first
      | (cases h; exact hroot)
      | (have hin := hl h; omega)
      | (have hin := hr h; omega)

end VmMap

end NetBSD.Uvm.Map
