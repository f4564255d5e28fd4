import NetBSD.Kern.SubrBlist.Nodes

/-! What an operation on a node leaves.

`Effect`: some blocks of the node are made free or allocated, all else is as before. An operation on
one child is an effect on the children (`Kids.effect`), effects on neighbouring ranges join
(`KidsEffect.trans`), and children whose free blocks the counter of the node counts make up the node
(`Kids.node`). A collapsed node is given children that say the same (`expand_spec`). -/
namespace NetBSD.Kern.SubrBlist
open Nat
open Lib

/-- The children of a node of level `l + 1` with `c` blocks. -/
structure Kids (hp : Prop) (l : Nat) (t : Tree) (scan c : Nat) : Prop where
  ok : ∀ j, j * radix l < c → Ok hp l t (kid l scan j) (kidBlocks l c j)
  term : ∀ j < 16, (j - 1) * radix l < c → c ≤ j * radix l → (t (kid l scan j)).bighint = terminator

/-- The `k` blocks from `a` on are made `b`. -/
structure Effect (hp : Prop) (l : Nat) (t t' : Tree) (scan c a k : Nat) (b : Bool) : Prop where
  ok : Ok hp l t' scan c
  free : ∀ p < c, isFree l t' scan p = Row.fill (isFree l t scan) a k b p
  frame : ∀ i, i < scan ∨ scan + skip l < i → t' i = t i

structure KidsEffect (hp : Prop) (l : Nat) (t t' : Tree) (scan c a k : Nat) (b : Bool) : Prop where
  kids : Kids hp l t' scan c
  below : ∀ p < c, below l t' scan p = Row.fill (below l t scan) a k b p
  frame : ∀ i, i < scan ∨ scan + skip (l + 1) < i → t' i = t i

section
variable {hp : Prop} {l scan c j : Nat} {t t' : Tree}

theorem Ok.kids (h : Ok hp (l + 1) t scan c) (h0 : (t scan).avail ≠ 0) (hr : (t scan).avail ≠ radix (l + 1)) : Kids hp l t scan c :=
  ⟨fun j hj => ⟨kidBlocks_pos hj, kidBlocks_le _ _ _, h.shape.2.1 j hj, h.content.2.2 h0 hr j hj⟩, h.shape.2.2⟩

theorem below_congr (h : ∀ j < 16, Agree l t t' (kid l scan j)) {p : Nat} (hpc : p < radix (l + 1)) : below l t' scan p = below l t scan p :=
  isFree_congr (h _ (kid_lt_sixteen (le_refl _) (kid_of_lt l hpc).1)) (mod_lt _ (radix_pos l))

theorem below_kid {p : Nat} (hpr : p < radix l) : below l t scan (j * radix l + p) = isFree l t (kid l scan j) p := by
  have hdiv : (j * radix l + p) / radix l = j := by
    rw [add_comm, add_mul_div_right _ _ (radix_pos l), div_eq_of_lt hpr, zero_add]
  have hmod : (j * radix l + p) % radix l = p := by
    rw [add_comm, add_mul_mod_self_right, mod_eq_of_lt hpr]
  rw [below, hdiv, hmod]

theorem Kids.congr (hk : Kids hp l t scan c) (hc : c ≤ radix (l + 1)) (h : ∀ j < 16, Agree l t t' (kid l scan j)) : Kids hp l t' scan c := by
  refine ⟨fun j hj => (hk.ok j hj).congr (h j (kid_lt_sixteen hc hj)), fun j hj hlt hle => ?_⟩
  rw [(h j hj).self]
  exact hk.term j hj hlt hle

@[simp]
theorem Tree.set_self (t : Tree) (i : Nat) (b : Blmeta) : t.set i b i = b := by
  exact Function.update_self i b t

theorem Tree.set_of_ne {i i' : Nat} (h : i' ≠ i) (b : Blmeta) : t.set i b i' = t i' := by
  exact Function.update_of_ne h b t

theorem agree_set (b : Blmeta) (j : Nat) : Agree l t (t.set scan b) (kid l scan j) := by
  intro i hlo _
  have := lt_kid l scan j
  exact Tree.set_of_ne (by omega) b

theorem Effect.others {j' cj a k : Nat} {b : Bool} (he : Effect hp l t t' (kid l scan j) cj a k b) (hne : j' ≠ j) :
    Agree l t t' (kid l scan j') := by
  intro i hlo hhi
  apply he.frame
  obtain hlt | hlt := Nat.lt_or_gt_of_ne hne
  · have := @kid_lt_kid l _ scan _ hlt
    omega
  · have := @kid_lt_kid l _ scan _ hlt
    omega

theorem Kids.effect {a k : Nat} {b : Bool} (hk : Kids hp l t scan c) (hc : c ≤ radix (l + 1)) (hj : j * radix l < c)
    (hak : a + k ≤ kidBlocks l c j) (he : Effect hp l t t' (kid l scan j) (kidBlocks l c j) a k b) :
    KidsEffect hp l t t' scan c (j * radix l + a) k b := by
  have hj16 := kid_lt_sixteen hc hj
  refine ⟨⟨fun j' hj' => ?_, fun j' hj' hlt hle => ?_⟩, fun p hpc => ?_, fun i hi => ?_⟩
  · by_cases heq : j' = j
    · exact heq ▸ he.ok
    · exact (hk.ok j' hj').congr (he.others heq)
  · rw [(he.others fun heq => by rw [heq] at hle; omega).self]
    exact hk.term j' hj' hlt hle
  · have hin := kid_of_lt l hpc
    have hdiv := div_add_mod p (radix l)
    rw [mul_comm] at hdiv
    have hmod := mod_lt p (radix_pos l)
    by_cases heq : p / radix l = j
    · rw [heq] at hin hdiv
      unfold SubrBlist.below
      rw [heq, he.free _ hin.2]
      unfold Row.fill
      simp only [heq]
      congr 1
      apply propext
      omega
    rw [Row.fill_outside, below, below, isFree_congr (he.others heq) hmod]
    have hle := kidBlocks_le l c j
    obtain hlt | hlt := Nat.lt_or_gt_of_ne heq
    · have := Nat.mul_le_mul_right (radix l) (succ_le_of_lt hlt)
      rw [succ_mul] at this
      omega
    · have := Nat.mul_le_mul_right (radix l) (succ_le_of_lt hlt)
      rw [succ_mul] at this
      omega
  · apply he.frame
    have := @kid_le l _ scan hj16
    have := lt_kid l scan j
    omega

theorem Agree.set (h : Agree l t t' (SubrBlist.kid l scan j)) (x : Blmeta) : Agree l t (t'.set scan x) (SubrBlist.kid l scan j) :=
  fun i hlo hhi => (agree_set x j i hlo hhi).trans (h i hlo hhi)

theorem KidsEffect.refl (hk : Kids hp l t scan c) (a : Nat) (b : Bool) : KidsEffect hp l t t scan c a 0 b := by
  refine ⟨hk, fun p _ => ?_, fun _ _ => rfl⟩
  rw [Row.fill_outside (by omega)]

theorem Effect.node_self {cj a k : Nat} {b : Bool} (he : Effect hp l t t' (kid l scan j) cj a k b) : t' scan = t scan :=
  he.frame scan (.inl (lt_kid l scan j))

theorem KidsEffect.set {a k : Nat} {b : Bool} (h : KidsEffect hp l t t' scan c a k b) (hc : c ≤ radix (l + 1)) (x : Blmeta) :
    KidsEffect hp l t (t'.set scan x) scan c a k b := by
  refine ⟨h.kids.congr hc fun j _ => agree_set x j, fun p hpc => ?_, fun i hi => ?_⟩
  · rw [below_congr (fun j _ => agree_set x j) (lt_of_lt_of_le hpc hc)]
    exact h.below p hpc
  · rw [Tree.set_of_ne (by omega)]
    exact h.frame i hi

theorem KidsEffect.trans {t'' : Tree} {a k k' : Nat} {b : Bool} (h : KidsEffect hp l t t' scan c a k b)
    (h' : KidsEffect hp l t' t'' scan c (a + k) k' b) : KidsEffect hp l t t'' scan c a (k + k') b := by
  refine ⟨h'.kids, fun p hpc => ?_, fun i hi => (h'.frame i hi).trans (h.frame i hi)⟩
  rw [h'.below p hpc]
  unfold Row.fill
  rw [h.below p hpc]
  unfold Row.fill
  by_cases h₁ : a ≤ p ∧ p < a + k
  · rw [if_neg (by omega), if_pos h₁, if_pos (by omega)]
  by_cases h₂ : a + k ≤ p ∧ p < a + k + k'
  · rw [if_pos h₂, if_pos (by omega)]
  · rw [if_neg h₂, if_neg h₁, if_neg (by omega)]

/-- A node and its children, but for the node's counter. -/
structure Part (hp : Prop) (l : Nat) (t : Tree) (scan c : Nat) : Prop where
  pos : 0 < c
  le : c ≤ radix (l + 1)
  kids : Kids hp l t scan c
  hint : (t scan).bighint ≠ terminator
  bound : hp → Bound (below l t scan) c (t scan).bighint

theorem Part.node (h : Part hp l t scan c) (havail : (t scan).avail = Row.count c (below l t scan)) :
    Ok hp (l + 1) t scan c ∧ ∀ p < c, isFree (l + 1) t scan p = below l t scan p := by
  have hfree : ∀ p < c, isFree (l + 1) t scan p = below l t scan p := by
    intro p hpc
    rw [isFree]
    split
    case isTrue h0 =>
      rw [havail] at h0
      exact (Row.clear_of_count h0 p hpc).symm
    case isFalse h0 =>
      split
      case isTrue hr =>
        have hle := Row.count_le (n := c) (f := below l t scan)
        have hc := h.le
        exact (Row.full_of_count (n := c) (by omega) p hpc).symm
      case isFalse => rfl
  refine ⟨⟨h.pos, h.le, ⟨h.hint, fun j hj => (h.kids.ok j hj).shape, h.kids.term⟩, ?_, ?_, ?_⟩, hfree⟩
  · rw [Row.count_congr hfree, havail]
  · exact fun hhp => (h.bound hhp).congr hfree
  · exact fun _ _ j hj => (h.kids.ok j hj).content

theorem Ok.part (h : Ok hp (l + 1) t scan c) (h0 : (t scan).avail ≠ 0) (hr : (t scan).avail ≠ radix (l + 1)) :
    Part hp l t scan c ∧ ∀ p, isFree (l + 1) t scan p = below l t scan p := by
  have hfree : ∀ p, isFree (l + 1) t scan p = below l t scan p := fun p => by rw [isFree, if_neg h0, if_neg hr, below]
  exact ⟨⟨h.pos, h.le, h.kids h0 hr, h.shape.1, fun hhp => (h.content.2.1 hhp).congr fun p _ => (hfree p).symm⟩, hfree⟩

theorem Ok.hint (h : Ok hp l t scan c) : (t scan).bighint ≠ terminator := by
  cases l with
  | zero => exact h.shape
  | succ l => exact h.shape.1

theorem Ok.bound (h : Ok hp l t scan c) (hhp : hp) : Bound (isFree l t scan) c (t scan).bighint := by
  cases l with
  | zero => exact h.content.2 hhp
  | succ l => exact h.content.2.1 hhp

theorem Ok.avail (h : Ok hp (l + 1) t scan c) : (t scan).avail = Row.count c (isFree (l + 1) t scan) := h.content.1

theorem bound_below {h : Nat} : Bound (below l t scan) c h ↔ ∀ j, j * radix l < c → Bound (isFree l t (kid l scan j)) (kidBlocks l c j) h := by
  have hpos := radix_pos l
  have hdvd := radix_dvd l
  constructor
  · intro hb j hj a k hrow hak hset
    have hend := kidBlocks_end hj
    have hle := kidBlocks_le l c j
    by_cases hk : k = 0
    · omega
    refine hb (j * radix l + a) k ?_ (by omega) fun p hlo hhi => ?_
    · have : (j * radix l + a) % 32 = a % 32 := by
        rw [add_mod, mod_eq_zero_of_dvd (Dvd.dvd.mul_left hdvd j), zero_add, mod_mod]
      omega
    · rw [show p = j * radix l + (p - j * radix l) by omega, below_kid (by omega)]
      exact hset _ (by omega) (by omega)
  intro hb a k hrow hak hset
  by_cases hk : k = 0
  · omega
  have hin := kid_of_lt l (show a < c by omega)
  have hdiv := div_add_mod a (radix l)
  rw [mul_comm] at hdiv
  have hlt := mod_lt a hpos
  have hmod : a % radix l % 32 = a % 32 := mod_mod_of_dvd a hdvd
  refine hb (a / radix l) hin.1 (a % radix l) k (by omega) ?_ fun p hlo hhi => ?_
  · unfold kidBlocks
    omega
  · rw [← below_kid (by omega)]
    exact hset _ (by omega) (by omega)

/-! ### Collapsed nodes -/

theorem radix_ne_terminator (l : Nat) : radix l ≠ terminator := by
  have := radix_dvd l
  unfold terminator
  omega

theorem mark_bighint (l : Nat) (free : Bool) (b : Blmeta) : (mark l free b).bighint ≠ terminator := by
  cases l with
  | zero =>
    cases free with
    | true => exact (by decide : (32 : Nat) ≠ terminator)
    | false => exact (by decide : (0 : Nat) ≠ terminator)
  | succ l =>
    cases free with
    | true => exact radix_ne_terminator (l + 1)
    | false => exact (by decide : (0 : Nat) ≠ terminator)

theorem shape_root (hs : Shape l t scan c) (hc : c ≤ radix l) (h : ∀ i, scan < i → i ≤ scan + skip l → t' i = t i)
    (hhint : (t' scan).bighint ≠ terminator) : Shape l t' scan c := by
  cases l with
  | zero => exact hhint
  | succ l =>
    have hag : ∀ j < 16, Agree l t t' (kid l scan j) := by
      intro j hj i hlo hhi
      have := @kid_le l _ scan hj
      have := lt_kid l scan j
      exact h i (by omega) (by omega)
    refine ⟨hhint, fun j hj => ?_, fun j hj hlt hle => ?_⟩
    · exact shape_congr (hag j (kid_lt_sixteen hc hj)) (kidBlocks_le _ _ _) (hs.2.1 j hj)
    · rw [(hag j hj).self]
      exact hs.2.2 j hj hlt hle

theorem bound_of_clear {f : Nat → Bool} {h : Nat} (hf : ∀ p < c, f p = false) : Bound f c h := by
  intro a k _ hk hset
  by_contra hlt
  have hbit := hset a (le_refl _) (by omega)
  rw [hf a (by omega)] at hbit
  exact absurd hbit (by decide)

theorem bound_of_le {f : Nat → Bool} {h : Nat} (hh : 32 ≤ h) : Bound f c h := by
  intro a k hrow _ _
  omega

theorem radix_ge (l : Nat) : 32 ≤ radix l := le_of_dvd (radix_pos l) (radix_dvd l)

/-- A child that has been marked says so, whatever is below it. -/
theorem marked_ok {free : Bool} {b : Blmeta} (hpos : 0 < c) (hc : c ≤ radix l) (hfull : free = true → c = radix l)
    (hs : Shape l t scan c) (hm : t scan = mark l free b) : Ok hp l t scan c ∧ ∀ p < c, isFree l t scan p = free := by
  cases l with
  | zero =>
    cases free with
    | true =>
      have hfree : ∀ p < c, isFree 0 t scan p = true := by
        intro p hpc
        rw [isFree, hm]
        exact getLsbD_neg_one (lt_of_lt_of_le hpc hc)
      have hc32 : c = 32 := hfull rfl
      refine ⟨⟨hpos, hc, hs, fun p hle hlt => by omega, fun _ => bound_of_le ?_⟩, hfree⟩
      rw [hm]
      exact le_refl _
    | false =>
      have hfree : ∀ p, isFree 0 t scan p = false := by
        intro p
        rw [isFree, hm]
        exact BitVec.getLsbD_zero
      exact ⟨⟨hpos, hc, hs, fun p _ _ => hfree p, fun _ => bound_of_clear fun p _ => hfree p⟩, fun p _ => hfree p⟩
  | succ l =>
    cases free with
    | true =>
      have havail : (t scan).avail = radix (l + 1) := by rw [hm]; rfl
      have hfree : ∀ p, isFree (l + 1) t scan p = true := by
        intro p
        rw [isFree, if_neg (by omega), if_pos havail]
      refine ⟨⟨hpos, hc, hs, ?_, fun _ => bound_of_le ?_, fun _ hne => absurd havail hne⟩, fun p _ => hfree p⟩
      · rw [havail, Row.count_full fun p _ => hfree p, hfull rfl]
      · rw [hm]
        exact radix_ge (l + 1)
    | false =>
      have havail : (t scan).avail = 0 := by rw [hm]; rfl
      have hfree : ∀ p, isFree (l + 1) t scan p = false := fun p => by rw [isFree, if_pos havail]
      refine ⟨⟨hpos, hc, hs, ?_, fun _ => bound_of_clear fun p _ => hfree p, fun hne => absurd havail hne⟩, fun p _ => hfree p⟩
      rw [havail, Row.count_empty fun p _ => hfree p]

/-- From child `j` on, the children that have blocks are marked. -/
theorem expand_loop {free : Bool} {rounds : Nat} (hc : c ≤ radix (l + 1)) (hj : rounds + j = 17) (hlt : (j - 1) * radix l < c)
    (hhint : ∀ j', j ≤ j' → j' * radix l < c → (t (kid l scan j')).bighint ≠ terminator)
    (hterm : ∀ j' < 16, (j' - 1) * radix l < c → c ≤ j' * radix l → (t (kid l scan j')).bighint = terminator) :
    (∀ j', j ≤ j' → j' * radix l < c →
      expand l free scan rounds t (1 + j * (skip l + 1)) (kid l scan j') = mark l free (t (kid l scan j'))) ∧
    ∀ i, (∀ j', j ≤ j' → j' * radix l < c → i ≠ kid l scan j') → expand l free scan rounds t (1 + j * (skip l + 1)) i = t i := by
  induction rounds generalizing j t with
  | zero =>
    refine ⟨fun j' hle hj' => ?_, fun i _ => rfl⟩
    have := kid_lt_sixteen hc hj'
    omega
  | succ rounds ih =>
    rw [expand]
    by_cases h16 : j < 16
    · rw [if_pos ((round_iff l j).2 h16), nextSkip_eq, round_next, kid_def]
      by_cases hhas : j * radix l < c
      · rw [if_neg (hhint j (le_refl _) hhas)]
        have hne : ∀ j', j + 1 ≤ j' → kid l scan j' ≠ kid l scan j := by
          intro j' hle
          have := @kid_lt_kid l _ scan _ (lt_of_succ_le hle)
          omega
        obtain ⟨hmarked, hrest⟩ := ih (j := j + 1) (t := t.set (kid l scan j) (mark l free (t (kid l scan j)))) (by omega)
          hhas (fun j' hle hj' => by rw [Tree.set_of_ne (hne j' hle)]; exact hhint j' (by omega) hj')
          (fun j' hj' hlt' hle' => by
            rw [Tree.set_of_ne (hne j' (Nat.lt_of_mul_lt_mul_right (lt_of_lt_of_le hhas hle')))]
            exact hterm j' hj' hlt' hle')
        refine ⟨fun j' hle hj' => ?_, fun i hi => ?_⟩
        · by_cases heq : j' = j
          · rw [heq, hrest _ fun j'' hle' _ => (hne j'' hle').symm, Tree.set_self]
          · rw [hmarked j' (by omega) hj', Tree.set_of_ne (hne j' (by omega))]
        · rw [hrest i fun j' hle hj' => hi j' (by omega) hj', Tree.set_of_ne (hi j (le_refl _) hhas)]
      · rw [if_pos (hterm j h16 hlt (not_lt.1 hhas))]
        refine ⟨fun j' hle hj' => ?_, fun i _ => rfl⟩
        have := Nat.mul_le_mul_right (radix l) hle
        omega
    · rw [if_neg fun h => h16 ((round_iff l j).1 h)]
      refine ⟨fun j' hle hj' => ?_, fun i _ => rfl⟩
      have := kid_lt_sixteen hc hj'
      omega

/-- The children of a collapsed node are made to say what it says. -/
theorem expand_spec {free : Bool} (hs : Shape (l + 1) t scan c) (hpos : 0 < c) (hc : c ≤ radix (l + 1))
    (hfull : free = true → c = radix (l + 1)) :
    Kids hp l (expand l free scan 17 t 1) scan c ∧ (∀ p < c, below l (expand l free scan 17 t 1) scan p = free) ∧
      ∀ i, i ≤ scan ∨ scan + skip (l + 1) < i → expand l free scan 17 t 1 i = t i := by
  have hhint : ∀ j, 0 ≤ j → j * radix l < c → (t (kid l scan j)).bighint ≠ terminator := by
    intro j _ hj
    have hkid := hs.2.1 j hj
    cases l with
    | zero => exact hkid
    | succ l => exact hkid.1
  obtain ⟨hmarked, hrest⟩ := @expand_loop _ _ _ 0 _ free 17 hc rfl (by omega) hhint hs.2.2
  rw [Nat.zero_mul] at hmarked hrest
  have hframe : ∀ i, i ≤ scan ∨ scan + skip (l + 1) < i → expand l free scan 17 t 1 i = t i := by
    intro i hi
    refine hrest i fun j _ hj heq => ?_
    have := lt_kid l scan j
    have := @kid_le l _ scan (kid_lt_sixteen hc hj)
    omega
  have hkids : ∀ j, j * radix l < c → Ok hp l (expand l free scan 17 t 1) (kid l scan j) (kidBlocks l c j) ∧
      ∀ p < kidBlocks l c j, isFree l (expand l free scan 17 t 1) (kid l scan j) p = free := by
    intro j hj
    have hj16 := kid_lt_sixteen hc hj
    refine marked_ok (kidBlocks_pos hj) (kidBlocks_le _ _ _) ?_ ?_ (hmarked j (Nat.zero_le _) hj)
    · intro hf
      have := Nat.mul_le_mul_right (radix l) (succ_le_of_lt hj16)
      rw [hfull hf, kidBlocks, radix]
      rw [succ_mul] at this
      omega
    refine shape_root (hs.2.1 j hj) (kidBlocks_le _ _ _) (fun i hlo hhi => hrest i fun j' _ hj' heq => ?_) ?_
    · by_cases hjj : j' = j
      · rw [heq, hjj] at hlo
        omega
      obtain hlt | hlt := Nat.lt_or_gt_of_ne hjj
      · have := @kid_lt_kid l _ scan _ hlt
        omega
      · have := @kid_lt_kid l _ scan _ hlt
        omega
    · rw [hmarked j (Nat.zero_le _) hj]
      exact mark_bighint l free _
  refine ⟨⟨fun j hj => (hkids j hj).1, fun j hj hlt hle => ?_⟩, fun p hpc => ?_, hframe⟩
  · rw [hrest]
    · exact hs.2.2 j hj hlt hle
    intro j' _ hj' heq
    have hjj : j < j' ∨ j' < j ∨ j = j' := by omega
    obtain hlt | hlt | rfl := hjj
    · have := @kid_lt_kid l _ scan _ hlt
      omega
    · have := @kid_lt_kid l _ scan _ hlt
      omega
    · omega
  · have hin := kid_of_lt l hpc
    exact (hkids _ hin.1).2 _ hin.2

end

end NetBSD.Kern.SubrBlist
