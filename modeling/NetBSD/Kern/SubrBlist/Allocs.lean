import NetBSD.Kern.SubrBlist.Fills

/-! Blocks that are allocated.

`blstAlloc_spec`: what is returned was free and is taken, and nothing else is; where the hints are
not too low and nothing is returned, no leaf has room. -/
namespace NetBSD.Kern.SubrBlist
open Lib

/-- No leaf has so many free blocks in a row. -/
def NoRoom (f : Nat → Bool) (c count : Nat) : Prop :=
  ∀ a, a % 32 + count ≤ 32 → a + count ≤ c → ¬∀ p, a ≤ p → p < a + count → f p = true

/-- What allocating in a node of level `l` is to do. -/
def AllocSpec (hp : Prop) (l count : Nat) (op : Tree → Nat → Nat → Option (Option Nat × Tree)) : Prop :=
  ∀ {t scan c blk}, Ok hp l t scan c → ∃ r t', op t scan blk = some (r, t') ∧
    ((r = none ∧ Effect hp l t t' scan c 0 0 false ∧ (hp → NoRoom (isFree l t scan) c count)) ∨
      ∃ a, r = some (blk + a) ∧ a + count ≤ c ∧ (∀ p, a ≤ p → p < a + count → isFree l t scan p = true) ∧
        Effect hp l t t' scan c a count false)

section
variable {hp : Prop} {l scan c j a k blk count : Nat} {t t' : Tree} {f : Nat → Bool}

theorem NoRoom.bound (h : NoRoom f c count) (hcount : 0 < count) : Bound f c (count - 1) := by
  intro a k hrow hak hset
  by_contra hlt
  exact h a (by omega) (by omega) fun p hlo hhi => hset p hlo (by omega)

theorem Bound.noRoom {h : Nat} (hb : Bound f c h) (hlt : h < count) : NoRoom f c count := by
  intro a hrow hak hset
  have := hb a count hrow hak hset
  omega

theorem bound_count : Bound f c (Row.count c f) := by
  intro a k _ hak hset
  have := Row.count_fill_false hak hset
  omega

theorem leafHint_effect {h : Nat} (hok : Ok hp 0 t scan c) (hhint : h ≠ terminator) (hb : hp → Bound (isFree 0 t scan) c h) :
    Effect hp 0 t (t.set scan { t scan with bighint := h }) scan c 0 0 false := by
  have hfree : ∀ p, isFree 0 (t.set scan { t scan with bighint := h }) scan p = isFree 0 t scan p := by
    intro p
    rw [isFree, isFree, Tree.set_self]
  refine ⟨⟨hok.pos, hok.le, ?_, ?_, fun hhp => ?_⟩, fun p _ => ?_, fun i hi => ?_⟩
  · rw [Shape, Tree.set_self]
    exact hhint
  · rw [Tree.set_self]
    exact hok.content.1
  · rw [Tree.set_self]
    exact (hb hhp).congr fun p _ => hfree p
  · rw [hfree, Row.fill_outside (by omega)]
  · exact Tree.set_of_ne (by omega) _

theorem Ok.lt_of_set (hok : Ok hp 0 t scan c) {p : Nat} (hp32 : p < 32) (hset : (t scan).bitmap.getLsbD p = true) : p < c := by
  by_contra hge
  rw [hok.content.1 p (by omega) hp32] at hset
  exact absurd hset (by decide)

theorem leafAlloc_spec (hpos : 0 < count) (hcount : count ≤ 32) : AllocSpec hp 0 count fun t scan blk => blstAlloc 0 t scan blk count := by
  intro t scan c blk hok
  have hc : c ≤ 32 := hok.le
  refine ⟨_, _, rfl, ?_⟩
  unfold blstLeafAlloc
  split
  case isTrue hz =>
    have hclear : ∀ p < c, isFree 0 t scan p = false := by
      intro p _
      rw [isFree, hz]
      exact BitVec.getLsbD_zero
    refine .inl ⟨rfl, leafHint_effect hok (by decide) fun _ => bound_of_clear hclear, fun _ => ?_⟩
    exact (bound_of_clear (h := 0) hclear).noRoom hpos
  case isFalse hz =>
    split
    case isTrue h1 =>
      subst h1
      obtain ⟨i, hi, -, hset, -⟩ := ffs_of_ne_zero hz
      obtain ⟨r, hr, heq, hbit⟩ := @lowestBit_spec (t scan).bitmap ((-1 : Word) >>> 16) 4 (le_refl _) 0
        (@isMask_low 16 (by decide)) ⟨i, hi, hset⟩
      rw [heq, zero_add]
      have hrc := hok.lt_of_set hr hbit
      refine .inr ⟨r, rfl, by omega, fun p hlo hhi => ?_, leafTake_effect hok (isMask_one hr)⟩
      rw [show p = r by omega]
      exact hbit
    case isFalse h1 =>
      have hmask := isMask_low hcount
      split
      case h_1 j mask hfit =>
        obtain ⟨hmask', hj, hroom⟩ := fitMask_some (by omega) hmask hfit
        have hlast := hok.lt_of_set (p := j + count - 1) (by omega) (hroom _ (by omega) (by omega))
        exact .inr ⟨j, rfl, by omega, hroom, leafTake_effect hok hmask'⟩
      case h_2 hfit =>
        have hno := fitMask_none (by omega) hmask hfit
        have hnoroom : NoRoom (isFree 0 t scan) c count := fun a _ hac hset => hno a (Nat.zero_le _) (by omega) hset
        refine .inl ⟨rfl, leafHint_effect hok ?_ fun _ => hnoroom.bound hpos, fun _ => hnoroom⟩
        unfold terminator
        omega

theorem KidsEffect.after {t'' : Tree} {a' : Nat} {b b' : Bool} (h : KidsEffect hp l t t' scan c a' 0 b')
    (h' : KidsEffect hp l t' t'' scan c a k b) : KidsEffect hp l t t'' scan c a k b := by
  refine ⟨h'.kids, fun p hpc => ?_, fun i hi => (h'.frame i hi).trans (h.frame i hi)⟩
  rw [h'.below p hpc]
  unfold Row.fill
  rw [h.below p hpc, Row.fill_outside (by omega)]

/-- What the loop over the children comes to. -/
inductive Searched (hp : Prop) (l scan c count blk : Nat) (t : Tree) : Option Nat → Tree → Prop
  | none {t₁ : Tree} : Part hp l t₁ scan c → KidsEffect hp l t t₁ scan c 0 0 false → t₁ scan = t scan →
      (hp → NoRoom (below l t scan) c count) → Searched hp l scan c count blk t none (lowerHint scan count t₁)
  | some {t₁ : Tree} {a : Nat} : Part hp l t₁ scan c → KidsEffect hp l t t₁ scan c a count false → t₁ scan = t scan →
      a + count ≤ c → (∀ p, a ≤ p → p < a + count → below l t scan p = true) →
      Searched hp l scan c count blk t (some (blk + a)) (takeAvail scan count t₁)

theorem Searched.after {r : Option Nat} {t₁ : Tree} (h : KidsEffect hp l t t₁ scan c a 0 false) (hself : t₁ scan = t scan)
    (hs : Searched hp l scan c count blk t₁ r t') : Searched hp l scan c count blk t r t' := by
  have hbelow : ∀ p < c, below l t₁ scan p = below l t scan p := by
    intro p hpc
    rw [h.below p hpc, Row.fill_outside (by omega)]
  cases hs with
  | none hpart hke hself' hno =>
    refine .none hpart (h.after hke) (hself'.trans hself) fun hhp a hrow hac hset => hno hhp a hrow hac fun p hlo hhi => ?_
    rw [hbelow p (by omega)]
    exact hset p hlo hhi
  | some hpart hke hself' hac hset =>
    refine .some hpart (h.after hke) (hself'.trans hself) hac fun p hlo hhi => ?_
    rw [← hbelow p (by omega)]
    exact hset p hlo hhi

theorem noRoom_kid (hno : NoRoom (isFree l t (kid l scan j)) (kidBlocks l c j) count) (hcount : 0 < count) (ha : j * radix l ≤ a)
    (ha' : a < (j + 1) * radix l) (hrow : a % 32 + count ≤ 32) (hac : a + count ≤ c) :
    ¬∀ p, a ≤ p → p < a + count → below l t scan p = true := by
  intro hset
  rw [Nat.succ_mul] at ha'
  obtain ⟨q, hq⟩ := radix_dvd l
  obtain ⟨q', hq'⟩ := Dvd.dvd.mul_left (radix_dvd l) j
  refine hno (a - j * radix l) (by omega) ?_ fun p hlo hhi => ?_
  · unfold kidBlocks
    omega
  · rw [← below_kid (by omega)]
    exact hset _ (by omega) (by omega)

theorem allocLoop_spec {child : Tree → Nat → Nat → Option (Option Nat × Tree)} (hchild : AllocSpec hp l count child)
    (hpos : 0 < count) (hcount : count ≤ 32) {rounds : Nat} (h : Part hp l t scan c) (hrounds : 17 ≤ rounds + j) (hj : j ≤ 16)
    (hlt : (j - 1) * radix l < c) (hdone : hp → ∀ a, a < j * radix l → a % 32 + count ≤ 32 → a + count ≤ c →
      ¬∀ p, a ≤ p → p < a + count → below l t scan p = true) :
    ∃ r t', allocLoop child l scan count rounds t (1 + j * (skip l + 1)) (blk + j * radix l) = some (r, t') ∧
      Searched hp l scan c count blk t r t' := by
  induction rounds generalizing j t with
  | zero => omega
  | succ rounds ih =>
    rw [allocLoop]
    have hsucc : (j + 1) * radix l = j * radix l + radix l := Nat.succ_mul _ _
    by_cases hjc : j * radix l < c
    · have hj16 := kid_lt_sixteen h.le hjc
      have hok := h.kids.ok j hjc
      rw [if_pos ((round_iff l j).2 hj16), kid_def, if_neg hok.hint, nextSkip_eq, round_next,
        show blk + j * radix l + radix l = blk + (j + 1) * radix l by omega]
      -- With nothing in this child either, the loop goes on.
      have hnext : ∀ t₁, Part hp l t₁ scan c → KidsEffect hp l t t₁ scan c (j * radix l) 0 false → t₁ scan = t scan →
          (hp → NoRoom (isFree l t (kid l scan j)) (kidBlocks l c j) count) →
          ∃ r t', allocLoop child l scan count rounds t₁ (1 + (j + 1) * (skip l + 1)) (blk + (j + 1) * radix l) = some (r, t') ∧
            Searched hp l scan c count blk t r t' := by
        intro t₁ hpart hke hself hno
        have hsame : ∀ p < c, below l t₁ scan p = below l t scan p := by
          intro p hpc
          rw [hke.below p hpc, Row.fill_outside (by omega)]
        obtain ⟨r, t', hloop, hs⟩ := ih (j := j + 1) (t := t₁) hpart (by omega) hj16 hjc (fun hhp a ha hrow hac hset => by
          have hset' : ∀ p, a ≤ p → p < a + count → below l t scan p = true := by
            intro p hlo hhi
            rw [← hsame p (by omega)]
            exact hset p hlo hhi
          by_cases hlo : a < j * radix l
          · exact hdone hhp a hlo hrow hac hset'
          · exact noRoom_kid (hno hhp) hpos (by omega) (by omega) hrow hac hset')
        exact ⟨r, t', hloop, hs.after hke hself⟩
      by_cases hhint : count ≤ (t (kid l scan j)).bighint
      · rw [if_pos hhint]
        obtain ⟨r, t₁, hrun, ⟨rfl, heff, hno⟩ | ⟨a, rfl, hac, hset, heff⟩⟩ := @hchild _ _ _ (blk + j * radix l) hok
        · rw [hrun]
          obtain ⟨hpart, hke, hself⟩ := h.shrink hjc (by omega) heff
          exact hnext t₁ hpart hke hself hno
        rw [hrun]
        obtain ⟨hpart, hke, hself⟩ := h.shrink hjc hac heff
        have hend := kidBlocks_end hjc
        have hle := kidBlocks_le l c j
        refine ⟨_, _, rfl, ?_⟩
        rw [add_assoc]
        refine .some hpart hke hself (by omega) fun p hlo hhi => ?_
        rw [show p = j * radix l + (p - j * radix l) by omega, below_kid (by omega)]
        exact hset _ (by omega) (by omega)
      · have hge := radix_ge l
        rw [if_neg hhint, if_neg (by omega)]
        exact hnext t h (KidsEffect.refl h.kids _ _) rfl fun hhp => (hok.bound hhp).noRoom (by omega)
    · -- There are no more children.
      have hno : hp → NoRoom (below l t scan) c count := fun hhp a hrow hac => hdone hhp a (by omega) hrow hac
      refine ⟨none, lowerHint scan count t, ?_, .none h (KidsEffect.refl h.kids 0 false) rfl hno⟩
      by_cases hj16 : j < 16
      · rw [if_pos ((round_iff l j).2 hj16), kid_def, if_pos (h.kids.term j hj16 hlt (not_lt.1 hjc))]
      · rw [if_neg fun hle => hj16 ((round_iff l j).1 hle)]

theorem Part.lower (h : Part hp l t scan c) (hpos : 0 < count) (hcount : count ≤ 32)
    (hno : hp → NoRoom (below l t scan) c count) : ∃ x : Blmeta, lowerHint scan count t = t.set scan x ∧
      x.avail = (t scan).avail ∧ x.bighint ≠ terminator ∧ (hp → Bound (below l t scan) c x.bighint) := by
  unfold lowerHint
  split
  · refine ⟨_, rfl, rfl, ?_, fun hhp => (hno hhp).bound hpos⟩
    show count - 1 ≠ terminator
    unfold terminator
    omega
  · refine ⟨t scan, ?_, rfl, h.hint, h.bound⟩
    rw [Tree.set, Function.update_eq_self]

theorem blstMetaAlloc_spec {child : Tree → Nat → Nat → Option (Option Nat × Tree)} (hl : radix (l + 1) < terminator)
    (hpos : 0 < count) (hcount : count ≤ 32) (hchild : AllocSpec hp l count child) :
    AllocSpec hp (l + 1) count fun t scan blk => blstMetaAlloc child l t scan blk count := by
  intro t scan c blk hok
  have havail := hok.avail
  unfold blstMetaAlloc
  beta_reduce
  split
  case isTrue h0 =>
    have hclear : ∀ p < c, isFree (l + 1) t scan p = false := fun p _ => by rw [isFree, if_pos h0]
    refine ⟨none, _, rfl, .inl ⟨rfl, empty_effect hok h0 ?_ fun p hpc => ?_, fun _ => ?_⟩⟩
    · show count ≠ terminator
      unfold terminator
      omega
    · rw [Row.fill_outside (by omega), hclear p hpc]
    · exact (bound_of_clear (h := 0) hclear).noRoom hpos
  case isFalse h0 =>
    dsimp only
    rw [← opened]
    obtain ⟨hpart, hbelow, hself, hframe⟩ := opened_spec hok h0
    obtain ⟨r, t', hloop, hs⟩ := @allocLoop_spec _ _ _ _ 0 blk _ _ _ hchild hpos hcount 17 hpart (by omega) (by omega)
      (by have := hok.pos; omega) (fun _ a ha => by omega)
    rw [zero_mul, zero_mul, add_zero, add_zero] at hloop
    refine ⟨r, t', hloop, ?_⟩
    cases hs with
    | @none t₁ hpart₁ hke hself₁ hno =>
      left
      have hsame : ∀ p < c, below l t₁ scan p = isFree (l + 1) t scan p := by
        intro p hpc
        rw [hke.below p hpc, Row.fill_outside (by omega), hbelow p hpc]
      have hno₁ : hp → NoRoom (isFree (l + 1) t scan) c count := fun hhp a hrow hac hset =>
        hno hhp a hrow hac fun p hlo hhi => by rw [hbelow p (by omega)]; exact hset p hlo hhi
      obtain ⟨x, hset, hxavail, hxhint, hxbound⟩ := hpart₁.lower hpos hcount fun hhp a hrow hac hset =>
        hno₁ hhp a hrow hac fun p hlo hhi => by rw [← hsame p (by omega)]; exact hset p hlo hhi
      obtain ⟨hpart₂, hbelow₂⟩ := hpart₁.set hxhint hxbound
      have hfree₂ : ∀ p < c, below l (t₁.set scan x) scan p = isFree (l + 1) t scan p := fun p hpc => (hbelow₂ p hpc).trans (hsame p hpc)
      obtain ⟨hok', hfree⟩ := hpart₂.node (by
        rw [Tree.set_self, hxavail, hself₁, hself, havail]
        exact (Row.count_congr hfree₂).symm)
      rw [hset]
      refine ⟨rfl, ⟨hok', fun p hpc => ?_, fun i hi => ?_⟩, hno₁⟩
      · rw [hfree p hpc, hfree₂ p hpc, Row.fill_outside (by omega)]
      · rw [Tree.set_of_ne (by omega), hke.frame i hi, hframe i hi]
    | @some t₁ a hpart₁ hke hself₁ hac hset =>
      right
      have hset' : ∀ p, a ≤ p → p < a + count → isFree (l + 1) t scan p = true := by
        intro p hlo hhi
        rw [← hbelow p (by omega)]
        exact hset p hlo hhi
      have hfill : ∀ p < c, below l t₁ scan p = Row.fill (isFree (l + 1) t scan) a count false p := by
        intro p hpc
        rw [hke.below p hpc]
        unfold Row.fill
        rw [hbelow p hpc]
      have hsum := Row.count_fill_false hac hset'
      have hcount₁ : (t₁ scan).avail - count = Row.count c (below l t₁ scan) := by
        rw [Row.count_congr hfill, hself₁, hself]
        omega
      have hle := Row.count_le (n := c) (f := below l t₁ scan)
      have hc := hok.le
      -- The hint is the old one or the number of free blocks, whichever is less.
      obtain ⟨hpart₂, hbelow₂⟩ := hpart₁.set
        (x := ⟨(t₁ scan).avail - count, (t₁ scan).bitmap,
          if (t₁ scan).bighint > (t₁ scan).avail - count then (t₁ scan).avail - count else (t₁ scan).bighint⟩)
        (by
          dsimp only
          split
          · omega
          · exact hpart₁.hint)
        (fun hhp => by
          split
          · rw [hcount₁]
            exact bound_count
          · exact hpart₁.bound hhp)
      obtain ⟨hok', hfree⟩ := hpart₂.node (by
        rw [Tree.set_self, Row.count_congr hbelow₂]
        exact hcount₁)
      refine ⟨a, rfl, hac, hset', hok', fun p hpc => ?_, fun i hi => ?_⟩
      · exact (hfree p hpc).trans ((hbelow₂ p hpc).trans (hfill p hpc))
      · unfold takeAvail
        rw [Tree.set_of_ne (by omega), hke.frame i hi, hframe i hi]

theorem blstAlloc_spec (hl : radix l < terminator) (hpos : 0 < count) (hcount : count ≤ 32) :
    AllocSpec hp l count fun t scan blk => blstAlloc l t scan blk count := by
  induction l with
  | zero => exact leafAlloc_spec hpos hcount
  | succ l ih =>
    have hlt : radix l < terminator := by
      rw [radix] at hl
      omega
    intro t scan c blk hok
    exact blstMetaAlloc_spec hl hpos hcount (ih hlt) hok

end

end NetBSD.Kern.SubrBlist
