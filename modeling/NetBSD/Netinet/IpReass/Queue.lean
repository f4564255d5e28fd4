import Mathlib.Data.List.Induction
import Mathlib.Data.List.TakeWhile
import NetBSD.Netinet.IpReass.Reass

/-! One reassembly queue: what `place` does to it.

The entries of a queue lie one after the other and only the last may be the end of the
datagram (`Laid`); what else is known of them is a predicate `P` of each, which has to
survive that an entry loses its front. `place_laid` keeps both, `place_length` counts,
and `place_holds` says which bytes the queue holds afterwards. -/
namespace NetBSD.Netinet.IpReass
open List

/-- Where the data of an entry ends. -/
def Qent.stop (q : Qent) : Nat := q.off + q.len

/-- The byte at `x` is in the entry. -/
def Qent.Holds (q : Qent) (x : Nat) : Prop := q.off ≤ x ∧ x < q.stop

/-- `a` may stand somewhere before `b`: it does not reach into it and is not the end of
the datagram. -/
def Precedes (a b : Qent) : Prop := a.mff = true ∧ a.stop ≤ b.off

structure Laid (P : Qent → Prop) (fragq : List Qent) : Prop where
  each : ∀ q ∈ fragq, P q
  order : fragq.Pairwise Precedes

/-- `P` survives the loss of the front. -/
def Trimmable (P : Qent → Prop) : Prop := ∀ q i, P q → i < q.len → P (q.adj i)

theorem adj_stop {q : Qent} {i : Nat} (h : i < q.len) : (q.adj i).stop = q.stop := by
  simp only [Qent.stop, Qent.adj]
  omega

theorem laid_append {P : Qent → Prop} {a b : List Qent} : Laid P (a ++ b) ↔ Laid P a ∧ Laid P b ∧ ∀ x ∈ a, ∀ y ∈ b, Precedes x y := by
  constructor
  · rintro ⟨heach, horder⟩
    obtain ⟨ha, hb, hab⟩ := pairwise_append.mp horder
    exact ⟨⟨fun q hq => heach q (mem_append_left _ hq), ha⟩,
      ⟨fun q hq => heach q (mem_append_right _ hq), hb⟩, hab⟩
  · rintro ⟨⟨ea, ha⟩, ⟨eb, hb⟩, hab⟩
    exact ⟨fun q hq => (mem_append.mp hq).elim (ea q) (eb q), pairwise_append.mpr ⟨ha, hb, hab⟩⟩

theorem laid_cons {P : Qent → Prop} {q : Qent} {rest : List Qent} : Laid P (q :: rest) ↔
    P q ∧ Laid P rest ∧ ∀ y ∈ rest, Precedes q y := by
  constructor
  · rintro ⟨heach, horder⟩
    obtain ⟨h, hrest⟩ := pairwise_cons.mp horder
    exact ⟨heach q (mem_cons_self ..), ⟨fun x hx => heach x (mem_cons_of_mem _ hx), hrest⟩, h⟩
  · rintro ⟨hq, ⟨heach, horder⟩, h⟩
    exact ⟨forall_mem_cons.mpr ⟨hq, heach⟩, pairwise_cons.mpr ⟨h, horder⟩⟩

section Preceding
variable {ipqe ipqe' : Qent}

section
variable {p : Option Qent} (h : trimByPreceding ipqe p = some ipqe')
include h

theorem trimByPreceding_some : (ipqe' = ipqe ∨ ∃ i < ipqe.len, ipqe' = ipqe.adj i) ∧ ∀ q ∈ p, Precedes q ipqe' ∧
        ∀ x, q.off ≤ ipqe.off → (q.Holds x ∨ ipqe'.Holds x ↔ q.Holds x ∨ ipqe.Holds x) := by
  cases p with
  | none =>
    obtain rfl := Option.some.inj h
    exact ⟨.inl rfl, by simp⟩
  | some p =>
    simp only [trimByPreceding] at h
    split_ifs at h with hcov hmff hpart <;> obtain rfl := Option.some.inj h <;>
      simp only [overlap] at hcov hpart
    · refine ⟨.inr ⟨_, by simp only [overlap]; omega, rfl⟩, fun q hq => ?_⟩
      obtain rfl : p = q := by simpa using hq
      refine ⟨⟨by simpa using hmff, ?_⟩, fun x hx => ?_⟩ <;>
        simp only [Qent.Holds, Qent.stop, Qent.adj, overlap] <;> omega
    · refine ⟨.inl rfl, fun q hq => ?_⟩
      obtain rfl : p = q := by simpa using hq
      exact ⟨⟨by simpa using hmff, by simp only [Qent.stop]; omega⟩, fun x _ => Iff.rfl⟩

theorem trimByPreceding_off {y : Nat} (hy : ipqe.off ≤ y) (hp : ∀ q ∈ p, q.stop ≤ y) : ipqe'.off ≤ y := by
  cases p with
  | none => exact Option.some.inj h ▸ hy
  | some p =>
    have hstop := hp p rfl
    simp only [trimByPreceding] at h
    split_ifs at h <;> obtain rfl := Option.some.inj h
    · simp only [Qent.adj, overlap, Qent.stop] at *
      omega
    · exact hy

end

theorem trimByPreceding_none {p : Option Qent} (h : trimByPreceding ipqe p = none) :
    ∃ q ∈ p, ipqe.off < q.stop ∧ ipqe.stop ≤ q.stop ∨ q.mff = false := by
  cases p with
  | none => simp [trimByPreceding] at h
  | some p =>
    refine ⟨p, rfl, ?_⟩
    simp only [trimByPreceding] at h
    split_ifs at h with hcov hmff
    · simp only [overlap] at hcov
      simp only [Qent.stop]
      omega
    · exact .inr hmff

end Preceding

section Following
variable {P : Qent → Prop} {ipqe : Qent}

theorem trimFollowing_length (after : List Qent) : (trimFollowing ipqe after).1.length + (trimFollowing ipqe after).2 = after.length := by
  induction after with
  | nil => rfl
  | cons q rest ih =>
    rw [trimFollowing]
    split_ifs
    · rfl
    · rfl
    · simp only [length_cons]
      omega

/-- What stays is laid behind the newcomer and where it was. -/
theorem trimFollowing_laid (hP : Trimmable P) {after : List Qent} (h : Laid P after) :
    Laid P (trimFollowing ipqe after).1 ∧ (∀ y ∈ (trimFollowing ipqe after).1, ipqe.stop ≤ y.off) ∧
      ∀ a : Qent, (∀ y ∈ after, Precedes a y) → ∀ y ∈ (trimFollowing ipqe after).1, Precedes a y := by
  induction after with
  | nil => exact ⟨h, by simp [trimFollowing], by simp [trimFollowing]⟩
  | cons q rest ih =>
    obtain ⟨hq, hrest, hnext⟩ := laid_cons.mp h
    rw [trimFollowing]
    split_ifs with hfree hpart
    · refine ⟨h, fun y hy => ?_, fun a ha => ha⟩
      simp only [overlap] at hfree
      obtain rfl | hy := mem_cons.mp hy
      · simp only [Qent.stop]
        omega
      have := (hnext y hy).2
      simp only [Qent.stop] at *
      omega
    · simp only [overlap] at hfree hpart
      have hlt : (overlap ipqe q.off).toNat < q.len := by simp only [overlap]; omega
      have hnext' : ∀ y ∈ rest, Precedes (q.adj (overlap ipqe q.off).toNat) y := fun y hy =>
        ⟨(hnext y hy).1, (adj_stop hlt).trans_le (hnext y hy).2⟩
      have hoff : (q.adj (overlap ipqe q.off).toNat).off = ipqe.stop := by
        simp only [Qent.adj, overlap, Qent.stop]
        omega
      refine ⟨laid_cons.mpr ⟨hP q _ hq hlt, hrest, hnext'⟩, fun y hy => ?_, fun a ha y hy => ?_⟩
      · obtain rfl | hy := mem_cons.mp hy
        · exact hoff.ge
        have := (hnext y hy).2
        simp only [Qent.stop] at *
        omega
      · obtain rfl | hy := mem_cons.mp hy
        · obtain ⟨hm, hle⟩ := ha q (mem_cons_self ..)
          exact ⟨hm, hle.trans (by simp [Qent.adj])⟩
        · exact ha y (mem_cons_of_mem _ hy)
    · obtain ⟨h1, h2, h3⟩ := ih hrest
      exact ⟨h1, h2, fun a ha => h3 a fun y hy => ha y (mem_cons_of_mem _ hy)⟩

theorem trimFollowing_holds {after : List Qent} (h : ∀ q ∈ after, ipqe.off ≤ q.off) (x : Nat) :
    (ipqe.Holds x ∨ ∃ q ∈ (trimFollowing ipqe after).1, q.Holds x) ↔ ipqe.Holds x ∨ ∃ q ∈ after, q.Holds x := by
  induction after with
  | nil => rfl
  | cons q rest ih =>
    obtain ⟨hq, hrest⟩ := forall_mem_cons.mp h
    have hih := ih hrest
    rw [trimFollowing]
    split_ifs with hfree hpart
    · rfl
    · have : ipqe.Holds x ∨ (q.adj (overlap ipqe q.off).toNat).Holds x ↔ ipqe.Holds x ∨ q.Holds x := by
        simp only [Qent.Holds, Qent.stop, Qent.adj, overlap]
        omega
      simp [exists_mem_cons_iff, ← or_assoc, this]
    have hcov : q.Holds x → ipqe.Holds x := by
      simp only [overlap] at hfree hpart
      simp only [Qent.Holds, Qent.stop]
      omega
    rw [hih, exists_mem_cons_iff]
    tauto

end Following

/-! ### The place of a fragment -/

/-- The ways through `place`: the queue is split where the fragment belongs, the
fragment is dropped at once, or after entries were dequeued, or it is inserted. -/
theorem place_cases (ipqe : Qent) (fragq : List Qent) : ∃ before after, fragq = before ++ after ∧
    (∀ q ∈ before, q.off ≤ ipqe.off) ∧ (∀ q ∈ after.head?, ipqe.off < q.off) ∧
    (trimByPreceding ipqe before.getLast? = none ∧ place ipqe fragq = ⟨fragq, 0, true⟩ ∨
      ∃ ipqe', trimByPreceding ipqe before.getLast? = some ipqe' ∧ ((trimFollowing ipqe' after).1 ≠ [] ∧ ipqe'.mff = false ∧
            place ipqe fragq = ⟨before ++ (trimFollowing ipqe' after).1, (trimFollowing ipqe' after).2, true⟩ ∨
          ((trimFollowing ipqe' after).1 ≠ [] → ipqe'.mff = true) ∧ place ipqe fragq =
              ⟨before ++ ipqe' :: (trimFollowing ipqe' after).1, (trimFollowing ipqe' after).2, false⟩)) := by
  refine ⟨fragq.takeWhile fun q => q.off ≤ ipqe.off, fragq.dropWhile fun q => q.off ≤ ipqe.off,
    (takeWhile_append_dropWhile).symm, fun q hq => by simpa using mem_takeWhile_imp hq,
    fun q hq => ?_, ?_⟩
  · have := head?_dropWhile_not (fun q : Qent => decide (q.off ≤ ipqe.off)) fragq
    rw [Option.mem_def.mp hq] at this
    simpa using this
  simp only [place]
  cases trimByPreceding ipqe (fragq.takeWhile fun q => q.off ≤ ipqe.off).getLast? with
  | none => exact .inl ⟨rfl, rfl⟩
  | some ipqe' =>
    refine .inr ⟨ipqe', rfl, ?_⟩
    simp only
    split_ifs with hlast
    · exact .inl ⟨hlast.1, hlast.2, rfl⟩
    · exact .inr ⟨fun hne => by simpa [hne] using hlast, rfl⟩

section Place
variable {P : Qent → Prop} {ipqe : Qent} {fragq : List Qent}

theorem precedes_of_getLast {before : List Qent} {a : Qent} (horder : before.Pairwise Precedes)
    (h : ∀ q ∈ before.getLast?, Precedes q a) : ∀ q ∈ before, Precedes q a := by
  induction before using reverseRecOn with
  | nil => simp
  | append_singleton init p =>
    obtain ⟨_, _, hinit⟩ := pairwise_append.mp horder
    have hp : Precedes p a := h p (by simp)
    intro q hq
    obtain hq | hq := mem_append.mp hq
    · obtain ⟨hm, hle⟩ := hinit q hq p (by simp)
      refine ⟨hm, ?_⟩
      have := hp.2
      simp only [Qent.stop] at *
      omega
    · obtain rfl : q = p := by simpa using hq
      exact hp

theorem trimByPreceding_keeps (hP : Trimmable P) (he : P ipqe) {ipqe' : Qent} {p : Option Qent}
    (h : trimByPreceding ipqe p = some ipqe') : P ipqe' := by
  obtain ⟨rfl | ⟨i, hi, rfl⟩, _⟩ := trimByPreceding_some h
  · exact he
  · exact hP ipqe i he hi

theorem place_laid (hP : Trimmable P) (h : Laid P fragq) (he : P ipqe) : Laid P (place ipqe fragq).fragq := by
  obtain ⟨before, after, rfl, -, -, ⟨-, heq⟩ | ⟨ipqe', htrim, ⟨-, -, heq⟩ | ⟨hmff, heq⟩⟩⟩ :=
    place_cases ipqe fragq
  · rw [heq]
    exact h
  · obtain ⟨hb, ha, hab⟩ := laid_append.mp h
    obtain ⟨h1, -, h3⟩ := @trimFollowing_laid P ipqe' hP after ha
    rw [heq]
    exact laid_append.mpr ⟨hb, h1, fun x hx => h3 x (hab x hx)⟩
  obtain ⟨hb, ha, hab⟩ := laid_append.mp h
  obtain ⟨h1, h2, h3⟩ := @trimFollowing_laid P ipqe' hP after ha
  have hbefore := precedes_of_getLast hb.order fun q hq => ((trimByPreceding_some htrim).2 q hq).1
  rw [heq]
  refine laid_append.mpr ⟨hb, laid_cons.mpr ⟨trimByPreceding_keeps hP he htrim, h1, fun y hy =>
    ⟨hmff (ne_nil_of_mem hy), h2 y hy⟩⟩, fun x hx => forall_mem_cons.mpr
      ⟨hbefore x hx, h3 x (hab x hx)⟩⟩

theorem place_length (ipqe : Qent) (fragq : List Qent) : (place ipqe fragq).fragq.length +
    (place ipqe fragq).removed + (if (place ipqe fragq).dropped then 1 else 0) = fragq.length + 1 := by
  obtain ⟨before, after, rfl, -, -, ⟨-, heq⟩ | ⟨ipqe', -, ⟨-, -, heq⟩ | ⟨-, heq⟩⟩⟩ := place_cases ipqe fragq
  · rw [heq]
    rfl
  · have := @trimFollowing_length ipqe' after
    rw [heq]
    simp only [length_append, if_true]
    omega
  have := @trimFollowing_length ipqe' after
  rw [heq]
  simp only [length_append, length_cons, Bool.false_eq_true, if_false]
  omega

theorem place_ne_nil (h : fragq ≠ []) (ipqe : Qent) : (place ipqe fragq).fragq ≠ [] := by
  obtain ⟨before, after, rfl, -, -, ⟨-, heq⟩ | ⟨ipqe', -, ⟨hne, -, heq⟩ | ⟨-, heq⟩⟩⟩ := place_cases ipqe fragq
  · rw [heq]
    exact h
  · rw [heq]
    simp [hne]
  · rw [heq]
    simp

theorem off_le_of_laid {after : List Qent} (h : after.Pairwise Precedes) {off : Nat}
    (hhead : ∀ q ∈ after.head?, off < q.off) : ∀ q ∈ after, off < q.off := by
  cases after with
  | nil => simp
  | cons a rest =>
    have ha : off < a.off := hhead a rfl
    refine forall_mem_cons.mpr ⟨ha, fun q hq => ?_⟩
    have := ((pairwise_cons.mp h).1 q hq).2
    simp only [Qent.stop] at this
    omega

theorem trimByPreceding_holds {before : List Qent} {ipqe' : Qent}
    (htrim : trimByPreceding ipqe before.getLast? = some ipqe') (hoff : ∀ q ∈ before, q.off ≤ ipqe.off) (x : Nat) :
    (∃ q ∈ before, q.Holds x) ∨ ipqe'.Holds x ↔ (∃ q ∈ before, q.Holds x) ∨ ipqe.Holds x := by
  cases hlast : before.getLast? with
  | none =>
    rw [hlast] at htrim
    obtain rfl := Option.some.inj htrim
    rfl
  | some p =>
    have hpm : p ∈ before := mem_of_getLast? hlast
    have hx := ((trimByPreceding_some htrim).2 p hlast).2 x (hoff p hpm)
    have hsub : p.Holds x → ∃ q ∈ before, q.Holds x := fun h => ⟨p, hpm, h⟩
    constructor
    · rintro (h | h)
      · exact .inl h
      · exact (hx.mp (.inr h)).imp_left hsub
    · rintro (h | h)
      · exact .inl h
      · exact (hx.mpr (.inr h)).imp_left hsub

theorem exists_holds_append {a b : List Qent} {x : Nat} : (∃ q ∈ a ++ b, q.Holds x) ↔ (∃ q ∈ a, q.Holds x) ∨ ∃ q ∈ b, q.Holds x := by
  simp [mem_append, or_and_right, exists_or]

theorem place_holds (horder : fragq.Pairwise Precedes) (hd : (place ipqe fragq).dropped = false) (x : Nat) :
    (∃ q ∈ (place ipqe fragq).fragq, q.Holds x) ↔ (∃ q ∈ fragq, q.Holds x) ∨ ipqe.Holds x := by
  obtain ⟨before, after, rfl, hoff, hhead, ⟨-, heq⟩ | ⟨ipqe', htrim, ⟨-, -, heq⟩ | ⟨-, heq⟩⟩⟩ :=
    place_cases ipqe fragq
  · simp [heq] at hd
  · simp [heq] at hd
  obtain ⟨-, ha, hab⟩ := pairwise_append.mp horder
  have hafter := off_le_of_laid ha hhead
  have hfront := trimByPreceding_holds htrim hoff x
  have hback := @trimFollowing_holds ipqe' after (fun q hq => trimByPreceding_off htrim (hafter q hq).le
    fun p hp => (hab p (mem_of_getLast? hp) q hq).2) x
  rw [heq]
  calc (∃ q ∈ before ++ ipqe' :: (trimFollowing ipqe' after).1, q.Holds x)
      ↔ (∃ q ∈ before, q.Holds x) ∨ ipqe'.Holds x ∨ ∃ q ∈ (trimFollowing ipqe' after).1, q.Holds x := by
        rw [exists_holds_append, exists_mem_cons_iff]
    _ ↔ ((∃ q ∈ before, q.Holds x) ∨ ipqe'.Holds x) ∨ ∃ q ∈ after, q.Holds x := by rw [hback, or_assoc]
    _ ↔ (∃ q ∈ before ++ after, q.Holds x) ∨ ipqe.Holds x := by
        rw [hfront, exists_holds_append, or_right_comm]

end Place

end NetBSD.Netinet.IpReass
