import Mathlib.Logic.Function.Iterate
import NetBSD.Kern.Callout.Wheel

/-! The way of a callout through the wheels.

Where `BUCKET` files a callout depends on how far away it is, and a tick moves the buckets that its bytes name. From its bucket a
callout goes to the work list at a tick that is not after its time, and what is left then is less than what the wheel below goes
round in (`first_move`). Filed anew with what is left, it so comes to the work list at its time, in four moves at most
(`wheel_on_time`). -/
namespace NetBSD.Kern.Callout
open List Function
open Lib

/-- `CIRCQ_INSERT` into the bucket. -/
def CalloutCpu.file (cc : CalloutCpu) (c : Id) (rel : Int) (abs : BitVec 32) : CalloutCpu :=
  { cc with ccWheel := update cc.ccWheel (bucket rel abs) (cc.ccWheel (bucket rel abs) ++ [c]) }

/-- A callout on its way, with how often it was moved to the work list. -/
structure Way where
  cc : CalloutCpu
  moves : Nat

/-- A tick, after which the callout is filed with what is left, if something is. -/
def Way.tick (c : Id) (due : BitVec 32) (s : Way) : Way :=
  let cc := s.cc.hardclock.1
  if c ∈ cc.ccTodo then
    let delta := (due - cc.ccTicks).toInt
    if delta > 0 then ⟨(cc.remove c).file c delta due, s.moves + 1⟩ else ⟨cc, s.moves + 1⟩
  else ⟨cc, s.moves⟩

def stages (rel : Nat) : Nat :=
  if rel = 0 then 0 else if rel ≤ 256 then 1 else if rel ≤ 65536 then 2 else if rel ≤ 16777216 then 3 else 4

theorem stages_lt {n m : Nat} (h : n = 0 ∧ 0 < m ∨ n < 256 ∧ 256 < m ∨ n < 65536 ∧ 65536 < m ∨ n < 16777216 ∧ 16777216 < m) :
    stages n + 1 ≤ stages m := by
  unfold stages
  split_ifs <;> omega

theorem mem_dumped {ticks : BitVec 32} {b : Nat} : b ∈ dumped ticks ↔
    b = maskWheel 0 ticks ∨ maskWheel 0 ticks = 0 ∧ (b = maskWheel 1 ticks + WHEELSIZE ∨
      maskWheel 1 ticks = 0 ∧ (b = maskWheel 2 ticks + 2 * WHEELSIZE ∨ maskWheel 2 ticks = 0 ∧ b = maskWheel 3 ticks + 3 * WHEELSIZE)) := by
  unfold dumped
  split_ifs <;> simp_all

theorem mem_dumped_ofNat {n b : Nat} : b ∈ dumped (BitVec.ofNat 32 n) ↔ b = n % 256 ∨ n % 256 = 0 ∧ (b = n / 256 % 256 + 256 ∨
      n / 256 % 256 = 0 ∧ (b = n / 65536 % 256 + 512 ∨ n / 65536 % 256 = 0 ∧ b = n / 16777216 % 256 + 768)) := by
  rw [mem_dumped, maskWheel_ofNat n (by decide), maskWheel_ofNat n (by decide), maskWheel_ofNat n (by decide), maskWheel_ofNat n (by decide)]
  norm_num [WHEELSIZE]

/-- The wheel that a callout is filed in turns to its bucket once before it is due, and less than a turn of the wheel below is left
then. -/
theorem first_move {now due : Nat} (h : now < due) (hfar : due < now + 2 ^ 31) : ∃ tick, now < tick ∧ tick ≤ due ∧
    bucket ((due : Int) - now) (BitVec.ofNat 32 due) ∈ dumped (BitVec.ofNat 32 tick) ∧
    (∀ t, now < t → t < tick → bucket ((due : Int) - now) (BitVec.ofNat 32 due) ∉ dumped (BitVec.ofNat 32 t)) ∧
    stages (due - tick) + 1 ≤ stages (due - now) := by
  have h0 := @maskWheel_ofNat 0 due (by decide)
  have h1 := @maskWheel_ofNat 1 due (by decide)
  have h2 := @maskWheel_ofNat 2 due (by decide)
  have h3 := @maskWheel_ofNat 3 due (by decide)
  norm_num at h0 h1 h2 h3
  unfold bucket WHEELBITS WHEELSIZE
  simp only [mem_dumped_ofNat, h0, h1, h2, h3]
  clear h0 h1 h2 h3
  split_ifs with hb hs hm
  · -- the wheel of the lowest byte turns to it when it is due
    refine ⟨due, h, le_refl _, .inl rfl, ?_, stages_lt (.inl (by omega))⟩
    omega
  · refine ⟨due - due % 256, by omega, by omega, by omega, ?_, stages_lt (.inr (.inl (by omega)))⟩
    omega
  · refine ⟨due - due % 65536, by omega, by omega, by omega, ?_, stages_lt (.inr (.inr (.inl (by omega))))⟩
    omega
  · refine ⟨due - due % 16777216, by omega, by omega, by omega, ?_, stages_lt (.inr (.inr (.inr (by omega))))⟩
    omega

/-! ### Ticks -/

section Ticks
variable {cc : CalloutCpu} {c : Id} {due : BitVec 32} {s : Way}

theorem mem_dumps_todo (bs : List Nat) : c ∈ (bs.foldl CalloutCpu.dump cc).ccTodo ↔ c ∈ cc.ccTodo ∨ ∃ b ∈ bs, c ∈ cc.ccWheel b := by
  induction bs generalizing cc with
  | nil => simp
  | cons b bs ih =>
    rw [foldl_cons, ih]
    show (c ∈ cc.ccTodo ++ cc.ccWheel b ∨ ∃ b' ∈ bs, c ∈ (cc.dump b).ccWheel b') ↔ _
    simp only [mem_dump_wheel, mem_append, mem_cons, exists_eq_or_imp]
    constructor
    · rintro ((hc | hc) | ⟨b', hb', -, hc⟩)
      · exact .inl hc
      · exact .inr (.inl hc)
      · exact .inr (.inr ⟨b', hb', hc⟩)
    rintro (hc | hc | ⟨b', hb', hc⟩)
    · exact .inl (.inl hc)
    · exact .inl (.inr hc)
    by_cases heq : b' = b
    · exact .inl (.inr (heq ▸ hc))
    · exact .inr ⟨b', hb', heq, hc⟩

theorem mem_dumps_wheel (bs : List Nat) (b : Nat) : c ∈ (bs.foldl CalloutCpu.dump cc).ccWheel b ↔ b ∉ bs ∧ c ∈ cc.ccWheel b := by
  induction bs generalizing cc with
  | nil => simp
  | cons b' bs ih =>
    rw [foldl_cons, ih, mem_dump_wheel, mem_cons]
    tauto

theorem dumps_ticks (bs : List Nat) : (bs.foldl CalloutCpu.dump cc).ccTicks = cc.ccTicks := by
  induction bs generalizing cc with
  | nil => rfl
  | cons b bs ih => exact @ih (cc.dump b)

theorem hardclock_ticks : cc.hardclock.1.ccTicks = cc.ccTicks + 1 := by rw [hardclock_eq, dumps_ticks]

/-- The callout is in one bucket, which the wheel turns to first at `tick`. -/
structure Waits (c : Id) (due now tick : Nat) (s : Way) : Prop where
  ticks : s.cc.ccTicks = BitVec.ofNat 32 now
  todo : c ∉ s.cc.ccTodo
  bucket : ∃ b, (∀ b', c ∈ s.cc.ccWheel b' ↔ b' = b) ∧ b ∈ dumped (BitVec.ofNat 32 tick) ∧
    ∀ t, now < t → t < tick → b ∉ dumped (BitVec.ofNat 32 t)
  after : now < tick
  before : tick ≤ due
  near : due < now + 2 ^ 31

theorem file_waits {now : Nat} {due : Nat} (hticks : cc.ccTicks = BitVec.ofNat 32 now) (hqueue : ¬cc.OnQueue c) (h : now < due)
    (hfar : due < now + 2 ^ 31) (moves : Nat) : ∃ tick, stages (due - tick) + 1 ≤ stages (due - now) ∧
      Waits c due now tick ⟨cc.file c ((due : Int) - now) (BitVec.ofNat 32 due), moves⟩ := by
  obtain ⟨tick, hafter, hbefore, hdump, hfirst, hstages⟩ := first_move h hfar
  refine ⟨tick, hstages, hticks, fun hc => hqueue (.inl hc), ⟨_, ?_, hdump, hfirst⟩, hafter, hbefore, hfar⟩
  intro b'
  show c ∈ update cc.ccWheel _ _ b' ↔ _
  by_cases hb : b' = Callout.bucket ((due : Int) - now) (BitVec.ofNat 32 due)
  · subst hb
    simp
  · rw [update_of_ne hb]
    exact ⟨fun hc => absurd (.inr ⟨b', hc⟩) hqueue, fun hc => absurd hc hb⟩

theorem Waits.stay {due now tick : Nat} (h : Waits c due now tick s) (hlater : now + 1 < tick) :
    Waits c due (now + 1) tick (s.tick c (BitVec.ofNat 32 due)) ∧ (s.tick c (BitVec.ofNat 32 due)).moves = s.moves := by
  obtain ⟨b, hb, hdump, hfirst⟩ := h.bucket
  have hticks : s.cc.ccTicks + 1 = BitVec.ofNat 32 (now + 1) := by
    rw [h.ticks, BitVec.ofNat_add]
    rfl
  have htodo : c ∉ s.cc.hardclock.1.ccTodo := by
    rw [hardclock_eq, mem_dumps_todo, hticks]
    rintro (hc | ⟨b', hb', hc⟩)
    · exact h.todo hc
    · obtain rfl := (hb b').mp hc
      exact hfirst (now + 1) (Nat.lt_succ_self now) hlater hb'
  have htick : s.tick c (BitVec.ofNat 32 due) = ⟨s.cc.hardclock.1, s.moves⟩ := by
    unfold Way.tick
    rw [if_neg htodo]
  have hnear := h.near
  rw [htick]
  refine ⟨⟨?_, htodo, ⟨b, ?_, hdump, fun t ht => hfirst t (by omega)⟩, hlater, h.before, by omega⟩, rfl⟩
  · rw [hardclock_ticks, hticks]
  intro b'
  rw [hardclock_eq, mem_dumps_wheel, hticks]
  constructor
  · exact fun hc => (hb b').mp hc.2
  · rintro rfl
    exact ⟨hfirst (now + 1) (Nat.lt_succ_self now) hlater, (hb b').mpr rfl⟩

theorem Waits.move {due now : Nat} (h : Waits c due now (now + 1) s) : (s.tick c (BitVec.ofNat 32 due)).moves = s.moves + 1 ∧
    (due = now + 1 → c ∈ (s.tick c (BitVec.ofNat 32 due)).cc.ccTodo) ∧
    (now + 1 < due → ∃ tick, stages (due - tick) + 1 ≤ stages (due - (now + 1)) ∧
      Waits c due (now + 1) tick (s.tick c (BitVec.ofNat 32 due))) := by
  obtain ⟨b, hb, hdump, hfirst⟩ := h.bucket
  have hnear := h.near
  have hticks : s.cc.hardclock.1.ccTicks = BitVec.ofNat 32 (now + 1) := by
    rw [hardclock_ticks, h.ticks, BitVec.ofNat_add]
    rfl
  have htodo : c ∈ s.cc.hardclock.1.ccTodo := by
    rw [hardclock_eq, mem_dumps_todo, h.ticks]
    exact .inr ⟨b, by rw [BitVec.ofNat_add] at hdump; exact hdump, (hb b).mpr rfl⟩
  have hbefore := h.before
  have hdelta : (BitVec.ofNat 32 due - s.cc.hardclock.1.ccTicks).toInt = (due : Int) - (now + 1 : Nat) := by
    rw [hticks]
    exact Serial.toInt_sub_ofNat (by omega) (by omega)
  unfold Way.tick
  rw [if_pos htodo]
  rw [hdelta]
  by_cases hdue : due = now + 1
  · rw [if_neg (by omega)]
    exact ⟨rfl, fun _ => htodo, fun hlt => absurd hdue (by omega)⟩
  rw [if_pos (by omega)]
  refine ⟨rfl, fun heq => absurd heq hdue, fun hlt => ?_⟩
  have hleft : (s.cc.hardclock.1.remove c).ccTicks = BitVec.ofNat 32 (now + 1) := hticks
  have hgone : ¬(s.cc.hardclock.1.remove c).OnQueue c := by
    rw [onQueue_remove]
    exact fun hc => hc.1 rfl
  exact file_waits hleft hgone hlt (by omega) _

theorem Waits.ticks_stay {due now tick : Nat} (h : Waits c due now tick s) (j : Nat) (hj : now + j < tick) :
    Waits c due (now + j) tick ((Way.tick c (BitVec.ofNat 32 due))^[j] s) ∧ ((Way.tick c (BitVec.ofNat 32 due))^[j] s).moves = s.moves := by
  induction j with
  | zero => exact ⟨h, rfl⟩
  | succ j ih =>
    obtain ⟨hwaits, hmoves⟩ := ih (by omega)
    rw [iterate_succ_apply']
    obtain ⟨hnext, hsame⟩ := hwaits.stay (by omega)
    exact ⟨hnext, hsame.trans hmoves⟩

theorem Waits.first {due now tick : Nat} (h : Waits c due now tick s) : ∃ j, tick = now + j + 1 ∧
    Waits c due (now + j) tick ((Way.tick c (BitVec.ofNat 32 due))^[j] s) ∧
    ((Way.tick c (BitVec.ofNat 32 due))^[j] s).moves = s.moves := by
  have hafter := h.after
  obtain ⟨j, rfl⟩ : ∃ j, tick = now + j + 1 := ⟨tick - now - 1, by omega⟩
  exact ⟨j, rfl, h.ticks_stay j (Nat.lt_succ_self _)⟩

theorem Waits.arrives {due now tick : Nat} (h : Waits c due now tick s) : c ∈ ((Way.tick c (BitVec.ofNat 32 due))^[due - now] s).cc.ccTodo ∧
    ((Way.tick c (BitVec.ofNat 32 due))^[due - now] s).moves ≤ s.moves + 1 + stages (due - tick) ∧
    ∀ k < due - now, c ∉ ((Way.tick c (BitVec.ofNat 32 due))^[k] s).cc.ccTodo := by
  generalize hleft : due - now = left
  induction left using Nat.strong_induction_on generalizing now tick s with
  | _ left ih =>
  obtain ⟨j, rfl, hwaits, hmoves⟩ := h.first
  have hbefore := h.before
  have hless : left - (j + 1) < left := by omega
  have hrest : due - (now + j + 1) = left - (j + 1) := by omega
  have hpart : left - (j + 1) + (j + 1) = left := Nat.sub_add_cancel (by omega)
  obtain ⟨hmoved, hdue, hagain⟩ := hwaits.move
  rcases Nat.eq_or_lt_of_le hbefore with heq | hlt
  · obtain rfl : left = j + 1 := by omega
    rw [iterate_succ_apply']
    refine ⟨hdue heq.symm, by omega, ?_⟩
    intro k hk
    exact (h.ticks_stay k (by omega)).1.todo
  obtain ⟨tick', hstages, hnext⟩ := hagain hlt
  obtain ⟨htodo, hcount, hnot⟩ := ih _ hless hnext hrest
  have hsplit (k : Nat) : (Way.tick c (BitVec.ofNat 32 due))^[k + (j + 1)] s = (Way.tick c (BitVec.ofNat 32 due))^[k]
      (((Way.tick c (BitVec.ofNat 32 due))^[j] s).tick c (BitVec.ofNat 32 due)) := by
    rw [iterate_add_apply, iterate_succ_apply']
  have hall := hsplit (left - (j + 1))
  rw [hpart] at hall
  rw [hall]
  refine ⟨htodo, ?_, ?_⟩
  · omega
  intro k hk
  by_cases hearly : k < j + 1
  · exact (h.ticks_stay k (by omega)).1.todo
  have hlate := hnot (k - (j + 1)) (by omega)
  rw [← hsplit, Nat.sub_add_cancel (by omega)] at hlate
  exact hlate

/-- **A callout comes to the work list when it is due.** Filed by its delay at any tick, it is moved there for the first time at a
tick after this one and not after its time, and filed anew with what is left each time, it is there at its time, and not before,
after four moves at most. -/
theorem wheel_on_time (cc : CalloutCpu) (c : Id) (hqueue : ¬cc.OnQueue c) (d : Nat) (hd : 1 ≤ d ∧ d ≤ INT_MAX) :
    let due := cc.ccTicks + BitVec.ofNat 32 d
    let way := fun k => (Way.tick c due)^[k] ⟨cc.file c d due, 0⟩
    (∃ t, 1 ≤ t ∧ t ≤ d ∧ (∀ k < t, (way k).moves = 0) ∧ (way t).moves = 1) ∧
      c ∈ (way d).cc.ccTodo ∧ (way d).moves ≤ 4 ∧ ∀ k < d, c ∉ (way k).cc.ccTodo := by
  intro due way
  have hmax : INT_MAX = 2147483647 := rfl
  have hticks : cc.ccTicks = BitVec.ofNat 32 cc.ccTicks.toNat := by rw [BitVec.ofNat_toNat, BitVec.setWidth_eq]
  have hdue : due = BitVec.ofNat 32 (cc.ccTicks.toNat + d) := by
    rw [BitVec.ofNat_add, ← hticks]
  obtain ⟨tick, hstages, hwaits⟩ := file_waits hticks hqueue (show cc.ccTicks.toNat < cc.ccTicks.toNat + d by omega) (by omega) 0
  rw [← hdue] at hwaits
  have hrel : ((cc.ccTicks.toNat + d : Nat) : Int) - (cc.ccTicks.toNat : Nat) = d := by omega
  rw [hrel] at hwaits
  have hway : way = fun k => (Way.tick c (BitVec.ofNat 32 (cc.ccTicks.toNat + d)))^[k] ⟨cc.file c d due, 0⟩ := by
    rw [← hdue]
  have harrives := hwaits.arrives
  rw [Nat.add_sub_cancel_left] at harrives hstages
  obtain ⟨htodo, hmoves, hnot⟩ := harrives
  have hfour : stages d ≤ 4 := by
    unfold stages
    split_ifs <;> omega
  rw [hway]
  refine ⟨?_, htodo, by dsimp only at hmoves ⊢; omega, hnot⟩
  obtain ⟨j, rfl, hlast, hnone⟩ := hwaits.first
  have hbefore := hwaits.before
  refine ⟨j + 1, by omega, by omega, ?_, ?_⟩
  · intro k hk
    exact (hwaits.ticks_stay k (by omega)).2
  · dsimp only
    rw [iterate_succ_apply', hlast.move.1, hnone]

/-- Wheels without callouts, a few ticks before the counter wraps. -/
def wrapping : CalloutCpu := { booted.cc with ccTicks := 0xfffffffc }

theorem wrapping_empty (c : Id) : ¬wrapping.OnQueue c := by
  rintro (hc | ⟨b, hc⟩)
  · exact absurd hc not_mem_nil
  · exact absurd hc not_mem_nil

/-- With a delay of 300, filed then. -/
theorem wheel_on_time_wrap : 1 ≤ 300 ∧ 300 ≤ INT_MAX ∧
    let due := wrapping.ccTicks + BitVec.ofNat 32 300
    let way := fun k => (Way.tick 5 due)^[k] ⟨wrapping.file 5 (300 : Nat) due, 0⟩
    (∃ t, 1 ≤ t ∧ t ≤ 300 ∧ (∀ k < t, (way k).moves = 0) ∧ (way t).moves = 1) ∧
      5 ∈ (way 300).cc.ccTodo ∧ (way 300).moves ≤ 4 ∧ ∀ k < 300, 5 ∉ (way k).cc.ccTodo :=
  ⟨by decide, by decide, wheel_on_time wrapping 5 (wrapping_empty 5) 300 (by decide)⟩

end Ticks

end NetBSD.Kern.Callout
