import Mathlib.Tactic.Linarith
import Mathlib.Algebra.Order.Ring.Int

/-! From a time to ticks (`sys/kern/subr_time.c`).

`ts2timo` makes an absolute time relative, checks and fixes it (`itimespecfix`), and has `tvtohz` count the ticks. Signed numbers are
integers, and an operation whose result their type does not hold has no value (`signed`). -/
namespace NetBSD.Kern.SubrTime

def INT_MAX : Int := 2147483647

structure Timespec where
  sec : Int
  nsec : Int

/-- Why there is no number of ticks: an error is returned, a signed operation overflows, or an assertion fails. -/
inductive Stop where
  | EINVAL
  | ETIMEDOUT
  | overflow
  | assertion
  deriving DecidableEq

/-- The clock's rate, the microseconds of a tick, the width of `long`, and whether assertions are checked. -/
structure Kernel where
  hz : Int
  tick : Int
  long : Nat
  diagnostic : Bool

def Fits (bits : Nat) (x : Int) : Prop := -2 ^ (bits - 1) ≤ x ∧ x < 2 ^ (bits - 1)

instance (bits : Nat) (x : Int) : Decidable (Fits bits x) := inferInstanceAs (Decidable (_ ∧ _))

def signed (bits : Nat) (x : Int) : Except Stop Int := if Fits bits x then .ok x else .error .overflow

def Kernel.assert (k : Kernel) (p : Prop) [Decidable p] : Except Stop Unit :=
  if k.diagnostic = true ∧ ¬p then .error .assertion else .ok ()

def Kernel.LONG_MAX (k : Kernel) : Int := 2 ^ (k.long - 1) - 1

/-- Arithmetic of `unsigned long`. -/
def Kernel.ulong (k : Kernel) (x : Int) : Int := x % 2 ^ k.long

/-- The number of ticks, before it is cut to an `int`. -/
def Kernel.ticks (k : Kernel) (sec usec : Int) : Except Stop Int :=
  if sec < 0 ∨ (sec = 0 ∧ usec = 0) then .ok 0
  else if sec ≤ k.LONG_MAX / 1000000 then do
    let whole ← signed k.long (sec * 1000000)
    return k.ulong (k.ulong (k.ulong (whole + usec) + (k.tick - 1)) / k.tick + 1)
  else if sec ≤ k.LONG_MAX / k.hz then do
    let whole ← signed k.long (sec * k.hz)
    return k.ulong (k.ulong (whole + k.ulong (usec + (k.tick - 1)) / k.tick) + 1)
  else .ok k.LONG_MAX

def Kernel.tvtohz (k : Kernel) (sec usec : Int) : Except Stop Int := do
  k.assert (usec ≥ 0 ∧ usec < 1000000)
  if sec > INT_MAX then return INT_MAX
  else if sec < 0 then return 0
  else
    let ticks ← k.ticks sec usec
    return if ticks > INT_MAX then INT_MAX else ticks

def Kernel.tstohz (k : Kernel) (ts : Timespec) : Except Stop Int := k.tvtohz ts.sec (ts.nsec / 1000)

def Kernel.timespecsub (k : Kernel) (ts start : Timespec) : Except Stop Timespec := do
  let sec ← signed 64 (ts.sec - start.sec)
  let nsec ← signed k.long (ts.nsec - start.nsec)
  if nsec < 0 then
    let sec ← signed 64 (sec - 1)
    let nsec ← signed k.long (nsec + 1000000000)
    return ⟨sec, nsec⟩
  else return ⟨sec, nsec⟩

def Kernel.itimespecfix (k : Kernel) (ts : Timespec) : Except Stop Timespec :=
  if ts.nsec < 0 ∨ ts.nsec ≥ 1000000000 then .error .EINVAL
  else if ts.sec < 0 then .error .ETIMEDOUT
  else if ts.sec = 0 ∧ ts.nsec ≠ 0 then do
    let least ← signed 32 (k.tick * 1000)
    return if ts.nsec < least then { ts with nsec := least } else ts
  else .ok ts

/-- With the time that `ts` is then; `now` is what `clock_gettime1` gives. -/
def Kernel.ts2timo (k : Kernel) (now : Timespec) (abstime : Bool) (ts : Timespec) : Except Stop (Int × Timespec) := do
  let ts ← if abstime then k.timespecsub ts now else .ok ts
  let ts ← k.itimespecfix ts
  if ts.sec = 0 ∧ ts.nsec = 0 then .error .ETIMEDOUT
  else
    let timo ← k.tstohz ts
    k.assert (timo > 0)
    return (timo, ts)

/-! ### What is to be returned -/

def Timespec.Valid (ts : Timespec) : Prop := 0 ≤ ts.nsec ∧ ts.nsec < 1000000000

instance (ts : Timespec) : Decidable ts.Valid := inferInstanceAs (Decidable (_ ∧ _))

def Timespec.ns (ts : Timespec) : Int := ts.sec * 1000000000 + ts.nsec

/-- The nanoseconds that remain. -/
def remaining (now : Timespec) (abstime : Bool) (ts : Timespec) : Int := if abstime then ts.ns - now.ns else ts.ns

/-- A count for a number of microseconds, where a part of one is left if it is 0. -/
def Kernel.Counts (k : Kernel) (us t : Int) : Prop :=
  1 ≤ t ∧ t ≤ INT_MAX ∧ (t = INT_MAX ∨ (us ≤ (t - 1) * k.tick ∧ (t - 2) * k.tick < max us 1))

def Kernel.Converted (k : Kernel) (now : Timespec) (abstime : Bool) (ts : Timespec) (r : Except Stop (Int × Timespec)) : Prop :=
  if ts.Valid then
    if remaining now abstime ts ≤ 0 then r = .error .ETIMEDOUT
    else ∃ t ts', r = .ok (t, ts') ∧ k.Counts (remaining now abstime ts / 1000) t
  else r = .error .EINVAL

/-- The rate, the tick and `long` of a machine. -/
structure Kernel.Ok (k : Kernel) : Prop where
  hz : 1 ≤ k.hz ∧ k.hz ≤ 1000000
  tick : k.tick * k.hz = 1000000
  long : k.long = 32 ∨ k.long = 64

/-- The difference to the clock does not overflow. -/
def Kernel.NoOverflow (k : Kernel) (now ts : Timespec) : Prop :=
  Fits 64 (ts.sec - now.sec) ∧ Fits k.long (ts.nsec - now.nsec) ∧ (ts.nsec < now.nsec → Fits 64 (ts.sec - now.sec - 1))

variable {k : Kernel} {now ts : Timespec} {abstime : Bool} {sec usec : Int}

/-! ### The count -/

theorem Kernel.Ok.tick_pos (h : k.Ok) : 1 ≤ k.tick ∧ k.tick ≤ 1000000 := by
  have hprod := h.tick
  obtain ⟨hlo, -⟩ := h.hz
  constructor
  · nlinarith
  · nlinarith

theorem roundup {a tick : Int} (htick : 1 ≤ tick) : a ≤ (a + (tick - 1)) / tick * tick ∧ ((a + (tick - 1)) / tick - 1) * tick < a := by
  have hdiv := Int.mul_ediv_add_emod (a + (tick - 1)) tick
  have hlo := Int.emod_nonneg (a + (tick - 1)) (by omega : tick ≠ 0)
  have hhi := Int.emod_lt_of_pos (a + (tick - 1)) (by omega : 0 < tick)
  constructor
  · linarith [Int.mul_comm tick ((a + (tick - 1)) / tick)]
  · linarith [Int.mul_comm tick ((a + (tick - 1)) / tick), Int.sub_mul ((a + (tick - 1)) / tick) 1 tick]

theorem signed_of_fits {bits : Nat} {x : Int} (h : Fits bits x) : signed bits x = .ok x := if_pos h

theorem ulong_of_lt {x : Int} (h0 : 0 ≤ x) (hlt : x < 2 ^ k.long) : k.ulong x = x := Int.emod_eq_of_lt h0 hlt

theorem Kernel.Ok.half (h : k.Ok) : ∃ M : Int, 2147483648 ≤ M ∧ (2 : Int) ^ (k.long - 1) = M ∧ (2 : Int) ^ k.long = 2 * M := by
  obtain hlong | hlong := h.long
  · exact ⟨2147483648, le_rfl, by rw [hlong]; rfl, by rw [hlong]; rfl⟩
  · exact ⟨9223372036854775808, by decide, by rw [hlong]; rfl, by rw [hlong]; rfl⟩

/-- The count is that of the microseconds, rounded up and with one more, or more than an `int` holds. -/
theorem ticks_spec (h : k.Ok) (hsec : 0 ≤ sec) (husec : 0 ≤ usec ∧ usec ≤ 1000000) (hpos : 0 < sec * 1000000 + usec) :
    ∃ t, k.ticks sec usec = .ok t ∧ 1 ≤ t ∧
      (INT_MAX ≤ t ∧ 0 < sec ∨ sec * 1000000 + usec ≤ (t - 1) * k.tick ∧ (t - 2) * k.tick < sec * 1000000 + usec) := by
  obtain ⟨hlo, hhi⟩ := h.tick_pos
  obtain ⟨M, hM, hhalf, hwhole⟩ := h.half
  have hmax : k.LONG_MAX = M - 1 := by rw [Kernel.LONG_MAX, hhalf]
  have hfits : ∀ x : Int, 0 ≤ x → x ≤ M - 1 → Fits k.long x := by
    intro x h0 hle
    rw [Fits, hhalf]
    omega
  rw [Kernel.ticks, if_neg (by omega)]
  by_cases hfirst : sec ≤ k.LONG_MAX / 1000000
  · rw [if_pos hfirst]
    rw [hmax] at hfirst
    obtain ⟨hup, hdown⟩ := roundup (a := sec * 1000000 + usec) hlo
    have hquot : (sec * 1000000 + usec + (k.tick - 1)) / k.tick ≤ sec * 1000000 + usec + (k.tick - 1) :=
      Int.ediv_le_self _ (by omega)
    have hnonneg : 0 ≤ (sec * 1000000 + usec + (k.tick - 1)) / k.tick := Int.ediv_nonneg (by omega) (by omega)
    rw [signed_of_fits (hfits _ (by omega) (by omega))]
    refine ⟨(sec * 1000000 + usec + (k.tick - 1)) / k.tick + 1, ?_, by omega, .inr ⟨?_, ?_⟩⟩
    · change Except.ok (k.ulong (k.ulong (k.ulong (sec * 1000000 + usec) + (k.tick - 1)) / k.tick + 1)) = _
      rw [ulong_of_lt (x := sec * 1000000 + usec) (by omega) (by omega), ulong_of_lt (x := _ + (k.tick - 1)) (by omega) (by omega),
        ulong_of_lt (by omega) (by omega)]
    · rwa [Int.add_sub_cancel]
    · rwa [show ∀ q : Int, q + 1 - 2 = q - 1 by omega]
  rw [if_neg hfirst]
  by_cases hsecond : sec ≤ k.LONG_MAX / k.hz
  · have hhz : 0 < k.hz := by have := h.hz; omega
    have hprod : sec * k.hz ≤ M - 1 := hmax ▸ (Int.le_ediv_iff_mul_le hhz).mp hsecond
    have hprod0 : 0 ≤ sec * k.hz := Int.mul_nonneg hsec hhz.le
    obtain ⟨hup, hdown⟩ := roundup (a := usec) hlo
    have hquot : (usec + (k.tick - 1)) / k.tick ≤ usec + (k.tick - 1) := Int.ediv_le_self _ (by omega)
    have hnonneg : 0 ≤ (usec + (k.tick - 1)) / k.tick := Int.ediv_nonneg (by omega) (by omega)
    have hsec' : sec * k.hz * k.tick = sec * 1000000 := by rw [Int.mul_assoc, Int.mul_comm k.hz, h.tick]
    rw [if_pos hsecond, signed_of_fits (hfits _ hprod0 hprod)]
    refine ⟨sec * k.hz + (usec + (k.tick - 1)) / k.tick + 1, ?_, by omega, .inr ⟨?_, ?_⟩⟩
    · change Except.ok (k.ulong (k.ulong (sec * k.hz + k.ulong (usec + (k.tick - 1)) / k.tick) + 1)) = _
      rw [ulong_of_lt (x := usec + (k.tick - 1)) (by omega) (by omega), ulong_of_lt (x := sec * k.hz + _) (by omega) (by omega),
        ulong_of_lt (by omega) (by omega)]
    · rw [Int.add_sub_cancel, Int.add_mul]
      omega
    · rw [show ∀ a q : Int, a + q + 1 - 2 = a + (q - 1) by omega, Int.add_mul]
      omega
  · rw [if_neg hsecond]
    refine ⟨k.LONG_MAX, rfl, by omega, .inl ⟨?_, by omega⟩⟩
    rw [INT_MAX]
    omega

theorem assert_of {p : Prop} [Decidable p] (h : k.diagnostic = true → p) : k.assert p = .ok () :=
  if_neg fun hfails => hfails.2 (h hfails.1)

theorem tvtohz_spec (h : k.Ok) (hsec : 0 ≤ sec) (husec : 0 ≤ usec ∧ usec ≤ 1000000) (hpos : 0 < sec * 1000000 + usec)
    (hdiag : k.diagnostic = true → usec < 1000000) : ∃ t, k.tvtohz sec usec = .ok t ∧ k.Counts (sec * 1000000 + usec) t := by
  rw [Kernel.tvtohz, assert_of fun hd => ⟨husec.1, hdiag hd⟩]
  have hint : 1 ≤ INT_MAX := by decide
  by_cases hfar : sec > INT_MAX
  · refine ⟨INT_MAX, ?_, hint, le_rfl, .inl rfl⟩
    rw [if_pos hfar]
    rfl
  obtain ⟨t, ht, hone, hcount⟩ := ticks_spec h hsec husec hpos
  refine ⟨if t > INT_MAX then INT_MAX else t, ?_, ?_⟩
  · rw [if_neg hfar, if_neg (Int.not_lt.mpr hsec), ht]
    rfl
  split
  · exact ⟨hint, le_rfl, .inl rfl⟩
  · next hle =>
    refine ⟨hone, Int.not_lt.mp hle, ?_⟩
    obtain hbig | hcount := hcount
    · exact .inl (le_antisymm (Int.not_lt.mp hle) hbig.1)
    · exact .inr ⟨hcount.1, lt_of_lt_of_le hcount.2 (le_max_left _ _)⟩

theorem tvtohz_tick (h : k.Ok) (hdiag : k.diagnostic = true → k.tick < 1000000) : k.tvtohz 0 k.tick = .ok 2 := by
  obtain ⟨hlo, hhi⟩ := h.tick_pos
  obtain ⟨t, ht, -, hcount⟩ := ticks_spec h le_rfl ⟨by omega, hhi⟩ (by omega : 0 < 0 * 1000000 + k.tick)
  obtain ⟨-, hzero⟩ | ⟨hup, hdown⟩ := hcount
  · exact absurd hzero (lt_irrefl 0)
  have htwo : t = 2 := by
    apply le_antisymm
    · nlinarith
    · nlinarith
  rw [Kernel.tvtohz, assert_of fun hd => ⟨by omega, hdiag hd⟩]
  rw [ht, htwo]
  rfl

theorem ts2timo_abstime {d : Timespec} (hd : k.timespecsub ts now = .ok d) : k.ts2timo now true ts = k.ts2timo now false d := by
  rw [Kernel.ts2timo, hd]
  rfl

theorem ts2timo_invalid (hvalid : ¬ts.Valid) : k.ts2timo now false ts = .error .EINVAL := by
  have hfix : k.itimespecfix ts = .error .EINVAL := if_pos (by rw [Timespec.Valid] at hvalid; omega)
  change (k.itimespecfix ts).bind _ = _
  rw [hfix]
  rfl

theorem ts2timo_past (hvalid : ts.Valid) (hns : ts.ns ≤ 0) : k.ts2timo now false ts = .error .ETIMEDOUT := by
  rw [Timespec.Valid] at hvalid
  rw [Timespec.ns] at hns
  change (k.itimespecfix ts).bind _ = _
  rw [Kernel.itimespecfix, if_neg (by omega)]
  by_cases hneg : ts.sec < 0
  · rw [if_pos hneg]
    rfl
  have hzero : ts.sec = 0 ∧ ts.nsec = 0 := by omega
  rw [if_neg hneg, if_neg (fun hne => hne.2 hzero.2)]
  exact if_pos hzero

theorem ts2timo_small (h : k.Ok) (hsec : ts.sec = 0) (hpos : 0 < ts.nsec) (hlt : ts.nsec < k.tick * 1000) (hns : ts.nsec < 1000000000) :
    k.ts2timo now false ts = if k.diagnostic = true ∧ k.hz = 1 then .error .assertion else .ok (2, ⟨0, k.tick * 1000⟩) := by
  obtain ⟨hlo, hhi⟩ := h.tick_pos
  have hsigned : signed 32 (k.tick * 1000) = .ok (k.tick * 1000) := signed_of_fits ⟨by omega, by omega⟩
  have hfix : k.itimespecfix ts = .ok ⟨0, k.tick * 1000⟩ := by
    rw [Kernel.itimespecfix, if_neg (by omega), if_neg (by omega), if_pos ⟨hsec, by omega⟩, hsigned, ← hsec]
    change Except.ok (if ts.nsec < k.tick * 1000 then _ else _) = _
    rw [if_pos hlt]
  have hdiv : k.tick * 1000 / 1000 = k.tick := Int.mul_ediv_cancel _ (by decide)
  change (k.itimespecfix ts).bind _ = _
  rw [hfix]
  change (if (0 : Int) = 0 ∧ k.tick * 1000 = 0 then _ else _) = _
  rw [if_neg (by omega), Kernel.tstohz, hdiv]
  by_cases hbad : k.diagnostic = true ∧ k.hz = 1
  · have htick := h.tick
    rw [hbad.2] at htick
    rw [if_pos hbad, Kernel.tvtohz, Kernel.assert, if_pos ⟨hbad.1, by omega⟩]
    rfl
  have hticklt : k.diagnostic = true → k.tick < 1000000 := by
    intro hd
    have hhz : k.hz ≠ 1 := fun hone => hbad ⟨hd, hone⟩
    have htick := h.tick
    by_contra hge
    have hmax : k.tick = 1000000 := by omega
    rw [hmax] at htick
    omega
  rw [if_neg hbad, tvtohz_tick h hticklt]
  change (k.assert (2 > 0)).bind _ = _
  rw [assert_of fun _ => by decide]
  rfl

section
variable (h : k.Ok) (hvalid : ts.Valid)
include h hvalid

theorem ts2timo_count (hpos : 0 < ts.ns) (hbig : ts.sec = 0 → k.tick * 1000 ≤ ts.nsec) :
    ∃ t, k.ts2timo now false ts = .ok (t, ts) ∧ k.Counts (ts.ns / 1000) t := by
  obtain ⟨hlo, hhi⟩ := h.tick_pos
  obtain ⟨hnlo, hnhi⟩ := hvalid
  have hus : ts.ns / 1000 = ts.sec * 1000000 + ts.nsec / 1000 := by
    rw [Timespec.ns]
    omega
  have hsigned : signed 32 (k.tick * 1000) = .ok (k.tick * 1000) := signed_of_fits ⟨by omega, by omega⟩
  have hfix : k.itimespecfix ts = .ok ts := by
    rw [Kernel.itimespecfix, if_neg (by omega), if_neg (by omega)]
    split
    · next hzero =>
      rw [hsigned]
      change Except.ok (if ts.nsec < k.tick * 1000 then _ else _) = _
      rw [if_neg (Int.not_lt.mpr (hbig hzero.1))]
    · rfl
  obtain ⟨t, ht, hcount⟩ := @tvtohz_spec k ts.sec (ts.nsec / 1000) h (by omega) (by omega) (by omega) (by omega)
  refine ⟨t, ?_, hus ▸ hcount⟩
  change (k.itimespecfix ts).bind _ = _
  rw [hfix]
  change (if ts.sec = 0 ∧ ts.nsec = 0 then _ else _) = _
  rw [if_neg (by omega), Kernel.tstohz, ht]
  change (k.assert (t > 0)).bind _ = _
  rw [assert_of fun _ => by have := hcount.1; omega]
  rfl

end

theorem timespecsub_spec (h : k.Ok) (hno : k.NoOverflow now ts) : ∃ d, k.timespecsub ts now = .ok d ∧ d.ns = ts.ns - now.ns ∧
    (d.Valid ↔ now.nsec - 1000000000 ≤ ts.nsec ∧ ts.nsec < now.nsec + 1000000000) := by
  obtain ⟨hsec, hnsec, hborrow⟩ := hno
  rw [Kernel.timespecsub, signed_of_fits hsec, signed_of_fits hnsec]
  by_cases hneg : ts.nsec - now.nsec < 0
  · have hfits : Fits k.long (ts.nsec - now.nsec + 1000000000) := by
      obtain ⟨M, hM, hhalf, -⟩ := h.half
      rw [Fits] at hnsec ⊢
      omega
    refine ⟨⟨ts.sec - now.sec - 1, ts.nsec - now.nsec + 1000000000⟩, ?_, ?_, ?_⟩
    · refine (if_pos hneg).trans ?_
      rw [signed_of_fits (hborrow (by omega)), signed_of_fits hfits]
      rfl
    · simp only [Timespec.ns]
      omega
    · simp only [Timespec.Valid]
      omega
  · refine ⟨⟨ts.sec - now.sec, ts.nsec - now.nsec⟩, ?_, ?_, ?_⟩
    · exact if_neg hneg
    · simp only [Timespec.ns]
      omega
    · simp only [Timespec.Valid]
      omega

theorem timespecsub_overflow (hover : ¬k.NoOverflow now ts) : k.timespecsub ts now = .error .overflow := by
  rw [Kernel.timespecsub]
  by_cases hsec : Fits 64 (ts.sec - now.sec)
  · rw [signed_of_fits hsec]
    by_cases hnsec : Fits k.long (ts.nsec - now.nsec)
    · rw [signed_of_fits hnsec]
      have hborrow : ts.nsec < now.nsec ∧ ¬Fits 64 (ts.sec - now.sec - 1) := by
        by_contra hno
        exact hover ⟨hsec, hnsec, fun hlt => not_not.mp fun hfits => hno ⟨hlt, hfits⟩⟩
      refine (if_pos (by omega)).trans ?_
      rw [signed, if_neg hborrow.2]
      rfl
    · rw [signed, if_neg hnsec]
      rfl
  · rw [signed, if_neg hsec]
    rfl

end NetBSD.Kern.SubrTime
