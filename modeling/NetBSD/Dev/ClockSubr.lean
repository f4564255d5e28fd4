import NetBSD.Lib.Calendar
import Mathlib.Algebra.Order.Ring.Int
import Mathlib.Tactic.IntervalCases
import Mathlib.Tactic.Linarith

/-! Seconds since the epoch and calendar dates.

`clockSecsToYmdhms` takes periods of 400, 100 and 4 years from 2001 on off the days, then
years, then months; `clockYmdhmsToSecs` adds them up again. Quantities of 64 bits are
integers, and what is stored is reduced. -/
namespace NetBSD.Dev
open List Nat
open Lib Calendar

abbrev POSIX_BASE_YEAR : Nat := 1970

abbrev FEBRUARY : Nat := 2

/-- Days from the epoch to 2001: there were 8 leap years. -/
abbrev DAYSTO2001 : Nat := 365 * 31 + 8

abbrev DAYS4YEARS : Nat := 365 * 4 + 1

abbrev DAYS100YEARS : Nat := 365 * 100 + 24

abbrev DAYS400YEARS : Nat := 365 * 400 + 97

abbrev SECS_PER_DAY : Nat := 86400

abbrev SECS_PER_HOUR : Nat := 3600

abbrev SECS_PER_MINUTE : Nat := 60

structure ClockYmdhms where
  year : Nat
  mon : Nat
  day : Nat
  wday : Nat
  hour : Nat
  min : Nat
  sec : Nat
  deriving DecidableEq

inductive Errno where
  | einval
  deriving DecidableEq

def daysInMonth (m : Nat) : Int :=
  match m with
  | 2 => 28
  | 4 | 6 | 9 | 11 => 30
  | 1 | 3 | 5 | 7 | 8 | 10 | 12 => 31
  | _ => -1

def isLeapYear (year : Nat) : Bool :=
  if year &&& 3 ≠ 0 then false
  else if year % 100 ≠ 0 then true
  else year % 400 == 0

def daysPerYear (year : Nat) : Int := if isLeapYear year then 366 else 365

/-- The days of the years before `dtYear` are added. -/
def addYears (days : Int) (dtYear : Nat) : Int :=
  if dtYear < 2001 then
    -- The simple way, for early years.
    (List.range' POSIX_BASE_YEAR (dtYear - POSIX_BASE_YEAR)).foldl (fun days i => days + daysPerYear i) days
  else
    let year := dtYear - 2001
    let i400 := year / 400
    let year := year - i400 * 400
    let i100 := year / 100
    let year := year - i100 * 100
    let i4 := year / 4
    let year := year - i4 * 4
    let days := days + DAYSTO2001 + i400 * DAYS400YEARS + i100 * DAYS100YEARS + i4 * DAYS4YEARS
    (List.range' (dtYear - year) year).foldl (fun days i => days + daysPerYear i) days

def clockYmdhmsToSecs (dt : ClockYmdhms) : Int :=
  if dt.year < POSIX_BASE_YEAR then -1
  else
    let days : Int := if isLeapYear dt.year ∧ dt.mon > FEBRUARY then 1 else 0
    let days := addYears days dt.year
    let days := (List.range' 1 (dt.mon - 1)).foldl (fun days i => days + daysInMonth i) days
    let days := days + (dt.day - 1)
    let secs := (((days * 24 + dt.hour) * 60 + dt.min) * 60 + dt.sec) % 2 ^ 64
    if 2 ^ 63 ≤ secs then -1 else secs

/-- Whole years are subtracted, counting them in `i`. -/
def subtractYears : Nat → Nat → Int → Nat × Int
  | 0, i, days => (i, days)
  | n + 1, i, days => if days ≥ daysPerYear i then subtractYears n (i + 1) (days - daysPerYear i) else (i, days)

/-- Whole months are subtracted, counting them in `i`. No year is longer than its twelve
months, so that the loop ends with one of them (`subtractMonths_spec`). -/
def subtractMonths (year : Nat) : Nat → Int → Nat → Int → Nat × Int
  | 0, _, i, days => (i, days)
  | n + 1, leap, i, days =>
    if days ≥ daysInMonth i + leap then
      subtractMonths year n (if i = 1 ∧ isLeapYear year then 1 else 0) (i + 1) (days - (daysInMonth i + leap))
    else (i, days)

def clockSecsToYmdhms (secs : Int) : Except Errno ClockYmdhms :=
  if secs < 0 then .error .einval
  else
    let days := secs / SECS_PER_DAY
    let rsec := secs % SECS_PER_DAY
    let wday := (days + 4) % 7
    let (year, days) :=
      if days ≥ DAYSTO2001 then
        let days := days - DAYSTO2001
        let i400 := days / DAYS400YEARS
        let days := days - i400 * DAYS400YEARS
        let i100 := days / DAYS100YEARS
        let days := days - i100 * DAYS100YEARS
        let i4 := days / DAYS4YEARS
        let days := days - i4 * DAYS4YEARS
        subtractYears days.toNat (2001 + i400 * 400 + i100 * 100 + i4 * 4).toNat days
      else subtractYears days.toNat POSIX_BASE_YEAR days
    let (mon, days) := subtractMonths year 12 0 1 days
    .ok
      { year := year
        mon := mon % 2 ^ 8
        day := (days + 1).toNat % 2 ^ 8
        wday := wday.toNat
        hour := (rsec / SECS_PER_HOUR).toNat
        min := (rsec % SECS_PER_HOUR / SECS_PER_MINUTE).toNat
        sec := (rsec % SECS_PER_HOUR % SECS_PER_MINUTE).toNat }

theorem isLeapYear_iff {y : Nat} : isLeapYear y = true ↔ isLeap y := by
  unfold isLeapYear isLeap
  have hand : y &&& 3 = y % 4 := and_two_pow_sub_one_eq_mod y 2
  rw [hand]
  by_cases h4 : y % 4 ≠ 0
  · rw [if_pos h4]
    simp only [Bool.false_eq_true, false_iff]
    omega
  rw [if_neg h4]
  by_cases h100 : y % 100 ≠ 0
  · rw [if_pos h100]
    simp only [true_iff]
    omega
  · rw [if_neg h100, beq_iff_eq]
    omega

theorem daysPerYear_eq (y : Nat) : daysPerYear y = yearLength y := by
  unfold daysPerYear yearLength
  by_cases hleap : isLeap y
  · rw [if_pos (isLeapYear_iff.mpr hleap), if_pos hleap]
    rfl
  · rw [if_neg (fun h => hleap (isLeapYear_iff.mp h)), if_neg hleap]
    rfl

theorem daysInMonth_eq {y m : Nat} (h₁ : 1 ≤ m) (h₁₂ : m ≤ 12) :
    (monthLength y m : Int) = daysInMonth m + if m = 2 ∧ isLeapYear y then 1 else 0 := by
  unfold monthLength
  by_cases hfeb : m = 2
  · subst hfeb
    by_cases hleap : isLeap y
    · simp [hleap, isLeapYear_iff.mpr hleap, daysInMonth]
    have hnot : isLeapYear y = false := by
      rw [← Bool.not_eq_true, isLeapYear_iff]
      exact hleap
    simp [hleap, hnot, daysInMonth]
  · interval_cases m <;> first | rfl | exact absurd rfl hfeb

/-! ### From seconds to a date -/

theorem subtractYears_spec {n i : Nat} {days : Int} (hi : 1970 ≤ i) (hn : days.toNat ≤ n) (hd : 0 ≤ days) :
    ∃ j d : Nat, subtractYears n i days = (j, (d : Int)) ∧ i ≤ j ∧ (yearStart j + d : Int) = yearStart i + days ∧ d < yearLength j := by
  induction n generalizing i days with
  | zero =>
    have hlen := yearLength_pos i
    refine ⟨i, 0, ?_, le_refl i, by omega, by omega⟩
    rw [subtractYears]
    congr 1
    omega
  | succ n ih =>
    have hlen := yearLength_pos i
    rw [subtractYears, daysPerYear_eq]
    by_cases hge : days ≥ yearLength i
    · rw [if_pos hge]
      obtain ⟨j, d, heq, hij, hsum, hlt⟩ := @ih (i + 1) (days - yearLength i) (by omega) (by omega) (by omega)
      refine ⟨j, d, heq, by omega, ?_, hlt⟩
      rw [hsum, yearStart_succ hi]
      omega
    · rw [if_neg hge]
      refine ⟨i, days.toNat, ?_, le_refl i, by omega, by omega⟩
      congr 1
      omega

theorem subtractMonths_spec {y n i d : Nat} (hi : 1 ≤ i) (hn : i + n = 13) (hd : monthStart y i + d < yearLength y) :
    ∃ m r : Nat, subtractMonths y n (if i = 2 ∧ isLeapYear y then 1 else 0) i d = (m, (r : Int)) ∧ 1 ≤ m ∧ m ≤ 12 ∧
      monthStart y m + r = monthStart y i + d ∧ r < monthLength y m := by
  induction n generalizing i d with
  | zero =>
    have h13 : i = 13 := by omega
    rw [h13, monthStart_13] at hd
    omega
  | succ n ih =>
    have hmonth := @daysInMonth_eq y i hi (by omega)
    rw [subtractMonths, ← hmonth]
    by_cases hge : (d : Int) ≥ monthLength y i
    · rw [if_pos hge]
      have hleap : (if i = 1 ∧ isLeapYear y then (1 : Int) else 0) = if i + 1 = 2 ∧ isLeapYear y then 1 else 0 :=
        if_congr (and_congr (by omega) Iff.rfl) rfl rfl
      have hrest : (d : Int) - monthLength y i = (d - monthLength y i : Nat) := by omega
      have hsucc := @monthStart_succ y i hi
      rw [hleap, hrest]
      obtain ⟨m, r, heq, hm₁, hm₁₂, hsum, hlt⟩ := ih (i := i + 1) (d := d - monthLength y i) (by omega) (by omega) (by omega)
      exact ⟨m, r, heq, hm₁, hm₁₂, by omega, hlt⟩
    · rw [if_neg hge]
      exact ⟨i, d, rfl, hi, by omega, rfl, by omega⟩

/-- The last day of a period of 400 years counted from 2001: the 31st of December of 2400, of
2800 and so on. -/
def LastOfPeriod (secs : Int) : Prop :=
  DAYSTO2001 ≤ secs / SECS_PER_DAY ∧ (secs / SECS_PER_DAY - DAYSTO2001) % DAYS400YEARS = DAYS400YEARS - 1

instance (secs : Int) : Decidable (LastOfPeriod secs) := inferInstanceAs (Decidable (_ ∧ _))

theorem periods_closed {i400 i100 i4 : Nat} (h100 : i100 ≤ 3) (h4 : i4 ≤ 24) :
    (DAYSTO2001 + i400 * DAYS400YEARS + i100 * DAYS100YEARS + i4 * DAYS4YEARS : Int) = yearStart (2001 + 400 * i400 + 100 * i100 + 4 * i4) := by
  generalize hz : 2001 + 400 * i400 + 100 * i100 + 4 * i4 = z
  have hclosed := @yearStart_closed z (by omega)
  rw [show DAYSTO2001 = 11323 from rfl, show DAYS400YEARS = 146097 from rfl, show DAYS100YEARS = 36524 from rfl,
    show DAYS4YEARS = 1461 from rfl]
  omega

theorem fifth_closed (i400 : Nat) : (DAYSTO2001 + (i400 + 1 : Nat) * DAYS400YEARS : Int) = yearStart (2001 + 400 * i400 + 100 * 4 + 4 * 0) := by
  have hclosed := @periods_closed (i400 + 1) 0 0 (by decide) (by decide)
  have hnext : 2001 + 400 * (i400 + 1) + 100 * 0 + 4 * 0 = 2001 + 400 * i400 + 100 * 4 + 4 * 0 := by omega
  rw [hnext] at hclosed
  rw [← hclosed, cast_zero, zero_mul, zero_mul, add_zero, add_zero]

theorem cut (d k : Nat) : (d : Int) / (k : Int) = (d / k : Nat) ∧ (d : Int) - (d / k : Nat) * (k : Int) = (d % k : Nat) := by
  have hsum := congrArg (Nat.cast : Nat → Int) (div_add_mod' d k)
  omega

/-- The year and the day in it are right unless the day is the last of a period: that one is
taken for a fifth hundred years, and the year after it begins. -/
theorem years_spec {days : Int} (hd : 0 ≤ days) : ∃ y d : Nat, (if days ≥ DAYSTO2001 then
        let days := days - DAYSTO2001
        let i400 := days / DAYS400YEARS
        let days := days - i400 * DAYS400YEARS
        let i100 := days / DAYS100YEARS
        let days := days - i100 * DAYS100YEARS
        let i4 := days / DAYS4YEARS
        let days := days - i4 * DAYS4YEARS
        subtractYears days.toNat (2001 + i400 * 400 + i100 * 100 + i4 * 4).toNat days
      else subtractYears days.toNat POSIX_BASE_YEAR days) = (y, (d : Int)) ∧ 1970 ≤ y ∧ d < yearLength y ∧
    (yearStart y + d : Int) = days + if DAYSTO2001 ≤ days ∧ (days - DAYSTO2001) % DAYS400YEARS = DAYS400YEARS - 1 then 1 else 0 := by
  have e2001 : ((DAYSTO2001 : Nat) : Int) = 11323 := rfl
  have e400 : ((DAYS400YEARS : Nat) : Int) = 146097 := rfl
  have e100 : ((DAYS100YEARS : Nat) : Int) = 36524 := rfl
  have e4 : ((DAYS4YEARS : Nat) : Int) = 1461 := rfl
  simp only [e2001, e400, e100, e4]
  by_cases hearly : days ≥ 11323
  · rw [if_pos hearly]
    obtain ⟨e, rfl⟩ : ∃ e : Nat, days = 11323 + (e : Int) := ⟨(days - 11323).toNat, by omega⟩
    clear hd hearly e2001 e400 e100 e4
    have hlast : (11323 ≤ 11323 + (e : Int) ∧ (11323 + (e : Int) - 11323) % 146097 = 146097 - 1) ↔ e % 146097 = 146096 := by omega
    rw [if_congr hlast rfl rfl]
    clear hlast
    have hstart : 11323 + (e : Int) - 11323 = e := by omega
    obtain ⟨hq400, hr400⟩ := cut e 146097
    obtain ⟨hq100, hr100⟩ := cut (e % 146097) 36524
    obtain ⟨hq4, hr4⟩ := cut (e % 146097 % 36524) 1461
    rw [cast_ofNat] at hq400 hr400 hq100 hr100 hq4 hr4
    simp only [hstart, hq400, hr400, hq100, hr100, hq4, hr4, Int.toNat_natCast]
    clear hstart hq400 hr400 hq100 hr100 hq4 hr4
    have hsum400 := div_add_mod e 146097
    have hsum100 := div_add_mod (e % 146097) 36524
    have hsum4 := div_add_mod (e % 146097 % 36524) 1461
    have hlt400 := mod_lt e (show 0 < 146097 by decide)
    have hlt100 := mod_lt (e % 146097) (show 0 < 36524 by decide)
    have hlt4 := mod_lt (e % 146097 % 36524) (show 0 < 1461 by decide)
    generalize e % 146097 = d100, e / 146097 = i400 at *
    generalize d100 % 36524 = d4, d100 / 36524 = i100 at *
    generalize d4 % 1461 = d1, d4 / 1461 = i4 at *
    have hyear : (2001 + (i400 : Int) * 400 + (i100 : Int) * 100 + (i4 : Int) * 4).toNat = 2001 + 400 * i400 + 100 * i100 + 4 * i4 := by
      omega
    rw [hyear]
    obtain ⟨j, d, heq, hij, hsum, hlt⟩ := @subtractYears_spec d1 (2001 + 400 * i400 + 100 * i100 + 4 * i4) d1 (by omega) (le_refl _) (by omega)
    refine ⟨j, d, heq, by omega, hlt, ?_⟩
    rw [hsum]
    by_cases hfifth : d100 = 146096
    · -- the fifth hundred years are the year after the period
      obtain ⟨rfl, rfl, rfl⟩ : i100 = 4 ∧ i4 = 0 ∧ d1 = 0 := by omega
      have hclosed := fifth_closed i400
      rw [if_pos hfifth, ← hclosed, show DAYSTO2001 = 11323 from rfl, show DAYS400YEARS = 146097 from rfl]
      omega
    · have hclosed := @periods_closed i400 i100 i4 (by omega) (by omega)
      rw [← hclosed, show DAYSTO2001 = 11323 from rfl, show DAYS400YEARS = 146097 from rfl,
        show DAYS100YEARS = 36524 from rfl, show DAYS4YEARS = 1461 from rfl]
      omega
  · rw [if_neg hearly]
    obtain ⟨j, d, heq, hij, hsum, hlt⟩ := @subtractYears_spec days.toNat 1970 days (le_refl _) (le_refl _) hd
    refine ⟨j, d, heq, hij, hlt, ?_⟩
    rw [hsum, yearStart_1970]
    omega

theorem clockSecsToYmdhms_spec {secs : Int} (hs : 0 ≤ secs) : ∃ y m d : Nat, clockSecsToYmdhms secs = .ok
      { year := y, mon := m, day := d, wday := ((secs / 86400 + 4) % 7).toNat, hour := (secs % 86400 / 3600).toNat,
        min := (secs % 86400 % 3600 / 60).toNat, sec := (secs % 86400 % 3600 % 60).toNat } ∧
    IsDate y m d ∧ (dayNumber y m d : Int) = secs / 86400 + if LastOfPeriod secs then 1 else 0 := by
  have hdays₀ : 0 ≤ secs / SECS_PER_DAY := Int.ediv_nonneg hs (by decide)
  obtain ⟨y, r, hyear, hy, hr, hsum⟩ := years_spec hdays₀
  obtain ⟨m, d, hmonth, hm₁, hm₁₂, hdays, hd⟩ := @subtractMonths_spec y 12 1 r (le_refl 1) rfl (by rwa [monthStart_one, zero_add])
  have hlen : monthLength y m ≤ 31 := by
    unfold monthLength
    split_ifs <;> omega
  rw [monthStart_one, zero_add] at hdays
  rw [if_neg (show ¬((1 : Nat) = 2 ∧ isLeapYear y = true) from fun h => absurd h.1 (by decide))] at hmonth
  unfold clockSecsToYmdhms
  rw [if_neg (not_lt.mpr hs)]
  dsimp only at hyear ⊢
  rw [hyear]
  rw [hmonth]
  rw [show m % 2 ^ 8 = m by omega, show (d + 1 : Int).toNat % 2 ^ 8 = d + 1 by omega]
  refine ⟨y, m, d + 1, rfl, ⟨hy, hm₁, hm₁₂, by omega, hd⟩, ?_⟩
  rw [dayNumber, Nat.add_sub_cancel, add_assoc, hdays]
  exact hsum

theorem foldl_years (days : Int) {a : Nat} (n : Nat) (ha : 1970 ≤ a) :
    (List.range' a n).foldl (fun days i => days + daysPerYear i) days + yearStart a = days + yearStart (a + n) := by
  induction n with
  | zero => rfl
  | succ n ih =>
    rw [range'_concat, foldl_append, foldl_cons, foldl_nil, ← add_assoc, yearStart_succ (by omega), daysPerYear_eq, one_mul]
    omega

theorem foldl_months (days : Int) {y m : Nat} (hm₁ : 1 ≤ m) (hm₁₂ : m ≤ 12) :
    (List.range' 1 (m - 1)).foldl (fun days i => days + daysInMonth i) days + (if isLeapYear y ∧ 2 < m then 1 else 0) =
      days + monthStart y m := by
  induction m, hm₁ using le_induction with
  | base => simp
  | succ m hm₁ ih =>
    have hmonth := @daysInMonth_eq y m hm₁ (by omega)
    have hsum := ih (by omega)
    obtain ⟨k, rfl⟩ : ∃ k, m = k + 1 := ⟨m - 1, by omega⟩
    rw [Nat.add_sub_cancel] at hsum ⊢
    rw [range'_concat, monthStart_succ hm₁, one_mul, add_comm 1 k, cast_add, hmonth, ← add_assoc, ← hsum]
    -- The day that February adds is counted behind it.
    by_cases hleap : isLeapYear y = true
    · by_cases hfeb : k + 1 = 2
      · simp [hleap, hfeb]
        omega
      by_cases hlate : 2 < k + 1
      · simp [hleap, hfeb, hlate, show 2 < k + 1 + 1 by omega]
        omega
      · simp [hleap, hfeb, hlate, show ¬2 < k + 1 + 1 by omega]
    · simp [hleap]

theorem addYears_eq (days : Int) {y : Nat} (hy : 1970 ≤ y) : addYears days y = days + yearStart y := by
  unfold addYears
  by_cases hearly : y < 2001
  · rw [if_pos hearly]
    have hsum := @foldl_years days 1970 (y - 1970) (le_refl _)
    rwa [yearStart_1970, Nat.add_sub_cancel' hy, cast_zero, add_zero] at hsum
  rw [if_neg hearly]
  dsimp only
  generalize h400 : (y - 2001) / 400 = i400
  generalize hr400 : y - 2001 - i400 * 400 = r400
  generalize h100 : r400 / 100 = i100
  generalize hr100 : r400 - i100 * 100 = r100
  generalize h4 : r100 / 4 = i4
  generalize hr4 : r100 - i4 * 4 = r4
  have hsum := @foldl_years (days + DAYSTO2001 + i400 * DAYS400YEARS + i100 * DAYS100YEARS + i4 * DAYS4YEARS) (y - r4) r4
    (by omega)
  have hperiods := @periods_closed i400 i100 i4 (by omega) (by omega)
  rw [show 2001 + 400 * i400 + 100 * i100 + 4 * i4 = y - r4 by omega] at hperiods
  rw [Nat.sub_add_cancel (by omega)] at hsum
  linarith only [hsum, hperiods]

theorem clockYmdhmsToSecs_spec {dt : ClockYmdhms} (h : IsDate dt.year dt.mon dt.day) : clockYmdhmsToSecs dt =
    let secs : Int := (((dayNumber dt.year dt.mon dt.day * 24 + dt.hour) * 60 + dt.min) * 60 + dt.sec) % 2 ^ 64
    if 2 ^ 63 ≤ secs then -1 else secs := by
  obtain ⟨hy, hm₁, hm₁₂, hd, -⟩ := h
  have hmonths := @foldl_months (yearStart dt.year) dt.year dt.mon hm₁ hm₁₂
  have hshift : ∀ (ms : List Nat) (a b : Int), ms.foldl (fun days i => days + daysInMonth i) (a + b) =
      a + ms.foldl (fun days i => days + daysInMonth i) b := by
    intro ms a
    induction ms with
    | nil => exact fun _ => rfl
    | cons m ms ih =>
      intro b
      rw [foldl_cons, foldl_cons, add_assoc, ih]
  have hdays : (List.range' 1 (dt.mon - 1)).foldl (fun days i => days + daysInMonth i)
      (addYears (if isLeapYear dt.year = true ∧ dt.mon > FEBRUARY then 1 else 0) dt.year) + ((dt.day : Int) - 1) =
        dayNumber dt.year dt.mon dt.day := by
    rw [addYears_eq _ hy, hshift, dayNumber]
    push_cast [hd]
    linarith only [hmonths]
  unfold clockYmdhmsToSecs
  rw [if_neg (not_lt.mpr hy)]
  dsimp only
  rw [hdays]

/-- What the two conversions are for. -/
def CalendarRight (secs : Int) : Prop := ∃ dt, clockSecsToYmdhms secs = .ok dt ∧ IsDate dt.year dt.mon dt.day ∧
  (dayNumber dt.year dt.mon dt.day : Int) = secs / 86400 ∧ dt.hour < 24 ∧ dt.min < 60 ∧ dt.sec < 60 ∧
  dt.wday = weekday dt.year dt.mon dt.day ∧ clockYmdhmsToSecs dt = secs

/-- A date of the calendar comes back as the same second, unless the day is the last of a
period of 400 years. -/
theorem calendar_right {secs : Int} (hs : 0 ≤ secs) (hlt : secs < 2 ^ 63) : CalendarRight secs ↔ ¬LastOfPeriod secs := by
  obtain ⟨y, m, d, hok, hdate, hday⟩ := clockSecsToYmdhms_spec hs
  constructor
  · intro ⟨dt, hdt, _, hnumber, _⟩ hlast
    obtain rfl := Except.ok.inj (hok.symm.trans hdt)
    rw [if_pos hlast] at hday
    have hnumber : (dayNumber y m d : Int) = secs / 86400 := hnumber
    omega
  intro hlast
  rw [if_neg hlast, add_zero] at hday
  refine ⟨_, hok, hdate, hday, ?_, ?_, ?_, ?_, ?_⟩
  · show (secs % 86400 / 3600).toNat < 24
    omega
  · show (secs % 86400 % 3600 / 60).toNat < 60
    omega
  · show (secs % 86400 % 3600 % 60).toNat < 60
    omega
  · show ((secs / 86400 + 4) % 7).toNat = (dayNumber y m d + 4) % 7
    omega
  rw [clockYmdhmsToSecs_spec hdate]
  have hsecs : (((dayNumber y m d : Int) * 24 + (secs % 86400 / 3600).toNat) * 60 + (secs % 86400 % 3600 / 60).toNat) * 60 +
      (secs % 86400 % 3600 % 60).toNat = secs := by
    omega
  rw [hsecs, Int.emod_eq_of_lt hs (by omega), if_neg (not_le.mpr hlt)]

/-- The 30th of December of 2400. -/
theorem calendar_right_2400 : CalendarRight 13600915200 := (calendar_right (by decide) (by decide)).mpr (by decide)

/-- The 31st of December of 2400 is taken for the 1st of January of 2401. -/
theorem calendar_wrong : ¬∀ secs : Int, 0 ≤ secs → secs < 2 ^ 63 → CalendarRight secs := by
  intro h
  obtain ⟨dt, hdt, -, -, -, -, -, -, hback⟩ := h 13601001600 (by decide) (by decide)
  have hok : clockSecsToYmdhms 13601001600 = .ok { year := 2401, mon := 1, day := 1, wday := 0, hour := 0, min := 0, sec := 0 } := by decide
  obtain rfl := Except.ok.inj (hok.symm.trans hdt)
  exact absurd hback (by decide)

/-! ### Dates that are too late -/

/-- A date and time of day in the ranges that are documented; the year has 64 bits. -/
structure ClockYmdhms.Valid (dt : ClockYmdhms) : Prop where
  date : IsDate dt.year dt.mon dt.day
  year : dt.year < 2 ^ 64
  hour : dt.hour < 24
  min : dt.min < 60
  sec : dt.sec < 60

/-- The seconds from the epoch to a date, however late. -/
def secondsOf (dt : ClockYmdhms) : Nat := ((dayNumber dt.year dt.mon dt.day * 24 + dt.hour) * 60 + dt.min) * 60 + dt.sec

/-- The result for a date is right: the seconds, or -1 if a `time_t` does not hold them. -/
def Detects (dt : ClockYmdhms) : Prop := clockYmdhmsToSecs dt = if secondsOf dt < 2 ^ 63 then (secondsOf dt : Int) else -1

/-- The seconds are a multiple of 2^64 later than ones that a `time_t` holds. -/
def Wraps (dt : ClockYmdhms) : Prop := 2 ^ 63 ≤ secondsOf dt ∧ secondsOf dt / 2 ^ 63 % 2 = 0

/-- Of two dates one is before the other. -/
def ClockYmdhms.Before (dt dt' : ClockYmdhms) : Prop :=
  (dt.year < dt'.year ∨ dt.year = dt'.year ∧ (dt.mon < dt'.mon ∨ dt.mon = dt'.mon ∧ dt.day < dt'.day)) ∨
    (dt.year = dt'.year ∧ dt.mon = dt'.mon ∧ dt.day = dt'.day) ∧
      (dt.hour < dt'.hour ∨ dt.hour = dt'.hour ∧ (dt.min < dt'.min ∨ dt.min = dt'.min ∧ dt.sec < dt'.sec))

section
variable {dt : ClockYmdhms} (h : IsDate dt.year dt.mon dt.day)
include h

theorem clockYmdhmsToSecs_eq : clockYmdhmsToSecs dt = if 2 ^ 63 ≤ secondsOf dt % 2 ^ 64 then -1 else ((secondsOf dt % 2 ^ 64 : Nat) : Int) := by
  have hcast : ((((dayNumber dt.year dt.mon dt.day : Int) * 24 + dt.hour) * 60 + dt.min) * 60 + dt.sec) % 2 ^ 64 =
      ((secondsOf dt % 2 ^ 64 : Nat) : Int) := by
    rfl
  rw [clockYmdhmsToSecs_spec h]
  rw [hcast]
  by_cases hlate : 2 ^ 63 ≤ secondsOf dt % 2 ^ 64
  · rw [if_pos hlate, if_pos (by exact_mod_cast hlate)]
  · rw [if_neg hlate, if_neg (by exact_mod_cast hlate)]

theorem detects_iff : Detects dt ↔ ¬Wraps dt := by
  rw [Detects, Wraps, clockYmdhmsToSecs_eq h]
  generalize secondsOf dt = secs
  by_cases hfits : secs < 2 ^ 63
  · have hmod : secs % 2 ^ 64 = secs := mod_eq_of_lt (by omega)
    rw [if_pos hfits, hmod, if_neg (Nat.not_le.mpr hfits)]
    exact iff_of_true rfl fun hwraps => absurd hwraps.1 (Nat.not_le.mpr hfits)
  rw [if_neg hfits]
  by_cases hlate : 2 ^ 63 ≤ secs % 2 ^ 64
  · rw [if_pos hlate]
    exact iff_of_true rfl fun hwraps => by omega
  · exact iff_of_false (fun heq => by omega) (not_not_intro ⟨Nat.le_of_not_lt hfits, by omega⟩)

end

theorem secondsOf_lt {dt dt' : ClockYmdhms} (h : dt.Valid) (h' : dt'.Valid) (hlt : dt.Before dt') : secondsOf dt < secondsOf dt' := by
  have hhour := h.hour
  have hmin := h.min
  have hsec := h.sec
  unfold secondsOf
  rcases hlt with hday | ⟨⟨hy, hm, hd⟩, htime⟩
  · have hdays := dayNumber_lt h.date h'.date hday
    omega
  · rw [hy, hm, hd]
    omega

theorem year_le_secondsOf (dt : ClockYmdhms) : yearStart dt.year * 86400 ≤ secondsOf dt := by
  unfold secondsOf dayNumber
  omega

theorem secondsOf_lt_year {dt : ClockYmdhms} (h : dt.Valid) : secondsOf dt < yearStart (dt.year + 1) * 86400 := by
  have hday := dayNumber_lt_year h.date
  have hhour := h.hour
  have hmin := h.min
  have hsec := h.sec
  unfold secondsOf
  omega

/-- Unless the seconds wrap into the range of a `time_t`, the result for a date is right, and of
two dates with results the later one has the larger. -/
theorem overflow_detected {dt : ClockYmdhms} (h : dt.Valid) : (Detects dt ↔ ¬Wraps dt) ∧
    ∀ dt' : ClockYmdhms, dt'.Valid → ¬Wraps dt → ¬Wraps dt' → clockYmdhmsToSecs dt ≠ -1 → clockYmdhmsToSecs dt' ≠ -1 →
      dt.Before dt' → clockYmdhmsToSecs dt < clockYmdhmsToSecs dt' := by
  refine ⟨detects_iff h.date, fun dt' h' hwraps hwraps' hsecs hsecs' hbefore => ?_⟩
  have hright := (detects_iff h.date).mpr hwraps
  have hright' := (detects_iff h'.date).mpr hwraps'
  rw [hright] at hsecs ⊢
  rw [hright'] at hsecs' ⊢
  rw [if_pos (by_contra fun hlate => hsecs (if_neg hlate)), if_pos (by_contra fun hlate => hsecs' (if_neg hlate))]
  exact Int.ofNat_lt.mpr (secondsOf_lt h h' hbefore)

/-- The last second of the last year that a `time_t` holds. -/
def lastYear : ClockYmdhms := { year := 292277026595, mon := 12, day := 31, wday := 0, hour := 23, min := 59, sec := 59 }

theorem overflow_detected_last : Detects lastYear := by
  have hvalid : lastYear.Valid := ⟨⟨by decide, by decide, by decide, by decide, by decide⟩, by decide, by decide, by decide, by decide⟩
  apply (overflow_detected hvalid).1.mpr
  have hclosed := @yearStart_closed (lastYear.year + 1) (by decide)
  have hyear := secondsOf_lt_year hvalid
  rw [show lastYear.year = 292277026595 from rfl] at hclosed hyear
  intro hwraps
  have hlate := hwraps.1
  omega

/-- The beginning of a year whose seconds are beyond 2^64. -/
def wrappedYear : ClockYmdhms := { year := 600000000000, mon := 1, day := 1, wday := 0, hour := 0, min := 0, sec := 0 }

theorem overflow_missed : ¬∀ dt : ClockYmdhms, dt.Valid → Detects dt := by
  intro hall
  have hvalid : wrappedYear.Valid := ⟨⟨by decide, by decide, by decide, by decide, by decide⟩, by decide, by decide, by decide, by decide⟩
  have hright := hall wrappedYear hvalid
  have hlate : ¬secondsOf wrappedYear < 2 ^ 63 := by
    have hclosed := @yearStart_closed wrappedYear.year (by decide)
    have hyear := year_le_secondsOf wrappedYear
    rw [show wrappedYear.year = 600000000000 from rfl] at hclosed hyear
    omega
  have hfound : clockYmdhmsToSecs wrappedYear ≠ -1 := by decide
  rw [Detects, if_neg hlate] at hright
  exact hfound hright

end NetBSD.Dev
