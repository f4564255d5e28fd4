import NetBSD.Kern.Advlock.Calls
import NetBSD.Kern.Advlock.RangeMap

/-! The 64-bit arithmetic of lock requests (`sys/kern/vfs_lockf.c`).

`lf_advlock` makes an interval of a `struct flock` with additions that may wrap, and
looks at the sign of the start alone afterwards. Splitting and shrinking a lock then adds
one to the end of a request. The numbers on a list are unbounded here
(`Lockf.lfStart`), so that an addition that would overflow shows as a number that is no
`off_t`. `request_ok_iff` says which requests are well formed and never lead to one: those
whose last byte comes before the greatest offset. -/
namespace NetBSD.Kern.Advlock
open Lib

abbrev OffT := BitVec 64

/-- `struct flock`, what makes the range of it. -/
structure Flock where
  lWhence : Whence
  lStart : OffT
  lLen : OffT

/-- An interval of a start and a length; `none` is `EINVAL`. -/
def rangeFrom (start lLen : OffT) : Option (OffT × OffT) :=
  let (start, fin) :=
    if lLen = 0 then (start, -1)
    else if (0 : OffT).slt lLen then (start, start + lLen - 1)
    -- lockf() allows -ve lengths
    else (start + lLen, start - 1)
  if start.slt 0 then none else some (start, fin)

/-- The flock structure as a start and an end, in two's complement. -/
def Flock.range (fl : Flock) (size : OffT) : Option (OffT × OffT) := match fl.lWhence with
  | .seekSet | .seekCur => rangeFrom fl.lStart fl.lLen
  | .seekEnd => rangeFrom (size + fl.lStart) fl.lLen
  | .other => none

/-- A well-formed interval, of as many bytes as were asked for. -/
def WellFormed (start fin len : Int) : Prop :=
  0 ≤ start ∧ (fin = -1 ↔ len = 0) ∧ (fin ≠ -1 → start ≤ fin ∧ fin - start + 1 = len.natAbs)

/-- The number is one of an `off_t`. -/
def IsOffT (n : Int) : Prop := -2 ^ 63 ≤ n ∧ n < 2 ^ 63

/-- Where the request starts from, exactly. -/
def Flock.origin (fl : Flock) (size : OffT) : Int := match fl.lWhence with
  | .seekSet | .seekCur => fl.lStart.toInt
  | .seekEnd => size.toInt + fl.lStart.toInt
  | .other => -1

/-- The last byte of `len` bytes, counted back from `origin` if `len` is negative, is the
greatest offset or comes after it, or the first one wraps; and the start is taken all the
same. -/
def TooFar (origin len : Int) : Prop :=
  0 < len ∧ 0 ≤ origin ∧ origin < 2 ^ 63 ∧ 2 ^ 63 ≤ origin + len ∨
    len < 0 ∧ (2 ^ 63 ≤ origin ∧ origin + len < 2 ^ 63 ∨ origin + len < -2 ^ 63)

instance (origin len : Int) : Decidable (TooFar origin len) := inferInstanceAs (Decidable (_ ∨ _))

/-! ### The range -/

section Range
variable {fl : Flock} {size start fin : OffT}

theorem isOffT_toInt (x : OffT) : IsOffT x.toInt := ⟨x.le_toInt, x.toInt_lt⟩

theorem toInt_add_wraps (x y : OffT) : ∃ k : Int, -1 ≤ k ∧ k ≤ 1 ∧
    (x + y).toInt = x.toInt + y.toInt + k * 2 ^ 64 ∧ IsOffT (x + y).toInt := by
  have hx := isOffT_toInt x
  have hy := isOffT_toInt y
  have hsum := isOffT_toInt (x + y)
  rw [BitVec.toInt_add, Int.bmod_def] at hsum ⊢
  unfold IsOffT at hx hy hsum ⊢
  split_ifs at hsum ⊢
  · exact ⟨((x.toInt + y.toInt) % 2 ^ 64 - (x.toInt + y.toInt)) / 2 ^ 64, by omega, by omega, by omega, hsum⟩
  · exact ⟨((x.toInt + y.toInt) % 2 ^ 64 - 2 ^ 64 - (x.toInt + y.toInt)) / 2 ^ 64, by omega, by omega, by omega, hsum⟩

theorem toInt_sub_one (x : OffT) : (x - 1).toInt = if x.toInt = -2 ^ 63 then 2 ^ 63 - 1 else x.toInt - 1 := by
  have hx := isOffT_toInt x
  unfold IsOffT at hx
  rw [BitVec.toInt_sub, Int.bmod_def]
  have hone : (1 : OffT).toInt = 1 := rfl
  split_ifs <;> omega

theorem slt_zero (x : OffT) : x.slt 0 = true ↔ x.toInt < 0 := BitVec.slt_iff_toInt_lt

theorem zero_slt (x : OffT) : (0 : OffT).slt x = true ↔ 0 < x.toInt := BitVec.slt_iff_toInt_lt

theorem toInt_eq_zero (x : OffT) : x = 0 ↔ x.toInt = 0 := (BitVec.toInt_inj (y := (0 : OffT))).symm

/-- A range that is not too far is well formed and ends before the greatest offset, and
one that is too far is taken but is not. -/
theorem rangeFrom_cases {start len : OffT} {origin : Int}
    (hstart : start.toInt = origin ∨ 2 ^ 63 ≤ origin ∧ origin < 2 ^ 64 ∧ start.toInt = origin - 2 ^ 64) :
    rangeFrom start len = none ∧ ¬TooFar origin len.toInt ∨ ∃ first fin, rangeFrom start len = some (first, fin) ∧
        (¬TooFar origin len.toInt ↔ WellFormed first.toInt fin.toInt len.toInt ∧ fin.toInt ≤ maxEnd) := by
  have hs := isOffT_toInt start
  have hl := isOffT_toInt len
  unfold IsOffT at hs hl
  unfold rangeFrom
  by_cases hzero : len = 0
  · have hlen := (toInt_eq_zero len).mp hzero
    rw [if_pos hzero]
    simp only
    by_cases hneg : start.toInt < 0
    · rw [if_pos ((slt_zero start).mpr hneg)]
      refine .inl ⟨rfl, ?_⟩
      unfold TooFar
      omega
    rw [if_neg (mt (slt_zero start).mp hneg)]
    have hfin : (-1 : OffT).toInt = -1 := rfl
    refine .inr ⟨_, _, rfl, ?_⟩
    unfold TooFar WellFormed maxEnd
    omega
  have hlen := mt (toInt_eq_zero len).mpr hzero
  rw [if_neg hzero]
  by_cases hpos : 0 < len.toInt
  · rw [if_pos ((zero_slt len).mpr hpos)]
    simp only
    by_cases hneg : start.toInt < 0
    · rw [if_pos ((slt_zero start).mpr hneg)]
      refine .inl ⟨rfl, ?_⟩
      unfold TooFar
      omega
    rw [if_neg (mt (slt_zero start).mp hneg)]
    obtain ⟨k, hk, hk', hsum, hoff⟩ := toInt_add_wraps start len
    have hfin := toInt_sub_one (start + len)
    unfold IsOffT at hoff
    refine .inr ⟨_, _, rfl, ?_⟩
    unfold TooFar WellFormed maxEnd
    split_ifs at hfin <;> omega
  rw [if_neg (mt (zero_slt len).mp hpos)]
  obtain ⟨k, hk, hk', hsum, hoff⟩ := toInt_add_wraps start len
  unfold IsOffT at hoff
  simp only
  by_cases hneg : (start + len).toInt < 0
  · rw [if_pos ((slt_zero _).mpr hneg)]
    refine .inl ⟨rfl, ?_⟩
    unfold TooFar
    omega
  rw [if_neg (mt (slt_zero _).mp hneg)]
  have hfin := toInt_sub_one start
  refine .inr ⟨_, _, rfl, ?_⟩
  unfold TooFar WellFormed maxEnd
  split_ifs at hfin <;> omega

theorem Flock.range_cases (hsize : 0 ≤ size.toInt) (hw : fl.lWhence ≠ .other) :
    fl.range size = none ∧ ¬TooFar (fl.origin size) fl.lLen.toInt ∨ ∃ first fin, fl.range size = some (first, fin) ∧
        (¬TooFar (fl.origin size) fl.lLen.toInt ↔ WellFormed first.toInt fin.toInt fl.lLen.toInt ∧ fin.toInt ≤ maxEnd) := by
  unfold Flock.range Flock.origin
  cases hwhence : fl.lWhence with
  | seekSet => exact rangeFrom_cases (.inl rfl)
  | seekCur => exact rangeFrom_cases (.inl rfl)
  | seekEnd =>
    have hstart := isOffT_toInt fl.lStart
    have hs := isOffT_toInt size
    obtain ⟨k, hk, hk', hsum, hoff⟩ := toInt_add_wraps size fl.lStart
    unfold IsOffT at hstart hs hoff
    apply @rangeFrom_cases _ _ (size.toInt + fl.lStart.toInt)
    omega
  | other => exact absurd hwhence hw

end Range

/-! ### The lists -/

/-- The lock structure made for a flock structure. -/
structure RequestFor (fl : Flock) (size : OffT) (lock : Lockf) : Prop where
  range : ∃ first fin, fl.range size = some (first, fin) ∧ lock.lfStart = first.toInt ∧ lock.lfEnd = fin.toInt
  fresh : lock.lfBlkhd = []

/-- Of every request before, the range was not too far. -/
def NearAct (_ : Table) : ListAct → Prop
  | .setlock lock _ | .clearlock lock _ => ∃ fl : Flock, ∃ size : OffT, 0 ≤ size.toInt ∧ fl.lWhence ≠ .other ∧
      ¬TooFar (fl.origin size) fl.lLen.toInt ∧ RequestFor fl size lock
  | .queue _ _ => True

/-- The request is refused, or is for a well-formed interval; and no addition that makes
a boundary overflows when it splits or shrinks the locks of a list, each of which is kept
in an entry of the list. -/
structure RangeKept (fl : Flock) (size : OffT) : Prop where
  formed : ∀ lock, RequestFor fl size lock → WellFormed lock.lfStart lock.lfEnd fl.lLen.toInt
  boundaries : ∀ s, tableSystem.Reach NearAct s → ∀ lock sp r, RequestFor fl size lock →
    (lfSetlockGrant lock (some sp) s.list = some r ∨ lfClearlock lock (some sp) s.list = some r) →
      ∀ lf ∈ r.list, IsOffT lf.lfStart ∧ IsOffT lf.lfEnd

section Lists
variable {fl : Flock} {size : OffT} {lock : Lockf} {s : Table}

theorem RequestFor.near (h : RequestFor fl size lock) (hsize : 0 ≤ size.toInt) (hw : fl.lWhence ≠ .other)
    (hnear : ¬TooFar (fl.origin size) fl.lLen.toInt) :
    WellFormed lock.lfStart lock.lfEnd fl.lLen.toInt ∧ lock.RangeOk ∧ Fits maxEnd lock := by
  obtain ⟨first, fin, hrange, hstart, hend⟩ := h.range
  rcases Flock.range_cases hsize hw with ⟨hnone, -⟩ | ⟨first', fin', hrange', hiff⟩
  · rw [hnone] at hrange
    cases hrange
  rw [hrange] at hrange'
  cases hrange'
  obtain ⟨hformed, hmax⟩ := hiff.mp hnear
  have hoff := isOffT_toInt first
  rw [hstart, hend]
  refine ⟨hformed, ?_, ?_⟩
  · unfold WellFormed at hformed
    unfold Lockf.RangeOk
    omega
  unfold IsOffT at hoff
  unfold maxEnd at hmax
  unfold Fits maxEnd
  omega

theorem near_fits (s : Table) (a : ListAct) (h : NearAct s a) : ActFits a := by
  cases a with
  | setlock lock sp =>
    obtain ⟨fl, size, hsize, hw, hnear, hreq⟩ := h
    exact (hreq.near hsize hw hnear).2
  | clearlock lock sp =>
    obtain ⟨fl, size, hsize, hw, hnear, hreq⟩ := h
    exact (hreq.near hsize hw hnear).2
  | queue b waiters => trivial

theorem TableOk.isOffT (h : TableOk s) : ∀ lf ∈ s.list, IsOffT lf.lfStart ∧ IsOffT lf.lfEnd := by
  intro lf hlf
  have hrange := h.ranges lf hlf
  have hfits := h.fits lf hlf
  unfold Lockf.RangeOk at hrange
  unfold Fits maxEnd at hfits
  unfold IsOffT
  omega

/-- A lock of process 1 on the whole file. -/
def wholeLock : Lockf := ⟨1, .wrlck, 0, -1, .proc 1, [], 1000⟩

theorem wholeLock_reach : tableSystem.Reach NearAct ⟨[wholeLock], false⟩ :=
  .step (a := .setlock wholeLock wholeLock) (.init rfl)
    ⟨⟨.seekSet, 0, 0⟩, 0, by decide, by decide, by decide, ⟨⟨0, -1, rfl, rfl, rfl⟩, rfl⟩⟩ rfl

theorem clear_to_max {unlock sp : Lockf} {r : Edited} (hrange : unlock.RangeOk) (hend : unlock.lfEnd = 2 ^ 63 - 1)
    (hid : unlock.lfId = .proc 1) (hr : lfClearlock unlock (some sp) [wholeLock] = some r) :
    ¬∀ lf ∈ r.list, IsOffT lf.lfStart ∧ IsOffT lf.lfEnd := by
  intro hall
  have hok : RangesOk [wholeLock] := fun lf hlf => by
    rw [List.mem_singleton.mp hlf]
    decide
  have hs : Sorted [wholeLock] := List.pairwise_singleton _ _
  obtain ⟨r', hr', hedits, -⟩ := @lfClearlock_edits unlock (some sp) _ (.inl rfl) hok hs
  obtain rfl : r' = r := Option.some.inj (hr'.symm.trans hr)
  have hsorted := hedits.sorted hrange hok hs
  have hdenote := hedits.denote hrange hok hs (.proc 1)
  have hbeyond := hdenote (2 ^ 63)
  have hlast := hdenote (2 ^ 63 - 1)
  unfold Lockf.RangeOk at hrange
  unfold Lockf.Covers at hbeyond hlast
  rw [if_neg (by omega)] at hbeyond
  rw [if_pos ⟨hid.symm, by omega, by omega⟩] at hlast
  have hheld : denote [wholeLock] (.proc 1) (2 ^ 63) = some .wrlck := by decide
  obtain ⟨lf, hlf, hlfid, hlftype, hstart, hfin⟩ := (denote_eq_some_iff hsorted).mp (hbeyond.trans hheld)
  obtain ⟨hs', he'⟩ := hall lf hlf
  unfold IsOffT at hs' he'
  have hcov : Held r'.list (.proc 1) .wrlck (2 ^ 63 - 1) := ⟨lf, hlf, hlfid, hlftype, by omega, by omega⟩
  rw [(denote_eq_some_iff hsorted).mpr hcov] at hlast
  cases hlast

end Lists

/-- A request is refused or well formed, and splits and shrinks locks without overflow,
exactly when its range is not too far. -/
theorem request_ok_iff {fl : Flock} {size : OffT} (hsize : 0 ≤ size.toInt) (hw : fl.lWhence ≠ .other) :
    RangeKept fl size ↔ ¬TooFar (fl.origin size) fl.lLen.toInt := by
  constructor
  · intro hok
    rcases Flock.range_cases hsize hw with ⟨-, hnear⟩ | ⟨first, fin, hrange, hiff⟩
    · exact hnear
    have hreq : RequestFor fl size ⟨3, .unlck, first.toInt, fin.toInt, .proc 1, [], 1000⟩ :=
      ⟨⟨first, fin, hrange, rfl, rfl⟩, rfl⟩
    have hformed : WellFormed first.toInt fin.toInt fl.lLen.toInt := hok.formed _ hreq
    refine hiff.mpr ⟨hformed, ?_⟩
    by_contra hmax
    obtain ⟨hstart, -, hfin⟩ := hformed
    have hoff := isOffT_toInt fin
    unfold maxEnd at hmax
    unfold IsOffT at hoff
    have hr : Lockf.RangeOk ⟨3, .unlck, first.toInt, fin.toInt, .proc 1, [], 1000⟩ :=
      ⟨hstart, .inr (hfin (by omega)).1⟩
    have hlist : RangesOk [wholeLock] := (table_ok_of near_fits wholeLock_reach).ranges
    obtain ⟨r, hclear, -⟩ := @lfClearlock_edits _ (some wholeLock) _ (.inl rfl) hlist (List.pairwise_singleton _ _)
    exact clear_to_max hr (show fin.toInt = _ by omega) rfl hclear
      (hok.boundaries _ wholeLock_reach _ wholeLock r hreq (.inr hclear))
  · intro hnear
    refine ⟨fun lock hreq => (hreq.near hsize hw hnear).1, fun s hs lock sp r hreq hr => ?_⟩
    obtain ⟨-, hrange, hfits⟩ := hreq.near hsize hw hnear
    have htable := table_ok_of near_fits hs
    rcases hr with hr | hr
    · have hset := setlock_ok htable hrange hfits sp
      rw [hr] at hset
      exact hset.isOffT
    · have hclear := clearlock_ok htable hrange hfits sp
      rw [hr] at hclear
      exact hclear.isOffT

/-- The first ten bytes of a file. -/
theorem request_ok_iff_ten : RangeKept ⟨.seekSet, 0, 10⟩ 0 :=
  (request_ok_iff (by decide) (by decide)).mpr (by decide)

/-- As many bytes as an `off_t` can count, from the third on and from the second on. -/
theorem request_wraps : (Flock.range ⟨.seekSet, 2, 0x7fffffffffffffff⟩ 0).map (fun r => (r.1.toInt, r.2.toInt)) = some (2, -2 ^ 63) ∧
      ¬WellFormed 2 (-2 ^ 63) (2 ^ 63 - 1) ∧
      (Flock.range ⟨.seekSet, 1, 0x7fffffffffffffff⟩ 0).map (fun r => (r.1.toInt, r.2.toInt)) = some (1, 2 ^ 63 - 1) ∧
      (lfClearlock ⟨3, .unlck, 1, 2 ^ 63 - 1, .proc 1, [], 1000⟩ (some wholeLock) [wholeLock]).map
        (fun r => r.list.map fun lf => (lf.lfStart, lf.lfEnd)) = some [(0, 0), (2 ^ 63, -1)] ∧
      ¬IsOffT (2 ^ 63) := by
  refine ⟨by decide, by unfold WellFormed; omega, by decide, by decide, by unfold IsOffT; omega⟩

end NetBSD.Kern.Advlock
