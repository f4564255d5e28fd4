import Mathlib.Tactic.Common

/-! The list of advisory locks of a file (`sys/kern/vfs_lockf.c`).

A list is walked from some entry on by `lf_findoverlap`, which stops at the first entry
that overlaps a request, and `lf_clearlock`, `lf_getblock` and the second half of
`lf_setlock` go from one overlap to the next. What these do besides editing the list is
part of their result: the waiters they wake, those they move to another lock, the
structures they free, and the spare structure if it is left.

The functions follow the source: a loop goes once around per overlap, and a pointer
`prev` to the place where the list is edited is the part of the list before it. Below
each of them is the same function as one recursion over the list (`clearWalk`,
`setWalk`), which is what is reasoned about.

A result `none` is the panic of `lf_findoverlap`, a spare structure that is used and not
there, or a lock that is linked or freed while it is on the list. -/
namespace NetBSD.Kern.Advlock
open List

abbrev Addr := BitVec 64
abbrev Uid := BitVec 32

inductive LockType where
  | rdlck
  | unlck
  | wrlck
  deriving DecidableEq

/-- `lf_id`: a process with `F_POSIX`, a file description with `F_FLOCK`. -/
inductive Owner where
  | proc (p : Nat)
  | file (fp : Nat)
  deriving DecidableEq

/-- `struct lockf`. An end of -1 is the end of file; `off_t` is `Int`, as signed overflow
is undefined. -/
structure Lockf where
  addr : Addr
  lfType : LockType
  lfStart : Int
  lfEnd : Int
  lfId : Owner
  lfBlkhd : List Addr
  lfUid : Uid
  deriving DecidableEq

/-- The lock with its waiters gone. -/
def Lockf.quiet (lf : Lockf) : Lockf := {lf with lfBlkhd := []}

/-- The list with other waiters on the lock at `b`. -/
def requeue (b : Addr) (f : List Addr → List Addr) (list : List Lockf) : List Lockf :=
  list.map fun lf => if lf.addr = b then {lf with lfBlkhd := f lf.lfBlkhd} else lf

/-! ### Overlaps -/

/-- Whose locks `lf_findoverlap` looks at. -/
inductive Who where
  | self
  | others
  deriving DecidableEq

inductive OvCase where
  /-- overlap == lock -/
  | equal
  /-- overlap contains lock -/
  | contains
  /-- lock contains overlap -/
  | contained
  /-- overlap starts before lock -/
  | startsBefore
  /-- overlap ends after lock -/
  | endsAfter

def apart (lock lf : Lockf) : Prop :=
  (lf.lfEnd ≠ -1 ∧ lock.lfStart > lf.lfEnd) ∨ (lock.lfEnd ≠ -1 ∧ lf.lfStart > lock.lfEnd)

instance (lock lf : Lockf) : Decidable (apart lock lf) := inferInstanceAs (Decidable (_ ∨ _))

def ovcase (lock lf : Lockf) : Option OvCase :=
  if lf.lfStart = lock.lfStart ∧ lf.lfEnd = lock.lfEnd then some .equal
  else if lf.lfStart ≤ lock.lfStart ∧ lock.lfEnd ≠ -1 ∧ (lf.lfEnd ≥ lock.lfEnd ∨ lf.lfEnd = -1) then some .contains
  else if lock.lfStart ≤ lf.lfStart ∧ (lock.lfEnd = -1 ∨ (lf.lfEnd ≠ -1 ∧ lock.lfEnd ≥ lf.lfEnd)) then
    some .contained
  else if lf.lfStart < lock.lfStart ∧ (lf.lfEnd ≥ lock.lfStart ∨ lf.lfEnd = -1) then some .startsBefore
  else if lf.lfStart > lock.lfStart ∧ lock.lfEnd ≠ -1 ∧ (lf.lfEnd > lock.lfEnd ∨ lf.lfEnd = -1) then
    some .endsAfter
  else none

/-- What `lf_findoverlap` returns. The entries it passed are in front of `prev`. -/
inductive Overlap where
  | nothing (passed rest : List Lockf)
  | found (ovcase : OvCase) (passed : List Lockf) (overlap : Lockf) (rest : List Lockf)
  | panic

def Overlap.pass (lf : Lockf) : Overlap → Overlap
  | .nothing passed rest => .nothing (lf :: passed) rest
  | .found c passed overlap rest => .found c (lf :: passed) overlap rest
  | .panic => .panic

def lfFindoverlap (lock : Lockf) (type : Who) : List Lockf → Overlap
  | [] => .nothing [] []
  | lf :: rest =>
    if (type = .self ∧ lf.lfId ≠ lock.lfId) ∨ (type = .others ∧ lf.lfId = lock.lfId) then
      (lfFindoverlap lock type rest).pass lf
    else if apart lock lf then
      -- Locks of one owner are in order, so that there is nothing further on.
      if type = .self ∧ lock.lfEnd ≠ -1 ∧ lf.lfStart > lock.lfEnd then .nothing [] (lf :: rest)
      else (lfFindoverlap lock type rest).pass lf
    else match ovcase lock lf with
      | some c => .found c [] lf rest
      | none => .panic

/-- `lf_split`: what is left of `lock1` before and after `lock2`, and the spare. -/
def lfSplit (lock1 lock2 : Lockf) (spare : Option Lockf) : Option (List Lockf × List Lockf × Option Lockf) :=
  if lock1.lfStart = lock2.lfStart then some ([], [{lock1 with lfStart := lock2.lfEnd + 1}], spare)
  else if lock1.lfEnd = lock2.lfEnd then some ([{lock1 with lfEnd := lock2.lfStart - 1}], [], spare)
  else match spare with
    | none => none
    -- The new lock is a copy of `lock1`; only its address is its own.
    | some splitlock => some ([{lock1 with lfEnd := lock2.lfStart - 1}],
        [{lock1 with addr := splitlock.addr, lfStart := lock2.lfEnd + 1, lfBlkhd := []}], none)

structure Edited where
  list : List Lockf
  woken : List Addr
  moved : List Addr
  freed : List Lockf
  spare : Option Lockf

/-- What was edited, behind what came before it. -/
def Edited.behind (es : List Lockf) (woken moved : List Addr) (freed : List Lockf) (r : Edited) : Edited :=
  ⟨es ++ r.list, woken ++ r.woken, moved ++ r.moved, freed ++ r.freed, r.spare⟩

theorem Edited.behind_comp (es es' : List Lockf) (woken woken' moved moved' : List Addr) (freed freed' : List Lockf) :
    Edited.behind es woken moved freed ∘ Edited.behind es' woken' moved' freed' =
      Edited.behind (es ++ es') (woken ++ woken') (moved ++ moved') (freed ++ freed') := by
  funext r
  simp [Edited.behind]

/-- The loop of `lf_clearlock`. -/
def clearLoop (unlock : Lockf) (spare : Option Lockf) : Nat → List Lockf → Option Edited
  | 0, _ => none
  | fuel + 1, lf => match lfFindoverlap unlock .self lf with
    | .panic => none
    | .nothing passed rest => some ⟨passed ++ rest, [], [], [], spare⟩
    | .found .equal passed overlap rest => some ⟨passed ++ rest, overlap.lfBlkhd, [], [overlap.quiet], spare⟩
    | .found .contains passed overlap rest =>
      if overlap.lfStart = unlock.lfStart then
        some ⟨passed ++ {overlap.quiet with lfStart := unlock.lfEnd + 1} :: rest, overlap.lfBlkhd, [], [], spare⟩
      else (lfSplit overlap.quiet unlock spare).map fun (before, after, spare) =>
        ⟨passed ++ (before ++ after ++ rest), overlap.lfBlkhd, [], [], spare⟩
    | .found .contained passed overlap rest =>
      (clearLoop unlock spare fuel rest).map (.behind passed overlap.lfBlkhd [] [overlap.quiet])
    | .found .startsBefore passed overlap rest => (clearLoop unlock spare fuel rest).map
        (.behind (passed ++ [{overlap.quiet with lfEnd := unlock.lfStart - 1}]) overlap.lfBlkhd [] [])
    | .found .endsAfter passed overlap rest =>
      some ⟨passed ++ {overlap.quiet with lfStart := unlock.lfEnd + 1} :: rest, overlap.lfBlkhd, [], [], spare⟩

/-- `lf_clearlock`. Every round but the last takes an entry. -/
def lfClearlock (unlock : Lockf) (spare : Option Lockf) (list : List Lockf) : Option Edited :=
  clearLoop unlock spare (list.length + 1) list

/-- `lf_clearlock`, entry by entry. -/
def clearWalk (unlock : Lockf) (spare : Option Lockf) : List Lockf → Option Edited
  | [] => some ⟨[], [], [], [], spare⟩
  | lf :: rest =>
    if lf.lfId ≠ unlock.lfId then (clearWalk unlock spare rest).map (.behind [lf] [] [] [])
    else if apart unlock lf then
      if unlock.lfEnd ≠ -1 ∧ lf.lfStart > unlock.lfEnd then some ⟨lf :: rest, [], [], [], spare⟩
      else (clearWalk unlock spare rest).map (.behind [lf] [] [] [])
    else match ovcase unlock lf with
      | none => none
      | some .equal => some ⟨rest, lf.lfBlkhd, [], [lf.quiet], spare⟩
      | some .contains =>
        if lf.lfStart = unlock.lfStart then
          some ⟨{lf.quiet with lfStart := unlock.lfEnd + 1} :: rest, lf.lfBlkhd, [], [], spare⟩
        else (lfSplit lf.quiet unlock spare).map fun (before, after, spare) =>
          ⟨before ++ after ++ rest, lf.lfBlkhd, [], [], spare⟩
      | some .contained => (clearWalk unlock spare rest).map (.behind [] lf.lfBlkhd [] [lf.quiet])
      | some .startsBefore => (clearWalk unlock spare rest).map
          (.behind [{lf.quiet with lfEnd := unlock.lfStart - 1}] lf.lfBlkhd [] [])
      | some .endsAfter => some ⟨{lf.quiet with lfStart := unlock.lfEnd + 1} :: rest, lf.lfBlkhd, [], [], spare⟩

theorem clearLoop_pass {unlock lf : Lockf} {rest : List Lockf}
    (h : lfFindoverlap unlock .self (lf :: rest) = (lfFindoverlap unlock .self rest).pass lf)
    (spare : Option Lockf) (fuel : Nat) :
    clearLoop unlock spare (fuel + 1) (lf :: rest) = (clearLoop unlock spare (fuel + 1) rest).map (.behind [lf] [] [] []) := by
  rw [clearLoop, clearLoop, h]
  cases lfFindoverlap unlock .self rest with
  | panic => rfl
  | nothing passed rest => rfl
  | found c passed overlap rest =>
    cases c with
    | equal => rfl
    | contains =>
      simp only [Overlap.pass]
      split
      · rfl
      · rw [Option.map_map]
        rfl
    | contained =>
      simp [Overlap.pass, Option.map_map, Edited.behind_comp, singleton_append, nil_append]
    | startsBefore =>
      simp [Overlap.pass, Option.map_map, Edited.behind_comp, nil_append, cons_append]
    | endsAfter => rfl

theorem clearLoop_eq_walk (unlock : Lockf) (spare : Option Lockf) (list : List Lockf) {fuel : Nat}
    (h : list.length < fuel) : clearLoop unlock spare fuel list = clearWalk unlock spare list := by
  obtain ⟨fuel, rfl⟩ : ∃ n, fuel = n + 1 := ⟨fuel - 1, by omega⟩
  induction list generalizing fuel with
  | nil => rfl
  | cons lf rest ih =>
    rw [length_cons] at h
    by_cases hid : lf.lfId ≠ unlock.lfId
    · rw [clearLoop_pass (by simp [lfFindoverlap, hid]), ih _ (by omega), clearWalk, if_pos hid]
    by_cases hap : apart unlock lf
    · by_cases hstop : unlock.lfEnd ≠ -1 ∧ lf.lfStart > unlock.lfEnd
      · simp [clearLoop, clearWalk, lfFindoverlap, hid, hap, hstop]
      · rw [clearLoop_pass (by simp [lfFindoverlap, hid, hap, hstop]), ih _ (by omega), clearWalk, if_neg hid, if_pos hap, if_neg hstop]
    -- An overlap: the round ends here, and the next one starts behind it.
    obtain ⟨fuel, rfl⟩ : ∃ n, fuel = n + 1 := ⟨fuel - 1, by omega⟩
    have hrest := ih fuel (by omega)
    rw [clearLoop, clearWalk]
    cases hov : ovcase unlock lf with
    | none => simp [lfFindoverlap, hid, hap, hov]
    | some c => cases c <;> simp [lfFindoverlap, hid, hap, hov, hrest]

theorem lfClearlock_eq (unlock : Lockf) (spare : Option Lockf) (list : List Lockf) : lfClearlock unlock spare list = clearWalk unlock spare list :=
  clearLoop_eq_walk unlock spare list (Nat.lt_succ_self _)

/-- The loop of `lf_getblock`; the outer `none` is the panic. -/
def getblockLoop (lock : Lockf) : Nat → List Lockf → Option (Option Lockf)
  | 0, _ => none
  | fuel + 1, lf => match lfFindoverlap lock .others lf with
    | .panic => none
    | .nothing _ _ => some none
    | .found _ _ overlap rest =>
      if lock.lfType = .wrlck ∨ overlap.lfType = .wrlck then some (some overlap) else getblockLoop lock fuel rest

def lfGetblock (lock : Lockf) (list : List Lockf) : Option (Option Lockf) :=
  getblockLoop lock (list.length + 1) list

/-- An entry that keeps `lock` from being granted. -/
def Blocks (lock lf : Lockf) : Prop :=
  lf.lfId ≠ lock.lfId ∧ ¬apart lock lf ∧ (lock.lfType = .wrlck ∨ lf.lfType = .wrlck)

instance (lock lf : Lockf) : Decidable (Blocks lock lf) := inferInstanceAs (Decidable (_ ∧ _ ∧ _))

theorem getblockLoop_pass {lock lf : Lockf} {rest : List Lockf}
    (h : lfFindoverlap lock .others (lf :: rest) = (lfFindoverlap lock .others rest).pass lf) (fuel : Nat) :
    getblockLoop lock (fuel + 1) (lf :: rest) = getblockLoop lock (fuel + 1) rest := by
  rw [getblockLoop, getblockLoop, h]
  cases lfFindoverlap lock .others rest <;> rfl

theorem getblockLoop_eq {lock : Lockf} {list : List Lockf} {fuel : Nat} (hfuel : list.length < fuel)
    (h : ∀ lf ∈ list, apart lock lf ∨ (ovcase lock lf).isSome) :
    getblockLoop lock fuel list = some (list.find? (Blocks lock)) := by
  obtain ⟨fuel, rfl⟩ : ∃ n, fuel = n + 1 := ⟨fuel - 1, by omega⟩
  induction list generalizing fuel with
  | nil => rfl
  | cons lf rest ih =>
    rw [length_cons] at hfuel
    have hrest := fun lf' hlf' => h lf' (mem_cons_of_mem _ hlf')
    rw [find?_cons]
    by_cases hid : lf.lfId = lock.lfId
    · rw [getblockLoop_pass (by simp [lfFindoverlap, hid]), ih hrest fuel (by omega), decide_eq_false (fun hb => hb.1 hid)]
    by_cases hap : apart lock lf
    · rw [getblockLoop_pass (by simp [lfFindoverlap, hid, hap]), ih hrest fuel (by omega), decide_eq_false (fun hb => hb.2.1 hap)]
    obtain ⟨fuel, rfl⟩ : ∃ n, fuel = n + 1 := ⟨fuel - 1, by omega⟩
    obtain ⟨c, hov⟩ := Option.isSome_iff_exists.mp ((h lf mem_cons_self).resolve_left hap)
    rw [getblockLoop]
    simp only [lfFindoverlap, hid, hap, hov, and_false, reduceCtorEq, false_and, or_self, if_false]
    by_cases hwr : lock.lfType = .wrlck ∨ lf.lfType = .wrlck
    · rw [if_pos hwr, decide_eq_true (show Blocks lock lf from ⟨hid, hap, hwr⟩)]
    · rw [if_neg hwr, decide_eq_false (fun hb => hwr hb.2.2), ih hrest fuel (by omega)]

/-! ### Granting a lock -/

/-- Whether the waiters of `overlap` may be able to acquire what `lock` leaves. -/
def downgrades (lock overlap : Lockf) : Prop := lock.lfType = .rdlck ∧ overlap.lfType = .wrlck

instance (lock overlap : Lockf) : Decidable (downgrades lock overlap) := inferInstanceAs (Decidable (_ ∧ _))

/-- Where the loop of `lf_setlock` is: `pre` is before the lock, and once the lock is
linked (`needtolink` is 0) `mid` is between it and `prev`. -/
structure Cursor where
  pre : List Lockf
  mid : Option (List Lockf)

def Cursor.pass (c : Cursor) (es : List Lockf) : Cursor := match c.mid with
  | none => {c with pre := c.pre ++ es}
  | some mid => {c with mid := some (mid ++ es)}

/-- The whole list, with the lock linked here if it is not. -/
def Cursor.link (c : Cursor) (lock : Lockf) (rest : List Lockf) : List Lockf :=
  c.pre ++ lock :: (c.mid.getD [] ++ rest)

/-- The loop of `lf_setlock` that adds the lock. -/
def grantLoop (spare : Option Lockf) : Nat → Cursor → Lockf → List Lockf → Option Edited
  | 0, _, _, _ => none
  | fuel + 1, c, lock, block => match lfFindoverlap lock .self block with
    | .panic => none
    | .nothing passed rest => some ⟨(c.pass passed).link lock rest, [], [], [], spare⟩
    | .found ovcase passed overlap rest =>
      let c := c.pass passed
      match ovcase, c.mid with
      | .equal, none =>
        if downgrades lock overlap then
          some ⟨c.pre ++ {overlap.quiet with lfType := lock.lfType} :: rest, overlap.lfBlkhd, [], [lock], spare⟩
        else some ⟨c.pre ++ {overlap with lfType := lock.lfType} :: rest, [], [], [lock], spare⟩
      | .contains, none =>
        if overlap.lfType = lock.lfType then some ⟨c.pre ++ overlap :: rest, [], [], [lock], spare⟩
        else if overlap.lfStart = lock.lfStart then
          some ⟨c.pre ++ lock :: {overlap.quiet with lfStart := lock.lfEnd + 1} :: rest, overlap.lfBlkhd, [], [], spare⟩
        else (lfSplit overlap lock spare).map fun (before, after, spare) =>
          ⟨c.pre ++ (before.map Lockf.quiet ++ lock :: (after.map Lockf.quiet ++ rest)), overlap.lfBlkhd, [], [], spare⟩
      | .contained, mid =>
        let c := {c with mid := some (mid.getD [])}
        if downgrades lock overlap then
          (grantLoop spare fuel c lock rest).map (.behind [] overlap.lfBlkhd [] [overlap.quiet])
        else (grantLoop spare fuel c {lock with lfBlkhd := lock.lfBlkhd ++ overlap.lfBlkhd} rest).map
          (.behind [] [] overlap.lfBlkhd [overlap.quiet])
      | .startsBefore, none =>
        (grantLoop spare fuel ⟨c.pre ++ [{overlap.quiet with lfEnd := lock.lfStart - 1}], some []⟩ lock rest).map
          (.behind [] overlap.lfBlkhd [] [])
      | .endsAfter, _ =>
        some ⟨c.link lock ({overlap.quiet with lfStart := lock.lfEnd + 1} :: rest), overlap.lfBlkhd, [], [], spare⟩
      -- The lock is on the list already.
      | .equal, some _ | .contains, some _ | .startsBefore, some _ => none

/-- The rest of `lf_setlock` once nothing blocks: the lock is added, and what its owner
had there before is replaced. -/
def lfSetlockGrant (lock : Lockf) (spare : Option Lockf) (list : List Lockf) : Option Edited :=
  grantLoop spare (list.length + 1) ⟨[], none⟩ lock list

/-- The entries behind the lock, once it is linked. -/
def absorbWalk (lock : Lockf) (spare : Option Lockf) : List Lockf → Option Edited
  | [] => some ⟨[], [], [], [], spare⟩
  | lf :: rest =>
    if lf.lfId ≠ lock.lfId then (absorbWalk lock spare rest).map (.behind [lf] [] [] [])
    else if apart lock lf then
      if lock.lfEnd ≠ -1 ∧ lf.lfStart > lock.lfEnd then some ⟨lf :: rest, [], [], [], spare⟩
      else (absorbWalk lock spare rest).map (.behind [lf] [] [] [])
    else match ovcase lock lf with
      | some .contained =>
        if downgrades lock lf then (absorbWalk lock spare rest).map (.behind [] lf.lfBlkhd [] [lf.quiet])
        else (absorbWalk lock spare rest).map (.behind [] [] lf.lfBlkhd [lf.quiet])
      | some .endsAfter => some ⟨{lf.quiet with lfStart := lock.lfEnd + 1} :: rest, lf.lfBlkhd, [], [], spare⟩
      | _ => none

/-- The lock in front of what was behind it, with the waiters it took. -/
def Edited.link (lock : Lockf) (r : Edited) : Edited :=
  {r with list := {lock with lfBlkhd := lock.lfBlkhd ++ r.moved} :: r.list}

/-- `lf_setlock`'s loop, entry by entry. -/
def setWalk (lock : Lockf) (spare : Option Lockf) : List Lockf → Option Edited
  | [] => some ⟨[lock], [], [], [], spare⟩
  | lf :: rest =>
    if lf.lfId ≠ lock.lfId then (setWalk lock spare rest).map (.behind [lf] [] [] [])
    else if apart lock lf then
      if lock.lfEnd ≠ -1 ∧ lf.lfStart > lock.lfEnd then some ⟨lock :: lf :: rest, [], [], [], spare⟩
      else (setWalk lock spare rest).map (.behind [lf] [] [] [])
    else match ovcase lock lf with
      | none => none
      | some .equal =>
        if downgrades lock lf then
          some ⟨{lf.quiet with lfType := lock.lfType} :: rest, lf.lfBlkhd, [], [lock], spare⟩
        else some ⟨{lf with lfType := lock.lfType} :: rest, [], [], [lock], spare⟩
      | some .contains =>
        if lf.lfType = lock.lfType then some ⟨lf :: rest, [], [], [lock], spare⟩
        else if lf.lfStart = lock.lfStart then
          some ⟨lock :: {lf.quiet with lfStart := lock.lfEnd + 1} :: rest, lf.lfBlkhd, [], [], spare⟩
        else (lfSplit lf lock spare).map fun (before, after, spare) =>
          ⟨before.map Lockf.quiet ++ lock :: (after.map Lockf.quiet ++ rest), lf.lfBlkhd, [], [], spare⟩
      | some .contained =>
        if downgrades lock lf then
          (absorbWalk lock spare rest).map fun r => (r.link lock).behind [] lf.lfBlkhd [] [lf.quiet]
        else (absorbWalk lock spare rest).map fun r =>
          ((r.behind [] [] lf.lfBlkhd []).link lock).behind [] [] [] [lf.quiet]
      | some .startsBefore => (absorbWalk lock spare rest).map fun r =>
          (r.link lock).behind [{lf.quiet with lfEnd := lock.lfStart - 1}] lf.lfBlkhd [] []
      | some .endsAfter =>
        some ⟨lock :: {lf.quiet with lfStart := lock.lfEnd + 1} :: rest, lf.lfBlkhd, [], [], spare⟩

theorem Cursor.pass_linked (pre mid es : List Lockf) : Cursor.pass ⟨pre, some mid⟩ es = ⟨pre, some (mid ++ es)⟩ := rfl

theorem Cursor.pass_unlinked (pre es : List Lockf) : Cursor.pass ⟨pre, none⟩ es = ⟨pre ++ es, none⟩ := rfl

theorem Cursor.pass_cons (c : Cursor) (lf : Lockf) (es : List Lockf) : c.pass (lf :: es) = (c.pass [lf]).pass es := by
  rcases c with ⟨pre, _ | mid⟩ <;> simp [Cursor.pass]

theorem grantLoop_pass {lock lf : Lockf} {rest : List Lockf} (h : lfFindoverlap lock .self (lf :: rest) = (lfFindoverlap lock .self rest).pass lf)
    (spare : Option Lockf) (fuel : Nat) (c : Cursor) :
    grantLoop spare (fuel + 1) c lock (lf :: rest) = grantLoop spare (fuel + 1) (c.pass [lf]) lock rest := by
  rw [grantLoop, grantLoop, h]
  cases lfFindoverlap lock .self rest with
  | panic => rfl
  | nothing passed rest => simp [Overlap.pass, Cursor.pass_cons c lf passed]
  | found ov passed overlap rest => simp [Overlap.pass, Cursor.pass_cons c lf passed]

theorem absorbWalk_blkhd (lock : Lockf) (ws : List Addr) (spare : Option Lockf) (list : List Lockf) :
    absorbWalk {lock with lfBlkhd := ws} spare list = absorbWalk lock spare list := by
  induction list with
  | nil => rfl
  | cons lf rest ih =>
    rw [absorbWalk, ih]
    rfl

/-- The list with the lock linked behind `pre` and `mid`. -/
def linkAt (pre mid : List Lockf) (lock : Lockf) (r : Edited) : Edited :=
  {r with list := pre ++ {lock with lfBlkhd := lock.lfBlkhd ++ r.moved} :: (mid ++ r.list)}

theorem grantLoop_linked (spare : Option Lockf) (list : List Lockf) {fuel : Nat} (h : list.length < fuel) (pre mid : List Lockf) (lock : Lockf) :
    grantLoop spare fuel ⟨pre, some mid⟩ lock list = (absorbWalk lock spare list).map (linkAt pre mid lock) := by
  obtain ⟨fuel, rfl⟩ : ∃ n, fuel = n + 1 := ⟨fuel - 1, by omega⟩
  induction list generalizing fuel mid lock with
  | nil => simp [grantLoop, absorbWalk, lfFindoverlap, Cursor.pass_linked, Cursor.link, linkAt]
  | cons lf rest ih =>
    rw [length_cons] at h
    have hpass : ∀ r, linkAt pre (mid ++ [lf]) lock r = linkAt pre mid lock (r.behind [lf] [] [] []) := by
      simp [linkAt, Edited.behind]
    by_cases hid : lf.lfId ≠ lock.lfId
    · rw [grantLoop_pass (by simp [lfFindoverlap, hid]), Cursor.pass_linked, ih _ _ _ (by omega), absorbWalk, if_pos hid, Option.map_map]
      exact congrArg (fun f => Option.map f _) (funext hpass)
    by_cases hap : apart lock lf
    · by_cases hstop : lock.lfEnd ≠ -1 ∧ lf.lfStart > lock.lfEnd
      · simp [grantLoop, absorbWalk, lfFindoverlap, hid, hap, hstop, Cursor.pass_linked, Cursor.link, linkAt]
      rw [grantLoop_pass (by simp [lfFindoverlap, hid, hap, hstop]), Cursor.pass_linked, ih _ _ _ (by omega), absorbWalk,
        if_neg hid, if_pos hap, if_neg hstop, Option.map_map]
      exact congrArg (fun f => Option.map f _) (funext hpass)
    obtain ⟨fuel, rfl⟩ : ∃ n, fuel = n + 1 := ⟨fuel - 1, by omega⟩
    rw [grantLoop, absorbWalk, if_neg hid, if_neg hap]
    cases hov : ovcase lock lf with
    | none => simp [lfFindoverlap, hid, hap, hov]
    | some c =>
      have hfind : lfFindoverlap lock .self (lf :: rest) = .found c [] lf rest := by
        simp [lfFindoverlap, hid, hap, hov]
      cases c with
      | contained =>
        simp only [hfind, Cursor.pass_linked, append_nil, Option.getD_some]
        split
        · rw [ih _ _ fuel (by omega), Option.map_map, Option.map_map]
          rfl
        rw [ih _ _ fuel (by omega), absorbWalk_blkhd, Option.map_map, Option.map_map]
        congr 1
        funext r
        simp [linkAt, Edited.behind]
      | endsAfter => simp [hfind, Cursor.pass_linked, Cursor.link, linkAt]
      | equal => simp [hfind, Cursor.pass_linked]
      | contains => simp [hfind, Cursor.pass_linked]
      | startsBefore => simp [hfind, Cursor.pass_linked]

theorem grantLoop_eq_walk (lock : Lockf) (spare : Option Lockf) (list : List Lockf) {fuel : Nat} (h : list.length < fuel) (pre : List Lockf) :
    grantLoop spare fuel ⟨pre, none⟩ lock list = (setWalk lock spare list).map (.behind pre [] [] []) := by
  obtain ⟨fuel, rfl⟩ : ∃ n, fuel = n + 1 := ⟨fuel - 1, by omega⟩
  induction list generalizing fuel pre with
  | nil => simp [grantLoop, setWalk, lfFindoverlap, Cursor.pass_unlinked, Cursor.link, Edited.behind]
  | cons lf rest ih =>
    rw [length_cons] at h
    have hpass : ∀ r, Edited.behind (pre ++ [lf]) [] [] [] r = (r.behind [lf] [] [] []).behind pre [] [] [] := by
      intro r
      simp [Edited.behind]
    by_cases hid : lf.lfId ≠ lock.lfId
    · rw [grantLoop_pass (by simp [lfFindoverlap, hid]), Cursor.pass_unlinked, ih _ _ (by omega), setWalk, if_pos hid, Option.map_map]
      exact congrArg (fun f => Option.map f _) (funext hpass)
    by_cases hap : apart lock lf
    · by_cases hstop : lock.lfEnd ≠ -1 ∧ lf.lfStart > lock.lfEnd
      · simp [grantLoop, setWalk, lfFindoverlap, hid, hap, hstop, Cursor.pass_unlinked, Cursor.link, Edited.behind]
      rw [grantLoop_pass (by simp [lfFindoverlap, hid, hap, hstop]), Cursor.pass_unlinked, ih _ _ (by omega), setWalk,
        if_neg hid, if_pos hap, if_neg hstop, Option.map_map]
      exact congrArg (fun f => Option.map f _) (funext hpass)
    rw [grantLoop, setWalk, if_neg hid, if_neg hap]
    cases hov : ovcase lock lf with
    | none => simp [lfFindoverlap, hid, hap, hov]
    | some c =>
      have hfind : lfFindoverlap lock .self (lf :: rest) = .found c [] lf rest := by
        simp [lfFindoverlap, hid, hap, hov]
      cases c with
      | contained =>
        simp only [hfind, Cursor.pass_unlinked, append_nil, Option.getD_none]
        split
        · rw [grantLoop_linked spare rest (by omega), Option.map_map, Option.map_map]
          congr 1
        rw [grantLoop_linked spare rest (by omega), absorbWalk_blkhd, Option.map_map, Option.map_map]
        congr 1
        funext r
        simp [linkAt, Edited.behind, Edited.link]
      | startsBefore =>
        simp only [hfind, Cursor.pass_unlinked, append_nil]
        rw [grantLoop_linked spare rest (by omega), Option.map_map, Option.map_map]
        congr 1
        funext r
        simp [linkAt, Edited.behind, Edited.link]
      | equal =>
        simp only [hfind, Cursor.pass_unlinked, append_nil]
        split <;> simp [Edited.behind]
      | contains =>
        simp only [hfind, Cursor.pass_unlinked, append_nil]
        split
        · simp [Edited.behind]
        split
        · simp [Edited.behind]
        · rw [Option.map_map]
          congr 1
      | endsAfter => simp [hfind, Cursor.pass_unlinked, Cursor.link, Edited.behind]

theorem lfSetlockGrant_eq (lock : Lockf) (spare : Option Lockf) (list : List Lockf) : lfSetlockGrant lock spare list = setWalk lock spare list := by
  rw [lfSetlockGrant, grantLoop_eq_walk lock spare list (Nat.lt_succ_self _)]
  rw [show Edited.behind [] [] [] [] = id from rfl, Option.map_id]
  rfl

end NetBSD.Kern.Advlock
