import NetBSD.Lib.Places
import Mathlib.Algebra.Order.Ring.Int
import Mathlib.Data.Nat.Bitwise
import Mathlib.Data.List.TakeWhile
import Mathlib.Tactic.Ring

/-! Indirect blocks and their names.

`ufs_getlbns` writes down the indirect blocks on the way to a block: a name, a negative logical
block number, and the offset of the pointer to follow. An indirect block over data is named by the
first block it leads to, and every level above it by one less. The same call finds the way to an
indirect block from its name.

`getlbns_paths`: the offsets are the digits of the block number, the names tell the indirect
blocks apart, and the way to a name is the beginning of the way on which it is met. -/
namespace NetBSD.Ufs.UfsBmap
open List Nat
open Lib.Places

abbrev UFS_NDADDR : Nat := 12
abbrev UFS_NIADDR : Nat := 3
def EFBIG : Nat := 27

structure Ufsmount where
  nindir : Nat
  lognindir : Nat
  nindir_eq : nindir = 2 ^ lognindir

structure Indir where
  inLbn : Int
  inOff : Nat
  inExists : Bool
  deriving DecidableEq

variable (ump : Ufsmount)

/-- The levels needed to reach the block: what is left of `i`, `lbc` and `bn`. -/
def levels : (i lbc bn : Nat) → Option (Nat × Nat × Nat)
  | 0, _, _ => none
  | i + 1, lbc, bn =>
    let lbc := lbc + ump.lognindir
    let blockcnt := 1 <<< lbc
    if bn < blockcnt then some (i + 1, lbc, bn) else levels i lbc (bn - blockcnt)

/-- The loop over the levels from `metalbn` down; it ends early at the indirect block looked
for. -/
def pairs (bn : Nat) (realbn : Int) : (n lbc : Nat) → (metalbn : Int) → List Indir
  | 0, _, _ => []
  | n + 1, lbc, metalbn =>
    if metalbn = realbn then []
    else
      let lbc := lbc - ump.lognindir
      let off := bn >>> lbc &&& (ump.nindir - 1)
      ⟨metalbn, off, false⟩ :: pairs bn realbn n lbc (metalbn - (-1 + (off <<< lbc : Nat)))

/-- The error and the pairs, of which `nump` is the length. `none` is a failed assertion. -/
def ufsGetlbns (bn : Int) : Option (Nat × List Indir) :=
  let realbn := bn
  let bn := bn.natAbs
  if bn < UFS_NDADDR then none
  else
    match levels ump UFS_NIADDR 0 (bn - UFS_NDADDR) with
    | none => some (EFBIG, [])
    | some (i, lbc, bn) =>
      let metalbn : Int := -(realbn.natAbs - bn + UFS_NIADDR - i)
      some (0, ⟨metalbn, UFS_NIADDR - i, false⟩ :: pairs ump bn realbn (UFS_NIADDR + 1 - i) lbc metalbn)

/-! ### Names -/

/-- The first block that takes `l + 1` levels. -/
def first (ump : Ufsmount) : (l : Nat) → Nat
  | 0 => UFS_NDADDR
  | l + 1 => first ump l + ump.nindir ^ (l + 1)

/-- The indirect block with `h` levels below it, on the way to the block `x` behind `start`. -/
def name (start h x : Nat) : Int := -(start + clear ump.nindir (h + 1) x + h : Nat)

/-- The ways through the last `n` levels. -/
def steps (start x : Nat) : (n : Nat) → List Indir
  | 0 => []
  | n + 1 => ⟨name ump start n x, digit ump.nindir n x, false⟩ :: steps start x n

variable {ump} {bn bn' h h' i l l' n start x x' : Nat}

theorem nindir_pos (ump : Ufsmount) : 0 < ump.nindir := by
  rw [ump.nindir_eq]
  exact Nat.two_pow_pos ump.lognindir

theorem four_le (hk : 2 ≤ ump.lognindir) : 4 ≤ ump.nindir := by
  rw [ump.nindir_eq]
  exact Nat.pow_le_pow_right (n := 2) (by decide) hk

theorem shift_eq (n : Nat) : 2 ^ (n * ump.lognindir) = ump.nindir ^ n := by
  rw [ump.nindir_eq, ← Nat.pow_mul, mul_comm]

theorem off_eq (n x : Nat) : x >>> (n * ump.lognindir) &&& (ump.nindir - 1) = digit ump.nindir n x := by
  have hmask : ump.nindir - 1 = 2 ^ ump.lognindir - 1 := by rw [ump.nindir_eq]
  rw [hmask, and_two_pow_sub_one_eq_mod, shiftRight_eq_div_pow, shift_eq, digit, ← ump.nindir_eq]

theorem first_mono (h : l ≤ l') : first ump l ≤ first ump l' := by
  induction h with
  | refl => exact le_refl _
  | step h ih => exact ih.trans (Nat.le_add_right ..)

theorem first_mod (ump : Ufsmount) (l : Nat) : ∃ a, first ump l = UFS_NDADDR + a * ump.nindir := by
  induction l with
  | zero => exact ⟨0, by rw [zero_mul]; rfl⟩
  | succ l ih =>
    obtain ⟨a, ha⟩ := ih
    refine ⟨a + ump.nindir ^ l, ?_⟩
    rw [first, ha, add_mul, Nat.pow_succ, add_assoc]

theorem name_neg (hstart : 0 < start) : name ump start h x < 0 := by
  unfold name
  omega

theorem name_ge : -((start + x + h : Nat) : Int) ≤ name ump start h x := by
  have hclear := @clear_le ump.nindir (h + 1) x
  unfold name
  omega

theorem name_down : name ump start (h + 1) x - (-1 + (digit ump.nindir (h + 1) x * ump.nindir ^ (h + 1) : Nat)) = name ump start h x := by
  have hclear := @clear_succ ump.nindir (h + 1) x
  unfold name
  omega

theorem levels_found (hi : l < l' + i) (hle : l' ≤ l) (hfirst : first ump l ≤ bn) (hlast : bn < first ump (l + 1)) :
    levels ump i (l' * ump.lognindir) (bn - first ump l') = some (i - (l - l'), (l + 1) * ump.lognindir, bn - first ump l) := by
  induction i generalizing l' with
  | zero => omega
  | succ i ih =>
    have hcnt : 1 <<< (l' * ump.lognindir + ump.lognindir) = ump.nindir ^ (l' + 1) := by
      rw [← succ_mul, one_shiftLeft, shift_eq]
    unfold levels
    dsimp only
    rw [hcnt]
    by_cases heq : l = l'
    · subst heq
      rw [first] at hlast
      rw [if_pos (by omega), Nat.sub_self, succ_mul]
      rfl
    have hnext := @first_mono ump (l' + 1) l (by omega)
    have hbeyond : first ump (l' + 1) = first ump l' + ump.nindir ^ (l' + 1) := rfl
    have hrest := @ih (l' + 1) (by omega) (by omega)
    rw [if_neg (by omega), ← succ_mul, Nat.sub_sub, ← hbeyond, hrest]
    exact congrArg some (Prod.ext (by omega) rfl)

theorem levels_none (hbeyond : first ump (l + i) ≤ bn) : levels ump i (l * ump.lognindir) (bn - first ump l) = none := by
  induction i generalizing l with
  | zero => rfl
  | succ i ih =>
    have hcnt : 1 <<< (l * ump.lognindir + ump.lognindir) = ump.nindir ^ (l + 1) := by
      rw [← succ_mul, one_shiftLeft, shift_eq]
    have hnext : first ump (l + 1) = first ump l + ump.nindir ^ (l + 1) := rfl
    have hle := @first_mono ump (l + 1) (l + (i + 1)) (by omega)
    unfold levels
    dsimp only
    rw [hcnt, if_neg (by omega), ← succ_mul, Nat.sub_sub]
    have hassoc : l + 1 + i = l + (i + 1) := by omega
    exact ih (hassoc ▸ hbeyond)

theorem pairs_eq (realbn : Int) : pairs ump x realbn (n + 1) ((n + 1) * ump.lognindir) (name ump start n x) =
    (steps ump start x (n + 1)).takeWhile fun e => e.inLbn ≠ realbn := by
  induction n with
  | zero =>
    unfold pairs
    rw [steps, takeWhile_cons]
    by_cases hreal : name ump start 0 x = realbn
    · simp [hreal]
    have hlbc : (0 + 1) * ump.lognindir - ump.lognindir = 0 * ump.lognindir := by omega
    rw [if_neg hreal, if_pos (by simpa using hreal)]
    dsimp only
    rw [hlbc, off_eq]
    rfl
  | succ n ih =>
    unfold pairs
    rw [steps, takeWhile_cons]
    by_cases hreal : name ump start (n + 1) x = realbn
    · simp [hreal]
    have hlbc : (n + 1 + 1) * ump.lognindir - ump.lognindir = (n + 1) * ump.lognindir := by
      rw [succ_mul, Nat.add_sub_cancel]
    rw [if_neg hreal, if_pos (by simpa using hreal)]
    dsimp only
    rw [hlbc, off_eq, shiftLeft_eq, shift_eq, name_down, ih]

theorem steps_neg (hstart : 0 < start) {e : Indir} (he : e ∈ steps ump start x n) : e.inLbn < 0 := by
  induction n with
  | zero => exact absurd he (not_mem_nil)
  | succ n ih =>
    rcases mem_cons.mp he with rfl | he
    · exact name_neg hstart
    · exact ih he

/-- Names with fewer than `nindir` levels below: no two indirect blocks share one. -/
theorem name_inj (hk : 2 ≤ ump.lognindir) (hl : l < UFS_NIADDR) (hl' : l' < UFS_NIADDR) (hh : h ≤ l) (hh' : h' ≤ l')
    (hx : x < ump.nindir ^ (l + 1)) (hx' : x' < ump.nindir ^ (l' + 1))
    (hname : name ump (first ump l) h x = name ump (first ump l') h' x') :
    l = l' ∧ h = h' ∧ x / ump.nindir ^ (h + 1) = x' / ump.nindir ^ (h + 1) := by
  have hsum : first ump l + clear ump.nindir (h + 1) x + h = first ump l' + clear ump.nindir (h' + 1) x' + h' := by
    unfold name at hname
    omega
  have hfour := four_le hk
  change l < 3 at hl
  change l' < 3 at hl'
  -- Modulo the fan-out, only the number of levels below is left.
  have hlow (l h x : Nat) (hh : h < ump.nindir) :
      (first ump l + clear ump.nindir (h + 1) x + h - UFS_NDADDR) % ump.nindir = h := by
    obtain ⟨a, ha⟩ := first_mod ump l
    have hsplit : first ump l + clear ump.nindir (h + 1) x + h - UFS_NDADDR = h + (a + x / ump.nindir ^ (h + 1) * ump.nindir ^ h) * ump.nindir := by
      rw [clear, Nat.pow_succ, ← mul_assoc, add_mul]
      omega
    rw [hsplit, add_mul_mod_self_right, mod_eq_of_lt hh]
  have hsame : h = h' := by
    have hmod := congrArg (fun s => (s - UFS_NDADDR) % ump.nindir) hsum
    rwa [hlow l h x (by omega), hlow l' h' x' (by omega)] at hmod
  subst hsame
  have hclear := @clear_add_le ump.nindir (h + 1) (l + 1) x hx (by omega)
  have hclear' := @clear_add_le ump.nindir (h + 1) (l' + 1) x' hx' (by omega)
  have hpow : 0 < ump.nindir ^ (h + 1) := Nat.pow_pos (nindir_pos ump)
  have hlevel : l = l' := by
    rcases lt_trichotomy l l' with hlt | heq | hlt
    · have hmono : first ump (l + 1) ≤ first ump l' := first_mono hlt
      rw [first] at hmono
      omega
    · exact heq
    · have hmono : first ump (l' + 1) ≤ first ump l := first_mono hlt
      rw [first] at hmono
      omega
  subst hlevel
  refine ⟨rfl, rfl, eq_of_mul_eq_mul_right hpow ?_⟩
  show clear ump.nindir (h + 1) x = clear ump.nindir (h + 1) x'
  omega

theorem getlbns_eq {realbn : Int} (hbn : realbn.natAbs = first ump l + x) (hx : x < ump.nindir ^ (l + 1)) (hl : l < UFS_NIADDR) :
    ufsGetlbns ump realbn = some (0, ⟨name ump (first ump l) l x, l, false⟩ ::
      (steps ump (first ump l) x (l + 1)).takeWhile fun e => e.inLbn ≠ realbn) := by
  have hbase := @first_mono ump 0 l (zero_le l)
  have hfound := @levels_found ump (first ump l + x) UFS_NIADDR l 0 (by omega) (zero_le l) (Nat.le_add_right ..)
    (Nat.add_lt_add_left hx _)
  rw [zero_mul, Nat.sub_zero, Nat.add_sub_cancel_left] at hfound
  have hname : -(((first ump l + x : Nat) : Int) - x + UFS_NIADDR - ((UFS_NIADDR - l : Nat) : Int)) = name ump (first ump l) l x := by
    rw [name, clear_of_lt hx]
    omega
  have hloops : UFS_NIADDR + 1 - (UFS_NIADDR - l) = l + 1 := by omega
  have hoff : UFS_NIADDR - (UFS_NIADDR - l) = l := by omega
  unfold ufsGetlbns
  dsimp only
  rw [hbn, if_neg (by show ¬_ < first ump 0; omega)]
  show (match levels ump UFS_NIADDR 0 (first ump l + x - first ump 0) with
    | none => some (EFBIG, [])
    | some (i, lbc, bn) => some (0, (⟨-((first ump l + x : Nat) - bn + UFS_NIADDR - i), UFS_NIADDR - i, false⟩ : Indir) ::
        pairs ump bn realbn (UFS_NIADDR + 1 - i) lbc (-((first ump l + x : Nat) - bn + UFS_NIADDR - i)))) = _
  rw [hfound]
  dsimp only
  rw [hname, hloops, hoff, pairs_eq]

theorem getlbns_data (hx : x < ump.nindir ^ (l + 1)) (hl : l < UFS_NIADDR) : ufsGetlbns ump (first ump l + x : Nat) =
    some (0, ⟨name ump (first ump l) l x, l, false⟩ :: steps ump (first ump l) x (l + 1)) := by
  have hbase : 0 < first ump l := (by decide : 0 < UFS_NDADDR).trans_le (first_mono (zero_le l))
  rw [getlbns_eq (Int.natAbs_natCast _) hx hl, takeWhile_eq_self_iff.mpr]
  intro e he
  have hneg : e.inLbn < 0 := steps_neg hbase he
  simp only [ne_eq, decide_eq_true_eq]
  omega

theorem name_below (hb : h < ump.nindir ^ (h + 1)) (hn : h ≤ n) : name ump start n (clear ump.nindir (h + 1) x + h) = name ump start n x := by
  have hdiv := @clear_add_div ump.nindir (h + 1) x h (nindir_pos ump) hb
  rw [name, name, clear_eq_of_div (div_eq_of_le hdiv (succ_le_succ hn))]

theorem steps_below (hk : 2 ≤ ump.lognindir) (hl : l < UFS_NIADDR) (hx : x < ump.nindir ^ (l + 1)) (hb : h < ump.nindir ^ (h + 1))
    (hh : h ≤ n) (hn : n ≤ l) : ((steps ump (first ump l) (clear ump.nindir (h + 1) x + h) (n + 1)).takeWhile fun e =>
      e.inLbn ≠ name ump (first ump l) h x) = (steps ump (first ump l) x (n + 1)).take (n - h) := by
  have hdiv := @clear_add_div ump.nindir (h + 1) x h (nindir_pos ump) hb
  induction n with
  | zero =>
    obtain rfl := le_zero.mp hh
    rw [steps, name_below hb hh]
    simp
  | succ n ih =>
    rw [steps, takeWhile_cons, name_below hb hh]
    by_cases heq : h = n + 1
    · subst heq
      simp
    have hne : name ump (first ump l) (n + 1) x ≠ name ump (first ump l) h x := fun hname =>
      heq (name_inj hk hl hl hn (hh.trans hn) hx hx hname).2.1.symm
    have htake : n + 1 - h = n - h + 1 := by omega
    rw [if_pos (by simpa using hne), ih (by omega) (by omega), htake, digit_eq_of_div (div_eq_of_le hdiv (by omega))]
    rfl

theorem getlbns_meta (hk : 2 ≤ ump.lognindir) (hx : x < ump.nindir ^ (l + 1)) (hl : l < UFS_NIADDR) (hh : h ≤ l) :
    ufsGetlbns ump (name ump (first ump l) h x) =
      some (0, ⟨name ump (first ump l) l x, l, false⟩ :: (steps ump (first ump l) x (l + 1)).take (l - h)) := by
  have hpow : h < ump.nindir ^ (h + 1) := lt_of_succ_lt (Nat.lt_pow_self (by have := four_le hk; omega))
  have hclear := @clear_add_le ump.nindir (h + 1) (l + 1) x hx (by omega)
  have habs : (name ump (first ump l) h x).natAbs = first ump l + (clear ump.nindir (h + 1) x + h) := by
    unfold name
    omega
  rw [getlbns_eq habs (by omega) hl, name_below hpow hh, steps_below hk hl hx hpow hh (le_refl l)]

/-- The way to block `x` of level `l + 1`. -/
def way (ump : Ufsmount) (l x : Nat) : List Indir := ⟨name ump (first ump l) l x, l, false⟩ :: steps ump (first ump l) x (l + 1)

theorem steps_get {j : Nat} (hj : j ≤ n) (hlen : j < (steps ump start x (n + 1)).length) :
    (steps ump start x (n + 1))[j].inLbn = name ump start (n - j) x := by
  induction n generalizing j with
  | zero =>
    obtain rfl := le_zero.mp hj
    rfl
  | succ n ih =>
    cases j with
    | zero => rfl
    | succ j =>
      have hlen' : j < (steps ump start x (n + 1)).length := lt_of_succ_lt_succ hlen
      rw [Nat.add_sub_add_right, ← ih (le_of_succ_le_succ hj) hlen']
      rfl

theorem steps_off : (steps ump start x n).map Indir.inOff = Lib.Places.digits ump.nindir n x := by
  induction n with
  | zero => rfl
  | succ n ih => rw [steps, map_cons, ih, Lib.Places.digits]

theorem length_steps : (steps ump start x n).length = n := by
  rw [← length_map (f := Indir.inOff), steps_off, Lib.Places.length_digits]

theorem way_take_off {j : Nat} : ((way ump l x).take (j + 1)).map Indir.inOff = l :: (Lib.Places.digits ump.nindir (l + 1) x).take j := by
  rw [way, take_succ_cons, map_cons, map_take, steps_off]

theorem way_get {j : Nat} (hlen : j + 1 < (way ump l x).length) : j ≤ l ∧ (way ump l x)[j + 1].inLbn = name ump (first ump l) (l - j) x := by
  have hj : j < (steps ump (first ump l) x (l + 1)).length := lt_of_succ_lt_succ hlen
  have hle : j ≤ l := by
    rw [length_steps] at hj
    omega
  exact ⟨hle, steps_get hle hj⟩

theorem level_of (hlow : UFS_NDADDR ≤ bn) (hhigh : bn < first ump n) : ∃ l x, l < n ∧ bn = first ump l + x ∧ x < ump.nindir ^ (l + 1) := by
  induction n with
  | zero => exact absurd hhigh (Nat.not_lt.mpr hlow)
  | succ n ih =>
    by_cases hlt : bn < first ump n
    · obtain ⟨l, x, hl, hbn, hx⟩ := ih hlt
      exact ⟨l, x, lt_succ_of_lt hl, hbn, hx⟩
    · rw [first] at hhigh
      exact ⟨n, bn - first ump n, lt_succ_self n, by omega, by omega⟩

theorem way_of_found (hhigh : bn < first ump UFS_NIADDR) {path : List Indir} (hfound : ufsGetlbns ump bn = some (0, path)) :
    ∃ l x, l < UFS_NIADDR ∧ bn = first ump l + x ∧ x < ump.nindir ^ (l + 1) ∧ path = way ump l x := by
  have hlow : UFS_NDADDR ≤ bn := by
    by_contra hlt
    rw [ufsGetlbns, Int.natAbs_natCast, if_pos (Nat.lt_of_not_le hlt)] at hfound
    exact absurd hfound (by simp)
  obtain ⟨l, x, hl, rfl, hx⟩ := level_of hlow hhigh
  rw [getlbns_data hx hl] at hfound
  exact ⟨l, x, hl, rfl, hx, (Prod.mk.inj (Option.some.inj hfound)).2.symm⟩

theorem share_iff (hk : 2 ≤ ump.lognindir) (hl : l < UFS_NIADDR) (hl' : l' < UFS_NIADDR) (hx : x < ump.nindir ^ (l + 1))
    (hx' : x' < ump.nindir ^ (l' + 1)) {j j' : Nat} (hj : j ≤ l) (hj' : j' ≤ l') :
    name ump (first ump l) (l - j) x = name ump (first ump l') (l' - j') x' ↔
      l :: (Lib.Places.digits ump.nindir (l + 1) x).take j = l' :: (Lib.Places.digits ump.nindir (l' + 1) x').take j' := by
  have hagree (l : Nat) {x x' : Nat} (hx : x < ump.nindir ^ (l + 1)) (hx' : x' < ump.nindir ^ (l + 1)) :
      x / ump.nindir ^ (l + 1) = x' / ump.nindir ^ (l + 1) := by
    rw [div_eq_of_lt hx, div_eq_of_lt hx']
  constructor
  · intro hname
    obtain ⟨rfl, hh, hdiv⟩ := name_inj hk hl hl' (sub_le l j) (sub_le l' j') hx hx' hname
    obtain rfl : j = j' := by omega
    have hplace : l - j + 1 = l + 1 - j := by omega
    rw [hplace] at hdiv
    rw [(take_digits_eq_iff (hagree l hx hx') (by omega)).mpr hdiv]
  intro htake
  obtain ⟨rfl, hdigits⟩ := List.cons.inj htake
  have hlen := congrArg List.length hdigits
  rw [length_take, length_take, Lib.Places.length_digits, Lib.Places.length_digits] at hlen
  obtain rfl : j = j' := by omega
  have hdiv := (take_digits_eq_iff (hagree l hx hx') (by omega)).mp hdigits
  have hplace : l + 1 - j = l - j + 1 := by omega
  rw [hplace] at hdiv
  rw [name, name, clear_eq_of_div hdiv]

/-- No name is further below 0 than the block by more than the levels, so none leaves the 64 bits
that block numbers of this size are in. -/
theorem way_ge {e : Indir} (he : e ∈ way ump l x) : -((first ump l + x + l : Nat) : Int) ≤ e.inLbn := by
  have hsteps : ∀ n ≤ l + 1, e ∈ steps ump (first ump l) x n → -((first ump l + x + l : Nat) : Int) ≤ e.inLbn := by
    intro n hn he
    induction n with
    | zero => exact absurd he (not_mem_nil)
    | succ n ih =>
      rcases mem_cons.mp he with rfl | he
      · have hge := @name_ge ump n (first ump l) x
        dsimp only
        omega
      · exact ih (le_of_succ_le hn) he
  rcases mem_cons.mp he with rfl | he
  · exact name_ge
  · exact hsteps (l + 1) (le_refl _) he

/-- The way to block `bn`: the level, less one, and the digits of the number within the level;
negative names, that of the inode's indirect block twice; and the way to each name is what comes
before it. -/
structure IsWay (ump : Ufsmount) (bn : Nat) (path : List Indir) : Prop where
  offsets : ∃ l < UFS_NIADDR, first ump l ≤ bn ∧ bn < first ump (l + 1) ∧
    path.map Indir.inOff = l :: Lib.Places.digits ump.nindir (l + 1) (bn - first ump l)
  negative : ∀ e ∈ path, e.inLbn < 0
  twice : path[0]?.map Indir.inLbn = path[1]?.map Indir.inLbn
  found : ∀ j (hj : j < path.length), 0 < j → ufsGetlbns ump path[j].inLbn = some (0, path.take j)

theorem isWay (hk : 2 ≤ ump.lognindir) (hl : l < UFS_NIADDR) (hx : x < ump.nindir ^ (l + 1)) : IsWay ump (first ump l + x) (way ump l x) := by
  have hbase : 0 < first ump l := (by decide : 0 < UFS_NDADDR).trans_le (first_mono (zero_le l))
  refine ⟨⟨l, hl, Nat.le_add_right .., Nat.add_lt_add_left hx _, ?_⟩, fun e he => ?_, rfl, fun j hj hpos => ?_⟩
  · rw [way, map_cons, steps_off, Nat.add_sub_cancel_left]
  · rcases mem_cons.mp he with rfl | he
    · exact name_neg hbase
    · exact steps_neg hbase he
  obtain ⟨j, rfl⟩ := exists_eq_succ_of_ne_zero hpos.ne'
  obtain ⟨hle, hname⟩ := way_get hj
  have hback : l - (l - j) = j := by omega
  rw [hname, getlbns_meta hk hx hl (sub_le l j), hback]
  rfl

/-- Every block up to the last that three levels reach has its own way, indirect blocks with one
name are the same, and there is no way to the blocks beyond. -/
theorem getlbns_paths (ump : Ufsmount) (hk : 2 ≤ ump.lognindir) :
    (∀ bn : Nat, UFS_NDADDR ≤ bn → bn < UFS_NDADDR + ump.nindir + ump.nindir ^ 2 + ump.nindir ^ 3 →
      ∃ path, ufsGetlbns ump bn = some (0, path) ∧ IsWay ump bn path) ∧
    (∀ (bn bn' : Nat) (path path' : List Indir), bn < UFS_NDADDR + ump.nindir + ump.nindir ^ 2 + ump.nindir ^ 3 →
      bn' < UFS_NDADDR + ump.nindir + ump.nindir ^ 2 + ump.nindir ^ 3 →
      ufsGetlbns ump bn = some (0, path) → ufsGetlbns ump bn' = some (0, path') →
      (path = path' → bn = bn') ∧ ∀ j j' (hj : j < path.length) (hj' : j' < path'.length), 0 < j → 0 < j' →
        (path[j].inLbn = path'[j'].inLbn ↔ (path.take j).map Indir.inOff = (path'.take j').map Indir.inOff)) ∧
    ∀ bn : Nat, UFS_NDADDR + ump.nindir + ump.nindir ^ 2 + ump.nindir ^ 3 ≤ bn → ufsGetlbns ump bn = some (EFBIG, []) := by
  have hend : UFS_NDADDR + ump.nindir + ump.nindir ^ 2 + ump.nindir ^ 3 = first ump UFS_NIADDR := by
    show _ = UFS_NDADDR + ump.nindir ^ (0 + 1) + ump.nindir ^ (1 + 1) + ump.nindir ^ (2 + 1)
    rw [Nat.pow_one]
  rw [hend]
  refine ⟨fun bn hlow hhigh => ?_, fun bn bn' path path' hhigh hhigh' hfound hfound' => ?_, fun bn hbeyond => ?_⟩
  · obtain ⟨l, x, hl, rfl, hx⟩ := level_of hlow hhigh
    exact ⟨way ump l x, getlbns_data hx hl, isWay hk hl hx⟩
  · obtain ⟨l, x, hl, rfl, hx, rfl⟩ := way_of_found hhigh hfound
    obtain ⟨l', x', hl', rfl, hx', rfl⟩ := way_of_found hhigh' hfound'
    refine ⟨fun hsame => ?_, fun j j' hj hj' hpos hpos' => ?_⟩
    · -- The last indirect block of a way leads to one block only.
      have hoff := congrArg (fun path => (path.take (l + 1 + 1)).map Indir.inOff) hsame
      rw [way_take_off, way_take_off] at hoff
      obtain ⟨rfl, hdigits⟩ := List.cons.inj hoff
      have hdiv := (take_digits_eq_iff (by rw [div_eq_of_lt hx, div_eq_of_lt hx']) (le_refl _)).mp hdigits
      rw [Nat.sub_self, Nat.pow_zero, Nat.div_one, Nat.div_one] at hdiv
      rw [hdiv]
    · obtain ⟨j, rfl⟩ := exists_eq_succ_of_ne_zero hpos.ne'
      obtain ⟨j', rfl⟩ := exists_eq_succ_of_ne_zero hpos'.ne'
      obtain ⟨hle, hname⟩ := way_get hj
      obtain ⟨hle', hname'⟩ := way_get hj'
      rw [hname, hname', way_take_off, way_take_off]
      exact share_iff hk hl hl' hx hx' hle hle'
  · have hnone := @levels_none ump bn UFS_NIADDR 0 (by rwa [zero_add])
    rw [zero_mul] at hnone
    have hbase : UFS_NDADDR ≤ bn := (first_mono (zero_le UFS_NIADDR)).trans hbeyond
    rw [ufsGetlbns, Int.natAbs_natCast, if_neg (Nat.not_lt.mpr hbase)]
    show (match levels ump UFS_NIADDR 0 (bn - first ump 0) with
      | none => some (EFBIG, [])
      | some (i, lbc, rel) => some (0, (⟨-(((bn : Int).natAbs : Int) - rel + UFS_NIADDR - i), UFS_NIADDR - i, false⟩ : Indir) ::
          pairs ump rel bn (UFS_NIADDR + 1 - i) lbc (-(((bn : Int).natAbs : Int) - rel + UFS_NIADDR - i)))) = _
    rw [hnone]

/-- Blocks of 16384 bytes, with pointers of 8 bytes. -/
def ffs2 : Ufsmount := ⟨2048, 11, rfl⟩

theorem getlbns_paths_ffs2 : ∃ path, ufsGetlbns ffs2 (5000000 : Nat) = some (0, path) ∧ IsWay ffs2 5000000 path :=
  (getlbns_paths ffs2 (by decide)).1 5000000 (by decide) (by decide)

example : ufsGetlbns ffs2 5000000 = some (0, [⟨-4196366, 2, false⟩, ⟨-4196366, 0, false⟩, ⟨-4196365, 392, false⟩,
    ⟨-4999180, 820, false⟩]) := by decide

end NetBSD.Ufs.UfsBmap
