import NetBSD.Lib.Ring
import Mathlib.Data.BitVec

/-! The character queues of terminals.

A clist is a ring of bytes and a row of bits, one for each byte, that says which are quoted. A pointer is an index, or
`none` for the null pointer, which both pointers are as long as the queue is empty. An access outside the ring or the bits,
and a null pointer that is followed, have no answer. -/
namespace NetBSD.Kern.TtySubr
open Nat Function
open Lib

def TTY_QUOTE : BitVec 32 := 0x100

structure Clist where
  cCf : Option Nat
  cCl : Option Nat
  cCs : Nat → BitVec 8
  cCq : Nat → BitVec 8
  cCc : Nat
  cCn : Nat

/-- The number of bytes for the bits. -/
def QMEM (n : Nat) : Nat := (n - 1) / 8 + 1

def clalloc (size : Nat) : Clist := ⟨none, none, fun _ => 0, fun _ => 0, 0, size⟩

def isset (cq : Nat → BitVec 8) (i : Nat) : Bool := (cq (i / 8)).getLsbD (i % 8)

def setbit (cq : Nat → BitVec 8) (i : Nat) : Nat → BitVec 8 := update cq (i / 8) (cq (i / 8) ||| 1#8 <<< (i % 8))

def clrbit (cq : Nat → BitVec 8) (i : Nat) : Nat → BitVec 8 := update cq (i / 8) (cq (i / 8) &&& ~~~(1#8 <<< (i % 8)))

/-- The end of the ring is its start. -/
def Clist.wrap (clp : Clist) (p : Nat) : Nat := if p = clp.cCn then 0 else p

/-- The character at a pointer, with its quote. -/
def Clist.chr (clp : Clist) (p : Nat) : Option (BitVec 32) :=
  if p < clp.cCn ∧ p / 8 < QMEM clp.cCn then
    some ((clp.cCs p).setWidth 32 ||| if isset clp.cCq p then TTY_QUOTE else 0)
  else none

/-- With no characters the pointers are null. -/
def Clist.settle (clp : Clist) : Clist := if clp.cCc = 0 then { clp with cCf := none, cCl := none } else clp

/-- With no characters the pointers are at the start. -/
def Clist.start (clp : Clist) : Clist := if clp.cCc = 0 then { clp with cCf := some 0, cCl := some 0 } else clp

/-- The answer -1 is for the empty queue. -/
def getc (clp : Clist) : Option (Clist × BitVec 32) :=
  if clp.cCc = 0 then some (clp, -1)
  else do
    let cf ← clp.cCf
    let c ← clp.chr cf
    return (Clist.settle { clp with
      cCs := update clp.cCs cf 0
      cCf := some (clp.wrap (cf + 1))
      cCc := clp.cCc - 1 }, c)

/-- The first characters in one piece: their place and number. -/
def Clist.piece (clp : Clist) : Option (Nat × Nat) := do
  let cf ← clp.cCf
  let cl ← clp.cCl
  return (cf, if cf ≥ cl then clp.cCn - cf else cl - cf)

def Clist.advance (clp : Clist) (cf cc : Nat) : Clist := { clp with cCc := clp.cCc - cc, cCf := some (clp.wrap (cf + cc)) }

def Clist.read (clp : Clist) (p cc : Nat) : Option (List (BitVec 8)) :=
  if p + cc ≤ clp.cCn then some ((List.range cc).map fun i => clp.cCs (p + i)) else none

def qToBLoop : Nat → Clist → Nat → Option (Clist × List (BitVec 8))
  | 0, _, _ => none
  | rounds + 1, clp, count =>
    if count = 0 ∨ clp.cCc = 0 then some (clp, [])
    else do
      let (cf, cc) ← clp.piece
      let cc := min cc count
      let p ← clp.read cf cc
      let (clp, rest) ← qToBLoop rounds (clp.advance cf cc) (count - cc)
      return (clp, p ++ rest)

/-- The bytes copied; a count below 0 is as 0. -/
def qToB (clp : Clist) (count : Int) : Option (Clist × List (BitVec 8)) := do
  let (clp, p) ← qToBLoop (count.toNat + 1) clp count.toNat
  return (clp.settle, p)

def ndflushLoop : Nat → Clist → Nat → Option Clist
  | 0, _, _ => none
  | rounds + 1, clp, count =>
    if count = 0 ∨ clp.cCc = 0 then some clp
    else do
      let (cf, cc) ← clp.piece
      let cc := min cc count
      ndflushLoop rounds (clp.advance cf cc) (count - cc)

def ndflush (clp : Clist) (count : Int) : Option Clist :=
  if count = clp.cCc then some { clp with cCc := 0, cCf := none, cCl := none }
  else (ndflushLoop (count.toNat + 1) clp count.toNat).map Clist.settle

/-- A character behind the last. -/
def Clist.put (clp : Clist) (cl : Nat) (c : BitVec 32) : Clist :=
  { clp with
    cCs := update clp.cCs cl (c.setWidth 8)
    cCq := if c &&& TTY_QUOTE ≠ 0 then setbit clp.cCq cl else clrbit clp.cCq cl
    cCc := clp.cCc + 1
    cCl := some (clp.wrap (cl + 1)) }

/-- The answer is 0, or -1 for the full queue. -/
def putc (c : BitVec 32) (clp : Clist) : Option (Clist × BitVec 32) :=
  if clp.cCc = clp.cCn then some (clp, -1)
  else do
    let clp := clp.start
    let cl ← clp.cCl
    if cl < clp.cCn ∧ cl / 8 < QMEM clp.cCn then return (clp.put cl c, 0) else none

/-- The bytes from `scp` on are cleared. -/
def zero (cq : Nat → BitVec 8) (scp : Nat) : Nat → Nat → BitVec 8
  | 0 => cq
  | k + 1 => zero (update cq scp 0) (scp + 1) k

/-- A run of bits is cleared, in the `qmem` bytes of `cq`. -/
def clrbits (qmem : Nat) (cq : Nat → BitVec 8) (off len : Nat) : Option (Nat → BitVec 8) :=
  let scp := off / 8
  let sbi := off % 8
  let stop := off + len + 8 - 1
  let ecp := stop / 8 - 1
  let ebi := stop % 8 + 1
  if scp ≥ ecp then
    if scp < qmem then some (update cq scp (cq scp &&& ~~~BitVec.ofNat 8 ((1 <<< len - 1) <<< sbi))) else none
  else if ecp < qmem then
    let cq := update cq scp (cq scp &&& BitVec.ofNat 8 (1 <<< sbi - 1))
    let cq := update cq ecp (cq ecp &&& ~~~BitVec.ofNat 8 (1 <<< ebi - 1))
    some (zero cq (scp + 1) (ecp - (scp + 1)))
  else none

def Clist.write (clp : Clist) (p : Nat) (cp : List (BitVec 8)) : Option Clist :=
  if p + cp.length ≤ clp.cCn then some { clp with cCs := RingBuffer.store clp.cCs p cp } else none

def bToQLoop : Nat → List (BitVec 8) → Clist → Option (Clist × Nat)
  | 0, _, _ => none
  | rounds + 1, p, clp =>
    if p.length = 0 ∨ clp.cCc ≥ clp.cCn then some (clp, p.length)
    else do
      let cf ← clp.cCf
      let cl ← clp.cCl
      let cc := min (if cf > cl then cf - cl else clp.cCn - cl) p.length
      let clp ← clp.write cl (p.take cc)
      let cq ← clrbits (QMEM clp.cCn) clp.cCq cl cc
      bToQLoop rounds (p.drop cc) { clp with cCq := cq, cCc := clp.cCc + cc, cCl := some (clp.wrap (cl + cc)) }

/-- The number of bytes that have no room. -/
def bToQ (cp : Nat → BitVec 8) (count : Int) (clp : Clist) : Option (Clist × Nat) :=
  if count ≤ 0 then some (clp, 0)
  else if clp.cCc = clp.cCn then some (clp, count.toNat)
  else bToQLoop (count.toNat + 1) ((List.range count.toNat).map cp) clp.start

/-- With the number of characters that are left; `none` is the null pointer. -/
def nextc (clp : Clist) (cp : Nat) (cc : Nat) : Option (Nat × Option (Nat × BitVec 32)) :=
  let cc := if clp.cCf = some cp then clp.cCc else cc
  if cc = 0 then some (cc, none)
  else if cc - 1 = 0 then some (cc - 1, none)
  else do
    let cp := clp.wrap (cp + 1)
    let c ← clp.chr cp
    return (cc - 1, some (cp, c))

def firstc (clp : Clist) : Option (Nat × Option (Nat × BitVec 32)) :=
  if clp.cCc = 0 then some (0, none)
  else do
    let cp ← clp.cCf
    let c ← clp.chr cp
    return (clp.cCc, some (cp, c))

/-- The characters that `nextc` gives one after the other. -/
def nextcs : Nat → Clist → Nat → Nat → Option (List (BitVec 32))
  | 0, _, _, _ => none
  | rounds + 1, clp, cp, cc => do
    match ← nextc clp cp cc with
    | (_, none) => return []
    | (cc, some (cp, c)) =>
      let rest ← nextcs rounds clp cp cc
      return c :: rest

/-- From `firstc` to the null pointer. -/
def traverse (clp : Clist) : Option (List (BitVec 32)) := do
  match ← firstc clp with
  | (_, none) => return []
  | (cc, some (cp, c)) =>
    let rest ← nextcs (clp.cCc + 1) clp cp cc
    return c :: rest

def unputc (clp : Clist) : Option (Clist × BitVec 32) :=
  if clp.cCc = 0 then some (clp, -1)
  else do
    let cl ← clp.cCl
    let cl := if cl = 0 then clp.cCn - 1 else cl - 1
    let c ← clp.chr cl
    return (Clist.settle { clp with cCl := some cl, cCc := clp.cCc - 1 }, c)

def catqLoop : Nat → Clist → Clist → Option (Clist × Clist)
  | 0, _, _ => none
  | rounds + 1, src, dst => do
    let (src, c) ← getc src
    if c = -1 then return (src, dst)
    else
      let (dst, _) ← putc c dst
      catqLoop rounds src dst

def catq (src dst : Clist) : Option (Clist × Clist) := catqLoop (src.cCc + 1) src dst

/-! ### Quote bits -/

variable {cq : Nat → BitVec 8} {i j : Nat}

theorem getLsbD_one_shiftLeft {s k : Nat} (hk : k < 8) : (1#8 <<< s).getLsbD k = decide (k = s) := by
  by_cases h : k = s
  · simp [h, show s < 8 by omega]
  by_cases hlt : k < s
  · simp [h, hlt]
  · simp [h, show ¬(k - s = 0) by omega]

theorem place_eq_iff : j = i ↔ j / 8 = i / 8 ∧ j % 8 = i % 8 := by omega

theorem isset_update (b : BitVec 8) (k : Nat) : isset (update cq k b) j = if j / 8 = k then b.getLsbD (j % 8) else isset cq j := by
  rw [isset]
  split
  · next h => rw [h, Function.update_self]
  · next h => rw [Function.update_of_ne h, isset]

theorem isset_setbit : isset (setbit cq i) j = if j = i then true else isset cq j := by
  have hlt : j % 8 < 8 := mod_lt _ (by decide)
  rw [setbit, isset_update, BitVec.getLsbD_or, getLsbD_one_shiftLeft hlt]
  by_cases h : j / 8 = i / 8
  · rw [if_pos h, ← h]
    by_cases hbit : j % 8 = i % 8
    · rw [if_pos (place_eq_iff.mpr ⟨h, hbit⟩), decide_eq_true hbit, Bool.or_true]
    · rw [if_neg (fun hji => hbit (place_eq_iff.mp hji).2), decide_eq_false hbit, Bool.or_false, isset]
  · rw [if_neg h, if_neg (fun hji => h (place_eq_iff.mp hji).1)]

theorem isset_clrbit : isset (clrbit cq i) j = if j = i then false else isset cq j := by
  have hlt : j % 8 < 8 := mod_lt _ (by decide)
  rw [clrbit, isset_update, BitVec.getLsbD_and, BitVec.getLsbD_not, getLsbD_one_shiftLeft hlt, decide_eq_true hlt, Bool.true_and]
  by_cases h : j / 8 = i / 8
  · rw [if_pos h, ← h]
    by_cases hbit : j % 8 = i % 8
    · rw [if_pos (place_eq_iff.mpr ⟨h, hbit⟩), decide_eq_true hbit, Bool.not_true, Bool.and_false]
    · rw [if_neg (fun hji => hbit (place_eq_iff.mp hji).2), decide_eq_false hbit, Bool.not_false, Bool.and_true, isset]
  · rw [if_neg h, if_neg (fun hji => h (place_eq_iff.mp hji).1)]

theorem isset_zero (k : Nat) : ∀ (cq : Nat → BitVec 8) (scp : Nat),
    isset (zero cq scp k) j = if scp ≤ j / 8 ∧ j / 8 < scp + k then false else isset cq j := by
  induction k with
  | zero => exact fun cq scp => (if_neg (by omega)).symm
  | succ k ih =>
    intro cq scp
    rw [zero, ih, isset_update]
    by_cases h : j / 8 = scp
    · rw [if_neg (by omega), if_pos h, if_pos (by omega)]
      exact BitVec.getLsbD_zero
    rw [if_neg h]
    by_cases hin : scp + 1 ≤ j / 8 ∧ j / 8 < scp + 1 + k
    · rw [if_pos hin, if_pos (by omega)]
    · rw [if_neg hin, if_neg (by omega)]

theorem getLsbD_mask (len s : Nat) {k : Nat} (hk : k < 8) :
    (BitVec.ofNat 8 ((1 <<< len - 1) <<< s)).getLsbD k = decide (s ≤ k ∧ k < s + len) := by
  rw [BitVec.getLsbD_ofNat, decide_eq_true hk, testBit_shiftLeft, one_shiftLeft, testBit_two_pow_sub_one]
  by_cases hs : s ≤ k
  · rw [decide_eq_true hs]
    exact decide_eq_decide.mpr (by omega)
  · rw [decide_eq_false hs]
    exact (decide_eq_false fun h => hs h.1).symm

/-- The bits of the run are cleared, and no others; the bytes are those of the run. -/
theorem clrbits_spec {qmem off len : Nat} (hlen : 0 < len) (hmem : (off + len - 1) / 8 < qmem) :
    ∃ cq', clrbits qmem cq off len = some cq' ∧ ∀ j, isset cq' j = if off ≤ j ∧ j < off + len then false else isset cq j := by
  have hecp : (off + len + 8 - 1) / 8 - 1 = (off + len - 1) / 8 := by omega
  have hebi : (off + len + 8 - 1) % 8 + 1 = (off + len - 1) % 8 + 1 := by omega
  rw [clrbits]
  dsimp only
  rw [hecp, hebi]
  split
  · next hone =>
    rw [if_pos (by omega)]
    refine ⟨_, rfl, ?_⟩
    intro j
    have hlt : j % 8 < 8 := mod_lt _ (by decide)
    rw [isset_update, BitVec.getLsbD_and, BitVec.getLsbD_not, getLsbD_mask _ _ hlt, decide_eq_true hlt, Bool.true_and]
    by_cases hbyte : j / 8 = off / 8
    · rw [if_pos hbyte, ← hbyte]
      by_cases hin : off ≤ j ∧ j < off + len
      · rw [if_pos hin, decide_eq_true (by omega), Bool.not_true, Bool.and_false]
      · rw [if_neg hin, decide_eq_false (by omega), Bool.not_false, Bool.and_true, isset]
    · rw [if_neg hbyte, if_neg (by omega)]
  · next hmany =>
    refine ⟨_, rfl, ?_⟩
    intro j
    have hlt : j % 8 < 8 := mod_lt _ (by decide)
    have hlow := getLsbD_mask (off % 8) 0 hlt
    have hhigh := getLsbD_mask ((off + len - 1) % 8 + 1) 0 hlt
    rw [shiftLeft_zero] at hlow hhigh
    rw [isset_zero, isset_update, BitVec.getLsbD_and, BitVec.getLsbD_not, hhigh, decide_eq_true hlt, Bool.true_and,
      Function.update_of_ne (by omega), isset_update, BitVec.getLsbD_and, hlow]
    by_cases hlast : j / 8 = (off + len - 1) / 8
    · rw [if_neg (by omega), if_pos hlast, ← hlast]
      by_cases hin : off ≤ j ∧ j < off + len
      · rw [if_pos hin, decide_eq_true (by omega), Bool.not_true, Bool.and_false]
      · rw [if_neg hin, decide_eq_false (by omega), Bool.not_false, Bool.and_true, isset]
    rw [if_neg hlast]
    by_cases hfirst : j / 8 = off / 8
    · rw [if_neg (by omega), if_pos hfirst, ← hfirst]
      by_cases hin : off ≤ j ∧ j < off + len
      · rw [if_pos hin, decide_eq_false (by omega), Bool.and_false]
      · rw [if_neg hin, decide_eq_true (by omega), Bool.and_true, isset]
    rw [if_neg hfirst]
    by_cases hin : off ≤ j ∧ j < off + len
    · rw [if_pos hin, if_pos (by omega)]
    · rw [if_neg hin, if_neg (by omega)]

end NetBSD.Kern.TtySubr
