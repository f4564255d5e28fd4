import NetBSD.Lib.Words
import Mathlib.Logic.Function.Basic
import Mathlib.Data.Nat.Log
import NetBSD.Lib.System

/-! Room in a free segment of an arena (`vmem_fit` in `sys/kern/subr_vmem.c`).

A `vmem_addr_t` and a `vmem_size_t` have 64 bits. ENOMEM is `none`. -/
namespace NetBSD.Kern.SubrVmem
open Nat
open Lib

def word (x : Nat) : Nat := x % 2 ^ 64

def neg (x : Nat) : Nat := word (2 ^ 64 - x)

def sub (x y : Nat) : Nat := word (x + (2 ^ 64 - y))

def vmemAlignup (addr align : Nat) : Nat := neg (neg addr &&& neg align)

def vmemCrossP (addr1 addr2 boundary : Nat) : Bool := (addr1 ^^^ addr2) &&& neg boundary ≠ 0

inductive BtType where
  | span
  | spanStatic
  | free
  | busy
  deriving DecidableEq

structure Bt where
  btType : BtType
  btStart : Nat
  btSize : Nat
  deriving DecidableEq

def Bt.btEnd (bt : Bt) : Nat := word (bt.btStart + bt.btSize - 1)

/-- What `vmem_xalloc` is asked for; the size is rounded up. -/
structure Request where
  size : Nat
  align : Nat
  phase : Nat
  nocross : Nat
  minaddr : Nat
  maxaddr : Nat

def vmemFit (bt : Bt) (q : Request) : Option Nat :=
  let start := if bt.btStart < q.minaddr then q.minaddr else bt.btStart
  let stop := if bt.btEnd > q.maxaddr then q.maxaddr else bt.btEnd
  if start > stop then none
  else
    let start := word (vmemAlignup (sub start q.phase) q.align + q.phase)
    let start := if start < bt.btStart then word (start + q.align) else start
    let start := if vmemCrossP start (word (start + q.size - 1)) q.nocross
      then word (vmemAlignup (sub start q.phase) q.nocross + q.phase) else start
    if start ≤ stop ∧ stop - start ≥ q.size - 1 then some start else none

/-! ### What is asked for -/

namespace Request
variable (q : Request)

/-- There is a boundary behind `a` and before the end of what begins there. -/
def Crosses (a : Nat) : Prop := q.nocross ≠ 0 ∧ a / q.nocross ≠ (a + q.size - 1) / q.nocross

instance (a : Nat) : Decidable (q.Crosses a) := inferInstanceAs (Decidable (_ ∧ _))

/-- What `vmem_xalloc` asserts of its arguments. -/
structure Legal : Prop where
  size_pos : 0 < q.size
  align : ∃ k < 64, q.align = 2 ^ k
  phase : q.phase < q.align
  nocross : q.nocross ≠ 0 → (∃ k < 64, q.nocross = 2 ^ k) ∧ q.size ≤ q.nocross
  phase_fits : ¬ q.Crosses q.phase
  min_le_max : q.minaddr ≤ q.maxaddr
  max_lt : q.maxaddr < 2 ^ 64

/-- A place in a segment that is as it was asked for. -/
structure Admissible (bt : Bt) (a : Nat) : Prop where
  start_le : bt.btStart ≤ a
  le_end : a + q.size ≤ bt.btStart + bt.btSize
  min_le : q.minaddr ≤ a
  le_max : a + q.size ≤ q.maxaddr + 1
  phase : a % q.align = q.phase
  uncrossed : ¬ q.Crosses a

/-- The first number of a segment that may be taken, and the one behind the last. -/
def low (bt : Bt) : Nat := max bt.btStart q.minaddr

def high (bt : Bt) : Nat := min (bt.btStart + bt.btSize) (q.maxaddr + 1)

/-- The first number that is on the alignment. -/
def first (bt : Bt) : Nat := alignedFrom (q.low bt) q.align q.phase

/-- Where the search is when that number has wrapped. -/
def wrapped (bt : Bt) : Nat :=
  if bt.btStart ≤ q.phase then q.phase
  else if q.Crosses (q.phase + q.align) then q.phase + q.nocross
  else q.phase + q.align

/-- The number on the alignment wraps and there is room where it comes to lie, or what begins there
goes past the last address and is moved behind a boundary. -/
def Astray (bt : Bt) : Prop :=
  q.low bt < q.high bt ∧ (2 ^ 64 ≤ q.first bt ∧ q.wrapped bt + q.size ≤ q.high bt ∨
      q.first bt < 2 ^ 64 ∧ q.nocross ≠ 0 ∧ 2 ^ 64 < q.first bt + q.size)

instance (bt : Bt) : Decidable (q.Astray bt) := inferInstanceAs (Decidable (_ ∧ _))

end Request

/-! ### Words -/

section Words
variable {x y k p : Nat}

theorem word_lt (x : Nat) : word x < 2 ^ 64 := mod_lt x (Nat.two_pow_pos 64)

theorem word_of_lt (h : x < 2 ^ 64) : word x = x := mod_eq_of_lt h

theorem word_add_word (x y : Nat) : word (word x + y) = word (x + y) := mod_add_mod x _ y

theorem two_pow_mod (hk : k < 64) : 2 ^ 64 % 2 ^ k = 0 := mod_eq_zero_of_dvd (Nat.pow_dvd_pow 2 (le_of_lt hk))

theorem neg_two_pow (k : Nat) : neg (2 ^ k) = 2 ^ 64 - 2 ^ k := word_of_lt (sub_lt (Nat.two_pow_pos 64) (Nat.two_pow_pos k))

theorem vmemAlignup_eq (hx : x < 2 ^ 64) (hk : k < 64) : vmemAlignup x (2 ^ k) = word (alignedFrom x (2 ^ k) 0) := by
  have hpos := Nat.two_pow_pos k
  rcases Nat.eq_zero_or_pos x with rfl | hxpos
  · rw [alignedFrom_self (zero_mod _) hpos, vmemAlignup, show neg 0 = 0 from rfl, zero_and]
    rfl
  have hlow : 2 ^ 64 - x < 2 ^ 64 := sub_lt (Nat.two_pow_pos 64) hxpos
  have hneg : neg x = 2 ^ 64 - x := word_of_lt hlow
  rw [vmemAlignup, neg_two_pow, hneg, and_neg_two_pow hlow (le_of_lt hk), neg]
  apply congrArg
  have hle := Nat.mod_le (2 ^ 64 - x) (2 ^ k)
  have hsum : 2 ^ 64 - (2 ^ 64 - x - (2 ^ 64 - x) % 2 ^ k) = (2 ^ 64 - x) % 2 ^ k + x := by omega
  rw [hsum]
  apply eq_alignedFrom (Nat.le_add_left _ _) (by omega)
  rw [mod_add_mod, Nat.sub_add_cancel (le_of_lt hx), two_pow_mod hk]

theorem alignup_phase (hx : x < 2 ^ 64) (hk : k < 64) (hp : p < 2 ^ k) :
    word (vmemAlignup (sub x p) (2 ^ k) + p) = word (alignedFrom x (2 ^ k) p) := by
  rw [vmemAlignup_eq (x := sub x p) (word_lt _) hk, word_add_word]
  rcases le_total p x with hle | hle
  · have hsub : sub x p = x - p := by
      rw [sub, show x + (2 ^ 64 - p) = x - p + 2 ^ 64 by omega, word, add_mod_right]
      exact mod_eq_of_lt (lt_of_le_of_lt (sub_le x p) hx)
    rw [hsub, alignedFrom, alignedFrom, zero_add, Nat.sub_zero, add_comm]
  have hfirst : alignedFrom x (2 ^ k) p = p := by
    rw [alignedFrom, Nat.sub_eq_zero_of_le hle, zero_add, div_eq_of_lt (sub_lt (Nat.two_pow_pos k) one_pos), zero_mul]
    rfl
  rcases lt_or_eq_of_le hle with hlt | heq
  · have hsub : sub x p = x + (2 ^ 64 - p) := word_of_lt (by omega)
    have hround : 2 ^ 64 = alignedFrom (x + (2 ^ 64 - p)) (2 ^ k) 0 := eq_alignedFrom (by omega) (by omega) (two_pow_mod hk)
    rw [hsub, ← hround, hfirst, add_comm, word, add_mod_right]
    rfl
  have hsub : sub x p = 0 := by
    rw [heq, sub, add_sub_of_le (by omega)]
    exact mod_self _
  rw [hsub, alignedFrom_self (zero_mod _) (Nat.two_pow_pos k), hfirst, zero_add]

theorem vmemCrossP_iff (hx : x < 2 ^ 64) (hy : y < 2 ^ 64) (hk : k < 64) : vmemCrossP x y (2 ^ k) = true ↔ x / 2 ^ k ≠ y / 2 ^ k := by
  rw [vmemCrossP, neg_two_pow, decide_eq_true_iff, ne_eq, xor_and_neg_two_pow hx hy (le_of_lt hk)]

theorem vmemCrossP_zero (x y : Nat) : vmemCrossP x y 0 = false := decide_eq_false fun h => h (and_zero _)

end Words

/-! Arenas without an import function: `vmem_add`, `vmem_xalloc` and `vmem_xfree`
(`sys/kern/subr_vmem.c`).

Boundary tags are told apart by what they hold, and the hash of the busy ones is one list. Spans
were added by `vmem_add` and are not released. What follows a NULL pointer or goes past the array
of the free lists is `none`; failed assertions about sizes off the quantum are not. -/

/-- `vm_quantum_mask` is `2 ^ quantumShift - 1`. -/
structure Vmem where
  quantumShift : Nat
  seglist : List Bt
  freelist : Nat → List Bt
  busylist : List Bt
  nbusytag : Nat
  size : Nat
  inuse : Nat

def vmemMaxorder : Nat := 64

def Bt.IsSpan (bt : Bt) : Prop := bt.btType = .span ∨ bt.btType = .spanStatic

instance (bt : Bt) : Decidable bt.IsSpan := inferInstanceAs (Decidable (_ ∨ _))

/-- The list with other tags in the place of `bt`. -/
def splice (bt : Bt) (new : List Bt) : List Bt → List Bt
  | [] => []
  | b :: rest => if b = bt then new ++ rest else b :: splice bt new rest

namespace Vmem
variable (vm : Vmem)

def quantumMask : Nat := 2 ^ vm.quantumShift - 1

def vmemRoundupSize (size : Nat) : Nat := word (size + vm.quantumMask) &&& (2 ^ 64 - 1 - vm.quantumMask)

/-- SIZE2ORDER of the size in quanta: the free list that a segment is on. -/
def order (size : Nat) : Nat := log2 (size >>> vm.quantumShift)

def btFreeheadTofree (size : Nat) : Option Nat := if size >>> vm.quantumShift = 0 then none else some (vm.order size)

def btFreeheadToalloc (size : Nat) (instantfit : Bool) : Option Nat :=
  if size >>> vm.quantumShift = 0 then none
  else if instantfit ∧ 2 ^ vm.order size ≠ size >>> vm.quantumShift then some (vm.order size + 1)
  else some (vm.order size)

def btInsfree (bt : Bt) : Option Vmem :=
  (vm.btFreeheadTofree bt.btSize).map fun idx => { vm with freelist := Function.update vm.freelist idx (bt :: vm.freelist idx) }

def btRemfree (bt : Bt) : Vmem := { vm with freelist := fun idx => (vm.freelist idx).erase bt }

def btInsbusy (bt : Bt) : Vmem :=
  { vm with busylist := bt :: vm.busylist, nbusytag := vm.nbusytag + 1, inuse := word (vm.inuse + bt.btSize) }

def btRembusy (bt : Bt) : Vmem :=
  { vm with busylist := vm.busylist.erase bt, nbusytag := vm.nbusytag - 1, inuse := sub vm.inuse bt.btSize }

def btLookupbusy (addr : Nat) : Option Bt := vm.busylist.find? fun bt => bt.btStart = addr

def vmemAdd (addr size : Nat) : Option Vmem :=
  let btfree : Bt := ⟨.free, addr, size⟩
  ({ vm with seglist := vm.seglist ++ [⟨.spanStatic, addr, size⟩, btfree], size := word (vm.size + size) } : Vmem).btInsfree btfree

/-! ### vmem_xalloc -/

/-- The first tag of each list, from the list `first` on. -/
def instantFit (q : Request) (first : Nat) : Option (Bt × Nat) :=
  (List.range' first (vmemMaxorder - first)).findSome? fun idx =>
    (vm.freelist idx).head?.bind fun bt => (vmemFit bt q).map fun start => (bt, start)

def bestFit (q : Request) (first : Nat) : Option (Bt × Nat) :=
  (List.range' first (vmemMaxorder - first)).findSome? fun idx =>
    (vm.freelist idx).findSome? fun bt =>
      if bt.btSize ≥ q.size then (vmemFit bt q).map fun start => (bt, start) else none

/-- What is in front of the room, the room, and what is behind it. -/
def cut (size : Nat) (bt : Bt) (start : Nat) : List Bt × Bt × List Bt :=
  let front := sub start bt.btStart
  let btSize := if bt.btStart ≠ start then sub bt.btSize front else bt.btSize
  let split : Bool := btSize ≠ size && sub btSize size > vm.quantumMask
  (if bt.btStart ≠ start then [⟨.free, bt.btStart, front⟩] else [], ⟨.busy, start, if split then size else btSize⟩,
    if split then [⟨.free, word (start + size), sub btSize size⟩] else [])

def gotit (size : Nat) (bt : Bt) (start : Nat) : Option (Option Nat × Vmem) :=
  let (fronts, btnew, rests) := vm.cut size bt start
  ((fronts ++ rests).foldlM btInsfree (vm.btRemfree bt)).map fun vm =>
    (some btnew.btStart, { vm with seglist := splice bt (fronts ++ btnew :: rests) vm.seglist }.btInsbusy btnew)

/-- What is searched for when `q` is asked for. -/
def rounded (q : Request) : Request :=
  { q with size := vm.vmemRoundupSize q.size, align := if q.align = 0 then vm.quantumMask + 1 else q.align }

/-- The search under one strategy; `none` where the request is on no list. -/
def search (q : Request) (instantfit : Bool) : Option (Option (Bt × Nat)) :=
  (vm.btFreeheadToalloc q.size instantfit).map fun first => if instantfit then vm.instantFit q first else vm.bestFit q first

/-- Where the quick search finds nothing there is a second one. -/
def choose (q : Request) (instantfit : Bool) : Option (Option (Bt × Nat)) :=
  if instantfit then
    (vm.search q true).bind fun
      | some found => some (some found)
      | none => vm.search q false
  else vm.search q false

/-- Without VM_SLEEP: the address, or nothing for ENOMEM. `tags`: there are two boundary tags. -/
def vmemXalloc (q : Request) (instantfit tags : Bool) : Option (Option Nat × Vmem) :=
  if tags then
    (vm.choose (vm.rounded q) instantfit).bind fun
      | some (bt, start) => vm.gotit (vm.rounded q).size bt start
      | none => some (none, vm)
  else some (none, vm)

/-- A tag that becomes free is joined with the one behind it. -/
def joinNext (bt : Bt) : List Bt → Vmem × Bt × List Bt
  | [] => (vm, bt, [])
  | t :: rest =>
    if t.btType = BtType.free then (vm.btRemfree t, { bt with btSize := word (bt.btSize + t.btSize) }, rest) else (vm, bt, t :: rest)

/-- It is joined with the one in front of it, the first of the list here. -/
def joinPrev (bt : Bt) : List Bt → Vmem × Bt × List Bt
  | [] => (vm, bt, [])
  | t :: rest =>
    if t.btType = BtType.free then (vm.btRemfree t, { bt with btStart := t.btStart, btSize := word (bt.btSize + t.btSize) }, rest)
    else (vm, bt, t :: rest)

def coalesce (bt : Bt) (before behind : List Bt) : Option Vmem :=
  let (vm, bt, behind) := vm.joinNext bt behind
  let (vm, bt, before) := vm.joinPrev bt before
  ({ vm with seglist := before.reverse ++ bt :: behind } : Vmem).btInsfree bt

def vmemXfree (addr : Nat) : Option Vmem := do
  let bt ← vm.btLookupbusy addr
  let vm := vm.btRembusy bt
  match vm.seglist.span fun b => b ≠ bt with
  | (_, []) => none
  | (before, _ :: behind) => vm.coalesce { bt with btType := .free } before.reverse behind

end Vmem

inductive Call where
  | add (addr size : Nat)
  | xalloc (q : Request) (instantfit tags : Bool)
  | xfree (addr : Nat)

/-- A span does not wrap, and a request is legal. -/
def Call.Legal (vm : Vmem) : Call → Prop
  | .add addr size => addr + size ≤ 2 ^ 64
  | .xalloc q _ _ => (vm.rounded q).Legal
  | .xfree _ => True

def next (vm : Vmem) : Call → Option Vmem
  | .add addr size => vm.vmemAdd addr size
  | .xalloc q instantfit tags => (vm.vmemXalloc q instantfit tags).map Prod.snd
  | .xfree addr => vm.vmemXfree addr

def created (quantumShift : Nat) : Vmem := ⟨quantumShift, [], fun _ => [], [], 0, 0, 0⟩

def system : System Vmem Call := .ofStep (fun vm => ∃ quantumShift < 64, vm = created quantumShift) next

/-- The arenas that legal calls lead to. -/
def Reachable (vm : Vmem) : Prop := system.Reach (fun vm c => c.Legal vm) vm

end NetBSD.Kern.SubrVmem
