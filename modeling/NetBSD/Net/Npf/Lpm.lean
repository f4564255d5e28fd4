import NetBSD.Lib.Chained
import NetBSD.Lib.Words

/-! The longest prefix match of the packet filter.

The prefixes of each length have a hash table of their own, and a bit says which lengths are in use. An address is a list
of words in host byte order, its first bit the highest of the first word. A read of a hash table without buckets is
`none`. -/
namespace NetBSD.Net.Npf
open Function Option Nat
open Lib

abbrev Addr := List (BitVec 32)

/-- The length in bytes, and the words. -/
abbrev Key := Nat × Addr

structure Lpm (ν : Type*) where
  bitmask : Nat → BitVec 32
  defval : Option ν
  table : Nat → Chained Key ν

variable {ν : Type*}

def Lpm.empty : Lpm ν := ⟨fun _ => 0, none, fun _ => .empty⟩

/-- Every hash table loses its buckets. -/
def lpmClear (_lpm : Lpm ν) : Lpm ν := .empty

def lpmToWords (len : Nat) : Nat := len >>> 2

def LPM_HASH_STEP : Nat := 8

/-- The bytes of a word in network byte order. -/
def wordBytes (w : BitVec 32) : List (BitVec 8) := [24, 16, 8, 0].map fun s => (w >>> s).setWidth 8

def fnv1aHash (key : Key) : Nat :=
  (((key.2.flatMap wordBytes).take key.1).foldl (fun hash b => (hash ^^^ b.setWidth 32) * 16777619) (2166136261 : BitVec 32)).toNat

def computePrefix : Nat → Addr → Nat → Addr
  | 0, _, _ => []
  | nwords + 1, addr, preflen =>
    if preflen = 0 then 0 :: computePrefix nwords addr.tail 0
    else if preflen < 32 then (addr.headD 0 &&& (BitVec.allOnes 32 <<< (32 - preflen))) :: computePrefix nwords addr.tail 0
    else addr.headD 0 :: computePrefix nwords addr.tail (preflen - 32)

def lpmKey (addr : Addr) (len preflen : Nat) : Key := (len, computePrefix (lpmToWords len) addr preflen)

def lpmInsert (lpm : Lpm ν) (addr : Addr) (len preflen : Nat) (val : ν) : Lpm ν :=
  if preflen = 0 then { lpm with defval := some val }
  else
    let n := (preflen - 1) >>> 5
    { lpm with
      table := update lpm.table preflen ((lpm.table preflen).insert fnv1aHash LPM_HASH_STEP (lpmKey addr len preflen) val)
      bitmask := update lpm.bitmask n (lpm.bitmask n ||| ((0x80000000 : BitVec 32) >>> ((preflen - 1) &&& 31))) }

/-- With the answer whether the prefix was there. -/
def lpmRemove (lpm : Lpm ν) (addr : Addr) (len preflen : Nat) : Option (Lpm ν × Bool) :=
  if preflen = 0 then some ({ lpm with defval := none }, true)
  else ((lpm.table preflen).remove fnv1aHash (lpmKey addr len preflen)).map fun t =>
    ({ lpm with table := update lpm.table preflen t.1 }, t.2)

/-- The prefix lengths of a word, the longest first: from the lowest bit up. -/
def lookupWord (lpm : Lpm ν) (addr : Addr) (len n : Nat) : Nat → BitVec 32 → Option (Option ν)
  | 0, _ => some none
  | rounds + 1, bitmask =>
    match ffs bitmask with
    | 0 => some none
    | i + 1 => do
      let preflen := 32 * n + (32 - i)
      match ← (lpm.table preflen).lookup fnv1aHash (lpmKey addr len preflen) with
      | some val => return some val
      | none => lookupWord lpm addr len n rounds (bitmask &&& ~~~(1#32 <<< i))

def lookupWords (lpm : Lpm ν) (addr : Addr) (len : Nat) : Nat → Option (Option ν)
  | 0 => some none
  | n + 1 => do
    match ← lookupWord lpm addr len n 32 (lpm.bitmask n) with
    | some val => return some val
    | none => lookupWords lpm addr len n

def lpmLookup (lpm : Lpm ν) (addr : Addr) (len : Nat) : Option (Option ν) :=
  (lookupWords lpm addr len (lpmToWords len)).map (·.or lpm.defval)

/-- A bit of the address, the highest of the first word first. -/
def addrBit (addr : Addr) (i : Nat) : Bool := (addr.getD (i / 32) 0).getMsbD (i % 32)

/-- The addresses agree in their first bits. -/
def Agree (preflen : Nat) (a b : Addr) : Prop := ∀ i < preflen, addrBit a i = addrBit b i

theorem mask_eq_iff {p : Nat} (hp : p ≤ 32) (x y : BitVec 32) :
    x &&& (BitVec.allOnes 32 <<< (32 - p)) = y &&& (BitVec.allOnes 32 <<< (32 - p)) ↔ ∀ i < p, x.getMsbD i = y.getMsbD i := by
  have hmask : ∀ (z : BitVec 32) i, (z &&& (BitVec.allOnes 32 <<< (32 - p))).getMsbD i = (z.getMsbD i && decide (i < p)) := by
    intro z i
    rw [BitVec.getMsbD_and, BitVec.getMsbD_shiftLeft, BitVec.getMsbD_allOnes]
    congr 2
    exact propext ⟨fun h => by omega, fun h => by omega⟩
  constructor
  · intro h i hi
    have hbit := congrArg (·.getMsbD i) h
    simpa only [hmask, hi, decide_true, Bool.and_true] using hbit
  intro h
  apply BitVec.eq_of_getMsbD_eq
  intro i _
  rw [hmask, hmask]
  by_cases hip : i < p
  · rw [h i hip]
  · rw [decide_eq_false hip, Bool.and_false, Bool.and_false]

theorem computePrefix_zero (n : Nat) : ∀ addr, computePrefix n addr 0 = List.replicate n 0 := by
  induction n with
  | zero => exact fun _ => rfl
  | succ n ih =>
    intro addr
    rw [computePrefix, ih]
    rfl

theorem addrBit_head (addr : Addr) {i : Nat} (h : i < 32) : addrBit addr i = (addr.headD 0).getMsbD i := by
  rw [addrBit, div_eq_of_lt h, mod_eq_of_lt h]
  cases addr <;> rfl

theorem addrBit_tail (addr : Addr) (i : Nat) : addrBit addr (i + 32) = addrBit addr.tail i := by
  rw [addrBit, addrBit]
  cases addr <;> simp

theorem computePrefix_eq_iff (n : Nat) : ∀ (a b : Addr) (p : Nat), p ≤ 32 * n →
    (computePrefix n a p = computePrefix n b p ↔ Agree p a b) := by
  induction n with
  | zero =>
    intro a b p hp
    have hp : p = 0 := by omega
    subst hp
    exact iff_of_true rfl fun i hi => absurd hi (Nat.not_lt_zero i)
  | succ n ih =>
    intro a b p hp
    rw [computePrefix, computePrefix]
    by_cases h0 : p = 0
    · subst h0
      rw [computePrefix_zero, computePrefix_zero]
      exact iff_of_true rfl fun i hi => absurd hi (Nat.not_lt_zero i)
    rw [if_neg h0, if_neg h0]
    by_cases h32 : p < 32
    · rw [if_pos h32, if_pos h32, computePrefix_zero, computePrefix_zero, List.cons.injEq, and_iff_left rfl, mask_eq_iff (le_of_lt h32)]
      constructor
      · intro h i hi
        rw [addrBit_head a (by omega), addrBit_head b (by omega), h i hi]
      · intro h i hi
        rw [← addrBit_head a (by omega), ← addrBit_head b (by omega), h i hi]
    rw [if_neg h32, if_neg h32, List.cons.injEq, ih _ _ _ (by omega)]
    constructor
    · rintro ⟨hhead, htail⟩ i hi
      by_cases h : i < 32
      · rw [addrBit_head a h, addrBit_head b h, hhead]
      · obtain ⟨j, rfl⟩ : ∃ j, i = j + 32 := ⟨i - 32, by omega⟩
        rw [addrBit_tail, addrBit_tail, htail j (by omega)]
    intro h
    constructor
    · apply BitVec.eq_of_getMsbD_eq
      intro i hi
      rw [← addrBit_head a hi, ← addrBit_head b hi, h i (by omega)]
    · intro i hi
      rw [← addrBit_tail, ← addrBit_tail, h (i + 32) (by omega)]

/-! ### The longest match -/

/-- The value of the prefix of a length. -/
def Lpm.at (lpm : Lpm ν) (addr : Addr) (len preflen : Nat) : Option ν :=
  (lpm.table preflen).get fnv1aHash (lpmKey addr len preflen)

def Lpm.inUse (lpm : Lpm ν) (preflen : Nat) : Bool :=
  decide (preflen ≠ 0) && (lpm.bitmask ((preflen - 1) >>> 5)).getMsbD ((preflen - 1) &&& 31)

/-- The lengths in use have buckets, and those with a prefix are in use. -/
structure Lpm.Wf (lpm : Lpm ν) : Prop where
  placed : ∀ p, (lpm.table p).Placed fnv1aHash
  sized : ∀ p, lpm.inUse p = true → (lpm.table p).hashsize ≠ 0
  used : ∀ p key val, (lpm.table p).get fnv1aHash key = some val → lpm.inUse p = true

/-- The longest prefix with a value, of more than `lo` bits and at most `hi`. -/
def Longest (lpm : Lpm ν) (addr : Addr) (len lo hi : Nat) : Option ν → Prop
  | some val => ∃ p, lo < p ∧ p ≤ hi ∧ lpm.at addr len p = some val ∧ ∀ q, p < q → q ≤ hi → lpm.at addr len q = none
  | none => ∀ q, lo < q → q ≤ hi → lpm.at addr len q = none

theorem inUse_bit (lpm : Lpm ν) (n : Nat) {i : Nat} (hi : i < 32) : lpm.inUse (32 * n + (32 - i)) = (lpm.bitmask n).getLsbD i := by
  have hdiv : (32 * n + (32 - i) - 1) >>> 5 = n := by
    omega
  have hmod : (32 * n + (32 - i) - 1) &&& 31 = 31 - i := by
    rw [show 31 = 2 ^ 5 - 1 from rfl, and_two_pow_sub_one_eq_mod]
    omega
  rw [Lpm.inUse, decide_eq_true (show 32 * n + (32 - i) ≠ 0 by omega), Bool.true_and, hdiv, BitVec.getMsbD_eq_getLsbD,
    decide_eq_true (by omega), Bool.true_and]
  congr 1
  omega

theorem Lpm.Wf.at_none {lpm : Lpm ν} (h : lpm.Wf) {addr : Addr} {len p : Nat} (hp : lpm.inUse p = false) : lpm.at addr len p = none := by
  rw [eq_none_iff_forall_ne_some]
  intro val hval
  rw [h.used p _ val hval] at hp
  cases hp

theorem getLsbD_clear (b : Word) {i j : Nat} (hi : i < 32) (hj : j < 32) : (b &&& ~~~(1#32 <<< i)).getLsbD j = (b.getLsbD j && decide (j ≠ i)) := by
  rw [BitVec.getLsbD_and, BitVec.getLsbD_not, getLsbD_one_shiftLeft hi, decide_eq_true hj, Bool.true_and, decide_not]

/-- The bits below `k` are done: their lengths have no value. -/
theorem lookupWord_spec {lpm : Lpm ν} (h : lpm.Wf) (addr : Addr) (len n : Nat) (rounds : Nat) : ∀ (k : Nat) (b : BitVec 32),
    32 ≤ rounds + k → (∀ i < k, b.getLsbD i = false) → (∀ i, k ≤ i → b.getLsbD i = (lpm.bitmask n).getLsbD i) →
    (∀ i < k, i < 32 → lpm.at addr len (32 * n + (32 - i)) = none) →
    ∃ r, lookupWord lpm addr len n rounds b = some r ∧ Longest lpm addr len (32 * n) (32 * n + 32) r := by
  induction rounds with
  | zero =>
    intro k b hk _ _ hnone
    refine ⟨none, rfl, ?_⟩
    intro q hlo hhi
    have hq := hnone (32 * n + 32 - q) (by omega) (by omega)
    rwa [show 32 * n + (32 - (32 * n + 32 - q)) = q by omega] at hq
  | succ rounds ih =>
    intro k b hk hclear hsame hnone
    -- A length whose bit is clear has no value, be it done or not.
    have hbit0 : ∀ j < 32, b.getLsbD j = false → lpm.at addr len (32 * n + (32 - j)) = none := by
      intro j hj hb
      by_cases hjk : j < k
      · exact hnone j hjk hj
      · apply h.at_none
        rw [inUse_bit lpm n hj, ← hsame j (Nat.not_lt.mp hjk), hb]
    by_cases hb : b = 0
    · subst hb
      refine ⟨none, by rw [lookupWord, ffs_zero], ?_⟩
      intro q hlo hhi
      have hq := hbit0 (32 * n + 32 - q) (by omega) (BitVec.getLsbD_zero)
      rwa [show 32 * n + (32 - (32 * n + 32 - q)) = q by omega] at hq
    obtain ⟨i, hi, hffs, hbit, hfirst⟩ := ffs_of_ne_zero hb
    have hki : k ≤ i := by
      by_contra hlt
      rw [hclear i (Nat.not_le.mp hlt)] at hbit
      cases hbit
    have huse : lpm.inUse (32 * n + (32 - i)) = true := by rw [inUse_bit lpm n hi, ← hsame i hki, hbit]
    have hlookup := @Chained.lookup_eq _ _ _ fnv1aHash _ (h.sized _ huse) (lpmKey addr len (32 * n + (32 - i)))
    cases hval : lpm.at addr len (32 * n + (32 - i)) with
    | some val =>
      rw [Lpm.at] at hval
      refine ⟨some val, ?_, 32 * n + (32 - i), by omega, by omega, hval, ?_⟩
      · simp only [lookupWord, hffs, hlookup, hval, bind_eq_bind, bind_some]
        rfl
      intro q hlo hhi
      have hq := hbit0 (32 * n + 32 - q) (by omega) (hfirst _ (by omega))
      rwa [show 32 * n + (32 - (32 * n + 32 - q)) = q by omega] at hq
    | none =>
      -- The bit is cleared, and the search goes on above it.
      have hclear' : ∀ j < i + 1, (b &&& ~~~(1#32 <<< i)).getLsbD j = false := by
        intro j hj
        rw [getLsbD_clear b hi (by omega)]
        rcases Nat.lt_succ_iff_lt_or_eq.mp hj with hlt | rfl
        · rw [hfirst j hlt, Bool.false_and]
        · rw [decide_eq_false (fun h => h rfl), Bool.and_false]
      have hsame' : ∀ j, i + 1 ≤ j → (b &&& ~~~(1#32 <<< i)).getLsbD j = (lpm.bitmask n).getLsbD j := by
        intro j hj
        by_cases hj32 : j < 32
        · rw [getLsbD_clear b hi hj32, hsame j (by omega), decide_eq_true (by omega), Bool.and_true]
        · rw [BitVec.getLsbD_of_ge _ _ (by omega), BitVec.getLsbD_of_ge _ _ (by omega)]
      have hnone' : ∀ j < i + 1, j < 32 → lpm.at addr len (32 * n + (32 - j)) = none := by
        intro j hj hj32
        rcases Nat.lt_succ_iff_lt_or_eq.mp hj with hlt | rfl
        · exact hbit0 j hj32 (hfirst j hlt)
        · exact hval
      obtain ⟨r, hrun, hr⟩ := ih (i + 1) _ (by omega) hclear' hsame' hnone'
      refine ⟨r, ?_, hr⟩
      rw [Lpm.at] at hval
      simp only [lookupWord, hffs, hlookup, hval, bind_eq_bind, bind_some]
      exact hrun

theorem lookupWords_spec {lpm : Lpm ν} (h : lpm.Wf) (addr : Addr) (len n : Nat) :
    ∃ r, lookupWords lpm addr len n = some r ∧ Longest lpm addr len 0 (32 * n) r := by
  induction n with
  | zero => exact ⟨none, rfl, fun q hlo hhi => by omega⟩
  | succ n ih =>
    obtain ⟨r, hrun, hr⟩ := lookupWord_spec h addr len n 32 0 (lpm.bitmask n) (by omega) (fun i hi => absurd hi (Nat.not_lt_zero i))
      (fun _ _ => rfl) (fun i hi => absurd hi (Nat.not_lt_zero i))
    cases r with
    | some val =>
      obtain ⟨p, hlo, hhi, hp, hlonger⟩ := hr
      refine ⟨some val, ?_, p, by omega, by omega, hp, fun q hq hq' => hlonger q hq (by omega)⟩
      simp only [lookupWords, hrun, bind_eq_bind, bind_some]
      rfl
    | none =>
      obtain ⟨r, hrun', hr'⟩ := ih
      refine ⟨r, ?_, ?_⟩
      · simp only [lookupWords, hrun, bind_eq_bind, bind_some]
        exact hrun'
      cases r with
      | some val =>
        obtain ⟨p, hlo, hhi, hp, hlonger⟩ := hr'
        refine ⟨p, hlo, by omega, hp, ?_⟩
        intro q hq hq'
        by_cases hqn : q ≤ 32 * n
        · exact hlonger q hq hqn
        · exact hr q (by omega) (by omega)
      | none =>
        intro q hlo hhi
        by_cases hqn : q ≤ 32 * n
        · exact hr' q hlo hqn
        · exact hr q (by omega) (by omega)

theorem lpmLookup_spec {lpm : Lpm ν} (h : lpm.Wf) (addr : Addr) (len : Nat) :
    ∃ r, lpmLookup lpm addr len = some (r.or lpm.defval) ∧ Longest lpm addr len 0 (32 * lpmToWords len) r := by
  obtain ⟨r, hrun, hr⟩ := lookupWords_spec h addr len (lpmToWords len)
  exact ⟨r, by rw [lpmLookup, hrun]; rfl, hr⟩

theorem Lpm.Wf.empty : (Lpm.empty : Lpm ν).Wf :=
  ⟨fun _ => Chained.placed_empty, fun p hp => by simp [Lpm.inUse, Lpm.empty] at hp, fun _ _ _ hval => by cases hval⟩

theorem lpmInsert_inUse (lpm : Lpm ν) (addr : Addr) (len : Nat) {p : Nat} (hp : p ≠ 0) (val : ν) (q : Nat) :
    (lpmInsert lpm addr len p val).inUse q = (lpm.inUse q || decide (q = p)) := by
  have hlt : ∀ k, k &&& 31 < 32 := fun k => lt_of_le_of_lt and_le_right (by decide)
  have hmsb : ∀ i < 32, ∀ k < 32, ((0x80000000 : BitVec 32) >>> k).getMsbD i = decide (i = k) := by decide
  rw [Lpm.inUse, Lpm.inUse, lpmInsert, if_neg hp]
  dsimp only
  by_cases hq : q = 0
  · rw [decide_eq_false (fun h => h hq), Bool.false_and, Bool.false_and, decide_eq_false (fun h : q = p => hp (h.symm.trans hq)), Bool.or_false]
  -- A length is its word and its bit.
  have hsplit : q = p ↔ (q - 1) >>> 5 = (p - 1) >>> 5 ∧ (q - 1) &&& 31 = (p - 1) &&& 31 := by
    rw [shiftRight_eq_div_pow, shiftRight_eq_div_pow, show 31 = 2 ^ 5 - 1 from rfl, and_two_pow_sub_one_eq_mod, and_two_pow_sub_one_eq_mod]
    omega
  rw [decide_eq_true hq, Bool.true_and, Bool.true_and]
  by_cases hword : (q - 1) >>> 5 = (p - 1) >>> 5
  · rw [hword, update_self, BitVec.getMsbD_or, hmsb _ (hlt _) _ (hlt _)]
    simp [hsplit, hword, true_and]
  · rw [update_of_ne hword, decide_eq_false (fun h => hword (hsplit.mp h).1), Bool.or_false]

theorem lpmInsert_spec {lpm : Lpm ν} (h : lpm.Wf) (addr : Addr) (len : Nat) {p : Nat} (hp : p ≠ 0) (val : ν) :
    (lpmInsert lpm addr len p val).Wf ∧ (lpmInsert lpm addr len p val).defval = lpm.defval ∧
      ∀ q key, ((lpmInsert lpm addr len p val).table q).get fnv1aHash key =
        if q = p ∧ key = lpmKey addr len p then some val else (lpm.table q).get fnv1aHash key := by
  obtain ⟨hplaced, hsized, hget⟩ := @Chained.insert_spec _ _ _ fnv1aHash _ LPM_HASH_STEP (by decide) (h.placed p) (lpmKey addr len p) val
  have htable : ∀ q key, ((lpmInsert lpm addr len p val).table q).get fnv1aHash key =
      if q = p ∧ key = lpmKey addr len p then some val else (lpm.table q).get fnv1aHash key := by
    intro q key
    rw [lpmInsert, if_neg hp]
    dsimp only
    by_cases hq : q = p
    · subst hq
      rw [update_self, hget]
      simp
    · rw [update_of_ne hq, if_neg (fun hc => hq hc.1)]
  have huse := lpmInsert_inUse lpm addr len hp val
  refine ⟨⟨?_, ?_, ?_⟩, by rw [lpmInsert, if_neg hp], htable⟩
  · intro q
    rw [lpmInsert, if_neg hp]
    dsimp only
    by_cases hq : q = p
    · subst hq
      rw [update_self]
      exact hplaced
    · rw [update_of_ne hq]
      exact h.placed q
  · intro q hq
    rw [huse, Bool.or_eq_true, decide_eq_true_eq] at hq
    rw [lpmInsert, if_neg hp]
    dsimp only
    by_cases hqp : q = p
    · subst hqp
      rw [update_self]
      exact hsized
    · rw [update_of_ne hqp]
      exact h.sized q (hq.resolve_right hqp)
  · intro q key v hv
    rw [huse, Bool.or_eq_true, decide_eq_true_eq]
    rw [htable] at hv
    split at hv
    · next hc => exact .inr hc.1
    · exact .inl (h.used q key v hv)

theorem lpmRemove_spec {lpm : Lpm ν} (h : lpm.Wf) {addr : Addr} {len p : Nat} (hp : p ≠ 0) {val : ν} (hval : lpm.at addr len p = some val) :
    ∃ lpm', lpmRemove lpm addr len p = some (lpm', true) ∧ lpm'.Wf ∧ lpm'.defval = lpm.defval ∧ ∀ q key, (lpm'.table q).get fnv1aHash key =
        if q = p ∧ key = lpmKey addr len p then none else (lpm.table q).get fnv1aHash key := by
  obtain ⟨t, hrun, hplaced, hsized, hget⟩ := Chained.remove_spec (h.placed p) (h.sized p (h.used p _ val hval)) hval
  have htable : ∀ q key, (update lpm.table p t q).get fnv1aHash key =
      if q = p ∧ key = lpmKey addr len p then none else (lpm.table q).get fnv1aHash key := by
    intro q key
    by_cases hq : q = p
    · subst hq
      rw [update_self, hget]
      simp
    · rw [update_of_ne hq, if_neg (fun hc => hq hc.1)]
  refine ⟨{ lpm with table := update lpm.table p t }, by rw [lpmRemove, if_neg hp, hrun]; rfl, ⟨?_, ?_, ?_⟩, rfl, htable⟩
  · intro q
    dsimp only
    by_cases hq : q = p
    · subst hq
      rw [update_self]
      exact hplaced
    · rw [update_of_ne hq]
      exact h.placed q
  · intro q hq
    dsimp only
    by_cases hqp : q = p
    · subst hqp
      rw [update_self, hsized]
      exact h.sized q hq
    · rw [update_of_ne hqp]
      exact h.sized q hq
  · intro q key v hv
    rw [htable] at hv
    split at hv
    · cases hv
    · exact h.used q key v hv

/-! ### Histories -/

inductive LpmCall (ν : Type*) where
  | insert (addr : Addr) (len preflen : Nat) (val : ν)
  | remove (addr : Addr) (len preflen : Nat)
  | clear

def lpmNext (lpm : Lpm ν) : LpmCall ν → Option (Lpm ν)
  | .insert addr len preflen val => some (lpmInsert lpm addr len preflen val)
  | .remove addr len preflen => (lpmRemove lpm addr len preflen).map Prod.fst
  | .clear => some (lpmClear lpm)

/-- A table after a history, the last call first. -/
def lpmAfter : List (LpmCall ν) → Option (Lpm ν)
  | [] => some .empty
  | c :: before => (lpmAfter before).bind fun lpm => lpmNext lpm c

instance (p : Nat) (a b : Addr) : Decidable (Agree p a b) := inferInstanceAs (Decidable (∀ i < p, addrBit a i = addrBit b i))

/-- The prefix of `preflen` bits of `a` is that of `q` bits of `addr`. Of no bits, there is one for all addresses. -/
def Same (a : Addr) (l preflen : Nat) (addr : Addr) (len q : Nat) : Prop := preflen = q ∧ (q = 0 ∨ l = len ∧ Agree q a addr)

instance (a : Addr) (l p : Nat) (addr : Addr) (len q : Nat) : Decidable (Same a l p addr len q) :=
  inferInstanceAs (Decidable (p = q ∧ (q = 0 ∨ l = len ∧ Agree q a addr)))

/-- What was last inserted for a prefix, unless it was removed since. -/
def latest : List (LpmCall ν) → Addr → Nat → Nat → Option ν
  | [], _, _, _ => none
  | .insert a l p val :: before, addr, len, q => if Same a l p addr len q then some val else latest before addr len q
  | .remove a l p :: before, addr, len, q => if Same a l p addr len q then none else latest before addr len q
  | .clear :: _, _, _, _ => none

/-- Something was inserted for a prefix of the length, and the table was not cleared since. -/
def insertedAt : List (LpmCall ν) → Nat → Bool
  | [], _ => false
  | .insert _ _ p _ :: before, q => p = q || insertedAt before q
  | .remove _ _ _ :: before, q => insertedAt before q
  | .clear :: _, _ => false

/-- An address length and a prefix length. -/
def Cidr (len preflen : Nat) : Prop := (len = 4 ∨ len = 16) ∧ preflen ≤ 8 * len

def LpmCall.Valid (before : List (LpmCall ν)) : LpmCall ν → Prop
  | .insert _ len preflen _ => Cidr len preflen
  | .remove _ len preflen => Cidr len preflen ∧ insertedAt before preflen = true
  | .clear => True

def ValidHistory : List (LpmCall ν) → Prop
  | [] => True
  | c :: before => c.Valid before ∧ ValidHistory before

/-- A call about another prefix than those of the address. -/
def LpmCall.Elsewhere (addr : Addr) (len : Nat) : LpmCall ν → Prop
  | .insert a l p _ => ∀ q, ¬Same a l p addr len q
  | .remove a l p => ∀ q, ¬Same a l p addr len q
  | .clear => False

/-- The answer is of the longest prefix with a value. -/
def Best (calls : List (LpmCall ν)) (addr : Addr) (len : Nat) : Option ν → Prop
  | some val => ∃ q ≤ 8 * len, latest calls addr len q = some val ∧ ∀ r, q < r → r ≤ 8 * len → latest calls addr len r = none
  | none => ∀ q ≤ 8 * len, latest calls addr len q = none

/-- The table has what the history says. -/
structure Follows (lpm : Lpm ν) (calls : List (LpmCall ν)) : Prop where
  wf : lpm.Wf
  defval : ∀ addr len, lpm.defval = latest calls addr len 0
  value : ∀ addr len q, Cidr len q → q ≠ 0 → lpm.at addr len q = latest calls addr len q
  inUse : ∀ q, q ≠ 0 → insertedAt calls q = true → lpm.inUse q = true

theorem Cidr.words {len q : Nat} (h : Cidr len q) : q ≤ 32 * lpmToWords len := by
  obtain ⟨rfl | rfl, hq⟩ := h
  · exact hq
  · exact hq

theorem lpmKey_eq_iff {a addr : Addr} {l len q : Nat} (h : Cidr len q) (hq : q ≠ 0) :
    lpmKey addr len q = lpmKey a l q ↔ Same a l q addr len q := by
  rw [Prod.mk.injEq, Same, and_iff_right rfl, or_iff_right hq]
  constructor
  · rintro ⟨rfl, hwords⟩
    refine ⟨rfl, fun i hi => ?_⟩
    exact ((computePrefix_eq_iff _ _ _ _ h.words).mp hwords i hi).symm
  · rintro ⟨rfl, hagree⟩
    exact ⟨rfl, (computePrefix_eq_iff _ _ _ _ h.words).mpr fun i hi => (hagree i hi).symm⟩

theorem same_zero {a addr : Addr} {l p len : Nat} : Same a l p addr len 0 ↔ p = 0 := ⟨fun h => h.1, fun h => ⟨h, .inl rfl⟩⟩

section
variable {lpm : Lpm ν} {calls : List (LpmCall ν)} {addr a : Addr} {len l p : Nat} {val : ν}

theorem Follows.insert (h : Follows lpm calls) (hp : Cidr l p) : Follows (lpmInsert lpm a l p val) (.insert a l p val :: calls) := by
  by_cases hzero : p = 0
  · subst hzero
    have heq : lpmInsert lpm a l 0 val = {lpm with defval := some val} := if_pos rfl
    rw [heq]
    refine ⟨⟨h.wf.placed, h.wf.sized, h.wf.used⟩, fun addr len => ?_, fun addr len q hq hne => ?_, fun q hne hin => ?_⟩
    · rw [latest, if_pos (same_zero.mpr rfl)]
    · rw [latest, if_neg fun hs => hne hs.1.symm]
      exact h.value addr len q hq hne
    · rw [insertedAt, decide_eq_false (Ne.symm hne)] at hin
      exact h.inUse q hne hin
  obtain ⟨hwf, hdefval, htable⟩ := lpmInsert_spec h.wf a l hzero val
  refine ⟨hwf, fun addr len => ?_, fun addr len q hq hne => ?_, fun q hne hin => ?_⟩
  · rw [latest, if_neg fun hs => hzero (same_zero.mp hs), hdefval]
    exact h.defval addr len
  · rw [Lpm.at, htable, latest]
    by_cases hqp : q = p
    · subst hqp
      simp only [true_and, lpmKey_eq_iff hq hne]
      split
      · rfl
      · exact h.value addr len q hq hne
    · rw [if_neg fun hc => hqp hc.1, if_neg fun hs => hqp hs.1.symm]
      exact h.value addr len q hq hne
  · rw [insertedAt, Bool.or_eq_true, decide_eq_true_eq] at hin
    rw [lpmInsert_inUse lpm a l hzero val q, Bool.or_eq_true, decide_eq_true_eq]
    exact hin.symm.imp (h.inUse q hne) Eq.symm

theorem Follows.remove (h : Follows lpm calls) (hp : Cidr l p) (hin : insertedAt calls p = true) :
    ∃ lpm' found, lpmRemove lpm a l p = some (lpm', found) ∧ Follows lpm' (.remove a l p :: calls) := by
  by_cases hzero : p = 0
  · subst hzero
    refine ⟨{lpm with defval := none}, true, if_pos rfl, ⟨⟨h.wf.placed, h.wf.sized, h.wf.used⟩, fun addr len => ?_, fun addr len q hq hne => ?_, h.inUse⟩⟩
    · rw [latest, if_pos (same_zero.mpr rfl)]
    · rw [latest, if_neg fun hs => hne hs.1.symm]
      exact h.value addr len q hq hne
  cases hval : lpm.at a l p with
  | some val =>
    obtain ⟨lpm', hrun, hwf, hdefval, htable⟩ := lpmRemove_spec h.wf hzero hval
    refine ⟨lpm', true, hrun, ⟨hwf, fun addr len => ?_, fun addr len q hq hne => ?_, fun q hne hq => ?_⟩⟩
    · rw [latest, if_neg fun hs => hzero (same_zero.mp hs), hdefval]
      exact h.defval addr len
    · rw [Lpm.at, htable, latest]
      by_cases hqp : q = p
      · subst hqp
        simp only [true_and, lpmKey_eq_iff hq hne]
        split
        · rfl
        · exact h.value addr len q hq hne
      · rw [if_neg fun hc => hqp hc.1, if_neg fun hs => hqp hs.1.symm]
        exact h.value addr len q hq hne
    · rw [lpmRemove, if_neg hzero] at hrun
      obtain ⟨t, -, ht⟩ := map_eq_some_iff.mp hrun
      obtain ⟨rfl, -⟩ := Prod.mk.inj ht
      exact h.inUse q hne hq
  | none =>
    have hsized := h.wf.sized p (h.inUse p hzero hin)
    refine ⟨lpm, false, ?_, ⟨h.wf, fun addr len => ?_, fun addr len q hq hne => ?_, h.inUse⟩⟩
    · rw [lpmRemove, if_neg hzero, Chained.remove_absent hsized hval, map_some, update_eq_self]
    · rw [latest, if_neg fun hs => hzero (same_zero.mp hs)]
      exact h.defval addr len
    rw [latest]
    split
    · next hs =>
      obtain ⟨rfl, -⟩ := id hs
      rw [Lpm.at, (lpmKey_eq_iff hq hne).mpr hs]
      exact hval
    · exact h.value addr len q hq hne

theorem lpmAfter_follows (hvalid : ValidHistory calls) : ∃ lpm, lpmAfter calls = some lpm ∧ Follows lpm calls := by
  induction calls with
  | nil => exact ⟨.empty, rfl, .empty, fun _ _ => rfl, fun _ _ _ _ _ => rfl, fun _ _ h => by cases h⟩
  | cons c before ih =>
    obtain ⟨hc, hbefore⟩ := hvalid
    obtain ⟨lpm, hrun, hfollows⟩ := ih hbefore
    rw [lpmAfter, hrun, bind_some]
    cases c with
    | insert a l p val => exact ⟨_, rfl, hfollows.insert hc⟩
    | remove a l p =>
      obtain ⟨lpm', found, hremove, hfollows'⟩ := hfollows.remove (a := a) hc.1 hc.2
      exact ⟨lpm', by rw [lpmNext, hremove]; rfl, hfollows'⟩
    | clear => exact ⟨.empty, rfl, .empty, fun _ _ => rfl, fun _ _ _ _ _ => rfl, fun _ _ h => by cases h⟩

theorem Follows.lookup (h : Follows lpm calls) (addr : Addr) (hlen : len = 4 ∨ len = 16) : ∃ r, lpmLookup lpm addr len = some r ∧ Best calls addr len r := by
  obtain ⟨r, hrun, hlongest⟩ := lpmLookup_spec h.wf addr len
  have hwords : 32 * lpmToWords len = 8 * len := by obtain rfl | rfl := hlen <;> rfl
  rw [hwords] at hlongest
  refine ⟨_, hrun, ?_⟩
  cases r with
  | some val =>
    obtain ⟨p, hpos, hle, hval, hlonger⟩ := hlongest
    refine ⟨p, hle, ?_, fun q hlt hq => ?_⟩
    · rw [← h.value addr len p ⟨hlen, hle⟩ (ne_of_gt hpos)]
      exact hval
    · rw [← h.value addr len q ⟨hlen, hq⟩ (by omega)]
      exact hlonger q hlt hq
  | none =>
    have hnone : ∀ q, 0 < q → q ≤ 8 * len → latest calls addr len q = none := by
      intro q hpos hq
      rw [← h.value addr len q ⟨hlen, hq⟩ (ne_of_gt hpos)]
      exact hlongest q hpos hq
    cases hdefval : lpm.defval with
    | some val => exact ⟨0, zero_le _, (h.defval addr len).symm.trans hdefval, hnone⟩
    | none =>
      intro q hq
      by_cases hzero : q = 0
      · rw [hzero, ← h.defval addr len, hdefval]
      · exact hnone q (Nat.pos_of_ne_zero hzero) hq

theorem Best.unique {r r' : Option ν} (h : Best calls addr len r) (h' : Best calls addr len r') : r = r' := by
  cases r with
  | none =>
    cases r' with
    | none => rfl
    | some val =>
      obtain ⟨q, hq, hval, -⟩ := h'
      rw [h q hq] at hval
      cases hval
  | some val =>
    obtain ⟨q, hq, hval, hlonger⟩ := h
    cases r' with
    | none =>
      rw [h' q hq] at hval
      cases hval
    | some val' =>
      obtain ⟨q', hq', hval', hlonger'⟩ := h'
      obtain hlt | rfl | hlt := lt_trichotomy q q'
      · rw [hlonger q' hlt hq'] at hval'
        cases hval'
      · exact hval.symm.trans hval'
      · rw [hlonger' q hlt hq] at hval
        cases hval

theorem Best.skip {c : LpmCall ν} {r : Option ν} (hc : c.Elsewhere addr len) (h : Best calls addr len r) : Best (c :: calls) addr len r := by
  have hsame : ∀ q, latest (c :: calls) addr len q = latest calls addr len q := by
    intro q
    cases c with
    | insert a l p val => exact if_neg (hc q)
    | remove a l p => exact if_neg (hc q)
    | clear => exact hc.elim
  cases r with
  | none => exact fun q hq => (hsame q).trans (h q hq)
  | some val =>
    obtain ⟨q, hq, hval, hlonger⟩ := h
    exact ⟨q, hq, (hsame q).trans hval, fun r hlt hr => (hsame r).trans (hlonger r hlt hr)⟩

/-- **Longest prefix match.** After any history whose removals are of lengths at which something was inserted since the table was
cleared, a lookup gives what was last inserted for the longest prefix that covers the address; and a call about prefixes that do not
cover it, whatever it moves, does not change that. -/
theorem lookup_longest_match (calls : List (LpmCall ν)) (hvalid : ValidHistory calls) : ∃ lpm, lpmAfter calls = some lpm ∧
    ∀ addr len, len = 4 ∨ len = 16 → ∃ r, lpmLookup lpm addr len = some r ∧ Best calls addr len r ∧
      ∀ c : LpmCall ν, c.Valid calls → c.Elsewhere addr len → ∃ lpm', lpmAfter (c :: calls) = some lpm' ∧ lpmLookup lpm' addr len = some r := by
  obtain ⟨lpm, hrun, hfollows⟩ := lpmAfter_follows hvalid
  refine ⟨lpm, hrun, fun addr len hlen => ?_⟩
  obtain ⟨r, hlookup, hbest⟩ := hfollows.lookup addr hlen
  refine ⟨r, hlookup, hbest, fun c hc hother => ?_⟩
  have hvalid' : ValidHistory (c :: calls) := ⟨hc, hvalid⟩
  obtain ⟨lpm', hrun', hfollows'⟩ := lpmAfter_follows hvalid'
  obtain ⟨r', hlookup', hbest'⟩ := hfollows'.lookup addr hlen
  rw [(hbest.skip hother).unique hbest']
  exact ⟨lpm', hrun', hlookup'⟩

end

/-- 10.0.0.0/8, 10.1.0.0/16, the first again with another value, and one that is removed. -/
def fourCalls : List (LpmCall Nat) :=
  [.remove [0x0a010200] 4 24, .insert [0x0a010200] 4 24 4, .insert [0x0a000000] 4 8 3, .insert [0x0a010000] 4 16 2, .insert [0x0a000000] 4 8 1]

/-- 10.2.3.4 has the newer value of the first. -/
theorem lookup_longest_match_four : ∃ lpm, lpmAfter fourCalls = some lpm ∧ lpmLookup lpm [0x0a020304] 4 = some (some 3) := by
  have hvalid : ValidHistory fourCalls :=
    ⟨⟨⟨.inl rfl, by decide⟩, rfl⟩, ⟨.inl rfl, by decide⟩, ⟨.inl rfl, by decide⟩, ⟨.inl rfl, by decide⟩, ⟨.inl rfl, by decide⟩, trivial⟩
  obtain ⟨lpm, hrun, hlookups⟩ := lookup_longest_match fourCalls hvalid
  obtain ⟨r, hlookup, hbest, -⟩ := hlookups [0x0a020304] 4 (.inl rfl)
  have hlonger : ∀ q < 33, 8 < q → latest fourCalls [0x0a020304] 4 q = none := by decide
  have hthree : Best fourCalls [0x0a020304] 4 (some 3) := ⟨8, by decide, by decide, fun q hlt hq => hlonger q (lt_succ_of_le hq) hlt⟩
  exact ⟨lpm, hrun, by rw [hlookup, hbest.unique hthree]⟩

/-- A prefix length at which something was inserted has no hash table any more when the table was cleared: a removal reads from
none. -/
theorem lookup_longest_match_cleared : lpmAfter [.remove [0x0a000000] 4 8, .clear, .insert [0x0a000000] 4 8 1] = (none : Option (Lpm Nat)) ∧
    Cidr 4 8 := ⟨rfl, .inl rfl, by decide⟩

end NetBSD.Net.Npf
