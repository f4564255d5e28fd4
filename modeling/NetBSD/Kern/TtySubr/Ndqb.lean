import NetBSD.Kern.TtySubr.Deque

/-! `ndqb`: how many characters can be taken in one piece.

The condition of the loop reads the byte at `i++` and then the bit at `i`, which is that of the next character. What is counted with
`TTY_QUOTE` is right only if that makes no difference (`Counted`). -/
namespace NetBSD.Kern.TtySubr
open List Option
open Lib RingBuffer

def Clist.byte (clp : Clist) (i : Nat) : Option (BitVec 8) := if i < clp.cCn then some (clp.cCs i) else none

def Clist.quote (clp : Clist) (i : Nat) : Option Bool :=
  if i < clp.cCn ∧ i / 8 < QMEM clp.cCn then some (isset clp.cCq i) else none

/-- The condition that ends the loops; `quote` is for the first. -/
def Clist.stop (clp : Clist) (quote : Bool) (mask : BitVec 32) (i : Nat) : Option Bool := do
  let c ← clp.byte i
  if c.setWidth 32 &&& mask ≠ 0 then some true else if quote then clp.quote (i + 1) else some false

/-- The two loops, with `cc` characters left. -/
def ndqbLoop (clp : Clist) (quote : Bool) (mask : BitVec 32) : Nat → Nat → Option Nat
  | 0, _ => some 0
  | cc + 1, i => do
    let stop ← clp.stop quote mask i
    if stop then some 0 else if i + 1 = clp.cCn then some 1 else (ndqbLoop clp quote mask cc (i + 1)).map (· + 1)

/-- The number of characters; `none` when a byte or a bit outside the ring is read. -/
def ndqb (clp : Clist) (flag : BitVec 32) : Option Nat :=
  if clp.cCc = 0 then some 0
  else if flag = 0 then clp.piece.map Prod.snd
  else do
    let cf ← clp.cCf
    if flag &&& TTY_QUOTE ≠ 0 then ndqbLoop clp true (flag &&& ~~~TTY_QUOTE) clp.cCc cf else ndqbLoop clp false flag clp.cCc cf

/-- The characters from the front to the end of the queue or of the ring. -/
def Clist.stretch (clp : Clist) : List Chr :=
  match clp.cCf with
  | none => []
  | some cf => (List.range (min clp.cCc (clp.cCn - cf))).map fun j => clp.cell (cf + j)

/-- Those before the first that has a bit of the flag. -/
def Clist.contiguous (clp : Clist) (flag : BitVec 32) : Nat := (clp.stretch.takeWhile fun x => code x &&& flag = 0).length

/-- The front is followed by a quoted character, if it is the quote that it is stopped for; what is counted is followed by a character of
the ring, and one that is not quoted. -/
def Counted (clp : Clist) (flag : BitVec 32) : Prop :=
  flag &&& TTY_QUOTE ≠ 0 → ∀ cf ∈ clp.cCf,
    if clp.contiguous flag = 0 then
      (clp.cCs cf).setWidth 32 &&& flag ≠ 0 ∨ (cf + 1 < clp.cCn ∧ isset clp.cCq (cf + 1) = true)
    else cf + clp.contiguous flag < clp.cCn ∧ isset clp.cCq (cf + clp.contiguous flag) = false

variable {n f k i cc : Nat} {clp : Clist} {l : List Chr} {flag mask : BitVec 32} {quote : Bool}

theorem code_and_eq_zero (x : Chr) : code x &&& flag = 0 ↔ x.1.setWidth 32 &&& flag = 0 ∧ (x.2 = true → flag &&& TTY_QUOTE = 0) := by
  rw [code, BitVec.and_comm, BitVec.and_or_distrib_left, BitVec.and_comm flag]
  cases x.2 with
  | false => simp
  | true => simp

theorem contiguous_spec (flag : BitVec 32) (hcf : clp.cCf = some f) : (∀ j < clp.contiguous flag, code (clp.cell (f + j)) &&& flag = 0) ∧
      (clp.contiguous flag = min clp.cCc (clp.cCn - f) ∨
        clp.contiguous flag < min clp.cCc (clp.cCn - f) ∧ code (clp.cell (f + clp.contiguous flag)) &&& flag ≠ 0) := by
  have hstretch : clp.stretch = (List.range (min clp.cCc (clp.cCn - f))).map fun j => clp.cell (f + j) := by
    rw [Clist.stretch, hcf]
  have hlen : clp.stretch.length = min clp.cCc (clp.cCn - f) := by rw [hstretch, length_map, length_range]
  have hget : ∀ j (hj : j < clp.stretch.length), clp.stretch[j] = clp.cell (f + j) := by
    simp [hstretch, getElem_map, getElem_range]
  have hindex : clp.contiguous flag = clp.stretch.findIdx fun x => !decide (code x &&& flag = 0) := by
    rw [Clist.contiguous, takeWhile_eq_take_findIdx_not, length_take, min_eq_left findIdx_le_length]
  rw [hindex, ← hlen]
  refine ⟨fun j hj => ?_, ?_⟩
  · have hpass := not_of_lt_findIdx hj
    rw [hget j (lt_of_lt_of_le hj findIdx_le_length)] at hpass
    simpa using hpass
  have hle : (clp.stretch.findIdx fun x => !decide (code x &&& flag = 0)) ≤ clp.stretch.length := findIdx_le_length
  obtain hlt | heq := lt_or_eq_of_le hle
  · have hstop := findIdx_getElem (w := hlt)
    rw [hget _ hlt] at hstop
    exact .inr ⟨hlt, by simpa using hstop⟩
  · exact .inl heq

theorem stop_eq (hi : i < clp.cCn) : clp.stop quote mask i =
    if (clp.cCs i).setWidth 32 &&& mask ≠ 0 then some true else if quote then clp.quote (i + 1) else some false := by
  rw [Clist.stop, Clist.byte, if_pos hi]
  rfl

theorem quote_eq_some {b : Bool} : clp.quote i = some b ↔ i < clp.cCn ∧ isset clp.cCq i = b := by
  rw [Clist.quote]
  split
  · next h => rw [Option.some.injEq, and_iff_right h.1]
  · next h => exact iff_of_false (some_ne_none b).symm fun hin => h ⟨hin.1, qmem_lt hin.1⟩

theorem forall_lt_succ_iff {P : Nat → Prop} : (∀ j < k + 1, P (i + j)) ↔ P i ∧ ∀ j < k, P (i + 1 + j) := by
  constructor
  · refine fun h => ⟨h 0 (Nat.succ_pos k), fun j hj => ?_⟩
    rw [add_right_comm]
    exact h (j + 1) (Nat.succ_lt_succ hj)
  rintro ⟨h0, h⟩ (_ | j) hj
  · exact h0
  · rw [← add_assoc, add_right_comm]
    exact h j (Nat.lt_of_succ_lt_succ hj)

/-- The loop passes the characters it counts, and ends with the queue or the ring, or is stopped. -/
theorem ndqbLoop_eq_some (hi : i < clp.cCn) : ndqbLoop clp quote mask cc i = some k ↔ (∀ j < k, clp.stop quote mask (i + j) = some false) ∧
      (k = min cc (clp.cCn - i) ∨ k < min cc (clp.cCn - i) ∧ clp.stop quote mask (i + k) = some true) := by
  induction cc generalizing i k with
  | zero =>
    rw [ndqbLoop, Option.some.injEq, Nat.zero_min]
    constructor
    · rintro rfl
      exact ⟨fun j hj => absurd hj (Nat.not_lt_zero j), .inl rfl⟩
    rintro ⟨-, rfl | ⟨hlt, -⟩⟩
    · rfl
    · exact absurd hlt (Nat.not_lt_zero k)
  | succ cc ih =>
    have hmin : 0 < min (cc + 1) (clp.cCn - i) := by omega
    rw [ndqbLoop]
    cases k with
    | zero =>
      have hnone : ∀ j < 0, clp.stop quote mask (i + j) = some false := fun j hj => absurd hj (Nat.not_lt_zero j)
      rw [and_iff_right hnone, or_iff_right (ne_of_lt hmin), and_iff_right hmin, add_zero]
      cases clp.stop quote mask i with
      | none => simp
      | some stop =>
        cases stop with
        | true => simp
        | false =>
          split
          · simp
          · simp
    | succ k =>
      rw [forall_lt_succ_iff (P := fun j => clp.stop quote mask j = some false)]
      cases clp.stop quote mask i with
      | none => simp
      | some stop =>
        cases stop with
        | true => simp
        | false =>
          simp only [bind_eq_bind, bind_some, Bool.false_eq_true, if_false, true_and]
          split
          · next hlast =>
            have hone : min (cc + 1) (clp.cCn - i) = 1 := by omega
            rw [hone, Option.some.injEq]
            constructor
            · intro hk
              exact ⟨fun j hj => by omega, .inl hk.symm⟩
            rintro ⟨-, hk | ⟨hk, -⟩⟩
            · exact hk.symm
            · omega
          · next hmore =>
            have hless : min (cc + 1) (clp.cCn - i) = min cc (clp.cCn - (i + 1)) + 1 := by omega
            rw [hless, Nat.add_right_cancel_iff, Nat.add_lt_add_iff_right,
              show i + (k + 1) = i + 1 + k by omega, ← ih (by omega)]
            simp

theorem ndqbLoop_plain (hf : f < clp.cCn) (hcf : clp.cCf = some f) (hflag : flag &&& TTY_QUOTE = 0) :
    ndqbLoop clp false flag clp.cCc f = some (clp.contiguous flag) := by
  have hcode : ∀ i, code (clp.cell i) &&& flag = 0 ↔ (clp.cCs i).setWidth 32 &&& flag = 0 := fun i =>
    (code_and_eq_zero _).trans (and_iff_left fun _ => hflag)
  obtain ⟨hpass, hend⟩ := contiguous_spec flag hcf
  rw [ndqbLoop_eq_some hf]
  refine ⟨fun j hj => ?_, hend.imp_right fun ⟨hlt, hstop⟩ => ⟨hlt, ?_⟩⟩
  · rw [stop_eq (by omega), if_neg (not_not.mpr ((hcode _).mp (hpass j hj))), if_neg Bool.false_ne_true]
  · rw [stop_eq (by omega), if_pos (mt (hcode _).mpr hstop)]

/-- With the quote it is right under the condition. -/
theorem ndqbLoop_quote (hf : f < clp.cCn) (hcf : clp.cCf = some f) (hcc : 0 < clp.cCc) (hflag : flag &&& TTY_QUOTE ≠ 0) :
    ndqbLoop clp true (flag &&& ~~~TTY_QUOTE) clp.cCc f = some (clp.contiguous flag) ↔ Counted clp flag := by
  have hmask : ∀ b : BitVec 8, b.setWidth 32 &&& (flag &&& ~~~TTY_QUOTE) = b.setWidth 32 &&& flag := by
    intro b
    apply BitVec.eq_of_getLsbD_eq
    intro j hj
    have hq : (b.setWidth 32).getLsbD j = true → TTY_QUOTE.getLsbD j = false := by
      intro hset
      have hzero := congrArg (fun c => c.getLsbD j) (setWidth_and_quote b)
      simp only [BitVec.getLsbD_and, hset, Bool.true_and] at hzero
      exact hzero.trans BitVec.getLsbD_zero
    rw [BitVec.getLsbD_and, BitVec.getLsbD_and, BitVec.getLsbD_and, BitVec.getLsbD_not, decide_eq_true hj, Bool.true_and]
    cases hset : (b.setWidth 32).getLsbD j with
    | false => rfl
    | true => rw [hq hset, Bool.not_false, Bool.and_true]
  have hcode : ∀ i, code (clp.cell i) &&& flag = 0 ↔ (clp.cCs i).setWidth 32 &&& flag = 0 ∧ isset clp.cCq i = false := by
    intro i
    refine (code_and_eq_zero _).trans (and_congr Iff.rfl ?_)
    rw [← Bool.not_eq_true]
    exact ⟨fun h hset => hflag (h hset), fun h hset => absurd hset h⟩
  obtain ⟨hpass, hend⟩ := contiguous_spec flag hcf
  rw [ndqbLoop_eq_some hf, Counted]
  simp only [hcf, mem_some_iff, forall_eq', hflag, ne_eq, not_false_eq_true, true_imp_iff]
  generalize clp.contiguous flag = k at *
  have hstop : ∀ i < clp.cCn, ∀ b, clp.stop true (flag &&& ~~~TTY_QUOTE) i = some b ↔
      if (clp.cCs i).setWidth 32 &&& flag ≠ 0 then b = true else i + 1 < clp.cCn ∧ isset clp.cCq (i + 1) = b := by
    intro i hi b
    rw [stop_eq hi, hmask]
    split
    · rw [Option.some.injEq, eq_comm]
    · rw [if_pos rfl, quote_eq_some]
  split
  · next hzero =>
    subst hzero
    have hnone : ∀ j < 0, clp.stop true (flag &&& ~~~TTY_QUOTE) (f + j) = some false := fun j hj => absurd hj (Nat.not_lt_zero j)
    have hmin : 0 < min clp.cCc (clp.cCn - f) := by omega
    rw [and_iff_right hnone, or_iff_right (ne_of_lt hmin), and_iff_right hmin, add_zero, hstop f hf]
    split
    · next hbyte => exact iff_of_true rfl (.inl hbyte)
    · next hbyte => exact (or_iff_right hbyte).symm
  · next hpos =>
    constructor
    · rintro ⟨hall, -⟩
      have hlast := hall (k - 1) (by omega)
      rw [hstop _ (by omega), if_neg (not_not.mpr ((hcode _).mp (hpass _ (by omega))).1)] at hlast
      rwa [show f + (k - 1) + 1 = f + k by omega] at hlast
    rintro ⟨hin, hset⟩
    refine ⟨fun j hj => ?_, hend.imp_right fun ⟨hlt, hbad⟩ => ⟨hlt, ?_⟩⟩
    · rw [hstop _ (by omega), if_neg (not_not.mpr ((hcode _).mp (hpass j hj)).1)]
      refine ⟨by omega, ?_⟩
      by_cases hjk : j + 1 = k
      · rwa [add_assoc, hjk]
      · exact ((hcode _).mp (hpass (j + 1) (by omega))).2
    · rw [hstop _ hin, if_pos fun hzero => hbad ((hcode _).mpr ⟨hzero, hset⟩)]

theorem Rep.stretch_begins (h : Rep n clp l) : clp.stretch <+: l := by
  obtain ⟨rfl, ⟨rfl, -, hcf, -⟩ | ⟨hne, f, hring⟩⟩ := h
  · rw [Clist.stretch, hcf]
  have hstretch : clp.stretch = l.take (min clp.cCc (clp.cCn - f)) := by
    rw [Clist.stretch, hring.cf]
    apply ext_getElem
    · rw [length_map, length_range, length_take, hring.cc]
      omega
    intro j hj hj'
    rw [length_map, length_range, hring.cc] at hj
    rw [getElem_map, getElem_range, getElem_take, ← hring.get (by omega), Nat.mod_eq_of_lt (by omega)]
  rw [hstretch]
  exact take_prefix _ l

theorem Rep.ndqb (h : Rep n clp l) (flag : BitVec 32) :
    ndqb clp flag = some (if flag = 0 then clp.stretch.length else clp.contiguous flag) ↔ Counted clp flag := by
  obtain ⟨rfl, ⟨rfl, hcc, hcf, -⟩ | ⟨hne, f, hring⟩⟩ := h
  · have hstretch : clp.stretch = [] := by rw [Clist.stretch, hcf]
    rw [TtySubr.ndqb, if_pos hcc, Clist.contiguous, hstretch, Counted, hcf]
    refine iff_of_true ?_ fun _ cf hmem => absurd hmem (not_mem_none cf)
    split <;> rfl
  have hpos : 0 < clp.cCc := hring.cc ▸ length_pos_of_ne_nil hne
  rw [TtySubr.ndqb, if_neg (ne_of_gt hpos)]
  by_cases hzero : flag = 0
  · subst hzero
    rw [hring.piece hne, Clist.stretch, hring.cf]
    refine iff_of_true ?_ fun hquote => absurd rfl hquote
    rw [length_map, length_range, hring.cc]
    rfl
  rw [if_neg hzero, if_neg hzero, hring.cf]
  simp only [bind_eq_bind, bind_some]
  by_cases hquote : flag &&& TTY_QUOTE = 0
  · rw [if_neg (not_not.mpr hquote), ndqbLoop_plain hring.lt hring.cf hquote]
    exact iff_of_true rfl fun hne => absurd hquote hne
  · rw [if_pos hquote, ndqbLoop_quote hring.lt hring.cf hpos hquote]

/-- Over any calls, the stretch is what the queue begins with, and `ndqb` counts what is to be counted, and reads nothing outside the ring,
exactly under the condition. -/
theorem ndqb_counts {size : Nat → Nat} {calls : List Call} {w : Nat → Clist} {rs : List Answer} (hsize : ∀ q, 0 < size q)
    (hruns : runs (fun q => clalloc (size q)) calls = some (w, rs)) (q : Nat) (flag : BitVec 32) :
    (w q).stretch <+: (doesAll size (fun _ => []) calls).1 q ∧
    (ndqb (w q) flag = some (if flag = 0 then (w q).stretch.length else (w q).contiguous flag) ↔ Counted (w q) flag) := by
  obtain ⟨w', hruns', hrep⟩ := runs_does hsize calls fun q => rep_clalloc (size q)
  obtain ⟨rfl, -⟩ := Prod.mk.inj (some.inj (hruns.symm.trans hruns'))
  exact ⟨(hrep q).stretch_begins, (hrep q).ndqb flag⟩

/-- Two characters in a ring of four. -/
theorem ndqb_counts_two : ∃ w rs, runs (fun _ => clalloc 4) [.putc 0 97, .putc 0 98] = some (w, rs) ∧
    ndqb (w 0) TTY_QUOTE = some 2 ∧ Counted (w 0) TTY_QUOTE := by
  refine ⟨_, _, rfl, by decide, ?_⟩
  exact (@ndqb_counts (fun _ => 4) [.putc 0 97, .putc 0 98] _ _ (fun _ => by decide) rfl 0 TTY_QUOTE).2.mp (by decide)

/-- The second of three characters is not counted, as the third is quoted; and the bit behind a full ring is read. -/
theorem ndqb_miscounts : (∃ w rs, runs (fun _ => clalloc 4) [.putc 0 97, .putc 0 98, .putc 0 0x163] = some (w, rs) ∧
      ndqb (w 0) TTY_QUOTE = some 1 ∧ (w 0).contiguous TTY_QUOTE = 2) ∧
    ∃ w rs, runs (fun _ => clalloc 2) [.putc 0 97, .putc 0 98] = some (w, rs) ∧ ndqb (w 0) TTY_QUOTE = none :=
  ⟨⟨_, _, rfl, by decide, by decide⟩, _, _, rfl, by decide⟩

end NetBSD.Kern.TtySubr
