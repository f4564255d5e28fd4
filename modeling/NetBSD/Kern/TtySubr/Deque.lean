import NetBSD.Kern.TtySubr.Clist

/-! The clist as a queue of characters.

What a clist is for is a list of at most `n` characters, each a byte and whether it is quoted. `Ring` says that the ring
holds such a list from a place on, and `Rep` that the pointers are null for the empty one; every operation does on the
list what its name says, and follows no null pointer and leaves neither array. -/
namespace NetBSD.Kern.TtySubr
open List Function Option
open Lib RingBuffer

/-- A byte, and whether it is quoted. -/
abbrev Chr := BitVec 8 × Bool

def code (x : Chr) : BitVec 32 := x.1.setWidth 32 ||| if x.2 then TTY_QUOTE else 0

/-- The character of an `int`; its other bits are lost. -/
def decode (c : BitVec 32) : Chr := (c.setWidth 8, c &&& TTY_QUOTE ≠ 0)

def Clist.cell (clp : Clist) (i : Nat) : Chr := (clp.cCs i, isset clp.cCq i)

/-- The ring holds the list from `f` on. -/
structure Ring (clp : Clist) (f : Nat) (l : List Chr) : Prop where
  lt : f < clp.cCn
  cf : clp.cCf = some f
  cl : clp.cCl = some ((f + l.length) % clp.cCn)
  cc : clp.cCc = l.length
  le : l.length ≤ clp.cCn
  cells : contents clp.cCn clp.cell f l.length = l

def Rep (n : Nat) (clp : Clist) (l : List Chr) : Prop :=
  clp.cCn = n ∧ (l = [] ∧ clp.cCc = 0 ∧ clp.cCf = none ∧ clp.cCl = none ∨ l ≠ [] ∧ ∃ f, Ring clp f l)

variable {n f k : Nat} {clp clp' : Clist} {l : List Chr}

theorem rep_clalloc (n : Nat) : Rep n (clalloc n) [] := ⟨rfl, .inl ⟨rfl, rfl, rfl, rfl⟩⟩

theorem Rep.cc (h : Rep n clp l) : clp.cCc = l.length := by
  obtain ⟨-, ⟨rfl, hcc, -⟩ | ⟨-, f, hring⟩⟩ := h
  · exact hcc
  · exact hring.cc

theorem Rep.le (h : Rep n clp l) : l.length ≤ n := by
  obtain ⟨rfl, ⟨rfl, -⟩ | ⟨-, f, hring⟩⟩ := h
  · exact Nat.zero_le _
  · exact hring.le

theorem Rep.ring (h : Rep n clp l) (hne : l ≠ []) : ∃ f, Ring clp f l := by
  obtain ⟨-, ⟨hnil, -⟩ | ⟨-, hring⟩⟩ := h
  · exact absurd hnil hne
  · exact hring

theorem Ring.settle (h : Ring clp f l) : Rep clp.cCn clp.settle l := by
  rw [Clist.settle]
  split
  · next hcc =>
    refine ⟨rfl, .inl ⟨eq_nil_of_length_eq_zero (h.cc.symm.trans hcc), hcc, rfl, rfl⟩⟩
  · next hcc =>
    refine ⟨rfl, .inr ⟨?_, f, h⟩⟩
    rintro rfl
    exact hcc h.cc

theorem Rep.start (h : Rep n clp l) (hn : 0 < n) : ∃ f, Ring clp.start f l ∧ clp.start.cCn = n := by
  obtain ⟨rfl, ⟨rfl, hcc, -⟩ | ⟨hne, f, hring⟩⟩ := h
  · refine ⟨0, ?_, ?_⟩
    · rw [Clist.start, if_pos hcc]
      exact ⟨hn, rfl, congrArg some (Nat.zero_mod _).symm, hcc, Nat.zero_le _, rfl⟩
    · rw [Clist.start, if_pos hcc]
  have hcc : clp.cCc ≠ 0 := by
    rw [hring.cc]
    exact fun h0 => hne (eq_nil_of_length_eq_zero h0)
  refine ⟨f, ?_, ?_⟩
  · rw [Clist.start, if_neg hcc]
    exact hring
  · rw [Clist.start, if_neg hcc]

theorem qmem_lt {i n : Nat} (h : i < n) : i / 8 < QMEM n := by
  rw [QMEM]
  omega

theorem chr_eq (h : k < clp.cCn) : clp.chr k = some (code (clp.cell k)) := if_pos ⟨h, qmem_lt h⟩

section
variable (h : Ring clp f l)
include h

theorem Ring.get {i : Nat} (hi : i < l.length) : clp.cell ((f + i) % clp.cCn) = l[i] := by
  have hcell := getElem_of_eq h.cells (i := i) (by rw [length_contents]; exact hi)
  rw [← hcell]
  simp [contents, getElem_map, getElem_range]

theorem Ring.chr {i : Nat} (hi : i < l.length) : clp.chr ((f + i) % clp.cCn) = some (code l[i]) := by
  rw [chr_eq (Nat.mod_lt _ (Nat.zero_lt_of_lt h.lt)), h.get hi]

theorem Ring.piece (hne : l ≠ []) : clp.piece = some (f, min l.length (clp.cCn - f)) := by
  rw [Clist.piece, h.cf, h.cl]
  simp only [bind_eq_bind, bind_some]
  rw [piece_full h.lt (length_pos_of_ne_nil hne) h.le]
  rfl

theorem Ring.drop (hk : k ≤ l.length) (hpiece : k ≤ clp.cCn - f) (cs : Nat → BitVec 8)
    (hcs : contents clp.cCn ({ clp with cCs := cs }).cell ((f + k) % clp.cCn) (l.length - k) =
      contents clp.cCn clp.cell ((f + k) % clp.cCn) (l.length - k)) :
    Ring { clp with cCs := cs, cCc := clp.cCc - k, cCf := some (clp.wrap (f + k)) } ((f + k) % clp.cCn) (l.drop k) := by
  have hlen := length_drop (i := k) (l := l)
  refine ⟨Nat.mod_lt _ (Nat.zero_lt_of_lt h.lt), ?_, ?_, ?_, ?_, ?_⟩
  · exact congrArg some (wrap_eq h.lt hpiece)
  · rw [h.cl, Nat.mod_add_mod]
    congr 2
    omega
  · rw [h.cc, hlen]
  · show _ ≤ clp.cCn
    have hle := h.le
    omega
  · rw [hlen]
    exact hcs.trans ((drop_contents hk).symm.trans (congrArg (List.drop k) h.cells))

theorem Ring.append {p : List Chr} (hroom : l.length + p.length ≤ clp.cCn)
    (hpiece : (f + l.length) % clp.cCn + p.length ≤ clp.cCn) (hcn : clp'.cCn = clp.cCn) (hcf : clp'.cCf = clp.cCf)
    (hcl : clp'.cCl = some (clp.wrap ((f + l.length) % clp.cCn + p.length))) (hcc : clp'.cCc = clp.cCc + p.length)
    (hcell : clp'.cell = store clp.cell ((f + l.length) % clp.cCn) p) : Ring clp' f (l ++ p) := by
  have hpos : (f + l.length) % clp.cCn < clp.cCn := Nat.mod_lt _ (Nat.zero_lt_of_lt h.lt)
  refine ⟨hcn ▸ h.lt, hcf.trans h.cf, ?_, ?_, ?_, ?_⟩
  · rw [hcl, hcn, Clist.wrap, wrap_eq hpos (by omega), Nat.mod_add_mod, length_append, add_assoc]
  · rw [hcc, h.cc, length_append]
  · rw [hcn, length_append]
    exact hroom
  · rw [hcn, hcell, length_append, contents_store h.lt hroom hpiece, h.cells]

end

theorem Ring.dropLast {x : Chr} (h : Ring clp f (l ++ [x])) : Ring { clp with cCl := some ((f + l.length) % clp.cCn), cCc := clp.cCc - 1 } f l := by
  have hlen : (l ++ [x]).length = l.length + 1 := length_append
  have hle := h.le
  refine ⟨h.lt, h.cf, rfl, ?_, ?_, ?_⟩
  · rw [h.cc, hlen, Nat.add_sub_cancel]
  · show _ ≤ clp.cCn
    omega
  have htake := congrArg (List.take l.length) h.cells
  rw [take_contents (by omega), take_left] at htake
  exact htake

theorem Rep.getc_nil (h : Rep n clp []) : getc clp = some (clp, -1) := if_pos h.cc

theorem Rep.getc_cons {x : Chr} (h : Rep n clp (x :: l)) : ∃ clp', getc clp = some (clp', code x) ∧ Rep n clp' l := by
  obtain rfl := h.1
  obtain ⟨f, hring⟩ := h.ring (cons_ne_nil x l)
  have hchr := hring.chr (i := 0) (Nat.succ_pos _)
  rw [add_zero, Nat.mod_eq_of_lt hring.lt] at hchr
  have hle := hring.le
  have hcc : clp.cCc ≠ 0 := by
    rw [hring.cc]
    exact Nat.succ_ne_zero _
  have hf := hring.lt
  -- The byte that is wiped is not in the rest.
  have hdrop := hring.drop (k := 1) (Nat.succ_pos _) (by omega) (update clp.cCs f 0) ?_
  · refine ⟨_, ?_, hdrop.settle⟩
    rw [getc, if_neg hcc, hring.cf]
    simp only [bind_eq_bind, bind_some, hchr]
    rfl
  apply contents_congr
  intro i hi
  have hplace := place_cases hf (show 1 + i ≤ clp.cCn by omega)
  rw [Nat.mod_add_mod, add_assoc, Clist.cell, Clist.cell]
  dsimp only
  rw [update_of_ne (by omega)]

theorem store_singleton (mem : Nat → Chr) (a : Nat) (x : Chr) : store mem a [x] = update mem a x := by
  funext j
  by_cases hj : j = a
  · subst hj
    rw [update_self, store, if_pos (Nat.le_refl j), Nat.sub_self]
    rfl
  · rw [update_of_ne hj]
    exact store_outside (by rw [length_singleton]; omega)

theorem Rep.putc_full (h : Rep n clp l) (hfull : l.length = n) (c : BitVec 32) : putc c clp = some (clp, -1) :=
  if_pos (h.cc.trans (hfull.trans h.1.symm))

theorem Rep.putc_room (h : Rep n clp l) (hn : 0 < n) (hroom : l.length ≠ n) (c : BitVec 32) :
    ∃ clp', putc c clp = some (clp', 0) ∧ Rep n clp' (l ++ [decode c]) := by
  have hcc : clp.cCc ≠ clp.cCn := by
    rw [h.cc, h.1]
    exact hroom
  obtain ⟨f, hring, hcn⟩ := h.start hn
  have hle := h.le
  have hpos : (f + l.length) % clp.start.cCn < clp.start.cCn := Nat.mod_lt _ (hcn ▸ hn)
  have hput : Ring (clp.start.put ((f + l.length) % clp.start.cCn) c) f (l ++ [decode c]) :=
    hring.append (p := [decode c]) ?_ hpos rfl rfl rfl rfl ?_
  refine ⟨clp.start.put ((f + l.length) % clp.start.cCn) c, ?_, hcn, .inr ⟨by simp, f, hput⟩⟩
  · rw [putc, if_neg hcc]
    dsimp only
    rw [hring.cl]
    simp only [bind_eq_bind, bind_some]
    rw [if_pos ⟨hpos, qmem_lt hpos⟩]
    rfl
  · rw [length_singleton]
    omega
  rw [store_singleton]
  funext j
  rw [Clist.cell, Clist.put]
  dsimp only
  by_cases hj : j = (f + l.length) % clp.start.cCn
  · subst hj
    rw [update_self, update_self, decode]
    by_cases hq : c &&& TTY_QUOTE ≠ 0
    · rw [if_pos hq, isset_setbit, if_pos rfl, decide_eq_true hq]
    · rw [if_neg hq, isset_clrbit, if_pos rfl, decide_eq_false hq]
  · rw [update_of_ne hj, update_of_ne hj]
    split
    · rw [isset_setbit, if_neg hj, Clist.cell]
    · rw [isset_clrbit, if_neg hj, Clist.cell]

theorem Rep.unputc_nil (h : Rep n clp []) : unputc clp = some (clp, -1) := if_pos h.cc

theorem Rep.unputc_append {x : Chr} (h : Rep n clp (l ++ [x])) : ∃ clp', unputc clp = some (clp', code x) ∧ Rep n clp' l := by
  obtain rfl := h.1
  obtain ⟨f, hring⟩ := h.ring (by simp)
  have hlen : (l ++ [x]).length = l.length + 1 := length_append
  have hle := hring.le
  rw [hlen] at hle
  have hcc : clp.cCc ≠ 0 := by
    rw [hring.cc, hlen]
    exact Nat.succ_ne_zero _
  have hchr := hring.chr (i := l.length) (by omega)
  rw [getElem_append_right (le_refl _)] at hchr
  simp only [Nat.sub_self, getElem_cons_zero] at hchr
  -- The pointer goes back by one, from the start to the end.
  have hback : (if (f + (l ++ [x]).length) % clp.cCn = 0 then clp.cCn - 1 else (f + (l ++ [x]).length) % clp.cCn - 1) = (f + l.length) % clp.cCn := by
    rw [hlen]
    have hend := place_cases hring.lt hle
    have hlast := place_cases hring.lt (show l.length ≤ clp.cCn by omega)
    split <;> omega
  refine ⟨_, ?_, hring.dropLast.settle⟩
  rw [unputc, if_neg hcc, hring.cl]
  simp only [bind_eq_bind, bind_some]
  rw [hback, hchr]
  rfl

/-! ### Blocks -/

section
variable (h : Ring clp f l) (hk : k ≤ l.length) (hpiece : k ≤ clp.cCn - f)
include h hk hpiece

theorem Ring.advance : Ring (clp.advance f k) ((f + k) % clp.cCn) (l.drop k) := h.drop hk hpiece clp.cCs rfl

theorem Ring.read : clp.read f k = some ((l.take k).map Prod.fst) := by
  have hlt := h.lt
  rw [Clist.read, if_pos (by omega)]
  have htake := congrArg (List.take k) h.cells
  rw [take_contents hk, contents_straight (by omega)] at htake
  rw [← htake, List.map_map]
  rfl

end

theorem Ring.qToBLoop (rounds : Nat) : ∀ {clp : Clist} {f : Nat} {l : List Chr} (count : Nat), Ring clp f l → count < rounds →
    ∃ clp' f', qToBLoop rounds clp count = some (clp', (l.take count).map Prod.fst) ∧ clp'.cCn = clp.cCn ∧ Ring clp' f' (l.drop count) := by
  induction rounds with
  | zero => exact fun _ _ h => absurd h (Nat.not_lt_zero _)
  | succ rounds ih =>
    intro clp f l count h hcount
    rw [TtySubr.qToBLoop]
    by_cases hdone : count = 0 ∨ clp.cCc = 0
    · rw [if_pos hdone]
      rcases hdone with rfl | hcc
      · exact ⟨clp, f, rfl, rfl, h⟩
      · obtain rfl := eq_nil_of_length_eq_zero (h.cc.symm.trans hcc)
        exact ⟨clp, f, by rw [take_nil, map_nil], rfl, by rwa [drop_nil]⟩
    rw [if_neg hdone]
    have hne : l ≠ [] := by
      rintro rfl
      exact hdone (.inr h.cc)
    have hpos := length_pos_of_ne_nil hne
    have hlt := h.lt
    obtain ⟨clp', f', hloop, hcn, hring⟩ := ih (count - min (min l.length (clp.cCn - f)) count)
      (h.advance (k := min (min l.length (clp.cCn - f)) count) (by omega) (by omega)) (by omega)
    rw [drop_drop, show min (min l.length (clp.cCn - f)) count + (count - min (min l.length (clp.cCn - f)) count) = count by omega]
      at hring
    refine ⟨clp', f', ?_, hcn, hring⟩
    rw [h.piece hne]
    simp only [bind_eq_bind, bind_some]
    rw [h.read (by omega) (by omega)]
    rw [hloop]
    simp only [bind_some]
    rw [← map_append, ← take_add,
      show min (min l.length (clp.cCn - f)) count + (count - min (min l.length (clp.cCn - f)) count) = count by omega]
    rfl

/-- What is dropped is what would be copied. -/
theorem ndflushLoop_of {rounds : Nat} {clp clp' : Clist} {count : Nat} {p : List (BitVec 8)}
    (h : TtySubr.qToBLoop rounds clp count = some (clp', p)) : ndflushLoop rounds clp count = some clp' := by
  induction rounds generalizing clp count p with
  | zero => cases h
  | succ rounds ih =>
    rw [TtySubr.qToBLoop] at h
    rw [ndflushLoop]
    by_cases hdone : count = 0 ∨ clp.cCc = 0
    · rw [if_pos hdone] at h ⊢
      exact congrArg some (Prod.mk.inj (Option.some.inj h)).1
    · rw [if_neg hdone] at h ⊢
      obtain ⟨⟨cf, cc⟩, hpiece, h⟩ := Option.bind_eq_some_iff.mp h
      obtain ⟨q, -, h⟩ := Option.bind_eq_some_iff.mp h
      obtain ⟨⟨clp'', rest⟩, hrest, h⟩ := Option.bind_eq_some_iff.mp h
      obtain rfl := (Prod.mk.inj (Option.some.inj h)).1
      rw [hpiece]
      exact ih hrest

theorem Rep.settle_nil (h : Rep n clp []) : clp.settle = clp := by
  obtain ⟨-, ⟨-, hcc, hcf, hcl⟩ | ⟨hne, -⟩⟩ := h
  · rw [Clist.settle, if_pos hcc]
    obtain ⟨cf, cl, cs, cq, cc, cn⟩ := clp
    cases hcf
    cases hcl
    rfl
  · exact absurd rfl hne

theorem Rep.qToB (h : Rep n clp l) (count : Int) :
    ∃ clp', qToB clp count = some (clp', (l.take count.toNat).map Prod.fst) ∧ Rep n clp' (l.drop count.toNat) := by
  obtain rfl := h.1
  rw [TtySubr.qToB]
  by_cases hnil : l = []
  · subst hnil
    refine ⟨clp, ?_, by rwa [drop_nil]⟩
    rw [TtySubr.qToBLoop, if_pos (.inr h.cc), take_nil]
    simp only [bind_eq_bind, bind_some, h.settle_nil]
    rfl
  obtain ⟨f, hring⟩ := h.ring hnil
  obtain ⟨clp', f', hloop, hcn, hring'⟩ := hring.qToBLoop (count.toNat + 1) count.toNat (Nat.lt_succ_self _)
  refine ⟨clp'.settle, ?_, hcn ▸ hring'.settle⟩
  rw [hloop]
  rfl

theorem Rep.ndflush (h : Rep n clp l) (count : Int) : ∃ clp', ndflush clp count = some clp' ∧ Rep n clp' (l.drop count.toNat) := by
  obtain rfl := h.1
  rw [TtySubr.ndflush]
  by_cases hall : count = clp.cCc
  · rw [if_pos hall]
    refine ⟨_, rfl, rfl, .inl ⟨?_, rfl, rfl, rfl⟩⟩
    rw [drop_eq_nil_iff, hall, h.cc]
    exact le_refl _
  rw [if_neg hall]
  by_cases hnil : l = []
  · subst hnil
    refine ⟨clp, ?_, by rwa [drop_nil]⟩
    rw [TtySubr.ndflushLoop, if_pos (.inr h.cc), map_some, h.settle_nil]
  · obtain ⟨f, hring⟩ := h.ring hnil
    obtain ⟨clp', f', hloop, hcn, hring'⟩ := hring.qToBLoop (count.toNat + 1) count.toNat (Nat.lt_succ_self _)
    exact ⟨clp'.settle, by rw [ndflushLoop_of hloop, map_some], hcn ▸ hring'.settle⟩

theorem Ring.write (h : Ring clp f l) {p : List (BitVec 8)} (hp : p ≠ []) (hroom : l.length + p.length ≤ clp.cCn)
    (hpiece : (f + l.length) % clp.cCn + p.length ≤ clp.cCn) : ∃ clp' cq, clp.write ((f + l.length) % clp.cCn) p = some clp' ∧
      clrbits (QMEM clp'.cCn) clp'.cCq ((f + l.length) % clp.cCn) p.length = some cq ∧
      clp'.cCn = clp.cCn ∧
      Ring { clp' with cCq := cq, cCc := clp'.cCc + p.length, cCl := some (clp'.wrap ((f + l.length) % clp.cCn + p.length)) } f
        (l ++ p.map (·, false)) := by
  have hpos := length_pos_of_ne_nil hp
  obtain ⟨cq, hclr, hbits⟩ := @clrbits_spec clp.cCq _ _ _ hpos
    (qmem_lt (show (f + l.length) % clp.cCn + p.length - 1 < clp.cCn by omega))
  refine ⟨_, cq, if_pos hpiece, hclr, rfl, h.append ?_ ?_ rfl rfl ?_ ?_ ?_⟩
  · rw [length_map]
    exact hroom
  · rw [length_map]
    exact hpiece
  · rw [length_map]
    rfl
  · rw [length_map]
  funext j
  rw [Clist.cell]
  dsimp only
  rw [hbits]
  by_cases hj : (f + l.length) % clp.cCn ≤ j ∧ j < (f + l.length) % clp.cCn + p.length
  · obtain ⟨i, rfl⟩ := Nat.exists_eq_add_of_le hj.1
    have hi : i < p.length := by omega
    rw [if_pos hj, store_inside hi, store_inside (by rw [length_map]; exact hi), getElem_map]
  · rw [if_neg hj, store_outside (by omega), store_outside (by rw [length_map]; omega), Clist.cell]

theorem Ring.bToQLoop (rounds : Nat) : ∀ {clp : Clist} {f : Nat} {l : List Chr} (p : List (BitVec 8)), Ring clp f l →
    p.length < rounds → ∃ clp' f', bToQLoop rounds p clp = some (clp', p.length - (clp.cCn - l.length)) ∧ clp'.cCn = clp.cCn ∧
      Ring clp' f' (l ++ (p.take (clp.cCn - l.length)).map (·, false)) := by
  induction rounds with
  | zero => exact fun _ _ h => absurd h (Nat.not_lt_zero _)
  | succ rounds ih =>
    intro clp f l p h hcount
    have hle := h.le
    rw [TtySubr.bToQLoop]
    by_cases hdone : p.length = 0 ∨ clp.cCc ≥ clp.cCn
    · rw [if_pos hdone]
      rcases hdone with hp | hfull
      · obtain rfl := eq_nil_of_length_eq_zero hp
        exact ⟨clp, f, by rw [length_nil, Nat.zero_sub], rfl, by rwa [take_nil, map_nil, append_nil]⟩
      rw [h.cc] at hfull
      have hroom : clp.cCn - l.length = 0 := by omega
      exact ⟨clp, f, by rw [hroom, Nat.sub_zero], rfl, by rwa [hroom, take_zero, map_nil, append_nil]⟩
    rw [if_neg hdone]
    rw [h.cc] at hdone
    have hlt := h.lt
    have hpos : (f + l.length) % clp.cCn < clp.cCn := Nat.mod_lt _ (by omega)
    obtain ⟨cc, hcc⟩ : ∃ cc, cc = min (min (clp.cCn - l.length) (clp.cCn - (f + l.length) % clp.cCn)) p.length := ⟨_, rfl⟩
    obtain ⟨hccpos, hccn, hccend, hccp⟩ : 0 < cc ∧ cc ≤ clp.cCn - l.length ∧ cc ≤ clp.cCn - (f + l.length) % clp.cCn ∧ cc ≤ p.length := by
      omega
    rw [h.cf, h.cl]
    simp only [bind_eq_bind, bind_some]
    rw [piece_free hlt (by omega), ← hcc]
    clear hcc
    have hlen : (p.take cc).length = cc := by
      rw [length_take]
      omega
    obtain ⟨clp₁, cq, hwrite, hclr, hcn₁, hring₁⟩ := h.write (p := p.take cc)
      (ne_nil_of_length_pos (by omega)) (by omega) (by omega)
    obtain ⟨clp', f', hloop, hcn, hring⟩ := ih (p.drop cc) hring₁ (by rw [length_drop]; omega)
    refine ⟨clp', f', ?_, hcn.trans hcn₁, ?_⟩
    · rw [hwrite]
      simp only [bind_some]
      rw [hlen] at hclr hloop
      rw [hclr]
      simp only [bind_some]
      rw [hloop]
      dsimp only
      rw [hcn₁, length_append, length_map, hlen, length_drop]
      congr 2
      omega
    · rw [hcn₁, append_assoc, ← map_append, length_append, length_map, hlen] at hring
      have hsplit : p.take cc ++ (p.drop cc).take (clp.cCn - (l.length + cc)) = p.take (clp.cCn - l.length) := by
        rw [← take_add]
        by_cases hall : p.length ≤ clp.cCn - l.length
        · rw [take_of_length_le hall, take_of_length_le (by omega)]
        · congr 1
          omega
      rwa [hsplit] at hring

theorem Rep.bToQ (h : Rep n clp l) (hn : 0 < n) (cp : Nat → BitVec 8) (count : Int) :
    ∃ clp', bToQ cp count clp = some (clp', count.toNat - (n - l.length)) ∧
      Rep n clp' (l ++ (((List.range count.toNat).map cp).take (n - l.length)).map (·, false)) := by
  rw [TtySubr.bToQ]
  by_cases hcount : count ≤ 0
  · rw [if_pos hcount]
    have h0 : count.toNat = 0 := by omega
    rw [h0]
    exact ⟨clp, by rw [Nat.zero_sub], by rwa [range_zero, map_nil, take_nil, map_nil, append_nil]⟩
  rw [if_neg hcount]
  by_cases hfull : clp.cCc = clp.cCn
  · rw [if_pos hfull]
    rw [h.cc, h.1] at hfull
    rw [hfull, Nat.sub_self]
    exact ⟨clp, rfl, by rwa [take_zero, map_nil, append_nil]⟩
  rw [if_neg hfull]
  obtain ⟨f, hring, hcn⟩ := h.start hn
  obtain ⟨clp', f', hloop, hcn', hring'⟩ := hring.bToQLoop (count.toNat + 1) ((List.range count.toNat).map cp)
    (by rw [length_map, length_range]; exact Nat.lt_succ_self _)
  rw [hcn, length_map, length_range] at hloop
  rw [hcn] at hcn' hring'
  refine ⟨clp', hloop, hcn', .inr ⟨?_, f', hring'⟩⟩
  apply ne_nil_of_length_pos
  rw [length_append, length_map, length_take, length_map, length_range]
  omega

theorem setWidth_and_quote (b : BitVec 8) : b.setWidth 32 &&& TTY_QUOTE = 0 := by
  apply BitVec.eq_of_getLsbD_eq
  intro i hi
  rw [BitVec.getLsbD_and, BitVec.getLsbD_setWidth]
  by_cases h8 : i < 8
  · have hq : ∀ i < 8, TTY_QUOTE.getLsbD i = false := by decide
    rw [hq i h8, Bool.and_false]
    exact BitVec.getLsbD_zero.symm
  · rw [BitVec.getLsbD_of_ge b i (by omega), Bool.and_false, Bool.false_and]
    exact BitVec.getLsbD_zero.symm

theorem decode_code (x : Chr) : decode (code x) = x := by
  obtain ⟨b, q⟩ := x
  have hlow : (if q then TTY_QUOTE else 0).setWidth 8 = (0 : BitVec 8) := by cases q <;> decide
  have hquote : (if q then TTY_QUOTE else 0) &&& TTY_QUOTE = if q then TTY_QUOTE else 0 := by cases q <;> decide
  rw [decode, code]
  apply Prod.ext
  · rw [BitVec.setWidth_or, hlow, BitVec.setWidth_setWidth_of_le _ (by decide)]
    exact BitVec.or_zero
  dsimp only
  rw [BitVec.and_comm, BitVec.and_or_distrib_left, BitVec.and_comm, setWidth_and_quote, BitVec.and_comm TTY_QUOTE, hquote]
  cases q <;> decide

theorem code_ne (x : Chr) : code x ≠ -1 := by
  intro h
  have hbit := congrArg (fun c => c.getLsbD 31) h
  have hquote : (if x.2 then TTY_QUOTE else 0).getLsbD 31 = false := by cases x.2 <;> decide
  simp only [code, BitVec.getLsbD_or, BitVec.getLsbD_setWidth, hquote, BitVec.getLsbD_of_ge x.1 31 (by decide)] at hbit
  exact absurd hbit (by decide)

theorem Rep.catqLoop : ∀ (rounds : Nat) {src dst : Clist} {n n' : Nat} {l l' : List Chr}, Rep n src l → Rep n' dst l' → 0 < n' →
    l.length < rounds → ∃ src' dst', catqLoop rounds src dst = some (src', dst') ∧ Rep n src' [] ∧
      Rep n' dst' (l' ++ l.take (n' - l'.length)) := by
  intro rounds
  induction rounds with
  | zero => exact fun _ _ _ h => absurd h (Nat.not_lt_zero _)
  | succ rounds ih =>
    intro src dst n n' l l' h h' hn hlen
    rw [TtySubr.catqLoop]
    cases l with
    | nil =>
      rw [h.getc_nil]
      exact ⟨src, dst, rfl, h, by rwa [take_nil, append_nil]⟩
    | cons x l =>
      obtain ⟨src₁, hget, h₁⟩ := h.getc_cons
      rw [hget]
      simp only [bind_eq_bind, bind_some]
      rw [if_neg (code_ne x)]
      rw [length_cons] at hlen
      have hle := h'.le
      by_cases hfull : l'.length = n'
      · rw [h'.putc_full hfull]
        obtain ⟨src', dst', hloop, hsrc, hdst⟩ := ih h₁ h' hn (by omega)
        refine ⟨src', dst', hloop, hsrc, ?_⟩
        rw [hfull, Nat.sub_self] at hdst ⊢
        exact hdst
      obtain ⟨dst₁, hput, h₁'⟩ := h'.putc_room hn hfull (code x)
      rw [decode_code] at h₁'
      obtain ⟨src', dst', hloop, hsrc, hdst⟩ := ih h₁ h₁' hn (by omega)
      refine ⟨src', dst', ?_, hsrc, ?_⟩
      · rw [hput]
        exact hloop
      rw [append_assoc, length_append] at hdst
      rw [show n' - l'.length = n' - (l'.length + 1) + 1 by omega]
      exact hdst

theorem Rep.catq {src dst : Clist} {n' : Nat} {l' : List Chr} (h : Rep n src l) (h' : Rep n' dst l') (hn : 0 < n') :
    ∃ src' dst', catq src dst = some (src', dst') ∧ Rep n src' [] ∧ Rep n' dst' (l' ++ l.take (n' - l'.length)) := by
  apply Rep.catqLoop _ h h' hn
  rw [h.cc]
  exact Nat.lt_succ_self _

theorem Ring.nextcs (h : Ring clp f l) (rounds : Nat) : ∀ i < l.length, l.length - i ≤ rounds →
    nextcs rounds clp ((f + i) % clp.cCn) (l.length - i) = some ((l.drop (i + 1)).map code) := by
  have hle := h.le
  have hlt := h.lt
  induction rounds with
  | zero =>
    intro i hi hrounds
    omega
  | succ rounds ih =>
    intro i hi hrounds
    rw [TtySubr.nextcs, nextc]
    -- Only the first place starts the count again, and with the same number.
    have hcount : (if clp.cCf = some ((f + i) % clp.cCn) then clp.cCc else l.length - i) = l.length - i := by
      split
      · next hcf =>
        rw [h.cf, Option.some.injEq] at hcf
        have hplace := place_cases hlt (show i ≤ clp.cCn by omega)
        rw [h.cc]
        omega
      · rfl
    dsimp only
    rw [hcount, if_neg (by omega)]
    by_cases hlast : l.length - i - 1 = 0
    · rw [if_pos hlast, drop_of_length_le (by omega)]
      rfl
    rw [if_neg hlast]
    have hwrap : clp.wrap ((f + i) % clp.cCn + 1) = (f + (i + 1)) % clp.cCn := by
      have hpos : (f + i) % clp.cCn < clp.cCn := Nat.mod_lt _ (by omega)
      rw [Clist.wrap, wrap_eq hpos (by omega), Nat.mod_add_mod, add_assoc]
    have hnext := ih (i + 1) (by omega) (by omega)
    rw [hwrap, h.chr (show i + 1 < l.length by omega), show l.length - i - 1 = l.length - (i + 1) by omega]
    simp only [bind_eq_bind, bind_some]
    rw [show (pure (l.length - (i + 1), some ((f + (i + 1)) % clp.cCn, code l[i + 1])) : Option _) =
      some (l.length - (i + 1), some ((f + (i + 1)) % clp.cCn, code l[i + 1])) from rfl]
    simp only [bind_some, hnext]
    rw [drop_eq_getElem_cons (show i + 1 < l.length by omega)]
    rfl

theorem Rep.traverse (h : Rep n clp l) : traverse clp = some (l.map code) := by
  rw [TtySubr.traverse, firstc]
  cases l with
  | nil =>
    rw [if_pos (show clp.cCc = 0 from h.cc)]
    rfl
  | cons x l =>
    obtain ⟨f, hring⟩ := h.ring (cons_ne_nil x l)
    have hcc : clp.cCc ≠ 0 := by
      rw [h.cc]
      exact Nat.succ_ne_zero _
    have hchr := hring.chr (i := 0) (Nat.succ_pos _)
    have hnext := hring.nextcs (clp.cCc + 1) 0 (Nat.succ_pos _) (by rw [h.cc]; omega)
    rw [add_zero, Nat.mod_eq_of_lt hring.lt] at hchr
    rw [add_zero f, Nat.mod_eq_of_lt hring.lt, Nat.sub_zero, ← h.cc] at hnext
    rw [if_neg hcc, hring.cf]
    simp only [bind_eq_bind, bind_some, hchr]
    rw [show (pure (clp.cCc, some (f, code (x :: l)[0])) : Option _) = some (clp.cCc, some (f, code (x :: l)[0])) from rfl]
    simp only [bind_some, hnext]
    rfl

/-! ### Runs -/

/-- A call on some of the queues. Characters are not moved from a queue to itself. -/
inductive Call where
  | putc (q : Nat) (c : BitVec 32)
  | getc (q : Nat)
  | unputc (q : Nat)
  | bToQ (q : Nat) (cp : Nat → BitVec 8) (count : Int)
  | qToB (q : Nat) (count : Int)
  | ndflush (q : Nat) (count : Int)
  | catq (src dst : Nat) (hne : src ≠ dst)
  | traverse (q : Nat)

inductive Answer where
  | none
  | char (c : BitVec 32)
  | left (count : Nat)
  | bytes (p : List (BitVec 8))
  | chars (cs : List (BitVec 32))
  deriving DecidableEq

/-- What a call does to the clists. -/
def exec (w : Nat → Clist) : Call → Option ((Nat → Clist) × Answer)
  | .putc q c => (putc c (w q)).map fun r => (update w q r.1, .char r.2)
  | .getc q => (getc (w q)).map fun r => (update w q r.1, .char r.2)
  | .unputc q => (unputc (w q)).map fun r => (update w q r.1, .char r.2)
  | .bToQ q cp count => (bToQ cp count (w q)).map fun r => (update w q r.1, .left r.2)
  | .qToB q count => (qToB (w q) count).map fun r => (update w q r.1, .bytes r.2)
  | .ndflush q count => (ndflush (w q) count).map fun r => (update w q r, .none)
  | .catq src dst _ => (catq (w src) (w dst)).map fun r => (update (update w src r.1) dst r.2, .none)
  | .traverse q => (traverse (w q)).map fun cs => (w, .chars cs)

/-- What a call does to the lists, of at most `size` characters. -/
def does (size : Nat → Nat) (m : Nat → List Chr) : Call → (Nat → List Chr) × Answer
  | .putc q c =>
    if (m q).length = size q then (m, .char (-1)) else (update m q (m q ++ [decode c]), .char 0)
  | .getc q =>
    match m q with
    | [] => (m, .char (-1))
    | x :: l => (update m q l, .char (code x))
  | .unputc q =>
    match (m q).getLast? with
    | none => (m, .char (-1))
    | some x => (update m q (m q).dropLast, .char (code x))
  | .bToQ q cp count =>
    (update m q (m q ++ (((List.range count.toNat).map cp).take (size q - (m q).length)).map (·, false)),
      .left (count.toNat - (size q - (m q).length)))
  | .qToB q count => (update m q ((m q).drop count.toNat), .bytes (((m q).take count.toNat).map Prod.fst))
  | .ndflush q count => (update m q ((m q).drop count.toNat), .none)
  | .catq src dst _ =>
    (update (update m src []) dst (m dst ++ (m src).take (size dst - (m dst).length)), .none)
  | .traverse q => (m, .chars ((m q).map code))

def runs (w : Nat → Clist) : List Call → Option ((Nat → Clist) × List Answer)
  | [] => some (w, [])
  | c :: calls => do
    let (w, r) ← exec w c
    let (w, rs) ← runs w calls
    return (w, r :: rs)

def doesAll (size : Nat → Nat) (m : Nat → List Chr) : List Call → (Nat → List Chr) × List Answer
  | [] => (m, [])
  | c :: calls =>
    let (m, r) := does size m c
    let (m, rs) := doesAll size m calls
    (m, r :: rs)

variable {size : Nat → Nat} {w : Nat → Clist} {m : Nat → List Chr}

theorem rep_update (h : ∀ q, Rep (size q) (w q) (m q)) {q : Nat} {clp : Clist} {l : List Chr} (hq : Rep (size q) clp l) :
    ∀ q', Rep (size q') (update w q clp q') (update m q l q') := by
  intro q'
  by_cases hqq : q' = q
  · subst hqq
    rwa [update_self, update_self]
  · rw [update_of_ne hqq, update_of_ne hqq]
    exact h q'

/-- One call does to the clists what it does to the lists. -/
theorem exec_does (hsize : ∀ q, 0 < size q) (h : ∀ q, Rep (size q) (w q) (m q)) (c : Call) :
    ∃ w', exec w c = some (w', (does size m c).2) ∧ ∀ q, Rep (size q) (w' q) ((does size m c).1 q) := by
  cases c with
  | putc q c =>
    rw [exec, does]
    by_cases hfull : (m q).length = size q
    · rw [(h q).putc_full hfull, if_pos hfull]
      exact ⟨_, rfl, by rwa [update_eq_self]⟩
    obtain ⟨clp, hput, hrep⟩ := (h q).putc_room (hsize q) hfull c
    rw [hput, if_neg hfull]
    exact ⟨_, rfl, rep_update h hrep⟩
  | getc q =>
    have hq := h q
    rw [exec, does.eq_def]
    dsimp only
    cases hm : m q with
    | nil =>
      rw [hm] at hq
      rw [hq.getc_nil]
      exact ⟨_, rfl, by rwa [update_eq_self]⟩
    | cons x l =>
      rw [hm] at hq
      obtain ⟨clp, hget, hrep⟩ := hq.getc_cons
      rw [hget]
      exact ⟨_, rfl, rep_update h hrep⟩
  | unputc q =>
    have hq := h q
    rw [exec, does.eq_def]
    dsimp only
    rcases eq_nil_or_concat (m q) with hm | ⟨l, x, hm⟩
    · rw [hm] at hq ⊢
      rw [hq.unputc_nil]
      exact ⟨_, rfl, by rwa [update_eq_self]⟩
    rw [concat_eq_append] at hm
    rw [hm] at hq ⊢
    obtain ⟨clp, hget, hrep⟩ := hq.unputc_append
    rw [hget, getLast?_concat]
    rw [dropLast_concat]
    exact ⟨_, rfl, rep_update h hrep⟩
  | bToQ q cp count =>
    obtain ⟨clp, hput, hrep⟩ := (h q).bToQ (hsize q) cp count
    rw [exec, hput]
    exact ⟨_, rfl, rep_update h hrep⟩
  | qToB q count =>
    obtain ⟨clp, hget, hrep⟩ := (h q).qToB count
    rw [exec, hget]
    exact ⟨_, rfl, rep_update h hrep⟩
  | ndflush q count =>
    obtain ⟨clp, hflush, hrep⟩ := (h q).ndflush count
    rw [exec, hflush]
    exact ⟨_, rfl, rep_update h hrep⟩
  | catq src dst hne =>
    obtain ⟨src', dst', hcat, hsrc, hdst⟩ := (h src).catq (h dst) (hsize dst)
    rw [exec, hcat]
    exact ⟨_, rfl, rep_update (rep_update h hsrc) hdst⟩
  | traverse q =>
    rw [exec, (h q).traverse]
    exact ⟨_, rfl, h⟩

theorem runs_does (hsize : ∀ q, 0 < size q) (calls : List Call) (h : ∀ q, Rep (size q) (w q) (m q)) :
    ∃ w', runs w calls = some (w', (doesAll size m calls).2) ∧ ∀ q, Rep (size q) (w' q) ((doesAll size m calls).1 q) := by
  induction calls generalizing w m with
  | nil => exact ⟨w, rfl, h⟩
  | cons c calls ih =>
    obtain ⟨w₁, hexec, h₁⟩ := exec_does hsize h c
    obtain ⟨w', hruns, h'⟩ := ih h₁
    refine ⟨w', ?_, h'⟩
    rw [runs, hexec]
    simp only [bind_eq_bind, bind_some, hruns]
    rfl

/-- Over any sequence of calls the clists are lists of at most as many characters as they have room for, each call answers
as on the lists, and none follows a null pointer or leaves an array. -/
theorem clist_refines_deque (hsize : ∀ q, 0 < size q) (calls : List Call) :
    ∃ w, runs (fun q => clalloc (size q)) calls = some (w, (doesAll size (fun _ => []) calls).2) ∧
      ∀ q, Rep (size q) (w q) ((doesAll size (fun _ => []) calls).1 q) ∧
        ((doesAll size (fun _ => []) calls).1 q).length ≤ size q := by
  obtain ⟨w, hruns, hrep⟩ := runs_does hsize calls fun q => rep_clalloc (size q)
  exact ⟨w, hruns, fun q => ⟨hrep q, (hrep q).le⟩⟩

/-- A ring of three characters goes round, and drops what has no room. -/
theorem clist_refines_deque_three : ∃ w, runs (fun _ => clalloc 3)
    [.bToQ 0 (fun i => BitVec.ofNat 8 (65 + i)) 5, .getc 0, .putc 0 0x15a, .putc 0 0x5a, .traverse 0, .unputc 0, .qToB 0 9] =
      some (w, [.left 2, .char 65, .char 0, .char (-1), .chars [66, 67, 0x15a], .char 0x15a, .bytes [66, 67]]) := by
  obtain ⟨w, hruns, -⟩ := @clist_refines_deque (fun _ => 3) (fun _ => by decide)
    [.bToQ 0 (fun i => BitVec.ofNat 8 (65 + i)) 5, .getc 0, .putc 0 0x15a, .putc 0 0x5a, .traverse 0, .unputc 0, .qToB 0 9]
  exact ⟨w, hruns.trans (congrArg (fun r => some (w, r)) (by decide))⟩

end NetBSD.Kern.TtySubr
