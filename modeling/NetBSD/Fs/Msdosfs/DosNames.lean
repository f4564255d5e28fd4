import NetBSD.Fs.Msdosfs.LongNames

/-! The 8.3 name of a name.

The stem and the extension are converted character by character (`convertChars_spec`), and a generation
number can be read back from the name it is in (`genText_insert`). The first character of the stem that has
a place in an 8.3 name comes first in the result. In a stem of at most 8 characters a blank has a place:
that is the one way to a name that is none (`dos_name_wellFormed`). -/
namespace NetBSD.Fs.Msdosfs
open List Nat Option

local instance byteNeZero : NeZero 256 := ⟨by decide⟩

/-! ### Characters -/

/-- What is stored for a character of the stem, 0 for nothing. -/
def stored (short : Bool) (c : Byte) : Byte := if c = 0x20 ∧ short then 0x20 else byte (unix2dos.getD c 0)

/-- The image of a character of the name. -/
def Image (un : List Byte) (b : Byte) : Prop := b ≠ 0 ∧ ∃ c ∈ un, b = byte (unix2dos.getD c 0)

/-- A blank or the image of a character. -/
def Converted (un : List Byte) (b : Byte) : Prop := b = 0x20 ∨ Image un b

theorem unix2dos_mem : ∀ n ∈ unix2dos, n < 256 ∧ n ≠ 0x20 := by set_option maxRecDepth 4000 in decide

theorem unix2dos_ne_blank (c : Byte) : byte (unix2dos.getD c 0) ≠ 0x20 := by
  have h : unix2dos.getD c 0 < 256 ∧ unix2dos.getD c 0 ≠ 0x20 := by
    rw [getD_eq_getElem?_getD]
    cases hc : unix2dos[(c : Nat)]? with
    | none => decide
    | some n => exact unix2dos_mem n (mem_of_getElem? hc)
  intro hblank
  have hval := congrArg Fin.val hblank
  rw [byte_val _ h.1] at hval
  exact h.2 hval

theorem stored_converted {short : Bool} {un : List Byte} {c : Byte} (hc : c ∈ un) (h : stored short c ≠ 0) : Converted un (stored short c) := by
  unfold stored at h ⊢
  split
  · exact .inl rfl
  · next hno =>
    rw [if_neg hno] at h
    exact .inr ⟨h, c, hc, rfl⟩

theorem stored_blank {short : Bool} {c : Byte} : stored short c = 0x20 ↔ c = 0x20 ∧ short = true := by
  unfold stored
  split
  · next h => exact iff_of_true rfl h
  · next h => exact iff_of_false (unix2dos_ne_blank c) h

section
variable {lim : Nat} {short : Bool}

theorem convertChars_spec (cs : List Byte) {conv : Nat} {dn : List Byte} (hconv : conv ≠ 0) (hlen : dn.length ≤ lim) :
    (convertChars lim short cs conv dn).2.1 ≠ 0 ∧ (convertChars lim short cs conv dn).2.2.length ≤ lim ∧
      ∃ new, (convertChars lim short cs conv dn).2.2 = dn ++ new ∧ ∀ b ∈ new, b ≠ 0 ∧ ∃ c ∈ cs, b = stored short c := by
  induction cs generalizing conv dn with
  | nil => exact ⟨hconv, hlen, [], (append_nil dn).symm, fun b hb => (nomatch hb)⟩
  | cons c cs ih =>
    rw [convertChars]
    split
    · exact ⟨hconv, hlen, [], (append_nil dn).symm, fun b hb => (nomatch hb)⟩
    · next hroom =>
      have hdef : (if c = 0x20 ∧ short then 0x20 else byte (unix2dos.getD c 0) : Byte) = stored short c := rfl
      dsimp only
      rw [hdef]
      have hnext : (if c ≠ stored short c ∧ conv ≠ 3 then 2 else conv) ≠ 0 := by
        split
        · decide
        · exact hconv
      split
      · obtain ⟨hanswer, hshort, new, heq, hnew⟩ := @ih 3 dn (by decide) hlen
        refine ⟨hanswer, hshort, new, heq, fun b hb => ?_⟩
        obtain ⟨hne, c', hc', hb⟩ := hnew b hb
        exact ⟨hne, c', mem_cons_of_mem _ hc', hb⟩
      · next hkeep =>
        have hlen' : (dn ++ [stored short c]).length ≤ lim := by
          rw [length_append, length_singleton]
          omega
        obtain ⟨hanswer, hshort, new, heq, hnew⟩ := ih hnext hlen'
        refine ⟨hanswer, hshort, stored short c :: new, by rw [heq, append_assoc]; rfl, fun b hb => ?_⟩
        rcases mem_cons.mp hb with rfl | hb
        · exact ⟨hkeep, c, mem_cons_self, rfl⟩
        · obtain ⟨hne, c', hc', hb⟩ := hnew b hb
          exact ⟨hne, c', mem_cons_of_mem _ hc', hb⟩

theorem convertChars_head (hlim : 0 < lim) (cs : List Byte) {conv : Nat} (hconv : conv ≠ 0) :
    (convertChars lim short cs conv []).2.2.head? = ((cs.dropWhile fun c => stored short c = 0).head?).map (stored short) := by
  induction cs generalizing conv with
  | nil => rfl
  | cons c cs ih =>
    rw [convertChars, if_neg (show ¬ ([] : List Byte).length = lim from Nat.ne_of_lt hlim)]
    have hdef : (if c = 0x20 ∧ short then 0x20 else byte (unix2dos.getD c 0) : Byte) = stored short c := rfl
    dsimp only
    rw [hdef]
    split
    · next hdrop =>
      rw [dropWhile_cons_of_pos (by rw [hdrop]; rfl)]
      exact ih (by decide)
    · next hkeep =>
      rw [dropWhile_cons_of_neg (by rw [decide_eq_true_eq]; exact hkeep)]
      have hnext : (if c ≠ stored short c ∧ conv ≠ 3 then 2 else conv) ≠ 0 := by
        split
        · decide
        · exact hconv
      obtain ⟨-, -, new, heq, -⟩ := @convertChars_spec lim short cs _ [stored short c] hnext hlim
      rw [nil_append, heq]
      rfl

end

def Digit (b : Byte) : Prop := 48 ≤ b.val ∧ b.val ≤ 57

/-- A generation number is read back. -/
def readGen (text : List Byte) : Nat := text.foldl (fun n b => 10 * n + (b.val - 48)) 0

theorem genDigits_spec (n gen : Nat) (text : List Byte) :
    ∃ digits, genDigits n gen text = (gen / 10 ^ n, digits ++ text) ∧ digits.length ≤ n ∧ (∀ b ∈ digits, Digit b) ∧
      (gen < 10 ^ n → readGen digits = gen) := by
  induction n generalizing gen text with
  | zero =>
    refine ⟨[], by rw [Nat.pow_zero, Nat.div_one]; rfl, le_refl _, fun b hb => (nomatch hb), fun hlt => ?_⟩
    exact (lt_one_iff.mp hlt).symm
  | succ n ih =>
    rw [genDigits]
    split
    · next hzero =>
      refine ⟨[], by rw [hzero, Nat.zero_div]; rfl, zero_le _, fun b hb => (nomatch hb), fun _ => hzero.symm⟩
    have hval : (byte (gen % 10 + 0x30)).val = gen % 10 + 48 := byte_val _ (by omega)
    obtain ⟨digits, heq, hlen, hdigits, hread⟩ := ih (gen / 10) (byte (gen % 10 + 0x30) :: text)
    refine ⟨digits ++ [byte (gen % 10 + 0x30)], ?_, ?_, fun b hb => ?_, fun hlt => ?_⟩
    · rw [heq, Nat.div_div_eq_div_mul, Nat.pow_succ', append_assoc]
      rfl
    · rw [length_append, length_singleton]
      omega
    · rcases mem_append.mp hb with hb | hb
      · exact hdigits b hb
      · rw [mem_singleton.mp hb, Digit]
        omega
    · unfold readGen at hread ⊢
      rw [foldl_append, foldl_cons, foldl_nil]
      omega

/-- The text behind the last `~` of a padded name. -/
def genText (dn : List Byte) : List Byte := ((dn.reverse.dropWhile (· = 0x20)).takeWhile (· ≠ 0x7e)).reverse

theorem genText_insert {text : List Byte} (hdigits : ∀ b ∈ text, Digit b) (front : List Byte) (n : Nat) :
    genText (front ++ 0x7e :: text ++ replicate n 0x20) = text := by
  have hreverse : (front ++ 0x7e :: text ++ replicate n 0x20).reverse = replicate n 0x20 ++ (text.reverse ++ 0x7e :: front.reverse) := by
    rw [reverse_append, reverse_append, reverse_cons, reverse_replicate, append_assoc]
    rfl
  have hplain (b : Byte) (hb : b ∈ text.reverse) : b ≠ 0x20 ∧ b ≠ 0x7e := by
    have hdigit := hdigits b (mem_reverse.mp hb)
    refine ⟨?_, ?_⟩
    · rintro rfl
      exact absurd hdigit.1 (by decide)
    · rintro rfl
      exact absurd hdigit.2 (by decide)
  have hstop : (text.reverse ++ 0x7e :: front.reverse).dropWhile (fun b : Byte => b = 0x20) = text.reverse ++ 0x7e :: front.reverse := by
    cases hrev : text.reverse with
    | nil => rfl
    | cons b rest =>
      have hb := (hplain b (hrev ▸ mem_cons_self)).1
      exact dropWhile_cons_of_neg (by rw [decide_eq_true_eq]; exact hb)
  unfold genText
  rw [hreverse, dropWhile_append_of_pos, hstop, takeWhile_append_of_pos]
  · rw [takeWhile_cons_of_neg (by decide), append_nil, reverse_reverse]
  · intro b hb
    exact decide_eq_true (hplain b hb).2
  · intro b hb
    exact decide_eq_true (eq_of_mem_replicate hb)

/-! ### The two parts -/

/-- The stem, before it is converted. -/
def stem (un : List Byte) : List Byte :=
  match (findExtension (un.drop 1) 1 none none).1 with
  | some dp => un.take (dp - 1)
  | none => un.rdropWhile isBlankOrDot

/-- The extension is converted first. -/
def convertExtension (un : List Byte) : Nat × List Byte :=
  match findExtension (un.drop 1) 1 none none with
  | (some dp, dp1) =>
    let l := match dp1 with
      | some dp1 => dp1 - dp
      | none => un.length - dp
    let (rest, conv, ext) := convertChars 3 false ((un.drop dp).take l) 1 []
    (if rest ≠ [] then 3 else conv, ext)
  | (none, _) => (1, [])

def convertStem (un : List Byte) : Nat × List Byte :=
  let (rest, conv, name) := convertChars 8 ((stem un).length ≤ 8) (stem un) (convertExtension un).1 []
  let name := if name = [] then [0x5f] else name
  (if rest ≠ [] then 3 else conv, if name.head? = some 0xe5 then SLOT_E5 :: name.tail else name)

/-- A short stem whose first character that has a place in an 8.3 name is a blank. -/
def LeadingBlank (un : List Byte) : Prop :=
  (stem un).length ≤ 8 ∧ ((stem un).dropWhile fun c => stored true c = 0).head? = some 0x20

theorem unix2dosfn_eq {un : List Byte} (h : un.all isBlankOrDot = false) (gen : Nat) : unix2dosfn un gen =
      if (convertStem un).1 ≠ 3 then
        if gen > 1 then some (0, padTo 11 (padTo 8 (convertStem un).2 ++ (convertExtension un).2))
        else some ((convertStem un).1, padTo 11 (padTo 8 (convertStem un).2 ++ (convertExtension un).2))
      else insertGen (convertStem un).2 (padTo 3 (convertExtension un).2) gen := by
  have hdot : un ≠ [0x2e] := by
    rintro rfl
    exact absurd h (by decide)
  have hdots : un ≠ [0x2e, 0x2e] := by
    rintro rfl
    exact absurd h (by decide)
  unfold unix2dosfn
  rw [if_neg hdot, if_neg hdots, if_neg (by rw [h]; decide)]
  unfold convertStem convertExtension stem
  rcases findExtension (un.drop 1) 1 none none with ⟨_ | dp, dp1⟩ <;> rfl

theorem stem_subset (un : List Byte) : ∀ c ∈ stem un, c ∈ un := by
  intro c hc
  unfold stem at hc
  split at hc
  · exact mem_of_mem_take hc
  · exact ( rdropWhile_prefix _ un).subset hc

theorem convertExtension_spec (un : List Byte) :
    (convertExtension un).1 ≠ 0 ∧ (convertExtension un).2.length ≤ 3 ∧ ∀ b ∈ (convertExtension un).2, Converted un b := by
  unfold convertExtension
  rcases findExtension (un.drop 1) 1 none none with ⟨_ | dp, dp1⟩
  · exact ⟨Nat.one_ne_zero, zero_le 3, fun b hb => (nomatch hb)⟩
  dsimp only
  generalize hl : (match dp1 with
    | some dp1 => dp1 - dp
    | none => un.length - dp) = l
  obtain ⟨hconv, hlen, new, heq, hnew⟩ := @convertChars_spec 3 false ((un.drop dp).take l) 1 [] (by decide) (by decide)
  refine ⟨?_, hlen, fun b hb => ?_⟩
  · split
    · decide
    · exact hconv
  · rw [heq] at hb
    obtain ⟨hne, c, hc, rfl⟩ := hnew b hb
    exact stored_converted (mem_of_mem_drop (mem_of_mem_take hc)) hne

theorem head_blank {un : List Byte} {conv : Nat} (hconv : conv ≠ 0) :
    (convertChars 8 ((stem un).length ≤ 8) (stem un) conv []).2.2.head? = some 0x20 ↔ LeadingBlank un := by
  rw [convertChars_head (by decide) _ hconv]
  by_cases hshort : (stem un).length ≤ 8
  · rw [decide_eq_true hshort, Option.map_eq_some_iff]
    refine ⟨fun ⟨c, hc, hstored⟩ => ⟨hshort, ?_⟩, fun h => ⟨0x20, h.2, rfl⟩⟩
    rw [hc, (stored_blank.mp hstored).1]
  · rw [decide_eq_false hshort, Option.map_eq_some_iff]
    refine ⟨fun ⟨c, _, hstored⟩ => ?_, fun h => absurd h.1 hshort⟩
    cases (stored_blank.mp hstored).2

theorem convertStem_spec (un : List Byte) : (convertStem un).1 ≠ 0 ∧
    ∃ b rest, (convertStem un).2 = b :: rest ∧ rest.length < 8 ∧ b ≠ 0xe5 ∧ b ≠ 0 ∧ (b = 0x20 ↔ LeadingBlank un) ∧
      ∀ b ∈ rest, Converted un b := by
  have hext := (convertExtension_spec un).1
  have hblank := @head_blank un _ hext
  obtain ⟨hconv, hlen, new, heq, hnew⟩ := @convertChars_spec 8 ((stem un).length ≤ 8) (stem un) _ [] hext (zero_le 8)
  unfold convertStem
  generalize convertChars 8 ((stem un).length ≤ 8) (stem un) (convertExtension un).1 [] = converted at *
  obtain ⟨left, conv, name⟩ := converted
  dsimp only at hconv hlen heq hblank ⊢
  rw [nil_append] at heq
  refine ⟨?_, ?_⟩
  · split
    · decide
    · exact hconv
  cases name with
  | nil => exact ⟨0x5f, [], rfl, by decide, by decide, by decide, iff_of_false (by decide) fun h => (nomatch hblank.mpr h), fun b hb => (nomatch hb)⟩
  | cons d rest =>
    have hrest (b : Byte) (hb : b ∈ rest) : Converted un b := by
      obtain ⟨hne, c, hc, rfl⟩ := hnew b (heq ▸ mem_cons_of_mem _ hb)
      exact stored_converted (stem_subset un c hc) hne
    have hd := (hnew d (heq ▸ mem_cons_self)).1
    rw [if_neg (cons_ne_nil d rest)]
    by_cases he5 : d = 0xe5
    · rw [if_pos (by rw [he5]; rfl)]
      refine ⟨SLOT_E5, rest, rfl, hlen, by decide, by decide, iff_of_false (by decide) fun h => ?_, hrest⟩
      have hhead := some.inj (hblank.mpr h)
      rw [he5] at hhead
      exact absurd hhead (by decide)
    · rw [if_neg (show (d :: rest).head? ≠ some 0xe5 from fun h => he5 (some.inj h))]
      exact ⟨d, rest, rfl, hlen, he5, hd, ⟨fun h => hblank.mp (congrArg some h), fun h => some.inj (hblank.mpr h)⟩, hrest⟩

theorem findExtension_within {cs : List Byte} {cp : Nat} {dp dp1 : Option Nat} (hdp : ∀ d ∈ dp, d < cp) (hdp1 : ∀ e ∈ dp1, e ≤ cp ∧ ∀ d ∈ dp, d ≤ e) :
    (∀ d ∈ (findExtension cs cp dp dp1).1, d < cp + cs.length) ∧
      ∀ e ∈ (findExtension cs cp dp dp1).2, e ≤ cp + cs.length ∧ ∀ d ∈ (findExtension cs cp dp dp1).1, d ≤ e := by
  induction cs generalizing cp dp dp1 with
  | nil => exact ⟨hdp, hdp1⟩
  | cons c cs ih =>
    rw [findExtension, length_cons, ← Nat.add_assoc, Nat.add_right_comm]
    have hfront (d : Nat) (hd : d ∈ dp) : d < cp + 1 := lt_succ_of_lt (hdp d hd)
    split
    · refine ih hfront fun e he => ?_
      split at he
      · cases he
        exact ⟨le_refl _, fun d hd => le_of_lt (hfront d hd)⟩
      · obtain ⟨hle, hbefore⟩ := hdp1 e he
        exact ⟨le_succ_of_le hle, hbefore⟩
    split
    · refine ih hfront fun e he => ?_
      obtain ⟨hle, hbefore⟩ := hdp1 e he
      exact ⟨le_succ_of_le hle, hbefore⟩
    refine ih (fun d hd => ?_) fun e he => (nomatch he)
    split at hd
    · exact hfront d hd
    · exact lt_succ_of_le (hdp1 d hd).1

/-! ### The result -/

theorem padTo_length (n : Nat) (dn : List Byte) : (padTo n dn).length = max n dn.length := by
  rw [padTo, length_append, length_replicate]
  omega

/-- A number that is too large; a name of blanks, which the search for its end leaves; or the number
behind the name or its beginning. -/
theorem insertGen_spec {b : Byte} {rest : List Byte} (hrest : rest.length < 8) (ext : List Byte) (gen : Nat) :
    (10 ^ 6 ≤ gen ∧ insertGen (b :: rest) ext gen = some (0, padTo 8 (b :: rest) ++ ext)) ∨
      (gen < 10 ^ 6 ∧ ((b = 0x20 ∧ insertGen (b :: rest) ext gen = none) ∨
        ∃ mid m, insertGen (b :: rest) ext gen = some (3, b :: mid ++ 0x7e :: (genDigits 6 gen []).2 ++ replicate m 0x20 ++ ext) ∧
          (b :: mid ++ 0x7e :: (genDigits 6 gen []).2 ++ replicate m 0x20).length = 8 ∧ ∀ x ∈ mid, x ∈ rest ∨ x = 0x20)) := by
  obtain ⟨text, heq, hlen, -, -⟩ := genDigits_spec 6 gen []
  rw [append_nil] at heq
  unfold insertGen
  rw [heq]
  dsimp only
  by_cases hlarge : gen / 10 ^ 6 = 0
  · right
    have hlt : gen < 10 ^ 6 := by omega
    refine ⟨hlt, ?_⟩
    rw [if_neg (not_not.mpr hlarge)]
    split
    · next hzero =>
      refine .inl ⟨?_, rfl⟩
      have hall := rdropWhile_eq_nil_iff.mp (length_eq_zero_iff.mp hzero)
      exact of_decide_eq_true (hall b mem_cons_self)
    · next hpos =>
      right
      have hpad : padTo 8 (b :: rest) = b :: (rest ++ replicate (7 - rest.length) 0x20) := by
        rw [padTo, length_cons, show 8 - (rest.length + 1) = 7 - rest.length by omega]
        rfl
      generalize hi : (if text.length + 1 > 8 - ((padTo 8 (b :: rest)).rdropWhile (· = 0x20)).length then 8 - (text.length + 1)
        else ((padTo 8 (b :: rest)).rdropWhile (· = 0x20)).length) = i
      have hfits : 0 < i ∧ i + (text.length + 1) ≤ 8 := by
        rw [← hi]
        split <;> omega
      obtain ⟨k, rfl⟩ := exists_eq_succ_of_ne_zero (ne_of_gt hfits.1)
      have hmid : ((rest ++ replicate (7 - rest.length) 0x20).take k).length = k := by
        rw [length_take, length_append, length_replicate]
        omega
      refine ⟨(rest ++ replicate (7 - rest.length) 0x20).take k, 8 - (k + 1 + (text.length + 1)), ?_, ?_, fun x hx => ?_⟩
      · rw [hpad, take_succ_cons, padTo, length_append, length_cons, length_cons, hmid]
      · rw [length_append, length_append, length_cons, length_cons, length_replicate]
        omega
      rcases mem_append.mp (mem_of_mem_take hx) with hx | hx
      · exact .inl hx
      · exact .inr (eq_of_mem_replicate hx)
  · left
    rw [if_pos hlarge]
    exact ⟨by omega, rfl⟩

/-- The first byte is no blank, no NUL and not the mark of a deleted entry; the others are converted, or
belong to a generation number. -/
structure FormedName (un : List Byte) (gen n : Nat) (dn : List Byte) : Prop where
  first : ∀ b, dn.head? = some b → b ≠ 0xe5 ∧ b ≠ 0x20 ∧ b ≠ 0
  others : ∀ b ∈ dn.tail, Converted un b ∨ n = 3 ∧ b ∈ 0x7e :: (genDigits 6 gen []).2

/-- The search stays in the name; a name of 11 bytes is answered, and a well-formed one if it is one at
all; no two generation numbers go into the same name. -/
structure Named (un : List Byte) : Prop where
  within : ∀ dp ∈ (findExtension (un.drop 1) 1 none none).1, dp ≤ un.length ∧
    ∀ dp1 ∈ (findExtension (un.drop 1) 1 none none).2, dp ≤ dp1 ∧ dp1 ≤ un.length
  answer : ∀ gen, ∃ n dn, unix2dosfn un gen = some (n, dn) ∧ dn.length = 11 ∧
    (n ≠ 0 → un ≠ [0x2e] → un ≠ [0x2e, 0x2e] → FormedName un gen n dn)
  apart : ∀ gen gen' dn dn', 1 ≤ gen → gen ≤ 999999 → 1 ≤ gen' → gen' ≤ 999999 → gen ≠ gen' →
    unix2dosfn un gen = some (3, dn) → unix2dosfn un gen' = some (3, dn') → dn ≠ dn'

theorem findExtension_blanks {cs : List Byte} (cp : Nat) (dp1 : Option Nat) (h : ∀ c ∈ cs, isBlankOrDot c = true) :
    (findExtension cs cp none dp1).1 = none := by
  induction cs generalizing cp dp1 with
  | nil => rfl
  | cons c cs ih =>
    have hc := of_decide_eq_true (h c mem_cons_self)
    have hrest (c' : Byte) (hc' : c' ∈ cs) := h c' (mem_cons_of_mem _ hc')
    rw [findExtension]
    split
    · exact ih _ _ hrest
    · next hdot =>
      rw [if_pos (hc.resolve_right hdot)]
      exact ih _ _ hrest

theorem stem_blanks {un : List Byte} (h : un.all isBlankOrDot = true) : stem un = [] := by
  have hall := all_eq_true.mp h
  unfold stem
  rw [findExtension_blanks 1 none fun c hc => hall c (mem_of_mem_drop hc)]
  exact rdropWhile_eq_nil_iff.mpr hall

theorem LeadingBlank.not_all {un : List Byte} (h : LeadingBlank un) : un.all isBlankOrDot = false := by
  by_contra hall
  have hhead := h.2
  rw [stem_blanks (Bool.eq_true_of_not_eq_false hall)] at hhead
  cases hhead

section
variable {un : List Byte}

theorem unix2dosfn_blanks (h : un.all isBlankOrDot = true) (gen : Nat) :
    ∃ n dn, unix2dosfn un gen = some (n, dn) ∧ dn.length = 11 ∧ n ≠ 3 ∧ (n ≠ 0 → un = [0x2e] ∨ un = [0x2e, 0x2e]) := by
  unfold unix2dosfn
  split
  · next hdot => exact ⟨_, _, rfl, rfl, by split <;> decide, fun _ => .inl hdot⟩
  split
  · next hdots => exact ⟨_, _, rfl, rfl, by split <;> decide, fun _ => .inr hdots⟩
  · exact ⟨_, _, rfl, rfl, by decide, fun hne => absurd rfl hne⟩

theorem padded_length {b : Byte} {rest ext : List Byte} (hrest : rest.length < 8) (hext : ext.length ≤ 3) :
    (padTo 11 (padTo 8 (b :: rest) ++ ext)).length = 11 := by
  rw [padTo_length, length_append, padTo_length, length_cons]
  omega

theorem mem_padTo {n : Nat} {dn : List Byte} {x : Byte} (h : x ∈ padTo n dn) : x ∈ dn ∨ x = 0x20 := by
  rcases mem_append.mp h with h | h
  · exact .inl h
  · exact .inr (eq_of_mem_replicate h)

theorem answer_of_not_leadingBlank (h : ¬ LeadingBlank un) (gen : Nat) : ∃ n dn, unix2dosfn un gen = some (n, dn) ∧ dn.length = 11 ∧
    (n ≠ 0 → un ≠ [0x2e] → un ≠ [0x2e, 0x2e] → FormedName un gen n dn) := by
  by_cases hall : un.all isBlankOrDot = true
  · obtain ⟨n, dn, heq, hlen, -, hdots⟩ := unix2dosfn_blanks hall gen
    refine ⟨n, dn, heq, hlen, fun hne hdot hdots' => ?_⟩
    rcases hdots hne with hun | hun
    · exact absurd hun hdot
    · exact absurd hun hdots'
  rw [unix2dosfn_eq (Bool.eq_false_iff.mpr hall)]
  obtain ⟨-, hextlen, hext⟩ := convertExtension_spec un
  obtain ⟨-, b, rest, hname, hrest, he5, hzero, hblank, hconverted⟩ := convertStem_spec un
  rw [hname]
  have hfirst : b ≠ 0xe5 ∧ b ≠ 0x20 ∧ b ≠ 0 := ⟨he5, fun hb => h (hblank.mp hb), hzero⟩
  have hhead (x : Byte) (hx : some b = some x) : x ≠ 0xe5 ∧ x ≠ 0x20 ∧ x ≠ 0 := some.inj hx ▸ hfirst
  split
  · have hplain (n : Nat) : FormedName un gen n (padTo 11 (padTo 8 (b :: rest) ++ (convertExtension un).2)) := by
      refine ⟨hhead, fun x hx => .inl ?_⟩
      have hx : x ∈ rest ++ replicate (8 - (rest.length + 1)) 0x20 ++ (convertExtension un).2 ++
          replicate (11 - (padTo 8 (b :: rest) ++ (convertExtension un).2).length) 0x20 := hx
      rw [mem_append, mem_append, mem_append] at hx
      rcases hx with ((hx | hx) | hx) | hx
      · exact hconverted x hx
      · exact .inl (eq_of_mem_replicate hx)
      · exact hext x hx
      · exact .inl (eq_of_mem_replicate hx)
    split
    · exact ⟨_, _, rfl, padded_length hrest hextlen, fun _ _ _ => hplain _⟩
    · exact ⟨_, _, rfl, padded_length hrest hextlen, fun _ _ _ => hplain _⟩
  have hpad : (padTo 3 (convertExtension un).2).length = 3 := by
    rw [padTo_length]
    omega
  rcases insertGen_spec (b := b) hrest (padTo 3 (convertExtension un).2) gen with ⟨-, heq⟩ | ⟨-, ⟨hb, -⟩ | ⟨mid, m, heq, hlen, hmid⟩⟩
  · refine ⟨_, _, heq, ?_, fun hne => absurd rfl hne⟩
    rw [length_append, padTo_length, length_cons]
    omega
  · exact absurd hb hfirst.2.1
  refine ⟨_, _, heq, by rw [length_append, hlen, hpad], fun _ _ _ => ⟨hhead, fun x hx => ?_⟩⟩
  have hx : x ∈ mid ++ 0x7e :: (genDigits 6 gen []).2 ++ replicate m 0x20 ++ padTo 3 (convertExtension un).2 := hx
  rw [mem_append, mem_append, mem_append] at hx
  rcases hx with ((hx | hx) | hx) | hx
  · left
    rcases hmid x hx with hx | hx
    · exact hconverted x hx
    · exact .inl hx
  · exact .inr ⟨rfl, hx⟩
  · exact .inl (.inl (eq_of_mem_replicate hx))
  left
  rcases mem_padTo hx with hx | hx
  · exact hext x hx
  · exact .inl hx

theorem generation_read {gen : Nat} {dn : List Byte} (hgen : gen ≤ 999999) (h : unix2dosfn un gen = some (3, dn)) :
    readGen (genText (dn.take 8)) = gen := by
  have hall : un.all isBlankOrDot = false := by
    by_contra hall
    obtain ⟨n, dn', heq, -, hne, -⟩ := unix2dosfn_blanks (Bool.eq_true_of_not_eq_false hall) gen
    rw [heq] at h
    exact hne (congrArg Prod.fst (some.inj h))
  rw [unix2dosfn_eq hall] at h
  obtain ⟨-, b, rest, hname, hrest, -⟩ := convertStem_spec un
  rw [hname] at h
  split at h
  · next hconv =>
    split at h
    · cases h
    · exact absurd (congrArg Prod.fst (some.inj h)) hconv
  rcases insertGen_spec (b := b) hrest (padTo 3 (convertExtension un).2) gen with ⟨hlarge, -⟩ | ⟨hlt, ⟨-, heq⟩ | ⟨mid, m, heq, hlen, -⟩⟩
  · omega
  · rw [heq] at h
    cases h
  rw [heq] at h
  have hdn : _ = dn := congrArg Prod.snd (some.inj h)
  obtain ⟨digits, hdigits, -, hdigit, hread⟩ := genDigits_spec 6 gen []
  rw [append_nil] at hdigits
  rw [← hdn, take_left' hlen, hdigits, genText_insert hdigit]
  exact hread hlt

theorem within_name (un : List Byte) : ∀ dp ∈ (findExtension (un.drop 1) 1 none none).1, dp ≤ un.length ∧
    ∀ dp1 ∈ (findExtension (un.drop 1) 1 none none).2, dp ≤ dp1 ∧ dp1 ≤ un.length := by
  intro dp hdp
  cases un with
  | nil => cases hdp
  | cons c cs =>
    obtain ⟨hlt, hle⟩ := @findExtension_within cs 1 none none (fun d hd => (nomatch hd)) fun e he => (nomatch he)
    rw [add_comm] at hlt hle
    refine ⟨le_of_lt (hlt dp hdp), fun dp1 hdp1 => ?_⟩
    obtain ⟨hend, hbefore⟩ := hle dp1 hdp1
    exact ⟨hbefore dp hdp, hend⟩

end

/-- A name gets well-formed 8.3 names, and another one for each generation number, if and only if its stem
does not have at most 8 characters and a blank before all others that have a place. -/
theorem dos_name_wellFormed (un : List Byte) : Named un ↔ ¬ LeadingBlank un := by
  refine ⟨fun h hblank => ?_, fun h => ⟨within_name un, answer_of_not_leadingBlank h, fun gen gen' dn dn' _ hgen _ hgen' hne heq heq' hsame => ?_⟩⟩
  · have hall := hblank.not_all
    obtain ⟨n, dn, heq, -, hformed⟩ := h.answer 0
    obtain ⟨hconv, b, rest, hname, hrest, -, -, hb, -⟩ := convertStem_spec un
    have hspace := hb.mpr hblank
    rw [unix2dosfn_eq hall, hname] at heq
    have hfirst (tail : List Byte) (hne : n ≠ 0) (hdn : dn = b :: tail) : False := by
      refine ((hformed hne ?_ ?_).first b (by rw [hdn]; rfl)).2.1 hspace
      · rintro rfl
        exact absurd hall (by decide)
      · rintro rfl
        exact absurd hall (by decide)
    split at heq
    · cases heq
      exact hfirst _ hconv rfl
    rcases insertGen_spec (b := b) hrest (padTo 3 (convertExtension un).2) 0 with ⟨hlarge, -⟩ | ⟨-, ⟨-, hnone⟩ | ⟨mid, m, hins, -⟩⟩
    · exact absurd hlarge (by decide)
    · rw [hnone] at heq
      cases heq
    rw [hins] at heq
    cases heq
    exact hfirst _ (by decide) rfl
  · have hread := generation_read hgen heq
    rw [hsame, generation_read hgen' heq'] at hread
    exact hne hread.symm

/-- ` a` becomes a name that begins with a blank, and the search for the end of a blank before a character
that is dropped leaves the array. -/
theorem dos_name_blank : unix2dosfn [0x20, 0x61] 1 = some (2, 0x20 :: 0x41 :: replicate 9 0x20) ∧
    unix2dosfn [0x20, 0x01] 1 = none ∧ ¬ Named [0x20, 0x61] := by
  refine ⟨by decide, by decide, fun h => ?_⟩
  obtain ⟨n, dn, heq, -, hformed⟩ := h.answer 1
  cases heq
  exact ((hformed (by decide) (by decide) (by decide)).first _ rfl).2.1 rfl

end NetBSD.Fs.Msdosfs
