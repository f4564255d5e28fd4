import Mathlib.Algebra.Ring.Nat
import NetBSD.Fs.Msdosfs.Conv
import Mathlib.Data.List.TakeDrop

/-! A file that was created under a long name.

`createde` writes the entries of the name, a lookup compares them with the name and a read of
the directory puts the name together again. `long_name_found` says for which names both
succeed: those that end in neither a blank nor a dot and have at most 247 characters, with one
character of UTF-8 excepted on a big endian machine. -/
namespace NetBSD.Fs.Msdosfs
open List Nat

/-- The bytes that spell a character. -/
def bytesOf (utf8 : Bool) (c : Nat) : List Byte :=
  if utf8 = false ∨ c ≤ 0x7f then [byte c]
  else if c ≤ 0x7ff then [byte (0xc0 + c / 64), byte (0x80 + c % 64)]
  else [byte (0xe0 + c / 4096), byte (0x80 + c / 64 % 64), byte (0x80 + c % 64)]

/-- The name is the characters: bytes, or the ones of the first plane in UTF-8. -/
structure Spells (utf8 : Bool) (text : List Nat) (un : List Byte) : Prop where
  eq : un = text.flatMap (bytesOf utf8)
  lt : ∀ c ∈ text, c < if utf8 then 0x10000 else 0x100

theorem spells_char8 (un : List Byte) : Spells false (un.map Fin.val) un := by
  refine ⟨?_, ?_⟩
  · induction un with
    | nil => rfl
    | cons b un ih =>
      rw [map_cons, flatMap_cons, ← ih]
      simp [bytesOf, byte]
  · intro c hc
    obtain ⟨b, -, rfl⟩ := mem_map.1 hc
    exact b.isLt

theorem byte_val (n : Nat) (h : n < 256) : (byte n).val = n := mod_eq_of_lt h

theorem byte_eq_zero (n : Nat) (h : n < 256) : byte n = 0 ↔ n = 0 := by
  rw [← Fin.val_inj, byte_val n h]
  rfl

theorem htole16_htole16 (be : Bool) (w : Nat) (h : w < 65536) : htole16 be (htole16 be w) = w := by
  cases be with
  | false => rfl
  | true =>
    have hhigh : (w % 256 * 256 + w / 256 % 256) / 256 = w % 256 := by omega
    show (w % 256 * 256 + w / 256 % 256) % 256 * 256 + (w % 256 * 256 + w / 256 % 256) / 256 % 256 = w
    omega

theorem htole16_eq_zero (be : Bool) (w : Nat) (h : w < 65536) : htole16 be w = 0 ↔ w = 0 := by
  unfold htole16
  split <;> omega

theorem htole16_slash (be : Bool) (c : Nat) (h : c < 65536) : htole16 be c = 0x2f ↔ if be then c = 0x2f00 else c = 0x2f := by
  unfold htole16
  cases be with
  | false => simp
  | true => simp; omega

/-! ### Bytes of a character -/

theorem bytesOf_ne_nil (utf8 : Bool) (c : Nat) : bytesOf utf8 c ≠ [] := by
  unfold bytesOf
  split
  · simp
  · split <;> simp

theorem bytesOf_length_le (c : Nat) : (bytesOf true c).length ≤ 3 := by
  unfold bytesOf
  split
  · simp
  · split <;> simp

theorem zero_notMem_bytesOf (utf8 : Bool) (c : Nat) (h : c < if utf8 then 0x10000 else 0x100) (hc : c ≠ 0) : (0 : Byte) ∉ bytesOf utf8 c := by
  have key : ∀ n, n < 256 → n ≠ 0 → (0 : Byte) ≠ byte n := by
    intro n hn h0 he
    exact h0 ((byte_eq_zero n hn).1 he.symm)
  unfold bytesOf
  split
  case isTrue h1 =>
    have : c < 256 := by cases utf8 <;> simp at h h1 <;> omega
    simpa using key c this hc
  case isFalse h1 =>
    have : c < 65536 := by cases utf8 <;> simp at h <;> omega
    split
    · simp only [mem_cons, not_mem_nil, or_false, not_or]
      exact ⟨key _ (by omega) (by omega), key _ (by omega) (by omega)⟩
    · simp only [mem_cons, not_mem_nil, or_false, not_or]
      exact ⟨key _ (by omega) (by omega), key _ (by omega) (by omega), key _ (by omega) (by omega)⟩

theorem and_1f (n : Nat) : n &&& 0x1f = n % 32 := and_two_pow_sub_one_eq_mod n 5

theorem and_3f (n : Nat) : n &&& 0x3f = n % 64 := and_two_pow_sub_one_eq_mod n 6

theorem shiftLeft_or (a b k : Nat) (h : b < 2 ^ k) : a <<< k ||| b = a * 2 ^ k + b := by
  rw [← shiftLeft_add_eq_or_of_lt h, shiftLeft_eq]

theorem utf8ucs2_bytesOf (c : Nat) (h : c < 0x10000) (rest : List Byte) :
    utf8ucs2 (bytesOf true c ++ rest) = (((bytesOf true c).length : Int), c) := by
  unfold bytesOf
  simp only [Bool.true_eq_false, false_or]
  split
  case isTrue h1 => simp [utf8ucs2, byte_val c (by omega), h1]
  case isFalse h1 =>
    split
    case isTrue h2 =>
      have hb := byte_val (0xc0 + c / 64) (by omega)
      have hb' := byte_val (0x80 + c % 64) (by omega)
      have e1 : (0xc0 + c / 64) &&& 0x1f = c / 64 := by rw [and_1f]; omega
      have e2 : (0x80 + c % 64) &&& 0x3f = c % 64 := by rw [and_3f]; omega
      have e3 : (c / 64) <<< 6 ||| c % 64 = c := by rw [shiftLeft_or _ _ 6 (by omega)]; omega
      simp only [cons_append, nil_append, utf8ucs2, hb, hb', e1, e2, e3]
      rw [if_neg (by omega), if_pos (by omega)]
      simp [mod_eq_of_lt h]
    case isFalse h2 =>
      have hb := byte_val (0xe0 + c / 4096) (by omega)
      have hb' := byte_val (0x80 + c / 64 % 64) (by omega)
      have hb'' := byte_val (0x80 + c % 64) (by omega)
      have e1 : (0xe0 + c / 4096) &&& 0x1f = c / 4096 := by rw [and_1f]; omega
      have e2 : (0x80 + c / 64 % 64) &&& 0x3f = c / 64 % 64 := by rw [and_3f]; omega
      have e2' : (0x80 + c % 64) &&& 0x3f = c % 64 := by rw [and_3f]; omega
      have e3 : (c / 4096) <<< 12 ||| (c / 64 % 64) <<< 6 ||| c % 64 = c := by
        rw [Nat.or_assoc, shiftLeft_or _ _ 6 (by omega), shiftLeft_or _ _ 12 (by omega)]
        omega
      simp only [cons_append, nil_append, utf8ucs2, hb, hb', hb'', e1, e2, e2', e3]
      rw [if_neg (by omega), if_neg (by omega), if_pos (by omega)]
      simp [mod_eq_of_lt h]

theorem ucs2utf8_htole16 (be : Bool) (c n : Nat) (h : c < 0x10000) (hn : 3 ≤ n) : ucs2utf8 be (htole16 be c) n = bytesOf true c := by
  have e1 : ∀ x, x < 64 → 0xc0 ||| x = 0xc0 + x := fun x hx => shiftLeft_or 3 x 6 hx
  have e2 : ∀ x, x < 64 → 0x80 ||| x = 0x80 + x := fun x hx => shiftLeft_or 2 x 6 hx
  have e3 : ∀ x, x < 16 → 0xe0 ||| x = 0xe0 + x := fun x hx => shiftLeft_or 14 x 4 hx
  have s6 : c >>> 6 = c / 64 := shiftRight_eq_div_pow c 6
  have s12 : c >>> 12 = c / 4096 := shiftRight_eq_div_pow c 12
  simp only [ucs2utf8, bytesOf, htole16_htole16 be c h, s6, s12, and_3f, Bool.true_eq_false, false_or]
  split
  · rw [if_neg (by omega)]
  split
  · rw [if_neg (by omega), e1 _ (by omega), e2 _ (by omega)]
  · rw [if_neg (by omega), e3 _ (by omega), e2 _ (by omega), e2 _ (by omega)]

theorem utf8ucs2str_text (be : Bool) (text : List Nat) (m : Nat) (hm : text.length ≤ m) (hlt : ∀ c ∈ text, c < 0x10000) (h0 : 0 ∉ text) :
    utf8ucs2str be m (text.flatMap (bytesOf true)) = text.map (htole16 be) := by
  induction text generalizing m with
  | nil => cases m <;> simp [utf8ucs2str]
  | cons c text ih =>
    cases m with
    | zero => simp at hm
    | succ m =>
      rw [mem_cons, not_or] at h0
      have hc : c < 0x10000 := hlt c mem_cons_self
      have hz : (0 : Byte) ∉ bytesOf true c := zero_notMem_bytesOf true c hc (Ne.symm h0.1)
      obtain ⟨b, bs, hb⟩ := exists_cons_of_ne_nil (bytesOf_ne_nil true c)
      have hhead : (bytesOf true c ++ text.flatMap (bytesOf true)).head? = some b := by simp [hb]
      have hb0 : b ≠ 0 := by
        intro he
        rw [hb, he] at hz
        exact hz mem_cons_self
      rw [flatMap_cons, utf8ucs2str, hhead, if_neg (by simp [hb0]), utf8ucs2_bytesOf c hc]
      have hpos : ¬ ((bytesOf true c).length : Int) ≤ 0 := by simp [hb]
      simp only [if_neg hpos, Int.toNat_natCast, drop_left, map_cons]
      rw [ih m (by simpa using hm) (fun d hd => hlt d (mem_cons_of_mem _ hd)) h0.2]

theorem char8ucs2str_text (be : Bool) (text : List Nat) (m : Nat) (hm : text.length ≤ m) (hlt : ∀ c ∈ text, c < 0x100) (h0 : 0 ∉ text) :
    char8ucs2str be m (text.flatMap (bytesOf false)) = text.map (htole16 be) := by
  induction text generalizing m with
  | nil => cases m <;> simp [char8ucs2str]
  | cons c text ih =>
    cases m with
    | zero => simp at hm
    | succ m =>
      rw [mem_cons, not_or] at h0
      have hc : c < 256 := hlt c mem_cons_self
      have hne : byte c ≠ 0 := fun he => h0.1 ((byte_eq_zero c hc).1 he).symm
      rw [flatMap_cons, show bytesOf false c = [byte c] from rfl, singleton_append, char8ucs2str, if_neg hne, byte_val c hc, map_cons,
        ih m (by simpa using hm) (fun d hd => hlt d (mem_cons_of_mem _ hd)) h0.2]

theorem ucs2str_text (cs : Charset) (text : List Nat) (un : List Byte) (h : Spells cs.utf8 text un)
    (hm : text.length ≤ 255) (h0 : 0 ∉ text) : cs.ucs2str un = text.map (htole16 cs.be) := by
  obtain ⟨rfl, hlt⟩ := h
  unfold Charset.ucs2str
  cases hu : cs.utf8 with
  | true => exact utf8ucs2str_text cs.be text 255 hm (by simpa [hu] using hlt) h0
  | false => exact char8ucs2str_text cs.be text 255 hm (by simpa [hu] using hlt) h0

def blankOrDot (c : Nat) : Bool := c = 0x20 ∨ c = 0x2e

theorem isBlankOrDot_byte (c : Nat) (h : c < 256) : isBlankOrDot (byte c) = blankOrDot c := by
  have hval (n : Byte) : byte c = n ↔ c = n.val := by rw [← Fin.val_inj, byte_val c h]
  unfold isBlankOrDot blankOrDot
  rw [decide_eq_decide, hval, hval]
  rfl

theorem bytesOf_concat (utf8 : Bool) (c : Nat) (h : c < if utf8 then 0x10000 else 0x100) :
    ∃ bs b, bytesOf utf8 c = bs ++ [b] ∧ isBlankOrDot b = blankOrDot c ∧ (blankOrDot c = true → bs = []) := by
  unfold bytesOf
  split
  case isTrue h1 =>
    have : c < 256 := by cases utf8 <;> simp at h h1 <;> omega
    exact ⟨[], byte c, rfl, isBlankOrDot_byte c this, fun _ => rfl⟩
  case isFalse h1 =>
    have hc : blankOrDot c = false := by simp [blankOrDot]; omega
    have hb : isBlankOrDot (byte (0x80 + c % 64)) = blankOrDot c := by
      rw [isBlankOrDot_byte _ (by omega), hc]
      simp [blankOrDot]
      omega
    split
    · exact ⟨[_], _, rfl, hb, by simp [hc]⟩
    · exact ⟨[_, _], _, rfl, hb, by simp [hc]⟩

theorem rdropWhile_text (utf8 : Bool) (text : List Nat) (hlt : ∀ c ∈ text, c < if utf8 then 0x10000 else 0x100) :
    (text.flatMap (bytesOf utf8)).rdropWhile isBlankOrDot = (text.rdropWhile blankOrDot).flatMap (bytesOf utf8) := by
  induction text using reverseRecOn with
  | nil => rfl
  | append_singleton text c ih =>
    obtain ⟨bs, b, hbs, hb, hnil⟩ := bytesOf_concat utf8 c (hlt c (by simp))
    have ih := ih fun d hd => hlt d (by simp [hd])
    rw [flatMap_append, flatMap_singleton, hbs, ← append_assoc, rdropWhile_concat, rdropWhile_concat, hb]
    cases hc : blankOrDot c with
    | true => simp [hnil hc, ih]
    | false => simp [hbs]

theorem Spells.strip {utf8 : Bool} {text : List Nat} {un : List Byte} (h : Spells utf8 text un) :
    Spells utf8 (text.rdropWhile blankOrDot) (un.rdropWhile isBlankOrDot) where
  eq := by rw [h.eq, rdropWhile_text utf8 text h.lt]
  lt := fun c hc => h.lt c (( rdropWhile_prefix _ _).subset hc)

/-- A name that ends in no blank and no dot is spelt by a text that does not, and the other way
round. -/
theorem Spells.strip_iff {utf8 : Bool} {text : List Nat} {un : List Byte} (h : Spells utf8 text un) :
    un.rdropWhile isBlankOrDot = un ↔ text.rdropWhile blankOrDot = text := by
  constructor
  · intro hun
    obtain ⟨rest, hrest⟩ := rdropWhile_prefix blankOrDot text
    have heq := h.strip.eq
    rw [hun, h.eq, ← hrest, flatMap_append] at heq
    have hnil : rest.flatMap (bytesOf utf8) = [] := by simpa [hrest] using heq
    cases rest with
    | nil => simpa using hrest
    | cons c rest =>
      rw [flatMap_cons, append_eq_nil_iff] at hnil
      exact absurd hnil.1 (bytesOf_ne_nil utf8 c)
  · intro htext
    rw [h.strip.eq, htext, h.eq]

theorem unix2dosfn_blank (un : List Byte) (gen : Nat) (h : un.all isBlankOrDot) (r : Nat) (dn : List Byte)
    (hr : unix2dosfn un gen = some (r, dn)) : r ≤ 1 := by
  unfold unix2dosfn at hr
  split at hr
  · cases hr
    split <;> omega
  split at hr
  · cases hr
    split <;> omega
  · cases hr
    omega

/-! ### Entries -/

section Entries
variable (cs : Charset)

def words (be : Bool) (text : List Nat) : List Nat := ucs2pad (text.map (htole16 be)) WIN_MAXLEN

def entryOf (be : Bool) (text : List Nat) (chksum cnt : Nat) : Winentry where
  cnt := if cnt * 13 < text.length then cnt else cnt ||| WIN_LAST
  chksum := chksum
  part := ((words be text).drop ((cnt - 1) * 13)).take 13

theorem words_length (be : Bool) (text : List Nat) (h : text.length ≤ 255) : (words be text).length = 255 := by
  unfold words ucs2pad
  rw [show WIN_MAXLEN = 255 from rfl, length_map]
  split <;> simp <;> omega

theorem words_eq (be : Bool) (text : List Nat) (h : text.length ≤ 247) :
    words be text = text.map (htole16 be) ++ 0 :: replicate (254 - text.length) 0xffff := by
  unfold words ucs2pad
  rw [if_pos (by simp; omega)]
  simp

theorem words_drop (be : Bool) (text : List Nat) (h : text.length ≤ 247) (i : Nat) (hi : i ≤ text.length) : (words be text).drop i =
      (text.drop i).map (htole16 be) ++ 0 :: replicate (254 - text.length) 0xffff := by
  rw [words_eq be text h, drop_append_of_le_length (by simpa using hi), map_drop]

variable {cs} {text : List Nat} {un : List Byte}

section
variable (hs : Spells cs.utf8 text (un.rdropWhile isBlankOrDot)) (h0 : 0 ∉ text)
include hs h0

theorem unix2winfn_eq (hlen : text.length ≤ 255) (chksum cnt : Nat) (hcnt : 1 ≤ cnt) : cs.unix2winfn un cnt chksum =
      if cnt ≤ 19 then some (entryOf cs.be text chksum cnt, decide (cnt * 13 < text.length)) else none := by
  have hi : (cnt - 1) * 13 + 13 = cnt * 13 := by omega
  have hw := words_length cs.be text hlen
  unfold words at hw
  unfold Charset.unix2winfn
  simp only [ucs2str_text cs text _ hs hlen h0, hw, hi, length_map]
  by_cases hle : cnt ≤ 19
  · rw [if_neg (by omega), if_pos hle]
    by_cases hmore : cnt * 13 < text.length
    · simp [entryOf, words, hmore, if_true, decide_true]
    · simp [entryOf, words, hmore, if_false, decide_false]
  · rw [if_pos (by omega), if_neg hle]

theorem winSlotCnt_eq (hlen : text.length ≤ 255) : cs.winSlotCnt un = (text.length + 12) / 13 := by
  have hws := ucs2str_text cs text _ hs hlen h0
  unfold Charset.ucs2str at hws
  unfold Charset.winSlotCnt
  cases hu : cs.utf8 with
  | true =>
    rw [hu, if_pos rfl] at hws
    simp [hws]
  | false =>
    have heq := hs.eq
    rw [hu] at heq
    have hone : ∀ c, bytesOf false c = [byte c] := fun _ => rfl
    simp [heq, hone]

theorem createdeSlots_eq (hlen : text.length ≤ 247) (chksum m cnt : Nat) (hcnt : 1 ≤ cnt) (hm : m + cnt = (text.length + 12) / 13 + 1) :
    cs.createdeSlots un chksum m cnt = some ((List.range' cnt m).map (entryOf cs.be text chksum)) := by
  induction m generalizing cnt with
  | zero => rfl
  | succ m ih =>
    rw [Charset.createdeSlots, unix2winfn_eq hs h0 (by omega) chksum cnt hcnt, if_pos (by omega), range'_succ]
    by_cases hmore : cnt * 13 < text.length
    · simp [hmore, ih (cnt + 1) (by omega) (by omega)]
    · have hz : m = 0 := by omega
      simp [hmore, hz]

theorem createdeSlots_none (hlen : text.length ≤ 255) (hlong : 247 < text.length) (chksum m cnt : Nat) (hcnt : 1 ≤ cnt)
    (hm : m + cnt = 21) (hpos : 0 < m) : cs.createdeSlots un chksum m cnt = none := by
  induction m generalizing cnt with
  | zero => omega
  | succ m ih =>
    rw [Charset.createdeSlots, unix2winfn_eq hs h0 hlen chksum cnt hcnt]
    by_cases hle : cnt ≤ 19
    · have hmore : cnt * 13 < text.length := by omega
      simp [hle, hmore, ih (cnt + 1) (by omega) (by omega) (by omega)]
    · simp [hle]

theorem createde_eq (hlen : text.length ≤ 247) (chksum : Nat) : cs.createde un chksum =
      some ((List.range' 1 ((text.length + 12) / 13)).map (entryOf cs.be text chksum)).reverse := by
  rw [Charset.createde, winSlotCnt_eq hs h0 (by omega), createdeSlots_eq hs h0 hlen chksum _ 1 (by omega) rfl]
  rfl

theorem createde_none (hlen : text.length ≤ 255) (hlong : 247 < text.length) (chksum : Nat) : cs.createde un chksum = none := by
  rw [Charset.createde, winSlotCnt_eq hs h0 hlen, createdeSlots_none hs h0 hlen hlong chksum _ 1 (by omega) (by omega) (by omega)]
  rfl

end

section
variable (be : Bool)
include be

theorem ucs2match_take (foldmap : List Nat) (n : Nat) (ws : List Nat) (h : n ≤ ws.length) : ucs2match be foldmap n ws (ws.take n) = some true := by
  induction n generalizing ws with
  | zero => simp [ucs2match]
  | succ n ih =>
    cases ws with
    | nil => simp at h
    | cons w ws => simp [ucs2match, ih ws (by simpa using h)]

theorem char8match_take (n : Nat) (text ws : List Nat) (hlt : ∀ c ∈ text, c < 256) (h : n ≤ (text.map (htole16 be) ++ 0 :: ws).length) :
    char8match be n (text.map (htole16 be) ++ 0 :: ws) ((text.map (htole16 be) ++ 0 :: ws).take n) = some true := by
  induction text generalizing n with
  | nil =>
    cases n with
    | zero => simp [char8match]
    | succ n => simp [char8match, (htole16_eq_zero be 0 (by omega)).2]
  | cons c text ih =>
    have hc : c < 256 := hlt c mem_cons_self
    cases n with
    | zero => simp [char8match]
    | succ n =>
      have htail := ih n (fun d hd => hlt d (mem_cons_of_mem _ hd)) (by simpa using h)
      rw [map_cons, cons_append, take_succ_cons, char8match]
      simp only [htole16_htole16 be c (by omega), or_self, ne_eq, not_true, if_false]
      split
      · simp
      · rw [if_neg (by omega), htail]

theorem ucs2match_end (foldmap : List Nat) (n : Nat) (text : List Nat) (a : Nat) (ws₁ ws₂ : List Nat)
    (ha : a ≠ 0) (h : text.length < n) (hlt : ∀ c ∈ text, c < 0x10000) (h0 : 0 ∉ text) :
    ucs2match be foldmap n (text.map (htole16 be) ++ a :: ws₁) ((text.map (htole16 be) ++ 0 :: ws₂).take n) = some false := by
  induction text generalizing n with
  | nil =>
    cases n with
    | zero => simp at h
    | succ n => simp [ucs2match, ha]
  | cons c text ih =>
    rw [mem_cons, not_or] at h0
    have hc : htole16 be c ≠ 0 := by
      rw [Ne, htole16_eq_zero be c (hlt c mem_cons_self)]
      exact Ne.symm h0.1
    cases n with
    | zero => simp at h
    | succ n =>
      have htail := ih n (by simpa using h) (fun d hd => hlt d (mem_cons_of_mem _ hd)) h0.2
      simp [ucs2match, hc, htail]

theorem char8match_end (n : Nat) (text : List Nat) (a : Nat) (ws₁ ws₂ : List Nat)
    (ha : htole16 be a ≠ 0) (h : text.length < n) (hlt : ∀ c ∈ text, c < 256) (h0 : 0 ∉ text) :
    char8match be n (text.map (htole16 be) ++ a :: ws₁) ((text.map (htole16 be) ++ 0 :: ws₂).take n) = some false := by
  have hzero : htole16 be 0 = 0 := (htole16_eq_zero be 0 (by omega)).2 rfl
  induction text generalizing n with
  | nil =>
    cases n with
    | zero => simp at h
    | succ n => simp [char8match, ha, hzero]
  | cons c text ih =>
    rw [mem_cons, not_or] at h0
    have hc : c < 256 := hlt c mem_cons_self
    cases n with
    | zero => simp at h
    | succ n =>
      have htail := ih n (by simpa using h) (fun d hd => hlt d (mem_cons_of_mem _ hd)) h0.2
      rw [map_cons, cons_append, cons_append, take_succ_cons, char8match]
      simp only [htole16_htole16 be c (by omega), or_self, ne_eq, not_true, if_false]
      rw [if_neg (Ne.symm h0.1), if_neg (by omega), htail]

theorem ucs2utf8str_take (text ws : List Nat) (n m : Nat) (hm : 3 * n ≤ m) (hlt : ∀ c ∈ text, c < 0x10000) (h0 : 0 ∉ text) :
    ucs2utf8str be ((text.map (htole16 be) ++ 0 :: ws).take n) m = (text.take n).flatMap (bytesOf true) := by
  induction text generalizing n m with
  | nil => cases n <;> simp [ucs2utf8str]
  | cons c text ih =>
    cases n with
    | zero => simp [ucs2utf8str]
    | succ n =>
      rw [mem_cons, not_or] at h0
      have hc : c < 0x10000 := hlt c mem_cons_self
      have hw : htole16 be c ≠ 0 := by
        rw [Ne, htole16_eq_zero be c hc]
        exact Ne.symm h0.1
      have hle := bytesOf_length_le c
      have htail := ih n (m - (bytesOf true c).length) (by omega) (fun d hd => hlt d (mem_cons_of_mem _ hd)) h0.2
      rw [map_cons, cons_append, take_succ_cons, ucs2utf8str, if_neg hw,
        ucs2utf8_htole16 be c m hc (by omega), if_neg (bytesOf_ne_nil true c), htail, take_succ_cons,
        flatMap_cons]

theorem ucs2char8str_take (text ws : List Nat) (n m : Nat) (hm : n ≤ m) (hlt : ∀ c ∈ text, c < 256) (h0 : 0 ∉ text) :
    ucs2char8str be ((text.map (htole16 be) ++ 0 :: ws).take n) m = (text.take n).flatMap (bytesOf false) := by
  induction text generalizing n m with
  | nil => cases n <;> simp [ucs2char8str]
  | cons c text ih =>
    cases n with
    | zero => simp [ucs2char8str]
    | succ n =>
      rw [mem_cons, not_or] at h0
      have hc : c < 256 := hlt c mem_cons_self
      have hw : htole16 be c ≠ 0 := by
        rw [Ne, htole16_eq_zero be c (by omega)]
        exact Ne.symm h0.1
      have htail := ih n (m - 1) (by omega) (fun d hd => hlt d (mem_cons_of_mem _ hd)) h0.2
      rw [map_cons, cons_append, take_succ_cons, ucs2char8str, htole16_htole16 be c (by omega), if_neg (by omega), htail]
      rfl

end

/-! ### One entry -/

theorem entryOf_last (be : Bool) (text : List Nat) (chksum cnt : Nat) (hcnt : cnt < 20) :
    (entryOf be text chksum cnt).cnt &&& WIN_LAST ≠ 0 ↔ text.length ≤ cnt * 13 := by
  have hbits : ∀ cnt < 20, cnt &&& 0x40 = 0 ∧ (cnt ||| 0x40) &&& 0x40 = 0x40 := by decide
  obtain ⟨h1, h2⟩ := hbits cnt hcnt
  unfold entryOf
  split
  case isTrue h => simp [h1, h]
  case isFalse h => simpa [h2] using h

theorem entryOf_cnt (be : Bool) (text : List Nat) (chksum cnt : Nat) (hcnt : cnt < 20) : (entryOf be text chksum cnt).cnt &&& WIN_CNT = cnt := by
  have hbits : ∀ cnt < 20, cnt &&& 0x3f = cnt ∧ (cnt ||| 0x40) &&& 0x3f = cnt := by decide
  obtain ⟨h1, h2⟩ := hbits cnt hcnt
  unfold entryOf
  split
  · exact h1
  · exact h2

/-- The comparison with the words from `i` on. -/
def segmentMatch (cs : Charset) (text : List Nat) (i : Nat) (part : List Nat) : Option Bool :=
  if cs.utf8 then ucs2match cs.be cs.foldmap 13 ((words cs.be text).drop i) part
  else char8match cs.be 13 ((words cs.be text).drop i) part

theorem winChkName_eq (hs : Spells cs.utf8 text un) (h0 : 0 ∉ text) (hlen : text.length ≤ 255)
    (wep : Winentry) (cnt : Nat) (hcnt : 1 ≤ cnt) (hwep : wep.cnt &&& WIN_CNT = cnt) (before : Int)
    (hbefore : wep.cnt &&& WIN_LAST = 0 → before = wep.chksum) :
    cs.winChkName un wep before =
      if text.length < (cnt - 1) * 13 then some (-1)
      else if wep.cnt &&& WIN_LAST ≠ 0 ∧ cnt * 13 < text.length then some (-1)
      else (segmentMatch cs text ((cnt - 1) * 13) wep.part).map fun ok => if ok then (wep.chksum : Int) else -1 := by
  have hsum : (if wep.cnt &&& WIN_LAST ≠ 0 then (wep.chksum : Int)
      else if before ≠ wep.chksum then -1 else before) = wep.chksum := by
    split
    · rfl
    case isFalse h =>
      rw [not_not] at h
      rw [hbefore h]
      simp
  have hi : ((wep.cnt &&& WIN_CNT : Nat) - 1 : Int) * (WIN_CHARS : Nat) = ((cnt - 1) * 13 : Nat) := by
    rw [show WIN_CHARS = 13 from rfl]
    omega
  have hge : (((cnt - 1) * 13 : Nat) : Int) ≥ (text.length : Int) + 1 ↔ text.length < (cnt - 1) * 13 := by omega
  have hgt : (text.length : Int) - ((cnt - 1) * 13 : Nat) > (13 : Nat) ↔ cnt * 13 < text.length := by omega
  unfold Charset.winChkName segmentMatch words
  simp only [hsum, ucs2str_text cs text un hs hlen h0, length_map, hi, hge, hgt, Int.toNat_natCast]
  rw [if_neg (by omega)]
  have hnn : ¬ (((cnt - 1) * 13 : Nat) : Int) < 0 := by omega
  simp only [hnn, if_false]

theorem winChkName_entryOf (hs : Spells cs.utf8 text un) (h0 : 0 ∉ text) (hlen : text.length ≤ 247)
    (chksum cnt : Nat) (hcnt : 1 ≤ cnt) (hle : (cnt - 1) * 13 < text.length) (before : Int)
    (hbefore : cnt * 13 < text.length → before = chksum) :
    cs.winChkName un (entryOf cs.be text chksum cnt) before = some (chksum : Int) := by
  have hc20 : cnt < 20 := by omega
  have hlast := entryOf_last cs.be text chksum cnt hc20
  have hdrop := words_drop cs.be text hlen ((cnt - 1) * 13) (by omega)
  have hwl : 13 ≤ ((words cs.be text).drop ((cnt - 1) * 13)).length := by
    rw [length_drop, words_length cs.be text (by omega)]
    omega
  have hfound : segmentMatch cs text ((cnt - 1) * 13) (entryOf cs.be text chksum cnt).part = some true := by
    unfold segmentMatch
    cases hu : cs.utf8 with
    | true => exact ucs2match_take cs.be cs.foldmap 13 _ hwl
    | false =>
      have hlt : ∀ c ∈ text.drop ((cnt - 1) * 13), c < 256 := by
        intro c hc
        simpa [hu] using hs.lt c (mem_of_mem_drop hc)
      show char8match cs.be 13 _ (((words cs.be text).drop ((cnt - 1) * 13)).take 13) = some true
      rw [hdrop] at hwl ⊢
      exact char8match_take cs.be 13 _ _ hlt hwl
  rw [winChkName_eq hs h0 (by omega) _ cnt hcnt (entryOf_cnt cs.be text chksum cnt hc20) before, if_neg (by omega), if_neg, hfound]
  · rfl
  · omega
  · intro h
    exact hbefore (by omega)

/-- The last entry of a name does not go with a longer one. -/
theorem winChkName_longer {c : Nat} {rest : List Nat} (hs : Spells cs.utf8 (text ++ c :: rest) un)
    (h0 : 0 ∉ text ++ c :: rest) (hlen : (text ++ c :: rest).length ≤ 255) (hshort : text.length ≤ 247)
    (chksum cnt : Nat) (hcnt : 1 ≤ cnt) (hle : (cnt - 1) * 13 < text.length) (hlast : text.length ≤ cnt * 13)
    (before : Int) : cs.winChkName un (entryOf cs.be text chksum cnt) before = some (-1) := by
  have hc20 : cnt < 20 := by omega
  have hl := (entryOf_last cs.be text chksum cnt hc20).2 hlast
  rw [winChkName_eq hs h0 hlen _ cnt hcnt (entryOf_cnt cs.be text chksum cnt hc20) before (fun h => absurd h hl),
    if_neg (by simp; omega)]
  by_cases hfull : cnt * 13 < (text ++ c :: rest).length
  · rw [if_pos ⟨hl, hfull⟩]
  -- The name goes on inside the segment, where the entry has its terminator.
  have hfull' : text.length < cnt * 13 := by simp at hfull; omega
  rw [if_neg (by simpa using fun _ => by simpa using hfull)]
  have hmem : c ∈ text ++ c :: rest := by simp
  have hc0 : c ≠ 0 := fun h => h0 (h ▸ hmem)
  have hclt : c < 0x10000 := by
    have := hs.lt c hmem
    split at this <;> omega
  have hsub : ∀ d ∈ text.drop ((cnt - 1) * 13), d ∈ text ++ c :: rest := fun d hd =>
    mem_append_left _ (mem_of_mem_drop hd)
  have hd0 : 0 ∉ text.drop ((cnt - 1) * 13) := fun h => h0 (hsub 0 h)
  obtain ⟨ws, hws⟩ : ∃ ws, (words cs.be (text ++ c :: rest)).drop ((cnt - 1) * 13) =
      (text.drop ((cnt - 1) * 13)).map (htole16 cs.be) ++ htole16 cs.be c :: ws := by
    unfold words ucs2pad
    rw [map_append, map_cons]
    split
    · exact ⟨_, by rw [append_assoc, drop_append_of_le_length (by simpa using hle.le), ← map_drop]; rfl⟩
    · exact ⟨_, by rw [append_assoc, drop_append_of_le_length (by simpa using hle.le), ← map_drop]; rfl⟩
  have hfound : segmentMatch cs (text ++ c :: rest) ((cnt - 1) * 13) (entryOf cs.be text chksum cnt).part = some false := by
    unfold segmentMatch entryOf
    rw [hws, words_drop cs.be text hshort _ hle.le]
    cases hu : cs.utf8 with
    | true =>
      have hlt : ∀ d ∈ text.drop ((cnt - 1) * 13), d < 0x10000 := fun d hd => by
        simpa [hu] using hs.lt d (hsub d hd)
      refine ucs2match_end cs.be cs.foldmap 13 _ _ _ _ ?_ (by simp; omega) hlt hd0
      rw [Ne, htole16_eq_zero cs.be c hclt]
      exact hc0
    | false =>
      have hlt : ∀ d ∈ text.drop ((cnt - 1) * 13), d < 256 := fun d hd => by
        simpa [hu] using hs.lt d (hsub d hd)
      refine char8match_end cs.be 13 _ _ _ _ ?_ (by simp; omega) hlt hd0
      rw [htole16_htole16 cs.be c hclt]
      exact hc0
  rw [hfound]
  rfl

theorem win_slots : (WIN_MAXLEN + (WIN_CHARS - 1)) / WIN_CHARS = 20 := rfl

theorem win2unixfn_entryOf (hlt : ∀ c ∈ text, c < if cs.utf8 then 0x10000 else 0x100) (h0 : 0 ∉ text)
    (hlen : text.length ≤ 247) (chksum cnt : Nat) (hcnt : 1 ≤ cnt) (hle : (cnt - 1) * 13 < text.length)
    (hslash : ∀ c ∈ text, htole16 cs.be c ≠ 0x2f) (name : List Byte) (before : Int)
    (hbefore : cnt * 13 < text.length → before = chksum) :
    cs.win2unixfn (entryOf cs.be text chksum cnt) name before = ((chksum : Int), (((text.drop ((cnt - 1) * 13)).take 13).flatMap (bytesOf cs.utf8) ++
        if cnt * 13 < text.length then name else []).take 511) := by
  have hc20 : cnt < 20 := by omega
  have hlast := entryOf_last cs.be text chksum cnt hc20
  have hdrop := words_drop cs.be text hlen ((cnt - 1) * 13) (by omega)
  have hd0 : 0 ∉ text.drop ((cnt - 1) * 13) := fun h => h0 (mem_of_mem_drop h)
  have hany : (entryOf cs.be text chksum cnt).part.any (· = 0x2f) = false := by
    rw [any_eq_false]
    intro w hw he
    have hw := mem_of_mem_take hw
    rw [hdrop, mem_append, mem_map, mem_cons, mem_replicate] at hw
    obtain ⟨c, hc, rfl⟩ | rfl | ⟨-, rfl⟩ := hw
    · exact hslash c (mem_of_mem_drop hc) (by simpa using he)
    · simp at he
    · simp at he
  have hbuf : (if cs.utf8 then ucs2utf8str cs.be (entryOf cs.be text chksum cnt).part (WIN_CHARS * 3)
      else ucs2char8str cs.be (entryOf cs.be text chksum cnt).part (WIN_CHARS * 3)) =
      ((text.drop ((cnt - 1) * 13)).take 13).flatMap (bytesOf cs.utf8) := by
    unfold entryOf
    rw [hdrop]
    cases hu : cs.utf8 with
    | true =>
      exact ucs2utf8str_take cs.be _ _ 13 39 (by omega)
        (fun c hc => by simpa [hu] using hlt c (mem_of_mem_drop hc)) hd0
    | false =>
      exact ucs2char8str_take cs.be _ _ 13 39 (by omega)
        (fun c hc => by simpa [hu] using hlt c (mem_of_mem_drop hc)) hd0
  have hsum : (entryOf cs.be text chksum cnt).chksum = chksum := rfl
  have hnat : (chksum : Int) ≠ -1 := by omega
  unfold Charset.win2unixfn
  simp only [hbuf, hany, hsum, entryOf_cnt cs.be text chksum cnt hc20]
  rw [if_neg (by rw [win_slots]; omega)]
  by_cases hmore : cnt * 13 < text.length
  · have hl : ¬ (entryOf cs.be text chksum cnt).cnt &&& WIN_LAST ≠ 0 := by omega
    simp [not_not.1 hl, hmore, hbefore hmore, hnat]
  · have hl : (entryOf cs.be text chksum cnt).cnt &&& WIN_LAST ≠ 0 := by omega
    simp [hl, hmore, hnat]

theorem win2unixfn_refused (hlen : text.length ≤ 247) (chksum cnt : Nat) (hcnt : 1 ≤ cnt)
    (hle : (cnt - 1) * 13 < text.length) (name : List Byte) (before : Int)
    (h : (∃ c ∈ (text.drop ((cnt - 1) * 13)).take 13, htole16 cs.be c = 0x2f) ∨ before = -1 ∧ cnt * 13 < text.length) :
    (cs.win2unixfn (entryOf cs.be text chksum cnt) name before).1 = -1 := by
  have hc20 : cnt < 20 := by omega
  have hlast := entryOf_last cs.be text chksum cnt hc20
  unfold Charset.win2unixfn
  simp only [entryOf_cnt cs.be text chksum cnt hc20]
  rw [if_neg (by rw [win_slots]; omega)]
  obtain ⟨c, hc, hslash⟩ | ⟨rfl, hmore⟩ := h
  · have hany : (entryOf cs.be text chksum cnt).part.any (· = 0x2f) = true := by
      rw [any_eq_true]
      refine ⟨htole16 cs.be c, ?_, by simpa using hslash⟩
      show htole16 cs.be c ∈ ((words cs.be text).drop ((cnt - 1) * 13)).take 13
      rw [words_drop cs.be text hlen _ hle.le, take_append, ← map_take]
      exact mem_append_left _ (mem_map_of_mem hc)
    simp [hany, if_true, ite_self]
  · have hl : ¬ (entryOf cs.be text chksum cnt).cnt &&& WIN_LAST ≠ 0 := by omega
    have hne : (-1 : Int) ≠ (entryOf cs.be text chksum cnt).chksum := by omega
    simp [not_not.1 hl, hne]

end Entries

/-! ### A whole name -/

/-- The lookup's checksum after some entries. -/
def Charset.winChkNames (cs : Charset) (un : List Byte) (weps : List Winentry) (chksum : Int) : Option Int :=
  weps.foldlM (fun chksum wep => cs.winChkName un wep chksum) chksum

/-- The checksum and the name that a read of the directory has after some entries. -/
def Charset.win2unixNames (cs : Charset) (weps : List Winentry) (name : List Byte) (chksum : Int) : Int × List Byte :=
  weps.foldl (fun r wep => cs.win2unixfn wep r.2 r.1) (chksum, name)

/-- The entries are written without leaving the buffer; every one is accepted when it is read
back, whatever was read before the first; and the name is read from them. -/
def Charset.FoundAgain (cs : Charset) (un : List Byte) (chksum : Nat) : Prop :=
  ∃ weps, cs.createde un chksum = some weps ∧
    (∀ read before, read <+: weps → read ≠ [] → cs.winChkNames un read before = some (chksum : Int)) ∧
    ∀ name before, cs.win2unixNames weps name before = ((chksum : Int), un.rdropWhile isBlankOrDot)

section Names
variable {cs : Charset} {text : List Nat} {un : List Byte}

/-- The entries from `cnt` on, read in the order of the directory. -/
theorem win2unixNames_from (hlt : ∀ c ∈ text, c < if cs.utf8 then 0x10000 else 0x100) (h0 : 0 ∉ text)
    (hlen : text.length ≤ 247) (hbytes : (text.flatMap (bytesOf cs.utf8)).length ≤ 255) (chksum : Nat)
    (hslash : ∀ c ∈ text, htole16 cs.be c ≠ 0x2f) (name : List Byte) (before : Int) (m cnt : Nat) (hcnt : 1 ≤ cnt)
    (hm : m + cnt = (text.length + 12) / 13) :
    cs.win2unixNames ((List.range' cnt (m + 1)).map (entryOf cs.be text chksum)).reverse name before =
      ((chksum : Int), (text.drop ((cnt - 1) * 13)).flatMap (bytesOf cs.utf8)) := by
  unfold Charset.win2unixNames
  rw [foldl_reverse]
  have hroom : ∀ i, ((text.drop i).flatMap (bytesOf cs.utf8)).length ≤ 255 := by
    intro i
    rw [← take_append_drop i text, flatMap_append, length_append] at hbytes
    omega
  -- From the last entry down to `cnt`: each one puts its segment before those behind it.
  induction m generalizing cnt with
  | zero =>
    have hseg : (text.drop ((cnt - 1) * 13)).take 13 = text.drop ((cnt - 1) * 13) :=
      take_of_length_le (by rw [length_drop]; omega)
    have hlen511 := hroom ((cnt - 1) * 13)
    rw [range'_succ, map_cons, foldr_cons, win2unixfn_entryOf hlt h0 hlen chksum cnt hcnt (by omega)
      hslash _ _ (by omega), if_neg (by omega), append_nil, hseg, take_of_length_le (by omega)]
  | succ m ih =>
    have hlen511 := hroom ((cnt - 1) * 13)
    have hseg : ((text.drop ((cnt - 1) * 13)).take 13).flatMap (bytesOf cs.utf8) ++
        (text.drop (cnt * 13)).flatMap (bytesOf cs.utf8) = (text.drop ((cnt - 1) * 13)).flatMap (bytesOf cs.utf8) := by
      rw [← flatMap_append, show cnt * 13 = (cnt - 1) * 13 + 13 by omega, ← drop_drop, take_append_drop]
    have htail := ih (cnt + 1) (by omega) (by omega)
    rw [Nat.add_sub_cancel] at htail
    rw [range'_succ, map_cons, foldr_cons, htail, win2unixfn_entryOf hlt h0 hlen chksum cnt hcnt
      (by omega) hslash _ _ (fun _ => rfl), if_pos (by omega), hseg, take_of_length_le (by omega)]

theorem win2unixNames_slash (hlen : text.length ≤ 247) (chksum : Nat) (name : List Byte) (before : Int) (m cnt : Nat)
    (hcnt : 1 ≤ cnt) (hm : m + cnt = (text.length + 12) / 13 + 1)
    (h : ∃ c ∈ text.drop ((cnt - 1) * 13), htole16 cs.be c = 0x2f) :
    (cs.win2unixNames ((List.range' cnt m).map (entryOf cs.be text chksum)).reverse name before).1 = -1 := by
  unfold Charset.win2unixNames
  rw [foldl_reverse]
  induction m generalizing cnt with
  | zero =>
    obtain ⟨c, hc, -⟩ := h
    rw [drop_eq_nil_of_le (by omega)] at hc
    cases hc
  | succ m ih =>
    apply win2unixfn_refused hlen chksum cnt hcnt (by omega)
    obtain ⟨c, hc, hslash⟩ := h
    rw [← take_append_drop 13 (text.drop ((cnt - 1) * 13)), mem_append, drop_drop,
      show (cnt - 1) * 13 + 13 = cnt * 13 by omega] at hc
    obtain hc | hc := hc
    · exact .inl ⟨c, hc, hslash⟩
    have hmore : cnt * 13 < text.length := by
      have := length_pos_of_mem hc
      rw [length_drop] at this
      omega
    exact .inr ⟨ih (cnt + 1) (by omega) (by omega) ⟨c, by simpa using hc, hslash⟩, hmore⟩

theorem winChkNames_prefix (chksum : Int) (wep : Winentry) (weps : List Winentry) (hfirst : ∀ before, cs.winChkName un wep before = some chksum)
    (hrest : ∀ w ∈ weps, cs.winChkName un w chksum = some chksum) (read : List Winentry) (before : Int)
    (hread : read <+: wep :: weps) (hne : read ≠ []) : cs.winChkNames un read before = some chksum := by
  cases read with
  | nil => exact absurd rfl hne
  | cons w read =>
    obtain ⟨rfl, htail⟩ := cons_prefix_cons.1 hread
    unfold Charset.winChkNames
    rw [foldlM_cons, hfirst before]
    have hmem : ∀ v ∈ read, cs.winChkName un v chksum = some chksum := fun v hv => hrest v (htail.subset hv)
    show read.foldlM (fun chksum wep => cs.winChkName un wep chksum) chksum = some chksum
    clear hread htail hne
    induction read with
    | nil => rfl
    | cons v read ih =>
      rw [foldlM_cons, hmem v mem_cons_self]
      exact ih fun v hv => hmem v (mem_cons_of_mem _ hv)

theorem entries_reverse (be : Bool) (chksum m : Nat) : ((List.range' 1 (m + 1)).map (entryOf be text chksum)).reverse =
      entryOf be text chksum (m + 1) :: ((List.range' 1 m).map (entryOf be text chksum)).reverse := by
  rw [range'_1_concat, map_append, reverse_append, add_comm 1 m]
  rfl

section
variable (hs : Spells cs.utf8 text un)
include hs

theorem foundAgain_of_stripped (h0 : 0 ∉ text) (hbytes : un.length ≤ 255)
    (hne : text ≠ []) (hlen : text.length ≤ 247) (hstrip : un.rdropWhile isBlankOrDot = un)
    (hslash : ∀ c ∈ text, htole16 cs.be c ≠ 0x2f) (chksum : Nat) : cs.FoundAgain un chksum := by
  have hpos := length_pos_iff.2 hne
  obtain ⟨m, hm⟩ : ∃ m, (text.length + 12) / 13 = m + 1 := ⟨(text.length + 12) / 13 - 1, by omega⟩
  have hweps := createde_eq (hstrip.symm ▸ hs) h0 hlen chksum
  rw [hm] at hweps
  refine ⟨_, hweps, ?_, ?_⟩
  · intro read before hread
    rw [entries_reverse] at hread
    refine winChkNames_prefix (chksum : Int) _ _ ?_ ?_ read before hread
    · intro before
      exact winChkName_entryOf hs h0 hlen chksum (m + 1) (by omega) (by omega) before (by omega)
    intro w hw
    rw [mem_reverse, mem_map] at hw
    obtain ⟨cnt, hcnt, rfl⟩ := hw
    rw [mem_range'_1] at hcnt
    exact winChkName_entryOf hs h0 hlen chksum cnt hcnt.1 (by omega) _ (fun _ => rfl)
  · intro name before
    rw [win2unixNames_from hs.lt h0 hlen (hs.eq ▸ hbytes) chksum hslash name before m 1 (by omega) hm.symm, hstrip, hs.eq]
    rfl

theorem stripped_of_foundAgain (h0 : 0 ∉ text) (hlen : text.length ≤ 255)
    (hne : text.rdropWhile blankOrDot ≠ []) (hshort : (text.rdropWhile blankOrDot).length ≤ 247) (chksum : Nat)
    (h : cs.FoundAgain un chksum) : text.rdropWhile blankOrDot = text := by
  have hpos := length_pos_iff.2 hne
  obtain ⟨m, hm⟩ : ∃ m, ((text.rdropWhile blankOrDot).length + 12) / 13 = m + 1 :=
    ⟨((text.rdropWhile blankOrDot).length + 12) / 13 - 1, by omega⟩
  obtain ⟨rest, hrest⟩ := rdropWhile_prefix blankOrDot text
  cases rest with
  | nil => simpa using hrest
  | cons c rest =>
    have hd0 : 0 ∉ text.rdropWhile blankOrDot := fun hz => h0 (( rdropWhile_prefix _ _).subset hz)
    obtain ⟨weps, hweps, hchk, -⟩ := h
    rw [createde_eq hs.strip hd0 hshort chksum, hm, entries_reverse, Option.some.injEq] at hweps
    have hfirst := hchk [entryOf cs.be (text.rdropWhile blankOrDot) chksum (m + 1)] (-1) (hweps ▸ ⟨_, rfl⟩) (by simp)
    have hrefused := winChkName_longer (hrest.symm ▸ hs) (hrest.symm ▸ h0) (hrest.symm ▸ hlen) hshort chksum (m + 1)
      (by omega) (by omega) (by omega) (-1)
    rw [Charset.winChkNames, foldlM_cons, hrefused] at hfirst
    simp at hfirst

theorem mem_of_mem_text {c : Nat} (hc : c ∈ text) (hsmall : c ≤ 0x7f) : byte c ∈ un := by
  rw [hs.eq, mem_flatMap]
  exact ⟨c, hc, by simp [bytesOf, hsmall]⟩

theorem no_slash_iff (hslash : 0x2f ∉ un) :
    (∀ c ∈ text, htole16 cs.be c ≠ 0x2f) ↔ ¬ (cs.utf8 = true ∧ cs.be = true ∧ 0x2f00 ∈ text) := by
  have hlt : ∀ c ∈ text, c < 0x10000 := by
    intro c hc
    have := hs.lt c hc
    split at this <;> omega
  cases hbe : cs.be with
  | false =>
    have h2f : 0x2f ∉ text := fun hc => hslash (mem_of_mem_text (c := 0x2f) hs hc (by omega))
    have hno : ∀ c ∈ text, htole16 false c ≠ 0x2f := by
      intro c hc he
      exact h2f (he ▸ hc)
    simpa using hno
  | true =>
    have hiff : (∀ c ∈ text, htole16 true c ≠ 0x2f) ↔ 0x2f00 ∉ text := by
      constructor
      · intro h hc
        exact h _ hc rfl
      intro h c hc he
      rw [htole16_slash true c (hlt c hc)] at he
      exact h (he ▸ hc)
    rw [hiff]
    cases hu : cs.utf8 with
    | true => simp
    | false =>
      have hno : 0x2f00 ∉ text := by
        intro hc
        have := hs.lt _ hc
        simp [hu] at this
      simpa using hno

end

end Names

/-- A file created under a long name is found under that name exactly if the name ends in
neither a blank nor a dot, has at most 247 characters and, in UTF-8 on a big endian machine, no
U+2F00. -/
theorem long_name_found (cs : Charset) (un : List Byte) (text : List Nat) (gen r : Nat) (dn : List Byte)
    (hbytes : un.length ≤ 255) (hslash : 0x2f ∉ un) (hnul : 0 ∉ un)
    (hdos : unix2dosfn un gen = some (r, dn)) (hr : r = 2 ∨ r = 3) (hs : Spells cs.utf8 text un)
    (hlen : text.length ≤ 255) :
    cs.FoundAgain un (winChksum dn) ↔ un.rdropWhile isBlankOrDot = un ∧ text.length ≤ 247 ∧
        ¬ (cs.utf8 = true ∧ cs.be = true ∧ 0x2f00 ∈ text) := by
  have h0 : 0 ∉ text := fun hz => hnul (mem_of_mem_text (c := 0) hs hz (by omega))
  have hd0 : 0 ∉ text.rdropWhile blankOrDot := fun hz => h0 (( rdropWhile_prefix _ _).subset hz)
  have hdle : (text.rdropWhile blankOrDot).length ≤ text.length := ( rdropWhile_prefix _ _).length_le
  -- Something is left of the name, as the 8.3 name shows.
  have hdne : text.rdropWhile blankOrDot ≠ [] := by
    intro hnil
    have hun := hs.strip.eq
    rw [hnil, flatMap_nil, rdropWhile_eq_nil_iff] at hun
    have := unix2dosfn_blank un gen (all_eq_true.2 hun) r dn hdos
    omega
  rw [hs.strip_iff, ← no_slash_iff hs hslash]
  constructor
  · intro h
    have hshort : (text.rdropWhile blankOrDot).length ≤ 247 := by
      by_contra hlong
      obtain ⟨weps, hweps, -⟩ := h
      rw [createde_none hs.strip hd0 (by omega) (by omega)] at hweps
      cases hweps
    have hstrip := stripped_of_foundAgain hs h0 hlen hdne hshort _ h
    rw [hstrip] at hshort
    refine ⟨hstrip, hshort, ?_⟩
    intro c hc he
    obtain ⟨weps, hweps, -, hread⟩ := h
    rw [createde_eq hs.strip hd0 (hstrip.symm ▸ hshort), hstrip, Option.some.injEq] at hweps
    have hrefused : (cs.win2unixNames weps [] 0).1 = -1 := by
      rw [← hweps]
      exact win2unixNames_slash hshort (winChksum dn) [] 0 _ 1 (by omega) rfl ⟨c, by simpa using hc, he⟩
    rw [hread] at hrefused
    omega
  · rintro ⟨hstrip, hshort, hno⟩
    refine foundAgain_of_stripped hs h0 hbytes ?_ hshort (hs.strip_iff.2 hstrip) hno _
    rwa [hstrip] at hdne

/-- `longfilename.txt`, which takes two entries. -/
theorem long_name_found_two : unix2dosfn [0x6c, 0x6f, 0x6e, 0x67, 0x66, 0x69, 0x6c, 0x65, 0x6e, 0x61, 0x6d, 0x65, 0x2e, 0x74, 0x78, 0x74] 1 =
        some (3, [0x4c, 0x4f, 0x4e, 0x47, 0x46, 0x49, 0x7e, 0x31, 0x54, 0x58, 0x54]) ∧
      (Charset.mk false false []).FoundAgain
        [0x6c, 0x6f, 0x6e, 0x67, 0x66, 0x69, 0x6c, 0x65, 0x6e, 0x61, 0x6d, 0x65, 0x2e, 0x74, 0x78, 0x74]
        (winChksum [0x4c, 0x4f, 0x4e, 0x47, 0x46, 0x49, 0x7e, 0x31, 0x54, 0x58, 0x54]) := by
  rw [long_name_found (Charset.mk false false []) _ _ 1 3
    [0x4c, 0x4f, 0x4e, 0x47, 0x46, 0x49, 0x7e, 0x31, 0x54, 0x58, 0x54] (by decide) (by decide) (by decide)
    (by decide) (by decide) (spells_char8 _) (by decide)]
  exact ⟨by decide, by decide, by decide⟩

/-- `longfilename.` is written as `longfilename` and never found. -/
theorem long_name_lost : unix2dosfn [0x6c, 0x6f, 0x6e, 0x67, 0x66, 0x69, 0x6c, 0x65, 0x6e, 0x61, 0x6d, 0x65, 0x2e] 1 =
        some (3, [0x4c, 0x4f, 0x4e, 0x47, 0x46, 0x49, 0x7e, 0x31, 0x20, 0x20, 0x20]) ∧
      ¬ (Charset.mk false false []).FoundAgain
        [0x6c, 0x6f, 0x6e, 0x67, 0x66, 0x69, 0x6c, 0x65, 0x6e, 0x61, 0x6d, 0x65, 0x2e]
        (winChksum [0x4c, 0x4f, 0x4e, 0x47, 0x46, 0x49, 0x7e, 0x31, 0x20, 0x20, 0x20]) := by
  refine ⟨by decide, ?_⟩
  intro h
  have hstrip := stripped_of_foundAgain (spells_char8 _) (by decide) (by decide) (by decide) (by decide) _ h
  revert hstrip
  decide

end NetBSD.Fs.Msdosfs
