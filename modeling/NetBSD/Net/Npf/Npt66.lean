import NetBSD.Net.Npf.Napt

/-! The translation of IPv6 prefixes.

One prefix takes the place of another, and one word behind it is adjusted so that the sum over the address stays. The same word is
found and adjusted back on the return (`npt66_rwr`), unless the host part that results is one that is refused. -/
namespace NetBSD.Net.Npf.Inet
open Function Nat
open Lib

def htonl : ByteOrder → BitVec 32 → BitVec 32
  | .little, x => x.extractLsb' 0 8 ++ x.extractLsb' 8 8 ++ x.extractLsb' 16 8 ++ x.extractLsb' 24 8
  | .big, x => x

/-- The words of the mask that a prefix length stands for. -/
def wordMasks (o : ByteOrder) : Nat → Nat → List (BitVec 32)
  | 0, _ => []
  | nwords + 1, length =>
    if length ≥ 32 then htonl o 0xffffffff :: wordMasks o nwords (length - 32)
    else if length ≠ 0 then htonl o (0xffffffff <<< (32 - length)) :: wordMasks o nwords 0
    else 0 :: wordMasks o nwords 0

/-- The half of a 32-bit word in memory that is 16-bit word `i`. -/
def half16 : ByteOrder → BitVec 32 → Nat → BitVec 16
  | .little, x, i => x.extractLsb' (16 * (i % 2)) 16
  | .big, x, i => x.extractLsb' (16 - 16 * (i % 2)) 16

def npfAddrMask (o : ByteOrder) (addr : NpfAddr) (mask alen : Nat) (out : NpfAddr) : NpfAddr := fun i =>
  match (wordMasks o (alen / 4) mask)[i / 2]? with
  | some wordmask => half16 o (word32 o addr (i / 2) &&& wordmask) i
  | none => out i

/-- The loop for the word to adjust. -/
def scanWord (addr : NpfAddr) : Nat → Nat → Nat
  | 0, word => word
  | n + 1, word => if addr word ≠ 0xffff then word else scanWord addr n (word + 1)

/-- The word to adjust, if the address can be translated. -/
def npt66Word (o : ByteOrder) (addr : NpfAddr) (len : Nat) : Option Nat :=
  if len ≤ 48 then if addr 3 = 0xffff then none else some 3
  else if (word32 o addr 2 = 0 ∧ word32 o addr 3 = 0) ∨ (word32 o addr 2 = ~~~0 ∧ word32 o addr 3 = ~~~0) then none
  else some (scanWord addr 4 4)

def npt66Prefix (addr pref : NpfAddr) (len : Nat) : NpfAddr :=
  let preflen := len >>> 4
  let addr' : NpfAddr := fun i => if i < preflen then pref i else addr i
  let remnant := len - (preflen <<< 4)
  if remnant ≠ 0 then
    let wordmask : BitVec 16 := ((1#32 <<< remnant) - 1).setWidth 16
    update addr' preflen ((pref preflen &&& wordmask) ||| (addr' preflen &&& ~~~wordmask))
  else addr'

theorem fold_lt {sum : BitVec 32} (h : sum >>> 16 ≠ 0) : ((sum >>> 16) + (sum &&& 0xffff)).toNat < sum.toNat := by
  have hhigh : (sum >>> 16).toNat ≠ 0 := fun hzero => h (BitVec.eq_of_toNat_eq hzero)
  rw [toNat_high16] at hhigh
  rw [BitVec.toNat_add, toNat_high16, toNat_low16, mod_eq_of_lt (by omega)]
  omega

/-- The loop that adds the carries. -/
def foldLoop (sum : BitVec 32) : BitVec 32 := if h : sum >>> 16 ≠ 0 then foldLoop ((sum >>> 16) + (sum &&& 0xffff)) else sum
termination_by sum.toNat
decreasing_by exact fold_lt h

def npt66Adjust (addr : NpfAddr) (word : Nat) (adj : BitVec 16) : NpfAddr :=
  let sum := foldLoop ((addr word).setWidth 32 + adj.setWidth 32)
  let sum := if sum = 0xffff then 0 else sum
  update addr word (sum.setWidth 16)

def npfNpt66Rwr (o : ByteOrder) (npc : NpfCache) (which : Which) (pref : NpfAddr) (len : Nat) (adj : BitVec 16) :
    Option Errno × NpfCache :=
  match npc.ip with
  | .v4 _ _ => (some .EINVAL, npc)
  | .v6 =>
    match npt66Word o (npc.ips which) len with
    | none => (some .EINVAL, npc)
    | some word =>
      (none, {npc with ips := update npc.ips which (npt66Adjust (npt66Prefix (npc.ips which) pref len) word adj)})

/-! ### What a translation does to the words -/

/-- The mask of a word, for a prefix of whole bytes on a little-endian host. -/
def mask16 (len i : Nat) : BitVec 16 := if 16 * (i + 1) ≤ len then 0xffff else if 16 * i + 8 ≤ len then 0x00ff else 0

/-- An address cut down to its prefix. -/
def masked (addr : NpfAddr) (len : Nat) : NpfAddr := npfAddrMask .little addr len 16 addr

section Words
variable {addr pref inner outer : NpfAddr} {len i word : Nat} {adj : BitVec 16}

theorem wordMasks_bytes : ∀ k ≤ 8, ∀ i < 8,
    ((wordMasks .little 4 (8 * k))[i / 2]?).map (fun m => half16 .little m i) = some (mask16 (8 * k) i) := by
  decide

theorem half16_and (x y : BitVec 32) (i : Nat) : half16 .little (x &&& y) i = half16 .little x i &&& half16 .little y i :=
  BitVec.extractLsb'_and

theorem half16_word32 (addr : NpfAddr) (i : Nat) : half16 .little (word32 .little addr (i / 2)) i = addr i := by
  rw [half16, word32]
  obtain heven | hodd := mod_two_eq_zero_or_one i
  · have hi : 2 * (i / 2) = i := by omega
    rw [heven, hi]
    exact BitVec.extractLsb'_append_eq_right
  · have hi : 2 * (i / 2) + 1 = i := by omega
    rw [hodd, hi]
    exact BitVec.extractLsb'_append_eq_left

theorem masked_eq (hlen : len ≤ 64) (hbytes : 8 ∣ len) (addr : NpfAddr) (hi : i < 8) : masked addr len i = addr i &&& mask16 len i := by
  obtain ⟨k, rfl⟩ := hbytes
  have hmask := wordMasks_bytes k (by omega) i hi
  obtain ⟨m, hm, hhalf⟩ := Option.map_eq_some_iff.mp hmask
  rw [masked, npfAddrMask]
  simp [show 16 / 4 = 4 from rfl, hm, half16_and, half16_word32, hhalf]

theorem mask16_full (h : 16 * (i + 1) ≤ len) : mask16 len i = BitVec.allOnes 16 := by
  rw [mask16, if_pos h]
  rfl

theorem mask16_none (h : len < 16 * i + 8) : mask16 len i = 0#16 := by
  rw [mask16, if_neg (by omega), if_neg (by omega)]
  rfl

/-- The prefix of one address and the rest of the other. -/
def merge (addr pref : NpfAddr) (len i : Nat) : BitVec 16 := (pref i &&& mask16 len i) ||| (addr i &&& ~~~mask16 len i)

theorem merge_full (h : 16 * (i + 1) ≤ len) : merge addr pref len i = pref i := by
  rw [merge, mask16_full h, BitVec.and_allOnes, BitVec.not_allOnes, BitVec.and_zero, BitVec.or_zero]

theorem merge_none (h : len < 16 * i + 8) : merge addr pref len i = addr i := by
  rw [merge, mask16_none h, BitVec.and_zero, BitVec.zero_or, BitVec.not_zero, BitVec.and_allOnes]

theorem npt66Prefix_eq (hbytes : 8 ∣ len) (addr pref : NpfAddr) : npt66Prefix addr pref len = merge addr pref len := by
  have hpreflen : len >>> 4 = len / 16 := shiftRight_eq_div_pow len 4
  have hback : (len / 16) <<< 4 = len / 16 * 16 := shiftLeft_eq _ 4
  funext i
  rw [npt66Prefix, hpreflen]
  dsimp only
  rw [hback]
  by_cases hrem : len - len / 16 * 16 = 0
  · rw [if_neg (not_not_intro hrem)]
    by_cases hi : i < len / 16
    · rw [if_pos hi, merge_full (by omega)]
    · rw [if_neg hi, merge_none (by omega)]
  have height : len - len / 16 * 16 = 8 := by omega
  rw [if_pos hrem, height, if_neg (lt_irrefl _)]
  by_cases hi : i = len / 16
  · have hmask : mask16 len i = 0x00ff := by
      rw [mask16, if_neg (by omega), if_pos (by omega)]
    rw [hi, update_self, ← hi, merge, hmask]
    rfl
  rw [update_of_ne hi]
  by_cases hlt : i < len / 16
  · rw [if_pos hlt, merge_full (by omega)]
  · rw [if_neg hlt, merge_none (by omega)]

theorem toNat_foldLoop (sum : BitVec 32) : (foldLoop sum).toNat = endAround 65535 sum.toNat := by
  fun_induction foldLoop sum with
  | case1 sum h ih =>
    rw [ih, ← endAround_fold 65535 sum.toNat, BitVec.toNat_add, toNat_high16, toNat_low16, mod_eq_of_lt (by omega)]
  | case2 sum h =>
    have hhigh : (sum >>> 16).toNat = 0 := by
      rw [not_not.mp h]
      rfl
    rw [toNat_high16] at hhigh
    rw [endAround_of_le (by omega)]

theorem npt66Adjust_eq (addr : NpfAddr) (word : Nat) (adj : BitVec 16) :
    npt66Adjust addr word adj = update addr word (BitVec.ofNat 16 (((addr word).toNat + adj.toNat) % 65535)) := by
  have hsum : ((addr word).setWidth 32 + adj.setWidth 32).toNat = (addr word).toNat + adj.toNat := by
    rw [toNat_add32 (by rw [toNat_widened, toNat_widened]; omega), toNat_widened, toNat_widened]
  have hloop := toNat_foldLoop ((addr word).setWidth 32 + adj.setWidth 32)
  rw [hsum] at hloop
  have hround := endAround_modEq 65535 ((addr word).toNat + adj.toNat)
  have hle := endAround_le (show 0 < 65535 by decide) ((addr word).toNat + adj.toNat)
  rw [ModEq] at hround
  rw [npt66Adjust]
  congr 1
  apply BitVec.eq_of_toNat_eq
  rw [BitVec.toNat_setWidth, BitVec.toNat_ofNat]
  by_cases htop : foldLoop ((addr word).setWidth 32 + adj.setWidth 32) = 0xffff
  · have hfull : endAround 65535 ((addr word).toNat + adj.toNat) = 65535 := by
      rw [← hloop, htop]
      rfl
    have hzero : ((addr word).toNat + adj.toNat) % 65535 = 0 := by
      rw [← hround, hfull]
    rw [if_pos htop, hzero]
    rfl
  · have hnot : endAround 65535 ((addr word).toNat + adj.toNat) ≠ 65535 := by
      intro h
      exact htop (BitVec.eq_of_toNat_eq (hloop.trans h))
    rw [if_neg htop]
    omega

/-! ### The word to adjust -/

def HostZero (addr : NpfAddr) : Prop := ∀ i, 4 ≤ i → i < 8 → addr i = 0

/-- The first word of the host part that is not all ones. -/
structure FirstLow (addr : NpfAddr) (word : Nat) : Prop where
  host : 4 ≤ word
  lt : word < 8
  low : addr word ≠ 0xffff
  before : ∀ i, 4 ≤ i → i < word → addr i = 0xffff

/-- The word that a translation adjusts. -/
def Chosen (addr : NpfAddr) (len word : Nat) : Prop :=
  (len ≤ 48 ∧ word = 3 ∧ addr 3 ≠ 0xffff) ∨ (48 < len ∧ ¬HostZero addr ∧ FirstLow addr word)

theorem load32_inj {o : ByteOrder} {a b c d : BitVec 16} : load32 o a b = load32 o c d ↔ a = c ∧ b = d := by
  refine ⟨fun h => ?_, fun h => by rw [h.1, h.2]⟩
  have hnat := congrArg BitVec.toNat h
  cases o with
  | little =>
    rw [load32, load32, toNat_append16, toNat_append16] at hnat
    exact ⟨BitVec.eq_of_toNat_eq (by omega), BitVec.eq_of_toNat_eq (by omega)⟩
  | big =>
    rw [load32, load32, toNat_append16, toNat_append16] at hnat
    exact ⟨BitVec.eq_of_toNat_eq (by omega), BitVec.eq_of_toNat_eq (by omega)⟩

theorem host_eq {o : ByteOrder} (addr : NpfAddr) (v : BitVec 16) :
    (word32 o addr 2 = load32 o v v ∧ word32 o addr 3 = load32 o v v) ↔ ∀ i, 4 ≤ i → i < 8 → addr i = v := by
  rw [word32, word32, load32_inj, load32_inj]
  constructor
  · intro h i hlo hhi
    obtain rfl | rfl | rfl | rfl : i = 4 ∨ i = 5 ∨ i = 6 ∨ i = 7 := by omega
    · exact h.1.1
    · exact h.1.2
    · exact h.2.1
    · exact h.2.2
  · intro h
    exact ⟨⟨h 4 (by omega) (by omega), h 5 (by omega) (by omega)⟩, h 6 (by omega) (by omega), h 7 (by omega) (by omega)⟩

theorem scanWord_spec (addr : NpfAddr) (n word : Nat) : word ≤ scanWord addr n word ∧ scanWord addr n word ≤ word + n ∧
    (∀ i, word ≤ i → i < scanWord addr n word → addr i = 0xffff) ∧
    (scanWord addr n word < word + n → addr (scanWord addr n word) ≠ 0xffff) := by
  induction n generalizing word with
  | zero => exact ⟨le_refl _, le_refl _, fun i hlo hhi => absurd hhi (Nat.not_lt.mpr hlo), fun h => absurd h (lt_irrefl _)⟩
  | succ n ih =>
    rw [scanWord]
    split
    · next hlow => exact ⟨le_refl _, Nat.le_add_right _ _, fun i hlo hhi => absurd hhi (Nat.not_lt.mpr hlo), fun _ => hlow⟩
    · next hones =>
      obtain ⟨hle, hge, hbefore, hfound⟩ := ih (word + 1)
      refine ⟨by omega, by omega, fun i hlo hhi => ?_, fun h => hfound (by omega)⟩
      by_cases hi : i = word
      · rw [hi]
        exact not_not.mp hones
      · exact hbefore i (by omega) hhi

theorem npt66Word_eq_some (o : ByteOrder) (addr : NpfAddr) (len word : Nat) : npt66Word o addr len = some word ↔ Chosen addr len word := by
  have hzero : load32 o 0 0 = 0 := by cases o <;> rfl
  have hones : load32 o 0xffff 0xffff = ~~~0 := by cases o <;> rfl
  have hhost := host_eq (o := o) addr
  obtain ⟨hle, hge, hbefore, hfound⟩ := scanWord_spec addr 4 4
  have hrefusal : ((word32 o addr 2 = 0 ∧ word32 o addr 3 = 0) ∨ (word32 o addr 2 = ~~~0 ∧ word32 o addr 3 = ~~~0)) ↔
      ((∀ i, 4 ≤ i → i < 8 → addr i = 0) ∨ ∀ i, 4 ≤ i → i < 8 → addr i = 0xffff) := by
    rw [← hones, ← hzero, hhost, hhost]
  rw [npt66Word]
  by_cases hlen : len ≤ 48
  · rw [if_pos hlen]
    by_cases hthree : addr 3 = 0xffff
    · rw [if_pos hthree]
      refine ⟨fun h => (by cases h), fun h => ?_⟩
      obtain ⟨-, -, hne⟩ | ⟨hlt, -⟩ := h
      · exact absurd hthree hne
      · exact absurd hlen (Nat.not_le.mpr hlt)
    rw [if_neg hthree]
    refine ⟨fun h => .inl ⟨hlen, (Option.some.inj h).symm, hthree⟩, fun h => ?_⟩
    obtain ⟨-, hword, -⟩ | ⟨hlt, -⟩ := h
    · rw [hword]
    · exact absurd hlen (Nat.not_le.mpr hlt)
  rw [if_neg hlen]
  by_cases hrefused : (∀ i, 4 ≤ i → i < 8 → addr i = 0) ∨ ∀ i, 4 ≤ i → i < 8 → addr i = 0xffff
  · rw [if_pos (hrefusal.mpr hrefused)]
    refine ⟨fun h => (by cases h), fun h => ?_⟩
    obtain ⟨hle, -⟩ | ⟨-, hnonzero, hfirst⟩ := h
    · exact absurd hle hlen
    obtain hz | ho := hrefused
    · exact absurd hz hnonzero
    · exact absurd (ho word hfirst.host hfirst.lt) hfirst.low
  rw [if_neg (mt hrefusal.mp hrefused)]
  obtain ⟨hnonzero, hnotones⟩ := not_or.mp hrefused
  have hlt : scanWord addr 4 4 < 8 := by
    by_contra hend
    exact hnotones fun i hlo hhi => hbefore i hlo (by omega)
  refine ⟨fun h => ?_, fun h => ?_⟩
  · obtain rfl := Option.some.inj h
    exact .inr ⟨by omega, hnonzero, hle, hlt, hfound hlt, hbefore⟩
  obtain ⟨hle, -⟩ | ⟨-, -, hfirst⟩ := h
  · exact absurd hle hlen
  obtain hless | heq | hmore := lt_trichotomy (scanWord addr 4 4) word
  · exact absurd (hfirst.before _ hle hless) (hfound hlt)
  · rw [heq]
  · exact absurd (hbefore word hfirst.host hmore) hfirst.low

theorem Chosen.behind (hlen : len ≤ 64) (h : Chosen addr len word) : len < 16 * word + 8 ∧ word < 8 := by
  obtain ⟨hle, hword, -⟩ | ⟨-, -, hfirst⟩ := h
  · omega
  · have hhost := hfirst.host
    exact ⟨by omega, hfirst.lt⟩

theorem Chosen.low (h : Chosen addr len word) : (addr word).toNat < 65535 := by
  have hne : addr word ≠ 0xffff := by
    obtain ⟨-, hword, hne⟩ | ⟨-, -, hfirst⟩ := h
    · rw [hword]
      exact hne
    · exact hfirst.low
  have hnat : (addr word).toNat ≠ 65535 := fun h => hne (BitVec.eq_of_toNat_eq h)
  omega

/-! ### There and back -/

/-- The words of an address after a translation. -/
def translated (addr pref : NpfAddr) (len word : Nat) (adj : BitVec 16) : NpfAddr :=
  update (merge addr pref len) word (BitVec.ofNat 16 (((addr word).toNat + adj.toNat) % 65535))

/-- An address inside of the inner prefix, and what makes up for the difference between the two. -/
structure Npt66 (addr inner outer : NpfAddr) (len : Nat) (adj : BitVec 16) : Prop where
  inside : ∀ i < 8, masked addr len i = inner i
  outside : ∀ i < 8, masked outer len i = outer i
  adj : adj.toNat + wordSum (wordsOf outer 8) ≡ wordSum (wordsOf inner 8) [MOD 65535]

theorem adjust_prefix (hlen : len ≤ 64) (hbytes : 8 ∣ len) (hword : Chosen addr len word) (pref : NpfAddr) (adj : BitVec 16) :
    npt66Adjust (npt66Prefix addr pref len) word adj = translated addr pref len word adj := by
  rw [npt66Adjust_eq, npt66Prefix_eq hbytes, translated, merge_none (hword.behind hlen).1]

theorem toNat_adjusted (a b : BitVec 16) : (BitVec.ofNat 16 ((a.toNat + b.toNat) % 65535)).toNat = (a.toNat + b.toNat) % 65535 := by
  rw [BitVec.toNat_ofNat, mod_eq_of_lt (by omega)]

theorem merge_and (addr pref : NpfAddr) (len i : Nat) : merge addr pref len i &&& mask16 len i = pref i &&& mask16 len i := by
  rw [merge]
  apply BitVec.eq_of_getLsbD_eq
  intro j hj
  simp only [BitVec.getLsbD_or, BitVec.getLsbD_and, BitVec.getLsbD_not, hj, decide_true, Bool.true_and]
  cases (pref i).getLsbD j <;> cases (addr i).getLsbD j <;> cases (mask16 len i).getLsbD j <;> rfl

theorem merge_merge (h : addr i &&& mask16 len i = inner i) {other : NpfAddr} (hother : other i = merge addr outer len i) :
    merge other inner len i = addr i := by
  rw [merge, hother, merge, ← h]
  apply BitVec.eq_of_getLsbD_eq
  intro j hj
  simp only [BitVec.getLsbD_or, BitVec.getLsbD_and, BitVec.getLsbD_not, hj, decide_true, Bool.true_and]
  cases (outer i).getLsbD j <;> cases (addr i).getLsbD j <;> cases (mask16 len i).getLsbD j <;> rfl

theorem toNat_parts (e a m : BitVec 16) : ((e &&& m) ||| (a &&& ~~~m)).toNat = (e &&& m).toNat + (a &&& ~~~m).toNat := by
  have hapart : (e &&& m) &&& (a &&& ~~~m) = 0#16 := by
    apply BitVec.eq_of_getLsbD_eq
    intro j hj
    simp only [BitVec.getLsbD_and, BitVec.getLsbD_not, hj, decide_true, Bool.true_and, BitVec.getLsbD_zero]
    cases e.getLsbD j <;> cases a.getLsbD j <;> cases m.getLsbD j <;> rfl
  rw [← BitVec.add_eq_or_of_and_eq_zero _ _ hapart, BitVec.toNat_add_of_and_eq_zero hapart]

theorem merge_toNat (hinner : addr i &&& mask16 len i = inner i) (houter : outer i &&& mask16 len i = outer i) :
    (merge addr outer len i).toNat + (inner i).toNat = (addr i).toNat + (outer i).toNat := by
  have hself : (addr i &&& mask16 len i) ||| (addr i &&& ~~~mask16 len i) = addr i := by
    apply BitVec.eq_of_getLsbD_eq
    intro j hj
    simp only [BitVec.getLsbD_or, BitVec.getLsbD_and, BitVec.getLsbD_not, hj, decide_true, Bool.true_and]
    cases (addr i).getLsbD j <;> cases (mask16 len i).getLsbD j <;> rfl
  have haddr := toNat_parts (addr i) (addr i) (mask16 len i)
  rw [hself, hinner] at haddr
  rw [merge, toNat_parts, houter]
  omega

theorem wordSum_wordsOf_add {a b c d : NpfAddr} {n : Nat} (h : ∀ i < n, (a i).toNat + (b i).toNat = (c i).toNat + (d i).toNat) :
    wordSum (wordsOf a n) + wordSum (wordsOf b n) = wordSum (wordsOf c n) + wordSum (wordsOf d n) := by
  induction n with
  | zero => rfl
  | succ n ih =>
    have hlast := h n (lt_succ_self n)
    have hinit := ih fun i hi => h i (lt_succ_of_lt hi)
    simp only [wordsOf_succ, wordSum_append, wordSum_cons, wordSum_nil]
    omega

theorem wordSum_wordsOf_congr {a b : NpfAddr} {n : Nat} (h : ∀ i < n, a i = b i) : wordSum (wordsOf a n) = wordSum (wordsOf b n) :=
  congrArg wordSum (List.map_congr_left fun i hi => h i (List.mem_range.mp hi))

theorem wordSum_update {n : Nat} (addr : NpfAddr) (v : BitVec 16) (h : word < n) :
    wordSum (wordsOf (update addr word v) n) + (addr word).toNat = wordSum (wordsOf addr n) + v.toNat := by
  induction n with
  | zero => exact absurd h (Nat.not_lt_zero _)
  | succ n ih =>
    simp only [wordsOf_succ, wordSum_append, wordSum_cons, wordSum_nil]
    by_cases hword : word = n
    · have hsame : wordSum (wordsOf (update addr word v) n) = wordSum (wordsOf addr n) :=
        wordSum_wordsOf_congr fun i hi => update_of_ne (by omega) _ _
      rw [hsame, ← hword, update_self]
      omega
    · rw [update_of_ne (Ne.symm hword)]
      omega

theorem Chosen.back (hword : Chosen addr len word) (hlen : len ≤ 64) (hhost : ¬(48 < len ∧ HostZero (translated addr outer len word adj))) :
    Chosen (translated addr outer len word adj) len word := by
  have hlow : translated addr outer len word adj word ≠ 0xffff := by
    intro hones
    have hnat := congrArg BitVec.toNat hones
    rw [translated, update_self, toNat_adjusted, show (0xffff : BitVec 16).toNat = 65535 from rfl] at hnat
    omega
  obtain ⟨hle, rfl, -⟩ | ⟨hlt, -, hfirst⟩ := hword
  · exact .inl ⟨hle, rfl, hlow⟩
  refine .inr ⟨hlt, fun hzero => hhost ⟨hlt, hzero⟩, hfirst.host, hfirst.lt, hlow, fun i hlo hhi => ?_⟩
  rw [translated, update_of_ne (Nat.ne_of_lt hhi), merge_none (by omega)]
  exact hfirst.before i hlo hhi

section Translated
variable (hlen : len ≤ 64) (hbytes : 8 ∣ len) (h : Npt66 addr inner outer len adj) (hword : Chosen addr len word)
include hlen hbytes h hword

theorem Npt66.prefix_out (hi : i < 8) : masked (translated addr outer len word adj) len i = outer i := by
  have houter := h.outside i hi
  rw [masked_eq hlen hbytes _ hi] at houter ⊢
  by_cases heq : i = word
  · rw [heq] at houter ⊢
    rw [← houter, mask16_none (hword.behind hlen).1, BitVec.and_zero, BitVec.and_zero]
  · rw [translated, update_of_ne heq, merge_and, houter]

theorem Npt66.wordSum_out : wordSum (wordsOf (translated addr outer len word adj) 8) ≡ wordSum (wordsOf addr 8) [MOD 65535] := by
  have hupdate := wordSum_update (merge addr outer len) (BitVec.ofNat 16 (((addr word).toNat + adj.toNat) % 65535)) (hword.behind hlen).2
  have hprefixes : wordSum (wordsOf (merge addr outer len) 8) + wordSum (wordsOf inner 8) = wordSum (wordsOf addr 8) + wordSum (wordsOf outer 8) := by
    refine wordSum_wordsOf_add fun i hi => merge_toNat ?_ ?_
    · rw [← masked_eq hlen hbytes _ hi]
      exact h.inside i hi
    · rw [← masked_eq hlen hbytes _ hi]
      exact h.outside i hi
  have hadj := h.adj
  rw [merge_none (hword.behind hlen).1, toNat_adjusted] at hupdate
  rw [ModEq] at hadj
  rw [translated, ModEq]
  omega

theorem Npt66.back : translated (translated addr outer len word adj) inner len word (~~~adj) = addr := by
  have hlow := hword.low
  funext i
  by_cases hi : i = word
  · rw [hi]
    apply BitVec.eq_of_toNat_eq
    rw [translated, update_self, toNat_adjusted, translated, update_self, toNat_adjusted, toNat_not16]
    omega
  rw [translated, update_of_ne hi]
  by_cases hlt : i < 8
  · refine merge_merge ?_ (update_of_ne hi _ _)
    rw [← masked_eq hlen hbytes _ hlt]
    exact h.inside i hlt
  · rw [merge_none (by omega), translated, update_of_ne hi, merge_none (by omega)]

end Translated

theorem ips_set (npc : NpfCache) (which : Which) (addr : NpfAddr) :
    NpfCache.ips {npc with ips := update npc.ips which addr} which = addr := update_self ..

section
variable (o : ByteOrder) {npc : NpfCache} {which : Which}
include o

theorem npfNpt66Rwr_accepted (hip : npc.ip = .v6) (haddr : npc.ips which = addr)
    (hword : Chosen addr len word) (pref : NpfAddr) (adj : BitVec 16) : npfNpt66Rwr o npc which pref len adj =
      (none, {npc with ips := update npc.ips which (npt66Adjust (npt66Prefix addr pref len) word adj)}) := by
  rw [npfNpt66Rwr, hip, haddr, (npt66Word_eq_some o _ len word).mpr hword]

theorem npfNpt66Rwr_of_chosen (hip : npc.ip = .v6) (hlen : len ≤ 64) (hbytes : 8 ∣ len)
    (haddr : npc.ips which = addr) (hword : Chosen addr len word) (pref : NpfAddr) (adj : BitVec 16) :
    npfNpt66Rwr o npc which pref len adj = (none, {npc with ips := update npc.ips which (translated addr pref len word adj)}) := by
  rw [npfNpt66Rwr_accepted o hip haddr hword, adjust_prefix hlen hbytes hword]

theorem npfNpt66Rwr_refused (hlen : 48 < len) (haddr : npc.ips which = addr)
    (hhost : HostZero addr) (pref : NpfAddr) (adj : BitVec 16) : npfNpt66Rwr o npc which pref len adj = (some .EINVAL, npc) := by
  have hnone : npt66Word o (npc.ips which) len = none := by
    rw [haddr]
    refine Option.eq_none_iff_forall_ne_some.mpr fun word hword => ?_
    obtain ⟨hle, -⟩ | ⟨-, hnonzero, -⟩ := (npt66Word_eq_some o _ len word).mp hword
    · omega
    · exact hnonzero hhost
  rw [npfNpt66Rwr]
  cases hip : npc.ip with
  | v4 ipSum others => rfl
  | v6 =>
    rw [hnone]

end

theorem chosen_of_accepted {o : ByteOrder} {npc npc' : NpfCache} {which : Which} {pref : NpfAddr}
    (hrun : npfNpt66Rwr o npc which pref len adj = (none, npc')) : npc.ip = .v6 ∧ ∃ word, Chosen (npc.ips which) len word := by
  rw [npfNpt66Rwr] at hrun
  cases hip : npc.ip with
  | v4 ipSum others =>
    rw [hip] at hrun
    cases hrun
  | v6 =>
    rw [hip] at hrun
    cases hword : npt66Word o (npc.ips which) len with
    | none =>
      rw [hword] at hrun
      cases hrun
    | some word => exact ⟨rfl, word, (npt66Word_eq_some o _ len word).mp hword⟩

end Words

/-- **Prefix translation**, for prefixes of whole bytes. The address that results has the outer prefix and the sum that it had, and the
translation back gives the first address again, unless the host part is one that is refused. -/
theorem npt66_rwr {npc npc' : NpfCache} {which : Which} {inner outer : NpfAddr} {len : Nat} {adj : BitVec 16} (hlen : len ≤ 64)
    (hbytes : 8 ∣ len) (h : Npt66 (npc.ips which) inner outer len adj) (hrun : npfNpt66Rwr .little npc which outer len adj = (none, npc')) :
    (∀ i < 8, masked (npc'.ips which) len i = outer i) ∧
    wordSum (wordsOf (npc'.ips which) 8) ≡ wordSum (wordsOf (npc.ips which) 8) [MOD 65535] ∧
    (¬(48 < len ∧ HostZero (npc'.ips which)) → npfNpt66Rwr .little npc' which inner len (~~~adj) = (none, npc)) ∧
    (48 < len ∧ HostZero (npc'.ips which) → npfNpt66Rwr .little npc' which inner len (~~~adj) = (some .EINVAL, npc')) := by
  obtain ⟨hip, word, hword⟩ := chosen_of_accepted hrun
  rw [npfNpt66Rwr_of_chosen .little hip hlen hbytes rfl hword] at hrun
  obtain rfl := (Prod.mk.inj hrun).2
  dsimp only
  have haddr := ips_set npc which (translated (npc.ips which) outer len word adj)
  dsimp only at haddr
  rw [haddr]
  refine ⟨fun i hi => h.prefix_out hlen hbytes hword hi, h.wordSum_out hlen hbytes hword, fun hhost => ?_, fun hhost => ?_⟩
  · have hip' : NpfCache.ip {npc with ips := update npc.ips which (translated (npc.ips which) outer len word adj)} = .v6 := hip
    rw [npfNpt66Rwr_of_chosen .little hip' hlen hbytes haddr (hword.back hlen hhost), h.back hlen hbytes hword]
    rw [update_idem, update_eq_self]
  · exact npfNpt66Rwr_refused .little hhost.1 haddr hhost.2 _ _

def addrOf (ws : List (BitVec 16)) : NpfAddr := fun i => ws.getD i 0

def fromHost (ws : List (BitVec 16)) : NpfCache where
  ip := .v6
  ips := fun _ => addrOf ws
  proto := IPPROTO_ICMPV6
  l4 := .icmp
  payload := []

/-- fd00:0:0:1::1, which goes to 2001:db8:0:2::/64 and back. -/
theorem npt66_rwr_host : ∃ npc', npfNpt66Rwr .little (fromHost [0x00fd, 0, 0, 0x0100, 0, 0, 0, 0x0100]) .NPF_SRC
      (addrOf [0x0120, 0xb80d, 0, 0x0200]) 64 0x46cf = (none, npc') ∧
    (∀ i < 8, masked (npc'.ips .NPF_SRC) 64 i = addrOf [0x0120, 0xb80d, 0, 0x0200] i) ∧
    (¬(48 < 64 ∧ HostZero (npc'.ips .NPF_SRC)) → npfNpt66Rwr .little npc' .NPF_SRC (addrOf [0x00fd, 0, 0, 0x0100]) 64 (~~~0x46cf) =
      (none, fromHost [0x00fd, 0, 0, 0x0100, 0, 0, 0, 0x0100])) := by
  have hword : Chosen (addrOf [0x00fd, 0, 0, 0x0100, 0, 0, 0, 0x0100]) 64 4 :=
    .inr ⟨by decide, fun h => absurd (h 7 (by decide) (by decide)) (by decide), by decide, by decide, by decide,
      fun i hlo hhi => absurd hhi (Nat.not_lt.mpr hlo)⟩
  have hip : (fromHost [0x00fd, 0, 0, 0x0100, 0, 0, 0, 0x0100]).ip = .v6 := rfl
  have haddr : (fromHost [0x00fd, 0, 0, 0x0100, 0, 0, 0, 0x0100]).ips .NPF_SRC = addrOf [0x00fd, 0, 0, 0x0100, 0, 0, 0, 0x0100] := rfl
  have hrun := npfNpt66Rwr_of_chosen .little hip (by decide) (by decide) haddr hword (addrOf [0x0120, 0xb80d, 0, 0x0200]) 0x46cf
  obtain ⟨hrewritten, -, hback, -⟩ := npt66_rwr (by decide) (by decide) (show Npt66 _ (addrOf [0x00fd, 0, 0, 0x0100]) _ _ _ from
    ⟨by decide, by decide, by decide⟩) hrun
  exact ⟨_, hrun, hrewritten, hback⟩

/-- fd00:0:0:1:30b9:: becomes 2001:db8:0:2::, which is refused on the return; and fd00:0:0:15::1 does not get the outer prefix
2001:db8:0:20::/60, because the mask inside of a word is for the wrong bits of it. -/
theorem npt66_rwr_limits :
    (∃ npc', Npt66 (addrOf [0x00fd, 0, 0, 0x0100, 0xb930]) (addrOf [0x00fd, 0, 0, 0x0100]) (addrOf [0x0120, 0xb80d, 0, 0x0200]) 64 0x46cf ∧
      npfNpt66Rwr .little (fromHost [0x00fd, 0, 0, 0x0100, 0xb930]) .NPF_SRC (addrOf [0x0120, 0xb80d, 0, 0x0200]) 64 0x46cf = (none, npc') ∧
      npfNpt66Rwr .little npc' .NPF_SRC (addrOf [0x00fd, 0, 0, 0x0100]) 64 (~~~0x46cf) = (some .EINVAL, npc')) ∧
    ∃ npc', Npt66 (addrOf [0x00fd, 0, 0, 0x1500, 0, 0, 0, 0x0100]) (addrOf [0x00fd, 0, 0, 0x1000])
        (addrOf [0x0120, 0xb80d, 0, 0x2000]) 60 0x37cf ∧
      npfNpt66Rwr .little (fromHost [0x00fd, 0, 0, 0x1500, 0, 0, 0, 0x0100]) .NPF_SRC (addrOf [0x0120, 0xb80d, 0, 0x2000]) 60 0x37cf =
        (none, npc') ∧
      masked (npc'.ips .NPF_SRC) 60 3 ≠ addrOf [0x0120, 0xb80d, 0, 0x2000] 3 := by
  have hrefused : Chosen (addrOf [0x00fd, 0, 0, 0x0100, 0xb930]) 64 4 :=
    .inr ⟨by decide, fun h => absurd (h 4 (by decide) (by decide)) (by decide), by decide, by decide, by decide,
      fun i hlo hhi => absurd hhi (Nat.not_lt.mpr hlo)⟩
  have hmisplaced : Chosen (addrOf [0x00fd, 0, 0, 0x1500, 0, 0, 0, 0x0100]) 60 4 :=
    .inr ⟨by decide, fun h => absurd (h 7 (by decide) (by decide)) (by decide), by decide, by decide, by decide,
      fun i hlo hhi => absurd hhi (Nat.not_lt.mpr hlo)⟩
  refine ⟨⟨_, ⟨by decide, by decide, by decide⟩, npfNpt66Rwr_accepted .little rfl rfl hrefused _ _, ?_⟩,
    ⟨_, ⟨by decide, by decide, by decide⟩, npfNpt66Rwr_accepted .little rfl rfl hmisplaced _ _, ?_⟩⟩
  · have hzero : HostZero (npt66Adjust (npt66Prefix (addrOf [0x00fd, 0, 0, 0x0100, 0xb930]) (addrOf [0x0120, 0xb80d, 0, 0x0200]) 64) 4 0x46cf) := by
      intro i hlo hhi
      rw [npt66Adjust_eq]
      obtain rfl | rfl | rfl | rfl : i = 4 ∨ i = 5 ∨ i = 6 ∨ i = 7 := by omega
      all_goals decide
    exact npfNpt66Rwr_refused .little (by decide) (ips_set _ _ _) hzero _ _
  · decide

end NetBSD.Net.Npf.Inet
