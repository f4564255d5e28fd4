import Mathlib.Data.List.DropRight
import Mathlib.Data.Fin.Basic

/-! Names in a directory.

A name of Unix is a list of bytes. It is converted to an 8.3 name (`unix2dosfn`) and, cut into
segments of 13 characters, to the entries of a long name (`unix2winfn`), which are compared
with a name (`winChkName`) and converted back (`win2unixfn`). The words of an entry are in
little endian order; `be` says that the machine's order is the other. `none` is an access
outside of an array. -/
namespace NetBSD.Fs.Msdosfs

abbrev Byte := Fin 256

abbrev WIN_CHARS : Nat := 13

abbrev WIN_MAXLEN : Nat := 255

abbrev WIN_LAST : Nat := 0x40

abbrev WIN_CNT : Nat := 0x3f

abbrev SLOT_E5 : Byte := 0x05

def unix2dos : List Nat := [
  0x00, 0x00, 0x00, 0x00, 0x00, 0x00, 0x00, 0x00, 0x00, 0x00, 0x00, 0x00, 0x00, 0x00, 0x00, 0x00,
  0x00, 0x00, 0x00, 0x00, 0x00, 0x00, 0x00, 0x00, 0x00, 0x00, 0x00, 0x00, 0x00, 0x00, 0x00, 0x00,
  0x00, 0x21, 0x00, 0x23, 0x24, 0x25, 0x26, 0x27, 0x28, 0x29, 0x00, 0x2b, 0x00, 0x2d, 0x00, 0x00,
  0x30, 0x31, 0x32, 0x33, 0x34, 0x35, 0x36, 0x37, 0x38, 0x39, 0x00, 0x00, 0x00, 0x00, 0x00, 0x00,
  0x40, 0x41, 0x42, 0x43, 0x44, 0x45, 0x46, 0x47, 0x48, 0x49, 0x4a, 0x4b, 0x4c, 0x4d, 0x4e, 0x4f,
  0x50, 0x51, 0x52, 0x53, 0x54, 0x55, 0x56, 0x57, 0x58, 0x59, 0x5a, 0x00, 0x00, 0x00, 0x5e, 0x5f,
  0x60, 0x41, 0x42, 0x43, 0x44, 0x45, 0x46, 0x47, 0x48, 0x49, 0x4a, 0x4b, 0x4c, 0x4d, 0x4e, 0x4f,
  0x50, 0x51, 0x52, 0x53, 0x54, 0x55, 0x56, 0x57, 0x58, 0x59, 0x5a, 0x7b, 0x00, 0x7d, 0x7e, 0x00,
  0x00, 0x00, 0x00, 0x00, 0x00, 0x00, 0x00, 0x00, 0x00, 0x00, 0x00, 0x00, 0x00, 0x00, 0x00, 0x00,
  0x00, 0x00, 0x00, 0x00, 0x00, 0x00, 0x00, 0x00, 0x00, 0x00, 0x00, 0x00, 0x00, 0x00, 0x00, 0x00,
  0x00, 0xad, 0xbd, 0x9c, 0xcf, 0xbe, 0xdd, 0xf5, 0xf9, 0xb8, 0xa6, 0xae, 0xaa, 0xf0, 0xa9, 0xee,
  0xf8, 0xf1, 0xfd, 0xfc, 0xef, 0xe6, 0xf4, 0xfa, 0xf7, 0xfb, 0xa7, 0xaf, 0xac, 0xab, 0xf3, 0xa8,
  0xb7, 0xb5, 0xb6, 0xc7, 0x8e, 0x8f, 0x92, 0x80, 0xd4, 0x90, 0xd2, 0xd3, 0xde, 0xd6, 0xd7, 0xd8,
  0xd1, 0xa5, 0xe3, 0xe0, 0xe2, 0xe5, 0x99, 0x9e, 0x9d, 0xeb, 0xe9, 0xea, 0x9a, 0xed, 0xe8, 0xe1,
  0xb7, 0xb5, 0xb6, 0xc7, 0x8e, 0x8f, 0x92, 0x80, 0xd4, 0x90, 0xd2, 0xd3, 0xde, 0xd6, 0xd7, 0xd8,
  0xd1, 0xa5, 0xe3, 0xe0, 0xe2, 0xe5, 0x99, 0xf6, 0x9d, 0xeb, 0xe9, 0xea, 0x9a, 0xed, 0xe8, 0x98]

def u2l : List Nat := [
  0x00, 0x01, 0x02, 0x03, 0x04, 0x05, 0x06, 0x07, 0x08, 0x09, 0x0a, 0x0b, 0x0c, 0x0d, 0x0e, 0x0f,
  0x10, 0x11, 0x12, 0x13, 0x14, 0x15, 0x16, 0x17, 0x18, 0x19, 0x1a, 0x1b, 0x1c, 0x1d, 0x1e, 0x1f,
  0x20, 0x21, 0x22, 0x23, 0x24, 0x25, 0x26, 0x27, 0x28, 0x29, 0x2a, 0x2b, 0x2c, 0x2d, 0x2e, 0x2f,
  0x30, 0x31, 0x32, 0x33, 0x34, 0x35, 0x36, 0x37, 0x38, 0x39, 0x3a, 0x3b, 0x3c, 0x3d, 0x3e, 0x3f,
  0x40, 0x61, 0x62, 0x63, 0x64, 0x65, 0x66, 0x67, 0x68, 0x69, 0x6a, 0x6b, 0x6c, 0x6d, 0x6e, 0x6f,
  0x70, 0x71, 0x72, 0x73, 0x74, 0x75, 0x76, 0x77, 0x78, 0x79, 0x7a, 0x5b, 0x5c, 0x5d, 0x5e, 0x5f,
  0x60, 0x61, 0x62, 0x63, 0x64, 0x65, 0x66, 0x67, 0x68, 0x69, 0x6a, 0x6b, 0x6c, 0x6d, 0x6e, 0x6f,
  0x70, 0x71, 0x72, 0x73, 0x74, 0x75, 0x76, 0x77, 0x78, 0x79, 0x7a, 0x7b, 0x7c, 0x7d, 0x7e, 0x7f,
  0x80, 0x81, 0x82, 0x83, 0x84, 0x85, 0x86, 0x87, 0x88, 0x89, 0x8a, 0x8b, 0x8c, 0x8d, 0x8e, 0x8f,
  0x90, 0x91, 0x92, 0x93, 0x94, 0x95, 0x96, 0x97, 0x98, 0x99, 0x9a, 0x9b, 0x9c, 0x9d, 0x9e, 0x9f,
  0xa0, 0xa1, 0xa2, 0xa3, 0xa4, 0xa5, 0xa6, 0xa7, 0xa8, 0xa9, 0xaa, 0xab, 0xac, 0xad, 0xae, 0xaf,
  0xb0, 0xb1, 0xb2, 0xb3, 0xb4, 0xb5, 0xb6, 0xb7, 0xb8, 0xb9, 0xba, 0xbb, 0xbc, 0xbd, 0xbe, 0xbf,
  0xe0, 0xe1, 0xe2, 0xe3, 0xe4, 0xe5, 0xe6, 0xe7, 0xe8, 0xe9, 0xea, 0xeb, 0xec, 0xed, 0xee, 0xef,
  0xf0, 0xf1, 0xf2, 0xf3, 0xf4, 0xf5, 0xf6, 0xd7, 0xf8, 0xf9, 0xfa, 0xfb, 0xfc, 0xfd, 0xfe, 0xdf,
  0xe0, 0xe1, 0xe2, 0xe3, 0xe4, 0xe5, 0xe6, 0xe7, 0xe8, 0xe9, 0xea, 0xeb, 0xec, 0xed, 0xee, 0xef,
  0xf0, 0xf1, 0xf2, 0xf3, 0xf4, 0xf5, 0xf6, 0xf7, 0xf8, 0xf9, 0xfa, 0xfb, 0xfc, 0xfd, 0xfe, 0xff]

def byte (n : Nat) : Byte := Fin.ofNat 256 n

def htole16 (be : Bool) (w : Nat) : Nat := if be then w % 256 * 256 + w / 256 % 256 else w

/-! ### 8.3 names -/

def isBlankOrDot (b : Byte) : Bool := b = 0x20 ∨ b = 0x2e

/-- The search for the extension: where the text behind the last dot that text follows begins,
and where the one behind trailing dots. -/
def findExtension : List Byte → Nat → Option Nat → Option Nat → Option Nat × Option Nat
  | [], _, dp, dp1 => (dp, dp1)
  | c :: cs, cp, dp, dp1 =>
    if c = 0x2e then findExtension cs (cp + 1) dp (if dp1 = none then some (cp + 1) else dp1)
    else if c = 0x20 then findExtension cs (cp + 1) dp dp1
    else findExtension cs (cp + 1) (if dp1 = none then dp else dp1) none

/-- Characters are converted until `lim` of them have been stored. One that has no place in an
8.3 name is dropped. Left are the characters not looked at. -/
def convertChars (lim : Nat) (short : Bool) : List Byte → Nat → List Byte → List Byte × Nat × List Byte
  | [], conv, dn => ([], conv, dn)
  | c :: cs, conv, dn =>
    if dn.length = lim then (c :: cs, conv, dn)
    else
      let d : Byte := if c = 0x20 ∧ short then 0x20 else byte (unix2dos.getD c 0)
      let conv := if c ≠ d ∧ conv ≠ 3 then 2 else conv
      if d = 0 then convertChars lim short cs 3 dn else convertChars lim short cs conv (dn ++ [d])

def padTo (n : Nat) (dn : List Byte) : List Byte := dn ++ List.replicate (n - dn.length) 0x20

/-- The decimal digits of a generation number, six at most; left is what they do not hold. -/
def genDigits : Nat → Nat → List Byte → Nat × List Byte
  | 0, gen, text => (gen, text)
  | n + 1, gen, text => if gen = 0 then (0, text) else genDigits n (gen / 10) (byte (gen % 10 + 0x30) :: text)

/-- A generation number goes behind the name, or over its end. -/
def insertGen (name ext : List Byte) (gen : Nat) : Option (Nat × List Byte) :=
  let (left, text) := genDigits 6 gen []
  let dn := padTo 8 name
  if left ≠ 0 then some (0, dn ++ ext)
  else
    let i := (dn.rdropWhile (· = 0x20)).length
    -- A name of blanks only has the search for its end leave the array.
    if i = 0 then none
    else
      let i := if text.length + 1 > 8 - i then 8 - (text.length + 1) else i
      some (3, padTo 8 (dn.take i ++ 0x7e :: text) ++ ext)

/-- The answer and the 8.3 name: 0 if there is none, 1 if it is the same, 2 if characters had to
be converted, 3 if some were dropped and a generation number is in it. -/
def unix2dosfn (un : List Byte) (gen : Nat) : Option (Nat × List Byte) :=
  let answer (n : Nat) (name : List Byte) : Option (Nat × List Byte) := some (n, padTo 11 name)
  if un = [0x2e] then answer (if gen ≤ 1 then 1 else 0) [0x2e]
  else if un = [0x2e, 0x2e] then answer (if gen ≤ 1 then 1 else 0) [0x2e, 0x2e]
  else if un.all isBlankOrDot then answer 0 []
  else
    let (dp, dp1) := findExtension (un.drop 1) 1 none none
    let (base, conv, ext) := match dp with
      | some dp =>
        let l := match dp1 with
          | some dp1 => dp1 - dp
          | none => un.length - dp
        let (rest, conv, ext) := convertChars 3 false ((un.drop dp).take l) 1 []
        (un.take (dp - 1), if rest ≠ [] then 3 else conv, ext)
      | none => (un.rdropWhile isBlankOrDot, 1, [])
    let (rest, conv, name) := convertChars 8 (base.length ≤ 8) base conv []
    let conv := if rest ≠ [] then 3 else conv
    let name := if name = [] then [0x5f] else name
    let name := if name.head? = some 0xe5 then SLOT_E5 :: name.tail else name
    if conv ≠ 3 then
      if gen > 1 then answer 0 (padTo 8 name ++ ext) else answer conv (padTo 8 name ++ ext)
    else insertGen name (padTo 3 ext) gen

def winChksum (name : List Byte) : Nat := name.foldl (fun s b => (((s <<< 7 ||| s >>> 1) % 256) + b) % 256) 0

/-! ### Characters -/

/-- One character of UTF-8: how many bytes it takes, 0 if there are too few and -1 if it is none. -/
def utf8ucs2 : List Byte → Int × Nat
  | [] => (0, 0)
  | b :: rest =>
    if b.val ≤ 0x7f then (1, b)
    else if b.val ≤ 0xdf then
      match rest with
      | b₁ :: _ => (2, ((b.val &&& 0x1f) <<< 6 ||| (b₁.val &&& 0x3f)) % 65536)
      | [] => (0, 0)
    else if b.val ≤ 0xef then
      match rest with
      | b₁ :: b₂ :: _ => (3, ((b.val &&& 0x1f) <<< 12 ||| (b₁.val &&& 0x3f) <<< 6 ||| (b₂.val &&& 0x3f)) % 65536)
      | _ => (0, 0)
    else (-1, 0)

def utf8ucs2str (be : Bool) : Nat → List Byte → List Nat
  | 0, _ => []
  | m + 1, inp =>
    if inp.head? = none ∨ inp.head? = some 0 then []
    else
      let (inlen, ch) := utf8ucs2 inp
      if inlen ≤ 0 then [] else htole16 be ch :: utf8ucs2str be m (inp.drop inlen.toNat)

def char8ucs2str (be : Bool) : Nat → List Byte → List Nat
  | 0, _ => []
  | _, [] => []
  | m + 1, b :: inp => if b = 0 then [] else htole16 be b :: char8ucs2str be m inp

/-- The bytes of one character, none if fewer than these have room. -/
def ucs2utf8 (be : Bool) (w n : Nat) : List Byte :=
  let inch := htole16 be w
  if inch ≤ 0x7f then if n < 1 then [] else [byte inch]
  else if inch ≤ 0x7ff then if n < 2 then [] else [byte (0xc0 ||| inch >>> 6), byte (0x80 ||| (inch &&& 0x3f))]
  else if n < 3 then [] else
    [byte (0xe0 ||| inch >>> 12), byte (0x80 ||| (inch >>> 6 &&& 0x3f)), byte (0x80 ||| (inch &&& 0x3f))]

def ucs2utf8str (be : Bool) : List Nat → Nat → List Byte
  | [], _ => []
  | w :: ws, m =>
    if w = 0 then []
    else
      let out := ucs2utf8 be w m
      if out = [] then [] else out ++ ucs2utf8str be ws (m - out.length)

def ucs2char8str (be : Bool) : List Nat → Nat → List Byte
  | [], _ => []
  | w :: ws, m =>
    if w = 0 ∨ m < 1 ∨ htole16 be w > 255 then [] else byte (htole16 be w) :: ucs2char8str be ws (m - 1)

/-- The name in words: a terminator, if there is room for two words more, and padding. -/
def ucs2pad (ws : List Nat) (size : Nat) : List Nat :=
  if ws.length < size - 1 then ws ++ 0 :: List.replicate (size - 1 - ws.length) 0xffff
  else ws ++ List.replicate (size - ws.length) 0xffff

/-- Binary search in the table of case foldings: pairs of a character and what it is folded to. -/
def foldSearch (foldmap : List Nat) (w : Nat) : Nat → Nat → Nat → Nat
  | 0, _, _ => w
  | n + 1, low, high =>
    if low < high then
      let mid := (low + high) / 2
      let check := foldmap.getD (2 * mid) 0
      if w = check then foldmap.getD (2 * mid + 1) 0
      else if w < check then foldSearch foldmap w n low mid
      else foldSearch foldmap w n (mid + 1) high
    else w

def ucs2fold (be : Bool) (foldmap : List Nat) (w : Nat) : Nat :=
  htole16 be (foldSearch foldmap (htole16 be w) foldmap.length 0 (foldmap.length / 2))

def ucs2match (be : Bool) (foldmap : List Nat) : Nat → List Nat → List Nat → Option Bool
  | 0, _, _ => some true
  | n + 1, a :: w₁, b :: w₂ =>
    if a = 0 ∨ b = 0 then some (a == b)
    else if ucs2fold be foldmap a ≠ ucs2fold be foldmap b then some false
    else ucs2match be foldmap n w₁ w₂
  | _, _, _ => none

def char8match (be : Bool) : Nat → List Nat → List Nat → Option Bool
  | 0, _, _ => some true
  | n + 1, a :: w₁, b :: w₂ =>
    let u₁ := htole16 be a
    let u₂ := htole16 be b
    if u₁ = 0 ∨ u₂ = 0 then some (u₁ == u₂)
    else if u₁ > 255 ∨ u₂ > 255 then some false
    else if u2l.getD (u₁ &&& 0xff) 0 ≠ u2l.getD (u₂ &&& 0xff) 0 then some false
    else char8match be n w₁ w₂
  | _, _, _ => none

/-! ### Long names -/

/-- An entry of a long name; `part` is `wePart1`, `wePart2` and `wePart3` in a row. -/
structure Winentry where
  cnt : Nat
  chksum : Nat
  part : List Nat

/-- What the mount and the machine say about names. -/
structure Charset where
  utf8 : Bool
  be : Bool
  foldmap : List Nat

namespace Charset
variable (cs : Charset)

def ucs2str (un : List Byte) : List Nat :=
  if cs.utf8 then utf8ucs2str cs.be WIN_MAXLEN un else char8ucs2str cs.be WIN_MAXLEN un

/-- How many entries a name takes. -/
def winSlotCnt (un : List Byte) : Nat :=
  let un := un.rdropWhile isBlankOrDot
  let len := if cs.utf8 then (utf8ucs2str cs.be WIN_MAXLEN un).length else un.length
  (len + (WIN_CHARS - 1)) / WIN_CHARS

/-- Entry `cnt` of a name, counted from 1, and whether more follow. -/
def unix2winfn (un : List Byte) (cnt chksum : Nat) : Option (Winentry × Bool) :=
  let un := un.rdropWhile isBlankOrDot
  let i := (cnt - 1) * WIN_CHARS
  let ws := cs.ucs2str un
  let wn := ucs2pad ws WIN_MAXLEN
  if wn.length < i + WIN_CHARS then none
  else
    let part := (wn.drop i).take WIN_CHARS
    if ws.length > i + WIN_CHARS then some (⟨cnt, chksum, part⟩, true)
    else some (⟨cnt ||| WIN_LAST, chksum, part⟩, false)

/-- The checksum if the entry goes with the name and with the checksum of the entries before
it, else -1. -/
def winChkName (un : List Byte) (wep : Winentry) (chksum : Int) : Option Int :=
  let chksum := if wep.cnt &&& WIN_LAST ≠ 0 then (wep.chksum : Int) else if chksum ≠ wep.chksum then -1 else chksum
  if chksum = -1 then some (-1)
  else
    let i : Int := ((wep.cnt &&& WIN_CNT : Nat) - 1) * WIN_CHARS
    let ws := cs.ucs2str un
    let wn := ucs2pad ws WIN_MAXLEN
    if i ≥ ws.length + 1 then some (-1)
    else if wep.cnt &&& WIN_LAST ≠ 0 ∧ ws.length - i > WIN_CHARS then some (-1)
    else if i < 0 then none
    else
      let found := if cs.utf8 then ucs2match cs.be cs.foldmap WIN_CHARS (wn.drop i.toNat) wep.part
        else char8match cs.be WIN_CHARS (wn.drop i.toNat) wep.part
      found.map fun ok => if ok then chksum else -1

/-- Entries are read from the last one on, and each puts its characters before the name. -/
def win2unixfn (wep : Winentry) (name : List Byte) (chksum : Int) : Int × List Byte :=
  if wep.cnt &&& WIN_CNT > (WIN_MAXLEN + (WIN_CHARS - 1)) / WIN_CHARS ∨ wep.cnt &&& WIN_CNT = 0 then (-1, name)
  else
    let last := wep.cnt &&& WIN_LAST ≠ 0
    let chksum := if last then (wep.chksum : Int) else if chksum ≠ wep.chksum then -1 else chksum
    let name := if last then [] else name
    if chksum = -1 then (-1, name)
    else if wep.part.any (· = 0x2f) then (-1, name)
    else
      let buf := if cs.utf8 then ucs2utf8str cs.be wep.part (WIN_CHARS * 3) else ucs2char8str cs.be wep.part (WIN_CHARS * 3)
      (chksum, (buf ++ name).take 511)

/-- The loop of `createde`, from entry `wcnt` on. -/
def createdeSlots (un : List Byte) (chksum : Nat) : Nat → Nat → Option (List Winentry)
  | 0, _ => some []
  | n + 1, wcnt =>
    (cs.unix2winfn un wcnt chksum).bind fun (wep, more) =>
      if more then (createdeSlots un chksum n (wcnt + 1)).map (wep :: ·) else some [wep]

/-- The entries of a name, in the order of the directory: the last segment comes first. -/
def createde (un : List Byte) (chksum : Nat) : Option (List Winentry) :=
  (cs.createdeSlots un chksum (cs.winSlotCnt un) 1).map List.reverse

end Charset

end NetBSD.Fs.Msdosfs
