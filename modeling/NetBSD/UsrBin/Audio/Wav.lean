import Mathlib.Data.BitVec

/-! The parser of WAV headers (`usr.bin/audio/common/wav.c`).

A file is a list of chunks, each with a name, a length, and that many bytes. `audio_wav_parse_hdr` walks over the chunks up to the one with
the format, and from there up to the one with the samples. Its pointer `where` is here an offset into the header, on a little-endian host. -/
namespace NetBSD.UsrBin.Audio
open List

abbrev Byte := BitVec 8

inductive AudioError where
  | ENOENT
  | ESHORTHDR
  | EWAVUNSUPP
  | EWAVBADPCM
  | EWAVNODATA

/-- Why there is no offset: a byte behind the buffer is read, the rounds of a loop are not enough, or an error is returned. -/
inductive Stop where
  | beyond
  | rounds
  | error (e : AudioError)

inductive Encoding where
  | ULINEAR_LE
  | SLINEAR_LE
  | ALAW
  | ULAW

def WAVE_FORMAT_PCM : Nat := 0x0001
def WAVE_FORMAT_ADPCM : Nat := 0x0002
def WAVE_FORMAT_ALAW : Nat := 0x0006
def WAVE_FORMAT_MULAW : Nat := 0x0007
def WAVE_FORMAT_OKI_ADPCM : Nat := 0x0010
def WAVE_FORMAT_IMA_ADPCM : Nat := 0x0011
def WAVE_FORMAT_DIGISTD : Nat := 0x0015
def WAVE_FORMAT_DIGIFIX : Nat := 0x0016
def WAVE_FORMAT_EXTENSIBLE : Nat := 0xfffe

def strfmt : List Byte := [0x66, 0x6d, 0x74, 0x20]
def strRIFF : List Byte := [0x52, 0x49, 0x46, 0x46]
def strWAVE : List Byte := [0x57, 0x41, 0x56, 0x45]
def strdata : List Byte := [0x64, 0x61, 0x74, 0x61]

def getle (bytes : List Byte) : Nat := bytes.foldr (fun b n => b.toNat + 256 * n) 0

def memcpy (hdr : List Byte) (pos n : Nat) : Except Stop (List Byte) :=
  if pos + n ≤ hdr.length then .ok ((hdr.drop pos).take n) else .error .beyond

structure WavAudioheaderpart where
  name : List Byte
  len : Nat

def wavAudioheaderpart (hdr : List Byte) (pos : Nat) : Except Stop WavAudioheaderpart := do
  let part ← memcpy hdr pos 8
  return ⟨part.take 4, getle (part.drop 4)⟩

/-- A loop up to the chunk of that name or the end: the last header, where it is, and where the next one is. The sum of the length and 8 is
one of 32 bits. -/
def skip (hdr name : List Byte) : Nat → Nat → Except Stop (WavAudioheaderpart × Nat × Nat)
  | 0, _ => .error .rounds
  | fuel + 1, pos => do
    let part ← wavAudioheaderpart hdr pos
    let next := pos + (part.len + 8) % 4294967296
    if next < hdr.length ∧ part.name ≠ name then skip hdr name fuel next else .ok (part, pos, next)

/-- The encoding and the precision. -/
def encoding (fmttag bitsPerSample : Nat) : Except Stop (Encoding × Nat) :=
  if fmttag ∈ [WAVE_FORMAT_PCM, WAVE_FORMAT_ADPCM, WAVE_FORMAT_OKI_ADPCM, WAVE_FORMAT_IMA_ADPCM, WAVE_FORMAT_DIGIFIX, WAVE_FORMAT_DIGISTD] then
    if bitsPerSample = 8 then .ok (.ULINEAR_LE, 8)
    else if bitsPerSample ∈ [16, 24, 32] then .ok (.SLINEAR_LE, bitsPerSample)
    else .error (.error .EWAVBADPCM)
  else if fmttag = WAVE_FORMAT_ALAW then .ok (.ALAW, 8)
  else if fmttag = WAVE_FORMAT_MULAW then .ok (.ULAW, 8)
  else .error (.error .EWAVUNSUPP)

/-- The tag, or that of the extension. -/
def fmtTag (hdr : List Byte) (owhere next tag : Nat) : Except Stop Nat :=
  if tag = WAVE_FORMAT_EXTENSIBLE then
    if next - owhere < 16 + 24 then .error (.error .ESHORTHDR)
    else do
      let ext ← memcpy hdr (owhere + 16) 24
      if getle (ext.take 2) < 22 then .error (.error .ESHORTHDR) else .ok (getle ((ext.drop 8).take 2))
  else .ok tag

structure Format where
  enc : Encoding
  prec : Nat
  sample : Nat
  channels : Nat

/-- What the chunk at `owhere` says. -/
def format (hdr : List Byte) (owhere next : Nat) : Except Stop Format := do
  let fmt ← memcpy hdr (owhere + 8) 16
  let fmttag ← fmtTag hdr owhere next (getle (fmt.take 2))
  let (enc, prec) ← encoding fmttag (getle ((fmt.drop 14).take 2))
  return ⟨enc, prec, getle ((fmt.drop 4).take 4), getle ((fmt.drop 2).take 2)⟩

/-- The offset of the samples, their format, and their size. -/
def audioWavParseHdr (fuel : Nat) (hdr : List Byte) : Except Stop (Nat × Format × Nat) :=
  if hdr.length < 32 then .error (.error .ENOENT)
  else if hdr.take 4 ≠ strRIFF then .error (.error .ENOENT)
  else if (hdr.drop 8).take 4 ≠ strWAVE then .error (.error .ENOENT)
  else do
    let (_, owhere, next) ← skip hdr strfmt fuel 12
    if next + 16 > hdr.length then .error (.error .ESHORTHDR)
    else
      let fmt ← format hdr owhere next
      let (part, owhere, next) ← skip hdr strdata fuel next
      if (next : Int) - part.len ≤ hdr.length then .ok (owhere + 8, fmt, part.len) else .error (.error .EWAVNODATA)

/-! ### The chunks of a file -/

def nameAt (hdr : List Byte) (pos : Nat) : List Byte := (hdr.drop pos).take 4

def lenAt (hdr : List Byte) (pos : Nat) : Nat := getle ((hdr.drop (pos + 4)).take 4)

/-- The next chunk, for 32 bits. -/
def nextAt (hdr : List Byte) (pos : Nat) : Nat := pos + (lenAt hdr pos + 8) % 4294967296

/-- The chunks that are come to from one on, up to that of the name or the last one. -/
inductive Reached (hdr name : List Byte) : Nat → Nat → Prop where
  | here (pos : Nat) : Reached hdr name pos pos
  | next {pos e : Nat} : nextAt hdr pos < hdr.length → nameAt hdr pos ≠ name → Reached hdr name (nextAt hdr pos) e → Reached hdr name pos e

/-- The chunk at which a loop ends. -/
def Ends (hdr name : List Byte) (pos e : Nat) : Prop := Reached hdr name pos e ∧ (nameAt hdr e = name ∨ hdr.length ≤ nextAt hdr e)

/-- Each header is inside the buffer, and none that is passed has a length that leads back to it. -/
def Clean (hdr name : List Byte) (pos : Nat) : Prop :=
  ∀ e, Reached hdr name pos e → e + 8 ≤ hdr.length ∧ (nameAt hdr e ≠ name → lenAt hdr e ≠ 4294967288)

/-- All of a format is in its chunk, which ends before another one. -/
def Complete (hdr : List Byte) (f d : Nat) : Prop := 16 ≤ lenAt hdr f ∧ f + 8 + lenAt hdr f ≤ d

def chunk (hdr : List Byte) (f : Nat) : List Byte := (hdr.drop f).take (8 + lenAt hdr f)

/-- What is to be found: the samples, and the format as its chunk alone gives it. -/
def Found (hdr : List Byte) (n : Nat) (fmt : Format) (datasize : Nat) : Prop :=
  8 ≤ n ∧ n ≤ hdr.length ∧ nameAt hdr (n - 8) = strdata ∧ datasize = lenAt hdr (n - 8) ∧
  ∃ f, Reached hdr strfmt 12 f ∧ nameAt hdr f = strfmt ∧ Complete hdr f (n - 8) ∧ format (chunk hdr f) 0 (chunk hdr f).length = .ok fmt

/-- The parser ends, has read nothing behind the buffer, and what it returns is to be found. -/
def Survived (hdr : List Byte) : Prop :=
  ∃ fuel, audioWavParseHdr fuel hdr ≠ .error .rounds ∧ audioWavParseHdr fuel hdr ≠ .error .beyond ∧
    ∀ n fmt datasize, audioWavParseHdr fuel hdr = .ok (n, fmt, datasize) → Found hdr n fmt datasize

def IsWav (hdr : List Byte) : Prop := 32 ≤ hdr.length ∧ hdr.take 4 = strRIFF ∧ nameAt hdr 8 = strWAVE

/-- The condition on the chunks: a walk to the format and, where that is there and known, one to the samples, which lie behind it. -/
def Chunked (hdr : List Byte) : Prop :=
  IsWav hdr → Clean hdr strfmt 12 ∧ ∀ f, Ends hdr strfmt 12 f → nextAt hdr f + 16 ≤ hdr.length → f + 24 ≤ hdr.length ∧
    ∀ fmt, format hdr f (nextAt hdr f) = .ok fmt → Clean hdr strdata (nextAt hdr f) ∧
      ∀ d, Ends hdr strdata (nextAt hdr f) d → nameAt hdr d = strdata ∧ Complete hdr f d

variable {hdr name : List Byte} {pos e f d fuel : Nat} {part : WavAudioheaderpart} {next : Nat} {fmt : Format}

/-! ### A walk over chunks -/

theorem memcpy_of_le {n : Nat} (h : pos + n ≤ hdr.length) : memcpy hdr pos n = .ok ((hdr.drop pos).take n) := if_pos h

theorem memcpy_of_lt {n : Nat} (h : hdr.length < pos + n) : memcpy hdr pos n = .error .beyond := if_neg (Nat.not_le.mpr h)

theorem wavAudioheaderpart_of_le (h : pos + 8 ≤ hdr.length) : wavAudioheaderpart hdr pos = .ok ⟨nameAt hdr pos, lenAt hdr pos⟩ := by
  rw [wavAudioheaderpart, memcpy_of_le h]
  change Except.ok (WavAudioheaderpart.mk _ _) = _
  rw [take_take, drop_take, drop_drop]
  rfl

theorem skip_succ (h : pos + 8 ≤ hdr.length) : skip hdr name (fuel + 1) pos =
    if nextAt hdr pos < hdr.length ∧ nameAt hdr pos ≠ name then skip hdr name fuel (nextAt hdr pos)
    else .ok (⟨nameAt hdr pos, lenAt hdr pos⟩, pos, nextAt hdr pos) := by
  rw [skip, wavAudioheaderpart_of_le h]
  rfl

theorem skip_beyond (h : hdr.length < pos + 8) : skip hdr name (fuel + 1) pos = .error .beyond := by
  rw [skip, wavAudioheaderpart, memcpy_of_lt h]
  rfl

theorem getle_lt (bytes : List Byte) : getle bytes < 256 ^ bytes.length := by
  induction bytes with
  | nil => exact one_pos
  | cons b bytes ih =>
    have hb := b.isLt
    rw [length_cons, Nat.pow_succ]
    change b.toNat + 256 * getle bytes < _
    omega

theorem lenAt_lt (hdr : List Byte) (pos : Nat) : lenAt hdr pos < 4294967296 := by
  have hlen : ((hdr.drop (pos + 4)).take 4).length ≤ 4 := length_take_le _ _
  exact lt_of_lt_of_le (getle_lt _) (Nat.pow_le_pow_right (by decide) hlen)

theorem or_of_stop (h : ¬(nextAt hdr pos < hdr.length ∧ nameAt hdr pos ≠ name)) : nameAt hdr pos = name ∨ hdr.length ≤ nextAt hdr pos := by
  by_cases hname : nameAt hdr pos = name
  · exact .inl hname
  · exact .inr (Nat.not_lt.mp fun hlt => h ⟨hlt, hname⟩)

theorem Clean.skip (hclean : Clean hdr name pos) (hfuel : hdr.length - pos < fuel) :
    ∃ e, skip hdr name fuel pos = .ok (⟨nameAt hdr e, lenAt hdr e⟩, e, nextAt hdr e) ∧ Ends hdr name pos e := by
  induction fuel generalizing pos with
  | zero => exact absurd hfuel (Nat.not_lt_zero _)
  | succ fuel ih =>
    obtain ⟨hinside, hlen⟩ := hclean pos (.here pos)
    rw [skip_succ hinside]
    split
    · next hpass =>
      have hforward : pos < nextAt hdr pos := by
        have hne := hlen hpass.2
        have hlt := lenAt_lt hdr pos
        rw [nextAt]
        omega
      obtain ⟨e, heq, hreached, hend⟩ := ih (fun e he => hclean e (.next hpass.1 hpass.2 he)) (by omega)
      exact ⟨e, heq, .next hpass.1 hpass.2 hreached, hend⟩
    · next hstop => exact ⟨pos, rfl, .here pos, or_of_stop hstop⟩

theorem skip_error {s : Stop} (hskip : skip hdr name fuel pos = .error s) : s = .rounds ∨ s = .beyond := by
  induction fuel generalizing pos with
  | zero => exact .inl (Except.error.inj hskip).symm
  | succ fuel ih =>
    by_cases hle : pos + 8 ≤ hdr.length
    · rw [skip_succ hle] at hskip
      split at hskip
      · exact ih hskip
      · cases hskip
    · rw [skip_beyond (Nat.not_le.mp hle)] at hskip
      exact .inr (Except.error.inj hskip).symm

theorem skip_stuck (hinside : nextAt hdr pos < hdr.length) (hname : nameAt hdr pos ≠ name) (hself : nextAt hdr pos = pos) (fuel : Nat)
    {r : WavAudioheaderpart × Nat × Nat} : skip hdr name fuel pos ≠ .ok r := by
  induction fuel with
  | zero => exact fun heq => by cases heq
  | succ fuel ih =>
    by_cases hle : pos + 8 ≤ hdr.length
    · rw [skip_succ hle, if_pos ⟨hinside, hname⟩, hself]
      exact ih
    · rw [skip_beyond (Nat.not_le.mp hle)]
      exact fun heq => by cases heq

theorem skip_ok {r : WavAudioheaderpart × Nat × Nat} (hskip : skip hdr name fuel pos = .ok r) :
    Clean hdr name pos ∧ ∃ e, Ends hdr name pos e ∧ r = (⟨nameAt hdr e, lenAt hdr e⟩, e, nextAt hdr e) := by
  induction fuel generalizing pos with
  | zero => cases hskip
  | succ fuel ih =>
    by_cases hle : pos + 8 ≤ hdr.length
    · have hself : lenAt hdr pos = 4294967288 → nextAt hdr pos = pos := by
        intro hlen
        rw [nextAt, hlen, Nat.mod_self, add_zero]
      have hstep := hskip
      rw [skip_succ hle] at hstep
      split at hstep
      · next hpass =>
        obtain ⟨hclean, e, hends, heq⟩ := ih hstep
        refine ⟨?_, e, ⟨.next hpass.1 hpass.2 hends.1, hends.2⟩, heq⟩
        intro e hreached
        cases hreached with
        | here => exact ⟨hle, fun _ hlen => skip_stuck hpass.1 hpass.2 (hself hlen) _ hskip⟩
        | next _ _ hreached => exact hclean e hreached
      · next hstop =>
        refine ⟨?_, pos, ⟨.here pos, or_of_stop hstop⟩, (Except.ok.inj hstep).symm⟩
        intro e hreached
        cases hreached with
        | here =>
          refine ⟨hle, fun hname hlen => hstop ⟨?_, hname⟩⟩
          rw [hself hlen]
          omega
        | next hlt hname => exact absurd ⟨hlt, hname⟩ hstop
    · rw [skip_beyond (Nat.not_le.mp hle)] at hskip
      cases hskip

theorem Ends.unique (h : Ends hdr name pos e) (h' : Ends hdr name pos d) : e = d := by
  obtain ⟨hreached, hend⟩ := h
  induction hreached with
  | here pos =>
    cases h'.1 with
    | here => rfl
    | next hlt hname => exact absurd hend (not_or.mpr ⟨hname, Nat.not_le.mpr hlt⟩)
  | next hlt hname _ ih =>
    obtain ⟨hreached', hend'⟩ := h'
    cases hreached' with
    | here => exact absurd hend' (not_or.mpr ⟨hname, Nat.not_le.mpr hlt⟩)
    | next _ _ hreached' => exact ih ⟨hreached', hend'⟩ hend

theorem fmtTag_error {tag : Nat} {s : Stop} (h : next ≤ hdr.length) (htag : fmtTag hdr f next tag = .error s) : s = .error .ESHORTHDR := by
  rw [fmtTag] at htag
  split at htag
  · split at htag
    · exact (Except.error.inj htag).symm
    rw [memcpy_of_le (by omega)] at htag
    change (if _ then _ else _) = _ at htag
    split at htag
    · exact (Except.error.inj htag).symm
    · cases htag
  · cases htag

theorem encoding_error {tag bits : Nat} {s : Stop} (henc : encoding tag bits = .error s) : ∃ e, s = .error e := by
  rw [encoding] at henc
  split_ifs at henc
  all_goals exact ⟨_, (Except.error.inj henc).symm⟩

theorem format_error {s : Stop} (hread : f + 24 ≤ hdr.length) (h : next ≤ hdr.length) (hformat : format hdr f next = .error s) :
    ∃ e, s = .error e := by
  rw [format, memcpy_of_le (by omega)] at hformat
  change (fmtTag hdr f next _).bind _ = _ at hformat
  cases htag : fmtTag hdr f next (getle (((hdr.drop (f + 8)).take 16).take 2)) with
  | error s' =>
    rw [htag] at hformat
    exact ⟨_, (Except.error.inj hformat).symm.trans (fmtTag_error h htag)⟩
  | ok tag =>
    rw [htag] at hformat
    change (encoding tag _).bind _ = _ at hformat
    cases henc : encoding tag (getle ((((hdr.drop (f + 8)).take 16).drop 14).take 2)) with
    | error s' =>
      rw [henc] at hformat
      obtain rfl := Except.error.inj hformat
      exact encoding_error henc
    | ok p =>
      rw [henc] at hformat
      cases hformat

theorem length_chunk (h : f + 8 + lenAt hdr f ≤ hdr.length) : (chunk hdr f).length = 8 + lenAt hdr f := by
  rw [chunk, length_take, length_drop]
  omega

theorem memcpy_chunk {k n : Nat} (h : f + 8 + lenAt hdr f ≤ hdr.length) (hk : k + n ≤ 8 + lenAt hdr f) :
    memcpy (chunk hdr f) k n = memcpy hdr (f + k) n := by
  rw [memcpy_of_le (by rwa [length_chunk h]), memcpy_of_le (by omega), chunk, drop_take, take_take, drop_drop, min_eq_left (by omega)]

theorem fmtTag_chunk {tag t : Nat} (h : f + 8 + lenAt hdr f ≤ hdr.length) (htag : fmtTag hdr f (nextAt hdr f) tag = .ok t) :
    fmtTag (chunk hdr f) 0 (chunk hdr f).length tag = .ok t := by
  rw [fmtTag] at htag ⊢
  split at htag
  · next hext =>
    have hmod := Nat.mod_le (lenAt hdr f + 8) 4294967296
    rw [if_pos hext]
    split at htag
    · cases htag
    · next hlong =>
      rw [nextAt] at hlong
      rwa [length_chunk h, if_neg (by omega), memcpy_chunk h (by omega), zero_add]
  · next hext => rwa [if_neg hext]

theorem format_chunk (hcomplete : Complete hdr f d) (hd : d ≤ hdr.length) (hformat : format hdr f (nextAt hdr f) = .ok fmt) :
    format (chunk hdr f) 0 (chunk hdr f).length = .ok fmt := by
  obtain ⟨hlen, hend⟩ := hcomplete
  rw [format] at hformat ⊢
  rw [memcpy_chunk (by omega) (by omega)]
  rw [memcpy_of_le (by omega)] at hformat ⊢
  change (fmtTag hdr f (nextAt hdr f) _).bind _ = _ at hformat
  cases htag : fmtTag hdr f (nextAt hdr f) (getle (((hdr.drop (f + 8)).take 16).take 2)) with
  | error s =>
    rw [htag] at hformat
    cases hformat
  | ok t =>
    rw [htag] at hformat
    change (fmtTag (chunk hdr f) 0 _ _).bind _ = _
    rwa [zero_add, fmtTag_chunk (by omega) htag]

/-! ### The parser -/

theorem audioWavParseHdr_of_not (h : ¬IsWav hdr) : audioWavParseHdr fuel hdr = .error (.error .ENOENT) := by
  rw [audioWavParseHdr]
  split
  · rfl
  · next hlen =>
    split
    · rfl
    · next hriff =>
      refine if_pos fun hwave => h ⟨Nat.not_lt.mp hlen, not_not.mp hriff, hwave⟩

theorem audioWavParseHdr_of (h : IsWav hdr) : audioWavParseHdr fuel hdr = (skip hdr strfmt fuel 12).bind fun r =>
    if r.2.2 + 16 > hdr.length then .error (.error .ESHORTHDR)
    else (format hdr r.2.1 r.2.2).bind fun fmt => (skip hdr strdata fuel r.2.2).bind fun r' =>
      if (r'.2.2 : Int) - r'.1.len ≤ hdr.length then .ok (r'.2.1 + 8, fmt, r'.1.len) else .error (.error .EWAVNODATA) := by
  obtain ⟨hlen, hriff, hwave⟩ := h
  rw [audioWavParseHdr, if_neg (Nat.not_lt.mpr hlen), if_neg (not_not.mpr hriff)]
  exact if_neg (not_not.mpr hwave)

section
variable {r : WavAudioheaderpart × Nat × Nat} (hwav : IsWav hdr)
include hwav

theorem parse_unwalked {s : Stop} (hskip : skip hdr strfmt fuel 12 = .error s) : audioWavParseHdr fuel hdr = .error s := by
  rw [audioWavParseHdr_of hwav, hskip]
  rfl

variable (hskip : skip hdr strfmt fuel 12 = .ok (part, f, next))
include hskip

theorem parse_short (hshort : hdr.length < next + 16) : audioWavParseHdr fuel hdr = .error (.error .ESHORTHDR) := by
  rw [audioWavParseHdr_of hwav, hskip]
  exact if_pos hshort

variable (hlong : next + 16 ≤ hdr.length)
include hlong

theorem parse_unformatted {s : Stop} (hformat : format hdr f next = .error s) : audioWavParseHdr fuel hdr = .error s := by
  rw [audioWavParseHdr_of hwav, hskip]
  refine (if_neg (Nat.not_lt.mpr hlong)).trans ?_
  rw [hformat]
  rfl

theorem parse_undelimited {s : Stop} (hformat : format hdr f next = .ok fmt) (hdata : skip hdr strdata fuel next = .error s) :
    audioWavParseHdr fuel hdr = .error s := by
  rw [audioWavParseHdr_of hwav, hskip]
  refine (if_neg (Nat.not_lt.mpr hlong)).trans ?_
  rw [hformat]
  change (skip hdr strdata fuel next).bind _ = _
  rw [hdata]
  rfl

theorem parse_found (hformat : format hdr f next = .ok fmt)
    (hdata : skip hdr strdata fuel next = .ok (⟨nameAt hdr d, lenAt hdr d⟩, d, nextAt hdr d)) (hd : d + 8 ≤ hdr.length) :
    audioWavParseHdr fuel hdr = .ok (d + 8, fmt, lenAt hdr d) := by
  have hmod := Nat.mod_le (lenAt hdr d + 8) 4294967296
  have hnext : nextAt hdr d = d + (lenAt hdr d + 8) % 4294967296 := rfl
  rw [audioWavParseHdr_of hwav, hskip]
  refine (if_neg (Nat.not_lt.mpr hlong)).trans ?_
  rw [hformat]
  change (skip hdr strdata fuel next).bind _ = _
  rw [hdata]
  refine if_pos ?_
  change (nextAt hdr d : Int) - lenAt hdr d ≤ hdr.length
  omega

end

theorem survived_of_error {e : AudioError} (h : audioWavParseHdr fuel hdr = .error (.error e)) : Survived hdr := by
  refine ⟨fuel, ?_, ?_, ?_⟩
  · rw [h]
    exact fun heq => Stop.noConfusion (Except.error.inj heq)
  · rw [h]
    exact fun heq => Stop.noConfusion (Except.error.inj heq)
  intro n fmt datasize heq
  rw [h] at heq
  cases heq

theorem Survived.chunked (h : Survived hdr) : Chunked hdr := by
  obtain ⟨fuel, hrounds, hbeyond, hfound⟩ := h
  intro hwav
  have hwalked : ∀ {s}, s = .rounds ∨ s = .beyond → audioWavParseHdr fuel hdr ≠ .error s := by
    rintro s (rfl | rfl)
    · exact hrounds
    · exact hbeyond
  cases hskip : skip hdr strfmt fuel 12 with
  | error s => exact absurd (parse_unwalked hwav hskip) (hwalked (skip_error hskip))
  | ok r =>
    obtain ⟨hclean, f, hends, rfl⟩ := skip_ok hskip
    refine ⟨hclean, fun f' hends' hlong => ?_⟩
    obtain rfl := hends.unique hends'
    have hread : f + 24 ≤ hdr.length := by
      by_contra hover
      have hformat : format hdr f (nextAt hdr f) = .error .beyond := by
        rw [format, memcpy_of_lt (by omega)]
        rfl
      exact hbeyond (parse_unformatted hwav hskip hlong hformat)
    refine ⟨hread, fun fmt hformat => ?_⟩
    cases hdata : skip hdr strdata fuel (nextAt hdr f) with
    | error s => exact absurd (parse_undelimited hwav hskip hlong hformat hdata) (hwalked (skip_error hdata))
    | ok r =>
      obtain ⟨hclean', d, hends', rfl⟩ := skip_ok hdata
      refine ⟨hclean', fun d' hends'' => ?_⟩
      obtain rfl := hends'.unique hends''
      obtain ⟨-, -, hname, -, f', hreached, hfmt, hcomplete, -⟩ :=
        hfound _ _ _ (parse_found hwav hskip hlong hformat hdata (hclean' d hends'.1).1)
      obtain rfl := hends.unique ⟨hreached, .inl hfmt⟩
      exact ⟨hname, hcomplete⟩

theorem Chunked.survived (h : Chunked hdr) : Survived hdr := by
  by_cases hwav : IsWav hdr
  · obtain ⟨hclean, hformats⟩ := h hwav
    -- A round for each byte is enough.
    obtain ⟨f, hskip, hends⟩ := hclean.skip (by omega : hdr.length - 12 < hdr.length + 1)
    by_cases hlong : nextAt hdr f + 16 ≤ hdr.length
    · obtain ⟨hread, hsamples⟩ := hformats f hends hlong
      cases hformat : format hdr f (nextAt hdr f) with
      | error s =>
        obtain ⟨e, rfl⟩ := format_error hread (by omega) hformat
        exact survived_of_error (parse_unformatted hwav hskip hlong hformat)
      | ok fmt =>
        obtain ⟨hclean', hdata⟩ := hsamples fmt hformat
        obtain ⟨d, hskip', hends'⟩ := hclean'.skip (by omega : hdr.length - nextAt hdr f < hdr.length + 1)
        obtain ⟨hname, hcomplete⟩ := hdata d hends'
        have hd := (hclean' d hends'.1).1
        have hfmt : nameAt hdr f = strfmt := hends.2.resolve_right (by omega)
        have hparse := parse_found hwav hskip hlong hformat hskip' hd
        refine ⟨hdr.length + 1, ?_, ?_, ?_⟩
        · rw [hparse]
          exact fun heq => by cases heq
        · rw [hparse]
          exact fun heq => by cases heq
        intro n fmt' datasize heq
        obtain ⟨rfl, rfl, rfl⟩ : d + 8 = n ∧ fmt = fmt' ∧ lenAt hdr d = datasize := by
          simpa only [Except.ok.injEq, Prod.mk.injEq] using hparse.symm.trans heq
        rw [Found, Nat.add_sub_cancel]
        exact ⟨by omega, hd, hname, rfl, f, hends.1, hfmt, hcomplete, format_chunk hcomplete (by omega) hformat⟩
    · exact survived_of_error (parse_short hwav hskip (Nat.not_le.mp hlong))
  · exact survived_of_error (audioWavParseHdr_of_not hwav : audioWavParseHdr 0 hdr = _)

/-- **The header parser.** It survives a file exactly if its chunks are as they should be. -/
theorem wav_survived : Survived hdr ↔ Chunked hdr := ⟨Survived.chunked, Chunked.survived⟩

/-- The header of a file with a format, and what follows it. -/
def wavFile (len : Byte) (rest : List Byte) : List Byte :=
  strRIFF ++ [0, 0, 0, 0] ++ strWAVE ++ strfmt ++ [len, 0, 0, 0] ++ [1, 0, 1, 0, 0x40, 0x1f, 0, 0, 0x40, 0x1f, 0, 0, 1, 0, 8, 0] ++ rest

theorem Survived.samples {rest : List Byte} (hlen : 16 ≤ rest.length) (h : Survived (wavFile 16 rest)) :
    Clean (wavFile 16 rest) strdata 36 ∧ ∀ d, Ends (wavFile 16 rest) strdata 36 d → nameAt (wavFile 16 rest) d = strdata := by
  have hlength : (wavFile 16 rest).length = rest.length + 36 := rfl
  obtain ⟨-, hformats⟩ := h.chunked ⟨by omega, rfl, rfl⟩
  have hnext : nextAt (wavFile 16 rest) 12 = 36 := rfl
  obtain ⟨-, hsamples⟩ := hformats 12 ⟨.here 12, .inl rfl⟩ (by omega)
  have hformat : format (wavFile 16 rest) 12 36 = .ok ⟨.ULINEAR_LE, 8, 8000, 1⟩ := by
    rw [format, memcpy_of_le (by omega)]
    rfl
  obtain ⟨hclean, hends⟩ := hsamples _ hformat
  exact ⟨hclean, fun d hd => (hends d hd).1⟩

/-- A last chunk with another name is taken for the samples; a length that leads back to its chunk has no end; and the header of a chunk
that is cut off is read behind the buffer. -/
theorem wav_not_survived : ¬Survived (wavFile 16 ([0x4c, 0x49, 0x53, 0x54] ++ [8, 0, 0, 0] ++ replicate 8 0)) ∧
    ¬Survived (wavFile 16 ([0x4c, 0x49, 0x53, 0x54] ++ [0xf8, 0xff, 0xff, 0xff] ++ replicate 8 0)) ∧
    ¬Survived (wavFile 16 ([0x4c, 0x49, 0x53, 0x54] ++ [4, 0, 0, 0] ++ replicate 8 0)) := by
  refine ⟨fun h => ?_, fun h => ?_, fun h => ?_⟩
  · exact absurd ((h.samples (by decide)).2 36 ⟨.here 36, .inr (by decide)⟩) (by decide)
  · exact absurd rfl (((h.samples (by decide)).1 36 (.here 36)).2 (by decide))
  · exact absurd ((h.samples (by decide)).1 48 (.next (by decide) (by decide) (.here 48))).1 (by decide)

end NetBSD.UsrBin.Audio
