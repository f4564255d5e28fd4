import Mathlib.Data.BitVec
import Mathlib.Logic.Function.Basic
import NetBSD.Lib.Ring
import NetBSD.Lib.System

/-! Conversion of the sample rate (`sys/dev/aurateconv.c`).

The filter reads frames from the ring `src` and writes frames to the ring `dst`. Its phase `count`, and in the direction of a
higher rate the two frames that it interpolates between, stay from one call to the next.

A sample is read and written as its bytes in one piece, and the pointers are put back to the start of the ring between samples
only: memory behind the end of a ring is memory. The local pointers `r` and `w` of the source are the rings' own, to which they
are stored back. `fed` is what has been put into `src`, and `drained` what has been taken out of `dst`. -/
namespace NetBSD.Dev.Aurateconv
open Lib

abbrev Byte := BitVec 8
abbrev Value := BitVec 32

inductive Encoding where
  | slinearLE
  | slinearBE
  | other
  deriving DecidableEq

structure AudioParams where
  sampleRate : Nat
  encoding : Encoding
  precision : Nat
  validbits : Nat
  channels : Nat

def audioMaxChannels : Nat := 12

/-! ### Streams -/

/-- `audio_stream_t`; addresses count from `start`, and `size` is `end - start`. -/
structure Stream where
  size : Nat
  buf : Nat → Byte
  inp : Nat
  outp : Nat
  used : Nat

def Stream.wrap (s : Stream) (v : Nat) : Nat := if v ≥ s.size then v - s.size else v

/-- `audio_stream_add_inp`, and `audio_stream_add_outp`. -/
def Stream.addInp (s : Stream) (diff : Nat) : Stream := { s with used := s.used + diff, inp := s.wrap (s.inp + diff) }
def Stream.addOutp (s : Stream) (diff : Nat) : Stream := { s with used := s.used - diff, outp := s.wrap (s.outp + diff) }

def Stream.contents (s : Stream) : List Byte := RingBuffer.contents s.size s.buf s.outp s.used

def Stream.putByte (s : Stream) (b : Byte) : Stream := { s with buf := Function.update s.buf s.inp b }.addInp 1

/-- What a fetcher puts in, which minds the end of the ring. -/
def Stream.fill (s : Stream) (bytes : List Byte) : Stream := bytes.foldl Stream.putByte s

/-- What the reader of the ring takes out. -/
def Stream.drain (s : Stream) (k : Nat) : Stream := { s with used := s.used - k, outp := (s.outp + k) % s.size }

/-! ### Samples -/

/-- The bytes of a sample on a little-endian host, the low one first; `READ_S16BE` and `WRITE_S16BE` take them as they are. -/
def lowFirst (bits : Nat) (en : Encoding) (bytes : List Byte) : List Byte := if en = .slinearBE ∧ bits ≠ 16 then bytes.reverse else bytes

/-- The value of a sample, with its sign. -/
def sample (bits : Nat) (en : Encoding) (bytes : List Byte) : Value :=
  (BitVec.ofNat bits ((lowFirst bits en bytes).foldr (fun b v => b.toNat + 256 * v) 0)).signExtend 32

def sampleBytes (bits : Nat) (en : Encoding) (v : Value) : List Byte :=
  lowFirst bits en ((List.range (bits / 8)).map fun i => v.extractLsb' (8 * i) 8)

def Stream.read (s : Stream) (bits : Nat) (en : Encoding) : Value :=
  sample bits en ((List.range (bits / 8)).map fun i => s.buf (s.outp + i))

def Stream.write (s : Stream) (bits : Nat) (en : Encoding) (v : Value) : Stream :=
  { s with buf := RingBuffer.store s.buf s.inp (sampleBytes bits en v) }

def readSn (bits : Nat) (en : Encoding) : Nat → Stream → List Value × Stream
  | 0, s => ([], s)
  | channels + 1, s =>
    let (vs, s') := readSn bits en channels (s.addOutp (bits / 8))
    (s.read bits en :: vs, s')

/-- The samples that are written of a frame: two channels are mixed to one, one is written twice, and what is missing is
silence. -/
def mix (src dst : Nat) (v : List Value) : List Value :=
  if src = 2 ∧ dst = 1 then [(v.getD 0 0 + v.getD 1 0).sdiv 2]
  else if src ≤ dst then
    let v := v.take src
    let v := if src = 1 ∧ 1 < dst then v ++ [v.getD 0 0] else v
    v ++ List.replicate (dst - v.length) 0
  else v.take dst

def writeSn (bits : Nat) (en : Encoding) (s : Stream) (samples : List Value) : Stream :=
  samples.foldl (fun s v => (s.write bits en v).addInp (bits / 8)) s

/-! ### The filter -/

/-- What of `aurateconv_t` does not change: `from` and `to`. -/
structure Params where
  src : AudioParams
  dst : AudioParams

def Params.frameSrc (P : Params) : Nat := P.src.precision / 8 * P.src.channels
def Params.frameDst (P : Params) : Nat := P.dst.precision / 8 * P.dst.channels

structure Phase where
  count : Nat
  prev : List Value
  next : List Value

/-- `aurateconv`; what it checks is `Supported`. -/
def aurateconv (P : Params) : Phase where
  count := if P.src.sampleRate < P.dst.sampleRate then P.dst.sampleRate + P.src.sampleRate else 0
  prev := List.replicate P.src.channels 0
  next := List.replicate P.src.channels 0

structure Params.Supported (P : Params) : Prop where
  encoding : P.src.encoding = P.dst.encoding
  precision : P.src.precision = P.dst.precision
  validbits : P.src.validbits = P.dst.validbits
  format : P.src.encoding = .slinearLE ∧ P.src.precision ∈ [8, 16, 24, 32] ∨ P.src.encoding = .slinearBE ∧ P.src.precision ∈ [16, 24, 32]
  valid : P.src.validbits ≤ P.src.precision
  srcChannels : 0 < P.src.channels ∧ P.src.channels ≤ audioMaxChannels
  dstChannels : 0 < P.dst.channels ∧ P.dst.channels ≤ audioMaxChannels
  srcRate : 0 < P.src.sampleRate ∧ P.src.sampleRate < 2 ^ 31
  dstRate : 0 < P.dst.sampleRate ∧ P.dst.sampleRate < 2 ^ 31

structure Conv where
  phase : Phase
  src : Stream
  dst : Stream

/-- A `while` loop; `fuel` is a number of rounds that is enough. -/
def loop (cond : Conv → Bool) (body : Conv → Conv) : Nat → Conv → Conv
  | 0, c => c
  | fuel + 1, c => if cond c then loop cond body fuel (body c) else c

section Template
variable (bits : Nat) (en : Encoding) (P : Params) (m frameSrc frameDst : Nat)

def Conv.writeFrame (c : Conv) (v : List Value) : Conv :=
  { c with dst := writeSn bits en c.dst (mix P.src.channels P.dst.channels v) }

def sameCond (c : Conv) : Bool := c.dst.used < m ∧ frameSrc ≤ c.src.used

def sameBody (c : Conv) : Conv :=
  let (v, src) := readSn bits en P.src.channels c.src
  { c with src := src }.writeFrame bits en P v

def downBody (c : Conv) : Conv :=
  let (v, src) := readSn bits en P.src.channels c.src
  let count := c.phase.count + P.dst.sampleRate
  if count ≥ P.src.sampleRate then
    { c with src := src, phase := { c.phase with count := count - P.src.sampleRate } }.writeFrame bits en P v
  else { c with src := src, phase := { c.phase with count := count } }

def upCond (c : Conv) : Bool :=
  c.dst.used < m ∧ (c.phase.count ≥ P.dst.sampleRate ∧ c.src.used ≥ frameSrc ∨ c.phase.count < P.dst.sampleRate)

/-- The next frame, when it is due. -/
def upRead (c : Conv) : Conv :=
  if c.phase.count ≥ P.dst.sampleRate then
    let (v, src) := readSn bits en P.src.channels c.src
    { c with src := src, phase := ⟨c.phase.count - P.dst.sampleRate, c.phase.next, v⟩ }
  else c

def weight (count : Nat) : Nat := count * 256 / P.dst.sampleRate

def upBody (interp : Nat → Value → Value → Value) (c : Conv) : Conv :=
  let c := upRead bits en P c
  let c256 := weight P c.phase.count
  let c := c.writeFrame bits en P (List.zipWith (interp c256) c.phase.next c.phase.prev)
  { c with phase := { c.phase with count := c.phase.count + P.src.sampleRate } }

/-- The body of both templates. The one for 32 bits counts the bytes that are used in locals of its own, which move as those of
the streams do. -/
def convert (interp : Nat → Value → Value → Value) (c : Conv) : Conv :=
  if P.src.sampleRate = P.dst.sampleRate then
    loop (sameCond m frameSrc) (sameBody bits en P) c.src.used c
  else if P.dst.sampleRate < P.src.sampleRate then
    loop (sameCond m frameSrc) (downBody bits en P) c.src.used c
  else loop (upCond P m frameSrc) (upBody bits en P interp) m c

/-- `AURATECONV_SLINEAR`: the interpolation is in 32 bits. -/
def interpolate (c256 : Nat) (next prev : Value) : Value :=
  (BitVec.ofNat 32 c256 * next + BitVec.ofNat 32 (256 - c256) * prev).sshiftRight 8

def aurateconvSlinear (c : Conv) : Conv := convert bits en P m frameSrc interpolate c

def int32Mask (validbits : Nat) : Value := ~~~(0xffffffff#32 >>> validbits)

/-- `AURATECONV_SLINEAR32`: the interpolation is in 64 bits, and leaves the valid bits. -/
def interpolate32 (validbits : Nat) (c256 : Nat) (next prev : Value) : Value :=
  ((BitVec.ofNat 64 c256 * next.signExtend 64 + BitVec.ofNat 64 (256 - c256) * prev.signExtend 64).sshiftRight 8).setWidth 32 &&&
    int32Mask validbits

def aurateconvSlinear32 (c : Conv) : Conv := convert 32 en P m frameSrc (interpolate32 P.dst.validbits) c

end Template

example : (List.range 33).map int32Mask = [
    0x0, 0x80000000, 0xc0000000, 0xe0000000,
    0xf0000000, 0xf8000000, 0xfc000000, 0xfe000000,
    0xff000000, 0xff800000, 0xffc00000, 0xffe00000,
    0xfff00000, 0xfff80000, 0xfffc0000, 0xfffe0000,
    0xffff0000, 0xffff8000, 0xffffc000, 0xffffe000,
    0xfffff000, 0xfffff800, 0xfffffc00, 0xfffffe00,
    0xffffff00, 0xffffff80, 0xffffffc0, 0xffffffe0,
    0xfffffff0, 0xfffffff8, 0xfffffffc, 0xfffffffe,
    0xffffffff] := by decide

def aurateconvSlinear8LE := aurateconvSlinear 8 .slinearLE
def aurateconvSlinear16LE := aurateconvSlinear 16 .slinearLE
def aurateconvSlinear24LE := aurateconvSlinear 24 .slinearLE
def aurateconvSlinear32LE := aurateconvSlinear32 .slinearLE
def aurateconvSlinear16BE := aurateconvSlinear 16 .slinearBE
def aurateconvSlinear24BE := aurateconvSlinear 24 .slinearBE
def aurateconvSlinear32BE := aurateconvSlinear32 .slinearBE

/-- The number of bytes up to which `dst` is filled. -/
def upTo (P : Params) (dst : Stream) (maxUsed : Int) : Nat :=
  let maxUsed := maxUsed.tdiv P.frameDst * P.frameDst
  let maxUsed := if maxUsed ≤ 0 then P.frameDst else maxUsed.toNat
  min (dst.size / P.frameDst * P.frameDst) maxUsed

/-- `aurateconv_fetch_to`, once the fetcher before it has filled `src`. -/
def aurateconvFetchTo (P : Params) (maxUsed : Int) (c : Conv) : Conv :=
  let m := upTo P c.dst maxUsed
  match P.src.encoding, P.src.precision with
  | .slinearLE, 8 => aurateconvSlinear8LE P m P.frameSrc c
  | .slinearLE, 16 => aurateconvSlinear16LE P m P.frameSrc c
  | .slinearLE, 24 => aurateconvSlinear24LE P m P.frameSrc c
  | .slinearLE, 32 => aurateconvSlinear32LE P m P.frameSrc c
  | .slinearBE, 16 => aurateconvSlinear16BE P m P.frameSrc c
  | .slinearBE, 24 => aurateconvSlinear24BE P m P.frameSrc c
  | .slinearBE, 32 => aurateconvSlinear32BE P m P.frameSrc c
  | _, _ => c

structure State extends Conv where
  fed : List Byte
  drained : List Byte

/-- A call, with what the fetcher before it puts into `src`, after which that may fail; and bytes that are taken out of
`dst`. -/
inductive Act where
  | fetch (maxUsed : Int) (bytes : List Byte) (err : Bool)
  | drain (k : Nat)

def next (P : Params) (s : State) : Act → Option State
  | .fetch maxUsed bytes err =>
    if s.src.used + bytes.length ≤ s.src.size then
      let c := { s.toConv with src := s.src.fill bytes }
      some { s with toConv := if err then c else aurateconvFetchTo P maxUsed c, fed := s.fed ++ bytes }
    else none
  | .drain k =>
    if k ≤ s.dst.used then
      some { s with dst := s.dst.drain k, drained := s.drained ++ s.dst.contents.take k }
    else none

def emptyStream (size : Nat) (buf : Nat → Byte) : Stream := ⟨size, buf, 0, 0, 0⟩

def rateSystem (P : Params) : System State Act :=
  .ofStep (fun s => ∃ srcSize dstSize srcBuf dstBuf, 0 < srcSize ∧ 0 < dstSize ∧
      s = ⟨⟨aurateconv P, emptyStream srcSize srcBuf, emptyStream dstSize dstBuf⟩, [], []⟩)
    (next P)

/-- What has come out, and what is in `dst` yet. -/
def State.output (s : State) : List Byte := s.drained ++ s.dst.contents

end NetBSD.Dev.Aurateconv
