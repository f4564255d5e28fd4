import NetBSD.Dev.Aurateconv.Convert

/-! What is read from a stream and what is written to it.

A step on a ring takes bytes from the front of its contents (`Drops`) or puts bytes behind them (`Appends`), and these compose.
Samples do so as long as each lies in one piece, which is a relation between the place of the first, their number and the end of
the ring (`Straight`). -/
namespace NetBSD.Dev.Aurateconv
open List Nat Function
open Lib
variable {s t u : Stream} {bytes more : List Byte} {bps pos len k l bits channels : Nat} {en : Encoding}

/-- The frame at the head of `bytes`. -/
def frame (bits : Nat) (en : Encoding) : Nat → List Byte → List Value
  | 0, _ => []
  | channels + 1, bytes => sample bits en (bytes.take (bits / 8)) :: frame bits en channels (bytes.drop (bits / 8))

def frameBytes (bits : Nat) (en : Encoding) (samples : List Value) : List Byte := samples.flatMap (sampleBytes bits en)

theorem length_lowFirst (bits : Nat) (en : Encoding) (bytes : List Byte) : (lowFirst bits en bytes).length = bytes.length := by
  unfold lowFirst
  split
  · exact length_reverse
  · rfl

theorem length_sampleBytes (bits : Nat) (en : Encoding) (v : Value) : (sampleBytes bits en v).length = bits / 8 := by
  rw [sampleBytes, length_lowFirst, length_map, length_range]

theorem length_frame : (frame bits en channels bytes).length = channels := by
  induction channels generalizing bytes with
  | zero => rfl
  | succ channels ih => rw [frame, length_cons, ih]

theorem frame_append (h : channels * (bits / 8) ≤ bytes.length) : frame bits en channels (bytes ++ more) = frame bits en channels bytes := by
  induction channels generalizing bytes with
  | zero => rfl
  | succ channels ih =>
    rw [succ_mul] at h
    rw [frame, frame, take_append_of_le_length (by omega), drop_append_of_le_length (by omega), ih]
    rw [length_drop]
    omega

theorem length_frameBytes (samples : List Value) : (frameBytes bits en samples).length = samples.length * (bits / 8) := by
  induction samples with
  | nil => rw [length_nil, zero_mul]; rfl
  | cons v rest ih =>
    rw [frameBytes, flatMap_cons, length_append, length_sampleBytes, length_cons, succ_mul, add_comm]
    exact congrArg (· + _) ih

/-! ### Rings -/

structure Stream.Ok (s : Stream) : Prop where
  outp : s.outp < s.size
  used : s.used ≤ s.size
  inp : s.inp = (s.outp + s.used) % s.size

/-- The samples of `bps` bytes that are in the `len` bytes from `pos` on are in one piece each. -/
def Stream.Straight (s : Stream) (bps pos len : Nat) : Prop := bps ∣ s.size - pos ∨ pos + len ≤ s.size

instance : Decidable (s.Straight bps pos len) := inferInstanceAs (Decidable (_ ∨ _))

/-- `bytes` are put behind the contents. -/
structure Stream.Appends (s t : Stream) (bytes : List Byte) : Prop where
  ok : t.Ok
  size : t.size = s.size
  contents : t.contents = s.contents ++ bytes

/-- `k` bytes are taken from their front. -/
structure Stream.Drops (s t : Stream) (k : Nat) : Prop where
  ok : t.Ok
  size : t.size = s.size
  contents : t.contents = s.contents.drop k

namespace Stream

theorem length_contents : s.contents.length = s.used := RingBuffer.length_contents

theorem Ok.inp_lt (h : s.Ok) : s.inp < s.size := h.inp ▸ mod_lt _ (zero_lt_of_lt h.outp)

theorem wrap_eq (hpos : pos < s.size) (hk : k ≤ s.size) : s.wrap (pos + k) = (pos + k) % s.size := by
  rw [RingBuffer.place_eq hpos hk, wrap]
  by_cases h : pos + k < s.size
  · rw [if_neg (Nat.not_le.mpr h), if_pos h]
  · rw [if_pos (Nat.not_lt.mp h), if_neg h]

section
variable (h : s.Straight bps pos len) (hpos : pos < s.size) (hlen : bps ≤ len)
include h hpos hlen

theorem Straight.piece : pos + bps ≤ s.size := by
  rcases h with h | h
  · have hle := le_of_dvd (Nat.sub_pos_of_lt hpos) h
    omega
  · exact le_trans (Nat.add_le_add_left hlen pos) h

theorem Straight.next (hroom : len ≤ s.size) : s.Straight bps ((pos + bps) % s.size) (len - bps) := by
  have hpiece := h.piece hpos hlen
  by_cases hend : pos + bps = s.size
  · rw [hend, mod_self]
    right
    omega
  rw [mod_eq_of_lt (Nat.lt_of_le_of_ne hpiece hend)]
  rcases h with h | h
  · left
    rw [← Nat.sub_sub]
    exact Nat.dvd_sub h (Nat.dvd_refl bps)
  · right
    omega

end

/-! ### Bytes -/

theorem Appends.refl (h : s.Ok) : s.Appends s [] := ⟨h, rfl, (append_nil _).symm⟩

theorem Appends.trans (h : s.Appends t bytes) (h' : t.Appends u more) : s.Appends u (bytes ++ more) where
  ok := h'.ok
  size := h'.size.trans h.size
  contents := by rw [h'.contents, h.contents, append_assoc]

theorem Appends.used (h : s.Appends t bytes) : t.used = s.used + bytes.length := by
  rw [← length_contents, h.contents, length_append, length_contents]

theorem Drops.refl (h : s.Ok) : s.Drops s 0 := ⟨h, rfl, rfl⟩

theorem Drops.trans (h : s.Drops t k) (h' : t.Drops u l) : s.Drops u (k + l) where
  ok := h'.ok
  size := h'.size.trans h.size
  contents := by rw [h'.contents, h.contents, drop_drop]

theorem Drops.used (h : s.Drops t k) : t.used = s.used - k := by
  rw [← length_contents, h.contents, length_drop, length_contents]

theorem Ok.putByte (h : s.Ok) (hroom : s.used < s.size) (b : Byte) : s.Appends (s.putByte b) [b] where
  ok := by
    refine ⟨h.outp, hroom, ?_⟩
    change s.wrap (s.inp + 1) = (s.outp + (s.used + 1)) % s.size
    rw [wrap_eq h.inp_lt (zero_lt_of_lt hroom), h.inp, mod_add_mod, add_assoc]
  size := rfl
  contents := by
    change RingBuffer.contents s.size (update s.buf s.inp b) s.outp (s.used + 1) = s.contents ++ [b]
    rw [RingBuffer.contents_add]
    congr 1
    · apply RingBuffer.contents_congr
      intro i hi
      rw [Function.update_of_ne]
      rw [h.inp]
      have hplace := RingBuffer.place_cases h.outp (show i ≤ s.size by omega)
      have hend := RingBuffer.place_cases h.outp h.used
      omega
    · show [update s.buf s.inp b (((s.outp + s.used) % s.size + 0) % s.size)] = [b]
      rw [add_zero, ← h.inp, mod_eq_of_lt h.inp_lt, Function.update_self]

theorem Ok.fill (h : s.Ok) (hroom : s.used + bytes.length ≤ s.size) : s.Appends (s.fill bytes) bytes := by
  induction bytes generalizing s with
  | nil => exact .refl h
  | cons b rest ih =>
    rw [length_cons] at hroom
    have hput := h.putByte (show s.used < s.size by omega) b
    refine hput.trans (ih hput.ok ?_)
    rw [hput.used, hput.size, length_singleton]
    omega

theorem Ok.drain (h : s.Ok) (hk : k ≤ s.used) : s.Drops (s.drain k) k where
  ok := by
    refine ⟨mod_lt _ (zero_lt_of_lt h.outp), le_trans (sub_le _ _) h.used, ?_⟩
    change s.inp = ((s.outp + k) % s.size + (s.used - k)) % s.size
    rw [mod_add_mod, add_assoc, Nat.add_sub_cancel' hk, h.inp]
  size := rfl
  contents := (RingBuffer.drop_contents hk).symm

theorem drops_addOutp (h : s.Ok) (hk : k ≤ s.used) : s.Drops (s.addOutp k) k := by
  have hdrain := h.drain hk
  rw [Stream.drain, ← wrap_eq h.outp (le_trans hk h.used)] at hdrain
  exact hdrain

theorem read_eq (h : s.Ok) (hstraight : s.Straight (bits / 8) s.outp s.used) (hk : bits / 8 ≤ s.used) :
    s.read bits en = sample bits en (s.contents.take (bits / 8)) := by
  rw [contents, RingBuffer.take_contents hk, RingBuffer.contents_straight (hstraight.piece h.outp hk)]
  rfl

theorem Ok.write (en : Encoding) (h : s.Ok) (hroom : s.used + bits / 8 ≤ s.size) (hpiece : s.inp + bits / 8 ≤ s.size) (v : Value) :
    s.Appends ((s.write bits en v).addInp (bits / 8)) (sampleBytes bits en v) where
  ok := by
    refine ⟨h.outp, hroom, ?_⟩
    change s.wrap (s.inp + bits / 8) = (s.outp + (s.used + bits / 8)) % s.size
    rw [wrap_eq h.inp_lt (by omega), h.inp, mod_add_mod, add_assoc]
  size := rfl
  contents := by
    have hlen := length_sampleBytes bits en v
    have hstore := @RingBuffer.contents_store _ _ _ _ s.buf (sampleBytes bits en v) h.outp
      (hlen.symm ▸ hroom) (by rw [← h.inp, hlen]; exact hpiece)
    rw [← h.inp, hlen] at hstore
    exact hstore

theorem readSn_eq (en : Encoding) (h : s.Ok) (hstraight : s.Straight (bits / 8) s.outp s.used) (hk : channels * (bits / 8) ≤ s.used) :
    (readSn bits en channels s).1 = frame bits en channels s.contents ∧ s.Drops (readSn bits en channels s).2 (channels * (bits / 8)) ∧
      (readSn bits en channels s).2.Straight (bits / 8) (readSn bits en channels s).2.outp (readSn bits en channels s).2.used := by
  induction channels generalizing s with
  | zero =>
    rw [zero_mul]
    exact ⟨rfl, .refl h, hstraight⟩
  | succ channels ih =>
    rw [succ_mul] at hk
    have hfirst : bits / 8 ≤ s.used := by omega
    have hdrop := drops_addOutp h hfirst
    have hnext : (s.addOutp (bits / 8)).Straight (bits / 8) (s.addOutp (bits / 8)).outp (s.addOutp (bits / 8)).used := by
      have hnext := hstraight.next h.outp hfirst h.used
      rw [← wrap_eq h.outp (le_trans hfirst h.used)] at hnext
      exact hnext
    obtain ⟨hvalues, hdrops, hstraight'⟩ := ih hdrop.ok hnext (by rw [hdrop.used]; omega)
    refine ⟨?_, ?_, hstraight'⟩
    · rw [readSn, frame, ← hdrop.contents, ← hvalues, read_eq h hstraight hfirst]
    · rw [succ_mul, add_comm (channels * (bits / 8))]
      exact hdrop.trans hdrops

theorem writeSn_appends (en : Encoding) (samples : List Value) (h : s.Ok) (hstraight : s.Straight (bits / 8) s.inp len)
    (hroom : s.used + len ≤ s.size) (hlen : samples.length * (bits / 8) ≤ len) :
    s.Appends (writeSn bits en s samples) (frameBytes bits en samples) ∧
      (writeSn bits en s samples).Straight (bits / 8) (writeSn bits en s samples).inp (len - samples.length * (bits / 8)) := by
  induction samples generalizing s len with
  | nil =>
    rw [length_nil, zero_mul]
    exact ⟨.refl h, hstraight⟩
  | cons v rest ih =>
    rw [length_cons, succ_mul] at hlen
    have hfirst : bits / 8 ≤ len := by omega
    have hwrite := h.write en (show s.used + bits / 8 ≤ s.size by omega) (hstraight.piece h.inp_lt hfirst) v
    have hnext : ((s.write bits en v).addInp (bits / 8)).Straight (bits / 8)
        ((s.write bits en v).addInp (bits / 8)).inp (len - bits / 8) := by
      have hnext := hstraight.next h.inp_lt hfirst (by omega)
      rw [← wrap_eq h.inp_lt (by omega)] at hnext
      exact hnext
    obtain ⟨happends, hstraight'⟩ := ih hwrite.ok hnext (by
      rw [hwrite.used, hwrite.size, length_sampleBytes]
      omega) (by omega)
    refine ⟨hwrite.trans happends, ?_⟩
    have hrest : len - (v :: rest).length * (bits / 8) = len - bits / 8 - rest.length * (bits / 8) := by
      rw [length_cons, succ_mul]
      omega
    rw [hrest]
    exact hstraight'

end Stream
end NetBSD.Dev.Aurateconv
