import Mathlib.Algebra.Ring.Nat
import NetBSD.Lib.Ring

/-! The circular area of the WAPBL log as writer and reader address it
(`sys/kern/vfs_wapbl.c`).

`wapbl_circ_write`, `wapbl_circ_read` and `wapbl_circ_advance` each have their own
arithmetic for the wrap. All three agree with the ring (`Lib/Ring.lean`): what was
written in pieces is one list of bytes that begins at some address (`Holds`), and a
read is a slice of it. -/
namespace NetBSD.Kern.Wapbl
open List Option Nat
open Lib Ring

/-- Where the circular area lies. The commit headers come before it. -/
structure Circ where
  circOff : Nat
  circSize : Nat
  off_pos : 0 < circOff
  size_pos : 0 < circSize

theorem sample_off_pos : 0 < 1024 := by decide

theorem sample_size_pos : 0 < 4096 := by decide

/-- A log: its area, and the block sizes of the log and of the file system, as shifts.
The area is a whole number of log blocks. -/
structure Geometry extends Circ where
  logDevBshift : Nat
  fsDevBshift : Nat
  log_ge : 9 ≤ logDevBshift
  fs_ge : 9 ≤ fsDevBshift
  off_dvd : 2 ^ logDevBshift ∣ circOff
  size_dvd : 2 ^ logDevBshift ∣ circSize

def Geometry.logBlk (g : Geometry) : Nat := 2 ^ g.logDevBshift
def Geometry.fsBlk (g : Geometry) : Nat := 2 ^ g.fsDevBshift

section Access
variable {α : Type} (g : Geometry)

/-- `data` written to the device from `addr` on. -/
def writeAt (disk : Nat → α) (addr : Nat) (data : List α) : Nat → α := fun x =>
  if addr ≤ x then data.getD (x - addr) (disk x) else disk x

def readAt (disk : Nat → α) (addr len : Nat) : List α := (List.range len).map fun i => disk (addr + i)

/-- The device address of an offset: that of its log block. -/
def pbn (off : Nat) : Nat := off / g.logBlk * g.logBlk

/-- An offset before the area is taken for its start. -/
def clampOff (off : Nat) : Nat := if off < g.circOff then g.circOff else off

/-- An offset at the end of the area is its start. -/
def wrapOff (off : Nat) : Nat := if off ≥ g.circOff + g.circSize then g.circOff else off

/-- `wapbl_circ_write`: the disk and the offset after it. -/
def wapblCircWrite (data : List α) (st : (Nat → α) × Nat) : (Nat → α) × Nat :=
  let off := clampOff g st.2
  let slen := g.circOff + g.circSize - off
  if slen < data.length then
    let disk := writeAt st.1 (pbn g off) (data.take slen)
    (writeAt disk (pbn g g.circOff) (data.drop slen), wrapOff g (g.circOff + (data.length - slen)))
  else (writeAt st.1 (pbn g off) data, wrapOff g (off + data.length))

/-- `wapbl_circ_read`: the bytes and the offset after them. -/
def wapblCircRead (disk : Nat → α) (len off : Nat) : List α × Nat :=
  let off := clampOff g off
  let slen := g.circOff + g.circSize - off
  if slen < len then
    (readAt disk (pbn g off) slen ++ readAt disk (pbn g g.circOff) (len - slen), wrapOff g (g.circOff + (len - slen)))
  else (readAt disk (pbn g off) len, wrapOff g (off + len))

def wapblCircAdvance (len off : Nat) : Nat :=
  let off := clampOff g off
  let slen := g.circOff + g.circSize - off
  if slen < len then wrapOff g (g.circOff + (len - slen)) else wrapOff g (off + len)

end Access

/-! ### Agreement with the ring -/

section Ring
variable {α : Type} {g : Geometry} {a len : Nat}

theorem clampOff_of_inRange (h : InRange g.circOff g.circSize a) : clampOff g a = a := if_neg (not_lt.mpr h.1)

theorem pbn_of_dvd (h : g.logBlk ∣ a) : pbn g a = a := Nat.div_mul_cancel h

section
variable (h : InRange g.circOff g.circSize a)
include h

theorem wrapOff_eq (hlen : len ≤ g.circSize) :
    (if g.circOff + g.circSize - a < len then wrapOff g (g.circOff + (len - (g.circOff + g.circSize - a)))
      else wrapOff g (a + len)) = move g.circOff g.circSize a len := by
  have hr := h
  unfold InRange at hr
  rw [move_eq h hlen]
  unfold wrapOff
  split_ifs <;> omega

theorem wapblCircAdvance_eq (hlen : len ≤ g.circSize) : wapblCircAdvance g len a = move g.circOff g.circSize a len := by
  simp only [wapblCircAdvance, clampOff_of_inRange h]
  exact wrapOff_eq h hlen

theorem wapblCircRead_snd (disk : Nat → α) (hlen : len ≤ g.circSize) : (wapblCircRead g disk len a).2 = move g.circOff g.circSize a len := by
  rw [← wrapOff_eq h hlen]
  simp only [wapblCircRead, clampOff_of_inRange h]
  split <;> rfl

theorem wapblCircRead_fst (ha : g.logBlk ∣ a) (disk : Nat → α) (hlen : len ≤ g.circSize) :
    (wapblCircRead g disk len a).1 = (List.range len).map fun k => disk (move g.circOff g.circSize a k) := by
  have hr := h
  unfold InRange at hr
  simp only [wapblCircRead, clampOff_of_inRange h, readAt, pbn_of_dvd ha, pbn_of_dvd g.off_dvd]
  split
  · next hslen =>
    rw [← add_sub_of_le hslen.le, range_add, map_append, List.map_map]
    refine congrArg₂ _ (map_congr_left fun k hk => ?_) ?_
    · have hk := mem_range.mp hk
      rw [move_eq h (by omega), if_pos (by omega)]
    rw [Nat.add_sub_cancel_left]
    refine map_congr_left fun k hk => ?_
    have hk := mem_range.mp hk
    rw [Function.comp, move_eq h (by omega), if_neg (by omega)]
    congr 1
    omega
  · refine map_congr_left fun k hk => ?_
    have hk := mem_range.mp hk
    rw [move_eq h (by omega), if_pos (by omega)]

theorem wapblCircWrite_snd (disk : Nat → α) {data : List α} (hlen : data.length ≤ g.circSize) :
    (wapblCircWrite g data (disk, a)).2 = move g.circOff g.circSize a data.length := by
  rw [← wrapOff_eq h hlen]
  simp only [wapblCircWrite, clampOff_of_inRange h]
  split <;> rfl

theorem wapblCircWrite_fst (ha : g.logBlk ∣ a) (disk : Nat → α)
    {data : List α} (hlen : data.length ≤ g.circSize) {x : Nat} (hx : InRange g.circOff g.circSize x) :
    (wapblCircWrite g data (disk, a)).1 x = data.getD (dist g.circSize a x) (disk x) := by
  unfold InRange at hx
  have hr := h
  unfold InRange at hr
  have hdist : dist g.circSize a x = if a ≤ x then x - a else x + g.circSize - a := by
    rw [Ring.dist]
    split
    · rw [show x + g.circSize - a = x - a + g.circSize by omega, add_mod_right, mod_eq_of_lt (by omega)]
    · rw [mod_eq_of_lt (by omega)]
  simp only [wapblCircWrite, clampOff_of_inRange h, pbn_of_dvd ha, pbn_of_dvd g.off_dvd]
  simp only [hdist, getD_eq_getElem?_getD]
  split
  · next hslen =>
    simp only [writeAt, getD_eq_getElem?_getD, getElem?_drop, if_pos hx.1]
    by_cases hlow : a ≤ x
    · rw [if_pos hlow, if_pos hlow, getElem?_eq_none (by omega), getD_none, getElem?_take_of_lt (by omega)]
    rw [if_neg hlow, if_neg hlow]
    congr 2
    omega
  · next hslen =>
    simp only [writeAt, getD_eq_getElem?_getD]
    by_cases hlow : a ≤ x
    · rw [if_pos hlow, if_pos hlow]
    · rw [if_neg hlow, if_neg hlow, getElem?_eq_none (by omega), getD_none]

end

end Ring

/-- The bytes of `s` lie in the area from `start` on. -/
def Holds {α : Type} (g : Geometry) (disk : Nat → α) (start : Nat) (s : List α) : Prop :=
  ∀ k < s.length, s[k]? = some (disk (move g.circOff g.circSize start k))

section Holds
variable {α : Type} {g : Geometry} {disk : Nat → α} {start : Nat} {s data : List α}

theorem logBlk_pos (g : Geometry) : 0 < g.logBlk := Nat.two_pow_pos _

theorem dvd_move {k : Nat} (hs : g.logBlk ∣ start) (hk : g.logBlk ∣ k) : g.logBlk ∣ move g.circOff g.circSize start k := by
  have hoff : g.logBlk ∣ g.circOff := g.off_dvd
  have hsub : g.logBlk ∣ start - g.circOff + k := Nat.dvd_add (Nat.dvd_sub hs hoff) hk
  exact Nat.dvd_add hoff ((dvd_mod_iff g.size_dvd).mpr hsub)

theorem wapblCircWrite_holds (h : Holds g disk start s) (hstart : InRange g.circOff g.circSize start)
    (hdvd : g.logBlk ∣ start) (hs : g.logBlk ∣ s.length) (hfit : s.length + data.length ≤ g.circSize) :
    Holds g (wapblCircWrite g data (disk, move g.circOff g.circSize start s.length)).1 start (s ++ data) := by
  intro k hk
  rw [length_append] at hk
  have hr := @move_inRange g.circOff g.circSize g.size_pos start s.length
  have hx := @move_inRange g.circOff g.circSize g.size_pos start k
  rw [wapblCircWrite_fst hr (dvd_move hdvd hs) disk (by omega) hx]
  by_cases hlow : k < s.length
  · -- Bytes written before lie almost a round further on, out of reach.
    have hdist : move g.circOff g.circSize start k =
        move g.circOff g.circSize (move g.circOff g.circSize start s.length) (g.circSize - s.length + k) := by
      rw [move_move, show s.length + (g.circSize - s.length + k) = g.circSize + k by omega, ← move_move, move_size hstart]
    rw [getElem?_append_left hlow, h k hlow]
    rw [show dist g.circSize _ (move g.circOff g.circSize start k) = g.circSize - s.length + k by
      rw [hdist, dist_move hr (by omega)]]
    rw [getD_eq_getElem?_getD, getElem?_eq_none (by omega), getD_none]
  · have hdist : move g.circOff g.circSize start k = move g.circOff g.circSize (move g.circOff g.circSize start s.length) (k - s.length) := by
      rw [move_move, show s.length + (k - s.length) = k by omega]
    rw [getElem?_append_right (by omega)]
    rw [show dist g.circSize _ (move g.circOff g.circSize start k) = k - s.length by
      rw [hdist, dist_move hr (by omega)]]
    rw [getD_eq_getElem?_getD, getElem?_eq_getElem (by omega), getD_some]

theorem wapblCircRead_holds {p len : Nat} (h : Holds g disk start s) (hdvd : g.logBlk ∣ start) (hp : g.logBlk ∣ p)
    (hlen : p + len ≤ s.length) (hfit : s.length ≤ g.circSize) :
    wapblCircRead g disk len (move g.circOff g.circSize start p) = ((s.drop p).take len, move g.circOff g.circSize start (p + len)) := by
  have hr := @move_inRange g.circOff g.circSize g.size_pos start p
  refine Prod.ext ?_ ?_
  · rw [wapblCircRead_fst hr (dvd_move hdvd hp) disk (by omega)]
    refine ext_getElem? fun k => ?_
    by_cases hk : k < len
    · rw [getElem?_take_of_lt hk, getElem?_drop, h (p + k) (by omega), getElem?_map, getElem?_range hk, map_some, move_move]
    · rw [getElem?_eq_none (by simp; omega), getElem?_eq_none (by simp; omega)]
  · rw [wapblCircRead_snd hr disk (by omega), move_move]

end Holds

end NetBSD.Kern.Wapbl
