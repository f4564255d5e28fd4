import NetBSD.Netipsec.Bitmap
import Mathlib.Data.List.Nodup
import Mathlib.Data.Fintype.Basic

/-! The replay check of IPsec.

A packet is accepted at most once, whatever order packets come in, and one that was not
accepted is accepted as long as it is no further behind the largest number than the
window is wide (`replay_window_exact`). -/
namespace NetBSD.Netipsec
open List

abbrev Seq := BitVec 32

/-- `struct secreplay`, as the receiver uses it. -/
structure Secreplay where
  count : BitVec 32
  wsize : BitVec 32
  lastseq : Seq
  bitmap : List Byte
  overflow : Nat

/-- A new window of `wsize` bytes. -/
def newSecreplay (wsize : BitVec 32) : Secreplay := ⟨0, wsize, 0, replicate wsize.toNat 0, 0⟩

namespace Secreplay
variable (replay : Secreplay)

/-- The last byte, and the bits of the window. -/
def frlast : Nat := replay.wsize.toNat - 1
def wsizeb : BitVec 32 := replay.wsize <<< 3

/-- The byte for a packet `diff` before the last, and its bit there. -/
def fr (diff : BitVec 32) : Nat := replay.frlast - diff.toNat / 8
def mask (diff : BitVec 32) : Byte := (1 : Byte) <<< (diff.toNat % 8)

def seen (diff : BitVec 32) : Bool := replay.bitmap.getD (replay.fr diff) 0 &&& mask diff ≠ 0

/-- Only the last packet is in the window. -/
def restart (seq : Seq) : Secreplay :=
  {replay with lastseq := seq, bitmap := (replicate replay.wsize.toNat 0).set replay.frlast 1}

/-- The window moved on to a larger packet. -/
def advance (seq : Seq) : Secreplay :=
  let bitmap := vshiftl replay.bitmap (seq - replay.lastseq).toInt replay.wsize.toNat
  {replay with lastseq := seq, bitmap := bitmap.set replay.frlast (bitmap.getD replay.frlast 0 ||| 1)}

/-- A packet before the last marked as seen. -/
def mark (diff : BitVec 32) : Secreplay :=
  {replay with bitmap := replay.bitmap.set (replay.fr diff) (replay.bitmap.getD (replay.fr diff) 0 ||| mask diff)}

/-- Where the packet is let through and counted; the result is 0 for that, else 1. -/
def accept (cycseq : Bool) : Secreplay × Nat :=
  if replay.count = BitVec.allOnes 32 then
    let replay := {replay with overflow := replay.overflow + 1}
    -- don't increment, no more packets accepted
    if cycseq = false then (replay, 1) else ({replay with count := replay.count + 1}, 0)
  else ({replay with count := replay.count + 1}, 0)

end Secreplay

/-- 0 if the packet is disallowed, 1 if it is permitted. -/
def ipsecChkreplay (seq : Seq) (replay : Secreplay) : Nat :=
  if replay.wsize = 0 then 1
  -- sequence number of 0 is invalid
  else if seq = 0 then 0
  -- first time is always okay
  else if replay.count = 0 then 1
  else if replay.lastseq < seq then 1
  -- too old or wrapped, or already seen
  else if replay.wsizeb ≤ replay.lastseq - seq then 0
  else if replay.seen (replay.lastseq - seq) then 0
  else 1

/-- 0 if the packet is good, else 1. `cycseq` is `SADB_X_EXT_CYCSEQ`. -/
def ipsecUpdatereplay (cycseq : Bool) (seq : Seq) (replay : Secreplay) : Secreplay × Nat :=
  if replay.wsize = 0 then replay.accept cycseq
  else if seq = 0 then (replay, 1)
  else if replay.count = 0 then (replay.restart seq).accept cycseq
  else if replay.lastseq < seq then
    if seq - replay.lastseq < replay.wsizeb then (replay.advance seq).accept cycseq
    -- this packet has a "way larger"
    else (replay.restart seq).accept cycseq
  else if replay.wsizeb ≤ replay.lastseq - seq then (replay, 1)
  else if replay.seen (replay.lastseq - seq) then (replay, 1)
  -- out of order but good
  else (replay.mark (replay.lastseq - seq)).accept cycseq

/-- A window and the packets it has accepted. -/
structure History where
  replay : Secreplay
  accepted : List Seq

/-- The next packet comes, to an association without `SADB_X_EXT_CYCSEQ`. -/
def History.next (h : History) (seq : Seq) : History :=
  let (replay, result) := ipsecUpdatereplay false seq h.replay
  ⟨replay, if result = 0 then seq :: h.accepted else h.accepted⟩

/-- What a new window has become after the packets `seqs`. -/
def history (wsize : BitVec 32) (seqs : List Seq) : History := seqs.foldl History.next ⟨newSecreplay wsize, []⟩

/-! ### The window -/

section Window
variable {replay : Secreplay} {h : History} {w : BitVec 32} {seq : Seq}

/-- A packet with the number `n` was accepted. -/
def History.Has (h : History) (n : Nat) : Prop := ∃ m ∈ h.accepted, m.toNat = n

/-- What the window says of the packets accepted. After 2^32 - 1 of them it is not used
any more. -/
structure WindowOk (w : BitVec 32) (h : History) : Prop where
  wsize : h.replay.wsize = w
  len : h.replay.bitmap.length = w.toNat
  count : h.replay.count.toNat = h.accepted.length
  nodup : h.accepted.Nodup
  nonzero : 0 ∉ h.accepted
  last : h.accepted ≠ [] → h.accepted.length < 2 ^ 32 - 1 →
    h.replay.lastseq ∈ h.accepted ∧ ∀ m ∈ h.accepted, m.toNat ≤ h.replay.lastseq.toNat
  bits : h.accepted ≠ [] → h.accepted.length < 2 ^ 32 - 1 → ∀ k < 8 * w.toNat,
    (bit h.replay.bitmap k = true ↔ h.Has (h.replay.lastseq.toNat - k))

/-- The packet is new and not too old. -/
def Fresh (w : BitVec 32) (h : History) (seq : Seq) : Prop :=
  seq ≠ 0 ∧ seq ∉ h.accepted ∧ (h.accepted = [] ∨ ∀ m ∈ h.accepted, m.toNat < seq.toNat + 8 * w.toNat)

theorem has_toNat : h.Has seq.toNat ↔ seq ∈ h.accepted := by
  constructor
  · rintro ⟨m, hm, heq⟩
    rwa [← BitVec.eq_of_toNat_eq heq]
  · intro hmem
    exact ⟨seq, hmem, rfl⟩

theorem toNat_pos (h0 : seq ≠ 0) : 0 < seq.toNat :=
  Nat.pos_of_ne_zero fun heq => h0 (BitVec.eq_of_toNat_eq heq)

theorem toNat_wsizeb (hw : replay.wsize.toNat < 2 ^ 28) : replay.wsizeb.toNat = 8 * replay.wsize.toNat := by
  rw [Secreplay.wsizeb, BitVec.toNat_shiftLeft]
  omega

theorem and_mask_ne_zero (b : Byte) {r : Nat} (hr : r < 8) : b &&& (1 : Byte) <<< r ≠ 0 ↔ b.getLsbD r = true := by
  have hmask : (1 : Byte) <<< r = BitVec.twoPow 8 r := rfl
  rw [hmask, BitVec.and_twoPow]
  by_cases hb : b.getLsbD r
  · have hne : BitVec.twoPow 8 r ≠ 0 := by
      intro h0
      have hbit := congrArg (fun x => BitVec.getLsbD x r) h0
      simp [hr] at hbit
    rw [if_pos hb]
    exact iff_of_true hne hb
  · rw [if_neg hb]
    exact iff_of_false (fun h => h rfl) hb

theorem seen_eq (hlen : replay.bitmap.length = replay.wsize.toNat) (diff : BitVec 32) : replay.seen diff = bit replay.bitmap diff.toNat := by
  have hr : diff.toNat % 8 < 8 := Nat.mod_lt _ (by decide)
  rw [Bool.eq_iff_iff, Secreplay.seen, decide_eq_true_iff, Secreplay.mask, and_mask_ne_zero _ hr, bit, Secreplay.fr, Secreplay.frlast, hlen]

/-- The window with a packet that is good. -/
def Secreplay.window? (replay : Secreplay) (seq : Seq) : Option Secreplay :=
  if seq = 0 then none
  else if replay.count = 0 then some (replay.restart seq)
  else if replay.lastseq < seq then
    if seq - replay.lastseq < replay.wsizeb then some (replay.advance seq) else some (replay.restart seq)
  else if replay.wsizeb ≤ replay.lastseq - seq then none
  else if replay.seen (replay.lastseq - seq) then none
  else some (replay.mark (replay.lastseq - seq))

theorem update_eq (hw : replay.wsize ≠ 0) (cycseq : Bool) (seq : Seq) : ipsecUpdatereplay cycseq seq replay =
    match replay.window? seq with
    | some r => r.accept cycseq
    | none => (replay, 1) := by
  unfold ipsecUpdatereplay Secreplay.window?
  rw [if_neg hw]
  split_ifs <;> rfl

theorem chkreplay_eq (hw : replay.wsize ≠ 0) (seq : Seq) : ipsecChkreplay seq replay =
    match replay.window? seq with
    | some _ => 1
    | none => 0 := by
  unfold ipsecChkreplay Secreplay.window?
  rw [if_neg hw]
  split_ifs <;> rfl

theorem window?_fields {r : Secreplay} (hlen : replay.bitmap.length = replay.wsize.toNat) (h : replay.window? seq = some r) :
    r.wsize = replay.wsize ∧ r.count = replay.count ∧ r.bitmap.length = replay.wsize.toNat := by
  have hshift : ∀ nbit : Int, (vshiftl replay.bitmap nbit replay.wsize.toNat).length = replay.wsize.toNat := by
    intro nbit
    rw [← hlen]
    exact (bit_vshiftl nbit.toNat).1
  unfold Secreplay.window? at h
  split_ifs at h <;> cases h <;> refine ⟨rfl, rfl, ?_⟩
  · simp [Secreplay.restart]
  · simp [Secreplay.advance, hshift]
  · simp [Secreplay.restart]
  · simp [Secreplay.mark, hlen]

theorem accept_full (hc : replay.count = BitVec.allOnes 32) : replay.accept false = ({replay with overflow := replay.overflow + 1}, 1) := by
  rw [Secreplay.accept, if_pos hc, if_pos rfl]

theorem accept_more (hc : replay.count ≠ BitVec.allOnes 32) : replay.accept false = ({replay with count := replay.count + 1}, 0) := by
  rw [Secreplay.accept, if_neg hc]

/-- The window after a packet that was good, with that packet among those accepted. -/
structure Marked (w : BitVec 32) (h : History) (seq : Seq) (r : Secreplay) : Prop where
  last : r.lastseq ∈ seq :: h.accepted ∧ ∀ m ∈ seq :: h.accepted, m.toNat ≤ r.lastseq.toNat
  bits : ∀ k < 8 * w.toNat, (bit r.bitmap k = true ↔ h.Has (r.lastseq.toNat - k) ∨ r.lastseq.toNat - k = seq.toNat)

theorem bit_restart (hw : 0 < replay.wsize.toNat) {k : Nat} (hk : k < 8 * replay.wsize.toNat) :
    bit (replay.restart seq).bitmap k = decide (k = 0) := by
  have hbit : bit (replicate replay.wsize.toNat 0) k = false := by
    simp [bit]
  have hmark := @bit_mark (replicate replay.wsize.toNat 0) 0 (by simpa using hw) k (by simpa using hk)
  simp only [length_replicate, Nat.zero_div, Nat.sub_zero, hbit, Bool.or_false] at hmark
  rw [← hmark]
  simp [Secreplay.restart, Secreplay.frlast]

section
variable (hok : WindowOk w h)
include hok

theorem restart_marked (hw : 0 < w.toNat) (h0 : seq ≠ 0)
    (hnew : ∀ m ∈ h.accepted, m.toNat + 8 * w.toNat ≤ seq.toNat) : Marked w h seq (h.replay.restart seq) where
  last := by
    refine ⟨mem_cons_self, fun m hm => ?_⟩
    show m.toNat ≤ seq.toNat
    rcases mem_cons.mp hm with rfl | hm
    · exact le_refl _
    · have hle := hnew m hm
      omega
  bits k hk := by
    show _ ↔ h.Has (seq.toNat - k) ∨ seq.toNat - k = seq.toNat
    have hpos := toNat_pos h0
    have hbit : bit (h.replay.restart seq).bitmap k = decide (k = 0) := by
      rw [← hok.wsize] at hk hw
      exact bit_restart hw hk
    rw [hbit, decide_eq_true_iff]
    constructor
    · intro hk0
      exact .inr (by omega)
    rintro (⟨m, hm, heq⟩ | heq)
    · have hle := hnew m hm
      omega
    · omega

theorem advance_marked (hw28 : w.toNat < 2 ^ 28) (hne : h.accepted ≠ [])
    (hlen : h.accepted.length < 2 ^ 32 - 1) (hlt : h.replay.lastseq.toNat < seq.toNat)
    (hin : seq.toNat < h.replay.lastseq.toNat + 8 * w.toNat) : Marked w h seq (h.replay.advance seq) where
  last := by
    obtain ⟨-, hmax⟩ := hok.last hne hlen
    refine ⟨mem_cons_self, fun m hm => ?_⟩
    show m.toNat ≤ seq.toNat
    rcases mem_cons.mp hm with rfl | hm
    · exact le_refl _
    · have hle := hmax m hm
      omega
  bits k hk := by
    show _ ↔ h.Has (seq.toNat - k) ∨ seq.toNat - k = seq.toNat
    obtain ⟨-, hmax⟩ := hok.last hne hlen
    have hdiff : (seq - h.replay.lastseq).toNat = seq.toNat - h.replay.lastseq.toNat :=
      BitVec.toNat_sub_of_le (BitVec.le_def.mpr hlt.le)
    have hint : (seq - h.replay.lastseq).toInt = ((seq.toNat - h.replay.lastseq.toNat : Nat) : Int) := by
      rw [BitVec.toInt_eq_toNat_of_lt (by omega), hdiff]
    obtain ⟨hslen, hsbit⟩ := @bit_vshiftl h.replay.bitmap (seq.toNat - h.replay.lastseq.toNat)
    have hbit : bit (h.replay.advance seq).bitmap k = (decide (k = 0) ||
        (decide (seq.toNat - h.replay.lastseq.toNat ≤ k) && bit h.replay.bitmap (k - (seq.toNat - h.replay.lastseq.toNat)))) := by
      rw [hok.len] at hslen hsbit
      have hmark := @bit_mark (vshiftl h.replay.bitmap ((seq.toNat - h.replay.lastseq.toNat : Nat) : Int) w.toNat) 0
        (by omega) k (by omega)
      rw [hsbit k hk, hslen] at hmark
      rw [← hmark]
      simp [Secreplay.advance, Secreplay.frlast, hok.wsize, hint]
    rw [hbit, Bool.or_eq_true, decide_eq_true_iff, Bool.and_eq_true, decide_eq_true_iff]
    constructor
    · rintro (hk0 | ⟨hdk, hold⟩)
      · exact .inr (by omega)
      refine .inl ?_
      have hhas := (hok.bits hne hlen _ (by omega)).mp hold
      rwa [show h.replay.lastseq.toNat - (k - (seq.toNat - h.replay.lastseq.toNat)) = seq.toNat - k by omega] at hhas
    rintro (hhas | heq)
    · obtain ⟨m, hm, heq⟩ := hhas
      have hle := hmax m hm
      refine .inr ⟨by omega, (hok.bits hne hlen _ (by omega)).mpr ⟨m, hm, by omega⟩⟩
    · exact .inl (by omega)

theorem mark_marked (hw28 : w.toNat < 2 ^ 28) (hne : h.accepted ≠ [])
    (hlen : h.accepted.length < 2 ^ 32 - 1) (h0 : seq ≠ 0) (hle : seq.toNat ≤ h.replay.lastseq.toNat)
    (hin : h.replay.lastseq.toNat < seq.toNat + 8 * w.toNat) :
    Marked w h seq (h.replay.mark (h.replay.lastseq - seq)) where
  last := by
    obtain ⟨hlast, hmax⟩ := hok.last hne hlen
    refine ⟨mem_cons_of_mem _ hlast, fun m hm => ?_⟩
    rcases mem_cons.mp hm with rfl | hm
    · exact hle
    · exact hmax m hm
  bits k hk := by
    show _ ↔ h.Has (h.replay.lastseq.toNat - k) ∨ h.replay.lastseq.toNat - k = seq.toNat
    have hpos := toNat_pos h0
    have hdiff : (h.replay.lastseq - seq).toNat = h.replay.lastseq.toNat - seq.toNat :=
      BitVec.toNat_sub_of_le (BitVec.le_def.mpr hle)
    have hmark := @bit_mark h.replay.bitmap (h.replay.lastseq.toNat - seq.toNat) (by rw [hok.len]; omega) k
      (by rw [hok.len]; exact hk)
    have hbit : bit (h.replay.mark (h.replay.lastseq - seq)).bitmap k =
        (decide (k = h.replay.lastseq.toNat - seq.toNat) || bit h.replay.bitmap k) := by
      rw [← hmark]
      simp [Secreplay.mark, Secreplay.fr, Secreplay.frlast, Secreplay.mask, hok.wsize, hok.len, hdiff]
    rw [hbit, Bool.or_eq_true, decide_eq_true_iff, hok.bits hne hlen k hk, or_comm]
    refine or_congr_right ⟨fun hkd => ?_, fun heq => ?_⟩ <;> omega

theorem window?_spec (hw : 0 < w.toNat) (hw28 : w.toNat < 2 ^ 28) (hlen : h.accepted.length < 2 ^ 32 - 1) :
    match h.replay.window? seq with
    | some r => Fresh w h seq ∧ Marked w h seq r
    | none => ¬Fresh w h seq := by
  unfold Secreplay.window?
  by_cases h0 : seq = 0
  · rw [if_pos h0]
    exact fun hf => hf.1 h0
  rw [if_neg h0]
  by_cases hc : h.replay.count = 0
  · -- The first packet.
    have hnil : h.accepted = [] := by
      have hcount := hok.count
      rw [hc] at hcount
      exact eq_nil_of_length_eq_zero hcount.symm
    rw [if_pos hc]
    refine ⟨⟨h0, by simp [hnil], .inl hnil⟩, restart_marked hok hw h0 fun m hm => ?_⟩
    rw [hnil] at hm
    exact absurd hm not_mem_nil
  have hne : h.accepted ≠ [] := by
    intro hnil
    have hcount := hok.count
    rw [hnil] at hcount
    exact hc (BitVec.eq_of_toNat_eq hcount)
  obtain ⟨hlast, hmax⟩ := hok.last hne hlen
  have hwsizeb : h.replay.wsizeb.toNat = 8 * w.toNat := by
    rw [← hok.wsize] at hw28 ⊢
    exact toNat_wsizeb hw28
  rw [if_neg hc]
  by_cases hgt : h.replay.lastseq < seq
  · have hlt := BitVec.lt_def.mp hgt
    have hdiff := BitVec.toNat_sub_of_le (BitVec.le_def.mpr hlt.le)
    have hfresh : Fresh w h seq := by
      refine ⟨h0, fun hmem => ?_, .inr fun m hm => ?_⟩
      · have hle := hmax seq hmem
        omega
      · have hle := hmax m hm
        omega
    rw [if_pos hgt]
    by_cases hin : seq - h.replay.lastseq < h.replay.wsizeb
    · rw [if_pos hin]
      rw [BitVec.lt_def, hdiff, hwsizeb] at hin
      exact ⟨hfresh, advance_marked hok hw28 hne hlen hlt (by omega)⟩
    rw [if_neg hin]
    rw [BitVec.lt_def, hdiff, hwsizeb] at hin
    refine ⟨hfresh, restart_marked hok hw h0 fun m hm => ?_⟩
    have hle := hmax m hm
    omega
  have hle : seq.toNat ≤ h.replay.lastseq.toNat := by
    rw [BitVec.lt_def] at hgt
    omega
  have hdiff := BitVec.toNat_sub_of_le (BitVec.le_def.mpr hle)
  rw [if_neg hgt]
  by_cases hold : h.replay.wsizeb ≤ h.replay.lastseq - seq
  · rw [if_pos hold]
    rw [BitVec.le_def, hdiff] at hold
    rintro ⟨-, -, hnil | hwin⟩
    · exact hne hnil
    · have hlt := hwin _ hlast
      omega
  rw [if_neg hold]
  rw [BitVec.le_def, hdiff] at hold
  have hseen : h.replay.seen (h.replay.lastseq - seq) = true ↔ seq ∈ h.accepted := by
    rw [seen_eq (by rw [hok.len, hok.wsize]), hdiff, hok.bits hne hlen _ (by omega), ← has_toNat, Nat.sub_sub_self hle]
  by_cases hdup : h.replay.seen (h.replay.lastseq - seq)
  · rw [if_pos hdup]
    exact fun hf => hf.2.1 (hseen.mp hdup)
  rw [if_neg hdup]
  refine ⟨⟨h0, fun hmem => hdup (hseen.mpr hmem), .inr fun m hm => ?_⟩, mark_marked hok hw28 hne hlen h0 hle (by omega)⟩
  have hmle := hmax m hm
  omega

theorem count_full : h.replay.count = BitVec.allOnes 32 ↔ h.accepted.length = 2 ^ 32 - 1 := by
  rw [← hok.count]
  constructor
  · intro hc
    rw [hc]
    rfl
  · intro hc
    exact BitVec.eq_of_toNat_eq hc

theorem update_accepts (hw : 0 < w.toNat) (hw28 : w.toNat < 2 ^ 28) (hlen : h.accepted.length < 2 ^ 32 - 1) (seq : Seq) :
    (ipsecUpdatereplay false seq h.replay).2 = 0 ↔ Fresh w h seq := by
  have hne : h.replay.wsize ≠ 0 := by
    rw [hok.wsize]
    exact fun h0 => by simp [h0] at hw
  have hspec := @window?_spec h w seq hok hw hw28 hlen
  rw [update_eq hne]
  cases hr : h.replay.window? seq with
  | none =>
    rw [hr] at hspec
    exact iff_of_false Nat.one_ne_zero hspec
  | some r =>
    rw [hr] at hspec
    obtain ⟨-, hcount, -⟩ := window?_fields (by rw [hok.len, hok.wsize]) hr
    have hmore : r.count ≠ BitVec.allOnes 32 := by
      rw [hcount, Ne, count_full hok]
      omega
    show (r.accept false).2 = 0 ↔ Fresh w h seq
    rw [accept_more hmore]
    exact iff_of_true rfl hspec.1

theorem WindowOk.next (hw : 0 < w.toNat) (hw28 : w.toNat < 2 ^ 28) (seq : Seq) : WindowOk w (h.next seq) := by
  have hne : h.replay.wsize ≠ 0 := by
    rw [hok.wsize]
    exact fun h0 => by simp [h0] at hw
  have hrlen : h.replay.bitmap.length = h.replay.wsize.toNat := by rw [hok.len, hok.wsize]
  unfold History.next
  rw [update_eq hne]
  cases hr : h.replay.window? seq with
  | none => exact ⟨hok.wsize, hok.len, hok.count, hok.nodup, hok.nonzero, hok.last, hok.bits⟩
  | some r =>
    obtain ⟨hrw, hrc, hrl⟩ := window?_fields hrlen hr
    by_cases hfull : h.accepted.length = 2 ^ 32 - 1
    · -- Nothing is accepted, and what the window says is not used.
      simp only [accept_full (hrc.trans ((count_full hok).mpr hfull))]
      exact ⟨hrw.trans hok.wsize, hrl.trans (by rw [hok.wsize]), (congrArg _ hrc).trans hok.count, hok.nodup, hok.nonzero,
        fun _ hlt => absurd hlt (by simp [hfull]), fun _ hlt => absurd hlt (by simp [hfull])⟩
    have hlt : h.accepted.length < 2 ^ 32 - 1 := by
      have hbound := hok.count
      omega
    have hspec := @window?_spec h w seq hok hw hw28 hlt
    rw [hr] at hspec
    obtain ⟨hfresh, hmark⟩ := hspec
    have hmore : r.count ≠ BitVec.allOnes 32 := by
      rw [hrc, Ne, count_full hok]
      exact hfull
    simp only [accept_more hmore, if_true]
    refine ⟨hrw.trans hok.wsize, hrl.trans (by rw [hok.wsize]), ?_, nodup_cons.mpr ⟨hfresh.2.1, hok.nodup⟩, ?_,
      fun _ _ => hmark.last, fun _ _ k hk => ?_⟩
    · rw [hrc, BitVec.toNat_add, hok.count, show (1 : BitVec 32).toNat = 1 from rfl]
      exact Nat.mod_eq_of_lt (by omega)
    · intro hmem
      rcases mem_cons.mp hmem with h0 | hmem
      · exact hfresh.1 h0.symm
      · exact hok.nonzero hmem
    rw [hmark.bits k hk]
    constructor
    · rintro (⟨m, hm, heq⟩ | heq)
      · exact ⟨m, mem_cons_of_mem _ hm, heq⟩
      · exact ⟨seq, mem_cons_self, heq.symm⟩
    rintro ⟨m, hm, heq⟩
    rcases mem_cons.mp hm with rfl | hm
    · exact .inr heq.symm
    · exact .inl ⟨m, hm, heq⟩

end

theorem history_ok (hw : 0 < w.toNat) (hw28 : w.toNat < 2 ^ 28) (seqs : List Seq) : WindowOk w (history w seqs) := by
  have hrun : ∀ h, WindowOk w h → WindowOk w (seqs.foldl History.next h) := by
    induction seqs with
    | nil => exact fun h hok => hok
    | cons seq rest ih => exact fun h hok => ih _ (hok.next hw hw28 seq)
  refine hrun _ ⟨rfl, by simp [newSecreplay], rfl, nodup_nil, not_mem_nil, fun hne => absurd rfl hne,
    fun hne => absurd rfl hne⟩

/-- No number is accepted twice. While fewer than 2^32 - 1 are, one is accepted exactly
when it is not 0, new, and less than the window behind the largest, and the check before
says the same. A window is at most 255 bytes (`sadb_sa_replay`); below 2^28 its bits are
an `int`. -/
theorem replay_window_exact (hw : 0 < w.toNat) (hw28 : w.toNat < 2 ^ 28) (seqs : List Seq) : (history w seqs).accepted.Nodup ∧
    ((history w seqs).accepted.length < 2 ^ 32 - 1 → ∀ seq,
      ((ipsecUpdatereplay false seq (history w seqs).replay).2 = 0 ↔ seq ≠ 0 ∧ seq ∉ (history w seqs).accepted ∧
        ((history w seqs).accepted = [] ∨ ∀ m ∈ (history w seqs).accepted, m.toNat < seq.toNat + 8 * w.toNat)) ∧
      (ipsecChkreplay seq (history w seqs).replay = 1 ↔ (ipsecUpdatereplay false seq (history w seqs).replay).2 = 0)) := by
  have hok := history_ok hw hw28 seqs
  refine ⟨hok.nodup, fun hlen seq => ⟨update_accepts hok hw hw28 hlen seq, ?_⟩⟩
  have hne : (history w seqs).replay.wsize ≠ 0 := by
    rw [hok.wsize]
    exact fun h0 => by simp [h0] at hw
  have hspec := @window?_spec (history w seqs) w seq hok hw hw28 hlen
  rw [update_accepts hok hw hw28 hlen, chkreplay_eq hne]
  cases hr : (history w seqs).replay.window? seq with
  | none =>
    rw [hr] at hspec
    exact iff_of_false (by decide) hspec
  | some r =>
    rw [hr] at hspec
    exact iff_of_true rfl hspec.1

/-- A window of four bytes: 7 comes again, 40 moves the window on, 8 is too old and 9 is not. -/
theorem replay_window_exact_four : (history 4 [7, 7, 40, 8, 9]).accepted = [9, 40, 7] ∧ (history 4 [7, 7, 40, 8, 9]).accepted.Nodup :=
  ⟨by decide, (replay_window_exact (by decide) (by decide) [7, 7, 40, 8, 9]).1⟩

end Window

end NetBSD.Netipsec
