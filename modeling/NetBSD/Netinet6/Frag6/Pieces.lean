import Mathlib.Data.List.GetD
import NetBSD.Netinet6.Frag6.Books
import NetBSD.Netinet6.Frag6.Packet

/-! The pieces of a packet on a queue.

A packet is cut into pieces, and a queue holds fragments of some of them, in order and without overlap: a piece that is on the
queue already is refused, or is empty and is on it twice (`place_stored`). So the queue is complete when the last of the pieces
has come, in whichever order (`complete_spec`, `complete_of_all`). The headers of the first fragment are those of the packet,
but for what the fragment header changes (`Carries.headers`). -/
namespace NetBSD.Netinet6.Frag6
open List Option
open Lib

/-- A packet that is sent in fragments: the unfragmentable part with the place of its last next header field, the payload, and
the lengths of the pieces that it is cut into. -/
structure Original where
  unfrag : List Byte
  nxtField : Nat
  payload : List Byte
  lens : List Nat
  key : Key
  ipsec : BitVec 2
  two : 2 ≤ lens.length
  sum : lens.sum = payload.length
  cut : ∀ i, i + 1 < lens.length → 0 < lens.getD i 0 ∧ 8 ∣ lens.getD i 0
  fits : unfrag.length - 40 + payload.length ≤ ipv6Maxpacket
  headers : LastHeader unfrag unfrag.length 6 40 nxtField
  plen : field unfrag 4 2 = htons ((unfrag.length - 40 + payload.length : Nat) : Int)

namespace Original
variable (d : Original)

def count : Nat := d.lens.length
def n : Nat := d.payload.length
def len (i : Nat) : Nat := d.lens.getD i 0
def off (i : Nat) : Nat := (d.lens.take i).sum
def piece (i : Nat) : List Byte := (d.payload.drop (d.off i)).take (d.len i)
def nxt : Byte := byteAt d.unfrag d.nxtField

def Refused (i : Nat) : Prop := i + 1 < d.count ∧ d.len i = 32

variable {d} {i j x : Nat}

theorem off_succ (h : i < d.count) : d.off (i + 1) = d.off i + d.len i := by
  rw [off, sum_take_succ _ _ h, len, getD_eq_getElem _ _ h, off]

theorem off_count : d.off d.count = d.n := by
  rw [off, count, take_length, d.sum, n]

theorem len_pos (h : i + 1 < d.count) : 0 < d.len i := (d.cut i h).1

theorem stop_le_off (hij : i < j) (hj : j ≤ d.count) : d.off i + d.len i ≤ d.off j := by
  induction j with
  | zero => cases hij
  | succ j ih =>
    rw [off_succ hj]
    obtain rfl | hlt := Nat.eq_or_lt_of_le (Nat.le_of_lt_succ hij)
    · exact le_refl _
    · exact Nat.le_add_right_of_le (ih hlt (Nat.le_of_succ_le hj))

theorem stop_le (h : i < d.count) : d.off i + d.len i ≤ d.n := by
  rw [← off_count]
  exact stop_le_off h (le_refl _)

theorem off_last (h : i + 1 = d.count) : d.off i + d.len i = d.n := by
  rw [← off_count, ← h, off_succ (by omega)]

theorem eq_of_off_le (hi : i < d.count) (hj : j < d.count) (hle : d.off j ≤ d.off i) (hlt : d.off i < d.off j + d.len j) : j = i := by
  obtain hij | rfl | hji := lt_trichotomy i j
  · have hpos := len_pos (lt_of_le_of_lt (Nat.succ_le_of_lt hij) hj)
    have hstop := stop_le_off hij (le_of_lt hj)
    omega
  · rfl
  · have hstop := stop_le_off hji (le_of_lt hi)
    omega

theorem off_inj (hi : i < d.count) (hj : j < d.count) (h : d.off i = d.off j) : i = j := by
  obtain hij | rfl | hji := lt_trichotomy i j
  · have hpos := len_pos (lt_of_le_of_lt (Nat.succ_le_of_lt hij) hj)
    have hstop := stop_le_off hij (le_of_lt hj)
    omega
  · rfl
  · have hpos := len_pos (lt_of_le_of_lt (Nat.succ_le_of_lt hji) hi)
    have hstop := stop_le_off hji (le_of_lt hi)
    omega

theorem exists_piece (hj : j ≤ d.count) (hx : x < d.off j) : ∃ i < j, d.off i ≤ x ∧ x < d.off i + d.len i := by
  induction j with
  | zero => cases hx
  | succ j ih =>
    by_cases hin : x < d.off j
    · obtain ⟨i, hi, hix⟩ := ih (Nat.le_of_succ_le hj) hin
      exact ⟨i, Nat.lt_succ_of_lt hi, hix⟩
    · rw [off_succ hj] at hx
      exact ⟨j, Nat.lt_succ_self j, Nat.le_of_not_lt hin, hx⟩

theorem unfrag_bounds : 40 ≤ d.unfrag.length ∧ d.nxtField < d.unfrag.length := by
  obtain ⟨hlen, hp⟩ := d.headers.bounds
  refine ⟨hlen, ?_⟩
  obtain hp | hp := hp
  · omega
  · exact hp.2

end Original

/-- The bytes of a fragment that carries a piece, with the fragment header at `offset`. The headers of the first are those of
the packet but for the length, and the last next header field, which says that a fragment header follows. -/
structure Carries (d : Original) (i : Nat) (b : List Byte) (offset : Nat) : Prop where
  lt : i < d.count
  minimal : 40 ≤ offset
  length : b.length = offset + 8 + d.len i
  plen : (header b offset).plen = offset - 40 + 8 + d.len i
  key : (header b offset).key = d.key
  off : (header b offset).fragoff = d.off i
  mff : (header b offset).mff = decide (i + 1 < d.count)
  data : b.drop (offset + 8) = d.piece i
  first : i = 0 → offset = d.unfrag.length ∧ byteAt b offset = d.nxt ∧
    b.take offset = (writeAt d.unfrag 4 (htons (header b offset).plen)).set d.nxtField (BitVec.ofNat 8 ipprotoFragment)

/-! ### The queue -/

variable {d : Original} {i j : Nat} {e : Asfrag} {frags frags' : List Asfrag} {q6 : Queue}

structure Stored (d : Original) (i : Nat) (e : Asfrag) : Prop where
  carries : Carries d i e.m.flatten (e.offset - 8)
  offset : 8 ≤ e.offset
  off : e.off = d.off i
  frglen : e.frglen = d.len i
  mff : e.mff = decide (i + 1 < d.count)

theorem Stored.stop (h : Stored d i e) : e.stop = (d.off i + d.len i : Nat) := by
  rw [Asfrag.stop, h.off, h.frglen]
  rfl

theorem Stored.data (h : Stored d i e) : e.data = d.piece i := by
  have hdata := h.carries.data
  rw [Nat.sub_add_cancel h.offset] at hdata
  exact hdata

theorem Stored.index (h : Stored d i e) (h' : Stored d j e) : i = j :=
  Original.off_inj h.carries.lt h'.carries.lt (h.off.symm.trans h'.off)

/-- The fragments that are on the queue are of the packet. -/
def Of (d : Original) (frags : List Asfrag) : Prop := ∀ e ∈ frags, ∃ i, Stored d i e

/-- Some fragment of a piece is there. -/
def Has (d : Original) (frags : List Asfrag) (i : Nat) : Prop := ∃ e ∈ frags, Stored d i e

theorem contiguous_data {lo : Nat} {next : Int} (hof : Of d frags) (h : contiguous lo frags = some next) :
    ∃ hi : Nat, next = hi ∧ lo ≤ hi ∧ frags.flatMap Asfrag.data = (d.payload.drop lo).take (hi - lo) := by
  induction frags generalizing lo with
  | nil =>
    refine ⟨lo, (some.inj h).symm, le_refl lo, ?_⟩
    rw [Nat.sub_self]
    rfl
  | cons e rest ih =>
    obtain ⟨⟨i, he⟩, hrest⟩ := forall_mem_cons.mp hof
    rw [contiguous] at h
    split at h
    · cases h
    · next hoff =>
      have hlo : e.off = lo := Int.ofNat.inj (not_not.mp hoff)
      have hfrom : (lo : Int) + e.frglen = (lo + d.len i : Nat) := by
        rw [he.frglen]
        rfl
      rw [hfrom] at h
      obtain ⟨hi, hnext, hle, hdata⟩ := ih hrest h
      refine ⟨hi, hnext, by omega, ?_⟩
      have hsplit : hi - lo = d.len i + (hi - (lo + d.len i)) := by omega
      rw [flatMap_cons, hdata, he.data, Original.piece, ← he.off, hlo, hsplit, take_add, drop_drop]

theorem contiguous_covers {lo : Nat} {next : Int} (h : contiguous lo frags = some next) {x : Nat} (hlo : lo ≤ x) (hx : x < next)
    (hof : Of d frags) : ∃ e ∈ frags, e.off ≤ x ∧ x < e.stop := by
  induction frags generalizing lo with
  | nil =>
    obtain rfl := some.inj h
    omega
  | cons e rest ih =>
    obtain ⟨⟨i, he⟩, hrest⟩ := forall_mem_cons.mp hof
    rw [contiguous] at h
    split at h
    · cases h
    · next hoff =>
      by_cases hin : x < lo + d.len i
      · refine ⟨e, mem_cons_self, by omega, ?_⟩
        rw [he.stop, ← he.off]
        omega
      have hfrom : (lo : Int) + e.frglen = (lo + d.len i : Nat) := by
        rw [he.frglen]
        rfl
      rw [hfrom] at h
      obtain ⟨e', he', hcov⟩ := ih h (Nat.le_of_not_lt hin) hrest
      exact ⟨e', mem_cons_of_mem _ he', hcov⟩

theorem contiguous_of_covers {lo : Nat} (hof : Of d frags) (horder : frags.Pairwise Precedes) (hoff : ∀ e ∈ frags, lo ≤ e.off)
    (hcov : ∀ x, lo ≤ x → x < d.n → ∃ e ∈ frags, e.off ≤ x ∧ (x : Int) < e.stop) : ∃ next, contiguous lo frags = some next := by
  induction frags generalizing lo with
  | nil => exact ⟨lo, rfl⟩
  | cons e rest ih =>
    obtain ⟨⟨i, he⟩, hrest⟩ := forall_mem_cons.mp hof
    obtain ⟨hfirst, horder⟩ := pairwise_cons.mp horder
    have hle := hoff e mem_cons_self
    have hn := Original.stop_le he.carries.lt
    have hstop := he.stop
    have heoff := he.off
    -- The fragment that has the byte at `lo` can only be the first.
    have hlo : e.off = lo := by
      by_contra hne
      obtain ⟨e', he', hat, -⟩ := hcov lo (le_refl lo) (by omega)
      obtain rfl | hmem := mem_cons.mp he'
      · omega
      · have hbehind := (hfirst e' hmem).1
        omega
    have hfrom : (lo : Int) + e.frglen = (lo + d.len i : Nat) := by
      rw [he.frglen]
      rfl
    rw [contiguous, if_neg (by rw [hlo]; exact not_not.mpr rfl), hfrom]
    apply ih hrest horder
    · intro e' he'
      have hbehind := (hfirst e' he').2
      omega
    intro x hx hxn
    obtain ⟨e', he', hat⟩ := hcov x (by omega) hxn
    obtain rfl | hmem := mem_cons.mp he'
    · omega
    · exact ⟨e', hmem, hat⟩

theorem contiguous_stop {lo next : Int} (h : contiguous lo frags = some next) : ∀ e ∈ frags.getLast?, next = e.stop := by
  induction frags generalizing lo with
  | nil => exact fun _ he => nomatch he
  | cons e rest ih =>
    rw [contiguous] at h
    split at h
    · cases h
    · next hoff =>
      cases rest with
      | nil =>
        intro e' he'
        obtain rfl : e = e' := some.inj he'
        rw [Asfrag.stop, not_not.mp hoff]
        exact (some.inj h).symm
      | cons r rest => exact ih h

theorem complete_spec {next : Int} (hof : Of d frags) (h : complete frags = some next) :
    next = d.n ∧ frags.flatMap Asfrag.data = d.payload ∧ contiguous 0 frags = some next ∧ ∀ i < d.count, Has d frags i := by
  rw [complete] at h
  split at h
  · next next' last hcont hlast =>
    split at h
    · cases h
    · next hmff =>
      obtain rfl := some.inj h
      have hmem := mem_of_getLast? hlast
      obtain ⟨l, hl⟩ := hof last hmem
      have hend : l + 1 = d.count := by
        have hlt := hl.carries.lt
        have hmore : ¬ l + 1 < d.count := fun hmore => hmff (hl.mff.trans (decide_eq_true hmore))
        omega
      have hn : next' = d.n := by rw [contiguous_stop hcont last hlast, hl.stop, Original.off_last hend]
      obtain ⟨hi, hhi, -, hdata⟩ := @contiguous_data d frags 0 _ hof hcont
      obtain rfl : hi = d.n := Int.ofNat.inj (hhi.symm.trans hn)
      refine ⟨hn, ?_, hcont, fun i hi => ?_⟩
      · rw [hdata, drop_zero, Nat.sub_zero, Original.n, take_length]
      by_cases hil : i = l
      · exact ⟨last, hmem, hil ▸ hl⟩
      have hpos := Original.len_pos (show i + 1 < d.count by omega)
      have hstop := Original.stop_le hi
      obtain ⟨e, he, hle, hlt⟩ := @contiguous_covers d frags 0 _ hcont (d.off i) (Nat.zero_le _) (by omega) hof
      obtain ⟨j, hj⟩ := hof e he
      rw [hj.stop] at hlt
      rw [hj.off] at hle
      obtain rfl := Original.eq_of_off_le hi hj.carries.lt hle (by omega)
      exact ⟨e, he, hj⟩
  · cases h

theorem complete_of_all (hof : Of d frags) (horder : frags.Pairwise Precedes) (hall : ∀ i < d.count, Has d frags i) :
    ∃ next, complete frags = some next := by
  have hcov (x : Nat) (_ : 0 ≤ x) (hx : x < d.n) : ∃ e ∈ frags, e.off ≤ x ∧ (x : Int) < e.stop := by
    rw [← Original.off_count] at hx
    obtain ⟨i, hi, hle, hlt⟩ := Original.exists_piece (le_refl _) hx
    obtain ⟨e, he, hstored⟩ := hall i hi
    refine ⟨e, he, by rw [hstored.off]; exact hle, ?_⟩
    rw [hstored.stop]
    exact Int.ofNat_lt.mpr hlt
  obtain ⟨next, hcont⟩ := contiguous_of_covers hof horder (fun _ _ => Nat.zero_le _) hcov
  -- The last fragment is of the last piece, as nothing else lies behind it.
  have htwo : 2 ≤ d.count := d.two
  obtain ⟨e, he, hstored⟩ := hall (d.count - 1) (by omega)
  have hne : frags ≠ [] := ne_nil_of_mem he
  obtain ⟨init, last, rfl⟩ := (eq_nil_or_concat' frags).resolve_left hne
  obtain ⟨l, hl⟩ := hof last (mem_append_right _ (mem_singleton_self _))
  have hlast : l + 1 = d.count := by
    have hlt := hl.carries.lt
    obtain hinit | hin := mem_append.mp he
    · have hstop := ((pairwise_append.mp horder).2.2 e hinit last (mem_singleton_self _)).2
      rw [hstored.stop, Original.off_last (by omega), hl.off] at hstop
      by_contra hmore
      have hpos := Original.len_pos (show l + 1 < d.count by omega)
      have hle := Original.stop_le hlt
      omega
    · obtain rfl := mem_singleton.mp hin
      have hsame := hl.index hstored
      omega
  have hmff : last.mff = false := by
    rw [hl.mff]
    exact decide_eq_false (by omega)
  refine ⟨next, ?_⟩
  change contiguous 0 (init ++ [last]) = some next at hcont
  rw [complete, hcont, getLast?_concat]
  exact if_neg (by rw [hmff]; decide)

theorem place_stored (hof : Of d frags) (he : Stored d i e) (h : place e frags = none) : Has d frags i := by
  simp only [place] at h
  split at h
  · next hover =>
    obtain ⟨up, hup, hgt⟩ | ⟨a, ha, hgt⟩ := hover
    · have hmem := mem_of_getLast? hup
      have hin : up ∈ frags := ( takeWhile_prefix _).subset hmem
      obtain ⟨j, hj⟩ := hof up hin
      have hle : up.off ≤ e.off := of_decide_eq_true (mem_takeWhile_imp (p := fun a : Asfrag => decide (a.off ≤ e.off)) hmem)
      rw [hj.stop, he.off] at hgt
      rw [hj.off, he.off] at hle
      obtain rfl := Original.eq_of_off_le he.carries.lt hj.carries.lt hle (by omega)
      exact ⟨up, hin, hj⟩
    have hin : a ∈ frags := (dropWhile_suffix _).subset (mem_of_head? ha)
    obtain ⟨j, hj⟩ := hof a hin
    have hhead := head?_dropWhile_not (fun a : Asfrag => decide (a.off ≤ e.off)) frags
    rw [ha] at hhead
    have hlt : e.off < a.off := by simpa using hhead
    rw [he.stop, hj.off] at hgt
    rw [he.off, hj.off] at hlt
    obtain rfl := Original.eq_of_off_le hj.carries.lt he.carries.lt (le_of_lt hlt) (by omega)
    omega
  · cases h

variable {b : List Byte} {offset : Nat}

section
variable (h : Carries d 0 b offset)
include h

theorem Carries.getElem? {k : Nat} (hk : k < offset) (hp : k ≠ d.nxtField) (hk6 : 6 ≤ k) : b[k]? = d.unfrag[k]? := by
  have hhead := congrArg (fun l => l[k]?) (h.first rfl).2.2
  simp only [getElem?_take_of_lt hk] at hhead
  rw [hhead, getElem?_set_ne (Ne.symm hp), getElem?_writeAt_of_out (Or.inr hk6)]

theorem Carries.lastHeader : LastHeader b offset 6 40 d.nxtField := by
  obtain ⟨hoff, -, -⟩ := h.first rfl
  have hway := d.headers
  rw [← hoff] at hway
  apply hway.congr (le_refl _) (by decide)
  · intro hne
    have hmin := h.minimal
    exact byteAt_congr (h.getElem? (by omega) hne (le_refl 6))
  · exact fun k hk hkoff hne => byteAt_congr (h.getElem? hkoff hne (by omega))

theorem Carries.headers : (writeAt (b.take offset) 4 (htons ((d.n : Int) + offset - 40))).set d.nxtField d.nxt = d.unfrag := by
  obtain ⟨hoff, -, hhead⟩ := h.first rfl
  obtain ⟨hmin, hp⟩ := d.unfrag_bounds
  have hlen : (b.take offset).length = d.unfrag.length := by rw [hhead, length_set, length_writeAt]
  have htotal : htons ((d.n : Int) + offset - 40) = field d.unfrag 4 2 := by
    rw [d.plen]
    congr 1
    rw [Original.n]
    omega
  rw [htotal]
  apply ext_getElem?
  intro k
  by_cases hk : k = d.nxtField
  · obtain rfl := hk
    rw [getElem?_set_self (by rw [length_writeAt, hlen]; exact hp), Original.nxt, byteAt, getD_eq_getElem _ _ hp, getElem?_eq_getElem hp]
  rw [getElem?_set_ne (Ne.symm hk)]
  by_cases hplen : 4 ≤ k ∧ k < 6
  · obtain ⟨j, rfl⟩ : ∃ j, k = 4 + j := ⟨k - 4, by omega⟩
    have hfield : (field d.unfrag 4 2).length = 2 := by rw [d.plen, length_htons]
    rw [getElem?_writeAt (by omega) (by omega), getElem?_field (by omega)]
  · have hfield : (field d.unfrag 4 2).length = 2 := by rw [d.plen, length_htons]
    rw [getElem?_writeAt_of_out (by omega), hhead, getElem?_set_ne (Ne.symm hk), getElem?_writeAt_of_out (by rw [length_htons]; omega)]

end

end NetBSD.Netinet6.Frag6
