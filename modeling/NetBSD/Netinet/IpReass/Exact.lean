import NetBSD.Netinet.IpReass.Invariant

/-! Reassembly of one datagram is exact.

The fragments of a datagram arrive in any order, overlapping and repeated, among the
fragments of other datagrams. The queue of the datagram then holds pieces of its
payload (`Piece`), and as a set of bytes it holds exactly what the fragments accepted
since the last completed packet held (`Tracks`). So it is complete at the arrival that
covers the payload, not before, and what is returned is the payload.

`ip_reass_packet` refuses fragments below the minimal fragment size; those do not
count. -/
namespace NetBSD.Netinet.IpReass
open List Option
open Lib

/-- A datagram: what its fragments carry in common, and the payload. -/
structure Datagram where
  key : Key
  tos : BitVec 8
  ipsec : BitVec 2
  payload : List Byte

def Datagram.n (d : Datagram) : Nat := d.payload.length

/-- The bytes from `off` on, `len` of them. -/
def Datagram.slice (d : Datagram) (off len : Nat) : List Byte := (d.payload.drop off).take len

/-- An entry with a piece of the payload. -/
structure Piece (d : Datagram) (q : Qent) : Prop where
  bytes : q.m = d.slice q.off q.len
  pos : 0 < q.len
  more : q.mff = true → q.stop < d.n
  last : q.mff = false → q.stop = d.n
  header : q.off = 0 → q.ip.hlen + d.n ≤ ipMaxpacket

section Piece
variable {d : Datagram} {fragq : List Qent}

theorem Piece.stop_le {q : Qent} (h : Piece d q) : q.stop ≤ d.n := by
  cases hm : q.mff with
  | true => exact (h.more hm).le
  | false => exact (h.last hm).le

theorem piece_trimmable : Trimmable (Piece d) := by
  rintro q i ⟨hb, hp, hm, hl, hh⟩ hi
  refine ⟨?_, Nat.sub_pos_of_lt hi, ?_, ?_, fun h0 => hh ?_⟩
  · simp [Qent.adj, hb, Datagram.slice, drop_take, drop_drop]
  · rw [adj_stop hi]
    exact hm
  · rw [adj_stop hi]
    exact hl
  · simp only [Qent.adj] at h0
    omega

theorem contiguous_stop {lo next : Nat} (h : contiguous lo fragq = some next) : ∀ p ∈ fragq.getLast?, next = p.stop := by
  induction fragq generalizing lo with
  | nil => simp
  | cons q rest ih =>
    rw [contiguous] at h
    split at h
    · simp at h
    · next heq =>
      cases rest with
      | nil =>
        obtain rfl := some.inj h
        intro p hp
        obtain rfl : q = p := by simpa using hp
        simp only [Qent.stop]
        omega
      | cons r rest =>
        intro p hp
        exact ih h p (by simpa using hp)

theorem contiguous_bytes {lo next : Nat} (heach : ∀ q ∈ fragq, Piece d q) (h : contiguous lo fragq = some next) :
    lo ≤ next ∧ fragq.flatMap Qent.m = d.slice lo (next - lo) := by
  induction fragq generalizing lo with
  | nil =>
    obtain rfl := some.inj h
    simp [Datagram.slice]
  | cons q rest ih =>
    obtain ⟨hq, hrest⟩ := forall_mem_cons.mp heach
    rw [contiguous] at h
    split at h
    · simp at h
    · next heq =>
      obtain rfl : q.off = lo := by simpa using heq
      obtain ⟨hle, hbytes⟩ := ih hrest h
      refine ⟨by omega, ?_⟩
      have hsplit : next - q.off = q.len + (next - (q.off + q.len)) := by omega
      rw [flatMap_cons, hq.bytes, hbytes, hsplit]
      simp [Datagram.slice, take_add, drop_drop]

theorem contiguous_of_holds {lo : Nat} (h : Laid (Piece d) fragq) (hoff : ∀ q ∈ fragq, lo ≤ q.off) (hlo : lo ≤ d.n)
    (hcov : ∀ x, lo ≤ x → x < d.n → ∃ q ∈ fragq, q.Holds x) : contiguous lo fragq = some d.n := by
  induction fragq generalizing lo with
  | nil =>
    have : lo = d.n := by
      by_contra hne
      obtain ⟨q, hq, -⟩ := hcov lo le_rfl (by omega)
      simp at hq
    rw [contiguous, this]
  | cons q rest ih =>
    obtain ⟨hq, hrest, hnext⟩ := laid_cons.mp h
    have hqo := hoff q (mem_cons_self ..)
    have hpos := hq.pos
    have hstop := hq.stop_le
    simp only [Qent.stop] at hstop
    -- The entry that holds the byte at `lo` can only be the first.
    have hfirst : q.off = lo := by
      obtain ⟨r, hr, hhold⟩ := hcov lo le_rfl (by omega)
      simp only [Qent.Holds, Qent.stop] at hhold
      obtain rfl | hr := mem_cons.mp hr
      · omega
      have := (hnext r hr).2
      simp only [Qent.stop] at this
      omega
    rw [contiguous, if_neg (by simpa using hfirst)]
    refine ih hrest (fun r hr => ?_) (by omega) fun x hx hxn => ?_
    · have := (hnext r hr).2
      simp only [Qent.stop] at this
      omega
    obtain ⟨r, hr, hhold⟩ := hcov x (by omega) hxn
    obtain rfl | hr := mem_cons.mp hr
    · simp only [Qent.Holds, Qent.stop] at hhold
      omega
    · exact ⟨r, hr, hhold⟩

theorem complete_eq_some {q : Qent} {next : Nat} (h : complete fragq = some (q, next)) :
    contiguous 0 fragq = some next ∧ fragq.head? = some q ∧ ∃ p, fragq.getLast? = some p ∧ p.mff = false := by
  unfold complete at h
  split at h
  · next next' q' p hcont hhead hlast =>
    split at h
    · simp at h
    · next hmff =>
      obtain ⟨rfl, rfl⟩ : q' = q ∧ next' = next := by simpa using h
      exact ⟨hcont, hhead, p, hlast, by simpa using hmff⟩
  · simp at h

theorem complete_spec {q : Qent} {next : Nat} (h : Laid (Piece d) fragq) (hc : complete fragq = some (q, next)) :
    next = d.n ∧ q.ip.hlen + d.n ≤ ipMaxpacket ∧ fragq.flatMap Qent.m = d.payload := by
  obtain ⟨hcont, hhead, p, hlast, hmff⟩ := complete_eq_some hc
  have hn : next = d.n :=
    (contiguous_stop hcont p hlast).trans ((h.each p (mem_of_getLast? hlast)).last hmff)
  refine ⟨hn, (h.each q (mem_of_mem_head? hhead)).header ?_, ?_⟩
  · obtain ⟨rest, rfl⟩ : ∃ rest, fragq = q :: rest := ⟨fragq.tail, (cons_head?_tail hhead).symm⟩
    rw [contiguous] at hcont
    split at hcont
    · simp at hcont
    · next h0 => simpa using h0
  · rw [(contiguous_bytes h.each hcont).2, hn]
    simp [Datagram.slice, Datagram.n]

theorem complete_of_holds (h : Laid (Piece d) fragq) (hne : fragq ≠ [])
    (hcov : ∀ x < d.n, ∃ q ∈ fragq, q.Holds x) : ∃ q, complete fragq = some (q, d.n) := by
  have hcont := contiguous_of_holds h (fun _ _ => Nat.zero_le _) (Nat.zero_le _) fun x _ hx => hcov x hx
  obtain ⟨q, rest, rfl⟩ := exists_cons_of_ne_nil hne
  have hlast := getLast?_eq_getLast_of_ne_nil hne
  have hstop := contiguous_stop hcont _ hlast
  have hmff : ((q :: rest).getLast hne).mff = false := by
    cases hm : ((q :: rest).getLast hne).mff with
    | false => rfl
    | true =>
      have := (h.each _ (getLast_mem hne)).more hm
      omega
  exact ⟨q, by simp [complete, hcont, hlast, hmff]⟩

theorem holds_of_contiguous {lo next : Nat} (h : contiguous lo fragq = some next) : ∀ x, lo ≤ x → x < next → ∃ q ∈ fragq, q.Holds x := by
  induction fragq generalizing lo with
  | nil =>
    have : lo = next := some.inj h
    omega
  | cons r rest ih =>
    rw [contiguous] at h
    split at h
    · simp at h
    intro x hx hxn
    by_cases hin : x < lo + r.len
    · exact ⟨r, mem_cons_self .., by simp only [Qent.Holds, Qent.stop]; omega⟩
    · obtain ⟨y, hy, hold⟩ := ih h x (by omega) hxn
      exact ⟨y, mem_cons_of_mem _ hy, hold⟩

theorem complete_iff (h : Laid (Piece d) fragq) (hne : fragq ≠ []) :
    (∃ q, complete fragq = some (q, d.n)) ↔ ∀ x < d.n, ∃ q ∈ fragq, q.Holds x :=
  ⟨fun ⟨_, hc⟩ x hx => holds_of_contiguous (complete_eq_some hc).1 x (Nat.zero_le _) hx, complete_of_holds h hne⟩

end Piece

section Frame
variable {key key' : Key}

theorem find_putQueue_ne (hne : key' ≠ key) {new : Option Queue} (hnew : ∀ fp ∈ new, fp.key = key) (fps : List Queue) :
    (putQueue key new fps).find? (fun fp => fp.key = key') = fps.find? fun fp => fp.key = key' := by
  induction fps with
  | nil => rfl
  | cons x rest ih =>
    rw [putQueue]
    split
    · next hx =>
      have hold : x.key ≠ key' := fun h => hne (h.symm.trans hx)
      cases new with
      | none => simp [hold]
      | some fp =>
        have hfp : fp.key ≠ key' := fun h => hne (h.symm.trans (hnew fp rfl))
        simp [hold, hfp]
    · simp [find?_cons, ih]

theorem findQueue_setList {s : Reass} {i : Fin ipreassHashSize} {fps : List Queue}
    (h : fps.find? (fun fp => fp.key = key') = (s.ipFrags i).find? fun fp => fp.key = key') :
    (s.setList i fps).findQueue key' = s.findQueue key' := by
  simp only [Reass.findQueue, Reass.setList]
  by_cases hi : ipreassHash key' = i
  · rw [hi, Function.update_self, h]
  · rw [Function.update_of_ne hi]

theorem findQueue_put_ne (s : Reass) (hne : key' ≠ key) {new : Option Queue} (hnew : ∀ fp ∈ new, fp.key = key) :
    (s.put key new).findQueue key' = s.findQueue key' :=
  findQueue_setList (find_putQueue_ne hne hnew _)

theorem findQueue_finishQueue_ne (s : Reass) {fp : Queue} (hne : key' ≠ fp.key) : (finishQueue s fp).2.findQueue key' = s.findQueue key' := by
  have hfree : (ipFreef s fp).findQueue key' = s.findQueue key' := findQueue_put_ne s hne (by simp)
  unfold finishQueue
  split
  · rfl
  split
  · exact hfree
  · exact hfree

theorem findQueue_insertQueue_ne (s : Reass) {fp : Queue} (hne : key' ≠ fp.key) : (insertQueue s fp).findQueue key' = s.findQueue key' := by
  refine findQueue_setList ?_
  have : fp.key ≠ key' := hne.symm
  simp [this]

theorem findQueue_ipReassPacket_ne (s : Reass) (f : Fragment) (alloc : Alloc) (hne : key' ≠ f.ip.key) :
    (ipReassPacket s f alloc).2.findQueue key' = s.findQueue key' := by
  unfold ipReassPacket
  split_ifs
  · rfl
  · rfl
  · rfl
  cases hf : s.findQueue f.ip.key with
  | none =>
    simp only [ipReass]
    split
    · rfl
    · rw [findQueue_finishQueue_ne _ hne, findQueue_insertQueue_ne _ hne]
      rfl
  | some fp =>
    have hfp : key' ≠ fp.key := (findQueue_key hf).symm ▸ hne
    have hput (s : Reass) (spot : Placement) :
        (s.put fp.key (some (placedQueue fp spot))).findQueue key' = s.findQueue key' :=
      findQueue_put_ne s hfp (by simp [placedQueue])
    simp only [ipReass]
    split
    · exact hput _ _
    have hspot : key' ≠ (placedQueue fp (place (newQent f) fp.fragq)).key := hfp
    rw [findQueue_finishQueue_ne _ hspot, hput]
    rfl

end Frame

theorem finishQueue_key {s : Reass} {fp : Queue} {pkt : Packet} (hok : QueueOk fp) (h : (finishQueue s fp).1 = some pkt) : pkt.ip.key = fp.key := by
  unfold finishQueue at h
  split at h
  · simp at h
  · next q next hc =>
    split at h
    · simp at h
    obtain rfl := some.inj h
    have hkey := hok.keyed q (mem_of_mem_head? (complete_eq_some hc).2.1)
    rw [← hkey]
    simp [Ip.key]

structure Arrival where
  f : Fragment
  alloc : Alloc

/-- The packet an arrival brings about. -/
def returned (s : Reass) (a : Arrival) : Option Packet :=
  match (ipReassPacket s a.f a.alloc).1 with
  | .ok m => m
  | .error _ => none

structure FragmentOf (d : Datagram) (f : Fragment) : Prop where
  tos : f.ip.tos = d.tos
  ipsec : f.ipsecflags = d.ipsec
  bytes : f.data = d.slice f.ip.offBytes f.data.length
  more : f.ip.mf = true → 0 < f.data.length ∧ f.data.length % 8 = 0 ∧ f.ip.offBytes + f.data.length < d.n
  last : f.ip.mf = false → f.ip.offBytes + f.data.length = d.n
  /-- The header of the first fragment is that of a packet that may be as long. -/
  header : f.ip.offBytes = 0 → f.ip.hlen + d.n ≤ ipMaxpacket

def Fragment.Holds (f : Fragment) (x : Nat) : Prop := f.ip.offBytes ≤ x ∧ x < f.ip.offBytes + f.data.length

/-- The fragments cover the payload. -/
def Covers (d : Datagram) (fs : List Fragment) : Prop := ∀ x < d.n, ∃ f ∈ fs, f.Holds x

/-- No limit stands in the way of the arrival. -/
structure NoLimit (s : Reass) (a : Arrival) : Prop where
  poolCacheGet : a.alloc.poolCacheGet = true
  malloc : a.alloc.malloc = true
  room : s.findQueue a.f.ip.key = none → s.ipMaxfragpackets < 0 ∨ s.ipNfragpackets < s.ipMaxfragpackets

/-- The table, and the fragments of the datagram that count since the last packet was
returned for it. -/
structure Watch where
  s : Reass
  since : List Fragment

open Classical in
/-- One arrival; `counts` says which fragments of the datagram count. -/
noncomputable def Watch.next (d : Datagram) (counts : Fragment → Prop) (w : Watch) (a : Arrival) : Watch where
  s := (ipReassPacket w.s a.f a.alloc).2
  since :=
    if ∃ pkt ∈ returned w.s a, pkt.ip.key = d.key then []
    else if a.f.ip.key = d.key ∧ counts a.f then a.f :: w.since
    else w.since

/-- Arrivals from any state of the table in which the datagram has no queue yet. -/
noncomputable def arrivals (d : Datagram) (counts : Fragment → Prop) : System Watch Arrival :=
  .ofStep (fun w => reassSystem.Reachable w.s ∧ w.s.findQueue d.key = none ∧ w.since = [])
    fun w a => some (w.next d counts a)

/-! ### The queue tracks the arrivals -/

/-- The queue of the datagram holds what has arrived. -/
structure Holding (d : Datagram) (fp : Queue) (since : List Fragment) : Prop where
  key : fp.key = d.key
  tos : fp.tos = d.tos
  ipsec : fp.ipsec = d.ipsec
  laid : Laid (Piece d) fp.fragq
  holds : ∀ x, (∃ q ∈ fp.fragq, q.Holds x) ↔ ∃ f ∈ since, f.Holds x

structure Tracks (d : Datagram) (w : Watch) : Prop where
  inv : Inv w.s
  none : w.s.findQueue d.key = none → w.since = []
  some : ∀ fp, w.s.findQueue d.key = some fp → Holding d fp w.since ∧ ¬ Covers d w.since

section Arrive
variable {d : Datagram} {s : Reass} {fp : Queue} {since : List Fragment}

theorem findQueue_ipFreef (h : Inv s) (hf : s.findQueue fp.key = some fp) : (ipFreef s fp).findQueue fp.key = none := by
  obtain ⟨pre, post, hq, hput⟩ := queues_put hf
  have hq' : (ipFreef s fp).queues = pre ++ post := hput none
  cases hfree : (ipFreef s fp).findQueue fp.key with
  | none => rfl
  | some x =>
    have hx := findQueue_mem hfree
    have hkeys := h.keys
    rw [hq', mem_append] at hx
    rw [hq, map_append, map_cons, nodup_append, nodup_cons] at hkeys
    obtain ⟨-, ⟨hpost, -⟩, hpre⟩ := hkeys
    have hkey : x.key = fp.key := findQueue_key hfree
    obtain hx | hx := hx
    · exact absurd hkey (hpre x.key (mem_map_of_mem hx) fp.key (mem_cons_self ..))
    · exact absurd (hkey ▸ mem_map_of_mem hx) hpost

theorem finishQueue_exact (h : Inv s) (hf : s.findQueue fp.key = some fp) (hh : Holding d fp since) :
    (¬ Covers d since → finishQueue s fp = (none, s)) ∧
    (Covers d since → ∃ pkt, finishQueue s fp = (some pkt, ipFreef s fp) ∧ pkt.data = d.payload ∧
      pkt.ip.len = pkt.ip.hlen + d.n ∧ pkt.ip.key = d.key) := by
  have hok := h.queue fp (findQueue_mem hf)
  have hcov : Covers d since ↔ ∀ x < d.n, ∃ q ∈ fp.fragq, q.Holds x := by
    simp [Covers, hh.holds]
  rw [hcov, ← complete_iff hh.laid hok.ne]
  constructor
  · intro hnot
    have hc : complete fp.fragq = none := by
      cases hc : complete fp.fragq with
      | none => rfl
      | some r => exact absurd ⟨r.1, by rw [hc, ← (complete_spec hh.laid hc).1]⟩ hnot
    rw [finishQueue, hc]
  rintro ⟨q, hc⟩
  obtain ⟨-, hfit, hbytes⟩ := complete_spec hh.laid hc
  have hfin : finishQueue s fp = (some ⟨{q.ip with len := q.ip.hlen + d.n, src := fp.key.src, dst := fp.key.dst},
      fp.fragq.flatMap Qent.m⟩, ipFreef s fp) := by
    rw [finishQueue, hc]
    exact if_neg (by omega)
  exact ⟨_, hfin, hbytes, rfl, (finishQueue_key hok (by rw [hfin])).trans hh.key⟩

theorem newQent_stop (f : Fragment) : (newQent f).stop = f.ip.offBytes + f.data.length := by
  have := f.len_eq
  simp only [newQent, Qent.stop]
  omega

theorem newQent_holds (f : Fragment) (x : Nat) : (newQent f).Holds x ↔ f.Holds x := by
  rw [Qent.Holds, newQent_stop]
  rfl

theorem newQent_piece {f : Fragment} (h : FragmentOf d f) (hpos : 0 < f.data.length) : Piece d (newQent f) := by
  have hlen : (newQent f).len = f.data.length := by
    have := f.len_eq
    simp only [newQent]
    omega
  refine ⟨by rw [hlen]; exact h.bytes, hlen ▸ hpos, fun hm => ?_, fun hm => ?_, h.header⟩
  · rw [newQent_stop]
    exact (h.more hm).2.2
  · rw [newQent_stop]
    exact h.last hm

theorem place_dropped {fragq : List Qent} {e : Qent} (h : Laid (Piece d) fragq) (he : Piece d e) (hd : (place e fragq).dropped = true) :
    (place e fragq).fragq = fragq ∧ ∀ x, e.Holds x → ∃ q ∈ fragq, q.Holds x := by
  obtain ⟨before, after, rfl, hoff, -, ⟨htrim, heq⟩ | ⟨e', htrim, ⟨hne, hmff, -⟩ | ⟨-, heq⟩⟩⟩ := place_cases e fragq
  · refine ⟨by rw [heq], fun x hx => ?_⟩
    obtain ⟨q, hq, hcase⟩ := trimByPreceding_none htrim
    have hmem : q ∈ before := mem_of_getLast? hq
    have hqo := hoff q hmem
    have hstop : e.stop ≤ q.stop := by
      obtain ⟨-, hle⟩ | hlast := hcase
      · exact hle
      have := he.stop_le
      have := (h.each q (mem_append_left _ hmem)).last hlast
      omega
    exact ⟨q, mem_append_left _ hmem, hqo.trans hx.1, hx.2.trans_le hstop⟩
  · -- The end of the datagram has nothing behind it.
    obtain ⟨y, hy⟩ := exists_mem_of_ne_nil _ hne
    obtain ⟨-, hafter, -⟩ := laid_append.mp h
    obtain ⟨hlaid, hbehind, -⟩ := @trimFollowing_laid (Piece d) e' piece_trimmable after hafter
    have hp := hlaid.each y hy
    have h1 := (trimByPreceding_keeps piece_trimmable he htrim).last hmff
    have h2 := hbehind y hy
    have h3 := hp.pos
    have h4 := hp.stop_le
    simp only [Qent.stop] at h1 h2 h4
    omega
  · simp [heq] at hd

/-- The state of affairs after a fragment of the datagram was taken in. -/
structure Arrived (d : Datagram) (since : List Fragment) (r : Option Packet × Reass) : Prop where
  waits : ¬ Covers d since → r.1 = none ∧ ∃ fp, r.2.findQueue d.key = some fp ∧ Holding d fp since
  completes : Covers d since → r.2.findQueue d.key = none ∧ ∃ pkt, r.1 = some pkt ∧
    pkt.data = d.payload ∧ pkt.ip.len = pkt.ip.hlen + d.n ∧ pkt.ip.key = d.key

theorem finishQueue_arrived (h : Inv s) (hf : s.findQueue fp.key = some fp) (hh : Holding d fp since) : Arrived d since (finishQueue s fp) := by
  obtain ⟨hwait, hdone⟩ := finishQueue_exact h hf hh
  refine ⟨fun hc => ?_, fun hc => ?_⟩
  · rw [hwait hc]
    exact ⟨rfl, fp, hh.key ▸ hf, hh⟩
  obtain ⟨pkt, heq, hpkt⟩ := hdone hc
  rw [heq]
  exact ⟨hh.key ▸ findQueue_ipFreef h hf, pkt, rfl, hpkt⟩

theorem exists_holds_cons {f : Fragment} {x : Nat} : (∃ g ∈ f :: since, g.Holds x) ↔ (∃ g ∈ since, g.Holds x) ∨ f.Holds x := by
  rw [exists_mem_cons_iff, or_comm]

section
variable {f : Fragment} {malloc : Bool} (h : Inv s) (hf : FragmentOf d f) (hkey : f.ip.key = d.key) (hpos : 0 < f.data.length)
  (hgood : ¬ badFragment f.ip)
include h hf hkey hpos hgood

theorem ipReass_new (hnone : s.findQueue d.key = none)
    (hroom : s.ipMaxfragpackets < 0 ∨ s.ipNfragpackets < s.ipMaxfragpackets) (hm : malloc = true) :
    Arrived d [f] (ipReass s (newQent f) f.ipsecflags malloc none) := by
  have hfull : ¬ ((0 ≤ s.ipMaxfragpackets ∧ s.ipNfragpackets ≥ s.ipMaxfragpackets) ∨ malloc = false) := by
    simp only [hm, Bool.true_eq_false, or_false]
    omega
  have hins : (insertQueue (s.addNfrags 1) (newQueue (newQent f) f.ipsecflags)).findQueue
      (newQueue (newQent f) f.ipsecflags).key = some (newQueue (newQent f) f.ipsecflags) := by
    simp [insertQueue, Reass.findQueue, Reass.setList]
  have hnew : s.findQueue (newQueue (newQent f) f.ipsecflags).key = none := by
    rw [← hnone, ← hkey]
    rfl
  rw [ipReass, if_neg hfull]
  refine finishQueue_arrived (insertQueue_inv h hnew (newQueue_ok (newQent_ok hgood) _)) hins ?_
  refine ⟨hkey, hf.tos, hf.ipsec, ⟨?_, ?_⟩, fun x => ?_⟩
  · simpa [newQueue] using newQent_piece hf hpos
  · simp [newQueue]
  · simp [newQueue, newQent_holds]

theorem ipReass_more (hfp : s.findQueue d.key = some fp) (hh : Holding d fp since) (hc : ¬ Covers d since) :
    Arrived d (f :: since) (ipReass s (newQent f) f.ipsecflags malloc (some fp)) := by
  have hpiece := newQent_piece hf hpos
  have hown : s.findQueue fp.key = some fp := hh.key ▸ hfp
  have hsame : (newQent f).ip.key = fp.key := hkey.trans hh.key.symm
  have hlaid := place_laid piece_trimmable hh.laid hpiece
  have hput (s' : Reass) (hs : s'.ipFrags = s.ipFrags) :
      (s'.put fp.key (some (placedQueue fp (place (newQent f) fp.fragq)))).findQueue fp.key = some (placedQueue fp (place (newQent f) fp.fragq)) :=
    findQueue_put ((findQueue_congr hs _).trans hown) rfl
  simp only [ipReass]
  split
  · next hd =>
    obtain ⟨hfragq, hheld⟩ := place_dropped hh.laid hpiece hd
    have hholds (x : Nat) : (∃ q ∈ (place (newQent f) fp.fragq).fragq, q.Holds x) ↔ ∃ g ∈ f :: since, g.Holds x := by
      rw [hfragq, exists_holds_cons, ← hh.holds, ← newQent_holds]
      exact ⟨.inl, fun hx => hx.elim id (hheld x)⟩
    have hnot : ¬ Covers d (f :: since) := fun hcov => hc fun x hx => by
      rw [← hh.holds, ← hfragq]
      exact (hholds x).mpr (hcov x hx)
    refine ⟨fun _ => ⟨rfl, placedQueue fp (place (newQent f) fp.fragq), ?_, hh.key, hh.tos, hh.ipsec, hlaid, hholds⟩,
      fun hcov => absurd hcov hnot⟩
    rw [← hh.key]
    exact hput _ rfl
  · next hd =>
    refine finishQueue_arrived (placed_inv h hown (newQent_ok hgood) hsame rfl ?_ rfl) (hput _ rfl)
      ⟨hh.key, hh.tos, hh.ipsec, hlaid, fun x => ?_⟩
    · simp only [Reass.addNfrags, Reass.put, Reass.setList, if_neg hd]
      omega
    · rw [exists_holds_cons, ← hh.holds, ← newQent_holds]
      exact place_holds hh.laid.order (by simpa using hd) x

end

theorem ipReassPacket_arrived {w : Watch} {a : Arrival} (h : Tracks d w) (hf : FragmentOf d a.f)
    (hkey : a.f.ip.key = d.key) (hpos : 0 < a.f.data.length) (hgood : ¬ badFragment a.f.ip) (hl : NoLimit w.s a) :
    ∃ r, ipReassPacket w.s a.f a.alloc = (.ok r.1, r.2) ∧ Arrived d (a.f :: w.since) r := by
  have hmatch : ¬ ∃ fp ∈ w.s.findQueue a.f.ip.key, fp.ipsec ≠ a.f.ipsecflags ∨ fp.tos ≠ a.f.ip.tos := by
    rintro ⟨fp, hfp, hne⟩
    obtain ⟨hh, -⟩ := h.some fp (hkey ▸ hfp)
    rw [hh.ipsec, hh.tos, hf.ipsec, hf.tos] at hne
    simp at hne
  refine ⟨ipReass w.s (newQent a.f) a.f.ipsecflags a.alloc.malloc (w.s.findQueue a.f.ip.key), ?_, ?_⟩
  · rw [ipReassPacket, if_neg hgood, if_neg hmatch, if_neg (by simp [hl.poolCacheGet])]
  have hroom := hl.room
  rw [hkey] at hroom ⊢
  cases hfp : w.s.findQueue d.key with
  | none =>
    rw [h.none hfp]
    exact ipReass_new h.inv hf hkey hpos hgood hfp (hroom hfp) hl.malloc
  | some fp =>
    obtain ⟨hh, hc⟩ := h.some fp hfp
    exact ipReass_more h.inv hf hkey hpos hgood hfp hh hc

end Arrive

/-! ### Every run -/

/-- What the arrivals of a run promise: those of the datagram are fragments of it with
some data, and meet no limit. -/
def Undisturbed (d : Datagram) (w : Watch) (a : Arrival) : Prop :=
  a.f.ip.key = d.key → FragmentOf d a.f ∧ 0 < a.f.data.length ∧ NoLimit w.s a

/-- The fragments that pass the tests of `ip_reass_packet`. -/
def Accepted (f : Fragment) : Prop := ¬ badFragment f.ip

section Runs
variable {d : Datagram} {w : Watch} {a : Arrival}

theorem since_counted {counts : Fragment → Prop} (hr : ¬ ∃ pkt ∈ returned w.s a, pkt.ip.key = d.key)
    (hkey : a.f.ip.key = d.key) (hc : counts a.f) : (w.next d counts a).since = a.f :: w.since := by
  rw [Watch.next]
  simp only [if_neg hr]
  exact if_pos ⟨hkey, hc⟩

theorem returned_refused (h : badFragment a.f.ip) : ipReassPacket w.s a.f a.alloc = (.error .einval, w.s) ∧ returned w.s a = none := by
  have heq : ipReassPacket w.s a.f a.alloc = (.error .einval, w.s) := by rw [ipReassPacket, if_pos h]
  exact ⟨heq, by rw [returned, heq]⟩

theorem returned_key (h : Inv w.s) {pkt : Packet} (hr : returned w.s a = some pkt) : pkt.ip.key = a.f.ip.key := by
  unfold returned at hr
  split at hr
  · next m hm =>
    subst hr
    unfold ipReassPacket at hm
    split_ifs at hm with hbad hmismatch hmem
    have hr := Except.ok.inj hm
    cases hf : w.s.findQueue a.f.ip.key with
    | none =>
      simp only [hf, ipReass] at hr
      split_ifs at hr
      exact finishQueue_key (newQueue_ok (newQent_ok hbad) _) hr
    | some fp =>
      have hkey := findQueue_key hf
      have hown : w.s.findQueue fp.key = some fp := hkey.symm ▸ hf
      simp only [hf, ipReass] at hr
      split_ifs at hr
      have hok := (h.queue fp (findQueue_mem hown)).place (newQent_ok hbad) hkey.symm
      exact (finishQueue_key hok hr).trans hkey
  · simp at hr

theorem returned_exact (h : Tracks d w) (hu : Undisturbed d w a) :
    (∀ pkt ∈ returned w.s a, pkt.ip.key = d.key → pkt.data = d.payload ∧ pkt.ip.len = pkt.ip.hlen + d.n) ∧
    ((∃ pkt ∈ returned w.s a, pkt.ip.key = d.key) ↔ a.f.ip.key = d.key ∧ Accepted a.f ∧ Covers d (a.f :: w.since)) := by
  by_cases hkey : a.f.ip.key = d.key
  · obtain ⟨hf, hpos, hl⟩ := hu hkey
    by_cases hbad : badFragment a.f.ip
    · rw [(returned_refused hbad).2]
      simp [Accepted, hbad]
    obtain ⟨r, heq, hr⟩ := ipReassPacket_arrived h hf hkey hpos hbad hl
    have hret : returned w.s a = r.1 := by rw [returned, heq]
    rw [hret]
    by_cases hc : Covers d (a.f :: w.since)
    · obtain ⟨-, pkt, hpkt, hdata, hlen, hk⟩ := hr.completes hc
      rw [hpkt]
      refine ⟨fun p hp _ => ?_, fun _ => ⟨hkey, hbad, hc⟩, fun _ => ⟨pkt, rfl, hk⟩⟩
      obtain rfl : pkt = p := some.inj hp
      exact ⟨hdata, hlen⟩
    · rw [(hr.waits hc).1]
      simp [hc]
  · have hother : ¬ ∃ pkt ∈ returned w.s a, pkt.ip.key = d.key := by
      rintro ⟨pkt, hpkt, hk⟩
      exact hkey ((returned_key h.inv hpkt).symm.trans hk)
    exact ⟨fun pkt hpkt hk => absurd ⟨pkt, hpkt, hk⟩ hother, iff_of_false hother fun hx => hkey hx.1⟩

theorem Tracks.next (h : Tracks d w) (hu : Undisturbed d w a) : Tracks d (w.next d Accepted a) := by
  have hinv := ipReassPacket_inv h.inv a.f a.alloc
  have hret := (returned_exact h hu).2
  by_cases hkey : a.f.ip.key = d.key
  · obtain ⟨hf, hpos, hl⟩ := hu hkey
    by_cases hbad : badFragment a.f.ip
    · -- Refused: nothing changes.
      have hnone : ¬ ∃ pkt ∈ returned w.s a, pkt.ip.key = d.key := by simp [(returned_refused hbad).2]
      have hnext : w.next d Accepted a = w := by
        simp only [Watch.next, if_neg hnone, (returned_refused hbad).1, Accepted, hbad, not_true, and_false, if_false]
      rw [hnext]
      exact h
    obtain ⟨r, heq, hr⟩ := ipReassPacket_arrived h hf hkey hpos hbad hl
    rw [heq] at hinv
    have hs : (w.next d Accepted a).s = r.2 := by rw [Watch.next, heq]
    by_cases hc : Covers d (a.f :: w.since)
    · have hsince : (w.next d Accepted a).since = [] := if_pos (hret.mpr ⟨hkey, hbad, hc⟩)
      refine ⟨hs ▸ hinv, fun _ => hsince, fun fp hfp => ?_⟩
      rw [hs, (hr.completes hc).1] at hfp
      simp at hfp
    have hsince : (w.next d Accepted a).since = a.f :: w.since :=
      since_counted (fun hx => hc (hret.mp hx).2.2) hkey hbad
    obtain ⟨-, fp', hfp', hh⟩ := hr.waits hc
    refine ⟨hs ▸ hinv, fun hnone => ?_, fun fp hfp => ?_⟩
    · rw [hs, hfp'] at hnone
      simp at hnone
    rw [hs, hfp'] at hfp
    obtain rfl := some.inj hfp
    rw [hsince]
    exact ⟨hh, hc⟩
  · have hfind := findQueue_ipReassPacket_ne w.s a.f a.alloc (Ne.symm hkey)
    have hsince : (w.next d Accepted a).since = w.since := by
      rw [Watch.next]
      simp only [if_neg fun hx => hkey (hret.mp hx).1, hkey, false_and, if_false]
    refine ⟨hinv, fun hnone => ?_, fun fp hfp => ?_⟩
    · rw [hsince]
      exact h.none (hfind ▸ hnone)
    · rw [hsince]
      exact h.some fp (hfind ▸ hfp)

theorem arrivals_tracks (h : (arrivals d Accepted).Reach (Undisturbed d) w) : Tracks d w := by
  refine h.invariant ?_ ?_
  · rintro w ⟨hreach, hnone, hsince⟩
    exact ⟨reachable_inv hreach, fun _ => hsince, fun fp hfp => by simp [hnone] at hfp⟩
  rintro w a w' hw hu hstep
  obtain rfl := some.inj hstep
  exact hw.next hu

end Runs

/-- Whatever else arrives, an arrival completes the datagram exactly when the fragments
of it that were accepted since the last packet cover its payload with it, and then its
payload is returned under a header of the right length. -/
theorem reassembly_exact (d : Datagram) {w : Watch} {a : Arrival} (h : (arrivals d Accepted).Reach (Undisturbed d) w) (ha : Undisturbed d w a) :
    (∀ pkt ∈ returned w.s a, pkt.ip.key = d.key → pkt.data = d.payload ∧ pkt.ip.len = pkt.ip.hlen + d.n) ∧
    ((∃ pkt ∈ returned w.s a, pkt.ip.key = d.key) ↔ a.f.ip.key = d.key ∧ Accepted a.f ∧ Covers d (a.f :: w.since)) :=
  returned_exact (arrivals_tracks h) ha

/-! A datagram of 72 bytes in two fragments. -/

def sampleKey : Key := ⟨0x0a000001, 0x0a000002, 17, 7⟩

def sampleIp (len : Nat) (mf : Bool) (off : BitVec 13) : Ip :=
  ⟨5, 0, len, 7, mf, off, 17, 0x0a000001, 0x0a000002⟩

def sampleDatagram (n : Nat) : Datagram := ⟨sampleKey, 0, 0, replicate n 0⟩

def sampleHead : Arrival := ⟨⟨⟨sampleIp 84 true 0, replicate 64 0⟩, 0, by decide, by decide⟩, ⟨true, true⟩⟩
def sampleTail : Arrival := ⟨⟨⟨sampleIp 28 false 8, replicate 8 0⟩, 0, by decide, by decide⟩, ⟨true, true⟩⟩

/-- The state after the first of two arrivals. -/
noncomputable def sampleWatch (d : Datagram) (counts : Fragment → Prop) (a : Arrival) : Watch :=
  Watch.next d counts ⟨ipReassInit 1024, []⟩ a

theorem sampleWatch_reach {d : Datagram} {counts : Fragment → Prop} {a : Arrival} {ok : Watch → Arrival → Prop}
    (ha : ok ⟨ipReassInit 1024, []⟩ a) : (arrivals d counts).Reach ok (sampleWatch d counts a) :=
  .step (.init ⟨.init ⟨1024, rfl⟩, rfl, rfl⟩) ha rfl

theorem noLimit_of_room {s : Reass} {f : Fragment} (h : s.ipNfragpackets < s.ipMaxfragpackets) : NoLimit s ⟨f, true, true⟩ :=
  ⟨rfl, rfl, fun _ => .inr h⟩

theorem reassembly_exact_sample : (arrivals (sampleDatagram 72) Accepted).Reach (Undisturbed (sampleDatagram 72))
      (sampleWatch (sampleDatagram 72) Accepted sampleHead) ∧
    ∃ pkt ∈ returned (sampleWatch (sampleDatagram 72) Accepted sampleHead).s sampleTail,
      pkt.ip.key = sampleKey ∧ pkt.data = replicate 72 0 ∧ pkt.ip.len = pkt.ip.hlen + 72 := by
  have hhead : FragmentOf (sampleDatagram 72) sampleHead.f :=
    ⟨rfl, rfl, by decide, by decide, by decide, by decide⟩
  have htail : FragmentOf (sampleDatagram 72) sampleTail.f :=
    ⟨rfl, rfl, by decide, by decide, by decide, by decide⟩
  have hreach := @sampleWatch_reach (sampleDatagram 72) Accepted sampleHead (Undisturbed (sampleDatagram 72))
    fun _ => ⟨hhead, by decide, noLimit_of_room (by decide)⟩
  have hnone : returned (ipReassInit 1024) sampleHead = none := by decide
  have hsince : (sampleWatch (sampleDatagram 72) Accepted sampleHead).since = [sampleHead.f] :=
    since_counted (by simp [hnone]) rfl (by unfold Accepted; decide)
  have hroom : (ipReassPacket (ipReassInit 1024) sampleHead.f sampleHead.alloc).2.ipNfragpackets <
      (ipReassPacket (ipReassInit 1024) sampleHead.f sampleHead.alloc).2.ipMaxfragpackets := by decide
  have hexact := reassembly_exact (sampleDatagram 72) (a := sampleTail) hreach
    fun _ => ⟨htail, by decide, noLimit_of_room hroom⟩
  obtain ⟨pkt, hpkt, hkey⟩ := hexact.2.mpr ⟨rfl, by unfold Accepted; decide, fun x hx => by
    rw [hsince]
    simp only [sampleDatagram, Datagram.n, length_replicate] at hx
    by_cases h64 : x < 64
    · exact ⟨sampleHead.f, by simp, by constructor <;> simp [sampleHead, sampleIp, Ip.offBytes, h64]⟩
    · exact ⟨sampleTail.f, by simp, by unfold Fragment.Holds; simp [sampleTail, sampleIp, Ip.offBytes]; omega⟩⟩
  obtain ⟨hdata, hlen⟩ := hexact.1 pkt hpkt hkey
  exact ⟨hreach, pkt, hpkt, hkey, hdata, hlen⟩

/-! With every fragment of a datagram counted the same fails: fragments below the
minimal fragment size are refused. Here 16 bytes come in two fragments of 8. -/

def tinyHead : Arrival := ⟨⟨⟨sampleIp 28 true 0, replicate 8 0⟩, 0, by decide, by decide⟩, ⟨true, true⟩⟩
def tinyTail : Arrival := ⟨⟨⟨sampleIp 28 false 1, replicate 8 0⟩, 0, by decide, by decide⟩, ⟨true, true⟩⟩

theorem reassembly_refuses_tiny : ¬ ∀ (d : Datagram) (w : Watch) (a : Arrival),
      (arrivals d fun _ => True).Reach (fun w a => a.f.ip.key = d.key → FragmentOf d a.f ∧ NoLimit w.s a) w →
      (a.f.ip.key = d.key → FragmentOf d a.f ∧ NoLimit w.s a) →
      ((∃ pkt ∈ returned w.s a, pkt.ip.key = d.key) ↔ a.f.ip.key = d.key ∧ Covers d (a.f :: w.since)) := by
  intro h
  have hhead : FragmentOf (sampleDatagram 16) tinyHead.f :=
    ⟨rfl, rfl, by decide, by decide, by decide, by decide⟩
  have htail : FragmentOf (sampleDatagram 16) tinyTail.f :=
    ⟨rfl, rfl, by decide, by decide, by decide, by decide⟩
  have hrefused := @returned_refused ⟨ipReassInit 1024, []⟩ tinyHead (by decide)
  have hsince : (sampleWatch (sampleDatagram 16) (fun _ => True) tinyHead).since = [tinyHead.f] :=
    since_counted (by simp [hrefused.2]) rfl trivial
  have hiff := h (sampleDatagram 16) (sampleWatch (sampleDatagram 16) (fun _ => True) tinyHead) tinyTail
    (sampleWatch_reach fun _ => ⟨hhead, noLimit_of_room (by decide)⟩)
    (fun _ => ⟨htail, noLimit_of_room (by decide)⟩)
  obtain ⟨pkt, hpkt, -⟩ := hiff.mpr ⟨rfl, fun x hx => by
    rw [hsince]
    simp only [sampleDatagram, Datagram.n, length_replicate] at hx
    by_cases h8 : x < 8
    · exact ⟨tinyHead.f, by simp, by constructor <;> simp [tinyHead, sampleIp, Ip.offBytes, h8]⟩
    · exact ⟨tinyTail.f, by simp, by unfold Fragment.Holds; simp [tinyTail, sampleIp, Ip.offBytes]; omega⟩⟩
  have hnone := (@returned_refused (sampleWatch (sampleDatagram 16) (fun _ => True) tinyHead) tinyTail (by decide)).2
  simp [hnone] at hpkt

end NetBSD.Netinet.IpReass
