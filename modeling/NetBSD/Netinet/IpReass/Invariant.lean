import Mathlib.Data.BitVec
import NetBSD.Netinet.IpReass.Queue

/-! The reassembly table stays sound whatever arrives.

The invariant `Inv` speaks of the table as the list of all its queues in scan order,
and of the hash only to say that a queue stands in the list of its key. The operations
on the table replace, remove or add one queue in that list (`queues_put`,
`queues_setList`); each has one lemma that carries the invariant across. -/
namespace NetBSD.Netinet.IpReass
open List Function
open Lib

/-! ### The table as a list -/

theorem queues_setList (s : Reass) (i : Fin ipreassHashSize) : ∃ pre post,
    s.queues = pre ++ s.ipFrags i ++ post ∧ ∀ fps, (s.setList i fps).queues = pre ++ fps ++ post := by
  obtain ⟨l, r, hsplit⟩ := append_of_mem (mem_finRange i)
  have hnodup := nodup_finRange ipreassHashSize
  rw [hsplit, nodup_append, nodup_cons] at hnodup
  obtain ⟨-, ⟨hr, -⟩, hl⟩ := hnodup
  have hsame (fps : List Queue) (is : List (Fin ipreassHashSize)) (h : i ∉ is) :
      is.flatMap (update s.ipFrags i fps) = is.flatMap s.ipFrags := by
    refine flatMap_congr fun j hj => ?_
    rw [update_of_ne]
    rintro rfl
    exact h hj
  refine ⟨l.flatMap s.ipFrags, r.flatMap s.ipFrags, ?_, fun fps => ?_⟩
  · rw [Reass.queues, hsplit, flatMap_append, flatMap_cons, append_assoc]
  · have hil : i ∉ l := fun hi => hl i hi i (mem_cons_self ..) rfl
    simp [Reass.queues, hsplit, flatMap_append, flatMap_cons, Reass.setList, hsame fps l hil, hsame fps r hr, update_self, append_assoc]

theorem putQueue_split {key : Key} {fp : Queue} {fps : List Queue} (h : fps.find? (fun fp => fp.key = key) = some fp) :
    ∃ a b, fps = a ++ fp :: b ∧ (∀ x ∈ a, x.key ≠ key) ∧ ∀ new, putQueue key new fps = a ++ (new.toList ++ b) := by
  induction fps with
  | nil => simp at h
  | cons x rest ih =>
    by_cases hx : x.key = key
    · obtain rfl : x = fp := by simpa [hx] using h
      exact ⟨[], rest, rfl, by simp, fun new => by simp [putQueue, hx]⟩
    · obtain ⟨a, b, rfl, ha, hput⟩ := ih (by simpa [hx] using h)
      exact ⟨x :: a, b, rfl, forall_mem_cons.mpr ⟨hx, ha⟩, fun new => by simp [putQueue, hx, hput]⟩

theorem queues_put {s : Reass} {key : Key} {fp : Queue} (h : s.findQueue key = some fp) : ∃ pre post,
    s.queues = pre ++ fp :: post ∧ ∀ new, (s.put key new).queues = pre ++ (new.toList ++ post) := by
  obtain ⟨a, b, hsplit, -, hput⟩ := putQueue_split h
  obtain ⟨pre, post, hq, hset⟩ := queues_setList s (ipreassHash key)
  refine ⟨pre ++ a, b ++ post, ?_, fun new => ?_⟩
  · rw [hq, hsplit]
    simp
  · rw [Reass.put, hset, hput]
    simp

theorem findQueue_key {s : Reass} {key : Key} {fp : Queue} (h : s.findQueue key = some fp) : fp.key = key := by
  simpa using find?_some h

theorem findQueue_put {s : Reass} {key : Key} {fp fp' : Queue} (h : s.findQueue key = some fp)
    (hkey : fp'.key = key) : (s.put key (some fp')).findQueue key = some fp' := by
  obtain ⟨a, b, -, ha, hput⟩ := putQueue_split h
  have hnone : a.find? (fun fp => decide (fp.key = key)) = none :=
    find?_eq_none.mpr fun x hx => by simpa using ha x hx
  simp [Reass.findQueue, Reass.put, Reass.setList, hput, find?_append, hnone, hkey]

theorem queues_congr {s s' : Reass} (h : s'.ipFrags = s.ipFrags) : s'.queues = s.queues := by
  rw [Reass.queues, Reass.queues, h]

theorem findQueue_congr {s s' : Reass} (h : s'.ipFrags = s.ipFrags) (key : Key) : s'.findQueue key = s.findQueue key := by
  rw [Reass.findQueue, Reass.findQueue, h]

theorem nfragsOf_append (a b : List Queue) : nfragsOf (a ++ b) = nfragsOf a + nfragsOf b := by
  simp [nfragsOf]

theorem nfragsOf_cons (fp : Queue) (fps : List Queue) : nfragsOf (fp :: fps) = fp.nfrags.toNat + nfragsOf fps := by
  simp [nfragsOf]

theorem nfragsOf_filter (p : Queue → Bool) (fps : List Queue) : nfragsOf fps = nfragsOf (fps.filter p) + nfragsOf (fps.filter fun fp => !p fp) := by
  induction fps with
  | nil => rfl
  | cons fp rest ih => cases h : p fp <;> simp only [filter_cons, h, nfragsOf_cons, Bool.not_true,
      Bool.not_false, if_true, if_false, Bool.false_eq_true] <;> omega

/-- An entry as `ip_reass_packet` makes it and `m_adj` keeps it. -/
structure EntryOk (q : Qent) : Prop where
  bytes : q.m.length = q.len
  fits : q.stop ≤ ipMaxpacket
  more : q.mff = true → 0 < q.len ∧ q.stop % 8 = 0

structure QueueOk (fp : Queue) : Prop where
  ne : fp.fragq ≠ []
  laid : Laid EntryOk fp.fragq
  keyed : ∀ q ∈ fp.fragq, q.ip.key = fp.key
  count : fp.nfrags = BitVec.ofNat 16 fp.fragq.length
  alive : 0 < fp.ttl
  ttl_le : fp.ttl ≤ ipfragttl

structure Inv (s : Reass) : Prop where
  queue : ∀ fp ∈ s.queues, QueueOk fp
  hash : ∀ i, ∀ fp ∈ s.ipFrags i, ipreassHash fp.key = i
  keys : (s.queues.map Queue.key).Nodup
  nfrags : s.ipNfrags = nfragsOf s.queues
  packets : s.ipNfragpackets = s.queues.length

theorem entryOk_trimmable : Trimmable EntryOk := by
  rintro q i ⟨hb, hf, hm⟩ hi
  refine ⟨?_, (adj_stop hi).trans_le hf, fun hmff => ?_⟩
  · simp [Qent.adj, length_drop, hb]
  · rw [adj_stop hi]
    exact ⟨Nat.sub_pos_of_lt hi, (hm hmff).2⟩

/-- The ends of the entries are distinct multiples of eight, the last one apart, so a
queue has no more than 8192 of them and its counter does not wrap. -/
theorem length_of_laid {fragq : List Qent} (h : Laid EntryOk fragq) {lo : Nat} (hlo : lo % 8 = 0)
    (hoff : ∀ q ∈ fragq, lo ≤ q.off) (hne : fragq ≠ []) : lo + 8 * (fragq.length - 1) ≤ ipMaxpacket := by
  induction fragq generalizing lo with
  | nil => exact absurd rfl hne
  | cons q rest ih =>
    obtain ⟨hq, hrest, hnext⟩ := laid_cons.mp h
    have hqo := hoff q (mem_cons_self ..)
    have hfits := hq.fits
    cases rest with
    | nil =>
      simp only [Qent.stop] at hfits
      simp only [length_singleton]
      omega
    | cons r rest =>
      obtain ⟨hpos, hmod⟩ := hq.more (hnext r (mem_cons_self ..)).1
      have := ih hrest hmod (fun y hy => (hnext y hy).2) (cons_ne_nil _ _)
      simp only [length_cons, Qent.stop] at this hmod ⊢
      omega

theorem QueueOk.toNat_nfrags {fp : Queue} (h : QueueOk fp) : fp.nfrags.toNat = fp.fragq.length := by
  have hlen := length_of_laid h.laid (Nat.zero_mod 8) (fun _ _ => Nat.zero_le _) h.ne
  rw [h.count, BitVec.toNat_ofNat]
  simp only [ipMaxpacket] at hlen
  omega

theorem QueueOk.place {fp : Queue} (h : QueueOk fp) {ipqe : Qent} (he : EntryOk ipqe) (hkey : ipqe.ip.key = fp.key) :
    QueueOk (placedQueue fp (place ipqe fp.fragq)) := by
  have hlen := place_length ipqe fp.fragq
  have hkeyed : Laid (fun q => q.ip.key = fp.key) (IpReass.place ipqe fp.fragq).fragq :=
    place_laid (fun q i hq _ => hq) ⟨h.keyed, h.laid.order⟩ hkey
  refine ⟨place_ne_nil h.ne ipqe, place_laid entryOk_trimmable h.laid he, hkeyed.each, ?_, h.alive, h.ttl_le⟩
  simp only [placedQueue, h.count]
  generalize IpReass.place ipqe fp.fragq = spot at *
  have hd : (if spot.dropped then 1 else 0 : BitVec 16) = BitVec.ofNat 16 (if spot.dropped then 1 else 0) := by
    split <;> rfl
  have hone : BitVec.ofNat 16 fp.fragq.length + 1 = BitVec.ofNat 16 (fp.fragq.length + 1) :=
    (BitVec.ofNat_add ..).symm
  rw [hd, hone, ← hlen, BitVec.ofNat_add, BitVec.ofNat_add, add_right_comm, add_sub_cancel_right, add_sub_cancel_right]

/-! ### One queue replaced, removed, added -/

section Table
variable {s s' : Reass} {fp fp' : Queue}

theorem findQueue_mem {key : Key} (h : s.findQueue key = some fp) : fp ∈ s.queues := by
  obtain ⟨pre, post, hq, -⟩ := queues_put h
  simp [hq]

section
variable (h : Inv s)
include h

theorem Inv.findQueue_none {key : Key} (hf : s.findQueue key = none) : ∀ fp ∈ s.queues, fp.key ≠ key := by
  rintro fp hfp rfl
  obtain ⟨i, -, hi⟩ := mem_flatMap.mp hfp
  have hhash := h.hash i fp hi
  rw [Reass.findQueue, hhash] at hf
  simpa using find?_eq_none.mp hf fp hi

theorem Inv.congr (hfrags : s'.ipFrags = s.ipFrags) (hn : s'.ipNfrags = s.ipNfrags) (hp : s'.ipNfragpackets = s.ipNfragpackets) : Inv s' := by
  have hq := queues_congr hfrags
  exact ⟨hq ▸ h.queue, hfrags ▸ h.hash, hq ▸ h.keys, by rw [hn, hq, h.nfrags], by rw [hp, hq, h.packets]⟩

theorem hash_setList {i : Fin ipreassHashSize} {fps : List Queue} (hfps : ∀ fp ∈ fps, ipreassHash fp.key = i) (j : Fin ipreassHashSize) :
    ∀ fp ∈ (s.setList i fps).ipFrags j, ipreassHash fp.key = j := by
  intro fp hfp
  by_cases hj : j = i
  · subst hj
    simp only [Reass.setList, update_self] at hfp
    exact hfps fp hfp
  · simp only [Reass.setList, update_of_ne hj] at hfp
    exact h.hash j fp hfp

theorem hash_put {key : Key} (hf : s.findQueue key = some fp) {new : Option Queue} (hnew : ∀ fp ∈ new, fp.key = key) (j : Fin ipreassHashSize) :
    ∀ fp ∈ (s.put key new).ipFrags j, ipreassHash fp.key = j := by
  refine hash_setList h (fun x hx => ?_) j
  obtain ⟨a, b, hsplit, -, hput⟩ := putQueue_split hf
  have hold := h.hash (ipreassHash key)
  rw [hsplit] at hold
  rw [hput] at hx
  obtain hx | hx := mem_append.mp hx
  · exact hold x (mem_append_left _ hx)
  obtain hx | hx := mem_append.mp hx
  · rw [hnew x (by simpa using hx)]
  · exact hold x (mem_append_right _ (mem_cons_of_mem _ hx))

theorem Inv.replace (hf : s.findQueue fp.key = some fp) (hkey : fp'.key = fp.key) (hok : QueueOk fp')
    (hfrags : s'.ipFrags = (s.put fp.key (some fp')).ipFrags)
    (hn : s'.ipNfrags = s.ipNfrags - fp.nfrags.toNat + fp'.nfrags.toNat)
    (hp : s'.ipNfragpackets = s.ipNfragpackets) : Inv s' := by
  obtain ⟨pre, post, hq, hput⟩ := queues_put hf
  have hq' : s'.queues = pre ++ fp' :: post := by
    rw [queues_congr hfrags, hput]
    rfl
  refine ⟨fun x hx => ?_, hfrags ▸ hash_put h hf (by simpa using hkey), ?_, ?_, ?_⟩
  · have hold := h.queue
    rw [hq] at hold
    rw [hq', mem_append, mem_cons] at hx
    obtain hx | rfl | hx := hx
    · exact hold x (mem_append_left _ hx)
    · exact hok
    · exact hold x (mem_append_right _ (mem_cons_of_mem _ hx))
  · have hkeys := h.keys
    rw [hq] at hkeys
    rw [hq']
    simpa [hkey] using hkeys
  · have hnum := h.nfrags
    rw [hq, nfragsOf_append, nfragsOf_cons] at hnum
    rw [hq', nfragsOf_append, nfragsOf_cons]
    omega
  · rw [hp, h.packets, hq, hq']
    simp

theorem ipFreef_inv (hf : s.findQueue fp.key = some fp) : Inv (ipFreef s fp) := by
  obtain ⟨pre, post, hq, hput⟩ := queues_put hf
  have hq' : (ipFreef s fp).queues = pre ++ post := hput none
  refine ⟨fun x hx => h.queue x ?_, hash_put h hf (by simp), ?_, ?_, ?_⟩
  · rw [hq] at *
    rw [hq', mem_append] at hx
    exact mem_append.mpr (hx.imp_right (mem_cons_of_mem _))
  · have hkeys := h.keys
    rw [hq] at hkeys
    rw [hq']
    exact hkeys.sublist (Sublist.map _ (Sublist.append_left (sublist_cons_self ..) _))
  · have hnum := h.nfrags
    rw [hq, nfragsOf_append, nfragsOf_cons] at hnum
    rw [hq', nfragsOf_append]
    simp only [ipFreef, hnum]
    omega
  · rw [hq']
    simp only [ipFreef, h.packets, hq, length_append, length_cons]
    omega

theorem insertQueue_inv (hf : s.findQueue fp.key = none) (hok : QueueOk fp) : Inv ((insertQueue s fp).addNfrags fp.nfrags.toNat) := by
  obtain ⟨pre, post, hq, hset⟩ := queues_setList s (ipreassHash fp.key)
  have hq' : ((insertQueue s fp).addNfrags fp.nfrags.toNat).queues = pre ++ fp :: s.ipFrags (ipreassHash fp.key) ++ post := hset _
  have hperm : ((insertQueue s fp).addNfrags fp.nfrags.toNat).queues.Perm (fp :: s.queues) := by
    rw [hq', hq, append_assoc, append_assoc]
    exact perm_middle
  refine ⟨fun x hx => ?_, ?_, ?_, ?_, ?_⟩
  · obtain rfl | hx := mem_cons.mp (hperm.mem_iff.mp hx)
    · exact hok
    · exact h.queue x hx
  · refine hash_setList h fun x hx => ?_
    obtain rfl | hx := mem_cons.mp hx
    · rfl
    · exact h.hash _ x hx
  · refine ((hperm.map Queue.key).nodup_iff).mpr (nodup_cons.mpr ⟨?_, h.keys⟩)
    intro hmem
    obtain ⟨x, hx, hkey⟩ := mem_map.mp hmem
    exact h.findQueue_none hf x hx hkey
  · simp only [hq', nfragsOf_append, nfragsOf_cons]
    simp only [insertQueue, Reass.addNfrags, Reass.setList, h.nfrags, hq, nfragsOf_append]
    omega
  · rw [hperm.length_eq]
    simp only [insertQueue, Reass.addNfrags, Reass.setList, h.packets, length_cons]
    rfl

end

end Table

/-! ### Packets -/

theorem finishQueue_inv {s : Reass} {fp : Queue} (h : Inv s) (hf : s.findQueue fp.key = some fp) : Inv (finishQueue s fp).2 := by
  unfold finishQueue
  split
  · exact h
  · split <;> exact ipFreef_inv h hf

theorem newQueue_ok {ipqe : Qent} (he : EntryOk ipqe) (ipsecflags : BitVec 2) : QueueOk (newQueue ipqe ipsecflags) :=
  ⟨by simp [newQueue], ⟨by simpa [newQueue] using he, by simp [newQueue]⟩, by simp [newQueue], rfl, by simp [newQueue, ipfragttl], le_rfl⟩

theorem placed_inv {s s' : Reass} {fp : Queue} {ipqe : Qent} (h : Inv s) (hf : s.findQueue fp.key = some fp)
    (he : EntryOk ipqe) (hkey : ipqe.ip.key = fp.key)
    (hfrags : s'.ipFrags = (s.put fp.key (some (placedQueue fp (place ipqe fp.fragq)))).ipFrags)
    (hn : s'.ipNfrags = s.ipNfrags + 1 - (place ipqe fp.fragq).removed -
      (if (place ipqe fp.fragq).dropped then 1 else 0 : Nat))
    (hp : s'.ipNfragpackets = s.ipNfragpackets) : Inv s' := by
  have hok := h.queue fp (findQueue_mem hf)
  have hok' := hok.place he hkey
  have hlen := place_length ipqe fp.fragq
  have hsame : (placedQueue fp (place ipqe fp.fragq)).key = fp.key := rfl
  refine h.replace hf hsame hok' hfrags ?_ hp
  rw [hok.toNat_nfrags, hok'.toNat_nfrags]
  simp only [placedQueue]
  omega

theorem ipReass_inv {s : Reass} {ipqe : Qent} (h : Inv s) (he : EntryOk ipqe) (ipsecflags : BitVec 2)
    (malloc : Bool) : Inv (ipReass s ipqe ipsecflags malloc (s.findQueue ipqe.ip.key)).2 := by
  cases hf : s.findQueue ipqe.ip.key with
  | none =>
    simp only [ipReass]
    split
    · exact h.congr rfl (by simp [Reass.addNfrags]) rfl
    · refine finishQueue_inv (insertQueue_inv h hf (newQueue_ok he ipsecflags)) ?_
      simp [insertQueue, Reass.findQueue, Reass.setList, newQueue]
  | some fp =>
    have hkey := (findQueue_key hf).symm
    rw [hkey] at hf
    simp only [ipReass]
    split
    · next hd =>
      refine placed_inv h hf he hkey rfl ?_ rfl
      simp only [Reass.addNfrags, Reass.put, Reass.setList, hd, if_true]
      omega
    · next hd =>
      refine finishQueue_inv (placed_inv h hf he hkey rfl ?_ rfl) ?_
      · simp only [Reass.addNfrags, Reass.put, Reass.setList, if_neg hd]
        omega
      · have hfind : Reass.findQueue _ _ = some fp := hf
        exact findQueue_put hfind rfl

theorem newQent_ok {f : Fragment} (h : ¬ badFragment f.ip) : EntryOk (newQent f) := by
  obtain ⟨-, hmax, hmore⟩ := not_or.mp h |>.imp_right not_or.mp
  have hlen := f.len_eq
  refine ⟨?_, ?_, fun hmff => ?_⟩
  · simp only [newQent]
    omega
  · simp only [newQent, Qent.stop]
    omega
  have hmf : f.ip.mf = true := hmff
  simp only [hmf, true_and, not_or, not_not] at hmore
  simp only [newQent, Qent.stop, Ip.offBytes]
  omega

theorem ipReassPacket_inv {s : Reass} (h : Inv s) (f : Fragment) (alloc : Alloc) : Inv (ipReassPacket s f alloc).2 := by
  unfold ipReassPacket
  split_ifs with hbad hmismatch hmem
  · exact h
  · exact h
  · exact h
  · exact ipReass_inv h (newQent_ok hbad) ..

theorem finishQueue_len {s : Reass} {fp : Queue} {pkt : Packet} (h : (finishQueue s fp).1 = some pkt) : pkt.ip.len ≤ ipMaxpacket := by
  unfold finishQueue at h
  split at h
  · simp at h
  split at h
  · simp at h
  obtain rfl := Option.some.inj h
  simp only
  omega

theorem ipReassPacket_len {s : Reass} {f : Fragment} {alloc : Alloc} {pkt : Packet}
    (h : (ipReassPacket s f alloc).1 = .ok (some pkt)) : pkt.ip.len ≤ ipMaxpacket := by
  unfold ipReassPacket at h
  split_ifs at h with hbad hmismatch hmem
  have hr := Except.ok.inj h
  cases hf : s.findQueue f.ip.key with
  | none =>
    simp only [hf, ipReass] at hr
    split_ifs at hr
    exact finishQueue_len hr
  | some fp =>
    simp only [hf, ipReass] at hr
    split_ifs at hr
    exact finishQueue_len hr

/-! ### Ageing -/

theorem queues_age (ticks : Nat) (s : Reass) : (ageQueues ticks s).queues = (s.queues.map (Queue.age ticks)).filter fun fp => fp.ttl ≠ 0 := by
  rw [Reass.queues, Reass.queues, ageQueues]
  simp only [map_flatMap, filter_flatMap]

theorem nfragsOf_age (ticks : Nat) (fps : List Queue) : nfragsOf (fps.map (Queue.age ticks)) = nfragsOf fps := by
  simp only [nfragsOf, map_map]
  rfl

theorem ageQueues_inv {s : Reass} (h : Inv s) (ticks : Nat) : Inv (ageQueues ticks s) := by
  have hq := queues_age ticks s
  refine ⟨fun x hx => ?_, fun i x hx => ?_, ?_, ?_, ?_⟩
  · rw [hq, mem_filter, mem_map] at hx
    obtain ⟨⟨fp, hfp, rfl⟩, hlive⟩ := hx
    have hok := h.queue fp hfp
    have hle := hok.ttl_le
    refine ⟨hok.ne, hok.laid, hok.keyed, hok.count, Nat.pos_of_ne_zero (by simpa using hlive), ?_⟩
    simp only [Queue.age]
    split <;> omega
  · obtain ⟨hx, -⟩ := mem_filter.mp hx
    obtain ⟨fp, hfp, rfl⟩ := mem_map.mp hx
    exact h.hash i fp hfp
  · have hmap : (s.queues.map (Queue.age ticks)).map Queue.key = s.queues.map Queue.key := by
      rw [map_map]
      rfl
    rw [hq]
    exact (hmap ▸ h.keys).sublist (Sublist.map _ filter_sublist)
  · have hsplit := nfragsOf_filter (fun fp => decide (fp.ttl = 0)) (s.queues.map (Queue.age ticks))
    rw [nfragsOf_age] at hsplit
    rw [hq]
    simp only [ageQueues, h.nfrags, hsplit, decide_not]
    omega
  · have hsplit := length_eq_length_filter_add (l := s.queues.map (Queue.age ticks))
      fun fp => decide (fp.ttl = 0)
    rw [length_map] at hsplit
    rw [hq]
    simp only [ageQueues, h.packets, hsplit, decide_not]
    omega

theorem freeList_inv {s : Reass} (h : Inv s) (i : Fin ipreassHashSize) : Inv (freeList s i) := by
  obtain ⟨pre, post, hq, hset⟩ := queues_setList s i
  have hq' : (freeList s i).queues = pre ++ post := (hset []).trans (by simp)
  have hsub : (pre ++ post).Sublist s.queues := by
    rw [hq]
    exact Sublist.append_right (sublist_append_left ..) _
  refine ⟨fun x hx => h.queue x (hsub.mem (hq' ▸ hx)), hash_setList h (by simp), ?_, ?_, ?_⟩
  · rw [hq']
    exact h.keys.sublist (hsub.map _)
  · rw [hq']
    simp only [freeList, h.nfrags, hq, nfragsOf_append]
    omega
  · rw [hq']
    simp only [freeList, h.packets, hq, length_append]
    omega

theorem dropScan_inv {s : Reass} (lists : Nat) (i : Fin ipreassHashSize) (h : Inv s) : Inv (dropScan lists i s) := by
  induction lists generalizing i s with
  | zero => exact h.congr rfl rfl rfl
  | succ lists ih =>
    rw [dropScan]
    split
    · exact ih (i + 1) (freeList_inv h i)
    · exact h.congr rfl rfl rfl

theorem checkNmbclusterParams_inv {s : Reass} (h : Inv s) (nmbclusters : Int) : Inv (checkNmbclusterParams nmbclusters s) := by
  unfold checkNmbclusterParams
  split
  · exact h.congr rfl rfl rfl
  · exact h

theorem dropOlder_inv {s : Reass} (h : Inv s) (medianTtl : Nat) : Inv (dropOlder medianTtl s) := by
  unfold dropOlder
  split
  · exact ageQueues_inv h medianTtl
  · exact h

theorem drainToLimit_inv {s : Reass} (h : Inv s) : Inv (drainToLimit s) := by
  unfold drainToLimit
  split
  · exact h
  · exact dropScan_inv _ _ h

theorem ipReassSlowtimo_inv {s : Reass} (h : Inv s) (nmbclusters : Int) : Inv (ipReassSlowtimo nmbclusters s) :=
  drainToLimit_inv (dropOlder_inv (checkNmbclusterParams_inv (ageQueues_inv h 1) nmbclusters) _)

theorem ipReassDrain_inv {s : Reass} (h : Inv s) : Inv (ipReassDrain s) :=
  ageQueues_inv (ageQueues_inv h 0) _

/-! ### The multiplicative drop -/

/-- The fragments of the queues that live longer than `ttl`. -/
def nfragsAbove (s : Reass) (ttl : Nat) : Nat := nfragsOf (s.queues.filter fun fp => ttl < fp.ttl)

theorem nfragsAbove_succ (s : Reass) (ttl : Nat) : nfragsAbove s (ttl + 1) + fragttlHisto s (ttl + 1) = nfragsAbove s ttl := by
  rw [nfragsAbove, nfragsAbove, fragttlHisto, nfragsOf_filter (fun fp => decide (fp.ttl = ttl + 1))
    (s.queues.filter fun fp => ttl < fp.ttl), filter_filter, filter_filter, add_comm]
  congr 2
  · refine filter_congr fun fp _ => ?_
    rw [Bool.eq_iff_iff]
    simp only [Bool.and_eq_true, decide_eq_true_eq]
    omega
  refine filter_congr fun fp _ => ?_
  rw [Bool.eq_iff_iff]
  simp only [Bool.and_eq_true, Bool.not_eq_true', decide_eq_true_eq, decide_eq_false_iff_not]
  omega

theorem nfragsAbove_zero (s : Reass) : nfragsAbove s 0 + fragttlHisto s 0 = nfragsOf s.queues := by
  rw [nfragsAbove, nfragsOf_filter (fun fp => decide (fp.ttl = 0)) s.queues, add_comm]
  congr 2
  refine filter_congr fun fp _ => ?_
  rw [Bool.eq_iff_iff]
  simp only [Bool.not_eq_true', decide_eq_true_eq, decide_eq_false_iff_not]
  omega

theorem medianLoop_spec (s : Reass) (keep : Nat) (hkeep : keep ≤ nfragsOf s.queues) (i : Nat) (h : nfragsAbove s i = 0 ∨ nfragsAbove s i < keep) :
    nfragsAbove s (medianLoop (fragttlHisto s) keep i (nfragsAbove s i)) = 0 ∨
      nfragsAbove s (medianLoop (fragttlHisto s) keep i (nfragsAbove s i)) < keep := by
  induction i with
  | zero =>
    have := nfragsAbove_zero s
    rw [medianLoop, if_pos (by omega)]
    exact h
  | succ i ih =>
    have hsucc := nfragsAbove_succ s i
    rw [medianLoop]
    split
    · exact h
    · next hfew =>
      rw [hsucc] at hfew ⊢
      exact ih (.inr (not_le.mp hfew))

theorem nfragsAbove_ttl_max {s : Reass} (h : Inv s) : nfragsAbove s ipfragttl = 0 := by
  have hnil : s.queues.filter (fun fp => decide (ipfragttl < fp.ttl)) = [] := by
    refine filter_eq_nil_iff.mpr fun fp hfp => ?_
    have := (h.queue fp hfp).ttl_le
    simpa using this
  rw [nfragsAbove, hnil]
  rfl

theorem queues_age_zero {s : Reass} (h : Inv s) : (ageQueues 0 s).queues = s.queues := by
  have hmap : s.queues.map (Queue.age 0) = s.queues := by
    refine map_id'' (fun fp => ?_) _
    have httl : (if fp.ttl ≤ 0 then 0 else fp.ttl - 0) = fp.ttl := by
      split <;> omega
    rw [Queue.age, httl]
  rw [queues_age, hmap]
  refine filter_eq_self.mpr fun fp hfp => ?_
  have := (h.queue fp hfp).alive
  simp only [decide_eq_true_eq]
  omega

theorem nfragsOf_queues_age (s : Reass) (ticks : Nat) : nfragsOf (ageQueues ticks s).queues = nfragsAbove s ticks := by
  have hlive : (s.queues.map (Queue.age ticks)).filter (fun fp => decide (fp.ttl ≠ 0)) =
      (s.queues.filter fun fp => ticks < fp.ttl).map (Queue.age ticks) := by
    rw [filter_map]
    congr 1
    refine filter_congr fun fp _ => ?_
    rw [Function.comp, decide_eq_decide]
    simp only [Queue.age]
    split <;> omega
  rw [queues_age, hlive, nfragsOf_age, nfragsAbove]

theorem ipReassDrain_half {s : Reass} (h : Inv s) : 2 * nfragsOf (ipReassDrain s).queues ≤ nfragsOf s.queues := by
  have h₀ := ageQueues_inv h 0
  have hsame := congrArg nfragsOf (queues_age_zero h)
  have hmedian := medianLoop_spec (ageQueues 0 s)
    ((ageQueues 0 s).ipNfrags - (ageQueues 0 s).ipNfrags.tdiv 2).toNat ?_ ipfragttl
    (.inl (nfragsAbove_ttl_max h₀))
  · rw [nfragsAbove_ttl_max h₀] at hmedian
    have hleft := nfragsOf_queues_age (ageQueues 0 s) (medianTtl (ageQueues 0 s))
    simp only [ipReassDrain, ipReassDrophalf, ipReassTtlDecr]
    rw [hleft, medianTtl]
    have hn := h₀.nfrags
    rw [Int.tdiv_eq_ediv_of_nonneg (by omega)] at hmedian ⊢
    omega
  · rw [h₀.nfrags, Int.tdiv_eq_ediv_of_nonneg (by omega)]
    omega

/-! ### Every run -/

theorem ipReassInit_inv (nmbclusters : Int) : Inv (ipReassInit nmbclusters) := by
  have hq : (ipReassInit nmbclusters).queues = [] := by simp [Reass.queues, ipReassInit]
  exact ⟨by simp [hq], by simp [ipReassInit], by simp [hq], by rfl, by rfl⟩

theorem step_inv {s : Reass} (h : Inv s) (a : Action) : Inv (step s a) := by
  cases a with
  | packet f alloc => exact ipReassPacket_inv h f alloc
  | slowtimo nmbclusters => exact ipReassSlowtimo_inv h nmbclusters
  | drain => exact ipReassDrain_inv h
  | sysctl maxfragpackets => exact h.congr rfl rfl rfl

theorem reachable_inv {s : Reass} (h : reassSystem.Reachable s) : Inv s := by
  refine h.invariant ?_ ?_
  · rintro _ ⟨nmbclusters, rfl⟩
    exact ipReassInit_inv nmbclusters
  rintro s a s' hs - hstep
  obtain rfl := Option.some.inj hstep
  exact step_inv hs a

def fragmentCount (s : Reass) : Nat := (s.queues.map fun fp => fp.fragq.length).sum

/-- A queue as the rest of the kernel may rely on it. -/
structure QueueSound (fp : Queue) : Prop where
  order : fp.fragq.IsChain fun q r => q.off < r.off ∧ q.off + q.len ≤ r.off
  bytes : ∀ q ∈ fp.fragq, q.m.length = q.len
  last : ∀ q ∈ fp.fragq.dropLast, q.mff = true
  count : fp.nfrags.toNat = fp.fragq.length
  nonempty : 1 ≤ fp.nfrags.toNat

structure TableSound (s : Reass) : Prop where
  queue : ∀ fp ∈ s.queues, QueueSound fp
  keys : (s.queues.map Queue.key).Nodup
  nfrags : s.ipNfrags = nfragsOf s.queues
  packets : s.ipNfragpackets = s.queues.length

theorem QueueOk.sound {fp : Queue} (h : QueueOk fp) : QueueSound fp := by
  refine ⟨List.Pairwise.isChain (h.laid.order.imp_of_mem fun {q r} hq _ hqr => ?_),
    fun q hq => (h.laid.each q hq).bytes, fun q hq => ?_, h.toNat_nfrags, ?_⟩
  · obtain ⟨hpos, -⟩ := (h.laid.each q hq).more hqr.1
    have := hqr.2
    simp only [Qent.stop] at this
    omega
  · have horder := h.laid.order
    rw [← dropLast_append_getLast h.ne] at horder
    exact ((pairwise_append.mp horder).2.2 q hq _ (mem_singleton_self _)).1
  · rw [h.toNat_nfrags]
    exact length_pos_iff.mpr h.ne

theorem Inv.fragmentCount_eq {s : Reass} (h : Inv s) : fragmentCount s = nfragsOf s.queues := by
  rw [fragmentCount]
  congr 1
  exact map_congr_left fun fp hfp => (h.queue fp hfp).toNat_nfrags.symm

/-- Whatever arrives, the table stays sound; what is returned fits in a packet; and a
drain removes at least half of all fragments. -/
theorem reassembly_table_sound {s : Reass} (h : reassSystem.Reachable s) : TableSound s ∧
    (∀ f alloc pkt, (ipReassPacket s f alloc).1 = .ok (some pkt) → pkt.ip.len ≤ 65535) ∧
    2 * (fragmentCount s - fragmentCount (ipReassDrain s)) ≥ fragmentCount s := by
  have hinv := reachable_inv h
  refine ⟨⟨fun fp hfp => (hinv.queue fp hfp).sound, hinv.keys, hinv.nfrags, hinv.packets⟩,
    fun f alloc pkt => ipReassPacket_len, ?_⟩
  have hhalf := ipReassDrain_half hinv
  rw [← hinv.fragmentCount_eq, ← (ipReassDrain_inv hinv).fragmentCount_eq] at hhalf
  omega

/-- A first fragment of 64 bytes. -/
def sampleFragment : Fragment where
  ip := ⟨5, 0, 84, 7, true, 0, 17, 0x0a000001, 0x0a000002⟩
  data := replicate 64 0
  ipsecflags := 0
  len_eq := by decide
  len_le := by decide

theorem reassembly_table_sound_sample : TableSound (step (ipReassInit 1024) (.packet sampleFragment ⟨true, true⟩)) ∧
      fragmentCount (step (ipReassInit 1024) (.packet sampleFragment ⟨true, true⟩)) = 1 :=
  ⟨(reassembly_table_sound (.step (.init ⟨1024, rfl⟩) trivial rfl)).1, by decide⟩

end NetBSD.Netinet.IpReass
