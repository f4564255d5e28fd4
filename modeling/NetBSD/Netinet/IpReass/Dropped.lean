import NetBSD.Netinet.IpReass.Invariant

/-! What a dropped fragment leaves behind.

`ip_reass` looks at the preceding segment before it touches anything, but the segments
that follow are trimmed and dequeued on the way to the last test. A fragment marked as
the last one that reaches into the first segment behind it, yet not over the whole
queue, is dropped there with the bytes it covered gone from the queue
(`dropped_keeps_iff`). -/
namespace NetBSD.Netinet.IpReass
open List

/-- The segments that begin no later than the fragment, and those after them. -/
def segmentsBefore (ipqe : Qent) (fragq : List Qent) : List Qent := fragq.takeWhile fun q => q.off ≤ ipqe.off
def segmentsAfter (ipqe : Qent) (fragq : List Qent) : List Qent := fragq.dropWhile fun q => q.off ≤ ipqe.off

/-- The preceding segment provides all of the fragment, or was marked as the last. -/
def Precluded (ipqe : Qent) (fragq : List Qent) : Prop :=
  ∃ p ∈ (segmentsBefore ipqe fragq).getLast?, ipqe.off < p.stop ∧ ipqe.stop ≤ p.stop ∨ p.mff = false

/-- The fragment ends before the segments that follow. -/
def Clear (ipqe : Qent) (fragq : List Qent) : Prop := ∀ q ∈ (segmentsAfter ipqe fragq).head?, ipqe.stop ≤ q.off

/-- `ip_reass` leaves by `dropfrag`. -/
def dropfrag (ipqe : Qent) (fp : Queue) : Prop := (place ipqe fp.fragq).dropped = true

section Segment
variable {ipqe ipqe' : Qent}

theorem trimByPreceding_eq_none {p : Option Qent} : trimByPreceding ipqe p = none ↔
    ∃ q ∈ p, ipqe.off < q.stop ∧ ipqe.stop ≤ q.stop ∨ q.mff = false := by
  constructor
  · exact trimByPreceding_none
  rintro ⟨q, hq, h⟩
  obtain rfl := Option.mem_def.mp hq
  by_cases hcov : 0 < overlap q ipqe.off ∧ overlap q ipqe.off ≥ ipqe.len
  · simp [trimByPreceding, hcov]
  have hmff : q.mff = false := by
    refine h.resolve_left fun hq => hcov ?_
    simp only [Qent.stop] at hq
    simp only [overlap]
    omega
  simp [trimByPreceding, hmff]

theorem trimByPreceding_stop {p : Option Qent} (h : trimByPreceding ipqe p = some ipqe') : ipqe'.stop = ipqe.stop := by
  obtain ⟨rfl | ⟨i, hi, rfl⟩, -⟩ := trimByPreceding_some h
  · rfl
  · exact adj_stop hi

theorem trimFollowing_eq_self {after : List Qent} : (trimFollowing ipqe after).1 = after ↔ ∀ q ∈ after.head?, ipqe.stop ≤ q.off := by
  cases after with
  | nil => simp [trimFollowing]
  | cons q rest =>
    have hlen := @trimFollowing_length ipqe rest
    have hreach : overlap ipqe q.off ≤ 0 ↔ ipqe.stop ≤ q.off := by
      simp only [overlap, Qent.stop]
      omega
    simp only [head?_cons, Option.mem_some_iff, forall_eq', ← hreach]
    rw [trimFollowing]
    split_ifs with hfree hpart
    · simp [hfree]
    · have hoff : (q.adj (overlap ipqe q.off).toNat).off ≠ q.off := by
        simp only [Qent.adj]
        omega
      simp only [hfree, iff_false]
      exact fun h => hoff (congrArg Qent.off (List.cons.inj h).1)
    simp only [hfree, iff_false]
    intro h
    have := congrArg List.length h
    simp only [length_cons] at this
    omega

end Segment

/-- A fragment is dropped with the queue as it was exactly when it goes no further than
the preceding segment, or reaches none of those that follow. -/
theorem place_fragq_iff {ipqe : Qent} {fragq : List Qent} (hd : (place ipqe fragq).dropped = true) :
    (place ipqe fragq).fragq = fragq ↔ Precluded ipqe fragq ∨ Clear ipqe fragq := by
  rw [Precluded, ← trimByPreceding_eq_none]
  have hsplit : segmentsBefore ipqe fragq ++ segmentsAfter ipqe fragq = fragq := takeWhile_append_dropWhile
  revert hd
  simp only [place]
  rw [← segmentsBefore, ← segmentsAfter]
  cases htrim : trimByPreceding ipqe (segmentsBefore ipqe fragq).getLast? with
  | none => simp
  | some ipqe' =>
    simp only
    split_ifs with hlast
    · have hclear : Clear ipqe fragq ↔ (trimFollowing ipqe' (segmentsAfter ipqe fragq)).1 = segmentsAfter ipqe fragq := by
        rw [trimFollowing_eq_self, trimByPreceding_stop htrim, Clear]
      have hcut : segmentsBefore ipqe fragq ++ (trimFollowing ipqe' (segmentsAfter ipqe fragq)).1 = fragq ↔
          (trimFollowing ipqe' (segmentsAfter ipqe fragq)).1 = segmentsAfter ipqe fragq := by
        calc _ ↔ segmentsBefore ipqe fragq ++ (trimFollowing ipqe' (segmentsAfter ipqe fragq)).1 =
              segmentsBefore ipqe fragq ++ segmentsAfter ipqe fragq := by rw [hsplit]
          _ ↔ _ := append_right_inj _
      rw [hcut, hclear]
      simp
    · intro hd
      cases hd

/-- When `ip_reass` drops a fragment its queue keeps its entries exactly when the
fragment was precluded by the segment before it, or clear of those after it. -/
theorem dropped_keeps_iff {s : Reass} {ipqe : Qent} {fp : Queue} (hf : s.findQueue ipqe.ip.key = some fp)
    (hd : dropfrag ipqe fp) (ipsecflags : BitVec 2) (malloc : Bool) :
    (∃ fp' ∈ (ipReass s ipqe ipsecflags malloc (some fp)).2.findQueue ipqe.ip.key, fp'.fragq = fp.fragq) ↔
      Precluded ipqe fp.fragq ∨ Clear ipqe fp.fragq := by
  have hdrop : (place ipqe fp.fragq).dropped = true := hd
  have hkey : fp.key = ipqe.ip.key := findQueue_key hf
  have hput : (ipReass s ipqe ipsecflags malloc (some fp)).2.findQueue ipqe.ip.key = some (placedQueue fp (place ipqe fp.fragq)) := by
    simp only [ipReass, hdrop, if_true]
    rw [hkey]
    exact findQueue_put hf hkey
  rw [hput, ← place_fragq_iff hdrop]
  simp [placedQueue]

/-! A fragment of 16 bytes waits at offset 64 when the last fragment of its datagram is
claimed to end at 72. -/

def sixteenBytes (mf : Bool) (off : BitVec 13) : Fragment :=
  ⟨⟨⟨5, 0, 36, 7, mf, off, 17, 0x0a000001, 0x0a000002⟩, replicate 16 0⟩, 0, rfl, (by decide : 36 ≤ 65535)⟩

def waitingAt64 : Fragment := sixteenBytes true 8
def lastAt (off : BitVec 13) : Fragment := sixteenBytes false off

def stateWaiting : Reass := step (ipReassInit 1024) (.packet waitingAt64 ⟨true, true⟩)

def queueWaiting : Queue := newQueue (newQent waitingAt64) 0

theorem dropped_keeps_iff_clear : ∃ fp' ∈ (ipReass stateWaiting (newQent (lastAt 6)) 0 true (some queueWaiting)).2.findQueue (lastAt 6).ip.key,
      fp'.fragq = queueWaiting.fragq :=
  (dropped_keeps_iff (by decide) (by unfold dropfrag; decide) 0 true).mpr
    (.inr (by unfold Clear; decide))

/-- The datagram loses the bytes from 64 to 72 to a fragment that is not kept. -/
theorem dropped_disturbs : reassSystem.Reachable stateWaiting ∧ ¬ badFragment (lastAt 7).ip ∧
      stateWaiting.findQueue (lastAt 7).ip.key = some queueWaiting ∧ dropfrag (newQent (lastAt 7)) queueWaiting ∧
      (queueWaiting.fragq.map fun q => (q.off, q.len)) = [(64, 16)] ∧
      ((ipReass stateWaiting (newQent (lastAt 7)) 0 true (some queueWaiting)).2.findQueue (lastAt 7).ip.key).map
        (fun fp => fp.fragq.map fun q => (q.off, q.len)) = some [(72, 8)] :=
  ⟨.step (.init ⟨1024, rfl⟩) trivial rfl, by decide, by decide, by unfold dropfrag; decide, rfl,
    by decide⟩

end NetBSD.Netinet.IpReass
