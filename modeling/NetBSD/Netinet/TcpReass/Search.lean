import NetBSD.Netinet.TcpReass.Blocks

/-! The search for the place of a segment.

Between two rounds of the loop the queue is the entries in front of the segment and those that were not looked at, and what is
wanted of the stream, that is what the queue held and what the segment brought, is in the segment or in the queue (`Scanning`).
One lemma says what a round leaves (`examine_scanning`), and from it what the loop leaves: a place for the segment (`Placed`), or
the queue as it is when all that is wanted is there (`Sound`). -/
namespace NetBSD.Netinet.TcpReass
open List
open Lib Serial

/-- The queues in front of `rcv_nxt + lo`, with all that is wanted. -/
structure Sound (base : Seq) (rest : List Byte) (want : Nat → Prop) (lo : Nat) (tp : Tcpcb) : Prop where
  books : Books tp
  laid : Laid base rest lo tp.segq (2 ^ 30)
  covers : ∀ x, want x → ∃ q ∈ tp.segq, q.Has base x
  rcvNxt : tp.rcvNxt = base

/-- Before the entries `qs` are looked at. `tp₀` is the queue at the start, which the loop leaves as it is until it takes an
entry. -/
structure Scanning (base : Seq) (rest : List Byte) (want : Nat → Prop) (alloc : Option Nat) (tp₀ : Tcpcb)
    (pre qs : List Ipqent) (l : Scan) : Prop where
  books : Books l.tp
  segq : l.tp.segq = pre ++ qs
  p : l.p = pre.getLast?.map (·.id)
  fresh : ∀ id, l.tiqe.or alloc = some id → id ∉ l.tp.segq.map (·.id)
  laid : ∃ mid, Laid base rest 1 pre mid ∧ Laid base rest mid qs (2 ^ 30) ∧ (pre = [] ∨ mid ≤ pos base l.pkt.seq)
  pkt : Holds base rest l.pkt
  covers : ∀ x, want x → l.pkt.Has base x ∨ ∃ q ∈ pre ++ qs, q.Has base x
  rcvNxt : l.tp.rcvNxt = base
  kept : l.tiqe = none → l.tp = tp₀

/-- The place of the segment is between `pre` and `post`. -/
structure Placed (base : Seq) (rest : List Byte) (want : Nat → Prop) (alloc : Option Nat) (tp₀ : Tcpcb)
    (pre post : List Ipqent) (l : Scan) : Prop where
  books : Books l.tp
  segq : l.tp.segq = pre ++ post
  p : l.p = pre.getLast?.map (·.id)
  fresh : ∀ id, l.tiqe.or alloc = some id → id ∉ l.tp.segq.map (·.id)
  front : Laid base rest 0 pre (pos base l.pkt.seq)
  behind : Laid base rest (pos base l.pkt.seq + l.pkt.m.length + 1) post (2 ^ 30)
  pkt : Holds base rest l.pkt
  covers : ∀ x, want x → l.pkt.Has base x ∨ ∃ q ∈ pre ++ post, q.Has base x
  rcvNxt : l.tp.rcvNxt = base
  kept : l.tiqe = none → l.tp = tp₀

variable {base : Seq} {rest : List Byte} {want : Nat → Prop} {alloc : Option Nat} {tp tp₀ : Tcpcb} {pre qs post : List Ipqent}
  {q : Ipqent} {l : Scan} {pkt : Block}

/-! ### Rounds -/

section
variable (h : Scanning base rest want alloc tp₀ pre (q :: qs) l)
include h

theorem Scanning.skip (hpast : pos base q.seq + q.m.length < pos base l.pkt.seq) :
    Scanning base rest want alloc tp₀ (pre ++ [q]) qs { l with p := some q.id } := by
  obtain ⟨mid, hpre, hqs, -⟩ := h.laid
  refine ⟨h.books, ?_, ?_, h.fresh, ⟨pos base q.seq + q.m.length + 1, ?_, hqs.2.2, .inr hpast⟩, h.pkt, ?_, h.rcvNxt, h.kept⟩
  · rw [append_assoc]
    exact h.segq
  · rw [getLast?_concat]
    rfl
  · exact laid_append.mpr ⟨mid, hpre, hqs.1, hqs.2.1, le_refl _⟩
  · rw [append_assoc]
    exact h.covers

theorem Scanning.freeIpqe (hpkt : Holds base rest pkt) (hplace : pos base l.pkt.seq ≤ pos base pkt.seq ∨ pos base q.seq ≤ pos base pkt.seq)
    (hcover : ∀ x, l.pkt.Has base x ∨ q.Has base x → pkt.Has base x) :
    Scanning base rest want alloc tp₀ pre qs ({ l with pkt := pkt }.freeIpqe q) := by
  obtain ⟨mid, hpre, hqs, hmid⟩ := h.laid
  have hsegq := unlink_segq h.books h.segq
  have hnot := h.books.not_mem h.segq
  have hmid' : mid ≤ pos base q.seq := hqs.1
  refine ⟨h.books.unlink h.segq, hsegq, h.p, ?_, ⟨mid, hpre, hqs.2.2.mono (by omega) (le_refl _), ?_⟩, hpkt, ?_, h.rcvNxt, ?_⟩
  · intro id hid
    show id ∉ ((l.tp.unlink q.id).segq).map (·.id)
    rw [hsegq]
    cases htiqe : l.tiqe with
    | none =>
      rw [htiqe] at hid
      obtain rfl := Option.some.inj hid
      exact hnot
    | some e =>
      rw [htiqe] at hid
      have hold := h.fresh id (by rw [htiqe]; exact hid)
      rw [h.segq] at hold
      intro hmem
      apply hold
      rw [map_append, mem_append] at hmem
      rw [map_append, mem_append]
      tauto
  · rcases hmid with hnil | hmid
    · exact .inl hnil
    right
    show mid ≤ pos base pkt.seq
    omega
  · intro x hx
    rcases h.covers x hx with hin | ⟨e, he, hin⟩
    · exact .inl (hcover x (.inl hin))
    rcases mem_append.mp he with he | he
    · exact .inr ⟨e, mem_append_left _ he, hin⟩
    rcases mem_cons.mp he with rfl | he
    · exact .inl (hcover x (.inr hin))
    · exact .inr ⟨e, mem_append_right _ he, hin⟩
  · intro hnone
    exact absurd hnone (by cases l.tiqe <;> simp [Scan.freeIpqe])

end

theorem Scanning.placed (h : Scanning base rest want alloc tp₀ pre qs l)
    (hbehind : Laid base rest (pos base l.pkt.seq + l.pkt.m.length + 1) qs (2 ^ 30)) :
    Placed base rest want alloc tp₀ pre qs l := by
  obtain ⟨mid, hpre, -, hmid⟩ := h.laid
  refine ⟨h.books, h.segq, h.p, h.fresh, ?_, hbehind, h.pkt, h.covers, h.rcvNxt, h.kept⟩
  rcases hmid with rfl | hmid
  · exact Nat.zero_le _
  · exact hpre.mono (Nat.zero_le 1) hmid

def RoundOk (base : Seq) (rest : List Byte) (want : Nat → Prop) (alloc : Option Nat) (tp₀ : Tcpcb) (qs : List Ipqent) : Round → Prop
  | .next l => ∃ pre, Scanning base rest want alloc tp₀ pre qs l
  | .stop l => ∃ pre post, Placed base rest want alloc tp₀ pre post l
  | .out tp => Sound base rest want 1 tp

/-- The rounds, by where the entry and the segment are. -/
inductive Examined (base : Seq) (q : Ipqent) (l : Scan) : Round → Prop where
  | append (hafter : q.stopAt base = pos base l.pkt.seq) :
    Examined base q l (.next ({ l with pkt := ⟨q.seq, l.pkt.len + q.len, l.pkt.flags ||| q.flags, q.m ++ l.pkt.m⟩ }.freeIpqe q))
  | past (hpast : q.stopAt base < pos base l.pkt.seq) : Examined base q l (.next { l with p := some q.id })
  | front (hfront : l.pkt.stopAt base < pos base q.seq) : Examined base q l (.stop l)
  | duplicate (hle : pos base q.seq ≤ pos base l.pkt.seq) (hlt : pos base l.pkt.seq < q.stopAt base)
    (hge : l.pkt.stopAt base ≤ q.stopAt base) : Examined base q l (.out l.tp)
  | inside (hle : pos base l.pkt.seq ≤ pos base q.seq) (hge : q.stopAt base ≤ l.pkt.stopAt base)
    (hless : pos base l.pkt.seq < pos base q.seq ∨ q.stopAt base < l.pkt.stopAt base) : Examined base q l (.next (l.freeIpqe q))
  | extend (hlt : pos base q.seq < pos base l.pkt.seq) (hin : pos base l.pkt.seq < q.stopAt base)
    (hover : q.stopAt base < l.pkt.stopAt base) :
    Examined base q l (.next ({ l with pkt :=
      ⟨q.seq, l.pkt.len + (q.len - BitVec.ofInt 32 (q.stop - l.pkt.seq).toInt), l.pkt.flags,
        q.m ++ mAdj l.pkt.m (q.stop - l.pkt.seq).toInt⟩ }.freeIpqe q))
  | prepend (hlt : pos base l.pkt.seq < pos base q.seq) (hin : pos base q.seq ≤ l.pkt.stopAt base)
    (hover : l.pkt.stopAt base < q.stopAt base) :
    Examined base q l (.stop ({ l with pkt :=
      ⟨(trimTail l.pkt q.toBlock).seq, (trimTail l.pkt q.toBlock).len + q.len, (trimTail l.pkt q.toBlock).flags ||| q.flags,
        (trimTail l.pkt q.toBlock).m ++ q.m⟩ }.freeIpqe q))

section
variable (hpkt : Holds base rest l.pkt) (hq : Holds base rest q.toBlock)
include hpkt hq

theorem examined : Examined base q l (examine q l) := by
  have hstop : pos base l.pkt.stop = l.pkt.stopAt base := hpkt.stop_pos
  have hqstop : pos base q.stop = q.stopAt base := hq.stop_pos
  unfold examine
  dsimp only
  by_cases hafter : q.stop = l.pkt.seq
  · rw [if_pos hafter]
    rw [eq_iff_pos base, hqstop] at hafter
    exact .append hafter
  rw [if_neg hafter]
  rw [eq_iff_pos base] at hafter
  by_cases hpast : lt q.stop l.pkt.seq
  · rw [if_pos hpast]
    rw [lt_iff hq.near_stop hpkt.near, hqstop] at hpast
    exact .past hpast
  rw [if_neg hpast]
  rw [lt_iff hq.near_stop hpkt.near] at hpast
  by_cases hfront : gt q.seq l.pkt.stop
  · rw [if_pos hfront]
    rw [gt_iff hq.near hpkt.near_stop, hstop] at hfront
    exact .front hfront
  rw [if_neg hfront]
  rw [gt_iff hq.near hpkt.near_stop, hstop] at hfront
  by_cases hdup : le q.seq l.pkt.seq ∧ ge q.stop l.pkt.stop
  · rw [if_pos hdup]
    rw [le_iff hq.near hpkt.near, ge_iff hq.near_stop hpkt.near_stop, hqstop, hstop] at hdup
    exact .duplicate hdup.1 (by omega) hdup.2
  rw [if_neg hdup]
  rw [le_iff hq.near hpkt.near, ge_iff hq.near_stop hpkt.near_stop, hqstop] at hdup
  by_cases hinside : ge q.seq l.pkt.seq ∧ le q.stop l.pkt.stop
  · rw [if_pos hinside]
    rw [ge_iff hq.near hpkt.near, le_iff hq.near_stop hpkt.near_stop, hqstop, hstop] at hinside
    exact .inside hinside.1 hinside.2 (by omega)
  rw [if_neg hinside]
  rw [ge_iff hq.near hpkt.near, le_iff hq.near_stop hpkt.near_stop, hqstop] at hinside
  by_cases htail : lt q.seq l.pkt.seq ∧ gt q.stop l.pkt.seq
  · rw [if_pos htail]
    rw [lt_iff hq.near hpkt.near, gt_iff hq.near_stop hpkt.near, hqstop] at htail
    exact .extend htail.1 htail.2 (by omega)
  rw [if_neg htail]
  rw [lt_iff hq.near hpkt.near, gt_iff hq.near_stop hpkt.near] at htail
  have hin : pos base q.seq ≤ pos base l.pkt.seq + l.pkt.m.length := Nat.not_lt.mp hfront
  obtain ⟨htrim, htrimseq, htrimstop⟩ := hpkt.trimTail hq (by omega) hin
  have hstop' := htrim.stop_pos
  rw [htrimseq, htrimstop] at hstop'
  rw [if_pos ((eq_iff_pos _).mpr hstop'.symm)]
  exact .prepend (by omega) (by omega) (by omega)

theorem length_extended (hin : pos base l.pkt.seq < q.stopAt base) :
    (mAdj l.pkt.m (q.stop - l.pkt.seq).toInt).length = l.pkt.m.length - (q.stopAt base - pos base l.pkt.seq) := by
  have hqstop : pos base q.stop = q.stopAt base := hq.stop_pos
  rw [toInt_sub_of_near hq.near_stop hpkt.near, mAdj, if_pos (by omega), length_drop]
  omega

end

theorem examine_scanning (h : Scanning base rest want alloc tp₀ pre (q :: qs) l) : RoundOk base rest want alloc tp₀ qs (examine q l) := by
  obtain ⟨mid, hpre, hqs, hmid⟩ := id h.laid
  obtain ⟨hlo, hq, hbehind⟩ := hqs
  have hpkt := h.pkt
  have hround := examined hpkt hq
  generalize examine q l = round at hround ⊢
  cases hround with
  | append hafter =>
    rw [Block.stopAt] at hafter
    refine ⟨pre, h.freeIpqe (hq.join hpkt hafter.symm (add_comm _ _) _) (.inr (le_refl _)) ?_⟩
    intro x hx
    unfold Block.Has at hx ⊢
    show pos base q.seq ≤ x ∧ x < pos base q.seq + (q.m ++ l.pkt.m).length
    rw [length_append]
    omega
  | past hpast => exact ⟨pre ++ [q], h.skip hpast⟩
  | front hfront => exact ⟨pre, q :: qs, h.placed ⟨hfront, hq, hbehind⟩⟩
  | duplicate hle hlt hge =>
    rw [Block.stopAt] at hge
    refine ⟨h.books, ?_, ?_, h.rcvNxt⟩
    · rw [h.segq]
      exact laid_append.mpr ⟨mid, hpre, hlo, hq, hbehind⟩
    intro x hx
    rw [h.segq]
    rcases h.covers x hx with hin | hin
    · refine ⟨q, mem_append_right _ mem_cons_self, ?_⟩
      exact ⟨le_trans hle hin.1, lt_of_lt_of_le hin.2 hge⟩
    · exact hin
  | inside hle hge hless =>
    rw [Block.stopAt, Block.stopAt] at hge
    refine ⟨pre, h.freeIpqe hpkt (.inl (le_refl _)) ?_⟩
    intro x hx
    unfold Block.Has at hx ⊢
    omega
  | extend hlt hin hover =>
    have hadj := length_extended hpkt hq hin
    rw [Block.stopAt] at hin hover hadj
    rw [Block.stopAt] at hover
    refine ⟨pre, h.freeIpqe (hq.extend hpkt (by omega) (by omega) _) (.inr (le_refl _)) ?_⟩
    intro x hx
    unfold Block.Has at hx ⊢
    rw [length_append]
    show pos base q.seq ≤ x ∧ x < pos base q.seq + _
    omega
  | prepend hlt hin hover =>
    rw [Block.stopAt] at hin hover
    rw [Block.stopAt] at hover
    -- the entry begins behind the start of the segment and ends behind its end
    obtain ⟨htrim, htrimseq, htrimstop⟩ := hpkt.trimTail hq hlt hin
    have htouch : pos base q.seq = pos base (trimTail l.pkt q.toBlock).seq + (trimTail l.pkt q.toBlock).m.length := by
      rw [htrimseq, htrimstop]
    have hnew := h.freeIpqe (htrim.join hq htouch rfl ((trimTail l.pkt q.toBlock).flags ||| q.flags))
      (.inl (le_of_eq (congrArg _ htrimseq.symm))) (by
        intro x hx
        unfold Block.Has at hx ⊢
        rw [length_append]
        show pos base (trimTail l.pkt q.toBlock).seq ≤ x ∧ x < pos base (trimTail l.pkt q.toBlock).seq + _
        omega)
    refine ⟨pre, qs, hnew.placed ?_⟩
    show Laid base rest (pos base (trimTail l.pkt q.toBlock).seq + (_ ++ _ : List Byte).length + 1) qs _
    rw [length_append, ← add_assoc, ← htouch]
    exact hbehind

theorem scan_scanning (h : Scanning base rest want alloc tp₀ pre qs l) :
    match scan qs l with
    | .next _ => False
    | .stop l => ∃ pre post, Placed base rest want alloc tp₀ pre post l
    | .out tp => Sound base rest want 1 tp := by
  induction qs generalizing pre l with
  | nil =>
    refine ⟨pre, [], h.placed ?_⟩
    have hroom := h.pkt.room
    show _ ≤ _
    omega
  | cons q qs ih =>
    have hround := examine_scanning h
    rw [scan]
    cases hexamine : examine q l with
    | next l' =>
      rw [hexamine] at hround
      obtain ⟨pre', hnext⟩ := hround
      exact ih hnext
    | stop l' =>
      rw [hexamine] at hround
      exact hround
    | out tp =>
      rw [hexamine] at hround
      exact hround

end NetBSD.Netinet.TcpReass
