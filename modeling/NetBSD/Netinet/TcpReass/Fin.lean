import NetBSD.Netinet.TcpReass.Exact

/-! The FIN of a stream.

A block with FIN ends where the stream ends (`Fins`), and when blocks are merged the one that results has FIN if one of them had it:
but not when a segment without FIN covers a block with it, nor when a segment with FIN brings nothing but bytes of a block without it
(`Loses`). In a run without such segments the FIN is returned by the call that completes the stream (`reass_fin`); the comment of
`tcp_reass` promises it for all, and `reass_fin_lost` has a run of each kind where it is not. -/
namespace NetBSD.Netinet.TcpReass
open List Option
open Lib Serial
variable {base : Seq} {rest stream : List Byte} {want old : Nat → Prop} {alloc : Option Nat} {tp tp₀ : Tcpcb} {pre qs : List Ipqent}
  {q : Ipqent} {l : Scan} {pkt p r : Block} {bs cs : List Block} {n : Nat} {fin : Prop}

def Block.HasFin (b : Block) : Prop := b.flags &&& thFin ≠ 0

instance (b : Block) : Decidable b.HasFin := inferInstanceAs (Decidable (_ ≠ _))

theorem fin_or (x y : BitVec 8) : (x ||| y) &&& thFin ≠ 0 ↔ x &&& thFin ≠ 0 ∨ y &&& thFin ≠ 0 := by
  have hzero : x &&& thFin ||| y &&& thFin = 0#8 ↔ x &&& thFin = 0#8 ∧ y &&& thFin = 0#8 := BitVec.or_eq_zero_iff
  rw [← not_and_or, ← not_iff_not, not_not, not_not]
  rw [BitVec.and_or_distrib_right]
  exact hzero

theorem fin_and : ∀ x : BitVec 8, x &&& thFin = thFin ∨ x &&& thFin = 0 := by decide

/-- The stream ends at `n`, where a block with FIN ends, and `fin` says that there is one. -/
structure Fins (base : Seq) (n : Nat) (fin : Prop) (bs : List Block) : Prop where
  ends : ∀ b ∈ bs, b.stopAt base ≤ n ∧ (b.HasFin → b.stopAt base = n)
  some : fin ↔ ∃ b ∈ bs, b.HasFin

theorem Fins.congr (h : Fins base n fin bs) (hmem : ∀ b, b ∈ cs ↔ b ∈ bs) : Fins base n fin cs where
  ends := fun b hb => h.ends b ((hmem b).mp hb)
  some := h.some.trans (exists_congr fun b => and_congr_left fun _ => (hmem b).symm)

theorem exists_blocks (qs : List Ipqent) : (∃ b ∈ qs.map (·.toBlock), b.HasFin) ↔ ∃ q ∈ qs, q.HasFin := by
  simp

theorem Fins.merge (h : Fins base n fin bs) (hmem : ∀ b, b ∈ bs ↔ b = p ∨ b = pkt ∨ b ∈ cs)
    (hstop : r.stopAt base = max (p.stopAt base) (pkt.stopAt base)) (hfin : r.HasFin ↔ p.HasFin ∨ pkt.HasFin) :
    Fins base n fin (r :: cs) := by
  have hp := h.ends p ((hmem p).mpr (.inl rfl))
  have hpkt := h.ends pkt ((hmem pkt).mpr (.inr (.inl rfl)))
  refine ⟨?_, h.some.trans ?_⟩
  · rw [forall_mem_cons, hstop, hfin]
    refine ⟨⟨Nat.max_le.mpr ⟨hp.1, hpkt.1⟩, ?_⟩, fun b hb => h.ends b ((hmem b).mpr (.inr (.inr hb)))⟩
    rintro (hone | hone)
    · rw [hp.2 hone]
      exact max_eq_left hpkt.1
    · rw [hpkt.2 hone]
      exact max_eq_right hp.1
  rw [exists_mem_cons_iff, hfin]
  constructor
  · rintro ⟨b, hb, hone⟩
    rcases (hmem b).mp hb with rfl | rfl | hb
    · exact .inl (.inl hone)
    · exact .inl (.inr hone)
    · exact .inr ⟨b, hb, hone⟩
  · rintro ((hone | hone) | ⟨b, hb, hone⟩)
    · exact ⟨p, (hmem p).mpr (.inl rfl), hone⟩
    · exact ⟨pkt, (hmem pkt).mpr (.inr (.inl rfl)), hone⟩
    · exact ⟨b, (hmem b).mpr (.inr (.inr hb)), hone⟩

theorem Fins.drop (h : Fins base n fin (p :: bs)) (hfin : p.HasFin → ∃ b ∈ bs, b.HasFin) : Fins base n fin bs := by
  refine ⟨fun b hb => h.ends b (mem_cons_of_mem p hb), h.some.trans ?_⟩
  rw [exists_mem_cons_iff]
  exact or_iff_right_of_imp hfin

/-- Before the entries `qs` are looked at: none of them loses a FIN to the segment, nor the segment to one of them. -/
structure FinScan (base : Seq) (n : Nat) (fin : Prop) (qs : List Ipqent) (l : Scan) : Prop where
  fins : Fins base n fin (l.pkt :: l.tp.segq.map (·.toBlock))
  keeps : ∀ q ∈ qs, q.HasFin → ¬l.pkt.HasFin → pos base l.pkt.seq < pos base q.seq → q.stopAt base ≠ l.pkt.stopAt base
  shows : ∀ q ∈ qs, ¬q.HasFin → l.pkt.HasFin → pos base q.seq ≤ pos base l.pkt.seq → pos base l.pkt.seq < q.stopAt base →
    q.stopAt base ≠ l.pkt.stopAt base

def FinRound (base : Seq) (n : Nat) (fin : Prop) (qs : List Ipqent) : Round → Prop
  | .next l => FinScan base n fin qs l
  | .stop l => Fins base n fin (l.pkt :: l.tp.segq.map (·.toBlock))
  | .out tp => Fins base n fin (tp.segq.map (·.toBlock))

theorem mem_unlinked (h : Scanning base rest want alloc tp₀ pre (q :: qs) l) (b : Block) :
    b ∈ l.pkt :: l.tp.segq.map (·.toBlock) ↔ b = l.pkt ∨ b = q.toBlock ∨ b ∈ (l.tp.unlink q.id).segq.map (·.toBlock) := by
  rw [unlink_segq h.books h.segq, h.segq, mem_cons, map_append, map_append, map_cons, mem_append, mem_cons, mem_append]
  tauto

theorem FinScan.freeIpqe (hf : FinScan base n fin (q :: qs) l) (h : Scanning base rest want alloc tp₀ pre (q :: qs) l)
    (hstop : pkt.stopAt base = l.pkt.stopAt base) (hge : q.stopAt base ≤ l.pkt.stopAt base) (hfin : pkt.HasFin ↔ l.pkt.HasFin ∨ q.HasFin)
    (hold : pos base l.pkt.seq ≤ q.stopAt base) (hnew : pos base pkt.seq ≤ q.stopAt base) :
    FinScan base n fin qs ({ l with pkt := pkt }.freeIpqe q) := by
  have hbehind : ∀ e ∈ qs, q.stopAt base < pos base e.seq := by
    obtain ⟨_, -, hqs, -⟩ := h.laid
    exact fun e he => (hqs.2.2.mem he).1
  refine ⟨hf.fins.merge (mem_unlinked h) ?_ hfin, fun e he hefin hpkt hlt => ?_, fun e he _ _ hle => ?_⟩
  · show pkt.stopAt base = _
    rw [hstop, max_eq_left hge]
  · show e.stopAt base ≠ pkt.stopAt base
    rw [hstop]
    exact hf.keeps e (mem_cons_of_mem q he) hefin (fun hone => hpkt (hfin.mpr (.inl hone))) (lt_of_le_of_lt hold (hbehind e he))
  · exact absurd (le_trans hle hnew) (Nat.not_le.mpr (hbehind e he))

theorem examine_fin (h : Scanning base rest want alloc tp₀ pre (q :: qs) l) (hf : FinScan base n fin (q :: qs) l) :
    FinRound base n fin qs (examine q l) := by
  obtain ⟨_, -, hqs, -⟩ := id h.laid
  have hq := hqs.2.1
  have hpkt := h.pkt
  have hqends := hf.fins.ends q.toBlock ((mem_unlinked h _).mpr (.inr (.inl rfl)))
  have hpends := hf.fins.ends l.pkt mem_cons_self
  have hround := examined hpkt hq
  generalize examine q l = round at hround ⊢
  cases hround with
  | append hafter =>
    have hlen : (⟨q.seq, l.pkt.len + q.len, l.pkt.flags ||| q.flags, q.m ++ l.pkt.m⟩ : Block).stopAt base = l.pkt.stopAt base := by
      rw [Block.stopAt] at hafter ⊢
      rw [Block.stopAt, length_append]
      dsimp only
      omega
    refine hf.freeIpqe h hlen ?_ (fin_or _ _) (le_of_eq hafter.symm) (Nat.le_add_right _ _)
    rw [hafter]
    exact Nat.le_add_right _ _
  | past hpast =>
    exact ⟨hf.fins, fun e he => hf.keeps e (mem_cons_of_mem q he), fun e he => hf.shows e (mem_cons_of_mem q he)⟩
  | front hfront => exact hf.fins
  | duplicate hle hlt hge =>
    refine hf.fins.drop fun hone => ⟨q.toBlock, mem_map_of_mem ?_, ?_⟩
    · rw [h.segq]
      exact mem_append_right _ mem_cons_self
    by_contra hnone
    refine hf.shows q mem_cons_self hnone hone hle hlt ?_
    have hend := hpends.2 hone
    omega
  | inside hle hge hless =>
    have hkept : q.HasFin → l.pkt.HasFin := by
      intro hone
      by_contra hnone
      have hend := hqends.2 hone
      exact hf.keeps q mem_cons_self hone hnone (by omega) (by omega)
    exact hf.freeIpqe h rfl hge (or_iff_left_of_imp hkept).symm (le_trans hle (Nat.le_add_right _ _))
      (le_trans hle (Nat.le_add_right _ _))
  | extend hlt hin hover =>
    have hadj := length_extended hpkt hq hin
    have hnone : ¬q.HasFin := by
      intro hone
      have hend := hqends.2 hone
      omega
    refine hf.freeIpqe h ?_ (le_of_lt hover) (or_iff_left hnone).symm (le_of_lt hin) (Nat.le_add_right _ _)
    rw [Block.stopAt, length_append, hadj]
    rw [Block.stopAt] at hover hin ⊢
    rw [Block.stopAt] at hover ⊢
    dsimp only
    omega
  | prepend hlt hin hover =>
    obtain ⟨htrim, htrimseq, htrimstop⟩ := hpkt.trimTail hq hlt hin
    have hflags : (trimTail l.pkt q.toBlock).flags = l.pkt.flags := by
      rw [trimTail]
      split <;> rfl
    refine hf.fins.merge (mem_unlinked h) ?_ ?_
    · rw [max_eq_right (le_of_lt hover)]
      show pos base (trimTail l.pkt q.toBlock).seq + (_ ++ _ : List Byte).length = pos base q.seq + q.m.length
      rw [length_append, htrimseq]
      omega
    · rw [hflags]
      exact fin_or _ _

theorem scan_fin (h : Scanning base rest want alloc tp₀ pre qs l) (hf : FinScan base n fin qs l) : FinRound base n fin [] (scan qs l) := by
  induction qs generalizing pre l with
  | nil => exact hf.fins
  | cons q qs ih =>
    have hround := examine_fin h hf
    have hscanning := examine_scanning h
    rw [scan]
    cases hexamine : examine q l with
    | next l' =>
      rw [hexamine] at hround hscanning
      obtain ⟨pre', hnext⟩ := hscanning
      exact ih hnext hround
    | stop l' =>
      rw [hexamine] at hround
      exact hround
    | out tp =>
      rw [hexamine] at hround
      exact hround

theorem present_quiet (h : Sound base rest want 1 tp) : present tp = ⟨tp, [], 0⟩ := by
  rw [present]
  cases hsegq : tp.segq with
  | nil => rfl
  | cons q qs =>
    have hlaid := h.laid
    rw [hsegq] at hlaid
    refine if_pos fun heq => ?_
    have hfirst := hlaid.1
    rw [heq, h.rcvNxt, pos_self] at hfirst
    omega

theorem insertIt_fin (hplaced : Placed base rest (fun x => old x ∨ pkt.Has base x) alloc tp₀ pre qs l) (halloc : alloc.isSome = true)
    (hfins : Fins base n fin (l.pkt :: l.tp.segq.map (·.toBlock))) :
    ∃ tp', insertIt l alloc = present tp' ∧ Sound base rest old 0 tp' ∧ Fins base n fin (tp'.segq.map (·.toBlock)) := by
  have hsome : (l.tiqe.or alloc).isSome = true := by
    rw [isSome_or, halloc, Bool.or_true]
  obtain ⟨id, hid⟩ := isSome_iff_exists.mp hsome
  obtain ⟨tp', hrun, hsegq, hsound⟩ := insertIt_sound hplaced hid
  refine ⟨tp', hrun, hsound.weaken fun x hx => .inl hx, hfins.congr fun b => ?_⟩
  rw [hsegq, hplaced.segq, map_append, map_append, map_cons, mem_cons, mem_append, mem_append, mem_cons]
  tauto

section Segment
variable (h : Sound base rest old 1 tp) (hpkt : Holds base rest pkt) (hfresh : ∀ id, alloc = some id → id ∉ tp.segq.map (·.id))
  (halloc : alloc.isSome = true) (hfins : Fins base n fin (pkt :: tp.segq.map (·.toBlock)))
include h hpkt hfresh halloc hfins

theorem search_fin (hkeeps : ∀ q ∈ tp.segq, q.HasFin → ¬pkt.HasFin → pos base pkt.seq < pos base q.seq → q.stopAt base ≠ pkt.stopAt base)
    (hshows : ∀ q ∈ tp.segq, ¬q.HasFin → pkt.HasFin → pos base q.seq ≤ pos base pkt.seq → pos base pkt.seq < q.stopAt base →
      q.stopAt base ≠ pkt.stopAt base) :
    ∃ tp', search tp pkt alloc = present tp' ∧ Sound base rest old 0 tp' ∧ Fins base n fin (tp'.segq.map (·.toBlock)) := by
  have hstart := scanning_start h hpkt hfresh
  have hscan := scan_scanning hstart
  have hround := scan_fin hstart ⟨hfins, hkeeps, hshows⟩
  unfold search
  cases hend : scan tp.segq ⟨tp, pkt, none, none⟩ with
  | next l =>
    rw [hend] at hscan
    exact hscan.elim
  | stop l =>
    rw [hend] at hscan hround
    obtain ⟨pre, post, hplaced⟩ := hscan
    exact insertIt_fin hplaced halloc hround
  | out tp' =>
    rw [hend] at hscan hround
    have hlaid := hscan.laid.mono (Nat.zero_le 1) (Nat.le_refl _)
    refine ⟨tp', ?_, ⟨hscan.books, hlaid, fun x hx => hscan.covers x (.inl hx), hscan.rcvNxt⟩, hround⟩
    exact (present_quiet hscan).symm

/-- Everything up to what `present` finds. The exception is a block that the segment is put in front of. -/
theorem tcpReass_fin
    (hkeeps : ∀ q ∈ tp.segq, q.HasFin → ¬pkt.HasFin → pos base pkt.seq < pos base q.seq → q.stopAt base = pkt.stopAt base →
      tp.segq.head? = some q ∧ pkt.stop = q.seq)
    (hshows : ∀ q ∈ tp.segq, ¬q.HasFin → pkt.HasFin → pos base q.seq ≤ pos base pkt.seq → pos base pkt.seq < q.stopAt base →
      q.stopAt base ≠ pkt.stopAt base) :
    ∃ tp', tcpReass tp pkt alloc = present tp' ∧ Sound base rest old 0 tp' ∧ Fins base n fin (tp'.segq.map (·.toBlock)) := by
  have hstop : pos base pkt.stop = pkt.stopAt base := hpkt.stop_pos
  have hreassFirst : ∃ tp', reassFirst tp pkt alloc = present tp' ∧ Sound base rest old 0 tp' ∧
      Fins base n fin (tp'.segq.map (·.toBlock)) := by
    unfold reassFirst
    cases hsegq : tp.segq with
    | nil =>
      refine search_fin h hpkt hfresh halloc hfins (fun q hq => ?_) hshows
      rw [hsegq] at hq
      cases hq
    | cons q qs =>
      dsimp only
      by_cases htouch : pkt.stop = q.seq
      · rw [if_pos htouch]
        refine ⟨_, rfl, (prepend_sound h hpkt hsegq htouch).weaken fun x hx => .inl hx, ?_⟩
        have hplace : pos base q.seq = pos base pkt.seq + pkt.m.length := by rw [← htouch, hpkt.stop_pos]
        have hmerged : Fins base n fin (⟨pkt.seq, q.len + pkt.len, q.flags ||| pkt.flags, pkt.m ++ q.m⟩ :: qs.map (·.toBlock)) := by
          refine hfins.merge (p := q.toBlock) (fun b => ?_) ?_ (fin_or _ _)
          · rw [hsegq, mem_cons, map_cons, mem_cons]
            tauto
          show pos base pkt.seq + (pkt.m ++ q.m).length = max (pos base q.seq + q.m.length) (pos base pkt.seq + pkt.m.length)
          rw [length_append]
          omega
        exact hmerged
      · rw [if_neg htouch]
        refine search_fin h hpkt hfresh halloc hfins (fun e he hefin hnone hlt hstop => ?_) hshows
        obtain ⟨hhead, hfirst⟩ := hkeeps e he hefin hnone hlt hstop
        rw [hsegq] at hhead
        obtain rfl := some.inj hhead
        exact htouch hfirst
  unfold tcpReass
  rcases eq_nil_or_concat tp.segq with hsegq | ⟨front, p, hsegq⟩
  · rw [hsegq]
    exact hreassFirst
  rw [concat_eq_append] at hsegq
  rw [hsegq, getLast?_concat, dropLast_concat]
  dsimp only
  by_cases htouch : pkt.seq = p.stop
  · rw [if_pos htouch]
    refine ⟨_, rfl, (append_sound h hpkt hsegq htouch).weaken fun x hx => .inl hx, ?_⟩
    have hlast : Holds base rest p.toBlock := by
      refine (h.laid.mem ?_).2
      rw [hsegq]
      exact mem_append_right _ mem_cons_self
    have hplace : pos base pkt.seq = pos base p.seq + p.m.length := by rw [htouch, hlast.stop_pos]
    have hmerged : Fins base n fin (⟨p.seq, p.len + pkt.len, p.flags ||| pkt.flags, p.m ++ pkt.m⟩ :: front.map (·.toBlock)) := by
      refine hfins.merge (p := p.toBlock) (fun b => ?_) ?_ (fin_or _ _)
      · rw [hsegq, map_append, mem_cons, mem_append, map_singleton, mem_singleton]
        tauto
      show pos base p.seq + (p.m ++ pkt.m).length = max (pos base p.seq + p.m.length) (pos base pkt.seq + pkt.m.length)
      rw [length_append]
      omega
    refine hmerged.congr fun b => ?_
    rw [Tcpcb.touch, map_append, mem_append, map_singleton, mem_singleton, mem_cons, or_comm]
  rw [if_neg htouch]
  by_cases hbeyond : gt pkt.seq p.stop
  · rw [if_pos hbeyond]
    exact insertIt_fin (placed_last h hpkt hfresh hsegq hbeyond) halloc hfins
  · rw [if_neg hbeyond]
    exact hreassFirst

end Segment

theorem Holds.stopAt_shift (h : Holds base rest pkt) {k : Nat} (hk : k ≤ pos base pkt.seq) :
    pkt.stopAt (base + BitVec.ofNat 32 k) = pkt.stopAt base - k := by
  rw [Block.stopAt, Block.stopAt, (h.shift hk).1]
  omega

/-- `present` returns FIN when it passes on the end of the stream and there is one; and what waits then is without it. -/
theorem present_fin (h : Sound base rest want 0 tp) (hf : Fins base n fin (tp.segq.map (·.toBlock))) :
    ((present tp).ret = thFin ↔ fin ∧ (present tp).appended.length = n) ∧ ((present tp).ret = thFin ∨ (present tp).ret = 0) ∧
    Fins (base + BitVec.ofNat 32 (present tp).appended.length) (n - (present tp).appended.length)
      (fin ∧ (present tp).appended.length ≠ n) ((present tp).tp.segq.map (·.toBlock)) := by
  have hlaid := h.laid
  -- with nothing passed on, what ends at `n` is behind `rcv_nxt`
  have hquiet : (∀ q ∈ tp.segq, 0 < pos base q.seq) → present tp = ⟨tp, [], 0⟩ →
      ((present tp).ret = thFin ↔ fin ∧ (present tp).appended.length = n) ∧ ((present tp).ret = thFin ∨ (present tp).ret = 0) ∧
      Fins (base + BitVec.ofNat 32 (present tp).appended.length) (n - (present tp).appended.length)
        (fin ∧ (present tp).appended.length ≠ n) ((present tp).tp.segq.map (·.toBlock)) := by
    intro hbehind hpresent
    have hnone : ¬(fin ∧ 0 = n) := by
      rintro ⟨hfin, hzero⟩
      obtain ⟨b, hb, hone⟩ := hf.some.mp hfin
      obtain ⟨q, hq, rfl⟩ := mem_map.mp hb
      have hend := (hf.ends q.toBlock hb).2 hone
      have hpos := hbehind q hq
      rw [Block.stopAt] at hend
      omega
    have hbase : base + BitVec.ofNat 32 0 = base := add_zero base
    rw [hpresent]
    dsimp only
    rw [length_nil, hbase, Nat.sub_zero]
    refine ⟨iff_of_false (by decide) hnone, .inr rfl, hf.ends, (and_iff_left_of_imp fun hfin hzero => ?_).trans hf.some⟩
    exact hnone ⟨hfin, hzero⟩
  cases hsegq : tp.segq with
  | nil =>
    refine hquiet (fun q hq => ?_) ?_
    · rw [hsegq] at hq
      cases hq
    · rw [present, hsegq]
  | cons q qs =>
    rw [hsegq] at hlaid
    obtain ⟨-, hq, hqs⟩ := hlaid
    by_cases hfirst : q.seq = tp.rcvNxt
    · have hplace : pos base q.seq = 0 := by rw [hfirst, h.rcvNxt, pos_self]
      have hunlink := unlink_segq h.books (hsegq.trans (nil_append _).symm)
      have hpresent : present tp = ⟨{ tp.unlink q.id with rcvNxt := tp.rcvNxt + q.len }, q.m, q.flags &&& thFin⟩ := by
        rw [present, hsegq]
        exact if_neg (not_not_intro hfirst)
      have hqends := hf.ends q.toBlock (mem_map_of_mem (hsegq ▸ mem_cons_self))
      rw [Block.stopAt, hplace, zero_add] at hqends
      have hlater : ∀ e ∈ qs, q.m.length < pos base e.seq := by
        intro e he
        have hmem := (hqs.mem he).1
        omega
      have hends : ∀ e ∈ qs, e.stopAt base ≤ n ∧ (e.HasFin → e.stopAt base = n) :=
        fun e he => hf.ends e.toBlock (mem_map_of_mem (hsegq ▸ mem_cons_of_mem q he))
      have hsome : fin ↔ q.HasFin ∨ ∃ e ∈ qs, e.HasFin := by
        rw [hf.some, hsegq, map_cons, exists_mem_cons_iff, exists_blocks]
      have hothers : (∃ e ∈ qs, e.HasFin) → q.m.length ≠ n := by
        rintro ⟨e, he, hone⟩ hfull
        have hend := (hends e he).2 hone
        have hpos := hlater e he
        rw [Block.stopAt] at hend
        omega
      rw [hpresent]
      dsimp only
      refine ⟨⟨fun hret => ?_, fun hfin => ?_⟩, fin_and _, ?_⟩
      · have hone : q.HasFin := by
          rw [Block.HasFin, hret]
          decide
        exact ⟨hsome.mpr (.inl hone), hqends.2 hone⟩
      · rcases hsome.mp hfin.1 with hone | hone
        · exact (fin_and _).resolve_right hone
        · exact absurd hfin.2 (hothers hone)
      rw [show ({ tp.unlink q.id with rcvNxt := tp.rcvNxt + q.len } : Tcpcb).segq = qs from hunlink]
      refine ⟨?_, ?_⟩
      · rw [List.forall_mem_map]
        intro e he
        obtain ⟨hle, hend⟩ := hends e he
        have hpos := hlater e he
        rw [(hqs.mem he).2.stopAt_shift (le_of_lt hpos)]
        exact ⟨by omega, fun hone => by rw [hend hone]⟩
      · rw [exists_blocks]
        constructor
        · intro hfin
          exact (hsome.mp hfin.1).resolve_left fun hone => hfin.2 (hqends.2 hone)
        · exact fun hone => ⟨hsome.mpr (.inr hone), hothers hone⟩
    · refine hquiet (fun e he => ?_) ?_
      · rw [Nat.pos_iff_ne_zero, ← pos_self base]
        rw [hsegq] at he
        rcases mem_cons.mp he with rfl | he
        · intro heq
          rw [h.rcvNxt] at hfirst
          exact hfirst ((eq_iff_pos _).mpr heq)
        · have hmem := (hqs.mem he).1
          rw [pos_self]
          omega
      · rw [present, hsegq]
        exact if_pos hfirst

/-! ### Runs -/

/-- A run, with whether a segment with FIN has come. -/
structure FinState where
  s : State
  fin : Bool
  deriving DecidableEq

def State.result (s : State) : Act → Result
  | .segment seq m flags alloc => tcpReass s.tp ⟨seq, BitVec.ofNat 32 m.length, flags, m⟩ alloc
  | .present => TcpReass.present s.tp

def Act.hasFin : Act → Bool
  | .segment _ _ flags _ => flags &&& thFin ≠ 0
  | .present => false

def finNext (t : FinState) (a : Act) : Option FinState := (next t.s a).map fun s => ⟨s, t.fin || a.hasFin⟩

def finSystem (isn : Seq) : System FinState Act := .ofStep (· = ⟨⟨⟨isn, [], [], 0⟩, [], []⟩, false⟩) finNext

/-- A piece of the stream, for which there is memory; one with FIN ends where the stream ends. -/
def FinPiece (stream : List Byte) (s : State) : Act → Prop
  | .segment seq m flags alloc => Piece stream s (.segment seq m flags alloc) ∧ s.place seq + m.length ≤ stream.length ∧
      (flags &&& thFin ≠ 0 → s.place seq + m.length = stream.length) ∧ alloc.isSome = true
  | .present => True

/-- A segment without FIN covers a block with FIN, of which not even a byte is kept; or one with FIN is covered by a block
without. Neither is so when the segment is put in front of the first block. -/
def Loses (s : State) : Act → Prop
  | .segment seq m flags _ => ∃ q ∈ s.tp.segq, q.stop = seq + BitVec.ofNat 32 m.length ∧
      (q.HasFin ∧ flags &&& thFin = 0 ∧ lt seq q.seq ∧ ¬(s.tp.segq.head? = some q ∧ seq + BitVec.ofNat 32 m.length = q.seq) ∨
        ¬q.HasFin ∧ flags &&& thFin ≠ 0 ∧ le q.seq seq ∧ lt seq q.stop)
  | .present => False

def FinKept (stream : List Byte) (t : FinState) (a : Act) : Prop := FinPiece stream t.s a ∧ ¬Loses t.s a

/-- A segment with FIN has come, and the stream has been passed on. -/
def Done (stream : List Byte) (t : FinState) : Prop := t.fin = true ∧ t.s.appended.length = stream.length

instance (s : State) (a : Act) : Decidable (FinPiece stream s a) :=
  match a with
  | .segment .. => inferInstanceAs (Decidable (_ ∧ _))
  | .present => inferInstanceAs (Decidable True)

instance (s : State) (a : Act) : Decidable (Loses s a) :=
  match a with
  | .segment .. => inferInstanceAs (Decidable (∃ q ∈ s.tp.segq, _))
  | .present => inferInstanceAs (Decidable False)

instance (t : FinState) (a : Act) : Decidable (FinKept stream t a) := inferInstanceAs (Decidable (_ ∧ _))
instance (t : FinState) : Decidable (Done stream t) := inferInstanceAs (Decidable (_ ∧ _))

structure FinInv (stream : List Byte) (isn : Seq) (t : FinState) : Prop where
  inv : Inv stream isn t.s
  fins : Fins t.s.tp.rcvNxt (stream.length - t.s.appended.length) (t.fin = true ∧ t.s.appended.length ≠ stream.length)
    (t.s.tp.segq.map (·.toBlock))

variable {isn seq : Seq} {m : List Byte} {flags : BitVec 8} {t t' : FinState} {a : Act}

theorem FinPiece.piece (h : FinPiece stream t.s a) : Piece stream t.s a := by
  cases a with
  | segment seq m flags alloc => exact h.1
  | present => trivial

theorem FinInv.segment (h : FinInv stream isn t) (hok : FinPiece stream t.s (.segment seq m flags alloc)) :
    Fins t.s.tp.rcvNxt (stream.length - t.s.appended.length)
      (t.fin = true ∧ t.s.appended.length ≠ stream.length ∨ (Act.segment seq m flags alloc).hasFin = true)
      (⟨seq, BitVec.ofNat 32 m.length, flags, m⟩ :: t.s.tp.segq.map (·.toBlock)) := by
  obtain ⟨-, hlen, hend, -⟩ := hok
  rw [State.place, add_assoc] at hlen hend
  refine ⟨?_, ?_⟩
  · rw [forall_mem_cons]
    refine ⟨⟨Nat.le_sub_of_add_le' hlen, fun hone => ?_⟩, h.fins.ends⟩
    have hlast := hend hone
    rw [Block.stopAt]
    dsimp only
    omega
  · rw [exists_mem_cons_iff, or_comm, Act.hasFin, decide_eq_true_iff]
    exact or_congr_right h.fins.some

theorem Loses.places (h : FinInv stream isn t) (hok : FinPiece stream t.s (.segment seq m flags alloc))
    (hkept : ¬Loses t.s (.segment seq m flags alloc)) {q : Ipqent} (hq : q ∈ t.s.tp.segq)
    (hstop : q.stopAt t.s.tp.rcvNxt = Block.stopAt t.s.tp.rcvNxt ⟨seq, BitVec.ofNat 32 m.length, flags, m⟩) :
    (q.HasFin → ¬flags &&& thFin ≠ 0 → pos t.s.tp.rcvNxt seq < pos t.s.tp.rcvNxt q.seq →
      t.s.tp.segq.head? = some q ∧ seq + BitVec.ofNat 32 m.length = q.seq) ∧
    (¬q.HasFin → flags &&& thFin ≠ 0 → pos t.s.tp.rcvNxt q.seq ≤ pos t.s.tp.rcvNxt seq →
      q.stopAt t.s.tp.rcvNxt ≤ pos t.s.tp.rcvNxt seq) := by
  have hpkt := hok.piece.holds
  have hholds := (h.inv.sound.laid.mem hq).2
  have hnear : Near t.s.tp.rcvNxt seq := hpkt.near
  have hends : q.stop = seq + BitVec.ofNat 32 m.length := by
    refine (eq_iff_pos t.s.tp.rcvNxt).mpr ?_
    rw [hholds.stop_pos]
    exact hstop.trans hpkt.stop_pos.symm
  constructor
  · intro hone hnone hlt
    by_contra hhead
    exact hkept ⟨q, hq, hends, .inl ⟨hone, not_not.mp hnone, (lt_iff hnear hholds.near).mpr hlt, hhead⟩⟩
  intro hnone hone hle
  by_contra hlt
  refine hkept ⟨q, hq, hends, .inr ⟨hnone, hone, (le_iff hholds.near hnear).mpr hle, (lt_iff hnear hholds.near_stop).mpr ?_⟩⟩
  rw [hholds.stop_pos]
  exact Nat.not_le.mp hlt

theorem FinInv.result (h : FinInv stream isn t) (hok : FinKept stream t a) (hstep : finNext t a = some t') :
    ∃ tp', t.s.result a = TcpReass.present tp' ∧ t'.s.tp = (t.s.result a).tp ∧
      t'.s.appended = t.s.appended ++ (t.s.result a).appended ∧ t'.fin = (t.fin || a.hasFin) ∧
      Sound t.s.tp.rcvNxt (stream.drop t.s.appended.length) (Wanted t.s.accepted t.s.appended.length) 0 tp' ∧
      Fins t.s.tp.rcvNxt (stream.length - t.s.appended.length)
        (t.fin = true ∧ t.s.appended.length ≠ stream.length ∨ a.hasFin = true) (tp'.segq.map (·.toBlock)) := by
  obtain ⟨s', hs', rfl⟩ := map_eq_some_iff.mp hstep
  have hsound := h.inv.sound
  cases a with
  | present =>
    obtain rfl := some.inj hs'
    refine ⟨t.s.tp, rfl, rfl, rfl, rfl, ⟨hsound.books, hsound.laid.mono (Nat.zero_le 1) (Nat.le_refl _), hsound.covers, rfl⟩, ?_⟩
    exact ⟨h.fins.ends, (or_iff_left Bool.false_ne_true).trans h.fins.some⟩
  | segment seq m flags alloc =>
    obtain ⟨hpiece, hkept⟩ := hok
    rw [TcpReass.next] at hs'
    split at hs'
    next hfresh =>
      obtain rfl := some.inj hs'
      obtain ⟨tp', hrun, hafter, hfins⟩ := tcpReass_fin hsound hpiece.piece.holds (fresh_ids hfresh) hpiece.2.2.2 (h.segment hpiece)
        (fun q hq hone hnone hlt hstop => (Loses.places h hpiece hkept hq hstop).1 hone hnone hlt)
        (fun q hq hnone hone hle hlt hstop => Nat.not_le.mpr hlt ((Loses.places h hpiece hkept hq hstop).2 hnone hone hle))
      exact ⟨tp', hrun, rfl, rfl, rfl, hafter, hfins⟩
    next => cases hs'

theorem FinInv.next (h : FinInv stream isn t) (hok : FinKept stream t a) (hstep : finNext t a = some t') :
    FinInv stream isn t' ∧ (¬Done stream t → (t.s.result a).ret = if Done stream t' then thFin else 0) := by
  have hinv : Inv stream isn t'.s := by
    obtain ⟨s', hs', rfl⟩ := map_eq_some_iff.mp hstep
    exact h.inv.next hok.1.piece hs'
  obtain ⟨tp', hrun, htp, happended, hfin, hsound, hfins⟩ := h.result hok hstep
  obtain ⟨hret, hvalue, hafter⟩ := present_fin hsound hfins
  rw [← hrun, ← htp] at hafter
  rw [← hrun] at hret hvalue
  have hlen : t'.s.appended.length = t.s.appended.length + (t.s.result a).appended.length := by
    rw [happended, length_append]
  have hle := hinv.appended.length_le
  have hcame : t'.fin = true ↔ t.fin = true ∨ a.hasFin = true := by
    rw [hfin, Bool.or_eq_true]
  refine ⟨⟨hinv, ?_⟩, fun hopen => ?_⟩
  · have hnext : t'.s.tp.rcvNxt = t.s.tp.rcvNxt + BitVec.ofNat 32 (t.s.result a).appended.length := by
      rw [hinv.rcvNxt, h.inv.rcvNxt, hlen, BitVec.ofNat_add, add_assoc]
    rw [hnext, hlen, Nat.sub_add_eq]
    refine ⟨hafter.ends, Iff.trans ?_ hafter.some⟩
    rw [hcame]
    constructor
    · rintro ⟨hone, hless⟩
      exact ⟨hone.imp_left fun hold => ⟨hold, by omega⟩, by omega⟩
    · rintro ⟨hone, hless⟩
      exact ⟨hone.imp_left And.left, by omega⟩
  have hdone : (t.s.result a).ret = thFin ↔ Done stream t' := by
    rw [hret, Done, hcame]
    constructor
    · rintro ⟨hone, hfull⟩
      exact ⟨hone.imp_left And.left, by omega⟩
    · rintro ⟨hone, hfull⟩
      exact ⟨hone.imp_left fun hold => ⟨hold, fun hthere => hopen ⟨hold, hthere⟩⟩, by omega⟩
  by_cases hend : Done stream t'
  · rw [if_pos hend]
    exact hdone.mpr hend
  · rw [if_neg hend]
    exact hvalue.resolve_left fun hone => hend (hdone.mp hone)

theorem reach_fin (ht : (finSystem isn).Reach (FinKept stream) t) : FinInv stream isn t := by
  refine ht.invariant ?_ fun t a t' h hok hstep => (h.next hok hstep).1
  rintro t rfl
  refine ⟨reach_inv (.init rfl), ?_, ?_⟩
  · intro b hb
    cases hb
  refine iff_of_false (fun hfin => Bool.false_ne_true hfin.1) ?_
  rintro ⟨b, hb, -⟩
  cases hb

/-- **The FIN is not forgotten** in a run in which no call loses one: until a segment with FIN has come and the stream has been passed
on, every call returns 0, and the call that makes it so returns FIN. -/
theorem reass_fin (ht : (finSystem isn).Reach (FinKept stream) t) (hok : FinKept stream t a) (hstep : finNext t a = some t')
    (hopen : ¬Done stream t) : (t.s.result a).ret = if Done stream t' then thFin else 0 :=
  ((reach_fin ht).next hok hstep).2 hopen

/-- Four bytes: the end of the stream with FIN comes first, then what overlaps it without FIN, and the beginning last. -/
theorem reass_fin_run : ∃ t t', (finSystem 0xfffffffe).Reach (FinKept [1, 2, 3, 4]) t ∧
    finNext t (.segment 0xfffffffe [1, 2] 0 (some 3)) = some t' ∧ Done [1, 2, 3, 4] t' ∧
    (t.s.result (.segment 0xfffffffe [1, 2] 0 (some 3))).ret = thFin := by
  have hreach := System.reach_run (· = ⟨⟨⟨0xfffffffe, [], [], 0⟩, [], []⟩, false⟩) (FinKept [1, 2, 3, 4]) finNext _
    [.segment 0 [3, 4] thFin (some 1), .segment 0xffffffff [2, 3] 0 (some 2), .present] rfl
    (show _ = some ⟨⟨⟨0xfffffffe, [⟨⟨0xffffffff, 3, thFin, [2, 3, 4]⟩, 1⟩], [1], 1⟩, [], [(1, 2), (2, 2)]⟩, true⟩ by decide)
  have hstep : finNext ⟨⟨⟨0xfffffffe, [⟨⟨0xffffffff, 3, thFin, [2, 3, 4]⟩, 1⟩], [1], 1⟩, [], [(1, 2), (2, 2)]⟩, true⟩
      (.segment 0xfffffffe [1, 2] 0 (some 3)) = some ⟨⟨⟨2, [], [], 0⟩, [1, 2, 3, 4], [(0, 2), (1, 2), (2, 2)]⟩, true⟩ := by
    decide
  have hfin := reass_fin hreach (by decide) hstep (by decide)
  exact ⟨_, _, hreach, hstep, by decide, hfin⟩

/-- The end of the stream comes without FIN and once more with it, and the FIN is lost: the stream is passed on, and 0 is returned.
Or it comes with FIN, which is lost to a segment of the whole stream without it. -/
theorem reass_fin_lost : (∃ t t', (finSystem 10).Reach (fun t => FinPiece [1, 2] t.s) t ∧ FinPiece [1, 2] t.s (.segment 10 [1] 0 (some 2)) ∧
      finNext t (.segment 10 [1] 0 (some 2)) = some t' ∧ ¬Done [1, 2] t ∧ Done [1, 2] t' ∧
      (t.s.result (.segment 10 [1] 0 (some 2))).ret = 0) ∧
    ∃ t t', (finSystem 10).Reach (fun t => FinPiece [1, 2] t.s) t ∧ FinPiece [1, 2] t.s (.segment 10 [1, 2] 0 (some 2)) ∧
      finNext t (.segment 10 [1, 2] 0 (some 2)) = some t' ∧ ¬Done [1, 2] t ∧ Done [1, 2] t' ∧
      (t.s.result (.segment 10 [1, 2] 0 (some 2))).ret = 0 := by
  have hdropped := System.reach_run (· = ⟨⟨⟨10, [], [], 0⟩, [], []⟩, false⟩) (fun t => FinPiece [1, 2] t.s) finNext _
    [.segment 11 [2] 0 (some 1), .segment 11 [2] thFin (some 2)] rfl
    (show _ = some ⟨⟨⟨10, [⟨⟨11, 1, 0, [2]⟩, 1⟩], [1], 1⟩, [], [(1, 1), (1, 1)]⟩, true⟩ by decide)
  have hswallowed := System.reach_run (· = ⟨⟨⟨10, [], [], 0⟩, [], []⟩, false⟩) (fun t => FinPiece [1, 2] t.s) finNext _
    [.segment 11 [2] thFin (some 1)] rfl
    (show _ = some ⟨⟨⟨10, [⟨⟨11, 1, thFin, [2]⟩, 1⟩], [1], 1⟩, [], [(1, 1)]⟩, true⟩ by decide)
  constructor
  · refine ⟨_, ⟨⟨⟨12, [], [], 0⟩, [1, 2], [(0, 1), (1, 1), (1, 1)]⟩, true⟩, hdropped, ?_⟩
    decide
  · refine ⟨_, ⟨⟨⟨12, [], [], 0⟩, [1, 2], [(0, 2), (1, 1)]⟩, true⟩, hswallowed, ?_⟩
    decide

end NetBSD.Netinet.TcpReass
