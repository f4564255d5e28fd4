import NetBSD.Netinet.TcpReass.Search

/-! What is passed on is the stream.

After a call the first block begins behind `rcv_nxt` again, as a block that begins there was passed on and there is a gap behind
it (`present_delivered`). So over a run of segments that are pieces of a stream, in any order, what has been passed on is the
stream up to `rcv_nxt`, and what was accepted of it beyond waits in the queue (`reass_exact`). -/
namespace NetBSD.Netinet.TcpReass
open List
open Lib Serial
variable {base : Seq} {rest stream : List Byte} {want old : Nat → Prop} {alloc : Option Nat} {tp tp₀ : Tcpcb} {pre qs post : List Ipqent}
  {l : Scan} {pkt b : Block} {lo fin k : Nat}

theorem Holds.shift (h : Holds base rest b) (hk : k ≤ pos base b.seq) :
    pos (base + BitVec.ofNat 32 k) b.seq = pos base b.seq - k ∧ Holds (base + BitVec.ofNat 32 k) (rest.drop k) b := by
  have hroom := h.room
  have hsmall : (BitVec.ofNat 32 k).toNat = k := by
    exact Nat.mod_eq_of_lt (by omega)
  have hbase : pos base (base + BitVec.ofNat 32 k) = k := by
    rw [pos_add, pos_self, hsmall, zero_add]
    rw [pos_self]
    omega
  have hpos : pos (base + BitVec.ofNat 32 k) b.seq = pos base b.seq - k := by
    rw [pos_of_le, hbase]
    rw [hbase]
    exact hk
  refine ⟨hpos, h.len, ?_, ?_⟩
  · omega
  · rw [hpos, drop_drop, Nat.add_sub_cancel' hk]
    exact h.bytes

theorem Laid.shift (h : Laid base rest lo qs fin) (hk : k ≤ lo) : Laid (base + BitVec.ofNat 32 k) (rest.drop k) (lo - k) qs fin := by
  induction qs generalizing lo with
  | nil =>
    have hle : lo ≤ fin := h
    show lo - k ≤ fin
    omega
  | cons q qs ih =>
    obtain ⟨hlo, hq, hqs⟩ := h
    obtain ⟨hpos, hq'⟩ := hq.shift (k := k) (by omega)
    refine ⟨by omega, hq', ?_⟩
    have hnext := ih hqs (by omega)
    apply hnext.mono (by omega) (le_refl _)

/-- What a call leaves: what it passed on is a part of the stream, and the queue is sound behind that. -/
structure Delivered (base : Seq) (rest : List Byte) (want : Nat → Prop) (r : Result) : Prop where
  appended : r.appended <+: rest
  sound : Sound (base + BitVec.ofNat 32 r.appended.length) (rest.drop r.appended.length)
    (fun x => want (r.appended.length + x)) 1 r.tp

theorem Sound.quiet (h : Sound base rest want 1 tp) (ret : BitVec 8) : Delivered base rest want ⟨tp, [], ret⟩ where
  appended := nil_prefix
  sound := by
    have hbase : base + BitVec.ofNat 32 0 = base := add_zero base
    simp only [length_nil, hbase, drop_zero, zero_add]
    exact h

theorem present_delivered (h : Sound base rest want 0 tp) : Delivered base rest want (present tp) := by
  unfold present
  cases hsegq : tp.segq with
  | nil =>
    apply Sound.quiet
    refine ⟨h.books, ?_, h.covers, h.rcvNxt⟩
    rw [hsegq]
    show 1 ≤ 2 ^ 30
    decide
  | cons q qs =>
    have hlaid := h.laid
    rw [hsegq] at hlaid
    obtain ⟨-, hq, hqs⟩ := hlaid
    dsimp only
    by_cases hfirst : q.seq = tp.rcvNxt
    · rw [if_neg (not_not_intro hfirst)]
      have hplace : pos base q.seq = 0 := by rw [hfirst, h.rcvNxt, pos_self]
      have hunlink := unlink_segq h.books (hsegq.trans (nil_append _).symm)
      rw [hplace, zero_add] at hqs
      have hbytes := hq.bytes
      rw [hplace] at hbytes
      have hbooks := h.books.unlink (hsegq.trans (nil_append _).symm)
      refine ⟨hbytes, ⟨⟨hbooks.nodup, hbooks.timeq, hbooks.count⟩, ?_, ?_, ?_⟩⟩
      · rw [hunlink]
        have hshift := hqs.shift (Nat.le_succ q.m.length)
        rw [Nat.add_sub_cancel_left] at hshift
        exact hshift
      · intro x hx
        rw [hunlink]
        obtain ⟨e, he, hhas⟩ := h.covers _ hx
        rw [hsegq] at he
        change pos base e.seq ≤ q.m.length + x ∧ q.m.length + x < pos base e.seq + e.m.length at hhas
        rcases mem_cons.mp he with rfl | he
        · omega
        obtain ⟨hle, hholds⟩ := hqs.mem he
        obtain ⟨hpos, -⟩ := hholds.shift (k := q.m.length) (by omega)
        refine ⟨e, he, ?_⟩
        show pos (base + BitVec.ofNat 32 q.m.length) e.seq ≤ x ∧ x < pos (base + BitVec.ofNat 32 q.m.length) e.seq + e.m.length
        omega
      · rw [h.rcvNxt, hq.len]
    · rw [if_pos hfirst]
      apply Sound.quiet
      refine ⟨h.books, ?_, h.covers, h.rcvNxt⟩
      rw [hsegq]
      refine ⟨?_, hq, hqs⟩
      rw [Nat.one_le_iff_ne_zero, ← pos_self base]
      intro heq
      rw [h.rcvNxt] at hfirst
      exact hfirst ((eq_iff_pos _).mpr heq)

/-! ### A segment -/

theorem Sound.weaken {want' : Nat → Prop} (h : Sound base rest want lo tp) (hwant : ∀ x, want' x → want x) :
    Sound base rest want' lo tp := ⟨h.books, h.laid, fun x hx => h.covers x (hwant x hx), h.rcvNxt⟩

theorem insertIt_sound (h : Placed base rest want alloc tp₀ pre post l) {id : Nat} (hid : l.tiqe.or alloc = some id) :
    ∃ tp', insertIt l alloc = present tp' ∧ tp'.segq = pre ++ ⟨l.pkt, id⟩ :: post ∧ Sound base rest want 0 tp' := by
  have hinsert : insertAfter l.p ⟨l.pkt, id⟩ l.tp.segq = pre ++ ⟨l.pkt, id⟩ :: post := by
    have hnodup := h.books.nodup
    rw [h.segq] at hnodup
    rw [h.p, h.segq, insertAfter_eq hnodup]
  refine ⟨_, ?_, rfl, h.books.insert (e := ⟨l.pkt, id⟩) h.segq (h.fresh id hid), ?_, ?_, h.rcvNxt⟩
  · rw [insertIt, hid]
    dsimp only
    rw [hinsert]
  · exact laid_append.mpr ⟨_, h.front, le_refl _, h.pkt, h.behind⟩
  intro x hx
  rcases h.covers x hx with hin | ⟨e, he, hin⟩
  · exact ⟨⟨l.pkt, id⟩, mem_append_right _ mem_cons_self, hin⟩
  refine ⟨e, ?_, hin⟩
  rw [mem_append]
  rw [mem_append] at he
  tauto

theorem insertIt_delivered (h : Placed base rest want alloc tp₀ pre post l) (h₀ : Sound base rest old 1 tp₀)
    (hwant : ∀ x, want x ↔ old x ∨ pkt.Has base x) :
    Delivered base rest (fun x => old x ∨ alloc.isSome = true ∧ pkt.Has base x) (insertIt l alloc) := by
  cases hid : l.tiqe.or alloc with
  | none =>
    obtain ⟨htiqe, halloc⟩ := Option.or_eq_none_iff.mp hid
    rw [insertIt, hid, h.kept htiqe]
    apply Sound.quiet
    refine h₀.weaken ?_
    rintro x (hx | ⟨hsome, -⟩)
    · exact hx
    · rw [halloc] at hsome
      cases hsome
  | some id =>
    obtain ⟨tp', hrun, -, hsound⟩ := insertIt_sound h hid
    rw [hrun]
    exact present_delivered (hsound.weaken fun x hx => (hwant x).mpr (hx.imp_right And.right))

section Segment
variable (h : Sound base rest old 1 tp) (hpkt : Holds base rest pkt)
include h hpkt

theorem prepend_sound {q : Ipqent} (hsegq : tp.segq = q :: qs) (htouch : pkt.stop = q.seq) : Sound base rest (fun x => old x ∨ pkt.Has base x) 0
      (tp.touch (⟨⟨pkt.seq, q.len + pkt.len, q.flags ||| pkt.flags, pkt.m ++ q.m⟩, q.id⟩ :: qs) q.id) := by
  have hlaid := h.laid
  rw [hsegq] at hlaid
  obtain ⟨-, hq, hqs⟩ := hlaid
  have hplace : pos base q.seq = pos base pkt.seq + pkt.m.length := by rw [← htouch, hpkt.stop_pos]
  refine ⟨h.books.touch (hsegq.trans (nil_append _).symm) _, ⟨Nat.zero_le _, hpkt.join hq hplace (add_comm _ _) _, ?_⟩, ?_, h.rcvNxt⟩
  · rw [length_append, ← add_assoc, ← hplace]
    exact hqs
  have hjoined : ∀ x, q.Has base x ∨ pkt.Has base x → Block.Has base ⟨pkt.seq, q.len + pkt.len, q.flags ||| pkt.flags, pkt.m ++ q.m⟩ x := by
    intro x hx
    unfold Block.Has at hx ⊢
    show pos base pkt.seq ≤ x ∧ x < pos base pkt.seq + (pkt.m ++ q.m).length
    rw [length_append]
    omega
  rintro x (hx | hx)
  · obtain ⟨e, he, hhas⟩ := h.covers x hx
    rw [hsegq] at he
    rcases mem_cons.mp he with rfl | he
    · exact ⟨_, mem_cons_self, hjoined x (.inl hhas)⟩
    · exact ⟨e, mem_cons_of_mem _ he, hhas⟩
  · exact ⟨_, mem_cons_self, hjoined x (.inr hx)⟩

theorem append_sound {front : List Ipqent} {p : Ipqent} (hsegq : tp.segq = front ++ [p]) (htouch : pkt.seq = p.stop) :
    Sound base rest (fun x => old x ∨ pkt.Has base x) 0
      (tp.touch (front ++ [⟨⟨p.seq, p.len + pkt.len, p.flags ||| pkt.flags, p.m ++ pkt.m⟩, p.id⟩]) p.id) := by
  have hlaid := h.laid
  rw [hsegq] at hlaid
  obtain ⟨mid, hfront, hmid, hp, -⟩ := laid_append.mp hlaid
  have hplace : pos base pkt.seq = pos base p.seq + p.m.length := by rw [htouch, hp.stop_pos]
  have hjoin := hp.join hpkt hplace rfl (p.flags ||| pkt.flags)
  refine ⟨h.books.touch (q := p) hsegq _, ?_, ?_, h.rcvNxt⟩
  · apply laid_append.mpr
    exact ⟨mid, hfront.mono (Nat.zero_le 1) (Nat.le_refl mid), hmid, hjoin, hjoin.room⟩
  have hjoined : ∀ x, p.Has base x ∨ pkt.Has base x → Block.Has base ⟨p.seq, p.len + pkt.len, p.flags ||| pkt.flags, p.m ++ pkt.m⟩ x := by
    intro x hx
    unfold Block.Has at hx ⊢
    show pos base p.seq ≤ x ∧ x < pos base p.seq + (p.m ++ pkt.m).length
    rw [length_append]
    omega
  rintro x (hx | hx)
  · obtain ⟨e, he, hhas⟩ := h.covers x hx
    rw [hsegq] at he
    rcases mem_append.mp he with he | he
    · exact ⟨e, mem_append_left _ he, hhas⟩
    · obtain rfl := mem_singleton.mp he
      exact ⟨_, mem_append_right _ mem_cons_self, hjoined x (.inl hhas)⟩
  · exact ⟨_, mem_append_right _ mem_cons_self, hjoined x (.inr hx)⟩

variable (hfresh : ∀ id, alloc = some id → id ∉ tp.segq.map (·.id))
include hfresh

theorem scanning_start : Scanning base rest (fun x => old x ∨ pkt.Has base x) alloc tp [] tp.segq ⟨tp, pkt, none, none⟩ := by
  refine ⟨h.books, rfl, rfl, hfresh, ⟨1, le_refl 1, h.laid, .inl rfl⟩, hpkt, ?_, h.rcvNxt, fun _ => rfl⟩
  rintro x (hx | hx)
  · exact .inr (h.covers x hx)
  · exact .inl hx

theorem placed_last {front : List Ipqent} {p : Ipqent} (hsegq : tp.segq = front ++ [p]) (hbeyond : gt pkt.seq p.stop) :
    Placed base rest (fun x => old x ∨ pkt.Has base x) alloc tp tp.segq [] ⟨tp, pkt, none, some p.id⟩ := by
  have hlaid := h.laid
  rw [hsegq] at hlaid
  obtain ⟨mid, hfront, hmid, hp, -⟩ := laid_append.mp hlaid
  rw [gt_iff hpkt.near hp.near_stop, hp.stop_pos] at hbeyond
  refine ⟨h.books, (append_nil _).symm, ?_, hfresh, ?_, hpkt.room, hpkt, ?_, h.rcvNxt, fun _ => rfl⟩
  · rw [hsegq, getLast?_concat]
    rfl
  · rw [hsegq]
    apply laid_append.mpr
    exact ⟨mid, hfront.mono (Nat.zero_le 1) (Nat.le_refl mid), hmid, hp, hbeyond⟩
  rw [append_nil]
  rintro x (hx | hx)
  · exact .inr (h.covers x hx)
  · exact .inl hx

theorem search_delivered : Delivered base rest (fun x => old x ∨ alloc.isSome = true ∧ pkt.Has base x) (search tp pkt alloc) := by
  have hscan := scan_scanning (scanning_start h hpkt hfresh)
  unfold search
  cases hround : scan tp.segq ⟨tp, pkt, none, none⟩ with
  | next l =>
    rw [hround] at hscan
    exact hscan.elim
  | stop l =>
    rw [hround] at hscan
    obtain ⟨pre, post, hplaced⟩ := hscan
    exact insertIt_delivered hplaced h fun _ => Iff.rfl
  | out tp' =>
    rw [hround] at hscan
    apply Sound.quiet
    exact hscan.weaken fun x hx => hx.imp_right And.right

theorem reassFirst_delivered : Delivered base rest (fun x => old x ∨ alloc.isSome = true ∧ pkt.Has base x) (reassFirst tp pkt alloc) := by
  unfold reassFirst
  cases hsegq : tp.segq with
  | nil => exact search_delivered h hpkt hfresh
  | cons q qs =>
    dsimp only
    by_cases htouch : pkt.stop = q.seq
    · rw [if_pos htouch]
      exact present_delivered ((prepend_sound h hpkt hsegq htouch).weaken fun x hx => hx.imp_right And.right)
    · rw [if_neg htouch]
      exact search_delivered h hpkt hfresh

theorem tcpReass_delivered : Delivered base rest (fun x => old x ∨ alloc.isSome = true ∧ pkt.Has base x) (tcpReass tp pkt alloc) := by
  unfold tcpReass
  rcases eq_nil_or_concat tp.segq with hsegq | ⟨front, p, hsegq⟩
  · rw [hsegq]
    exact reassFirst_delivered h hpkt hfresh
  rw [concat_eq_append] at hsegq
  rw [hsegq, getLast?_concat, dropLast_concat]
  dsimp only
  by_cases htouch : pkt.seq = p.stop
  · rw [if_pos htouch]
    exact present_delivered ((append_sound h hpkt hsegq htouch).weaken fun x hx => hx.imp_right And.right)
  rw [if_neg htouch]
  by_cases hbeyond : gt pkt.seq p.stop
  · rw [if_pos hbeyond]
    exact insertIt_delivered (placed_last h hpkt hfresh hsegq hbeyond) h fun _ => Iff.rfl
  · rw [if_neg hbeyond]
    exact reassFirst_delivered h hpkt hfresh

end Segment

/-! ### Runs -/

/-- A segment is a piece of the stream that begins at `rcv_nxt` or behind it and ends in a window. -/
def Piece (stream : List Byte) (s : State) : Act → Prop
  | .segment seq m _ _ => pos s.tp.rcvNxt seq + m.length < 2 ^ 30 ∧ m <+: stream.drop (s.place seq)
  | .present => True

instance (s : State) (a : Act) : Decidable (Piece stream s a) :=
  match a with
  | .segment .. => inferInstanceAs (Decidable (_ ∧ _))
  | .present => inferInstanceAs (Decidable True)

/-- The byte at a place behind `rcv_nxt` was accepted. -/
def Wanted (accepted : List (Nat × Nat)) (start x : Nat) : Prop := ∃ r ∈ accepted, r.1 ≤ start + x ∧ start + x < r.1 + r.2

structure Inv (stream : List Byte) (isn : Seq) (s : State) : Prop where
  appended : s.appended <+: stream
  rcvNxt : s.tp.rcvNxt = isn + BitVec.ofNat 32 s.appended.length
  sound : Sound s.tp.rcvNxt (stream.drop s.appended.length) (Wanted s.accepted s.appended.length) 1 s.tp

theorem Inv.take {isn : Seq} {s : State} (h : Inv stream isn s) {r : Result} {accepted : List (Nat × Nat)}
    (hr : Delivered s.tp.rcvNxt (stream.drop s.appended.length) (Wanted accepted s.appended.length) r) :
    Inv stream isn { s.take r with accepted := accepted } where
  appended := by
    obtain ⟨t, ht⟩ := h.appended
    have hmore := hr.appended
    rw [← ht, drop_left] at hmore
    rw [← ht]
    exact (prefix_append_right_inj _).mpr hmore
  rcvNxt := by
    show r.tp.rcvNxt = isn + BitVec.ofNat 32 (s.appended ++ r.appended).length
    rw [hr.sound.rcvNxt, h.rcvNxt, length_append, BitVec.ofNat_add, add_assoc]
  sound := by
    have hsound := hr.sound
    rw [← hsound.rcvNxt, drop_drop] at hsound
    show Sound r.tp.rcvNxt (stream.drop (s.appended ++ r.appended).length) (Wanted accepted (s.appended ++ r.appended).length) 1 r.tp
    rw [length_append]
    refine ⟨hsound.books, hsound.laid, ?_, rfl⟩
    rintro x ⟨a, ha, hlo, hhi⟩
    exact hsound.covers x ⟨a, ha, by omega, by omega⟩

theorem Piece.holds {seq : Seq} {s : State} {m : List Byte} {flags : BitVec 8} (hok : Piece stream s (.segment seq m flags alloc)) :
    Holds s.tp.rcvNxt (stream.drop s.appended.length) ⟨seq, BitVec.ofNat 32 m.length, flags, m⟩ := by
  refine ⟨rfl, hok.1, ?_⟩
  rw [drop_drop]
  exact hok.2

theorem fresh_ids (hfresh : ∀ q ∈ qs, q.id ∉ alloc) (id : Nat) (halloc : alloc = some id) : id ∉ qs.map (·.id) := by
  intro hmem
  obtain ⟨q, hq, rfl⟩ := mem_map.mp hmem
  exact hfresh q hq halloc

theorem Inv.next {isn : Seq} {s s' : State} {a : Act} (h : Inv stream isn s) (hok : Piece stream s a)
    (hstep : next s a = some s') : Inv stream isn s' := by
  cases a with
  | segment seq m flags alloc =>
    rw [TcpReass.next] at hstep
    split at hstep
    · next hfresh =>
      obtain rfl := Option.some.inj hstep
      apply h.take
      have hdelivered := tcpReass_delivered h.sound hok.holds (fresh_ids hfresh)
      refine ⟨hdelivered.appended, ⟨hdelivered.sound.books, hdelivered.sound.laid, ?_, hdelivered.sound.rcvNxt⟩⟩
      rintro x ⟨r, hr, hlo, hhi⟩
      apply hdelivered.sound.covers
      split at hr
      · next hsome =>
        rcases mem_cons.mp hr with rfl | hr
        · right
          refine ⟨hsome, ?_⟩
          unfold State.place at hlo hhi
          show pos s.tp.rcvNxt seq ≤ _ ∧ _ < pos s.tp.rcvNxt seq + m.length
          omega
        · exact .inl ⟨r, hr, hlo, hhi⟩
      · exact .inl ⟨r, hr, hlo, hhi⟩
    · cases hstep
  | present =>
    obtain rfl := Option.some.inj hstep
    apply h.take (r := TcpReass.present s.tp)
    apply present_delivered
    exact ⟨h.sound.books, h.sound.laid.mono (Nat.zero_le 1) (Nat.le_refl _), h.sound.covers, h.sound.rcvNxt⟩

theorem reach_inv {isn : Seq} {s : State} (hs : (reassSystem isn).Reach (Piece stream) s) : Inv stream isn s := by
  apply hs.invariant
  · rintro s rfl
    refine ⟨ nil_prefix, (add_zero isn).symm, ⟨⟨.nil, .nil, rfl⟩, ?_, ?_, rfl⟩⟩
    · show 1 ≤ 2 ^ 30
      decide
    · rintro x ⟨r, hr, -⟩
      cases hr
  · intro s a s' h hok hstep
    exact h.next hok hstep

/-- **Reassembly delivers the stream.** After every call in a run of segments that are pieces of a stream, what has been passed
on is the stream up to `rcv_nxt`; the blocks that wait hold the bytes of their ranges and lie in order with gaps between them and
in front of the first; the two queues have the same entries, of which `t_segqlen` is the number; and the bytes that were accepted
have been passed on or wait. -/
theorem reass_exact {isn : Seq} {s : State} (hs : (reassSystem isn).Reach (Piece stream) s) :
    s.appended <+: stream ∧ s.tp.rcvNxt = isn + BitVec.ofNat 32 s.appended.length ∧
    (∀ q ∈ s.tp.segq, q.len = BitVec.ofNat 32 q.m.length ∧ pos s.tp.rcvNxt q.seq + q.m.length < 2 ^ 30 ∧
      q.m <+: stream.drop (s.place q.seq)) ∧
    (∀ q ∈ s.tp.segq, s.appended.length < s.place q.seq) ∧
    s.tp.segq.Pairwise (fun p q => s.place p.seq + p.m.length < s.place q.seq) ∧
    s.tp.timeq.Perm (s.tp.segq.map (·.id)) ∧ (s.tp.segq.map (·.id)).Nodup ∧ s.tp.tSegqlen = s.tp.segq.length ∧
    (∀ r ∈ s.accepted, ∀ x, r.1 ≤ x → x < r.1 + r.2 →
      x < s.appended.length ∨ ∃ q ∈ s.tp.segq, s.place q.seq ≤ x ∧ x < s.place q.seq + q.m.length) := by
  have h := reach_inv hs
  refine ⟨h.appended, h.rcvNxt, ?_, ?_, ?_, h.sound.books.timeq, h.sound.books.nodup, h.sound.books.count, ?_⟩
  · intro q hq
    have hholds := (h.sound.laid.mem hq).2
    have hbytes := hholds.bytes
    rw [drop_drop] at hbytes
    exact ⟨hholds.len, hholds.room, hbytes⟩
  · intro q hq
    exact Nat.lt_add_of_pos_right (h.sound.laid.mem hq).1
  · apply h.sound.laid.pairwise.imp
    unfold State.place
    omega
  intro r hr x hlo hhi
  by_cases hx : x < s.appended.length
  · exact .inl hx
  right
  obtain ⟨q, hq, hhas⟩ := h.sound.covers (x - s.appended.length) ⟨r, hr, by omega, by omega⟩
  refine ⟨q, hq, ?_⟩
  unfold Block.Has at hhas
  unfold State.place
  omega

/-- Seven bytes around the end of the sequence space: out of order, with overlaps on both sides, one without memory, and the end
of the stream on its own. -/
theorem reass_exact_run : ∃ s, (reassSystem 0xfffffffd).Reach (Piece [1, 2, 3, 4, 5, 6, 7]) s ∧
    s.appended = [1, 2, 3, 4, 5, 6, 7] ∧ s.appended <+: [1, 2, 3, 4, 5, 6, 7] ∧
    s.tp.rcvNxt = 0xfffffffd + BitVec.ofNat 32 s.appended.length := by
  obtain ⟨s, hs, hobs⟩ := Option.map_eq_some_iff.mp (show (System.run (System.guarded (Piece [1, 2, 3, 4, 5, 6, 7]) next)
    ⟨⟨0xfffffffd, [], [], 0⟩, [], []⟩
    [.segment 0xfffffffe [2] 0 none, .segment 2 [6] 0 (some 1), .segment 0xffffffff [3] 0 (some 2), .segment 4 [] thFin (some 3),
      .segment 0xfffffffe [2, 3, 4] 0 (some 4), .segment 0 [4, 5, 6, 7] 0 (some 4), .present,
      .segment 0xfffffffd [1, 2, 3] 0 none]).map (·.appended) = some [1, 2, 3, 4, 5, 6, 7] by decide)
  have hreach := System.reach_run (· = ⟨⟨0xfffffffd, [], [], 0⟩, [], []⟩) (Piece [1, 2, 3, 4, 5, 6, 7]) next _ _ rfl hs
  have hexact := reass_exact hreach
  exact ⟨s, hreach, hobs, hexact.1, hexact.2.1⟩

end NetBSD.Netinet.TcpReass
