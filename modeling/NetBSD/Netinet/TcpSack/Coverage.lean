import NetBSD.Netinet.TcpSack.Runs

/-! The scoreboard loses nothing.

`Heard` keeps what the peer has said since the list of holes was last empty: up to where
it acknowledged, and the blocks it reported. Whatever lies below `rcv_lastsack` and was
not heard of is in a hole (`sackBlock_keeps`, `delHoles_keeps`), so `tcp_sack_adjust` may
skip what is in none (`adjustFrom_spec`).

Two demands on the peer are needed. Its blocks are timely, as in `Runs`. And
`tcp_del_sackholes` reads `th_ack` whether or not the segment is an acknowledgement, so a
segment without `TH_ACK` must not have a number there that looks like a new one
(`Acknowledges`). -/
namespace NetBSD.Netinet.TcpSack
open List Option
open Lib Serial

/-- `x` is one of the numbers from `a` up to `b`. -/
def Within (a b x : Seq) : Prop := pos a x < pos a b

instance (a b x : Seq) : Decidable (Within a b x) := inferInstanceAs (Decidable (_ < _))

/-- The walk from the hole `cur` on, to where `snd_nxt` is set. -/
def adjustFrom (sndNxt rcvLastsack : Seq) (cur : Sackhole) : List Sackhole → Seq
  | [] => if lt sndNxt cur.end then sndNxt else rcvLastsack
  | n :: rest =>
    if lt sndNxt cur.end then sndNxt
    else if ge sndNxt n.start then adjustFrom sndNxt rcvLastsack n rest
    else n.start

/-- `snd_nxt` after `tcp_sack_adjust`. -/
def tcpSackAdjust (tp : Tcpcb) (sndNxt : Seq) : Seq :=
  match tp.sndHoles with
  | [] => sndNxt
  | cur :: rest =>
    -- We're already beyond any SACKed blocks.
    if ge sndNxt tp.rcvLastsack then sndNxt else adjustFrom sndNxt tp.rcvLastsack cur rest

/-- Since the list of holes was last empty. -/
structure Heard where
  acked : Seq
  blocks : List Sackblk
  deriving DecidableEq

/-- One more block; a first hole begins a new list. -/
def Heard.block (h : Heard) (thAck : Seq) (s : Scan) (sack : Sackblk) : Heard :=
  if s.holes = [] then ⟨thAck, [sack]⟩ else {h with blocks := sack :: h.blocks}

/-- The blocks of an option, as far as `sackBlocks` gets. -/
def Heard.option (thAck : Seq) : Heard → Scan → List Sackblk → Heard
  | h, _, [] => h
  | h, s, sack :: rest => match sackBlock thAck s sack with
    | .next s' => Heard.option thAck (h.block thAck s sack) s' rest
    | .enobufs _ | .spin => h.block thAck s sack

def Heard.options (th : Tcphdr) : Heard → Board → List (List (BitVec 8)) → Heard
  | h, _, [] => h
  | h, b, cp :: rest => match tcpSackOption b th cp with
    | some b' => Heard.options th (Heard.option th.thAck h ⟨b, [], b.tp.sndHoles⟩ (tSackBlock b th cp)) b' rest
    | none => h

/-- A segment, after which `snd_una` is `una`. Blocks that end there or before say
nothing of what is left. -/
def Heard.segment (h : Heard) (b : Board) (seg : Segment) (una : Seq) : Heard :=
  let h := h.options seg.th {b with pool := seg.pool} seg.options
  ⟨if seg.th.ackFlag then smax h.acked (ackedBy b seg.th) else h.acked, h.blocks.filter fun k => gt k.right una⟩

/-! ### Runs -/

/-- A connection, with `snd_nxt` and what the peer said. -/
structure Conn where
  b : Board
  sndNxt : Seq
  heard : Heard
  deriving DecidableEq

inductive Event where
  /-- A step of the scoreboard. -/
  | board (a : Action)
  /-- `tcp_output` or a timer sets `snd_nxt` within the window. -/
  | setNxt (sndNxt : Seq)
  /-- `tcp_output` calls `tcp_sack_adjust`. -/
  | adjust

def Conn.step (c : Conn) : Event → Option Conn
  | .board (.ack seg) => (TcpSack.step c.b (.ack seg)).map fun b =>
      ⟨b, if lt c.sndNxt b.tp.sndUna then b.tp.sndUna else c.sndNxt, c.heard.segment c.b seg b.tp.sndUna⟩
  | .board a => (TcpSack.step c.b a).map fun b => {c with b := b}
  | .setNxt sndNxt =>
    if pos c.b.tp.sndUna sndNxt ≤ pos c.b.tp.sndUna c.b.tp.sndMax then some {c with sndNxt := sndNxt} else none
  | .adjust => some {c with sndNxt := tcpSackAdjust c.b.tp c.sndNxt}

/-- Nothing on the scoreboard, and `snd_nxt` within the window. -/
def Conn.Idle (c : Conn) : Prop :=
  TcpSack.Idle c.b ∧ pos c.b.tp.sndUna c.sndNxt ≤ pos c.b.tp.sndUna c.b.tp.sndMax

def connSystem : System Conn Event := .ofStep Conn.Idle Conn.step

/-- The segment is an acknowledgement, or its `th_ack` is not after `snd_una`. -/
def Acknowledges (b : Board) (th : Tcphdr) : Prop := th.ackFlag = true ∨ ackedBy b th = b.tp.sndUna

instance (b : Board) (th : Tcphdr) : Decidable (Acknowledges b th) := inferInstanceAs (Decidable (_ ∨ _))

/-- What a segment must satisfy. -/
def Sound (c : Conn) : Event → Prop
  | .board (.ack seg) => Timely c.b (.ack seg) ∧ Acknowledges c.b seg.th
  | _ => True

instance (c : Conn) : (e : Event) → Decidable (Sound c e)
  | .board (.ack seg) => inferInstanceAs (Decidable (Timely c.b (.ack seg) ∧ Acknowledges c.b seg.th))
  | .board .free | .board (.send _) | .board (.rexmit _ _) | .setNxt _ | .adjust => inferInstanceAs (Decidable True)

/-! ### Blocks -/

section Keeps
variable {base : Seq} {sack : Sackblk} {x : Seq}

/-- `x` is in one of the holes, measured from `base`. -/
def HoleAt (base : Seq) (holes : List Sackhole) (x : Seq) : Prop :=
  ∃ p ∈ holes, pos base p.start ≤ pos base x ∧ pos base x < pos base p.end

def BlockAt (base : Seq) (sack : Sackblk) (x : Seq) : Prop :=
  pos base sack.left ≤ pos base x ∧ pos base x < pos base sack.right

def NearHoles (base : Seq) (holes : List Sackhole) : Prop := ∀ p ∈ holes, Near base p.start ∧ Near base p.end

theorem holeAt_append {a b : List Sackhole} : HoleAt base (a ++ b) x ↔ HoleAt base a x ∨ HoleAt base b x := by
  simp [HoleAt, mem_append, or_and_right, exists_or]

theorem holeAt_cons {p : Sackhole} {rest : List Sackhole} : HoleAt base (p :: rest) x ↔
    (pos base p.start ≤ pos base x ∧ pos base x < pos base p.end) ∨ HoleAt base rest x := by
  simp [HoleAt, mem_cons, or_and_right, exists_or, exists_eq_left]

/-- The walk takes nothing from the holes but what the block reports. -/
theorem walkHoles_keeps (hb : Sane base sack) (b : Board) (before cur : List Sackhole) (hn : NearHoles base cur) :
    (walkHoles sack b before cur).Holds fun s => ∀ x, HoleAt base (before ++ cur) x → BlockAt base sack x ∨ HoleAt base s.holes x := by
  induction cur generalizing before with
  | nil => exact fun x hx => .inr hx
  | cons cur rest ih =>
    obtain ⟨hstart, hend⟩ := hn cur mem_cons_self
    have hlt := hb.lt
    -- The hole under the cursor is replaced by `new`; the others stay.
    have hreplace (s : Scan) (new : List Sackhole) (hs : s.holes = before ++ (new ++ rest))
        (hnew : ∀ x, pos base cur.start ≤ pos base x → pos base x < pos base cur.end →
          BlockAt base sack x ∨ HoleAt base new x) (x : Seq) (hx : HoleAt base (before ++ cur :: rest) x) :
        BlockAt base sack x ∨ HoleAt base s.holes x := by
      rw [hs, holeAt_append, holeAt_append]
      rw [holeAt_append, holeAt_cons] at hx
      rcases hx with hx | ⟨h1, h2⟩ | hx
      · exact .inr (.inl hx)
      · exact (hnew x h1 h2).imp_right fun h => .inr (.inl h)
      · exact .inr (.inr (.inr hx))
    rw [walkHoles]
    simp only [le_iff hb.right hstart, ge_iff hb.left hend, le_iff hb.left hstart, ge_iff hb.right hend, lt_iff hstart hb.left, gt_iff hend hb.right]
    split_ifs with hbelow hbeyond hleft hall hall hmid
    · exact fun x hx => .inr hx
    · have hrest := ih (before ++ [cur]) fun p hp => hn p (mem_cons_of_mem _ hp)
      refine hrest.imp fun s hs x hx => hs x ?_
      rwa [append_assoc, singleton_append]
    · refine hreplace _ [] rfl fun y h1 h2 => .inl ?_
      unfold BlockAt
      omega
    · refine hreplace _ [{cur with start := sack.right, rxmit := smax cur.rxmit sack.right}] rfl fun y h1 h2 => ?_
      rw [holeAt_cons]
      unfold BlockAt
      by_cases hy : pos base y < pos base sack.right
      · exact .inl (by omega)
      · exact .inr (.inl (by simp only; omega))
    · refine hreplace _ [{cur with «end» := sack.left, rxmit := smin cur.rxmit sack.left}]
        (append_assoc ..) fun y h1 h2 => ?_
      rw [holeAt_cons]
      unfold BlockAt
      by_cases hy : pos base y < pos base sack.left
      · exact .inr (.inl (by simp only; omega))
      · exact .inl (by omega)
    · obtain ⟨b', hsame, -, heq⟩ | ⟨b', hsame, -, heq⟩ :=
        sackInserthole_cases b sack.right cur.end (before ++ [cur]) rest
      · rw [heq]
        refine hreplace _ [cur] (append_assoc ..) fun y h1 h2 => .inr ?_
        exact ⟨cur, mem_cons_self, h1, h2⟩
      rw [heq]
      refine hreplace _ [{cur with «end» := sack.left, rxmit := smin cur.rxmit sack.left},
        ⟨sack.right, cur.end, smax cur.rxmit sack.right⟩] (append_assoc ..) fun y h1 h2 => ?_
      rw [holeAt_cons, holeAt_cons]
      unfold BlockAt
      by_cases hy : pos base y < pos base sack.left
      · exact .inr (.inl (by simp only; omega))
      by_cases hy' : pos base y < pos base sack.right
      · exact .inl (by omega)
      · exact .inr (.inr (.inl (by simp only; omega)))
    · omega

/-- The peer said that it has `x`. -/
def Heard.Has (h : Heard) (base max x : Seq) : Prop :=
  pos base x < pos base h.acked ∨
  ∃ k ∈ h.blocks, Within k.left k.right x ∧ pos base x < pos base k.right ∧ pos base k.right ≤ pos base max

/-- Everything from `una` up to `last` was heard of or is in a hole. -/
structure Cover (base una last max : Seq) (h : Heard) (holes : List Sackhole) : Prop where
  acked : pos base una ≤ pos base h.acked
  below : pos base h.acked ≤ pos base last
  all : ∀ x, pos base una ≤ pos base x → pos base x < pos base last → h.Has base max x ∨ HoleAt base holes x

theorem BlockAt.within (hb : Sane base sack) (h : BlockAt base sack x) : Within sack.left sack.right x := by
  obtain ⟨h1, h2⟩ := h
  have hx := pos_of_le h1
  have hr := pos_of_le hb.lt.le
  unfold Within
  omega

theorem Heard.Has.cons {h : Heard} {max : Seq} (hx : h.Has base max x) : Heard.Has {h with blocks := sack :: h.blocks} base max x := by
  rcases hx with hx | ⟨k, hk, hx⟩
  · exact .inl hx
  · exact .inr ⟨k, mem_cons_of_mem _ hk, hx⟩

theorem Cover.block {una last last' max : Seq} {h : Heard} {holes holes' : List Sackhole} (hb : Sane base sack)
    (hmax : pos base sack.right ≤ pos base max) (hc : Cover base una last max h holes) (hle : pos base last ≤ pos base last')
    (hkeep : ∀ x, HoleAt base holes x → BlockAt base sack x ∨ HoleAt base holes' x)
    (hnew : ∀ x, pos base last ≤ pos base x → pos base x < pos base last' → BlockAt base sack x ∨ HoleAt base holes' x) :
    Cover base una last' max {h with blocks := sack :: h.blocks} holes' where
  acked := hc.acked
  below := hc.below.trans hle
  all x hlo hhi := by
    have hblock : BlockAt base sack x ∨ HoleAt base holes' x →
        Heard.Has {h with blocks := sack :: h.blocks} base max x ∨ HoleAt base holes' x := by
      rintro (hx | hx)
      · exact .inl (.inr ⟨sack, mem_cons_self, hx.within hb, hx.2, hmax⟩)
      · exact .inr hx
    by_cases hx : pos base x < pos base last
    · rcases hc.all x hlo hx with hx | hx
      · exact .inl hx.cons
      · exact hblock (hkeep x hx)
    · exact hblock (hnew x (by omega) hhi)

theorem Ordered.nearHoles {last : Seq} {holes : List Sackhole} {lo : Nat} (hlast : Near base last) (ho : Ordered base last lo holes) : NearHoles base holes := by
  intro p hp
  obtain ⟨_, h2, _, _, h5⟩ := ho.mem hp
  have hend := near_of_le hlast h5
  exact ⟨near_of_le hend h2.le, hend⟩

theorem Mid.nearHoles {una ack last : Seq} {holes : List Sackhole} (hlast : Near base last)
    (h : Mid base una ack last holes) : NearHoles base holes := by
  cases h with
  | ordered h => exact h.nearHoles hlast
  | straddled hs he ha h =>
    have hack := near_of_le hlast ha
    intro p hp
    rcases mem_cons.mp hp with rfl | hp
    · exact ⟨hs ▸ hack, near_of_le hack he⟩
    · exact h.nearHoles hlast p hp

/-- `appendHole` on a list that the walk has left as it should be. -/
theorem appendHole_keeps {una last max : Seq} {h : Heard} {holes : List Sackhole} {s : Scan} (hb : Sane base sack)
    (hmax : pos base sack.right ≤ pos base max) (hlast : Near base s.b.tp.rcvLastsack)
    (heq : s.b.tp.rcvLastsack = last) (hc : Cover base una last max h holes)
    (hkeep : ∀ x, HoleAt base holes x → BlockAt base sack x ∨ HoleAt base s.holes x) :
    (appendHole sack s).Holds fun t =>
      Cover base una t.b.tp.rcvLastsack max {h with blocks := sack :: h.blocks} t.holes := by
  subst heq
  have hold : Cover base una s.b.tp.rcvLastsack max {h with blocks := sack :: h.blocks} s.holes :=
    hc.block hb hmax le_rfl hkeep fun y h1 h2 => by omega
  unfold appendHole
  split
  · next hgap =>
    obtain ⟨b', hsame, -, heq⟩ | ⟨b', hsame, -, heq⟩ :=
      sackInserthole_cases s.b s.b.tp.rcvLastsack sack.left s.holes []
    · rw [heq]
      show Cover base una b'.tp.rcvLastsack max _ (s.holes ++ [])
      rw [hsame.last, append_nil]
      exact hold
    rw [heq]
    obtain ⟨last, hraise, hpos⟩ := raiseLastsack_eq sack
      ⟨b', s.holes, [⟨s.b.tp.rcvLastsack, sack.left, s.b.tp.rcvLastsack⟩]⟩ hb.right (hsame.last ▸ hlast)
    rw [hsame.last] at hpos
    show (Outcome.next (raiseLastsack sack _)).Holds _
    rw [hraise]
    refine hc.block hb hmax (by simp only; omega) (fun y hy => ?_) fun y h1 h2 => ?_
    · exact (hkeep y hy).imp_right fun hy => holeAt_append.mpr (.inl hy)
    by_cases hy : pos base y < pos base sack.left
    · exact .inr ⟨_, mem_append_right _ mem_cons_self, h1, hy⟩
    · simp only at h2
      exact .inl ⟨by omega, by omega⟩
  · next hgap =>
    rw [lt_iff hlast hb.left] at hgap
    obtain ⟨last, hraise, hpos⟩ := raiseLastsack_eq sack s hb.right hlast
    rw [hraise]
    refine hc.block hb hmax (by simp only; omega) hkeep fun y h1 h2 => .inl ?_
    simp only at h2
    exact ⟨by omega, by omega⟩

end Keeps

section Options
variable {base ack : Seq} {b₀ : Board} {sack : Sackblk} {h : Heard} {s : Scan}

/-- What was heard goes with the scan. -/
def ScanCover (base : Seq) (b₀ : Board) (h : Heard) (s : Scan) : Prop :=
  s.holes ≠ [] → Cover base b₀.tp.sndUna s.b.tp.rcvLastsack b₀.tp.sndMax h s.holes

theorem sackBlock_keeps (hb : BlockOk base ack b₀ sack) (hok : ScanOk base ack b₀ s) (hc : ScanCover base b₀ h s) :
    (sackBlock ack s sack).Holds (ScanCover base b₀ (h.block ack s sack)) := by
  have hsame := updateFack_same sack s.b
  unfold sackBlock Heard.block
  generalize updateFack sack s.b = b at *
  split
  · obtain ⟨b', -, -, heq⟩ | ⟨b', -, -, heq⟩ := sackInserthole_cases b ack sack.left [] []
    · rw [heq]
      exact fun hne => absurd rfl hne
    -- Below the hole everything is acknowledged, above it is the block.
    rw [heq]
    refine fun _ => ⟨hb.una, hb.above.le, fun x hlo hhi => ?_⟩
    by_cases hx : pos base x < pos base ack
    · exact .inl (.inl hx)
    by_cases hx' : pos base x < pos base sack.left
    · exact .inr ⟨_, mem_cons_self, not_lt.mp hx, hx'⟩
    · have hblock : BlockAt base sack x := ⟨not_lt.mp hx', hhi⟩
      exact .inl (.inr ⟨sack, mem_cons_self, hblock.within hb.toSane, hhi, hb.below⟩)
  · next hne =>
    have hlast := hok.last hne
    have hnear : Near base s.b.tp.rcvLastsack := near_of_le hb.near hlast.2
    have hmid := walkHoles_mid hb (b := b) hnear hok.mid
    have hwalk := walkHoles_keeps hb.toSane b s.before s.cur fun p hp =>
      hok.mid.nearHoles hnear p (mem_append_right _ hp)
    have hcover := hc hne
    generalize walkHoles sack b s.before s.cur = o at hmid hwalk
    cases o with
    | spin => exact hwalk
    | next t =>
      have hl : t.b.tp.rcvLastsack = s.b.tp.rcvLastsack := hmid.2.1.last.trans hsame.last
      have happ := appendHole_keeps hb.toSane hb.below (hl ▸ hnear) hl hcover hwalk
      exact happ.imp fun t' ht' (_ : t'.holes ≠ []) => ht'
    | enobufs t =>
      have hl : t.b.tp.rcvLastsack = s.b.tp.rcvLastsack := hmid.2.1.last.trans hsame.last
      intro _
      rw [hl]
      exact hcover.block hb.toSane hb.below le_rfl hwalk fun y h1 h2 => by omega

theorem sackBlocks_keeps (blocks : List Sackblk) (hb : ∀ sack ∈ blocks, BlockOk base ack b₀ sack) {t : Scan}
    (hok : ScanOk base ack b₀ s) (hc : ScanCover base b₀ h s) (ht : sackBlocks ack s blocks = some t) :
    ScanCover base b₀ (Heard.option ack h s blocks) t := by
  induction blocks generalizing s h with
  | nil => exact some.inj ht ▸ hc
  | cons sack rest ih =>
    have hone := sackBlock_spec (hb sack mem_cons_self) hok
    have hkeep := sackBlock_keeps (hb sack mem_cons_self) hok hc
    rw [sackBlocks] at ht
    rw [Heard.option]
    cases ho : sackBlock ack s sack with
    | next s' =>
      rw [ho] at hone hkeep ht
      exact ih (fun x hx => hb x (mem_cons_of_mem _ hx)) hone hkeep ht
    | enobufs s' =>
      rw [ho] at hkeep ht
      exact some.inj ht ▸ hkeep
    | spin =>
      rw [ho] at hone
      exact hone.elim

/-- What was heard goes with the board. -/
def BoardCover (b₀ : Board) (h : Heard) (b : Board) : Prop :=
  ScanCover (horizon b₀.tp.sndMax) b₀ h ⟨b, [], b.tp.sndHoles⟩

theorem options_keeps {b b' : Board} {th : Tcphdr} (options : List (List (BitVec 8)))
    (hw : pos b₀.tp.sndUna b₀.tp.sndMax < window) (ht : TimelyLefts b₀ th options) (hok : BoardOk th b₀ b)
    (hc : BoardCover b₀ h b) (hs : tcpDooptions b th options = some b') :
    BoardCover b₀ (Heard.options th h b options) b' := by
  induction options generalizing b h with
  | nil => exact some.inj hs ▸ hc
  | cons cp rest ih =>
    obtain ⟨b₁, heq, hok₁⟩ := tcpSackOption_spec hw ht mem_cons_self hok
    have hblocks := tSackBlock_congr hok.conn th cp
    obtain ⟨t, hsome, htb⟩ : ∃ t, sackBlocks th.thAck ⟨b, [], b.tp.sndHoles⟩ (tSackBlock b th cp) = some t ∧ t.close = b₁ :=
      map_eq_some_iff.mp heq
    have hkeep := sackBlocks_keeps _ (fun sack hs => (blockOk_of_mem hw ht mem_cons_self (hblocks ▸ hs)).2) hok hc hsome
    rw [tcpDooptions, foldlM_cons, heq] at hs
    rw [Heard.options, heq]
    exact ih (fun cp hcp => ht cp (mem_cons_of_mem _ hcp)) hok₁ (htb ▸ hkeep) hs

end Options

section Ack
variable {base base' una last lastack max : Seq} {h : Heard} {holes : List Sackhole}

theorem Cover.rebase (hc : Cover base una last max h holes) (hb : pos base base' ≤ pos base una)
    (hstart : ∀ p ∈ holes, pos base base' ≤ pos base p.start) : Cover base' una last max h holes := by
  have hshift (y : Seq) (hy : pos base base' ≤ pos base y) : pos base' y = pos base y - pos base base' := pos_of_le hy
  have hacked := hc.acked
  have hbelow := hc.below
  have huna := hshift una hb
  have hl := hshift last (by omega)
  have ha := hshift h.acked (by omega)
  have hlt : pos base last < 2 ^ 32 := (last - base).isLt
  refine ⟨by omega, by omega, fun x hlo hhi => ?_⟩
  have hx : pos base x = pos base base' + pos base' x := pos_rebase (by omega)
  rcases hc.all x (by omega) (by omega) with (hx' | ⟨k, hk, hw, hkr, hkm⟩) | ⟨p, hp, h1, h2⟩
  · exact .inl (.inl (by omega))
  · have hr := hshift k.right (by omega)
    have hm := hshift max (by omega)
    exact .inl (.inr ⟨k, hk, hw, by omega, by omega⟩)
  · have hs := hshift p.start (hstart p hp)
    have he := hshift p.end (by omega)
    exact .inr ⟨p, hp, by omega, by omega⟩

theorem Cover.unbase (hc : Cover una una last max h holes) (hlast : pos una last ≤ pos una max)
    (hmax : pos base una + pos una max < 2 ^ 32) (hend : ∀ p ∈ holes, pos una p.end ≤ pos una last) :
    Cover base una last max h holes := by
  have hshift (y : Seq) (hy : pos una y ≤ pos una max) : pos base y = pos base una + pos una y := pos_rebase (by omega)
  have hbelow := hc.below
  have hl := hshift last hlast
  have ha := hshift h.acked (by omega)
  have hm := hshift max le_rfl
  refine ⟨by omega, by omega, fun x hlo hhi => ?_⟩
  have hx : pos una x = pos base x - pos base una := pos_of_le hlo
  have hzero : pos una una = 0 := pos_self una
  rcases hc.all x (by omega) (by omega) with (hx' | ⟨k, hk, hw, hkr, hkm⟩) | ⟨p, hp, h1, h2⟩
  · exact .inl (.inl (by omega))
  · have hr := hshift k.right hkm
    exact .inl (.inr ⟨k, hk, hw, by omega, by omega⟩)
  have hpe := hend p hp
  have he := hshift p.end (by omega)
  have hs := hshift p.start (by omega)
  exact .inr ⟨p, hp, by omega, by omega⟩

theorem delHoles_keeps {x : Seq} (hn : NearHoles base holes) (hack : Near base lastack) (hx : HoleAt base holes x) :
    pos base x < pos base lastack ∨ HoleAt base (delHoles lastack holes).1 x := by
  induction holes with
  | nil => exact .inr hx
  | cons cur rest ih =>
    obtain ⟨hstart, hend⟩ := hn cur mem_cons_self
    rw [delHoles]
    simp only [le_iff hend hack, lt_iff hstart hack]
    by_cases hcov : pos base cur.end ≤ pos base lastack
    · rw [if_pos hcov]
      rcases holeAt_cons.mp hx with hx | hx
      · exact .inl (by omega)
      · exact ih (fun p hp => hn p (mem_cons_of_mem _ hp)) hx
    rw [if_neg hcov]
    by_cases hpart : pos base cur.start < pos base lastack
    · rw [if_pos hpart, holeAt_cons]
      rcases holeAt_cons.mp hx with hx | hx
      · by_cases hlt : pos base x < pos base lastack
        · exact .inl hlt
        · exact .inr (.inl (by simp only; omega))
      · exact .inr (.inr hx)
    · rw [if_neg hpart]
      exact .inr hx

theorem Cover.del (hc : Cover base una last max h holes) (hn : NearHoles base holes) (hlast : Near base last)
    (hack : pos base lastack ≤ pos base last) (ackFlag : Bool) (hflag : ackFlag = true ∨ lastack = una) :
    Cover base una last max {h with acked := if ackFlag then smax h.acked lastack else h.acked} (delHoles lastack holes).1 := by
  have hacked := hc.acked
  have hbelow := hc.below
  have hmax := pos_smax (near_of_le hlast hbelow) (near_of_le hlast hack)
  have hle : pos base h.acked ≤ pos base (if ackFlag then smax h.acked lastack else h.acked) := by
    split <;> omega
  refine ⟨hacked.trans hle, ?_, fun x hlo hhi => ?_⟩
  · show pos base (if ackFlag then smax h.acked lastack else h.acked) ≤ pos base last
    split <;> omega
  rcases hc.all x hlo hhi with (hx | hx) | hx
  · exact .inl (.inl (hx.trans_le hle))
  · exact .inl (.inr hx)
  rcases delHoles_keeps hn (near_of_le hlast hack) hx with hx | hx
  · rcases hflag with rfl | rfl
    · refine .inl (.inl ?_)
      simp only [if_true]
      omega
    · omega
  · exact .inr hx

theorem Cover.prune (hc : Cover una una last max h holes) (hmax : Near una max) :
    Cover una una last max {h with blocks := h.blocks.filter fun k => gt k.right una} holes := by
  refine ⟨hc.acked, hc.below, fun x hlo hhi => ?_⟩
  rcases hc.all x hlo hhi with (hx | ⟨k, hk, hw, hkr, hkm⟩) | hx
  · exact .inl (.inl hx)
  · have hgt : gt k.right una := (gt_iff_pos ..).mpr ⟨by omega, near_of_le hmax hkm⟩
    exact .inl (.inr ⟨k, mem_filter.mpr ⟨hk, by simpa using hgt⟩, hw, hkr, hkm⟩)
  · exact .inr hx

end Ack

/-! ### Segments -/

section Segments
variable {b b' : Board} {h : Heard} {seg : Segment}

/-- The board between two segments, measured from `snd_una`. -/
def Tracks (b : Board) (h : Heard) : Prop :=
  b.tp.sndHoles ≠ [] → Cover b.tp.sndUna b.tp.sndUna b.tp.rcvLastsack b.tp.sndMax h b.tp.sndHoles

theorem options_ignored {th : Tcphdr} (hi : ∀ cp, IgnoresOption b th cp) (options : List (List (BitVec 8))) : Heard.options th h b options = h := by
  induction options with
  | nil => rfl
  | cons cp rest ih =>
    have hnil : tSackBlock b th cp = [] := if_pos (hi cp)
    rw [Heard.options, tcpSackOption_nil hnil, hnil]
    exact ih

theorem Ordered.lo_le {base last : Seq} {lo : Nat} {holes : List Sackhole} (ho : Ordered base last lo holes) (hne : holes ≠ []) :
    lo ≤ pos base last := by
  obtain ⟨p, rest, rfl⟩ := exists_cons_of_ne_nil hne
  obtain ⟨h1, h2, _, _, h5, _⟩ := ho
  omega

/-- What was heard once `tcp_del_sackholes` is through. -/
def Heard.ack (h : Heard) (b : Board) (th : Tcphdr) : Heard :=
  {h with acked := if th.ackFlag then smax h.acked (ackedBy b th) else h.acked}

/-- The options of an acknowledgement in range, then the deletion. -/
theorem del_tracks_inRange (hinv : Inv b) (ht : Tracks b h) (hl : TimelyLefts b seg.th seg.options)
    (hack : Acknowledges b seg.th) (hr : InRange b seg.th)
    (hs : tcpDooptions {b with pool := seg.pool} seg.th seg.options = some b') :
    Tracks (tcpDelSackholes b' seg.th) ((Heard.options seg.th h {b with pool := seg.pool} seg.options).ack b seg.th) := by
  have hwin : window = 2 ^ 30 := rfl
  have hw := hinv.win
  have hok₀ := hinv.boardOk seg.th seg.pool
  obtain ⟨b₁, heq, hok⟩ := tcpDooptions_spec seg.options hw hl hok₀
  obtain rfl : b₁ = b' := some.inj (heq.symm.trans hs)
  have huna := @pos_horizon b.tp.sndUna b.tp.sndMax (by omega)
  have hcover₀ : BoardCover b h {b with pool := seg.pool} := by
    intro hne
    exact (ht hne).unbase (hinv.last hne) (by omega) fun p hp => (hinv.ordered.mem hp).2.2.2.2
  have hcover := options_keeps seg.options hw hl hok₀ hcover₀ hs
  have hacked : ackedBy b₁ seg.th = ackedBy b seg.th := ackedBy_congr hok.conn seg.th
  have hsuna : b₁.tp.sndUna = b.tp.sndUna := hok.conn.una
  have hsmax : b₁.tp.sndMax = b.tp.sndMax := hok.conn.max
  intro hne
  have hne₁ := holes_ne_of_delHoles hne
  have hlast := hok.last hne₁
  have hnear : Near (horizon b.tp.sndMax) b₁.tp.rcvLastsack :=
    near_of_le (near_horizon (by rw [pos_self]; omega)) hlast.2
  have hposack := pos_of_le hr.pos_le
  have hnearack : Near (horizon b.tp.sndMax) seg.th.thAck := near_horizon (by omega)
  have hdel := delHoles_mid hnear hnearack hok.mid
  rw [← hr.ackedBy_eq, ← hacked] at hdel
  have hle := hdel.lo_le hne
  rw [hacked] at hdel hle
  have hc := (hcover hne₁).del (hok.mid.nearHoles hnear) hnear hle seg.th.ackFlag hack
  have hackpos := @pos_horizon seg.th.thAck b.tp.sndMax (by omega)
  have hfinal := hc.rebase le_rfl fun p hp => by
    have := (hdel.mem hp).1
    rw [hr.ackedBy_eq] at this
    omega
  show Cover b₁.tp.sndUna b₁.tp.sndUna b₁.tp.rcvLastsack b₁.tp.sndMax _ (delHoles (ackedBy b₁ seg.th) b₁.tp.sndHoles).1
  rw [hsuna, hsmax, hacked]
  exact hfinal

theorem del_tracks (hinv : Inv b) (ht : Tracks b h) (th : Tcphdr) (hack : Acknowledges b th)
    (hinv' : InvAbove (tcpDelSackholes b th) th) : Tracks (tcpDelSackholes b th) (h.ack b th) := by
  intro hne
  have hne₀ := holes_ne_of_delHoles hne
  have hnear := hinv.near_last hne₀
  exact (ht hne₀).del (hinv.ordered.nearHoles hnear) hnear (hinv'.2.lo_le hne) th.ackFlag hack

theorem advanceUna_tracks (hinv : InvAbove b seg.th) (ht : Tracks b h)
    (hacked : b.tp.sndHoles ≠ [] → seg.th.ackFlag = true → pos b.tp.sndUna (ackedBy b seg.th) ≤ pos b.tp.sndUna h.acked) :
    Tracks (advanceUna b seg) {h with blocks := h.blocks.filter fun k => gt k.right (advanceUna b seg).tp.sndUna} := by
  have hinv' := advanceUna_inv hinv
  have hnear : Near (advanceUna b seg).tp.sndUna (advanceUna b seg).tp.sndMax := by
    have hw := hinv'.win
    unfold window at hw
    unfold Near
    omega
  suffices hcover : Tracks (advanceUna b seg) h from fun hne => (hcover hne).prune hnear
  unfold advanceUna
  split
  · next hadv =>
    obtain ⟨_, hflag, hgt, _⟩ := hadv
    intro hne
    have hle := hacked hne hflag
    have hord := hinv.2
    rw [ackedBy, if_pos hgt] at hle hord
    have hc := ht hne
    have hzero : pos b.tp.sndUna b.tp.sndUna = 0 := pos_self _
    have hup : Cover b.tp.sndUna seg.th.thAck b.tp.rcvLastsack b.tp.sndMax h b.tp.sndHoles :=
      ⟨hle, hc.below, fun x hlo hhi => hc.all x (by omega) hhi⟩
    exact hup.rebase le_rfl fun p hp => (hord.mem hp).1
  · exact ht

theorem ack_le {base last : Seq} {th : Tcphdr} (hlast : Near base last) (hack : pos base (ackedBy b th) ≤ pos base last)
    (hbelow : pos base (h.ack b th).acked ≤ pos base last) (hflag : th.ackFlag = true) :
    pos base (ackedBy b th) ≤ pos base (h.ack b th).acked := by
  have heq : (h.ack b th).acked = smax h.acked (ackedBy b th) := if_pos hflag
  by_cases hgt : gt h.acked (ackedBy b th)
  · rw [heq, smax, if_pos hgt] at hbelow ⊢
    exact ((gt_iff (near_of_le hlast hbelow) (near_of_le hlast hack)).mp hgt).le
  · rw [heq, smax, if_neg hgt]

theorem segment_tracks (hinv : Inv b) (ht : Tracks b h) (hl : TimelyLefts b seg.th seg.options)
    (hack : Acknowledges b seg.th) (hs : tcpInputAck b seg = some b') : Tracks b' (h.segment b seg b'.tp.sndUna) := by
  obtain ⟨b₁, hopt, hret⟩ := bind_eq_some_iff.mp hs
  obtain rfl := some.inj hret
  have hpool : Inv {b with pool := seg.pool} := ⟨hinv.win, hinv.count, hinv.ordered, hinv.last, hinv.enabled⟩
  -- Whatever the deletion leaves, `snd_una` may move up to the acknowledgement.
  have hadvance {b₂ : Board} {h₂ : Heard} (hinv₂ : InvAbove b₂ seg.th) (ht₂ : Tracks b₂ (h₂.ack b seg.th))
      (heq : ackedBy b₂ seg.th = ackedBy b seg.th) : Tracks (advanceUna b₂ seg)
        {h₂.ack b seg.th with blocks := h₂.blocks.filter fun k => gt k.right (advanceUna b₂ seg).tp.sndUna} := by
    refine advanceUna_tracks hinv₂ ht₂ fun hne hflag => ?_
    have hle := hinv₂.2.lo_le hne
    rw [heq] at hle ⊢
    exact ack_le (hinv₂.1.near_last hne) hle (ht₂ hne).below hflag
  by_cases he : b.tp.sackEnabled = true
  · by_cases hr : InRange b seg.th
    · obtain ⟨b₂, heq, hok⟩ := tcpDooptions_spec seg.options hinv.win hl (hinv.boardOk seg.th seg.pool)
      obtain rfl : b₂ = b₁ := some.inj (heq.symm.trans hopt)
      have he₂ : b₂.tp.sackEnabled = true := hok.conn.enabled.trans he
      rw [if_pos he₂]
      exact hadvance (tcpDelSackholes_boardOk hinv.win hr hok he₂) (del_tracks_inRange hinv ht hl hack hr hopt)
        (ackedBy_congr hok.conn seg.th)
    have hi : ∀ cp, IgnoresOption {b with pool := seg.pool} seg.th cp := by
      intro cp
      by_contra hi
      exact hr ⟨fun hlt => hi (.inr (.inr (.inl hlt))), fun hgt => hi (.inr (.inr (.inr hgt)))⟩
    rw [tcpDooptions_ignored hi] at hopt
    obtain rfl := some.inj hopt
    have hdel := hpool.tcpDelSackholes seg.th he
    rw [if_pos he, Heard.segment, options_ignored hi]
    exact hadvance hdel (del_tracks hpool ht seg.th hack hdel) rfl
  · have hnil : b.tp.sndHoles = [] := by
      by_contra hne
      exact he (hinv.enabled hne)
    have hi : ∀ cp, IgnoresOption {b with pool := seg.pool} seg.th cp := fun cp => .inl (.inl (by simpa using he))
    rw [tcpDooptions_ignored hi] at hopt
    obtain rfl := some.inj hopt
    rw [if_neg he]
    refine fun hne => absurd ?_ hne
    unfold advanceUna
    split <;> exact hnil

end Segments

/-! ### `tcp_sack_adjust` skips nothing -/

theorem adjustFrom_spec {base last sndNxt : Seq} (hlast : Near base last) (hnxt : pos base sndNxt < pos base last)
    (rest : List Sackhole) (cur : Sackhole) (lo : Nat) (ho : Ordered base last lo (cur :: rest)) :
    pos base sndNxt ≤ pos base (adjustFrom sndNxt last cur rest) ∧
    pos base (adjustFrom sndNxt last cur rest) ≤ pos base last ∧
    ∀ p ∈ cur :: rest, pos base p.end ≤ pos base sndNxt ∨ pos base (adjustFrom sndNxt last cur rest) ≤ pos base p.start ∨
      adjustFrom sndNxt last cur rest = sndNxt := by
  have hn : Near base sndNxt := near_of_le hlast hnxt.le
  induction rest generalizing cur lo with
  | nil =>
    obtain ⟨_, h2, _, _, h5, _⟩ := ho
    rw [adjustFrom]
    simp only [lt_iff hn (near_of_le hlast h5)]
    split_ifs with hin
    · exact ⟨le_rfl, hnxt.le, fun p _ => .inr (.inr rfl)⟩
    refine ⟨hnxt.le, le_rfl, fun p hp => .inl ?_⟩
    obtain rfl := mem_singleton.mp hp
    exact not_lt.mp hin
  | cons n rest ih =>
    obtain ⟨h1, h2, _, _, h5, hrest⟩ := ho
    have hstart : Near base n.start := near_of_le hlast (by have := hrest.mem mem_cons_self; omega)
    rw [adjustFrom]
    simp only [lt_iff hn (near_of_le hlast h5), ge_iff hn hstart]
    split_ifs with hin hbeyond
    · exact ⟨le_rfl, hnxt.le, fun p _ => .inr (.inr rfl)⟩
    · obtain ⟨hge, hle, hall⟩ := ih n _ hrest
      refine ⟨hge, hle, fun p hp => ?_⟩
      rcases mem_cons.mp hp with rfl | hp
      · exact .inl (not_lt.mp hin)
      · exact hall p hp
    have hmem := hrest.mem mem_cons_self
    refine ⟨by omega, by omega, fun p hp => ?_⟩
    rcases mem_cons.mp hp with rfl | hp
    · exact .inl (not_lt.mp hin)
    -- The next hole and those behind it start no earlier.
    rcases mem_cons.mp hp with rfl | hp
    · exact .inr (.inl le_rfl)
    obtain ⟨_, g2, _, _, _, htail⟩ := hrest
    have := (htail.mem hp).1
    exact .inr (.inl (by omega))

/-- The scoreboard keeps track, in the sender's own terms. -/
structure Tracked (c : Conn) : Prop where
  /-- What the peer has not said it has is in a hole. -/
  missing : c.b.tp.sndHoles ≠ [] → ∀ x, Within c.b.tp.sndUna c.b.tp.rcvLastsack x →
    ¬Within c.b.tp.sndUna c.heard.acked x → (∀ k ∈ c.heard.blocks, ¬Within k.left k.right x) →
    ∃ p ∈ c.b.tp.sndHoles, Within p.start p.end x
  /-- `snd_nxt` moves forward, over nothing that is in a hole. -/
  adjust : le c.sndNxt (tcpSackAdjust c.b.tp c.sndNxt) ∧
    ∀ x, Within c.sndNxt (tcpSackAdjust c.b.tp c.sndNxt) x → ∀ p ∈ c.b.tp.sndHoles, ¬Within p.start p.end x

/-- The invariant of a connection. -/
structure ConnInv (c : Conn) : Prop where
  inv : Inv c.b
  tracks : Tracks c.b c.heard
  nxt : pos c.b.tp.sndUna c.sndNxt ≤ pos c.b.tp.sndUna c.b.tp.sndMax

theorem Tracks.missing {b : Board} {h : Heard} (ht : Tracks b h) (hne : b.tp.sndHoles ≠ []) (x : Seq)
    (hx : Within b.tp.sndUna b.tp.rcvLastsack x) (hacked : ¬Within b.tp.sndUna h.acked x)
    (hblocks : ∀ k ∈ h.blocks, ¬Within k.left k.right x) : ∃ p ∈ b.tp.sndHoles, Within p.start p.end x := by
  have hzero : pos b.tp.sndUna b.tp.sndUna = 0 := pos_self _
  rcases (ht hne).all x (by omega) hx with (hx' | ⟨k, hk, hw, -⟩) | ⟨p, hp, h1, h2⟩
  · exact absurd hx' hacked
  · exact absurd hw (hblocks k hk)
  have hxs := pos_of_le h1
  have hes := pos_of_le (h1.trans h2.le)
  refine ⟨p, hp, ?_⟩
  unfold Within
  omega

theorem ConnInv.adjust {c : Conn} (h : ConnInv c) : pos c.b.tp.sndUna c.sndNxt ≤ pos c.b.tp.sndUna (tcpSackAdjust c.b.tp c.sndNxt) ∧
    pos c.b.tp.sndUna (tcpSackAdjust c.b.tp c.sndNxt) ≤ pos c.b.tp.sndUna c.b.tp.sndMax ∧
    ∀ p ∈ c.b.tp.sndHoles, pos c.b.tp.sndUna p.end ≤ pos c.b.tp.sndUna c.sndNxt ∨
      pos c.b.tp.sndUna (tcpSackAdjust c.b.tp c.sndNxt) ≤ pos c.b.tp.sndUna p.start ∨
      tcpSackAdjust c.b.tp c.sndNxt = c.sndNxt := by
  have hord := h.inv.ordered
  have hlastmax := h.inv.last
  have hnear := h.inv.near_last
  have hw := h.inv.win
  have hnxt := h.nxt
  unfold tcpSackAdjust
  generalize hholes : c.b.tp.sndHoles = holes at *
  cases holes with
  | nil => exact ⟨le_rfl, hnxt, fun _ _ => .inr (.inr rfl)⟩
  | cons cur rest =>
    have hlast := hnear (cons_ne_nil _ _)
    have hsn : Near c.b.tp.sndUna c.sndNxt := by
      unfold window at hw
      unfold Near
      omega
    by_cases hge : ge c.sndNxt c.b.tp.rcvLastsack
    · simp only [if_pos hge]
      exact ⟨le_rfl, hnxt, fun _ _ => .inr (.inr trivial)⟩
    simp only [if_neg hge]
    rw [ge_iff hsn hlast] at hge
    obtain ⟨h1, h2, h3⟩ := adjustFrom_spec hlast (not_le.mp hge) rest cur 0 hord
    exact ⟨h1, h2.trans (hlastmax (cons_ne_nil _ _)), h3⟩

theorem ConnInv.tracked {c : Conn} (h : ConnInv c) : Tracked c := by
  obtain ⟨hge, hle, hskip⟩ := h.adjust
  have hw := h.inv.win
  have hwin : window = 2 ^ 30 := rfl
  have hnear (y : Seq) (hy : pos c.b.tp.sndUna y ≤ pos c.b.tp.sndUna c.b.tp.sndMax) : Near c.b.tp.sndUna y := by
    unfold Near
    omega
  refine ⟨h.tracks.missing, (le_iff (hnear _ h.nxt) (hnear _ hle)).mpr hge, fun x hx p hp hpx => ?_⟩
  -- Everything is measured from `snd_una`: `x` is above `snd_nxt`, and the hole is in order.
  obtain ⟨-, hse, -, -, hpe⟩ := h.inv.ordered.mem hp
  have hlast := h.inv.last (ne_nil_of_mem hp)
  have hnxt := pos_of_le hge
  have hpos := pos_of_le hse.le
  unfold Within at hx hpx
  have hxn : pos c.b.tp.sndUna x = pos c.b.tp.sndUna c.sndNxt + pos c.sndNxt x := pos_rebase (by omega)
  have hxp : pos c.b.tp.sndUna x = pos c.b.tp.sndUna p.start + pos p.start x := pos_rebase (by omega)
  rcases hskip p hp with hbefore | hafter | hsame
  · omega
  · omega
  · rw [hsame, pos_self] at hx
    omega

theorem tcpInputAck_una {b b' : Board} {seg : Segment} (hinv : Inv b) (ht : TimelyLefts b seg.th seg.options) (hs : tcpInputAck b seg = some b') :
    b'.tp.sndMax = b.tp.sndMax ∧ pos b.tp.sndUna b'.tp.sndUna ≤ pos b.tp.sndUna b.tp.sndMax := by
  obtain ⟨b₁, heq, hok⟩ := tcpDooptions_spec seg.options hinv.win ht (hinv.boardOk seg.th seg.pool)
  rw [tcpInputAck, heq] at hs
  obtain rfl := some.inj hs
  have hconn : SameConn b (if b₁.tp.sackEnabled then tcpDelSackholes b₁ seg.th else b₁) := by
    split <;> exact ⟨hok.conn.enabled, hok.conn.una, hok.conn.max, hok.conn.tpMax, hok.conn.globalMax⟩
  generalize (if b₁.tp.sackEnabled then tcpDelSackholes b₁ seg.th else b₁) = b₂ at hconn
  unfold advanceUna
  split
  · next hadv =>
    obtain ⟨_, _, hgt, hle⟩ := hadv
    rw [hconn.una] at hgt
    rw [hconn.max] at hle
    have hr : InRange b seg.th := ⟨fun hlt => by unfold lt at hlt; unfold gt at hgt; omega,
      fun hgt' => by unfold gt at hgt'; unfold le at hle; omega⟩
    exact ⟨hconn.max, hr.pos_le⟩
  · exact ⟨hconn.max, by rw [hconn.una, pos_self]; exact Nat.zero_le _⟩

theorem holeAt_rexmit {base x rxmit : Seq} {holes : List Sackhole} {i : Nat} {p : Sackhole} (hp : holes[i]? = some p)
    (hx : HoleAt base holes x) : HoleAt base (holes.set i {p with rxmit := rxmit}) x := by
  obtain ⟨q, hq, hqx⟩ := hx
  obtain ⟨j, hj⟩ := mem_iff_getElem?.mp hq
  have hi : i < holes.length := (List.getElem?_eq_some_iff.mp hp).1
  by_cases hij : i = j
  · subst hij
    obtain rfl : p = q := some.inj (hp.symm.trans hj)
    exact ⟨{p with rxmit := rxmit}, mem_iff_getElem?.mpr ⟨i, by simp [hi]⟩, hqx⟩
  · exact ⟨q, mem_iff_getElem?.mpr ⟨j, by rw [getElem?_set_ne hij]; exact hj⟩, hqx⟩

theorem step_connInv {c c' : Conn} {e : Event} (h : ConnInv c) (he : Sound c e) (hs : c.step e = some c') : ConnInv c' := by
  match e with
  | .setNxt nxt =>
    simp only [Conn.step] at hs
    split at hs
    · next hn =>
      obtain rfl := some.inj hs
      exact ⟨h.inv, h.tracks, hn⟩
    · simp at hs
  | .adjust =>
    obtain rfl := some.inj hs
    exact ⟨h.inv, h.tracks, h.adjust.2.1⟩
  | .board (.ack seg) =>
    obtain ⟨b, hb, rfl⟩ := map_eq_some_iff.mp hs
    refine ⟨step_inv h.inv he.1 hb, segment_tracks h.inv h.tracks he.1 he.2 hb, ?_⟩
    obtain ⟨hmax, huna⟩ := tcpInputAck_una h.inv he.1 hb
    have hwin : window = 2 ^ 30 := rfl
    have hw := h.inv.win
    have hnxt := h.nxt
    have hup := pos_of_le huna
    simp only [hmax]
    split
    · rw [pos_self]
      exact Nat.zero_le _
    · next hlt =>
      rw [lt_iff (show Near c.b.tp.sndUna c.sndNxt by unfold Near; omega) (show Near c.b.tp.sndUna b.tp.sndUna by unfold Near; omega)] at hlt
      have hle := pos_of_le (not_lt.mp hlt)
      omega
  | .board .free =>
    obtain rfl : {c with b := tcpFreeSackholes c.b} = c' := some.inj hs
    exact ⟨tcpFreeSackholes_inv h.inv, fun hne => absurd rfl hne, h.nxt⟩
  | .board (.send len) =>
    obtain ⟨b, hb, rfl⟩ := map_eq_some_iff.mp hs
    have hinv := @step_inv _ _ (.send len) h.inv trivial hb
    simp only [step] at hb
    split at hb
    · next hlen =>
      obtain rfl := some.inj hb
      have hwin : window = 2 ^ 30 := rfl
      have hnat : (BitVec.ofNat 32 len).toNat = len := by
        exact Nat.mod_eq_of_lt (by omega)
      have hadd : pos c.b.tp.sndUna (c.b.tp.sndMax + BitVec.ofNat 32 len) = pos c.b.tp.sndUna c.b.tp.sndMax + len := by
        rw [pos_add (by omega), hnat]
      have hnxt := h.nxt
      refine ⟨hinv, fun hne => ⟨(h.tracks hne).acked, (h.tracks hne).below, fun x hlo hhi => ?_⟩, ?_⟩
      · rcases (h.tracks hne).all x hlo hhi with (hx | ⟨k, hk, hw, hkr, hkm⟩) | hx
        · exact .inl (.inl hx)
        · exact .inl (.inr ⟨k, hk, hw, hkr, by simp only [hadd]; omega⟩)
        · exact .inr hx
      · simp only [hadd]
        omega
    · simp at hb
  | .board (.rexmit i len) =>
    obtain ⟨b, hb, rfl⟩ := map_eq_some_iff.mp hs
    have hinv := @step_inv _ _ (.rexmit i len) h.inv trivial hb
    simp only [step] at hb
    split at hb
    · simp at hb
    · next p hp =>
      split at hb
      · obtain rfl := some.inj hb
        have hne : c.b.tp.sndHoles ≠ [] := by
          intro hnil
          simp [hnil] at hp
        refine ⟨hinv, fun _ => ⟨(h.tracks hne).acked, (h.tracks hne).below, fun x hlo hhi => ?_⟩, h.nxt⟩
        exact ((h.tracks hne).all x hlo hhi).imp_right (holeAt_rexmit hp)
      · simp at hb

/-- In every run whose segments are timely and do acknowledge where they seem to, nothing
that is missing is lost. -/
theorem scoreboard_loses_nothing {c : Conn} (h : connSystem.Reach Sound c) : Tracked c := by
  have hinv : ConnInv c := h.invariant
    (fun c ⟨⟨hw, hh, hn⟩, hnxt⟩ => ⟨⟨hw, by simp [hh, hn], by rw [hh]; trivial, fun hne => absurd hh hne,
      fun hne => absurd hh hne⟩, fun hne => absurd hh hne, hnxt⟩)
    (fun c e c' hc he hs => step_connInv hc he hs)
  exact hinv.tracked

/-- `snd_nxt` at 150 of the 300 bytes in flight, after a duplicate ACK with [100, 200). -/
def halfSent : Conn := ⟨inFlight, 150, ⟨0, []⟩⟩

theorem halfSent_idle : halfSent.Idle := ⟨inFlight_idle, by decide⟩

theorem scoreboard_loses_nothing_timelyAck : ∃ c, connSystem.Reach Sound c ∧
    c.b.tp.sndHoles = [⟨0, 100, 0⟩] ∧ tcpSackAdjust c.b.tp c.sndNxt = 200 ∧ Tracked c := by
  have hr : connSystem.Reach Sound {halfSent with
      b := {inFlight with
        tp := {inFlight.tp with
          sndFack := 200, rcvLastsack := 200, sndHoles := [⟨0, 100, 0⟩], sndNumholes := 1}
        tcpSackGlobalholes := 1}
      heard := ⟨0, [⟨100, 200⟩]⟩} :=
    System.reach_run Conn.Idle Sound Conn.step halfSent [.board (.ack timelyAck)] halfSent_idle (by decide)
  exact ⟨_, hr, rfl, by decide, scoreboard_loses_nothing hr⟩

/-- A late block puts a hole up to `51 - 2^31` behind all data. [220, 300) then splits it
and leaves [200, 220) twice, [200, 220) takes one of the two, and from 150 `snd_nxt` is
moved over the other one to 300. -/
theorem adjust_skips_hole_lateAck : ¬ ∀ c, connSystem.Reachable c → Tracked c := by
  intro h
  have hr : connSystem.Reachable {halfSent with
      b := {inFlight with
        tp := {inFlight.tp with
          sndFack := 300, rcvLastsack := 300
          sndHoles := [⟨0, 100, 0⟩, ⟨300, 0x80000033, 300⟩, ⟨200, 220, 200⟩], sndNumholes := 3}
        tcpSackGlobalholes := 3}
      heard := ⟨0, [⟨200, 220⟩, ⟨220, 300⟩, ⟨0x80000033, 50⟩, ⟨100, 200⟩]⟩} :=
    System.reach_run Conn.Idle (fun _ _ => True) Conn.step halfSent
      [.board (.ack timelyAck), .board (.ack lateAck), .board (.ack (dupAck [0, 0, 0, 220, 0, 0, 1, 44])),
        .board (.ack (dupAck [0, 0, 0, 200, 0, 0, 0, 220]))] halfSent_idle (by decide)
  exact (h _ hr).adjust.2 210 (by decide) ⟨200, 220, 200⟩ (by simp) (by decide)

end NetBSD.Netinet.TcpSack
