import NetBSD.Netinet.TcpSack.Scoreboard

/-! The scoreboard stays well formed.

Sequence numbers are measured by their distance from a base before everything the
scoreboard compares (`Lib/Serial.lean`). While an option is processed the base lies
`2^31 - 1` before `snd_max`, so that the left edges of the blocks, which may lie far
below the window, are measured too; between segments it is `snd_una`.

The holes are `Ordered` at all times but one: a first hole built from a block that
straddles the cumulative acknowledgement ends before it starts. It stays at the head
of the list and `tcp_del_sackholes` removes it (`Mid`). -/
namespace NetBSD.Netinet.TcpSack
open List
open Lib Serial

/-- Holes in increasing order from distance `lo` on and up to `last`, none of them
empty, each retransmitted up to a point within it. -/
def Ordered (base last : Seq) : Nat → List Sackhole → Prop
  | _, [] => True
  | lo, h :: rest => lo ≤ pos base h.start ∧ pos base h.start < pos base h.end ∧
      pos base h.start ≤ pos base h.rxmit ∧ pos base h.rxmit ≤ pos base h.end ∧
      pos base h.end ≤ pos base last ∧ Ordered base last (pos base h.end) rest

/-- Where the last of the holes ends. -/
def reach (base : Seq) : Nat → List Sackhole → Nat
  | lo, [] => lo
  | _, h :: rest => reach base (pos base h.end) rest

section Ordered
variable {base last last' : Seq} {lo lo' : Nat} {holes : List Sackhole}

theorem Ordered.mono (h : Ordered base last lo holes) (hlo : lo' ≤ lo)
    (hlast : pos base last ≤ pos base last') : Ordered base last' lo' holes := by
  induction holes generalizing lo lo' with
  | nil => trivial
  | cons x rest ih =>
    obtain ⟨h1, h2, h3, h4, h5, h6⟩ := h
    exact ⟨hlo.trans h1, h2, h3, h4, h5.trans hlast, ih h6 le_rfl⟩

theorem ordered_append {a b : List Sackhole} :
    Ordered base last lo (a ++ b) ↔ Ordered base last lo a ∧ Ordered base last (reach base lo a) b := by
  induction a generalizing lo with
  | nil => simp [Ordered, reach]
  | cons x rest ih => simp [cons_append, Ordered, reach, ih, and_assoc]

theorem Ordered.reach_le (h : Ordered base last lo holes) (hne : holes ≠ []) : reach base lo holes ≤ pos base last := by
  induction holes generalizing lo with
  | nil => exact absurd rfl hne
  | cons x rest ih =>
    obtain ⟨_, _, _, _, h5, h6⟩ := h
    cases rest with
    | nil => exact h5
    | cons y ys => exact ih h6 (cons_ne_nil _ _)

theorem Ordered.rebase {base' : Seq} (h : Ordered base last lo holes) (hb : pos base base' ≤ lo) :
    Ordered base' last (lo - pos base base') holes := by
  induction holes generalizing lo with
  | nil => trivial
  | cons x rest ih =>
    obtain ⟨h1, h2, h3, h4, h5, h6⟩ := h
    have hs : pos base' x.start = pos base x.start - pos base base' := pos_of_le (by omega)
    have he : pos base' x.end = pos base x.end - pos base base' := pos_of_le (by omega)
    have hr : pos base' x.rxmit = pos base x.rxmit - pos base base' := pos_of_le (by omega)
    have hl : pos base' last = pos base last - pos base base' := pos_of_le (by omega)
    have hrest := ih h6 (by omega)
    rw [← he] at hrest
    exact ⟨by omega, by omega, by omega, by omega, by omega, hrest⟩

theorem Ordered.unbase {base' : Seq} (h : Ordered base' last lo holes) (hb : pos base base' + pos base' last < 2 ^ 32) :
    Ordered base last (pos base base' + lo) holes := by
  induction holes generalizing lo with
  | nil => trivial
  | cons x rest ih =>
    obtain ⟨h1, h2, h3, h4, h5, h6⟩ := h
    have hs : pos base x.start = pos base base' + pos base' x.start := pos_rebase (by omega)
    have he : pos base x.end = pos base base' + pos base' x.end := pos_rebase (by omega)
    have hr : pos base x.rxmit = pos base base' + pos base' x.rxmit := pos_rebase (by omega)
    have hl : pos base last = pos base base' + pos base' last := pos_rebase (by omega)
    have hrest := ih h6
    rw [← he] at hrest
    exact ⟨by omega, by omega, by omega, by omega, by omega, hrest⟩

end Ordered

/-! ### One block -/

theorem near_of_le {base a b : Seq} (hb : Near base b) (h : pos base a ≤ pos base b) : Near base a := by
  unfold Near at *
  omega

/-- What no SACK option changes. -/
structure SameConn (b b' : Board) : Prop where
  enabled : b'.tp.sackEnabled = b.tp.sackEnabled
  una : b'.tp.sndUna = b.tp.sndUna
  max : b'.tp.sndMax = b.tp.sndMax
  tpMax : b'.tcpSackTpMaxholes = b.tcpSackTpMaxholes
  globalMax : b'.tcpSackGlobalmaxholes = b.tcpSackGlobalmaxholes

/-- What the work on single holes leaves alone. -/
structure SameRest (b b' : Board) : Prop extends SameConn b b' where
  last : b'.tp.rcvLastsack = b.tp.rcvLastsack

theorem SameConn.refl (b : Board) : SameConn b b := ⟨rfl, rfl, rfl, rfl, rfl⟩

theorem SameConn.trans {a b c : Board} (h : SameConn a b) (h' : SameConn b c) : SameConn a c :=
  ⟨h'.enabled.trans h.enabled, h'.una.trans h.una, h'.max.trans h.max, h'.tpMax.trans h.tpMax, h'.globalMax.trans h.globalMax⟩

theorem SameRest.refl (b : Board) : SameRest b b := ⟨.refl b, rfl⟩

theorem sackRemovehole_same (b : Board) : SameRest b (sackRemovehole b) := ⟨⟨rfl, rfl, rfl, rfl, rfl⟩, rfl⟩

theorem sackAllochole_same (b : Board) : SameRest b (sackAllochole b).2 := by
  unfold sackAllochole
  split
  · exact .refl b
  · split <;> exact ⟨⟨rfl, rfl, rfl, rfl, rfl⟩, rfl⟩

theorem sackAllochole_numholes (b : Board) : (sackAllochole b).2.tp.sndNumholes = b.tp.sndNumholes + if (sackAllochole b).1 then 1 else 0 := by
  unfold sackAllochole
  split
  · simp
  · split <;> simp

/-- The work ends, and ends well. -/
def Outcome.Holds (P : Scan → Prop) : Outcome → Prop
  | .next s | .enobufs s => P s
  | .spin => False

theorem Outcome.Holds.imp {P Q : Scan → Prop} (hpq : ∀ s, P s → Q s) {o : Outcome} (h : o.Holds P) : o.Holds Q := by
  cases o with
  | next s | enobufs s => exact hpq s h
  | spin => exact h

theorem sackInserthole_cases (b : Board) (start «end» : Seq) (before after : List Sackhole) :
    (∃ b', SameRest b b' ∧ b'.tp.sndNumholes = b.tp.sndNumholes ∧
      sackInserthole b start «end» before after = .enobufs ⟨b', before, after⟩) ∨
    ∃ b', SameRest b b' ∧ b'.tp.sndNumholes = b.tp.sndNumholes + 1 ∧
      sackInserthole b start «end» before after = .next ⟨b', before, ⟨start, «end», start⟩ :: after⟩ := by
  have hs := sackAllochole_same b
  have hn := sackAllochole_numholes b
  unfold sackInserthole
  cases h : sackAllochole b with
  | mk ok b' =>
    rw [h] at hs hn
    cases ok with
    | false => exact .inl ⟨b', hs, by simpa using hn, rfl⟩
    | true => exact .inr ⟨b', hs, hn, rfl⟩

/-- The block as the walk may rely on it. -/
structure Sane (base : Seq) (sack : Sackblk) : Prop where
  left : Near base sack.left
  right : Near base sack.right
  lt : pos base sack.left < pos base sack.right

section Walk
variable {base last : Seq} {sack : Sackblk}

/-- The holes from the cursor on are replaced by ordered ones, and counted. -/
def Walked (base last : Seq) (lo : Nat) (b : Board) (before cur : List Sackhole) (s : Scan) : Prop :=
  ∃ holes, s.holes = before ++ holes ∧ Ordered base last lo holes ∧ SameRest b s.b ∧
    s.b.tp.sndNumholes - holes.length = b.tp.sndNumholes - cur.length

theorem walked_self {lo : Nat} {b : Board} {before cur : List Sackhole} (h : Ordered base last lo cur) :
    Walked base last lo b before cur ⟨b, before, cur⟩ :=
  ⟨cur, rfl, h, .refl b, rfl⟩

theorem walked_replace {lo : Nat} {b : Board} {before rest : List Sackhole} {cur : Sackhole} {s : Scan}
    (new : List Sackhole) (hs : s.holes = before ++ (new ++ rest)) (hsame : SameRest b s.b)
    (hcur : Ordered base last lo (cur :: rest)) (hnew : Ordered base last lo new)
    (hreach : reach base lo new ≤ pos base cur.end)
    (hn : s.b.tp.sndNumholes = b.tp.sndNumholes + new.length - 1) :
    Walked base last lo b before (cur :: rest) s := by
  obtain ⟨_, _, _, _, _, hrest⟩ := hcur
  refine ⟨new ++ rest, hs, ordered_append.mpr ⟨hnew, hrest.mono hreach le_rfl⟩, hsame, ?_⟩
  rw [length_append, length_cons]
  omega

theorem walkHoles_spec (hb : Sane base sack) (hlast : Near base last) (b : Board)
    (before cur : List Sackhole) (lo : Nat) (h : Ordered base last lo cur) :
    (walkHoles sack b before cur).Holds (Walked base last lo b before cur) := by
  induction cur generalizing before lo with
  | nil => exact walked_self h
  | cons cur rest ih =>
    have hord := h
    obtain ⟨h1, h2, h3, h4, h5, h6⟩ := h
    have hend : Near base cur.end := near_of_le hlast h5
    have hstart : Near base cur.start := near_of_le hend h2.le
    have hrxmit : Near base cur.rxmit := near_of_le hend h4
    have hlt := hb.lt
    rw [walkHoles]
    simp only [le_iff hb.right hstart, ge_iff hb.left hend, le_iff hb.left hstart, ge_iff hb.right hend, lt_iff hstart hb.left, gt_iff hend hb.right]
    split_ifs with hbelow hbeyond hleft hall hall hmid
    · exact walked_self hord
    · refine (ih (before ++ [cur]) _ h6).imp ?_
      rintro s ⟨holes, hs, ho, hsame, hn⟩
      refine ⟨cur :: holes, by simp [hs], ⟨h1, h2, h3, h4, h5, ho⟩, hsame, ?_⟩
      simp only [length_cons]
      push_cast
      omega
    · exact walked_replace [] (by simp [Scan.holes]) (sackRemovehole_same b) hord trivial
        (by simp only [reach]; omega) (by simp [sackRemovehole])
    · have hm := pos_smax hrxmit hb.right
      refine walked_replace [{cur with start := sack.right, rxmit := smax cur.rxmit sack.right}] rfl
        (.refl b) hord ?_ le_rfl (by simp)
      simp only [Ordered, and_true]
      omega
    · have hm := pos_smin hrxmit hb.left
      refine walked_replace [{cur with «end» := sack.left, rxmit := smin cur.rxmit sack.left}]
        (append_assoc ..) (.refl b) hord ?_ (by simp only [reach]; omega) (by simp)
      simp only [Ordered, and_true]
      omega
    · have hmin := pos_smin hrxmit hb.left
      have hmax := pos_smax hrxmit hb.right
      obtain ⟨b', hsame, hn, heq⟩ | ⟨b', hsame, hn, heq⟩ :=
        sackInserthole_cases b sack.right cur.end (before ++ [cur]) rest
      · rw [heq]
        exact ⟨cur :: rest, append_assoc .., hord, hsame, by rw [hn]⟩
      rw [heq]
      refine walked_replace [{cur with «end» := sack.left, rxmit := smin cur.rxmit sack.left},
        ⟨sack.right, cur.end, smax cur.rxmit sack.right⟩] (append_assoc ..) hsame hord ?_ le_rfl
        (by simp only [hn, length_cons, length_nil]; omega)
      simp only [Ordered, and_true]
      omega
    · omega

end Walk

/-- The holes while an option is processed: in order, or behind a first hole that the
acknowledgement overtakes. -/
inductive Mid (base una ack last : Seq) : List Sackhole → Prop where
  | ordered {holes : List Sackhole} : Ordered base last (pos base una) holes → Mid base una ack last holes
  | straddled {bad : Sackhole} {rest : List Sackhole} : bad.start = ack → pos base bad.end ≤ pos base ack → pos base ack ≤ pos base last →
    Ordered base last (pos base ack) rest → Mid base una ack last (bad :: rest)

/-- The scan between two blocks. -/
structure ScanOk (base ack : Seq) (b₀ : Board) (s : Scan) : Prop where
  conn : SameConn b₀ s.b
  count : s.b.tp.sndNumholes = s.holes.length
  mid : Mid base b₀.tp.sndUna ack s.b.tp.rcvLastsack s.holes
  last : s.holes ≠ [] → pos base b₀.tp.sndUna ≤ pos base s.b.tp.rcvLastsack ∧ pos base s.b.tp.rcvLastsack ≤ pos base b₀.tp.sndMax

section Block
variable {base ack : Seq} {b₀ : Board} {sack : Sackblk}

/-- What `tcp_sack_option` knows of the acknowledgement and the block. -/
structure BlockOk (base ack : Seq) (b₀ : Board) (sack : Sackblk) : Prop extends Sane base sack where
  near : Near base b₀.tp.sndMax
  una : pos base b₀.tp.sndUna ≤ pos base ack
  above : pos base ack < pos base sack.right
  below : pos base sack.right ≤ pos base b₀.tp.sndMax

/-- The walk over a list with a straddled first hole steps over it or removes it. -/
theorem walkHoles_mid (hb : BlockOk base ack b₀ sack) {b : Board} {before cur : List Sackhole} {last : Seq}
    (hlast : Near base last) (hmid : Mid base b₀.tp.sndUna ack last (before ++ cur)) :
    (walkHoles sack b before cur).Holds fun s => Mid base b₀.tp.sndUna ack last s.holes ∧ SameRest b s.b ∧
      s.b.tp.sndNumholes - s.holes.length = b.tp.sndNumholes - (before ++ cur).length := by
  -- Whatever stands before the cursor is kept; the walk replaces the rest in order.
  have hwalk (before' : List Sackhole) (rest : List Sackhole) (lo : Nat)
      (keep : ∀ holes, Ordered base last lo holes → Mid base b₀.tp.sndUna ack last (before' ++ holes))
      (h : Ordered base last lo rest) : (walkHoles sack b before' rest).Holds fun s =>
        Mid base b₀.tp.sndUna ack last s.holes ∧ SameRest b s.b ∧
          s.b.tp.sndNumholes - s.holes.length = b.tp.sndNumholes - (before' ++ rest).length := by
    refine (walkHoles_spec hb.toSane hlast b before' rest lo h).imp ?_
    rintro s ⟨holes, hs, ho, hsame, hn⟩
    refine ⟨hs ▸ keep holes ho, hsame, ?_⟩
    rw [hs, length_append, length_append]
    omega
  generalize hall : before ++ cur = all at hmid
  cases hmid with
  | ordered h =>
    subst hall
    rw [ordered_append] at h
    exact hwalk before cur _ (fun holes ho => .ordered (ordered_append.mpr ⟨h.1, ho⟩)) h.2
  | @straddled bad rest hstart hend hacked h =>
    cases before with
    | cons x before =>
      obtain ⟨rfl, rfl⟩ : x = bad ∧ before ++ cur = rest := by simpa using hall
      rw [ordered_append] at h
      exact hwalk (x :: before) cur _
        (fun holes ho => .straddled hstart hend hacked (ordered_append.mpr ⟨h.1, ho⟩)) h.2
    | nil =>
      obtain rfl : cur = bad :: rest := by simpa using hall
      have hack : Near base ack := near_of_le hlast hacked
      have hbad : Near base bad.end := near_of_le hack hend
      have habove := hb.above
      have hright : ¬ le sack.right bad.start := by
        rw [hstart, le_iff hb.right hack]
        omega
      rw [walkHoles, if_neg hright]
      split
      · exact hwalk [bad] rest _ (fun holes ho => .straddled hstart hend hacked ho) h
      · next hbeyond =>
        rw [ge_iff hb.left hbad] at hbeyond
        rw [if_pos (by rw [hstart, le_iff hb.left hack]; omega), if_pos (by rw [ge_iff hb.right hbad]; omega)]
        refine ⟨.ordered (h.mono hb.una le_rfl), sackRemovehole_same b, ?_⟩
        simp only [Scan.holes, sackRemovehole, nil_append, length_cons]
        omega

theorem Mid.mono {una last last' : Seq} {holes : List Sackhole} (h : Mid base una ack last holes)
    (hl : pos base last ≤ pos base last') : Mid base una ack last' holes := by
  cases h with
  | ordered h => exact .ordered (h.mono le_rfl hl)
  | straddled hs he ha h => exact .straddled hs he (ha.trans hl) (h.mono le_rfl hl)

theorem Mid.append {una last last' : Seq} {holes : List Sackhole} {x : Sackhole}
    (h : Mid base una ack last holes) (hlast : pos base una ≤ pos base last)
    (hx : Ordered base last' (pos base last) [x]) : Mid base una ack last' (holes ++ [x]) := by
  have hle : pos base last ≤ pos base last' := by
    obtain ⟨h1, h2, _, _, h5, _⟩ := hx
    omega
  have happend (lo : Nat) (rest : List Sackhole) (ho : Ordered base last lo rest)
      (hlo : lo ≤ pos base last) : Ordered base last' lo (rest ++ [x]) := by
    refine ordered_append.mpr ⟨ho.mono le_rfl hle, hx.mono ?_ le_rfl⟩
    cases rest with
    | nil => exact hlo
    | cons y ys => exact ho.reach_le (cons_ne_nil _ _)
  cases h with
  | ordered h => exact .ordered (happend _ _ h hlast)
  | straddled hs he ha h => exact .straddled hs he (ha.trans hle) (happend _ _ h ha)

theorem raiseLastsack_eq (sack : Sackblk) (s : Scan) (hr : Near base sack.right) (hl : Near base s.b.tp.rcvLastsack) :
    ∃ last, raiseLastsack sack s = {s with b := {s.b with tp := {s.b.tp with rcvLastsack := last}}} ∧
      pos base last = max (pos base s.b.tp.rcvLastsack) (pos base sack.right) := by
  unfold raiseLastsack
  simp only [lt_iff hl hr]
  split
  · exact ⟨sack.right, rfl, by omega⟩
  · exact ⟨s.b.tp.rcvLastsack, rfl, by omega⟩

theorem appendHole_spec (hb : BlockOk base ack b₀ sack) {s : Scan} (hconn : SameConn b₀ s.b) (hcount : s.b.tp.sndNumholes = s.holes.length)
    (hmid : Mid base b₀.tp.sndUna ack s.b.tp.rcvLastsack s.holes)
    (hlast : pos base b₀.tp.sndUna ≤ pos base s.b.tp.rcvLastsack ∧ pos base s.b.tp.rcvLastsack ≤ pos base b₀.tp.sndMax) :
    (appendHole sack s).Holds (ScanOk base ack b₀) := by
  have hnear : Near base s.b.tp.rcvLastsack := near_of_le hb.near hlast.2
  have hbelow := hb.below
  unfold appendHole
  split
  · next hgap =>
    rw [lt_iff hnear hb.left] at hgap
    have hlr := hb.lt
    obtain ⟨b', hsame, hn, heq⟩ | ⟨b', hsame, hn, heq⟩ :=
      sackInserthole_cases s.b s.b.tp.rcvLastsack sack.left s.holes []
    · rw [heq]
      refine ⟨hconn.trans hsame.toSameConn, ?_, ?_, fun _ => hsame.last ▸ hlast⟩
      · simpa [Scan.holes, hn] using hcount
      · simpa [Scan.holes, hsame.last] using hmid
    rw [heq]
    obtain ⟨last, hraise, hpos⟩ := raiseLastsack_eq sack
      ⟨b', s.holes, [⟨s.b.tp.rcvLastsack, sack.left, s.b.tp.rcvLastsack⟩]⟩ hb.right (hsame.last ▸ hnear)
    rw [hsame.last] at hpos
    show (Outcome.next (raiseLastsack sack _)).Holds _
    rw [hraise]
    have hc := hconn.trans hsame.toSameConn
    refine ⟨⟨hc.enabled, hc.una, hc.max, hc.tpMax, hc.globalMax⟩, ?_, ?_, fun _ => ?_⟩
    · simp only [Scan.holes, hn, hcount, length_append, length_singleton]
      omega
    · refine hmid.append hlast.1 ?_
      simp only [Ordered, and_true]
      omega
    · simp only
      omega
  · obtain ⟨last, hraise, hpos⟩ := raiseLastsack_eq sack s hb.right hnear
    rw [hraise]
    have hup : pos base s.b.tp.rcvLastsack ≤ pos base last := by omega
    refine ⟨⟨hconn.enabled, hconn.una, hconn.max, hconn.tpMax, hconn.globalMax⟩, hcount, hmid.mono hup, fun _ => ?_⟩
    simp only
    omega

theorem updateFack_same (sack : Sackblk) (b : Board) : SameRest b (updateFack sack b) := by
  unfold updateFack
  split
  · exact ⟨⟨rfl, rfl, rfl, rfl, rfl⟩, rfl⟩
  · exact .refl b

theorem updateFack_numholes (sack : Sackblk) (b : Board) : (updateFack sack b).tp.sndNumholes = b.tp.sndNumholes := by
  unfold updateFack
  split <;> rfl

theorem sackBlock_spec (hb : BlockOk base ack b₀ sack) {s : Scan} (h : ScanOk base ack b₀ s) :
    (sackBlock ack s sack).Holds (ScanOk base ack b₀) := by
  have hsame := updateFack_same sack s.b
  have hn := updateFack_numholes sack s.b
  unfold sackBlock
  generalize updateFack sack s.b = b at *
  have hconn := h.conn.trans hsame.toSameConn
  have hlr := hb.lt
  have hbelow := hb.below
  have habove := hb.above
  have huna := hb.una
  split
  · next hempty =>
    have hzero : b.tp.sndNumholes = 0 := by rw [hn, h.count, hempty]; rfl
    obtain ⟨b', hsame', hn', heq⟩ | ⟨b', hsame', hn', heq⟩ := sackInserthole_cases b ack sack.left [] []
    · rw [heq]
      exact ⟨hconn.trans hsame'.toSameConn, by rw [hn', hzero]; rfl, .ordered trivial, fun hne => absurd rfl hne⟩
    rw [heq]
    have hc := hconn.trans hsame'.toSameConn
    refine ⟨⟨hc.enabled, hc.una, hc.max, hc.tpMax, hc.globalMax⟩, by rw [hn', hzero]; rfl, ?_, fun _ => ?_⟩
    · by_cases hleft : pos base sack.left ≤ pos base ack
      · exact .straddled rfl hleft habove.le trivial
      refine .ordered ?_
      simp only [Scan.holes, nil_append, Ordered, and_true]
      omega
    · simp only
      omega
  · next hne =>
    have hlast := h.last hne
    have hnear : Near base s.b.tp.rcvLastsack := near_of_le hb.near hlast.2
    have hwalk := walkHoles_mid hb (b := b) hnear h.mid
    generalize walkHoles sack b s.before s.cur = o at hwalk
    cases o with
    | spin => exact hwalk
    | next t | enobufs t =>
      obtain ⟨hmid, hsame', hcount⟩ := hwalk
      have hc := hconn.trans hsame'.toSameConn
      have hl : t.b.tp.rcvLastsack = s.b.tp.rcvLastsack := hsame'.last.trans hsame.last
      have hcnt : t.b.tp.sndNumholes = t.holes.length := by
        have := h.count
        unfold Scan.holes at this hcount ⊢
        omega
      rw [← hl] at hmid hlast
      first
        | exact appendHole_spec hb hc hcnt hmid hlast
        | exact ⟨hc, hcnt, hmid, fun _ => hlast⟩

theorem sackBlocks_spec (blocks : List Sackblk) (hb : ∀ sack ∈ blocks, BlockOk base ack b₀ sack) {s : Scan}
    (h : ScanOk base ack b₀ s) : ∃ t, sackBlocks ack s blocks = some t ∧ ScanOk base ack b₀ t := by
  induction blocks generalizing s with
  | nil => exact ⟨s, rfl, h⟩
  | cons sack rest ih =>
    have hone := sackBlock_spec (hb sack (mem_cons_self ..)) h
    rw [sackBlocks]
    cases ho : sackBlock ack s sack with
    | next t =>
      rw [ho] at hone
      exact ih (fun x hx => hb x (mem_cons_of_mem _ hx)) hone
    | enobufs t =>
      rw [ho] at hone
      exact ⟨t, rfl, hone⟩
    | spin =>
      rw [ho] at hone
      exact hone.elim

end Block

end NetBSD.Netinet.TcpSack
