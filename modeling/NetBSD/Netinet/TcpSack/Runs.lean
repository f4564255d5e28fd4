import NetBSD.Netinet.TcpSack.Invariant

/-! The scoreboard over whole runs.

`Inv` is the invariant between two segments, measured from `snd_una`. A segment takes
it through the options (`tcpDooptions_spec`, measured from `horizon`), the cumulative
acknowledgement (`delHoles_spec`) and the advance of `snd_una`.

The options need a demand on the peer. A block is tested against the acknowledgement
and `snd_max` by its right edge only; its left edge is compared with the right one, so
it may lie just above `right - 2^31`, more than half the number space before `snd_max`.
There it counts as *after* the holes near `snd_max` and a hole is appended up to it.
`TimelyLefts` says that no accepted block does this. -/
namespace NetBSD.Netinet.TcpSack
open List Option
open Lib Serial

/-! ### The blocks of an option -/

/-- Measured from here, everything less than half the number space before `snd_max`
is in order. -/
def horizon (sndMax : Seq) : Seq := sndMax - BitVec.ofNat 32 (2 ^ 31 - 1)

theorem pos_horizon {x sndMax : Seq} (h : pos x sndMax < 2 ^ 31) : pos (horizon sndMax) x = 2 ^ 31 - 1 - pos x sndMax := by
  unfold pos horizon at *
  bv_omega

theorem near_horizon {x sndMax : Seq} (h : pos x sndMax < 2 ^ 31) : Near (horizon sndMax) x := by
  rw [Near, pos_horizon h]
  omega

theorem mem_insertBlock {t : List Sackblk} {sack x : Sackblk} (h : x ∈ insertBlock t sack) : x = sack ∨ x ∈ t := by
  have hsplit : t.rdropWhile (fun x => decide (lt sack.left x.left)) ++
      t.rtakeWhile (fun x => decide (lt sack.left x.left)) = t := rdropWhile_append_rtakeWhile
  rw [insertBlock, mem_append, mem_cons] at h
  rw [← hsplit, mem_append]
  tauto

theorem mem_tSackBlock {b : Board} {th : Tcphdr} {cp : List (BitVec 8)} {sack : Sackblk} (h : sack ∈ tSackBlock b th cp) :
    ¬ IgnoresOption b th cp ∧ sack ∈ rawBlocks cp ∧ ¬ staleBlock (ackedBy b th) b.tp.sndMax sack := by
  unfold tSackBlock at h
  split at h
  · simp at h
  · next hi =>
    refine ⟨hi, ?_⟩
    suffices ∀ (raw t : List Sackblk), sack ∈ raw.foldl (fun t sack =>
        if staleBlock (ackedBy b th) b.tp.sndMax sack then t else insertBlock t sack) t →
        sack ∈ t ∨ sack ∈ raw ∧ ¬ staleBlock (ackedBy b th) b.tp.sndMax sack from
      (this _ _ h).resolve_left (not_mem_nil)
    intro raw
    induction raw with
    | nil => exact fun t ht => .inl ht
    | cons x raw ih =>
      intro t ht
      rw [foldl_cons] at ht
      obtain hin | ⟨hin, hs⟩ := ih _ ht
      · split at hin
        · exact .inl hin
        · next hstale =>
          obtain rfl | hin := mem_insertBlock hin
          · exact .inr ⟨mem_cons_self .., hstale⟩
          · exact .inl hin
      · exact .inr ⟨mem_cons_of_mem _ hin, hs⟩

section Congr
variable {b b' : Board} (h : SameConn b b') (th : Tcphdr) (cp : List (BitVec 8))
include h

theorem ignoresOption_congr : IgnoresOption b' th cp ↔ IgnoresOption b th cp := by
  simp [IgnoresOption, h.enabled, h.una, h.max, h.tpMax, h.globalMax]

theorem ackedBy_congr : ackedBy b' th = ackedBy b th := by
  simp [ackedBy, h.una]

theorem tSackBlock_congr : tSackBlock b' th cp = tSackBlock b th cp := by
  simp [tSackBlock, ignoresOption_congr h, ackedBy_congr h, h.max]

end Congr

/-- The acknowledgement lies in [snd_una, snd_max]. -/
structure InRange (b : Board) (th : Tcphdr) : Prop where
  lower : ¬ lt th.thAck b.tp.sndUna
  upper : ¬ gt th.thAck b.tp.sndMax

theorem InRange.pos_le {b : Board} {th : Tcphdr} (h : InRange b th) : pos b.tp.sndUna th.thAck ≤ pos b.tp.sndUna b.tp.sndMax := by
  have hl := h.lower
  have hu := h.upper
  rw [lt_iff_pos] at hl
  rw [gt_iff_pos] at hu
  by_contra hgt
  have := pos_of_le (show pos b.tp.sndUna b.tp.sndMax ≤ pos b.tp.sndUna th.thAck by omega)
  omega

theorem InRange.ackedBy_eq {b : Board} {th : Tcphdr} (h : InRange b th) : ackedBy b th = th.thAck := by
  unfold ackedBy
  split
  · rfl
  · next hg =>
    have hl := h.lower
    rw [lt_iff_pos] at hl
    rw [gt_iff_pos] at hg
    have hzero : th.thAck - b.tp.sndUna = 0 := BitVec.eq_of_toNat_eq (by simp only [pos, BitVec.ofNat_eq_ofNat, BitVec.toNat_ofNat] at *; omega)
    exact (sub_eq_zero.mp hzero).symm

/-- Every block that `tcp_sack_option` takes from one of the options begins less than
half the number space before `snd_max`. -/
def TimelyLefts (b : Board) (th : Tcphdr) (options : List (List (BitVec 8))) : Prop :=
  ∀ cp ∈ options, ¬ IgnoresOption b th cp → ∀ sack ∈ rawBlocks cp,
    ¬ staleBlock (ackedBy b th) b.tp.sndMax sack → gt b.tp.sndMax sack.left

instance (b : Board) (th : Tcphdr) (options : List (List (BitVec 8))) : Decidable (TimelyLefts b th options) :=
  inferInstanceAs (Decidable (∀ cp ∈ options, _))

theorem blockOk_of_mem {b : Board} {th : Tcphdr} {options : List (List (BitVec 8))} {cp : List (BitVec 8)}
    {sack : Sackblk} (hw : pos b.tp.sndUna b.tp.sndMax < window) (ht : TimelyLefts b th options)
    (hcp : cp ∈ options) (h : sack ∈ tSackBlock b th cp) :
    InRange b th ∧ BlockOk (horizon b.tp.sndMax) th.thAck b sack := by
  obtain ⟨hi, hraw, hstale⟩ := mem_tSackBlock h
  have hr : InRange b th := ⟨fun hlt => hi (.inr (.inr (.inl hlt))), fun hgt => hi (.inr (.inr (.inr hgt)))⟩
  have hleft := (gt_iff_pos ..).mp (ht cp hcp hi sack hraw hstale)
  rw [hr.ackedBy_eq] at hstale
  simp only [staleBlock, not_or] at hstale
  obtain ⟨hright, hmax, hlr⟩ := hstale
  -- The acknowledgement and the right edge lie within the window, in this order.
  have hack := hr.pos_le
  have hackmax := pos_of_le hack
  have hwin : window = 2 ^ 30 := rfl
  rw [le_iff_pos] at hright
  rw [gt_iff_pos] at hmax
  have hrm : pos th.thAck sack.right ≤ pos th.thAck b.tp.sndMax := by
    by_contra hgt
    have := pos_of_le (show pos th.thAck b.tp.sndMax ≤ pos th.thAck sack.right by omega)
    omega
  have hrmax := pos_of_le hrm
  have hnl : Near (horizon b.tp.sndMax) sack.left := near_horizon (by omega)
  have hnr : Near (horizon b.tp.sndMax) sack.right := near_horizon (by omega)
  rw [ge_iff hnl hnr] at hlr
  refine ⟨hr, ⟨⟨hnl, hnr, by omega⟩, near_horizon (by rw [pos_self]; omega), ?_, ?_, ?_⟩⟩
  · rw [pos_horizon (by omega), pos_horizon (by omega)]
    omega
  · rw [pos_horizon (by omega), pos_horizon (by omega)]
    omega
  · rw [pos_horizon (by omega), pos_horizon (by rw [pos_self]; omega), pos_self]
    omega

theorem tcpSackOption_nil {b : Board} {th : Tcphdr} {cp : List (BitVec 8)} (h : tSackBlock b th cp = []) : tcpSackOption b th cp = some b := by
  rw [tcpSackOption, h]
  rfl

/-- The board between two options. -/
def BoardOk (th : Tcphdr) (b₀ b : Board) : Prop :=
  ScanOk (horizon b₀.tp.sndMax) th.thAck b₀ ⟨b, [], b.tp.sndHoles⟩

theorem tcpSackOption_spec {b₀ b : Board} {th : Tcphdr} {options : List (List (BitVec 8))}
    {cp : List (BitVec 8)} (hw : pos b₀.tp.sndUna b₀.tp.sndMax < window) (ht : TimelyLefts b₀ th options)
    (hcp : cp ∈ options) (h : BoardOk th b₀ b) :
    ∃ b', tcpSackOption b th cp = some b' ∧ BoardOk th b₀ b' := by
  have hblocks := tSackBlock_congr h.conn th cp
  obtain ⟨t, heq, hok⟩ := sackBlocks_spec (tSackBlock b th cp)
    (fun sack hs => (blockOk_of_mem hw ht hcp (hblocks ▸ hs)).2) h
  exact ⟨t.close, by rw [tcpSackOption, heq]; rfl, ⟨hok.conn.enabled, hok.conn.una, hok.conn.max, hok.conn.tpMax, hok.conn.globalMax⟩,
    hok.count, hok.mid, hok.last⟩

theorem tcpDooptions_spec {b₀ b : Board} {th : Tcphdr} (options : List (List (BitVec 8)))
    (hw : pos b₀.tp.sndUna b₀.tp.sndMax < window) (ht : TimelyLefts b₀ th options) (h : BoardOk th b₀ b) :
    ∃ b', tcpDooptions b th options = some b' ∧ BoardOk th b₀ b' := by
  unfold tcpDooptions
  induction options generalizing b with
  | nil => exact ⟨b, rfl, h⟩
  | cons cp rest ih =>
    obtain ⟨b', heq, hok⟩ := tcpSackOption_spec hw ht (mem_cons_self ..) h
    rw [foldlM_cons, heq]
    exact ih (fun cp hcp => ht cp (mem_cons_of_mem _ hcp)) hok

theorem tcpDooptions_ignored {b : Board} {th : Tcphdr} (h : ∀ cp, IgnoresOption b th cp)
    (options : List (List (BitVec 8))) : tcpDooptions b th options = some b := by
  unfold tcpDooptions
  induction options with
  | nil => rfl
  | cons cp rest ih =>
    rw [foldlM_cons, tcpSackOption_nil (if_pos (h cp))]
    exact ih

theorem delHoles_length (lastack : Seq) (holes : List Sackhole) : (delHoles lastack holes).1.length + (delHoles lastack holes).2 = holes.length := by
  induction holes with
  | nil => rfl
  | cons cur rest ih =>
    rw [delHoles]
    split_ifs
    · simp only [length_cons]
      omega
    all_goals rfl

theorem delHoles_spec {base last lastack : Seq} {lo : Nat} {holes : List Sackhole} (hlast : Near base last)
    (hack : Near base lastack) (h : Ordered base last lo holes) :
    Ordered base last (pos base lastack) (delHoles lastack holes).1 := by
  induction holes generalizing lo with
  | nil => trivial
  | cons cur rest ih =>
    obtain ⟨_, h2, h3, h4, h5, h6⟩ := h
    have hend : Near base cur.end := near_of_le hlast h5
    have hstart : Near base cur.start := near_of_le hend h2.le
    have hrxmit : Near base cur.rxmit := near_of_le hend h4
    rw [delHoles]
    simp only [le_iff hend hack, lt_iff hstart hack, lt_iff hrxmit hack]
    split_ifs with hcov hpart hrx
    · exact ih h6
    · exact ⟨le_rfl, not_le.mp hcov, le_rfl, (not_le.mp hcov).le, h5, h6⟩
    · exact ⟨le_rfl, not_le.mp hcov, not_lt.mp hrx, h4, h5, h6⟩
    · exact ⟨by omega, h2, h3, h4, h5, h6⟩

theorem delHoles_mid {base una ack last : Seq} {holes : List Sackhole} (hlast : Near base last)
    (hack : Near base ack) (h : Mid base una ack last holes) :
    Ordered base last (pos base ack) (delHoles ack holes).1 := by
  cases h with
  | ordered h => exact delHoles_spec hlast hack h
  | @straddled bad rest hstart hend hacked h =>
    rw [delHoles, if_pos ((le_iff (near_of_le hack hend) hack).mpr hend)]
    exact delHoles_spec hlast hack h

/-- The scoreboard between two segments, measured from `snd_una`. -/
structure Inv (b : Board) : Prop where
  win : pos b.tp.sndUna b.tp.sndMax < window
  count : b.tp.sndNumholes = b.tp.sndHoles.length
  ordered : Ordered b.tp.sndUna b.tp.rcvLastsack 0 b.tp.sndHoles
  last : b.tp.sndHoles ≠ [] → pos b.tp.sndUna b.tp.rcvLastsack ≤ pos b.tp.sndUna b.tp.sndMax
  enabled : b.tp.sndHoles ≠ [] → b.tp.sackEnabled = true

theorem Inv.near_last {b : Board} (h : Inv b) (hne : b.tp.sndHoles ≠ []) : Near b.tp.sndUna b.tp.rcvLastsack := by
  have hl := h.last hne
  have hw := h.win
  unfold window at hw
  unfold Near
  omega

theorem Inv.boardOk {b : Board} (h : Inv b) (th : Tcphdr) (pool : List Bool) : BoardOk th b {b with pool := pool} := by
  have hw := h.win
  have hwin : window = 2 ^ 30 := rfl
  have huna := @pos_horizon b.tp.sndUna b.tp.sndMax (by omega)
  have hmax := @pos_horizon b.tp.sndMax b.tp.sndMax (by rw [pos_self]; omega)
  rw [pos_self] at hmax
  have hlast (hne : b.tp.sndHoles ≠ []) : pos (horizon b.tp.sndMax) b.tp.rcvLastsack =
      pos (horizon b.tp.sndMax) b.tp.sndUna + pos b.tp.sndUna b.tp.rcvLastsack :=
    pos_rebase (by have := h.last hne; omega)
  refine ⟨⟨rfl, rfl, rfl, rfl, rfl⟩, h.count, .ordered ?_, fun hne => ?_⟩
  · by_cases hne : b.tp.sndHoles = []
    · simp only [Scan.holes, nil_append, hne]
      trivial
    · exact h.ordered.unbase (by have := h.last hne; omega)
  have := h.last hne
  have := hlast hne
  simp only
  omega

/-! ### Steps -/

theorem holes_ne_of_delHoles {lastack : Seq} {holes : List Sackhole} (h : (delHoles lastack holes).1 ≠ []) : holes ≠ [] := by
  rintro rfl
  exact h rfl

/-- The invariant, with all holes above the acknowledgement. -/
def InvAbove (b : Board) (th : Tcphdr) : Prop :=
  Inv b ∧ Ordered b.tp.sndUna b.tp.rcvLastsack (pos b.tp.sndUna (ackedBy b th)) b.tp.sndHoles

theorem tcpDelSackholes_above {b : Board} {th : Tcphdr} (hw : pos b.tp.sndUna b.tp.sndMax < window) (hcount : b.tp.sndNumholes = b.tp.sndHoles.length)
    (hord : Ordered b.tp.sndUna b.tp.rcvLastsack (pos b.tp.sndUna (ackedBy b th))
      (delHoles (ackedBy b th) b.tp.sndHoles).1)
    (hlast : b.tp.sndHoles ≠ [] → pos b.tp.sndUna b.tp.rcvLastsack ≤ pos b.tp.sndUna b.tp.sndMax)
    (he : b.tp.sackEnabled = true) : InvAbove (tcpDelSackholes b th) th := by
  refine ⟨⟨hw, ?_, hord.mono (Nat.zero_le _) le_rfl, fun hne => hlast (holes_ne_of_delHoles hne),
    fun _ => he⟩, hord⟩
  have hlen := delHoles_length (ackedBy b th) b.tp.sndHoles
  simp only [tcpDelSackholes, hcount]
  omega

theorem tcpDelSackholes_boardOk {b₀ b : Board} {th : Tcphdr} (hw : pos b₀.tp.sndUna b₀.tp.sndMax < window)
    (hr : InRange b₀ th) (h : BoardOk th b₀ b) (he : b.tp.sackEnabled = true) :
    InvAbove (tcpDelSackholes b th) th := by
  have hack := hr.pos_le
  have hackmax := pos_of_le hack
  have hacked : ackedBy b th = th.thAck := (ackedBy_congr h.conn th).trans hr.ackedBy_eq
  have hwin : window = 2 ^ 30 := rfl
  have huna := @pos_horizon b₀.tp.sndUna b₀.tp.sndMax (by omega)
  have hposack := @pos_horizon th.thAck b₀.tp.sndMax (by omega)
  have hmax := @pos_horizon b₀.tp.sndMax b₀.tp.sndMax (by rw [pos_self]; omega)
  have hsuna : b.tp.sndUna = b₀.tp.sndUna := h.conn.una
  have hsmax : b.tp.sndMax = b₀.tp.sndMax := h.conn.max
  refine tcpDelSackholes_above (by rw [hsuna, hsmax]; exact hw) h.count ?_ (fun hne => ?_) he
  · rw [hacked, hsuna]
    by_cases hne : b.tp.sndHoles = []
    · rw [hne]
      trivial
    have hlast : Near (horizon b₀.tp.sndMax) b.tp.rcvLastsack :=
      near_of_le (near_horizon (by rw [pos_self]; omega)) (h.last hne).2
    have hdel := delHoles_mid hlast (near_horizon (by omega)) h.mid
    have hlow := hdel.rebase (show pos (horizon b₀.tp.sndMax) b₀.tp.sndUna ≤ _ by omega)
    refine hlow.mono ?_ le_rfl
    omega
  · have hl := h.last hne
    have h1 := pos_of_le hl.1
    have h2 := hl.2
    simp only at h1 h2
    rw [hsuna, hsmax]
    omega

theorem Inv.tcpDelSackholes {b : Board} (h : Inv b) (th : Tcphdr) (he : b.tp.sackEnabled = true) : InvAbove (tcpDelSackholes b th) th := by
  refine tcpDelSackholes_above h.win h.count ?_ h.last he
  have hacked : Near b.tp.sndUna (ackedBy b th) := by
    unfold ackedBy
    split
    · next hg => exact ((gt_iff_pos ..).mp hg).2
    · simp [Near, pos_self]
  by_cases hne : b.tp.sndHoles = []
  · rw [hne]
    trivial
  · exact delHoles_spec (h.near_last hne) hacked h.ordered

theorem advanceUna_inv {b : Board} {seg : Segment} (h : InvAbove b seg.th) : Inv (advanceUna b seg) := by
  obtain ⟨hinv, hord⟩ := h
  unfold advanceUna
  split
  · next hadv =>
    obtain ⟨_, _, hgt, hle⟩ := hadv
    rw [ackedBy, if_pos hgt] at hord
    have hr : InRange b seg.th := ⟨fun hlt => by unfold lt at hlt; unfold gt at hgt; omega,
      fun hgt' => by unfold gt at hgt'; unfold le at hle; omega⟩
    have hmax := pos_of_le hr.pos_le
    have hw := hinv.win
    refine ⟨by simp only; omega, hinv.count, ?_, fun hne => ?_, hinv.enabled⟩
    · exact (hord.rebase le_rfl).mono (Nat.zero_le _) le_rfl
    have hlast := hinv.last hne
    have hacked : pos b.tp.sndUna seg.th.thAck ≤ pos b.tp.sndUna b.tp.rcvLastsack := by
      obtain ⟨x, rest, hx⟩ := exists_cons_of_ne_nil hne
      rw [hx] at hord
      obtain ⟨h1, h2, _, _, h5, _⟩ := hord
      omega
    have := pos_of_le hacked
    simp only
    omega
  · exact hinv

theorem tcpInputAck_inv {b : Board} {seg : Segment} (h : Inv b) (ht : TimelyLefts b seg.th seg.options) :
    ∃ b', tcpInputAck b seg = some b' ∧ Inv b' := by
  unfold tcpInputAck
  have hpool : Inv {b with pool := seg.pool} := ⟨h.win, h.count, h.ordered, h.last, h.enabled⟩
  by_cases he : b.tp.sackEnabled = true
  · by_cases hr : InRange b seg.th
    · obtain ⟨b', heq, hok⟩ := tcpDooptions_spec seg.options h.win ht (h.boardOk seg.th seg.pool)
      have he' : b'.tp.sackEnabled = true := hok.conn.enabled.trans he
      rw [heq]
      exact ⟨_, rfl, advanceUna_inv (by rw [if_pos he']; exact tcpDelSackholes_boardOk h.win hr hok he')⟩
    rw [tcpDooptions_ignored fun cp => ?_]
    · exact ⟨_, rfl, advanceUna_inv (by rw [if_pos he]; exact hpool.tcpDelSackholes seg.th he)⟩
    · by_contra hi
      exact hr ⟨fun hlt => hi (.inr (.inr (.inl hlt))), fun hgt => hi (.inr (.inr (.inr hgt)))⟩
  · rw [tcpDooptions_ignored fun cp => .inl (.inl (by simpa using he))]
    have hnil : b.tp.sndHoles = [] := by
      by_contra hne
      exact he (h.enabled hne)
    refine ⟨_, rfl, advanceUna_inv ?_⟩
    rw [if_neg he]
    exact ⟨hpool, by simp only [hnil]; trivial⟩

theorem tcpFreeSackholes_inv {b : Board} (h : Inv b) : Inv (tcpFreeSackholes b) :=
  ⟨h.win, by simp [tcpFreeSackholes, h.count], trivial, fun hne => absurd rfl hne, fun hne => absurd rfl hne⟩

theorem Ordered.rexmit {base last : Seq} {lo i len : Nat} {holes : List Sackhole} {p : Sackhole}
    (h : Ordered base last lo holes) (hp : holes[i]? = some p) (hlen : len ≤ pos p.rxmit p.end) :
    Ordered base last lo (holes.set i {p with rxmit := p.rxmit + BitVec.ofNat 32 len}) := by
  induction holes generalizing lo i with
  | nil => exact h
  | cons x rest ih =>
    obtain ⟨h1, h2, h3, h4, h5, h6⟩ := h
    cases i with
    | succ i => exact ⟨h1, h2, h3, h4, h5, ih h6 hp⟩
    | zero =>
      obtain rfl : x = p := by simpa using hp
      have hle := pos_of_le h4
      have hlt : pos base x.end < 2 ^ 32 := (x.end - base).isLt
      have hnat : (BitVec.ofNat 32 len).toNat = len := by
        exact Nat.mod_eq_of_lt (by omega)
      have hadd : pos base (x.rxmit + BitVec.ofNat 32 len) = pos base x.rxmit + len := by
        rw [pos_add (by omega), hnat]
      exact ⟨h1, h2, by simp only [hadd]; omega, by simp only [hadd]; omega, h5, h6⟩

/-- What a segment must satisfy; the other steps are free. -/
def Timely (b : Board) : Action → Prop
  | .ack seg => TimelyLefts b seg.th seg.options
  | .free | .send _ | .rexmit _ _ => True

instance (b : Board) : (a : Action) → Decidable (Timely b a)
  | .ack seg => inferInstanceAs (Decidable (TimelyLefts b seg.th seg.options))
  | .free | .send _ | .rexmit _ _ => inferInstanceAs (Decidable True)

theorem step_inv {b b' : Board} {a : Action} (h : Inv b) (ha : Timely b a) (hs : step b a = some b') : Inv b' := by
  cases a with
  | ack seg =>
    obtain ⟨b'', heq, hinv⟩ := tcpInputAck_inv h ha
    obtain rfl : b'' = b' := some.inj (heq.symm.trans hs)
    exact hinv
  | free =>
    obtain rfl : tcpFreeSackholes b = b' := some.inj hs
    exact tcpFreeSackholes_inv h
  | send len =>
    simp only [step] at hs
    split at hs
    · next hlen =>
      obtain rfl := some.inj hs
      have hwin : window = 2 ^ 30 := rfl
      have hnat : (BitVec.ofNat 32 len).toNat = len := by
        exact Nat.mod_eq_of_lt (by omega)
      have hadd : pos b.tp.sndUna (b.tp.sndMax + BitVec.ofNat 32 len) = pos b.tp.sndUna b.tp.sndMax + len := by
        rw [pos_add (by omega), hnat]
      exact ⟨by simp only [hadd]; exact hlen, h.count, h.ordered,
        fun hne => by simp only [hadd]; exact Nat.le_add_right_of_le (h.last hne), h.enabled⟩
    · simp at hs
  | rexmit i len =>
    simp only [step] at hs
    split at hs
    · simp at hs
    · next p hp =>
      split at hs
      · next hlen =>
        obtain rfl := some.inj hs
        have hne : b.tp.sndHoles ≠ [] := by
          rintro hnil
          simp [hnil] at hp
        exact ⟨h.win, by simpa using h.count, h.ordered.rexmit hp hlen, fun _ => h.last hne, fun _ => h.enabled hne⟩
      · simp at hs

/-! ### Every run -/

/-- The scoreboard as the sender reads it, in its own comparisons. -/
structure WellFormed (tp : Tcpcb) : Prop where
  /-- Strictly ordered and pairwise disjoint. -/
  disjoint : tp.sndHoles.Pairwise fun p q => lt p.start q.start ∧ le p.end q.start
  bounds : ∀ p ∈ tp.sndHoles, le tp.sndUna p.start ∧ lt p.start p.end ∧ le p.end tp.rcvLastsack
  rxmit : ∀ p ∈ tp.sndHoles, le p.start p.rxmit ∧ le p.rxmit p.end
  count : tp.sndNumholes = tp.sndHoles.length

section
variable {base last : Seq} {lo : Nat} {holes : List Sackhole}

theorem Ordered.mem {p : Sackhole} (h : Ordered base last lo holes) (hp : p ∈ holes) : lo ≤ pos base p.start ∧
      pos base p.start < pos base p.end ∧ pos base p.start ≤ pos base p.rxmit ∧
      pos base p.rxmit ≤ pos base p.end ∧ pos base p.end ≤ pos base last := by
  induction holes generalizing lo with
  | nil => simp at hp
  | cons x rest ih =>
    obtain ⟨h1, h2, h3, h4, h5, h6⟩ := h
    obtain rfl | hp := mem_cons.mp hp
    · exact ⟨h1, h2, h3, h4, h5⟩
    · obtain ⟨g1, g2⟩ := ih h6 hp
      exact ⟨by omega, g2⟩

theorem Ordered.pairwise (h : Ordered base last lo holes) :
    holes.Pairwise fun p q => pos base p.start < pos base q.start ∧ pos base p.end ≤ pos base q.start := by
  induction holes generalizing lo with
  | nil => exact .nil
  | cons x rest ih =>
    obtain ⟨_, h2, _, _, _, h6⟩ := h
    refine .cons (fun q hq => ?_) (ih h6)
    have := h6.mem hq
    omega

end

theorem Inv.wellFormed {b : Board} (h : Inv b) : WellFormed b.tp := by
  by_cases hne : b.tp.sndHoles = []
  · exact ⟨by simp [hne], by simp [hne], by simp [hne], h.count⟩
  have hlast := h.near_last hne
  have hnear (p : Sackhole) (hp : p ∈ b.tp.sndHoles) : Near b.tp.sndUna p.start ∧ Near b.tp.sndUna p.end ∧ Near b.tp.sndUna p.rxmit := by
    obtain ⟨_, h2, _, h4, h5⟩ := h.ordered.mem hp
    have hend := near_of_le hlast h5
    exact ⟨near_of_le hend h2.le, hend, near_of_le hend h4⟩
  have huna : Near b.tp.sndUna b.tp.sndUna := by simp [Near, pos_self]
  refine ⟨h.ordered.pairwise.imp_of_mem fun hp hq hpq => ?_, fun p hp => ?_, fun p hp => ?_, h.count⟩
  · obtain ⟨ps, pe, _⟩ := hnear _ hp
    obtain ⟨qs, _, _⟩ := hnear _ hq
    exact ⟨(lt_iff ps qs).mpr hpq.1, (le_iff pe qs).mpr hpq.2⟩
  · obtain ⟨ps, pe, _⟩ := hnear p hp
    obtain ⟨_, h2, _, _, h5⟩ := h.ordered.mem hp
    exact ⟨(le_iff huna ps).mpr (by rw [pos_self]; omega), (lt_iff ps pe).mpr h2, (le_iff pe hlast).mpr h5⟩
  · obtain ⟨ps, pe, pr⟩ := hnear p hp
    obtain ⟨_, _, h3, h4, _⟩ := h.ordered.mem hp
    exact ⟨(le_iff ps pr).mpr h3, (le_iff pr pe).mpr h4⟩

/-- In every run whose segments are timely the scoreboard is well formed throughout. -/
theorem scoreboard_wellFormed {b : Board} (h : sackSystem.Reach Timely b) : WellFormed b.tp := by
  have hinv : Inv b := h.invariant
    (fun b ⟨hw, hh, hn⟩ => ⟨hw, by simp [hh, hn], by rw [hh]; trivial, fun hne => absurd hh hne,
      fun hne => absurd hh hne⟩)
    (fun b a b' hb ha hs => step_inv hb ha hs)
  exact hinv.wellFormed

/-- 300 bytes in flight from sequence number 0, and nothing on the scoreboard. -/
def inFlight : Board where
  tp := {
    sackEnabled := true, sndUna := 0, sndMax := 300, sndFack := 0, rcvLastsack := 0
    sndHoles := [], sndNumholes := 0 }
  tcpSackTpMaxholes := 32
  tcpSackGlobalmaxholes := 1024
  tcpSackGlobalholes := 0
  pool := []

theorem inFlight_idle : Idle inFlight := ⟨by decide, rfl, rfl⟩

/-- A duplicate ACK of 0 with one SACK block, the eight bytes `block`. -/
def dupAck (block : List (BitVec 8)) : Segment :=
  ⟨⟨true, 0⟩, [[5, 10] ++ block], true, []⟩

def timelyAck : Segment := dupAck [0, 0, 0, 100, 0, 0, 0, 200]

/-- The block from `51 - 2^31` to 50. -/
def lateAck : Segment := dupAck [0x80, 0, 0, 51, 0, 0, 0, 50]

theorem scoreboard_wellFormed_timelyAck : ∃ b, sackSystem.Reach Timely b ∧ b.tp.sndHoles = [⟨0, 100, 0⟩] ∧ WellFormed b.tp := by
  have hr : sackSystem.Reach Timely {inFlight with
      tp := {inFlight.tp with
        sndFack := 200, rcvLastsack := 200, sndHoles := [⟨0, 100, 0⟩], sndNumholes := 1}
      tcpSackGlobalholes := 1} :=
    System.reach_run Idle Timely step inFlight [.ack timelyAck] inFlight_idle (by decide)
  exact ⟨_, hr, rfl, scoreboard_wellFormed hr⟩

/-- A late block leaves the hole [200, 51 - 2^31) behind all data the peer has. -/
theorem scoreboard_broken_lateAck : ¬ ∀ b, sackSystem.Reachable b → WellFormed b.tp := by
  intro h
  have hr : sackSystem.Reachable {inFlight with
      tp := {inFlight.tp with
        sndFack := 200, rcvLastsack := 200
        sndHoles := [⟨0, 100, 0⟩, ⟨200, 0x80000033, 200⟩], sndNumholes := 2}
      tcpSackGlobalholes := 2} :=
    System.reach_run Idle (fun _ _ => True) step inFlight [.ack timelyAck, .ack lateAck] inFlight_idle (by decide)
  obtain ⟨_, _, hlast⟩ := (h _ hr).bounds ⟨200, 0x80000033, 200⟩ (by simp)
  exact absurd hlast (by decide)

end NetBSD.Netinet.TcpSack
