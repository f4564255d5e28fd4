import NetBSD.Kern.Wapbl.Space

/-! The log never forgets a committed transaction, as long as none fills it exactly.

Everything in the log is known by its distance from the tail: the reclaimable bytes
come first, then the entries in order (`Placed`), then the head. A pair of head and tail
that a flush computes or has committed is the region from some distance on and of some
length (`Region`), and completions change neither.

A head that meets the tail is taken for an empty log. `wapbl_advance_tail` comes to see
this when a transaction fills the free space to the last byte and nothing can be
reclaimed at that moment; the test in `wapbl_truncate` lets that happen. `RoomLeft`
excludes it. -/
namespace NetBSD.Kern.Wapbl
open Option
open Lib Ring

/-! ### Heads and tails -/

section Region
variable (g : Circ)

/-- Head and tail of the `len` bytes that begin `skip` bytes after `base`. -/
def Region (base skip len : Nat) (ht : Nat × Nat) : Prop :=
  len = 0 ∧ ht = (0, 0) ∨ 0 < len ∧ len < g.circSize ∧ ht.2 = move g.circOff g.circSize base skip ∧
    ht.1 = move g.circOff g.circSize base (skip + len)

/-- Where the log begins, or would begin. -/
def origin (tail : Nat) : Nat := if tail = 0 then g.circOff else tail

variable {g} {base skip len delta : Nat} {ht : Nat × Nat}

section
variable {a : Nat} (h : InRange g.circOff g.circSize a)
include h

theorem inRange_ne_zero : a ≠ 0 := by
  have := g.off_pos
  have := h.1
  omega

theorem origin_of_inRange : origin g a = a :=
  if_neg (inRange_ne_zero h)

theorem wapblAdvance_eq (hd : delta ≤ g.circSize) : wapblAdvance g a delta = move g.circOff g.circSize a delta := by
  rw [wapblAdvance, if_neg (fun hz => inRange_ne_zero h hz.1), move_eq h hd, add_comm g.circSize]

end

section
variable (h : Region g base skip len ht)
include h

theorem Region.spaceUsed : wapblSpaceUsed g ht.1 ht.2 = len := by
  obtain ⟨rfl, rfl⟩ | ⟨hpos, hlt, htail, hhead⟩ := h
  · rfl
  have hr := @move_inRange g.circOff g.circSize g.size_pos base skip
  rw [← move_move, ← htail] at hhead
  rw [← htail] at hr
  rw [wapblSpaceUsed, if_neg (inRange_ne_zero hr), hhead, move_eq hr hlt.le]
  split
  · rw [show ht.2 + len + (g.circSize - 1) - ht.2 = len - 1 + g.circSize by omega, Nat.add_mod_right, Nat.mod_eq_of_lt (by omega)]
    omega
  · rw [Nat.mod_eq_of_lt (by omega)]
    omega

theorem Region.inRange : ht = (0, 0) ∨ InRange g.circOff g.circSize ht.1 ∧ InRange g.circOff g.circSize ht.2 := by
  obtain ⟨-, rfl⟩ | ⟨-, -, htail, hhead⟩ := h
  · exact .inl rfl
  refine .inr ?_
  rw [htail, hhead]
  exact ⟨move_inRange g.size_pos .., move_inRange g.size_pos ..⟩

theorem Region.rebase : Region g (origin g ht.2) 0 len ht := by
  obtain ⟨rfl, rfl⟩ | ⟨hpos, hlt, htail, hhead⟩ := h
  · exact .inl ⟨rfl, rfl⟩
  have hr := @move_inRange g.circOff g.circSize g.size_pos base skip
  rw [← htail] at hr
  rw [origin_of_inRange hr]
  refine .inr ⟨hpos, hlt, (move_zero hr).symm, ?_⟩
  rw [hhead, htail, move_move, zero_add]

end

theorem wapblAdvanceTail_region (hbase : InRange g.circOff g.circSize base) (htail : ht.2 = base)
    (hhead : ht.1 = move g.circOff g.circSize base len) (hlen : len ≤ g.circSize) (hd : delta ≤ len)
    (hroom : len - delta < g.circSize) : Region g base delta (len - delta) (wapblAdvanceTail g delta ht) := by
  have hadv := wapblAdvance_eq hbase (hd.trans hlen)
  simp only [wapblAdvanceTail, htail, hhead, hadv]
  split
  · next hmeet =>
    refine .inl ⟨?_, rfl⟩
    -- The two meet where `len` and `delta` are the same distance, up to a full round.
    obtain hfull | hlt := Nat.eq_or_lt_of_le hlen
    · obtain hd' | hd' := Nat.eq_or_lt_of_le (hd.trans hlen)
      · omega
      rw [hfull, move_size hbase] at hmeet
      have := move_inj hbase g.size_pos hd' ((move_zero hbase).trans hmeet)
      omega
    · have := move_inj hbase hlt (hd.trans_lt hlt) hmeet
      omega
  · next hne =>
    have hpos : 0 < len - delta := by
      refine Nat.pos_of_ne_zero fun h0 => hne ?_
      rw [show len = delta by omega]
    exact .inr ⟨hpos, hroom, rfl, by rw [show delta + (len - delta) = len by omega]⟩

theorem Region.advanceTail (h : Region g (origin g ht.2) 0 len ht) (hd : delta ≤ len) :
    Region g (origin g ht.2) delta (len - delta) (wapblAdvanceTail g delta ht) := by
  obtain ⟨rfl, rfl⟩ | ⟨hpos, hlt, htail, hhead⟩ := h
  · obtain rfl : delta = 0 := by omega
    refine .inl ⟨rfl, ?_⟩
    simp [wapblAdvanceTail, wapblAdvance]
  have hr := @move_inRange g.circOff g.circSize g.size_pos (origin g ht.2) 0
  rw [← htail] at hr
  rw [zero_add, origin_of_inRange hr] at hhead
  rw [origin_of_inRange hr]
  exact wapblAdvanceTail_region hr rfl hhead hlt.le hd (by omega)

theorem Region.advanceBoth {flushsize : Nat} (h : Region g (origin g ht.2) 0 len ht) (hf : 0 < flushsize)
    (hfit : len + flushsize ≤ g.circSize) (hd : delta ≤ len) (hroom : len + flushsize - delta < g.circSize) :
    Region g (origin g ht.2) delta (len + flushsize - delta)
      (wapblAdvanceTail g delta (wapblAdvanceHead g flushsize ht)) := by
  obtain ⟨rfl, rfl⟩ | ⟨hpos, hlt, htail, hhead⟩ := h
  · -- The first transaction of an empty log starts at `circ_off`.
    have hr : InRange g.circOff g.circSize g.circOff := inRange_off g.size_pos
    have hmove : move g.circOff g.circSize g.circOff flushsize = g.circOff + flushsize := by
      rw [move_eq hr (by omega), if_pos (by omega)]
    have hadv : wapblAdvance g 0 flushsize = g.circOff + flushsize := if_pos ⟨rfl, by omega⟩
    have horigin : origin g 0 = g.circOff := if_pos rfl
    simp only [horigin]
    refine wapblAdvanceTail_region hr ?_ ?_ hfit (by omega) hroom
    · simp only [wapblAdvanceHead, hadv]
      exact if_pos ⟨trivial, by omega⟩
    · simp [wapblAdvanceHead, hadv, zero_add, hmove]
  · have hr := @move_inRange g.circOff g.circSize g.size_pos (origin g ht.2) 0
    rw [← htail] at hr
    rw [zero_add, origin_of_inRange hr] at hhead
    rw [origin_of_inRange hr]
    refine wapblAdvanceTail_region hr ?_ ?_ hfit (by omega) hroom
    · exact if_neg fun hz => inRange_ne_zero hr hz.1
    have hh : InRange g.circOff g.circSize ht.1 := hhead ▸ move_inRange g.size_pos ..
    simp only [wapblAdvanceHead]
    rw [wapblAdvance_eq hh (by omega), hhead, move_move]

end Region

/-! ### Entries -/

def entryBytes (entries : List WapblEntry) : Nat := (entries.map WapblEntry.reclaimableBytes).sum

/-- The bytes of the log that are accounted for. -/
def Log.bytes (wl : Log) : Nat := wl.reclaimableBytes + entryBytes wl.entries

/-- The entries lie one after the other, the first of them `skip` bytes after `base`. -/
def Placed (g : Circ) (base : Nat) : Nat → List WapblEntry → Prop
  | _, [] => True
  | skip, we :: rest => we.start = move g.circOff g.circSize base skip ∧ 0 < we.reclaimableBytes ∧ Placed g base (skip + we.reclaimableBytes) rest

section Placed
variable {g : Circ} {base skip : Nat} {entries : List WapblEntry}

theorem entryBytes_nil : entryBytes [] = 0 := rfl

theorem entryBytes_cons (we : WapblEntry) (entries : List WapblEntry) : entryBytes (we :: entries) = we.reclaimableBytes + entryBytes entries := by
  simp [entryBytes]

theorem entryBytes_append (a b : List WapblEntry) : entryBytes (a ++ b) = entryBytes a + entryBytes b := by
  simp [entryBytes]

theorem Placed.bytes_pos (h : Placed g base skip entries) (hne : entries ≠ []) : 0 < entryBytes entries := by
  cases entries with
  | nil => exact absurd rfl hne
  | cons we rest =>
    have := h.2.1
    rw [entryBytes_cons]
    omega

theorem Placed.rebase {delta : Nat} (h : Placed g base skip entries) (hd : delta ≤ skip) :
    Placed g (move g.circOff g.circSize base delta) (skip - delta) entries := by
  induction entries generalizing skip with
  | nil => trivial
  | cons we rest ih =>
    obtain ⟨h1, h2, h3⟩ := h
    refine ⟨?_, h2, ?_⟩
    · rw [h1, move_move, show delta + (skip - delta) = skip by omega]
    · rw [show skip - delta + we.reclaimableBytes = skip + we.reclaimableBytes - delta by omega]
      exact ih h3 (by omega)

theorem Placed.append {we : WapblEntry} (h : Placed g base skip entries)
    (hwe : Placed g base (skip + entryBytes entries) [we]) : Placed g base skip (entries ++ [we]) := by
  induction entries generalizing skip with
  | nil => exact hwe
  | cons x rest ih =>
    obtain ⟨h1, h2, h3⟩ := h
    refine ⟨h1, h2, ih h3 ?_⟩
    rwa [entryBytes_cons, ← add_assoc] at hwe

theorem Placed.set {i : Nat} {we : WapblEntry} (h : Placed g base skip entries)
    (hi : entries[i]? = some we) (bufcount : Nat) : Placed g base skip (entries.set i {we with bufcount := bufcount}) := by
  induction entries generalizing skip i with
  | nil => exact h
  | cons x rest ih =>
    obtain ⟨h1, h2, h3⟩ := h
    cases i with
    | zero =>
      obtain rfl : x = we := by simpa using hi
      exact ⟨h1, h2, h3⟩
    | succ i => exact ⟨h1, h2, ih h3 (by simpa using hi)⟩

theorem entryBytes_set {i : Nat} {we : WapblEntry} (hi : entries[i]? = some we) (bufcount : Nat) :
    entryBytes (entries.set i {we with bufcount := bufcount}) = entryBytes entries := by
  induction entries generalizing i with
  | nil => rfl
  | cons x rest ih =>
    cases i with
    | zero =>
      obtain rfl : x = we := by simpa using hi
      simp [entryBytes_cons]
    | succ i =>
      rw [List.set_cons_succ, entryBytes_cons, entryBytes_cons, ih (by simpa using hi)]

theorem entryBytes_reclaim (entries : List WapblEntry) : (reclaim entries).1 + entryBytes (reclaim entries).2 = entryBytes entries := by
  induction entries with
  | nil => rfl
  | cons we rest ih =>
    rw [reclaim]
    split
    · rw [entryBytes_cons]
      simp only
      omega
    · simp

theorem Placed.reclaim (h : Placed g base skip entries) : Placed g base (skip + (reclaim entries).1) (reclaim entries).2 := by
  induction entries generalizing skip with
  | nil => trivial
  | cons we rest ih =>
    rw [Wapbl.reclaim]
    split
    · rw [← add_assoc]
      exact ih h.2.2
    · exact h

end Placed

/-! ### The invariant -/

section Inv
variable (g : Circ)

/-- What a truncation has worked out. -/
structure Truncating (wl : Log) (head tail delta : Nat) (after : After) : Prop where
  delta_le : delta ≤ wl.reclaimableBytes
  region : Region g (origin g wl.tail) delta (wl.bytes - delta) (head, tail)
  room : ∀ tx waitfor, after = .write tx waitfor → wl.bytes - delta + tx.flushsize ≤ g.circSize

/-- What a flush has worked out for its transaction. -/
structure Flushing (wl : Log) (head tail delta : Nat) (tx : Transaction) : Prop where
  delta_le : delta ≤ wl.reclaimableBytes
  region : Region g (origin g wl.tail) delta (wl.bytes + tx.flushsize - delta) (head, tail)

/-- Where the flush stands, and which head and tail are on disk. -/
def PcOk (wl : Log) : Prop :=
  match wl.pc with
  | .idle | .waitOut _ | .truncate _ .out => wl.committed = (wl.head, wl.tail)
  | .truncate minfree (.write tx _) => wl.committed = (wl.head, wl.tail) ∧ minfree = tx.flushsize ∧ tx.flushsize ≤ g.circSize - wl.reservedBytes
  | .truncateCommit head tail delta after =>
      wl.committed = (wl.head, wl.tail) ∧ Truncating g wl head tail delta after
  | .truncateUpdate head tail delta after => wl.committed = (head, tail) ∧ Truncating g wl head tail delta after
  | .advance tx _ => wl.committed = (wl.head, wl.tail) ∧ wl.bytes + tx.flushsize ≤ g.circSize
  | .commit head tail delta tx _ => wl.committed = (wl.head, wl.tail) ∧ Flushing g wl head tail delta tx
  | .update head tail delta tx _ => wl.committed = (head, tail) ∧ Flushing g wl head tail delta tx

structure SpaceInv (wl : Log) : Prop where
  region : Region g (origin g wl.tail) 0 wl.bytes (wl.head, wl.tail)
  placed : Placed g (origin g wl.tail) wl.reclaimableBytes wl.entries
  pc : PcOk g wl

variable {g} {wl wl' : Log}

theorem SpaceInv.bytes_le (h : SpaceInv g wl) : wl.bytes < g.circSize := by
  obtain ⟨h0, -⟩ | ⟨-, hlt, -⟩ := h.region
  · have := g.size_pos
    omega
  · exact hlt

theorem SpaceInv.spaceFree (h : SpaceInv g wl) : wapblSpaceFree g wl.head wl.tail = g.circSize - wl.bytes := by
  rw [wapblSpaceFree, h.region.spaceUsed]

section
variable {i : Nat} (h : SpaceInv g wl) (hs : wapblBiodone wl i = some wl')
include h hs

theorem wapblBiodone_cases : ∃ reclaimed entries, wl' = {wl with reclaimableBytes := wl.reclaimableBytes + reclaimed, entries := entries} ∧
      reclaimed + entryBytes entries = entryBytes wl.entries ∧
      Placed g (origin g wl.tail) (wl.reclaimableBytes + reclaimed) entries := by
  unfold wapblBiodone at hs
  split at hs
  · simp at hs
  · next we hwe =>
    split at hs
    · simp at hs
    have hplaced := h.placed.set hwe (we.bufcount - 1)
    have hbytes := entryBytes_set hwe (we.bufcount - 1)
    split at hs
    · obtain rfl := some.inj hs
      exact ⟨_, _, rfl, (entryBytes_reclaim _).trans hbytes, hplaced.reclaim⟩
    · obtain rfl := some.inj hs
      exact ⟨0, _, rfl, by omega, hplaced⟩

theorem wapblBiodone_inv : SpaceInv g wl' := by
  obtain ⟨reclaimed, entries, rfl, hbytes, hplaced⟩ := wapblBiodone_cases h hs
  have hsame : Log.bytes {wl with reclaimableBytes := wl.reclaimableBytes + reclaimed, entries := entries} = wl.bytes := by
    simp only [Log.bytes]
    omega
  refine ⟨hsame ▸ h.region, hplaced, ?_⟩
  have hpc := h.pc
  unfold PcOk at hpc ⊢
  simp only
  split at hpc
  · exact hpc
  · exact hpc
  · exact hpc
  · exact hpc
  · obtain ⟨hc, hd, hr, hroom⟩ := hpc
    exact ⟨hc, by simp only; omega, hsame ▸ hr, hsame ▸ hroom⟩
  · obtain ⟨hc, hd, hr, hroom⟩ := hpc
    exact ⟨hc, by simp only; omega, hsame ▸ hr, hsame ▸ hroom⟩
  · rw [hsame]
    exact hpc
  · obtain ⟨hc, hd, hr⟩ := hpc
    exact ⟨hc, by simp only; omega, hsame ▸ hr⟩
  · obtain ⟨hc, hd, hr⟩ := hpc
    exact ⟨hc, by simp only; omega, hsame ▸ hr⟩

end

/-! ### The steps of a flush -/

theorem truncateDelta_le (wl : Log) : truncateDelta wl ≤ wl.reclaimableBytes := by
  unfold truncateDelta
  split <;> omega

theorem truncateDelta_room {minfree : Nat} (hm : minfree ≤ g.circSize - wl.reservedBytes) (hpos : 0 < minfree)
    (hlt : wl.bytes < g.circSize) (hwait : minfree - (g.circSize - wl.bytes) ≤ wl.reclaimableBytes) :
    wl.bytes - truncateDelta wl + minfree ≤ g.circSize := by
  unfold truncateDelta
  split
  · next hempty =>
    have : wl.bytes = wl.reclaimableBytes := by simp [Log.bytes, hempty.1, entryBytes_nil]
    omega
  · omega

theorem wapblTruncate_inv {minfree : Nat} {after : After} (h : SpaceInv g wl) (hpc : wl.pc = .truncate minfree after)
    (hs : wapblTruncate g wl minfree after = some wl') : SpaceInv g wl' := by
  have hok := h.pc
  have hlt := h.bytes_le
  simp only [wapblTruncate, h.spaceFree] at hs
  split at hs
  · next hfree =>
    obtain rfl := some.inj hs
    refine ⟨h.region, h.placed, ?_⟩
    cases after with
    | out => simpa only [PcOk, hpc, After.pc] using hok
    | write tx waitfor =>
      simp only [PcOk, hpc] at hok
      obtain ⟨hc, hmin, -⟩ := hok
      refine ⟨hc, ?_⟩
      simp only [Log.bytes] at *
      omega
  split at hs
  · simp at hs
  · next hfree hwait =>
    obtain rfl := some.inj hs
    have hle := truncateDelta_le wl
    have hbytes : truncateDelta wl ≤ wl.bytes := hle.trans (Nat.le_add_right ..)
    have hcommitted : wl.committed = (wl.head, wl.tail) := by
      cases after with
      | out => simpa only [PcOk, hpc] using hok
      | write tx waitfor =>
        simp only [PcOk, hpc] at hok
        exact hok.1
    refine ⟨h.region, h.placed, hcommitted, hle, h.region.advanceTail hbytes, ?_⟩
    rintro tx waitfor rfl
    simp only [PcOk, hpc] at hok
    obtain ⟨-, rfl, hmax⟩ := hok
    exact truncateDelta_room hmax tx.flushsize_pos hlt (not_lt.mp hwait)

theorem placed_retail {head tail delta len : Nat} {entries : List WapblEntry}
    (hp : Placed g (origin g wl.tail) wl.reclaimableBytes entries) (hd : delta ≤ wl.reclaimableBytes)
    (hr : Region g (origin g wl.tail) delta len (head, tail)) (hlen : entries ≠ [] → 0 < len) :
    Placed g (origin g tail) (wl.reclaimableBytes - delta) entries := by
  by_cases hne : entries = []
  · rw [hne]
    trivial
  obtain ⟨h0, -⟩ | ⟨-, -, htail, -⟩ := hr
  · exact absurd h0 (hlen hne).ne'
  simp only at htail
  rw [origin_of_inRange (htail ▸ move_inRange g.size_pos ..), htail]
  exact hp.rebase hd

theorem truncateUpdate_inv {head tail delta : Nat} {after : After} (h : SpaceInv g wl) (hpc : wl.pc = .truncateUpdate head tail delta after) :
    SpaceInv g {wl with
      head := head, tail := tail, reclaimableBytes := wl.reclaimableBytes - delta, pc := after.pc} := by
  have hok := h.pc
  simp only [PcOk, hpc] at hok
  obtain ⟨hc, hd, hr, hroom⟩ := hok
  have hbytes : wl.reclaimableBytes - delta + entryBytes wl.entries = wl.bytes - delta := by
    simp only [Log.bytes]
    omega
  refine ⟨?_, placed_retail h.placed hd hr fun hne => ?_, ?_⟩
  · simp only [Log.bytes]
    rw [hbytes]
    exact hr.rebase
  · have := h.placed.bytes_pos hne
    omega
  cases after with
  | out => exact hc
  | write tx waitfor =>
    refine ⟨hc, ?_⟩
    simp only [Log.bytes]
    rw [hbytes]
    exact hroom tx waitfor rfl

theorem SpaceInv.start_eq (h : SpaceInv g wl) :
    (if wl.head = 0 then g.circOff else wl.head) = move g.circOff g.circSize (origin g wl.tail) wl.bytes := by
  obtain ⟨h0, heq⟩ | ⟨-, -, -, hhead⟩ := h.region
  · obtain ⟨h1, h2⟩ := Prod.mk.inj heq
    rw [if_pos h1, h2, h0, origin, if_pos rfl, move_zero (inRange_off g.size_pos)]
  simp only [zero_add] at hhead
  have hr : InRange g.circOff g.circSize wl.head := hhead ▸ move_inRange g.size_pos ..
  rw [if_neg (inRange_ne_zero hr), hhead]

theorem update_inv {head tail delta : Nat} {tx : Transaction} {waitfor : Bool} (h : SpaceInv g wl)
    (hpc : wl.pc = .update head tail delta tx waitfor) :
    SpaceInv g {wl with
      head := head, tail := tail, reclaimableBytes := wl.reclaimableBytes - delta
      reservedBytes := tx.reserved
      entries := wl.entries ++ [⟨tx.bufcount, tx.flushsize, if wl.head = 0 then g.circOff else wl.head⟩]
      pc := .waitOut waitfor} := by
  have hok := h.pc
  simp only [PcOk, hpc] at hok
  obtain ⟨hc, hd, hr⟩ := hok
  have hpos := tx.flushsize_pos
  refine ⟨?_, placed_retail (h.placed.append ⟨h.start_eq, hpos, trivial⟩) hd hr fun _ => ?_, hc⟩
  · have hbytes : wl.reclaimableBytes - delta + entryBytes
        (wl.entries ++ [⟨tx.bufcount, tx.flushsize, if wl.head = 0 then g.circOff else wl.head⟩]) =
        wl.bytes + tx.flushsize - delta := by
      rw [entryBytes_append, entryBytes_cons, entryBytes_nil, Log.bytes]
      simp only
      omega
    simp only [Log.bytes]
    rw [hbytes]
    exact hr.rebase
  · simp only [Log.bytes]
    omega

/-- When the head is to be advanced, the transaction leaves some of the log free, or
there is something to reclaim. -/
def RoomLeftAt (g : Circ) (wl : Log) : Pc → Prop
  | .advance tx _ => tx.flushsize < wapblSpaceFree g wl.head wl.tail ∨ 0 < wl.reclaimableBytes
  | .idle | .truncate .. | .truncateCommit .. | .truncateUpdate .. | .commit .. | .update .. | .waitOut _ => True

/-- No step of a flush fills the log exactly. -/
def RoomLeft (g : Circ) (wl : Log) : SpaceAction → Prop
  | .flushStep => RoomLeftAt g wl wl.pc
  | .flush _ | .biodone _ => True

theorem advance_inv {tx : Transaction} {waitfor : Bool} (h : SpaceInv g wl) (hpc : wl.pc = .advance tx waitfor)
    (hroom : tx.flushsize < wapblSpaceFree g wl.head wl.tail ∨ 0 < wl.reclaimableBytes)
    (hs : wapblFlushStep g wl = some wl') : SpaceInv g wl' := by
  have hok := h.pc
  simp only [PcOk, hpc] at hok
  obtain ⟨hc, hfit⟩ := hok
  simp only [wapblFlushStep, hpc] at hs
  obtain rfl := some.inj hs
  rw [h.spaceFree] at hroom
  have hle : wl.reclaimableBytes ≤ wl.bytes := Nat.le_add_right ..
  refine ⟨h.region, h.placed, hc, le_rfl, ?_⟩
  exact h.region.advanceBoth tx.flushsize_pos hfit hle (by omega)

theorem wapblFlushStep_inv (h : SpaceInv g wl) (ha : RoomLeft g wl .flushStep) (hs : wapblFlushStep g wl = some wl') : SpaceInv g wl' := by
  have hok := h.pc
  cases hpc : wl.pc with
  | idle => simp [wapblFlushStep, hpc] at hs
  | truncate minfree after =>
    simp only [wapblFlushStep, hpc] at hs
    exact wapblTruncate_inv h hpc hs
  | truncateCommit head tail delta after =>
    simp only [wapblFlushStep, hpc] at hs
    obtain rfl := some.inj hs
    simp only [PcOk, hpc] at hok
    exact ⟨h.region, h.placed, rfl, hok.2.delta_le, hok.2.region, hok.2.room⟩
  | truncateUpdate head tail delta after =>
    simp only [wapblFlushStep, hpc] at hs
    obtain rfl := some.inj hs
    exact truncateUpdate_inv h hpc
  | advance tx waitfor =>
    simp only [RoomLeft, hpc, RoomLeftAt] at ha
    exact advance_inv h hpc ha hs
  | commit head tail delta tx waitfor =>
    simp only [wapblFlushStep, hpc] at hs
    obtain rfl := some.inj hs
    simp only [PcOk, hpc] at hok
    exact ⟨h.region, h.placed, rfl, hok.2.delta_le, hok.2.region⟩
  | update head tail delta tx waitfor =>
    simp only [wapblFlushStep, hpc] at hs
    obtain rfl := some.inj hs
    exact update_inv h hpc
  | waitOut waitfor =>
    simp only [wapblFlushStep, hpc] at hs
    simp only [PcOk, hpc] at hok
    split at hs
    · obtain rfl := some.inj hs
      exact ⟨h.region, h.placed, hok⟩
    · obtain rfl := some.inj hs
      exact ⟨h.region, h.placed, hok⟩

theorem wapblFlush_inv {fl : Flush} (h : SpaceInv g wl) (hpc : wl.pc = .idle) (hs : wapblFlush g wl fl = some wl') : SpaceInv g wl' := by
  have hok := h.pc
  simp only [PcOk, hpc] at hok
  unfold wapblFlush at hs
  split at hs
  · obtain rfl := some.inj hs
    exact ⟨h.region, h.placed, hok⟩
  split at hs
  · simp at hs
  · next hmax =>
    obtain rfl := some.inj hs
    exact ⟨h.region, h.placed, hok, rfl, not_lt.mp hmax⟩

theorem spaceStep_inv {a : SpaceAction} (h : SpaceInv g wl) (ha : RoomLeft g wl a) (hs : spaceStep g wl a = some wl') : SpaceInv g wl' := by
  cases a with
  | flush fl =>
    simp only [spaceStep] at hs
    split at hs
    · next hpc => exact wapblFlush_inv h hpc hs
    · simp at hs
  | flushStep => exact wapblFlushStep_inv h ha hs
  | biodone i => exact wapblBiodone_inv h hs

end Inv

/-! ### Every run -/

instance (g : Circ) (wl : Log) : (pc : Pc) → Decidable (RoomLeftAt g wl pc)
  | .advance .. => inferInstanceAs (Decidable (_ ∨ _))
  | .idle | .truncate .. | .truncateCommit .. | .truncateUpdate .. | .commit .. | .update .. | .waitOut _ =>
    inferInstanceAs (Decidable True)

instance (g : Circ) (wl : Log) : (a : SpaceAction) → Decidable (RoomLeft g wl a)
  | .flushStep => inferInstanceAs (Decidable (RoomLeftAt g wl wl.pc))
  | .flush _ | .biodone _ => inferInstanceAs (Decidable True)

/-- `size` bytes from `start` on lie in the region from tail to head. -/
def Contained (g : Circ) (ht : Nat × Nat) (start size : Nat) : Prop :=
  Ring.dist g.circSize ht.2 start + size ≤ wapblSpaceUsed g ht.1 ht.2

/-- The transaction a flush has committed but not queued yet: where it lies, and its
length. -/
def Log.queueing (g : Circ) (wl : Log) : Option (Nat × Nat) :=
  match wl.pc with
  | .update _ _ _ tx _ => some (if wl.head = 0 then g.circOff else wl.head, tx.flushsize)
  | _ => none

/-- What the log owes to a crash at any time. -/
structure SpaceSound (g : Circ) (wl : Log) : Prop where
  committed : wl.committed = (0, 0) ∨ InRange g.circOff g.circSize wl.committed.1 ∧ InRange g.circOff g.circSize wl.committed.2
  used : wapblSpaceUsed g wl.head wl.tail = wl.reclaimableBytes + (wl.entries.map WapblEntry.reclaimableBytes).sum
  entries : ∀ we ∈ wl.entries, Contained g wl.committed we.start we.reclaimableBytes
  queueing : ∀ tx ∈ wl.queueing g, Contained g wl.committed tx.1 tx.2

section Sound
variable {g : Circ} {wl : Log}

/-- The committed region: it begins among the reclaimable bytes and reaches at least to
the head. -/
theorem SpaceInv.committed (h : SpaceInv g wl) : ∃ delta len, delta ≤ wl.reclaimableBytes ∧ wl.bytes ≤ delta + len ∧
    Region g (origin g wl.tail) delta len wl.committed ∧
      ∀ tx ∈ wl.queueing g, tx.1 = move g.circOff g.circSize (origin g wl.tail) wl.bytes ∧ wl.bytes + tx.2 ≤ delta + len := by
  have hok := h.pc
  have hbase (hc : wl.committed = (wl.head, wl.tail)) (hq : wl.queueing g = none) :
      ∃ delta len, delta ≤ wl.reclaimableBytes ∧ wl.bytes ≤ delta + len ∧
        Region g (origin g wl.tail) delta len wl.committed ∧ ∀ tx ∈ wl.queueing g,
          tx.1 = move g.circOff g.circSize (origin g wl.tail) wl.bytes ∧ wl.bytes + tx.2 ≤ delta + len :=
    ⟨0, wl.bytes, Nat.zero_le _, by omega, hc ▸ h.region, by simp [hq]⟩
  unfold PcOk at hok
  split at hok
  · next hpc => exact hbase hok (by simp [Log.queueing, hpc])
  · next hpc => exact hbase hok (by simp [Log.queueing, hpc])
  · next hpc => exact hbase hok (by simp [Log.queueing, hpc])
  · next hpc => exact hbase hok.1 (by simp [Log.queueing, hpc])
  · next hpc => exact hbase hok.1 (by simp [Log.queueing, hpc])
  · next head tail delta after hpc =>
    obtain ⟨hc, hd, hr, -⟩ := hok
    exact ⟨delta, _, hd, by omega, hc ▸ hr, by simp [Log.queueing, hpc]⟩
  · next hpc => exact hbase hok.1 (by simp [Log.queueing, hpc])
  · next hpc => exact hbase hok.1 (by simp [Log.queueing, hpc])
  · next head tail delta tx waitfor hpc =>
    obtain ⟨hc, hd, hr⟩ := hok
    refine ⟨delta, _, hd, by omega, hc ▸ hr, fun t ht => ?_⟩
    obtain rfl : (if wl.head = 0 then g.circOff else wl.head, tx.flushsize) = t := by
      simpa [Log.queueing, hpc] using ht
    exact ⟨h.start_eq, by omega⟩

theorem Region.contained {base delta len skip size : Nat} {ht : Nat × Nat} (h : Region g base delta len ht)
    (hd : delta ≤ skip) (hpos : 0 < size) (hle : skip + size ≤ delta + len) :
    Contained g ht (move g.circOff g.circSize base skip) size := by
  rw [Contained, h.spaceUsed]
  obtain ⟨h0, -⟩ | ⟨-, hlt, htail, -⟩ := h
  · omega
  have hr := @move_inRange g.circOff g.circSize g.size_pos base delta
  rw [show skip = delta + (skip - delta) by omega, ← move_move, htail, dist_move hr (by omega)]
  omega

theorem Placed.contained {base delta len skip : Nat} {ht : Nat × Nat} {entries : List WapblEntry}
    (h : Placed g base skip entries) (hr : Region g base delta len ht) (hd : delta ≤ skip)
    (hle : skip + entryBytes entries ≤ delta + len) :
    ∀ we ∈ entries, Contained g ht we.start we.reclaimableBytes := by
  induction entries generalizing skip with
  | nil => simp
  | cons we rest ih =>
    obtain ⟨hstart, hpos, hrest⟩ := h
    rw [entryBytes_cons] at hle
    refine List.forall_mem_cons.mpr ⟨?_, ih hrest (by omega) (by omega)⟩
    rw [hstart]
    exact hr.contained hd hpos (by omega)

theorem SpaceInv.sound (h : SpaceInv g wl) : SpaceSound g wl := by
  obtain ⟨delta, len, hd, hle, hr, hq⟩ := h.committed
  refine ⟨hr.inRange, h.region.spaceUsed, h.placed.contained hr hd hle, fun tx htx => ?_⟩
  obtain ⟨hstart, hlen⟩ := hq tx htx
  have hpos : 0 < tx.2 := by
    unfold Log.queueing at htx
    split at htx
    · next t _ _ =>
      obtain rfl := some.inj htx
      exact t.flushsize_pos
    · simp at htx
  rw [hstart]
  exact hr.contained (hd.trans (Nat.le_add_right ..)) hpos hlen

end Sound

theorem emptyLog_inv (g : Circ) : SpaceInv g emptyLog := ⟨.inl ⟨rfl, rfl⟩, trivial, rfl⟩

/-- In every run in which each transaction leaves room when it is put in, no committed
transaction is forgotten. -/
theorem log_space_sound (g : Circ) {wl : Log} (h : (spaceSystem g).Reach (RoomLeft g) wl) : SpaceSound g wl := by
  have hinv : SpaceInv g wl := h.invariant
    (fun wl hwl => hwl ▸ emptyLog_inv g) (fun wl a wl' hw ha hs => spaceStep_inv hw ha hs)
  exact hinv.sound

/-- Eight log blocks of 512 bytes behind the two headers. -/
def sampleCirc : Circ := ⟨1024, 4096, sample_off_pos, sample_size_pos⟩

/-- A transaction of `blocks + 1` log blocks. -/
def sampleTx (blocks : Nat) : Transaction :=
  ⟨1, 512 * (blocks + 1), 0, by decide, by omega, Nat.zero_le _⟩

/-- A flush that does not wait, to its end. -/
def flushActions (tx : Transaction) (steps : Nat) : List SpaceAction :=
  .flush ⟨some tx, false⟩ :: List.replicate steps .flushStep

theorem log_space_sound_sample : ∃ wl, (spaceSystem sampleCirc).Reach (RoomLeft sampleCirc) wl ∧
    wl.committed = (2560, 1024) ∧ SpaceSound sampleCirc wl := by
  have hr : (spaceSystem sampleCirc).Reach (RoomLeft sampleCirc)
      ⟨2560, 1024, 0, 0, [⟨1, 1536, 1024⟩], (2560, 1024), .idle⟩ :=
    System.reach_run _ (RoomLeft sampleCirc) (spaceStep sampleCirc) emptyLog (flushActions (sampleTx 2) 5) rfl
      (by decide)
  exact ⟨_, hr, rfl, log_space_sound sampleCirc hr⟩

/-- Three blocks are in the log and not written back when a transaction takes the other
five: the log is committed as empty. -/
theorem log_space_lost_full : ¬ ∀ wl, (spaceSystem sampleCirc).Reachable wl → SpaceSound sampleCirc wl := by
  intro h
  have hr : (spaceSystem sampleCirc).Reachable
      ⟨0, 0, 0, 0, [⟨1, 1536, 1024⟩, ⟨1, 2560, 2560⟩], (0, 0), .idle⟩ :=
    System.reach_run _ (fun _ _ => True) (spaceStep sampleCirc) emptyLog
      (flushActions (sampleTx 2) 5 ++ flushActions (sampleTx 4) 7) rfl (by decide)
  exact absurd (h _ hr).used (by decide)

end NetBSD.Kern.Wapbl
