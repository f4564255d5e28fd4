import NetBSD.Kern.SysPipe.Pipe
import Mathlib.Tactic.SplitIfs

/-! A pipe is a queue of bytes.

Whoever is under the long-term lock is alone with the buffer, so what a call has seen there is still true when it is back
in the mutex: the bytes that a read has copied are the first of the contents, and those that a write has copied lie behind
them. `Inv` says so of every call, and `Running` is what is left of it for a call that is in the mutex and under the lock.
A call that comes out of its loop restores `Inv` with the facts of the phase it is in then. -/
namespace NetBSD.Kern.SysPipe
open List Function Nat
open Lib

variable {log : List (Nat × List (BitVec 8))} {c d : Nat} {p : List (BitVec 8)}

theorem bytes_append : bytes (log ++ [(c, p)]) = bytes log ++ p := by
  rw [bytes, map_append, flatten_append, bytes, map_singleton, flatten_singleton]

theorem own_append_self : own (log ++ [(c, p)]) c = own log c ++ [p] := by
  rw [own, filter_append, map_append, filter_singleton, decide_eq_true (show (c, p).1 = c from rfl)]
  rfl

theorem own_append_of_ne (h : d ≠ c) : own (log ++ [(c, p)]) d = own log d := by
  rw [own, filter_append, map_append, filter_singleton, decide_eq_false (show (c, p).1 ≠ d from Ne.symm h)]
  exact append_nil _

variable {wr : Writer}

theorem Writer.chunk_add (a j k : Nat) : wr.chunk a (j + k) = wr.chunk a j ++ wr.chunk (a + j) k := by
  rw [Writer.chunk, range_add, map_append, map_map]
  congr 1
  apply map_congr_left
  intro i _
  rw [comp_apply, add_assoc]

theorem Writer.length_chunk (a k : Nat) : (wr.chunk a k).length = k := by
  rw [Writer.chunk, length_map, length_range]

/-! ### The buffer -/

theorem copyTo_eq_store (buffer : Nat → BitVec 8) (a k done : Nat) :
    copyTo buffer a k (fun i => wr.base (done + i)) = RingBuffer.store buffer a (wr.chunk done k) := by
  funext j
  rw [copyTo, RingBuffer.store]
  by_cases ha : a ≤ j
  · rw [if_pos ha]
    by_cases hk : j < a + k
    · rw [if_pos ⟨ha, hk⟩, Writer.chunk, getD_eq_getElem _ _ (by rw [length_map, length_range]; omega)]
      rw [getElem_map, getElem_range]
    · rw [if_neg fun h => hk h.2, getD_eq_default _ _ (by rw [Writer.length_chunk]; omega)]
  · rw [if_neg ha, if_neg fun h => ha h.1]

structure Pipebuf.Ok (bp : Pipebuf) : Prop where
  out_lt : bp.out < bp.size
  cnt_le : bp.cnt ≤ bp.size
  in_eq : (bp.out + bp.cnt) % bp.size = bp.in_

variable {bp : Pipebuf}

theorem Pipebuf.Ok.in_lt (h : bp.Ok) : bp.in_ < bp.size := by
  rw [← h.in_eq]
  exact mod_lt _ (zero_lt_of_lt h.out_lt)

theorem Pipebuf.Ok.wraps (h : bp.Ok) {k : Nat} (hk : bp.in_ + k = bp.size) : (bp.out + (bp.cnt + k)) % bp.size = 0 := by
  rw [← add_assoc, ← mod_add_mod, h.in_eq, hk, mod_self]

theorem pipespace_ok {buffer : Nat → BitVec 8} {size : Nat} (h : 0 < size) : (pipespace buffer size).Ok :=
  ⟨h, zero_le _, zero_mod _⟩

theorem Pipebuf.contents_nil (h : bp.cnt = 0) : bp.contents = [] := by rw [Pipebuf.contents, h, RingBuffer.contents_zero]

/-- What of a block that a write has copied is behind the contents. -/
def Pipebuf.Behind (bp : Pipebuf) (p : List (BitVec 8)) : Prop :=
  RingBuffer.contents bp.size bp.buffer bp.out (bp.cnt + p.length) = bp.contents ++ p

theorem Pipebuf.Ok.fill (h : bp.Ok) {q : List (BitVec 8)} {a : Nat} (hp : bp.Behind p)
    (hroom : bp.cnt + p.length + q.length ≤ bp.size) (ha : (bp.out + (bp.cnt + p.length)) % bp.size = a)
    (hpiece : a + q.length ≤ bp.size) :
    let bp' : Pipebuf := { bp with buffer := RingBuffer.store bp.buffer a q }
    bp'.contents = bp.contents ∧ bp'.Behind (p ++ q) := by
  intro bp'
  have hstore := @RingBuffer.contents_store _ _ _ _ bp.buffer _ h.out_lt hroom (by rw [ha]; exact hpiece)
  rw [ha, hp] at hstore
  have hfront : bp'.contents = bp.contents := by
    rw [Pipebuf.contents, ← RingBuffer.take_contents (show bp.cnt ≤ bp.cnt + p.length + q.length by omega)]
    rw [hstore, append_assoc, take_append_of_le_length (by rw [Pipebuf.contents, RingBuffer.length_contents])]
    rw [take_of_length_le (by rw [Pipebuf.contents, RingBuffer.length_contents])]
  refine ⟨hfront, ?_⟩
  rw [Pipebuf.Behind, hfront, length_append, ← add_assoc]
  rw [hstore, append_assoc]

/-- The first of the bytes leave the buffer. -/
def Pipebuf.drop (bp : Pipebuf) (size : Nat) : Pipebuf :=
  let out := bp.out + size
  let out := if out ≥ bp.size then 0 else out
  let cnt := bp.cnt - size
  if cnt = 0 then { bp with cnt := cnt, in_ := 0, out := 0 } else { bp with cnt := cnt, out := out }

theorem Pipebuf.Ok.drop (h : bp.Ok) {size : Nat} (hsize : size ≤ bp.cnt) (hpiece : bp.out + size ≤ bp.size) :
    (bp.drop size).Ok ∧ (bp.drop size).size = bp.size ∧
      bp.contents = RingBuffer.contents bp.size bp.buffer bp.out size ++ (bp.drop size).contents := by
  have hout := h.out_lt
  have hcnt := h.cnt_le
  have hadd := @RingBuffer.contents_add _ bp.size bp.out bp.buffer size (bp.cnt - size)
  rw [Nat.add_sub_cancel' hsize] at hadd
  rw [Pipebuf.drop]
  split
  · next hzero =>
    refine ⟨⟨zero_lt_of_lt hout, ?_, ?_⟩, rfl, ?_⟩
    · change bp.cnt - size ≤ bp.size
      omega
    · change (0 + (bp.cnt - size)) % bp.size = 0
      rw [hzero, zero_mod]
    · rw [Pipebuf.contents, hadd, hzero, Pipebuf.contents_nil rfl, RingBuffer.contents_zero]
  have hplace : (if bp.out + size ≥ bp.size then 0 else bp.out + size) = (bp.out + size) % bp.size := by
    rw [RingBuffer.place_eq hout (by omega)]
    split_ifs <;> omega
  refine ⟨⟨?_, ?_, ?_⟩, rfl, ?_⟩
  · rw [hplace]
    exact mod_lt _ (zero_lt_of_lt hout)
  · change bp.cnt - size ≤ bp.size
    omega
  · rw [hplace, mod_add_mod, add_assoc, Nat.add_sub_cancel' hsize, h.in_eq]
  · rw [hplace]
    exact hadd

theorem Pipebuf.Ok.extend (h : bp.Ok) (segsize : Nat) (hp : bp.Behind p) (hroom : bp.cnt + p.length ≤ bp.size)
    (hseg : segsize = min (bp.size - bp.in_) p.length) :
    let bp' : Pipebuf := { bp with
      in_ := if bp.in_ + p.length ≥ bp.size then p.length - segsize else bp.in_ + p.length
      cnt := bp.cnt + p.length }
    bp'.Ok ∧ bp'.contents = bp.contents ++ p := by
  have hin := h.in_lt
  refine ⟨⟨h.out_lt, hroom, ?_⟩, hp⟩
  change (bp.out + (bp.cnt + p.length)) % bp.size = if bp.in_ + p.length ≥ bp.size then p.length - segsize else bp.in_ + p.length
  rw [← add_assoc, ← mod_add_mod, h.in_eq, RingBuffer.place_eq hin (by omega)]
  split_ifs <;> omega

/-! ### The invariant -/

/-- What a call under the lock has seen of the buffer is true of it. -/
def Phase.Seen (bp : Pipebuf) : Phase → Prop
  | .readCopy _ size => size ≤ bp.cnt ∧ bp.out + size ≤ bp.size
  | .readCopied _ size p => (size ≤ bp.cnt ∧ bp.out + size ≤ bp.size) ∧ p = RingBuffer.contents bp.size bp.buffer bp.out size
  | .writeCopy _ size segsize => bp.cnt + size ≤ bp.size ∧ segsize = min (bp.size - bp.in_) size
  | .writeRest wr size segsize =>
    (bp.cnt + size ≤ bp.size ∧ segsize = min (bp.size - bp.in_) size) ∧ segsize < size ∧ bp.Behind (wr.chunk wr.done segsize)
  | .writeCopied wr size segsize =>
    (bp.cnt + size ≤ bp.size ∧ segsize = min (bp.size - bp.in_) size) ∧ bp.Behind (wr.chunk wr.done size)
  | _ => True

/-- The pieces that a read has taken. -/
def Reader.Took (rd : Reader) (taken accepted : List (List (BitVec 8))) : Prop :=
  taken.flatten = rd.got ∧ rd.nread = rd.got.length ∧ accepted = []

/-- The pieces of a write that are accepted. A small write has none yet, or one and nothing is left. -/
def Writer.Gave (wr : Writer) (taken accepted : List (List (BitVec 8))) : Prop :=
  accepted.flatten = wr.chunk 0 wr.done ∧
    (wr.len ≤ pipeBuf → wr.done = 0 ∧ accepted = [] ∨ wr.resid = 0 ∧ accepted = [wr.whole]) ∧ taken = []

/-- A write that has a piece to copy: all of it, if it is small. -/
def Writer.Piece (wr : Writer) (size : Nat) : Prop := 0 < size ∧ size ≤ wr.resid ∧ (wr.len ≤ pipeBuf → size = wr.resid)

def Phase.Booked (taken accepted : List (List (BitVec 8))) : Phase → Prop
  | .idle => taken = [] ∧ accepted = []
  | .readLock rd => rd.Took taken accepted ∧ rd.nread = 0
  | .readWait rd => rd.Took taken accepted ∧ rd.nread = 0
  | .readCopy rd _ => rd.Took taken accepted
  | .readCopied rd _ _ => rd.Took taken accepted
  | .readFailed rd => rd.Took taken accepted
  | .readDone rd error => rd.Took taken accepted ∧ (error = none ∨ error = some .EFAULT ∨ rd.nread = 0)
  | .writeLock wr => wr.Gave taken accepted ∧ wr.done = 0 ∧ accepted = []
  | .writeCopy wr size _ => wr.Gave taken accepted ∧ wr.Piece size
  | .writeRest wr size _ => wr.Gave taken accepted ∧ wr.Piece size
  | .writeCopied wr size _ => wr.Gave taken accepted ∧ wr.Piece size
  | .writeFailed wr => wr.Gave taken accepted ∧ 0 < wr.resid
  | .writeWait wr => wr.Gave taken accepted ∧ 0 < wr.resid
  | .writeRelock wr _ => wr.Gave taken accepted ∧ 0 < wr.resid
  | .writeDone wr error => wr.Gave taken accepted ∧ (error = none → wr.resid = 0) ∧
      (error ≠ none → 0 < wr.resid ∨ wr.done = 0 ∧ accepted = [])

structure Inv (w : World) : Prop where
  ok : w.bp.Ok
  fifo : bytes w.accepted = bytes w.taken ++ w.bp.contents
  lock : ∀ c, (w.phase c).holds = true → w.lockfl = true ∧ ∀ d, (w.phase d).holds = true → d = c
  seen : ∀ c, (w.phase c).Seen w.bp
  booked : ∀ c, (w.phase c).Booked (own w.taken c) (own w.accepted c)

/-- A call that is in the mutex and under the lock: the phase that it was in does not matter. -/
structure Running (w : World) (c : Nat) : Prop where
  ok : w.bp.Ok
  fifo : bytes w.accepted = bytes w.taken ++ w.bp.contents
  lock : w.lockfl = true
  alone : ∀ d, d ≠ c → (w.phase d).holds = false
  booked : ∀ d, d ≠ c → (w.phase d).Booked (own w.taken d) (own w.accepted d)

theorem Phase.seen_of_not_holds {p : Phase} (h : p.holds = false) : p.Seen bp := by
  cases p <;> trivial

variable {w : World} {q : Phase}

theorem Inv.running (h : Inv w) (hc : (w.phase c).holds = true) : Running w c where
  ok := h.ok
  fifo := h.fifo
  lock := (h.lock c hc).1
  alone d hd := Bool.eq_false_iff.mpr fun hholds => hd ((h.lock c hc).2 d hholds)
  booked d _ := h.booked d

theorem Inv.take (h : Inv w) (hfree : w.lockfl = false) : Running { w with lockfl := true } c where
  ok := h.ok
  fifo := h.fifo
  lock := rfl
  alone d _ := Bool.eq_false_iff.mpr fun hholds => by
    have hlock := (h.lock d hholds).1
    rw [hfree] at hlock
    cases hlock
  booked d _ := h.booked d

theorem Running.settle (h : Running w c) (hseen : q.Seen w.bp) (hbooked : q.Booked (own w.taken c) (own w.accepted c)) :
    Inv ({ w with lockfl := q.holds }.goto c q) where
  ok := h.ok
  fifo := h.fifo
  lock d hd := by
    change (update w.phase c q d).holds = true at hd
    by_cases hdc : d = c
    · obtain rfl := hdc
      rw [update_self] at hd
      refine ⟨hd, fun e he => ?_⟩
      change (update w.phase d q e).holds = true at he
      by_contra hne
      rw [update_of_ne hne, h.alone e hne] at he
      cases he
    · rw [update_of_ne hdc, h.alone d hdc] at hd
      cases hd
  seen d := by
    change (update w.phase c q d).Seen w.bp
    by_cases hdc : d = c
    · obtain rfl := hdc
      rwa [update_self]
    · rw [update_of_ne hdc]
      exact Phase.seen_of_not_holds (h.alone d hdc)
  booked d := by
    change (update w.phase c q d).Booked _ _
    by_cases hdc : d = c
    · obtain rfl := hdc
      rwa [update_self]
    · rw [update_of_ne hdc]
      exact h.booked d hdc

theorem Inv.outside (h : Inv w) (hc : (w.phase c).holds = false) (hph : q.holds = false)
    (hbooked : q.Booked (own w.taken c) (own w.accepted c)) : Inv (w.goto c q) where
  ok := h.ok
  fifo := h.fifo
  lock d hd := by
    have hold : ∀ e, ((w.goto c q).phase e).holds = true → (w.phase e).holds = true := by
      intro e he
      change (update w.phase c q e).holds = true at he
      by_cases hec : e = c
      · obtain rfl := hec
        rw [update_self, hph] at he
        cases he
      · rwa [update_of_ne hec] at he
    exact ⟨(h.lock d (hold d hd)).1, fun e he => (h.lock d (hold d hd)).2 e (hold e he)⟩
  seen d := by
    change (update w.phase c q d).Seen w.bp
    by_cases hdc : d = c
    · obtain rfl := hdc
      rw [update_self]
      exact Phase.seen_of_not_holds hph
    · rw [update_of_ne hdc]
      exact h.seen d
  booked d := by
    change (update w.phase c q d).Booked _ _
    by_cases hdc : d = c
    · obtain rfl := hdc
      rwa [update_self]
    · rw [update_of_ne hdc]
      exact h.booked d

theorem Running.stay (h : Running w c) (hph : q.holds = true) (hseen : q.Seen w.bp)
    (hbooked : q.Booked (own w.taken c) (own w.accepted c)) : Inv (w.goto c q) := by
  have hsettle := h.settle hseen hbooked
  rwa [hph, ← h.lock] at hsettle

variable {rd : Reader} {error : Option Errno}

section
variable (h : Running w c) (hrd : rd.Took (own w.taken c) (own w.accepted c))
include h hrd

theorem Running.readExit (herror : error = none ∨ error = some .EFAULT ∨ rd.nread = 0) : Inv (readExit w c rd error) :=
  h.settle (q := .readDone rd error) trivial ⟨hrd, herror⟩

theorem Running.readLoop : Inv (readLoop w c rd) := by
  rw [SysPipe.readLoop]
  split
  · exact h.readExit hrd (.inl rfl)
  split
  · apply h.stay (q := .readCopy rd _) rfl ?_ hrd
    have hout := h.ok.out_lt
    dsimp only [Phase.Seen]
    split_ifs <;> omega
  split
  · exact h.readExit hrd (.inl rfl)
  · next hnread =>
    have hnread : rd.nread = 0 := Nat.eq_zero_of_not_pos hnread
    split
    · exact h.readExit hrd (.inl rfl)
    split
    · exact h.readExit hrd (.inr (.inr hnread))
    split
    · exact h.readExit hrd (.inr (.inr hnread))
    · exact h.settle (q := .readWait rd) trivial ⟨hrd, hnread⟩

end

theorem Inv.readLocking (h : Inv w) (hc : (w.phase c).holds = false) (hrd : rd.Took (own w.taken c) (own w.accepted c))
    (hnread : rd.nread = 0) : Inv (readLocking w c rd) := by
  rw [SysPipe.readLocking]
  split
  · exact h.outside (q := .readLock rd) hc rfl ⟨hrd, hnread⟩
  · next hfree => exact (h.take (Bool.eq_false_iff.mpr hfree)).readLoop hrd

theorem Running.readCommit (h : Running w c) (hrd : rd.Took (own w.taken c) (own w.accepted c)) {size : Nat}
    (hsize : size ≤ w.bp.cnt) (hpiece : w.bp.out + size ≤ w.bp.size)
    (hp : p = RingBuffer.contents w.bp.size w.bp.buffer w.bp.out size) : Inv (readCommit w c rd size p) := by
  obtain ⟨hok, -, hcontents⟩ := h.ok.drop hsize hpiece
  obtain ⟨hgot, hnread, haccepted⟩ := hrd
  have hrunning : Running { w with bp := w.bp.drop size, taken := w.taken ++ [(c, p)] } c :=
    { ok := hok
      fifo := by
        rw [h.fifo, hcontents, bytes_append, hp, append_assoc]
      lock := h.lock
      alone := h.alone
      booked := fun d hd => by
        rw [own_append_of_ne hd]
        exact h.booked d hd }
  apply hrunning.readLoop
  refine ⟨?_, ?_, haccepted⟩
  · rw [own_append_self, flatten_append, hgot, flatten_singleton]
  · rw [length_append, hnread, hp, RingBuffer.length_contents]

/-! ### Writes -/

theorem Writer.Gave.resid_pos {taken accepted : List (List (BitVec 8))} (h : wr.Gave taken accepted) (hresid : 0 < wr.resid)
    (hsmall : wr.len ≤ pipeBuf) : wr.done = 0 ∧ accepted = [] := by
  obtain h | ⟨h, -⟩ := h.2.1 hsmall
  · exact h
  · omega

section
variable (h : Running w c) (hwr : wr.Gave (own w.taken c) (own w.accepted c))
include h hwr

theorem Running.writeExit (hdone : error = none → wr.resid = 0) (hleft : error ≠ none → 0 < wr.resid) : Inv (writeExit w c wr error) := by
  apply h.settle (q := .writeDone wr _) trivial
  refine ⟨hwr, fun herror => ?_, fun herror => ?_⟩
  · split at herror
    · next hall => exact hall.2.2
    · exact hdone herror
  · split at herror
    · exact absurd rfl herror
    · exact .inl (hleft herror)

theorem Running.writeLoop : Inv (writeLoop w c wr) := by
  rw [SysPipe.writeLoop]
  split
  · next hzero => exact h.writeExit hwr (fun _ => hzero) (fun herror => absurd rfl herror)
  · next hresid =>
    have hresid : 0 < wr.resid := Nat.pos_of_ne_zero hresid
    have hfail : ∀ e : Errno, Inv (SysPipe.writeExit w c wr (some e)) := fun e =>
      h.writeExit hwr nofun (fun _ => hresid)
    have hwait : Inv (if w.wflag then SysPipe.writeExit w c wr (some .EAGAIN)
        else if wr.restart then SysPipe.writeExit w c wr (some .ERESTART)
        else { w with lockfl := false }.goto c (.writeWait wr)) := by
      split
      · exact hfail _
      split
      · exact hfail _
      · exact h.settle (q := .writeWait wr) trivial ⟨hwr, hresid⟩
    dsimp only
    by_cases hatomic : w.bp.size - w.bp.cnt < wr.resid ∧ wr.resid ≤ pipeBuf
    · rw [if_pos hatomic]
      exact hwait
    rw [if_neg hatomic]
    split
    · have hlen : wr.len = wr.done + wr.resid := rfl
      apply h.stay rfl
      · dsimp only [Phase.Seen]
        split_ifs <;> omega
      refine ⟨hwr, ?_, ?_, fun hle => ?_⟩
      · split_ifs <;> omega
      · split_ifs <;> omega
      split_ifs
      · rfl
      · omega
    · exact hwait

theorem Running.writeLocked (grow : Option (Nat → BitVec 8)) : Inv (writeLocked w c wr grow) := by
  rw [SysPipe.writeLocked.eq_def]
  split
  · next hgrow =>
    cases grow with
    | none => exact h.writeLoop hwr
    | some buffer =>
      have hrunning : Running { w with bp := pipespace buffer bigPipeSize } c :=
        { ok := pipespace_ok (by decide)
          fifo := by
            rw [h.fifo, Pipebuf.contents_nil hgrow.2.2, Pipebuf.contents_nil rfl]
          lock := h.lock
          alone := h.alone
          booked := h.booked }
      exact hrunning.writeLoop hwr
  · exact h.writeLoop hwr

end

theorem Inv.writeLocking (h : Inv w) (hc : (w.phase c).holds = false) (hwr : wr.Gave (own w.taken c) (own w.accepted c))
    (hdone : wr.done = 0) (hnone : own w.accepted c = []) (grow : Option (Nat → BitVec 8)) :
    Inv (writeLocking w c wr grow) := by
  rw [SysPipe.writeLocking]
  split
  · exact h.outside (q := .writeLock wr) hc rfl ⟨hwr, hdone, hnone⟩
  · next hfree => exact (h.take (Bool.eq_false_iff.mpr hfree)).writeLocked hwr grow

theorem Running.writeRelocked (h : Running w c) (hwr : wr.Gave (own w.taken c) (own w.accepted c)) (hresid : 0 < wr.resid) :
    Inv (writeRelocked w c wr error) := by
  rw [SysPipe.writeRelocked]
  split
  · next hsome => exact h.writeExit hwr (fun herror => by rw [herror] at hsome; cases hsome) (fun _ => hresid)
  split
  · exact h.writeExit hwr nofun (fun _ => hresid)
  · exact h.writeLoop hwr

theorem Inv.writeRelocking (h : Inv w) (hc : (w.phase c).holds = false) (hwr : wr.Gave (own w.taken c) (own w.accepted c))
    (hresid : 0 < wr.resid) : Inv (writeRelocking w c wr error) := by
  rw [SysPipe.writeRelocking]
  split
  · exact h.outside (q := .writeRelock wr error) hc rfl ⟨hwr, hresid⟩
  · next hfree => exact (h.take (Bool.eq_false_iff.mpr hfree)).writeRelocked hwr hresid

theorem Running.fill (h : Running w c) (wr : Writer) (done : Nat) {a k : Nat} (hp : w.bp.Behind p) (hroom : w.bp.cnt + p.length + k ≤ w.bp.size)
    (ha : (w.bp.out + (w.bp.cnt + p.length)) % w.bp.size = a) (hpiece : a + k ≤ w.bp.size) :
    Running (w.fill a k wr done) c ∧ (w.fill a k wr done).bp.Behind (p ++ wr.chunk done k) := by
  have hlen := wr.length_chunk done k
  obtain ⟨hcontents, hbehind⟩ := h.ok.fill (q := wr.chunk done k) hp (by omega) ha (by omega)
  rw [World.fill, copyTo_eq_store]
  refine ⟨⟨⟨h.ok.out_lt, h.ok.cnt_le, h.ok.in_eq⟩, ?_, h.lock, h.alone, h.booked⟩, hbehind⟩
  rw [h.fifo]
  exact congrArg (bytes w.taken ++ ·) hcontents.symm

theorem Running.writeCommit (h : Running w c) (hwr : wr.Gave (own w.taken c) (own w.accepted c)) {size segsize : Nat}
    (hsize : wr.Piece size) (hroom : w.bp.cnt + size ≤ w.bp.size) (hseg : segsize = min (w.bp.size - w.bp.in_) size)
    (hbehind : w.bp.Behind (wr.chunk wr.done size)) : Inv (writeCommit w c wr size segsize) := by
  have hlen := wr.length_chunk wr.done size
  have hextend := h.ok.extend segsize hbehind (by omega) (by rw [hlen]; exact hseg)
  rw [hlen] at hextend
  obtain ⟨hok, hcontents⟩ := hextend
  obtain ⟨hpos, hle, hall⟩ := hsize
  apply Running.writeLoop
  · exact
      { ok := hok
        fifo := by
          rw [bytes_append, h.fifo, append_assoc]
          exact congrArg (bytes w.taken ++ ·) hcontents.symm
        lock := h.lock
        alone := h.alone
        booked := fun d hd => by
          rw [own_append_of_ne hd]
          exact h.booked d hd }
  obtain ⟨hflat, hsmall, htaken⟩ := id hwr
  rw [own_append_self]
  refine ⟨?_, fun hbuf => .inr ?_, htaken⟩
  · rw [flatten_append, hflat, flatten_singleton]
    change _ = wr.chunk 0 (wr.done + size)
    rw [Writer.chunk_add, zero_add]
  have hlen' : wr.len = wr.done + size + (wr.resid - size) := by rw [Writer.len]; omega
  have hbuf : wr.len ≤ pipeBuf := hlen' ▸ hbuf
  have heq := hall hbuf
  obtain ⟨hdone, hnone⟩ := hwr.resid_pos (by omega) hbuf
  refine ⟨?_, ?_⟩
  · change wr.resid - size = 0
    omega
  rw [hnone]
  change [wr.chunk wr.done size] = [wr.chunk 0 (wr.done + size + (wr.resid - size))]
  rw [hdone, heq, Nat.sub_self, Nat.add_zero, Nat.zero_add]

/-! ### Runs -/

theorem inv_created (buffer : Nat → BitVec 8) : Inv (created buffer) where
  ok := pipespace_ok (by decide)
  fifo := rfl
  lock _ h := nomatch h
  seen _ := trivial
  booked _ := ⟨rfl, rfl⟩

theorem Inv.copy (h : Inv w) {w' : World} (hstep : next w (.copy c) = some w') : Inv w' := by
  have hseen := h.seen c
  have hbooked := h.booked c
  have hin := h.ok.in_lt
  dsimp only [next] at hstep
  split at hstep
  · next rd size hphase =>
    cases hstep
    rw [hphase] at hseen hbooked
    apply (h.running (by rw [hphase]; rfl)).stay (q := .readCopied rd size _) rfl ⟨hseen, ?_⟩ hbooked
    exact (RingBuffer.contents_straight hseen.2).symm
  · next wr size segsize hphase =>
    cases hstep
    rw [hphase] at hseen hbooked
    obtain ⟨hroom, hseg⟩ := hseen
    have hempty : w.bp.Behind [] := (append_nil _).symm
    obtain ⟨hrunning, hbehind⟩ := (h.running (by rw [hphase]; rfl)).fill wr wr.done (k := segsize) hempty
      (by rw [length_nil]; omega) h.ok.in_eq (by omega)
    split
    · next hlt => exact hrunning.stay (q := .writeRest wr size segsize) rfl ⟨⟨hroom, hseg⟩, hlt, hbehind⟩ hbooked
    have heq : segsize = size := by omega
    obtain rfl := heq
    exact hrunning.stay (q := .writeCopied wr segsize segsize) rfl ⟨⟨hroom, hseg⟩, hbehind⟩ hbooked
  · next wr size segsize hphase =>
    cases hstep
    rw [hphase] at hseen hbooked
    obtain ⟨⟨hroom, hseg⟩, hlt, hbehind⟩ := hseen
    have hlen := wr.length_chunk wr.done segsize
    obtain ⟨hrunning, hbehind'⟩ := (h.running (by rw [hphase]; rfl)).fill wr (wr.done + segsize) (a := 0) (k := size - segsize)
      hbehind (by omega) (by exact h.ok.wraps (by omega)) (by omega)
    apply hrunning.stay (q := .writeCopied wr size segsize) rfl ⟨⟨hroom, hseg⟩, ?_⟩ hbooked
    have hadd := wr.chunk_add wr.done segsize (size - segsize)
    rw [Nat.add_sub_cancel' (le_of_lt hlt)] at hadd
    rw [hadd]
    exact hbehind'
  · cases hstep

theorem Inv.fault (h : Inv w) (k : Nat) {w' : World} (hstep : next w (.fault c k) = some w') : Inv w' := by
  have hseen := h.seen c
  have hbooked := h.booked c
  have hin := h.ok.in_lt
  dsimp only [next] at hstep
  split at hstep
  · next rd size hphase =>
    cases hstep
    rw [hphase] at hbooked
    exact (h.running (by rw [hphase]; rfl)).stay (q := .readFailed rd) rfl trivial hbooked
  · next wr size segsize hphase =>
    cases hstep
    rw [hphase] at hseen hbooked
    obtain ⟨hroom, hseg⟩ := hseen
    obtain ⟨hwr, hpos, hle, -⟩ := hbooked
    have hempty : w.bp.Behind [] := (append_nil _).symm
    obtain ⟨hrunning, -⟩ := (h.running (by rw [hphase]; rfl)).fill wr wr.done (k := min k segsize) hempty
      (by rw [length_nil]; omega) h.ok.in_eq (by omega)
    exact hrunning.stay (q := .writeFailed wr) rfl trivial ⟨hwr, by omega⟩
  · next wr size segsize hphase =>
    cases hstep
    rw [hphase] at hseen hbooked
    obtain ⟨⟨hroom, hseg⟩, hlt, hbehind⟩ := hseen
    obtain ⟨hwr, hpos, hle, -⟩ := hbooked
    have hlen := wr.length_chunk wr.done segsize
    obtain ⟨hrunning, -⟩ := (h.running (by rw [hphase]; rfl)).fill wr (wr.done + segsize) (a := 0) (k := min k (size - segsize))
      hbehind (by omega) (by exact h.ok.wraps (by omega)) (by omega)
    exact hrunning.stay (q := .writeFailed wr) rfl trivial ⟨hwr, by omega⟩
  · cases hstep

theorem Inv.enter (h : Inv w) {w' : World} (hstep : next w (.enter c) = some w') : Inv w' := by
  have hseen := h.seen c
  have hbooked := h.booked c
  dsimp only [next] at hstep
  split at hstep
  · next rd size p hphase =>
    cases hstep
    rw [hphase] at hseen hbooked
    exact (h.running (by rw [hphase]; rfl)).readCommit hbooked hseen.1.1 hseen.1.2 hseen.2
  · next rd hphase =>
    cases hstep
    rw [hphase] at hbooked
    exact (h.running (by rw [hphase]; rfl)).readExit hbooked (.inr (.inl rfl))
  · next wr size segsize hphase =>
    cases hstep
    rw [hphase] at hseen hbooked
    exact (h.running (by rw [hphase]; rfl)).writeCommit hbooked.1 hbooked.2 hseen.1.1 hseen.1.2 hseen.2
  · next wr hphase =>
    cases hstep
    rw [hphase] at hbooked
    exact (h.running (by rw [hphase]; rfl)).writeExit hbooked.1 nofun (fun _ => hbooked.2)
  · cases hstep

theorem Inv.start (h : Inv w) {base : Nat → BitVec 8} {len : Nat} {grow : Option (Nat → BitVec 8)} {w' : World}
    (hstep : next w (.write c base len grow) = some w') : Inv w' := by
  have hbooked := h.booked c
  dsimp only [next] at hstep
  split at hstep
  · next hphase =>
    rw [hphase] at hbooked
    have hgave : Writer.Gave ⟨base, 0, len, false⟩ (own w.taken c) (own w.accepted c) := by
      refine ⟨?_, fun _ => .inl ⟨rfl, hbooked.2⟩, hbooked.1⟩
      rw [hbooked.2]
      rfl
    have hc : (w.phase c).holds = false := by rw [hphase]; rfl
    split at hstep
    · cases hstep
      exact h.outside (q := .writeDone _ _) hc rfl ⟨hgave, nofun, fun _ => .inr ⟨rfl, hbooked.2⟩⟩
    · cases hstep
      exact h.writeLocking hc hgave rfl hbooked.2 grow
  · cases hstep

theorem Inv.next (h : Inv w) {l : Label} {w' : World} (hstep : next w l = some w') : Inv w' := by
  cases l with
  | close => cases hstep; exact ⟨h.ok, h.fifo, h.lock, h.seen, h.booked⟩
  | restart => cases hstep; exact ⟨h.ok, h.fifo, h.lock, h.seen, h.booked⟩
  | fcntl => cases hstep; exact ⟨h.ok, h.fifo, h.lock, h.seen, h.booked⟩
  | read c len =>
    have hbooked := h.booked c
    dsimp only [SysPipe.next] at hstep
    split at hstep
    · next hphase =>
      cases hstep
      rw [hphase] at hbooked
      apply h.readLocking (by rw [hphase]; rfl) ⟨?_, rfl, hbooked.2⟩ rfl
      rw [hbooked.1]
      rfl
    · cases hstep
  | write c base len grow => exact h.start hstep
  | lock c grow =>
    have hbooked := h.booked c
    dsimp only [SysPipe.next] at hstep
    split at hstep
    · next rd hphase =>
      cases hstep
      rw [hphase] at hbooked
      exact h.readLocking (by rw [hphase]; rfl) hbooked.1 hbooked.2
    · next wr hphase =>
      cases hstep
      rw [hphase] at hbooked
      exact h.writeLocking (by rw [hphase]; rfl) hbooked.1 hbooked.2.1 hbooked.2.2 grow
    · next wr error hphase =>
      cases hstep
      rw [hphase] at hbooked
      exact h.writeRelocking (by rw [hphase]; rfl) hbooked.1 hbooked.2
    · cases hstep
  | signal c error =>
    have hbooked := h.booked c
    dsimp only [SysPipe.next] at hstep
    split at hstep
    · next rd hphase =>
      cases hstep
      rw [hphase] at hbooked
      exact h.outside (q := .readDone rd (some error)) (by rw [hphase]; rfl) rfl ⟨hbooked.1, .inr (.inr hbooked.2)⟩
    · next wr hphase =>
      cases hstep
      rw [hphase] at hbooked
      exact h.outside (q := .writeDone wr (some error)) (by rw [hphase]; rfl) rfl
        ⟨hbooked.1, nofun, fun _ => .inr hbooked.2⟩
    · cases hstep
  | wake c error =>
    have hbooked := h.booked c
    dsimp only [SysPipe.next] at hstep
    split at hstep
    · next rd hphase =>
      rw [hphase] at hbooked
      have hc : (w.phase c).holds = false := by rw [hphase]; rfl
      cases error with
      | none => cases hstep; exact h.readLocking hc hbooked.1 hbooked.2
      | some error =>
        cases hstep
        exact h.outside (q := .readDone rd (some error)) hc rfl ⟨hbooked.1, .inr (.inr hbooked.2)⟩
    · next wr hphase =>
      cases hstep
      rw [hphase] at hbooked
      exact h.writeRelocking (by rw [hphase]; rfl) hbooked.1 hbooked.2
    · cases hstep
  | copy c => exact h.copy hstep
  | fault c k => exact h.fault k hstep
  | enter c => exact h.enter hstep

theorem inv_of_reachable (h : system.Reachable w) : Inv w := by
  apply System.Reach.invariant ?_ ?_ h
  · rintro s ⟨buffer, rfl⟩
    exact inv_created buffer
  · intro s a s' hs _ hstep
    exact hs.next hstep

theorem Writer.Gave.small {taken accepted : List (List (BitVec 8))} (h : wr.Gave taken accepted) (hsmall : wr.len ≤ pipeBuf) :
    accepted = [] ∨ accepted = [wr.whole] := by
  obtain ⟨-, hnone⟩ | ⟨-, hall⟩ := h.2.1 hsmall
  · exact .inl hnone
  · exact .inr hall

theorem Phase.Booked.gave {taken accepted : List (List (BitVec 8))} (h : q.Booked taken accepted)
    (hwr : q.writer = some wr) : wr.Gave taken accepted := by
  cases q with
  | writeLock | writeCopy | writeRest | writeCopied | writeFailed | writeWait | writeRelock | writeDone =>
    cases hwr
    exact h.1
  | _ => cases hwr

theorem handed_eq (h : ∀ c, (w.phase c).failed = true → own w.taken c = []) : w.handed = bytes w.taken := by
  rw [World.handed, filter_eq_self.mpr]
  intro e he
  rw [Bool.not_eq_true']
  apply Bool.eq_false_iff.mpr
  intro hfailed
  have hmem : e.2 ∈ own w.taken e.1 := mem_map_of_mem (mem_filter.mpr ⟨he, decide_eq_true rfl⟩)
  rw [h e.1 hfailed] at hmem
  cases hmem

/-- The bytes that reads have taken are the first of those that writes have put in, in the same order, and the buffer has
the others. Only a read that cannot copy a later piece has taken bytes and fails. -/
theorem pipe_is_fifo (h : system.Reachable w) : bytes w.taken <+: bytes w.accepted ∧
    ((∀ c, (w.phase c).failed = true → own w.taken c = []) → w.handed <+: bytes w.accepted) ∧
    (∀ c rd error, w.phase c = .readDone rd error →
      (own w.taken c).flatten = rd.got ∧ (error = none ∨ error = some .EFAULT ∨ rd.got = [])) ∧
    (bytes w.accepted).length = (bytes w.taken).length + w.bp.cnt ∧ w.bp.cnt ≤ w.bp.size ∧ w.bp.in_ < w.bp.size ∧
    w.bp.out < w.bp.size ∧ (w.bp.out + w.bp.cnt) % w.bp.size = w.bp.in_ ∧
    (∀ c wr, (w.phase c).writer = some wr → wr.len ≤ pipeBuf → own w.accepted c = [] ∨ own w.accepted c = [wr.whole]) ∧
    ∀ c wr error, w.phase c = .writeDone wr error →
      (error = none → (own w.accepted c).flatten = wr.whole) ∧ (error ≠ none → wr.len ≤ pipeBuf → own w.accepted c = []) := by
  have hinv := inv_of_reachable h
  have hprefix : bytes w.taken <+: bytes w.accepted := ⟨w.bp.contents, hinv.fifo.symm⟩
  refine ⟨ hprefix, fun hfailed => ?_, fun c rd error hc => ?_, ?_, hinv.ok.cnt_le, hinv.ok.in_lt, hinv.ok.out_lt,
    hinv.ok.in_eq, fun c wr hc hsmall => ?_, fun c wr error hc => ⟨fun herror => ?_, fun herror hsmall => ?_⟩⟩
  · rw [handed_eq hfailed]
    exact hprefix
  · have hbooked := hinv.booked c
    rw [hc] at hbooked
    obtain ⟨⟨hgot, hnread, -⟩, herror⟩ := hbooked
    exact ⟨hgot, herror.imp_right (Or.imp_right fun hzero => eq_nil_of_length_eq_zero (hnread ▸ hzero))⟩
  · rw [hinv.fifo, length_append, Pipebuf.contents, RingBuffer.length_contents]
  · exact ((hinv.booked c).gave hc).small hsmall
  · have hbooked := hinv.booked c
    rw [hc] at hbooked
    rw [hbooked.1.1, Writer.whole, Writer.len, hbooked.2.1 herror, add_zero]
  have hbooked := hinv.booked c
  rw [hc] at hbooked
  obtain hresid | hnone := hbooked.2.2 herror
  · exact (hbooked.1.resid_pos hresid hsmall).2
  · exact hnone.2

/-- The last byte of the ring is written first and read by a call that fails at the next byte, which another read gets. -/
def lost : List Label := [
  .write 0 (fun i => if i = 16383 then 1 else 0) 16384 none, .copy 0, .enter 0,
  .read 1 16383, .copy 1, .enter 1,
  .write 2 (fun _ => 2) 10 none, .copy 2, .enter 2,
  .read 3 20, .copy 3, .enter 3, .fault 3 0, .enter 3,
  .read 4 20, .copy 4, .enter 4]

/-- What is seen of a run without looking at the bytes of the long calls. -/
def World.seen (w : World) : (List Nat × List Nat) × List Bool × Option (BitVec 8) × Nat × Nat × BitVec 8 :=
  ((w.taken.map Prod.fst, w.accepted.map Prod.fst), [(w.phase 1).failed, (w.phase 3).failed, (w.phase 4).failed], (bytes (w.taken.drop 2)).head?,
    match w.phase 1, w.phase 0 with
    | .readDone rd _, .writeDone wr _ => (rd.nread, wr.done, wr.base 16383)
    | _, _ => (0, 0, 0))

theorem lost_seen : ((System.run (System.guarded (fun _ _ => True) next) (created fun _ => 0) lost).map World.seen) =
    some (([1, 3, 4], [0, 2]), [false, true, false], some 2, 16383, 16384, 1) := by decide

theorem log_eq {log : List (Nat × List (BitVec 8))} {c : Nat} {cs : List Nat} (h : log.map Prod.fst = c :: cs) :
    ∃ b rest, log = (c, b) :: rest ∧ rest.map Prod.fst = cs := by
  obtain ⟨⟨c', b⟩, rest, hlog, rfl, hrest⟩ := map_eq_cons_iff.mp h
  exact ⟨b, rest, hlog, hrest⟩

theorem pipe_is_fifo_lost : ∃ w, system.Reachable w ∧ ¬ w.handed <+: bytes w.accepted := by
  obtain ⟨w, hw, hseen⟩ := Option.map_eq_some_iff.mp lost_seen
  have hreach : system.Reachable w := System.reach_run _ _ _ _ _ ⟨_, rfl⟩ hw
  have hbooked := (inv_of_reachable hreach).booked
  refine ⟨w, hreach, fun ⟨rest, hrest⟩ => ?_⟩
  simp only [World.seen, Prod.mk.injEq, List.cons.injEq, and_true] at hseen
  obtain ⟨⟨htaken, haccepted⟩, ⟨hfailed, hfailed', hfailed''⟩, hhead, hphases⟩ := hseen
  split at hphases
  · next rd error wr error' hread hwrite =>
    obtain ⟨hnread, hphases⟩ := Prod.mk.inj hphases
    obtain ⟨hdone, hbase⟩ := Prod.mk.inj hphases
    obtain ⟨b₁, taken₁, ht₁, htaken₁⟩ := log_eq htaken
    obtain ⟨b₃, taken₃, rfl, htaken₃⟩ := log_eq htaken₁
    obtain ⟨b₄, taken₄, rfl, htaken₄⟩ := log_eq htaken₃
    obtain rfl := map_eq_nil_iff.mp htaken₄
    obtain ⟨a₀, accepted₀, ha₀, haccepted₀⟩ := log_eq haccepted
    obtain ⟨a₂, accepted₂, rfl, haccepted₂⟩ := log_eq haccepted₀
    obtain rfl := map_eq_nil_iff.mp haccepted₂
    -- the first read has 16383 bytes, and the first write 16384
    have hread₁ := hbooked 1
    rw [hread, ht₁] at hread₁
    have hb₁ : b₁.length = 16383 := by
      have hgot : b₁ ++ [] = rd.got := hread₁.1.1
      rw [← hnread, hread₁.1.2.1, ← hgot, append_nil]
    have hwrite₀ := hbooked 0
    rw [hwrite, ha₀] at hwrite₀
    have hlast : a₀[16383]? = some 1 := by
      have hgave : a₀ ++ [] = wr.chunk 0 wr.done := hwrite₀.1.1
      rw [← append_nil a₀, hgave, Writer.chunk, getElem?_map, getElem?_range (by rw [hdone]; decide)]
      exact congrArg some ((congrArg wr.base (zero_add 16383)).trans hbase)
    have hhanded : w.handed = b₁ ++ b₄ := by
      unfold World.handed bytes
      simp [ht₁, hfailed, hfailed', hfailed'']
    have hb₄ : b₄.head? = some 2 := by
      rw [ht₁] at hhead
      exact (congrArg head? (append_nil b₄)).symm.trans hhead
    have hat := congrArg (·[16383]?) hrest
    have hbytes : bytes w.accepted = a₀ ++ (a₂ ++ []) := by rw [ha₀]; rfl
    rw [hhanded, hbytes, append_assoc, getElem?_append_right (le_of_eq hb₁), hb₁, getElem?_append_left (List.getElem?_eq_some_iff.mp hlast).1, hlast] at hat
    cases b₄ with
    | nil => cases hb₄
    | cons b b₄ =>
      cases hb₄
      cases hat
  · next hno => cases hphases

/-- A write, and a read that leaves some of it. -/
theorem pipe_is_fifo_kept : ∃ w, (system.Reachable w ∧ bytes w.taken <+: bytes w.accepted) ∧ (bytes w.taken).length = 2 ∧ w.bp.cnt = 1 := by
  have hrun : ((System.run (System.guarded (fun _ _ => True) next) (created fun _ => 0)
      [.write 0 (fun _ => 1) 3 none, .copy 0, .enter 0, .read 1 2, .copy 1, .enter 1]).map fun w =>
      ((bytes w.taken).length, w.bp.cnt)) = some (2, 1) := by decide
  obtain ⟨w, hw, hbytes⟩ := Option.map_eq_some_iff.mp hrun
  have h : system.Reachable w := System.reach_run _ _ _ _ _ ⟨_, rfl⟩ hw
  exact ⟨w, ⟨h, (pipe_is_fifo h).1⟩, congrArg Prod.fst hbytes, congrArg Prod.snd hbytes⟩

end NetBSD.Kern.SysPipe
