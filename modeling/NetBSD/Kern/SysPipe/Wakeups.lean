import Mathlib.Data.Finset.Card
import NetBSD.Kern.SysPipe.Fifo
import NetBSD.Kern.SysPipe.Sleepers

/-! No wake-up of a pipe is lost, but for one.

A reader that is asleep without a wake-up pending went to sleep on an empty buffer. Bytes come into it from a write that
holds the long-term lock, and which broadcasts before it lets go of it; likewise for a writer and the reads that make room
(`Awaited`). Of the call that is in the mutex `Awaited` need not hold: `Others` says what its fellows, asleep without a
wake-up, can rely on meanwhile, and is weakened and restored by what the call does.

`PIPE_EOF` is looked at by a read before it sleeps, and by a write only after it slept: a write that goes to sleep with the
flag set is left there (`wakeups_kept_iff`). -/
namespace NetBSD.Kern.SysPipe
open Function Option
open Lib

def Phase.inCall (p : Phase) : Bool := p.reading || p.writing

/-- A call of one kind is under the lock. -/
def World.Held (w : World) (kind : Phase → Bool) : Prop := ∃ d, (w.phase d).holds = true ∧ kind (w.phase d) = true

theorem World.phase_goto_self {w : World} {c : Nat} {q : Phase} : (w.goto c q).phase c = q := update_self ..

theorem World.phase_goto_of_ne {w : World} {c d : Nat} {q : Phase} (h : d ≠ c) : (w.goto c q).phase d = w.phase d :=
  update_of_ne h ..

theorem Pipebuf.drop_cnt {bp : Pipebuf} (size : Nat) : (bp.drop size).cnt = bp.cnt - size := by
  simp only [Pipebuf.drop]
  split <;> rfl

theorem Pipebuf.drop_size {bp : Pipebuf} (size : Nat) : (bp.drop size).size = bp.size := by
  simp only [Pipebuf.drop]
  split <;> rfl

namespace Pipe

structure Awaited (s : Pipe) : Prop where
  size : pipeSize ≤ s.w.bp.size
  rcv : ∀ d, s.woken d = false → (s.w.phase d).cv = some .rcv → s.w.eof = false ∧ (s.w.bp.cnt = 0 ∨ s.w.Held Phase.writing)
  wcv : ∀ d, s.woken d = false → (s.w.phase d).cv = some .wcv → s.w.eof = false ∧ (minPipeSize ≤ s.w.bp.cnt ∨ s.w.Held Phase.reading)
  lkcv : ∀ d, s.woken d = false → (s.w.phase d).cv = some .lkcv → s.w.lockfl = true ∧ s.lwant = true
  busy : ∃ calls : Finset Nat, calls.card = s.busy ∧ ∀ d, d ∈ calls ↔ (s.w.phase d).inCall = true

/-- While `c` is in the mutex: if another call is asleep without a wake-up, on `pipe_rcv`, `pipe_wcv` or `pipe_lkcv`, then
`R`, `W` or `L`. Whether `c` is counted is `counted`. -/
structure Others (s : Pipe) (c : Nat) (R W L : Prop) (counted : Bool) : Prop where
  size : pipeSize ≤ s.w.bp.size
  rcv : ∀ d, d ≠ c → s.woken d = false → (s.w.phase d).cv = some .rcv → s.w.eof = false ∧ R
  wcv : ∀ d, d ≠ c → s.woken d = false → (s.w.phase d).cv = some .wcv → s.w.eof = false ∧ W
  lkcv : ∀ d, d ≠ c → s.woken d = false → (s.w.phase d).cv = some .lkcv → L
  busy : ∃ calls : Finset Nat, calls.card = s.busy ∧ (c ∈ calls ↔ counted = true) ∧
    ∀ d, d ≠ c → (d ∈ calls ↔ (s.w.phase d).inCall = true)

variable {s s' : Pipe} {c : Nat} {R R' W W' L L' : Prop} {counted : Bool} {rd : Reader} {wr : Writer} {q : Phase}
  {error : Option Errno}

theorem Awaited.others (h : Awaited s) (c : Nat) : Others s c (s.w.bp.cnt = 0 ∨ s.w.Held Phase.writing)
    (minPipeSize ≤ s.w.bp.cnt ∨ s.w.Held Phase.reading) (s.w.lockfl = true ∧ s.lwant = true) (s.w.phase c).inCall where
  size := h.size
  rcv d _ := h.rcv d
  wcv d _ := h.wcv d
  lkcv d _ := h.lkcv d
  busy := by
    obtain ⟨calls, hcard, hcalls⟩ := h.busy
    exact ⟨calls, hcard, hcalls c, fun d _ => hcalls d⟩

theorem Others.change (h : Others s c R W L counted) (hphase : s'.w.phase = s.w.phase) (hwoken : s'.woken = s.woken)
    (heof : s'.w.eof = s.w.eof) (hbusy : s'.busy = s.busy) (hsize : pipeSize ≤ s'.w.bp.size) (hR : R → R') (hW : W → W')
    (hL : L → L') : Others s' c R' W' L' counted where
  size := hsize
  rcv d hd := by
    rw [hphase, hwoken, heof]
    exact fun hw hcv => (h.rcv d hd hw hcv).imp_right hR
  wcv d hd := by
    rw [hphase, hwoken, heof]
    exact fun hw hcv => (h.wcv d hd hw hcv).imp_right hW
  lkcv d hd := by
    rw [hphase, hwoken]
    exact fun hw hcv => hL (h.lkcv d hd hw hcv)
  busy := by
    rw [hphase, hbusy]
    exact h.busy

theorem Others.mono (h : Others s c R W L counted) (hR : R → R') (hW : W → W') (hL : L → L') : Others s c R' W' L' counted :=
  h.change rfl rfl rfl rfl h.size hR hW hL

theorem not_woken_broadcast {cv : Cv} {d : Nat} (h : (s.broadcast cv).woken d = false) : s.woken d = false ∧ (s.w.phase d).cv ≠ some cv := by
  simp only [broadcast, Bool.or_eq_false_iff, decide_eq_false_iff_not] at h
  exact h

section
variable (h : Others s c R W L counted)
include h

theorem Others.broadcast_rcv : Others (s.broadcast .rcv) c False W L counted where
  size := h.size
  rcv _ _ hw hcv := absurd hcv (not_woken_broadcast hw).2
  wcv d hd hw := h.wcv d hd (not_woken_broadcast hw).1
  lkcv d hd hw := h.lkcv d hd (not_woken_broadcast hw).1
  busy := h.busy

theorem Others.broadcast_wcv : Others (s.broadcast .wcv) c R False L counted where
  size := h.size
  rcv d hd hw := h.rcv d hd (not_woken_broadcast hw).1
  wcv _ _ hw hcv := absurd hcv (not_woken_broadcast hw).2
  lkcv d hd hw := h.lkcv d hd (not_woken_broadcast hw).1
  busy := h.busy

theorem Others.broadcast_lkcv : Others (s.broadcast .lkcv) c R W False counted where
  size := h.size
  rcv d hd hw := h.rcv d hd (not_woken_broadcast hw).1
  wcv d hd hw := h.wcv d hd (not_woken_broadcast hw).1
  lkcv _ _ hw hcv := absurd hcv (not_woken_broadcast hw).2
  busy := h.busy

theorem Others.pipeunlock (hL : L → s.lwant = true) : Others s.pipeunlock c R W False counted := by
  have hopen : Others { s with w := { s.w with lockfl := false } } c R W L counted :=
    h.change rfl rfl rfl rfl h.size id id id
  simp only [Pipe.pipeunlock]
  split
  · have hwant : Others { s with w := { s.w with lockfl := false }, lwant := false } c R W L counted :=
      hopen.change rfl rfl rfl rfl h.size id id id
    exact hwant.broadcast_lkcv
  · next hwant => exact hopen.mono id id fun hl => hwant (hL hl)

end

theorem Others.unbusy (h : Others s c R W L true) : Others s.unbusy c R W L false := by
  obtain ⟨calls, hcard, hc, hcalls⟩ := h.busy
  have hless : Others { s with busy := s.busy - 1 } c R W L false := by
    refine ⟨h.size, h.rcv, h.wcv, h.lkcv, calls.erase c, ?_, ?_, fun d hd => ?_⟩
    · rw [Finset.card_erase_of_mem (hc.mpr rfl), hcard]
    · simp
    · rw [Finset.mem_erase, and_iff_right hd, hcalls d hd]
  simp only [Pipe.unbusy]
  split
  · exact hless.change rfl rfl rfl rfl h.size id id id
  · exact hless

theorem goto_w : (s.goto c q).w = s.w.goto c q := rfl


theorem busy_goto (h : Others s c R W L counted) (hq : q.inCall = counted) :
    ∃ calls : Finset Nat, calls.card = s.busy ∧ ∀ d, d ∈ calls ↔ ((s.w.goto c q).phase d).inCall = true := by
  obtain ⟨calls, hcard, hc, hcalls⟩ := h.busy
  refine ⟨calls, hcard, fun d => ?_⟩
  by_cases hd : d = c
  · obtain rfl := hd
    rw [World.phase_goto_self, hq, hc]
  · rw [World.phase_goto_of_ne hd, hcalls d hd]

theorem Others.goto (h : Others s c R W L counted) (hcv : q.cv = none) (hq : q.inCall = counted)
    (hR : R → s.w.bp.cnt = 0 ∨ (s.w.goto c q).Held Phase.writing)
    (hW : W → minPipeSize ≤ s.w.bp.cnt ∨ (s.w.goto c q).Held Phase.reading)
    (hL : L → s.w.lockfl = true ∧ s.lwant = true) : Awaited (s.goto c q) := by
  have hne {cv : Cv} {d : Nat} (hd : ((s.w.goto c q).phase d).cv = some cv) : d ≠ c := by
    rintro rfl
    rw [World.phase_goto_self, hcv] at hd
    cases hd
  refine ⟨h.size, fun d hw hd => ?_, fun d hw hd => ?_, fun d hw hd => ?_, busy_goto h hq⟩
  · have hdc := hne hd
    rw [goto_w, World.phase_goto_of_ne hdc] at hd
    exact (h.rcv d hdc hw hd).imp_right hR
  · have hdc := hne hd
    rw [goto_w, World.phase_goto_of_ne hdc] at hd
    exact (h.wcv d hdc hw hd).imp_right hW
  · have hdc := hne hd
    rw [goto_w, World.phase_goto_of_ne hdc] at hd
    exact hL (h.lkcv d hdc hw hd)

theorem Others.cvWait (h : Others s c R W L true) (hq : q.inCall = true)
    (hR : R ∨ q.cv = some .rcv → s.w.bp.cnt = 0 ∨ (s.w.goto c q).Held Phase.writing)
    (hW : W ∨ q.cv = some .wcv → minPipeSize ≤ s.w.bp.cnt ∨ (s.w.goto c q).Held Phase.reading)
    (hL : L ∨ q.cv = some .lkcv → s.w.lockfl = true ∧ s.lwant = true)
    (heof : q.cv ≠ some .lkcv → s.w.eof = false) : Awaited (s.cvWait c q) := by
  have hwoken {d : Nat} (hd : d ≠ c) (hw : (s.cvWait c q).woken d = false) : s.woken d = false := by
    change update s.woken c false d = false at hw
    rwa [update_of_ne hd] at hw
  have hself : ((s.cvWait c q).w.phase c) = q := World.phase_goto_self
  have hother {d : Nat} (hd : d ≠ c) : (s.cvWait c q).w.phase d = s.w.phase d := World.phase_goto_of_ne hd
  refine ⟨h.size, fun d hw hd => ?_, fun d hw hd => ?_, fun d hw hd => ?_, busy_goto h hq⟩
  · by_cases hdc : d = c
    · rw [hdc, hself] at hd
      exact ⟨heof (by rw [hd]; decide), hR (.inr hd)⟩
    · rw [hother hdc] at hd
      exact (h.rcv d hdc (hwoken hdc hw) hd).imp_right fun hr => hR (.inl hr)
  · by_cases hdc : d = c
    · rw [hdc, hself] at hd
      exact ⟨heof (by rw [hd]; decide), hW (.inr hd)⟩
    · rw [hother hdc] at hd
      exact (h.wcv d hdc (hwoken hdc hw) hd).imp_right fun hr => hW (.inl hr)
  by_cases hdc : d = c
  · rw [hdc, hself] at hd
    exact hL (.inr hd)
  · rw [hother hdc] at hd
    exact hL (.inl (h.lkcv d hdc (hwoken hdc hw) hd))

/-! ### Reads -/

theorem held_goto {w : World} {kind : Phase → Bool} (h : w.Held kind)
    (hq : (w.phase c).holds = true → kind (w.phase c) = true → q.holds = true ∧ kind q = true) : (w.goto c q).Held kind := by
  obtain ⟨d, hd, hkind⟩ := h
  by_cases hdc : d = c
  · obtain rfl := hdc
    refine ⟨d, ?_⟩
    rw [World.phase_goto_self]
    exact hq hd hkind
  · refine ⟨d, ?_⟩
    rw [World.phase_goto_of_ne hdc]
    exact ⟨hd, hkind⟩

theorem held_self {w : World} {kind : Phase → Bool} (hq : q.holds = true) (hkind : kind q = true) : (w.goto c q).Held kind := by
  refine ⟨c, ?_⟩
  rw [World.phase_goto_self]
  exact ⟨hq, hkind⟩

theorem pipeunlock_bp : s.pipeunlock.w.bp = s.w.bp := by rw [pipeunlock_w]

theorem unbusy_bp : s.unbusy.w.bp = s.w.bp := by
  obtain ⟨b, hb⟩ := @unbusy_w s
  rw [hb]
  rfl

theorem unbusy_phase : s.unbusy.w.phase = s.w.phase := by
  obtain ⟨b, hb⟩ := @unbusy_w s
  rw [hb]
  rfl

theorem unbusy_lockfl : s.unbusy.w.lockfl = s.w.lockfl := by
  obtain ⟨b, hb⟩ := @unbusy_w s
  rw [hb]
  rfl

theorem unbusy_lwant : s.unbusy.lwant = s.lwant := by
  rw [Pipe.unbusy]
  split <;> rfl

theorem Others.unlockedError (h : Others s c R W L true) (hR : R → s.w.bp.cnt = 0 ∨ (s.w.goto c (.readDone rd error)).Held Phase.writing)
    (hL : L → s.w.lockfl = true ∧ s.lwant = true) : Awaited (s.unlockedError c rd error) := by
  have hwriting (h : (s.w.goto c (.readDone rd error)).Held Phase.writing) :
      (s.unbusy.w.goto c (.readDone rd error)).Held Phase.writing := by
    obtain ⟨d, hd⟩ := h
    refine ⟨d, ?_⟩
    rw [World.goto, unbusy_phase]
    exact hd
  have hrcv : R → s.unbusy.w.bp.cnt = 0 ∨ (s.unbusy.w.goto c (.readDone rd error)).Held Phase.writing := by
    rw [unbusy_bp]
    exact fun hr => (hR hr).imp_right hwriting
  have hlkcv : L → s.unbusy.w.lockfl = true ∧ s.unbusy.lwant = true := by
    rw [unbusy_lockfl, unbusy_lwant]
    exact hL
  simp only [Pipe.unlockedError]
  split
  · exact h.unbusy.broadcast_wcv.goto rfl rfl hrcv (False.elim ·) hlkcv
  · next hcnt => exact h.unbusy.goto rfl rfl hrcv (fun _ => .inl (Nat.le_of_not_lt hcnt)) hlkcv

section
variable (h : Others s c (s.w.bp.cnt = 0) W (s.lwant = true) true)
include h

theorem Others.readExit : Awaited (s.readExit c rd error) := by
  have hunlocked : Others s.pipeunlock c (s.w.bp.cnt = 0) W False true := h.pipeunlock id
  apply hunlocked.unlockedError _ (False.elim ·)
  rw [pipeunlock_bp]
  exact .inl

theorem Others.readLoop (hlock : s.w.lockfl = true) : Awaited (s.readLoop c rd) := by
  rw [Pipe.readLoop]
  by_cases hresid : rd.resid = 0
  · rw [if_pos hresid]
    exact h.readExit
  rw [if_neg hresid]
  by_cases hcnt : s.w.bp.cnt > 0
  · rw [if_pos hcnt]
    exact h.goto rfl rfl .inl (fun _ => .inr (held_self rfl rfl)) fun hwant => ⟨hlock, hwant⟩
  rw [if_neg hcnt]
  by_cases hnread : rd.nread > 0
  · rw [if_pos hnread]
    exact h.readExit
  rw [if_neg hnread]
  by_cases heof : s.w.eof = true
  · rw [if_pos heof]
    exact h.readExit
  rw [if_neg heof]
  by_cases hflag : s.w.rflag = true
  · rw [if_pos hflag]
    exact h.readExit
  rw [if_neg hflag]
  -- Here the buffer is empty, and nobody is left on `pipe_wcv` or `pipe_lkcv`.
  have hempty : (s.pipeunlock.broadcast .wcv).w.bp.cnt = 0 := by
    rw [broadcast_w, pipeunlock_bp]
    exact Nat.eq_zero_of_not_pos hcnt
  have hunlocked : Others (s.pipeunlock.broadcast .wcv) c (s.w.bp.cnt = 0) False False true := (h.pipeunlock id).broadcast_wcv
  by_cases hrestart : rd.restart = true
  · rw [if_pos hrestart]
    exact hunlocked.unlockedError (fun _ => .inl hempty) (False.elim ·)
  rw [if_neg hrestart]
  refine hunlocked.cvWait rfl (fun _ => .inl hempty) (fun hw => ?_) (fun hl => ?_) fun _ => ?_
  · exact hw.elim False.elim nofun
  · exact hl.elim False.elim nofun
  · rw [broadcast_w, pipeunlock_w]
    exact Bool.eq_false_iff.mpr heof

end

theorem Others.lockWait (h : Others s c (s.w.bp.cnt = 0 ∨ s.w.Held Phase.writing)
    (minPipeSize ≤ s.w.bp.cnt ∨ s.w.Held Phase.reading) L true) (hq : q.cv = some .lkcv) (hcall : q.inCall = true)
    (hlock : s.w.lockfl = true) (hc : (s.w.phase c).holds = false) : Awaited (s.lockWait c q) := by
  have hwant : Others { s with lwant := true } c _ _ L true := h.change rfl rfl rfl rfl h.size id id id
  have hheld {kind : Phase → Bool} (hheld : s.w.Held kind) : (s.w.goto c q).Held kind :=
    held_goto hheld fun hholds => absurd hholds (by rw [hc]; decide)
  apply hwant.cvWait hcall _ _ (fun _ => ⟨hlock, rfl⟩) (fun hne => absurd hq hne)
  · intro hr
    obtain hr | hr := hr
    · exact hr.imp_right hheld
    · rw [hq] at hr
      cases hr
  intro hw
  obtain hw | hw := hw
  · exact hw.imp_right hheld
  · rw [hq] at hw
    cases hw

theorem not_held {w : World} {kind : Phase → Bool} (hinv : Inv w) (hfree : ¬w.lockfl = true) : ¬w.Held kind :=
  fun ⟨d, hd, _⟩ => hfree (hinv.lock d hd).1

theorem Others.readLocking (h : Others s c (s.w.bp.cnt = 0 ∨ s.w.Held Phase.writing)
    (minPipeSize ≤ s.w.bp.cnt ∨ s.w.Held Phase.reading) (s.w.lockfl = true ∧ s.lwant = true) true) (hinv : Inv s.w)
    (hc : (s.w.phase c).holds = false) : Awaited (s.readLocking c rd) := by
  rw [Pipe.readLocking]
  by_cases hlock : s.w.lockfl = true
  · rw [if_pos hlock]
    exact h.lockWait rfl rfl hlock hc
  rw [if_neg hlock]
  have hempty : (s.w.bp.cnt = 0 ∨ s.w.Held Phase.writing) → s.w.bp.cnt = 0 := fun hr => hr.resolve_right (not_held hinv hlock)
  have htaken : Others { s with w := { s.w with lockfl := true } } c (s.w.bp.cnt = 0) True (s.lwant = true) true :=
    h.change rfl rfl rfl rfl h.size hempty (fun _ => trivial) And.right
  exact htaken.readLoop rfl

theorem Others.readCommit (h : Others s c (s.w.bp.cnt = 0) W (s.lwant = true) true) (hlock : s.w.lockfl = true)
    (size : Nat) (bytes : List (BitVec 8)) : Awaited (s.readCommit c rd size bytes) := by
  have hcnt (hr : s.w.bp.cnt = 0) : (s.w.bp.drop size).cnt = 0 := by rw [Pipebuf.drop_cnt, hr, Nat.zero_sub]
  have hsize : pipeSize ≤ (s.w.bp.drop size).size := by
    rw [Pipebuf.drop_size]
    exact h.size
  have hdropped : Others { s with w := { s.w with bp := s.w.bp.drop size, taken := s.w.taken ++ [(c, bytes)] } } c
      ((s.w.bp.drop size).cnt = 0) W (s.lwant = true) true := h.change rfl rfl rfl rfl hsize hcnt id id
  exact hdropped.readLoop hlock

/-! ### Writes -/

theorem Others.writeExit (h : Others s c R (minPipeSize ≤ s.w.bp.cnt) (s.lwant = true) true) : Awaited (s.writeExit c wr error) := by
  simp only [Pipe.writeExit]
  have hwant : s.unbusy.lwant = s.lwant := unbusy_lwant
  have hwcv {Q : Prop} (hw : minPipeSize ≤ s.w.bp.cnt) : minPipeSize ≤ s.unbusy.pipeunlock.w.bp.cnt ∨ Q := by
    rw [pipeunlock_bp, unbusy_bp]
    exact .inl hw
  split
  · have hwoken : Others (s.unbusy.broadcast .rcv).pipeunlock c False (minPipeSize ≤ s.w.bp.cnt) False false :=
      h.unbusy.broadcast_rcv.pipeunlock fun hl => hwant.trans hl
    apply hwoken.goto rfl rfl (False.elim ·) (fun hw => ?_) (False.elim ·)
    rw [pipeunlock_bp, broadcast_w, unbusy_bp]
    exact .inl hw
  · next hcnt =>
    have hunlocked : Others s.unbusy.pipeunlock c R (minPipeSize ≤ s.w.bp.cnt) False false :=
      h.unbusy.pipeunlock fun hl => hwant.trans hl
    apply hunlocked.goto rfl rfl (fun _ => ?_) hwcv (False.elim ·)
    rw [pipeunlock_bp]
    exact .inl (Nat.eq_zero_of_not_pos hcnt)

theorem min_le_of_room {bp : Pipebuf} (hsize : pipeSize ≤ bp.size) (hroom : ¬room bp wr > 0) : minPipeSize ≤ bp.cnt := by
  have hmin : minPipeSize = 5461 := rfl
  have hpipe : pipeSize = 16384 := rfl
  have hbuf : pipeBuf = 512 := rfl
  rw [room] at hroom
  split at hroom <;> omega

theorem Others.writeLoop (h : Others s c R (minPipeSize ≤ s.w.bp.cnt) (s.lwant = true) true) (hlock : s.w.lockfl = true)
    (haware : s.w.eof = true → ¬Sleeps s.w s.w.bp wr) : Awaited (s.writeLoop c wr) := by
  rw [Pipe.writeLoop]
  by_cases hresid : wr.resid = 0
  · rw [if_pos hresid]
    exact h.writeExit
  rw [if_neg hresid]
  by_cases hroom : room s.w.bp wr > 0
  · rw [if_pos hroom]
    exact h.goto rfl rfl (fun _ => .inr (held_self rfl rfl)) .inl fun hl => ⟨hlock, hl⟩
  rw [if_neg hroom]
  have hwoken : Others (s.broadcast .rcv) c False (minPipeSize ≤ s.w.bp.cnt) (s.lwant = true) true := h.broadcast_rcv
  by_cases hflag : (s.broadcast .rcv).w.wflag = true
  · rw [if_pos hflag]
    exact Others.writeExit (s := s.broadcast .rcv) hwoken
  rw [if_neg hflag]
  by_cases hrestart : wr.restart = true
  · rw [if_pos hrestart]
    exact Others.writeExit (s := s.broadcast .rcv) hwoken
  rw [if_neg hrestart]
  have hunlocked : Others (s.broadcast .rcv).pipeunlock c False (minPipeSize ≤ s.w.bp.cnt) False true := hwoken.pipeunlock id
  have hsleeps : Sleeps s.w s.w.bp wr :=
    ⟨hresid, Nat.eq_zero_of_not_pos hroom, Bool.eq_false_iff.mpr hflag, Bool.eq_false_iff.mpr hrestart⟩
  have hfull : minPipeSize ≤ (s.broadcast .rcv).pipeunlock.w.bp.cnt := by
    rw [pipeunlock_bp]
    exact min_le_of_room h.size hroom
  apply hunlocked.cvWait (q := .writeWait wr) rfl (fun hr => hr.elim False.elim nofun) (fun _ => .inl hfull)
    fun hl => hl.elim False.elim nofun
  intro _
  rw [pipeunlock_w]
  exact Bool.eq_false_iff.mpr fun heof => haware heof hsleeps

theorem room_pos_of_empty {bp : Pipebuf} (hsize : pipeSize ≤ bp.size) (hcnt : bp.cnt = 0) (hbig : pipeSize < wr.resid) : 0 < room bp wr := by
  have hpipe : pipeSize = 16384 := rfl
  have hbuf : pipeBuf = 512 := rfl
  rw [room]
  split <;> omega

theorem Others.writeLocked (h : Others s c R (minPipeSize ≤ s.w.bp.cnt) (s.lwant = true) true) (hlock : s.w.lockfl = true)
    (grow : Option (Nat → BitVec 8)) (haware : s.w.eof = true → ¬Sleeps s.w s.w.bp wr) :
    Awaited (s.writeLocked c wr grow) := by
  unfold Pipe.writeLocked
  by_cases hsmall : wr.resid > pipeSize ∧ s.w.bp.size ≤ pipeSize ∧ s.w.bp.cnt = 0
  · rw [if_pos hsmall]
    cases grow with
    | none => exact h.writeLoop hlock haware
    | some buffer =>
      have hbig : pipeSize ≤ bigPipeSize := by decide
      have hcnt (hw : minPipeSize ≤ s.w.bp.cnt) : minPipeSize ≤ 0 := by
        rw [hsmall.2.2] at hw
        exact hw
      have hgrown : Others { s with w := { s.w with bp := pipespace buffer bigPipeSize } } c R (minPipeSize ≤ 0)
          (s.lwant = true) true := h.change rfl rfl rfl rfl hbig id hcnt id
      exact hgrown.writeLoop hlock fun _ hsleeps => absurd hsleeps.2.1 (room_pos_of_empty hbig rfl hsmall.1).ne'
  · rw [if_neg hsmall]
    exact h.writeLoop hlock haware

theorem Others.writeLocking (h : Others s c (s.w.bp.cnt = 0 ∨ s.w.Held Phase.writing)
    (minPipeSize ≤ s.w.bp.cnt ∨ s.w.Held Phase.reading) (s.w.lockfl = true ∧ s.lwant = true) true) (hinv : Inv s.w)
    (hc : (s.w.phase c).holds = false) (grow : Option (Nat → BitVec 8))
    (haware : s.w.eof = true → s.w.lockfl = false → ¬Sleeps s.w s.w.bp wr) : Awaited (s.writeLocking c wr grow) := by
  rw [Pipe.writeLocking]
  by_cases hlock : s.w.lockfl = true
  · rw [if_pos hlock]
    exact h.lockWait rfl rfl hlock hc
  rw [if_neg hlock]
  have hfull (hw : minPipeSize ≤ s.w.bp.cnt ∨ s.w.Held Phase.reading) : minPipeSize ≤ s.w.bp.cnt :=
    hw.resolve_right (not_held hinv hlock)
  have htaken : Others { s with w := { s.w with lockfl := true } } c _ (minPipeSize ≤ s.w.bp.cnt) (s.lwant = true) true :=
    h.change rfl rfl rfl rfl h.size id hfull And.right
  exact htaken.writeLocked rfl grow fun heof => haware heof (Bool.eq_false_iff.mpr hlock)

theorem Others.writeCommit (h : Others s c R (minPipeSize ≤ s.w.bp.cnt) (s.lwant = true) true) (hlock : s.w.lockfl = true)
    {size : Nat} (segsize : Nat) (haware : s.w.eof = true → ¬Sleeps s.w { s.w.bp with cnt := s.w.bp.cnt + size }
      { wr with done := wr.done + size, resid := wr.resid - size, restart := false }) :
    Awaited (s.writeCommit c wr size segsize) := by
  have hadded (in_ : Nat) : Others { s with w := { s.w with
      bp := { s.w.bp with in_ := in_, cnt := s.w.bp.cnt + size }
      accepted := s.w.accepted ++ [(c, wr.chunk wr.done size)] } } c R (minPipeSize ≤ s.w.bp.cnt + size) (s.lwant = true) true :=
    h.change rfl rfl rfl rfl h.size id (Nat.le_add_right_of_le ·) id
  exact (hadded _).writeLoop hlock haware

theorem Others.writeRelocking (h : Others s c (s.w.bp.cnt = 0 ∨ s.w.Held Phase.writing)
    (minPipeSize ≤ s.w.bp.cnt ∨ s.w.Held Phase.reading) (s.w.lockfl = true ∧ s.lwant = true) true) (hinv : Inv s.w)
    (hc : (s.w.phase c).holds = false) : Awaited (s.writeRelocking c wr error) := by
  rw [Pipe.writeRelocking]
  by_cases hlock : s.w.lockfl = true
  · rw [if_pos hlock]
    exact h.lockWait rfl rfl hlock hc
  rw [if_neg hlock]
  have hfull (hw : minPipeSize ≤ s.w.bp.cnt ∨ s.w.Held Phase.reading) : minPipeSize ≤ s.w.bp.cnt :=
    hw.resolve_right (not_held hinv hlock)
  have htaken : Others { s with w := { s.w with lockfl := true } } c _ (minPipeSize ≤ s.w.bp.cnt) (s.lwant = true) true :=
    h.change rfl rfl rfl rfl h.size id hfull And.right
  rw [Pipe.writeRelocked]
  by_cases herror : error.isSome = true
  · rw [if_pos herror]
    exact htaken.writeExit
  rw [if_neg herror]
  by_cases heof : s.w.eof = true
  · rw [if_pos heof]
    exact htaken.writeExit
  · rw [if_neg heof]
    exact htaken.writeLoop rfl fun hset => absurd hset heof

/-! ### Steps -/

theorem awaited_created (buffer : Nat → BitVec 8) : Awaited (created buffer) where
  size := le_refl _
  rcv _ _ hcv := by cases hcv
  wcv _ _ hcv := by cases hcv
  lkcv _ _ hcv := by cases hcv
  busy := ⟨∅, rfl, fun _ => ⟨nofun, nofun⟩⟩

theorem Others.begin (h : Others s c R W L false) : Others { s with busy := s.busy + 1 } c R W L true := by
  obtain ⟨calls, hcard, hc, hcalls⟩ := h.busy
  have hnew : c ∉ calls := fun hmem => Bool.false_ne_true (hc.mp hmem)
  refine ⟨h.size, h.rcv, h.wcv, h.lkcv, insert c calls, ?_, ?_, fun d hd => ?_⟩
  · rw [Finset.card_insert_of_notMem hnew, hcard]
  · simp
  · rw [Finset.mem_insert, or_iff_right hd, hcalls d hd]

theorem not_held_of {w : World} {kind : Phase → Bool} (hinv : Inv w) (hc : (w.phase c).holds = true)
    (hkind : kind (w.phase c) = false) : ¬w.Held kind := by
  rintro ⟨d, hd, hdkind⟩
  obtain rfl := (hinv.lock c hc).2 d hd
  rw [hkind] at hdkind
  cases hdkind

section
variable (h : Awaited s)
include h

theorem Awaited.reader (hinv : Inv s.w) (hc : (s.w.phase c).holds = true)
    (hread : (s.w.phase c).writing = false) (hcall : (s.w.phase c).inCall = true) :
    Others s c (s.w.bp.cnt = 0) True (s.lwant = true) true := by
  have hothers := h.others c
  rw [hcall] at hothers
  exact hothers.mono (fun hr => hr.resolve_right (not_held_of hinv hc hread)) (fun _ => trivial) And.right

theorem Awaited.writer (hinv : Inv s.w) (hc : (s.w.phase c).holds = true)
    (hwrite : (s.w.phase c).reading = false) (hcall : (s.w.phase c).inCall = true) :
    Others s c True (minPipeSize ≤ s.w.bp.cnt) (s.lwant = true) true := by
  have hothers := h.others c
  rw [hcall] at hothers
  exact hothers.mono (fun _ => trivial) (fun hw => hw.resolve_right (not_held_of hinv hc hwrite)) And.right

theorem Awaited.copying {bp : Pipebuf} (hcnt : bp.cnt = s.w.bp.cnt) (hsize : bp.size = s.w.bp.size)
    (hq : q.holds = true) (hreading : q.reading = (s.w.phase c).reading) (hwriting : q.writing = (s.w.phase c).writing) :
    Awaited { s with w := { s.w with bp := bp }.goto c q } := by
  have hcv : q.cv = none := by cases q <;> first | rfl | cases hq
  have hcall : q.inCall = (s.w.phase c).inCall := by rw [Phase.inCall, hreading, hwriting, Phase.inCall]
  have hothers : Others { s with w := { s.w with bp := bp } } c (s.w.bp.cnt = 0 ∨ s.w.Held Phase.writing)
      (minPipeSize ≤ s.w.bp.cnt ∨ s.w.Held Phase.reading) (s.w.lockfl = true ∧ s.lwant = true) (s.w.phase c).inCall :=
    (h.others c).change rfl rfl rfl rfl (hsize ▸ h.size) id id id
  refine hothers.goto hcv hcall (fun hr => ?_) (fun hw => ?_) id
  · rw [← hcnt] at hr
    exact hr.imp_right fun hheld => held_goto hheld fun _ hkind => ⟨hq, hwriting.trans hkind⟩
  · rw [← hcnt] at hw
    exact hw.imp_right fun hheld => held_goto hheld fun _ hkind => ⟨hq, hreading.trans hkind⟩

theorem Awaited.copy (hstep : s.next (.copy c) = some s') : Awaited s' := by
  simp only [next, SysPipe.next] at hstep
  split at hstep
  · next hphase =>
    obtain rfl := some.inj hstep
    exact h.copying rfl rfl rfl (by rw [hphase]; rfl) (by rw [hphase]; rfl)
  · next wr size segsize hphase =>
    obtain rfl := some.inj hstep
    by_cases hseg : segsize < size
    · rw [if_pos hseg]
      exact h.copying rfl rfl rfl (by rw [hphase]; rfl) (by rw [hphase]; rfl)
    · rw [if_neg hseg]
      exact h.copying rfl rfl rfl (by rw [hphase]; rfl) (by rw [hphase]; rfl)
  · next hphase =>
    obtain rfl := some.inj hstep
    exact h.copying rfl rfl rfl (by rw [hphase]; rfl) (by rw [hphase]; rfl)
  · cases hstep

theorem Awaited.fault {k : Nat} (hstep : s.next (.fault c k) = some s') : Awaited s' := by
  simp only [next, SysPipe.next] at hstep
  split at hstep
  · next hphase =>
    obtain rfl := some.inj hstep
    exact h.copying rfl rfl rfl (by rw [hphase]; rfl) (by rw [hphase]; rfl)
  · next hphase =>
    obtain rfl := some.inj hstep
    exact h.copying rfl rfl rfl (by rw [hphase]; rfl) (by rw [hphase]; rfl)
  · next hphase =>
    obtain rfl := some.inj hstep
    exact h.copying rfl rfl rfl (by rw [hphase]; rfl) (by rw [hphase]; rfl)
  · cases hstep

theorem Awaited.enter (hinv : Inv s.w) (haware : s.Aware (.enter c)) (hstep : s.next (.enter c) = some s') : Awaited s' := by
  simp only [next] at hstep
  split at hstep
  · next hphase =>
    obtain rfl := some.inj hstep
    have hc : (s.w.phase c).holds = true := by rw [hphase]; rfl
    have hreader := h.reader hinv hc (by rw [hphase]; rfl) (by rw [hphase]; rfl)
    exact hreader.readCommit (hinv.lock c hc).1 _ _
  · next hphase =>
    obtain rfl := some.inj hstep
    have hc : (s.w.phase c).holds = true := by rw [hphase]; rfl
    exact (h.reader hinv hc (by rw [hphase]; rfl) (by rw [hphase]; rfl)).readExit
  · next hphase =>
    obtain rfl := some.inj hstep
    have hc : (s.w.phase c).holds = true := by rw [hphase]; rfl
    have hwriter := h.writer hinv hc (by rw [hphase]; rfl) (by rw [hphase]; rfl)
    exact hwriter.writeCommit (hinv.lock c hc).1 _ fun heof hsleeps => haware heof ⟨_, _, _, hphase, hsleeps⟩
  · next hphase =>
    obtain rfl := some.inj hstep
    have hc : (s.w.phase c).holds = true := by rw [hphase]; rfl
    exact (h.writer hinv hc (by rw [hphase]; rfl) (by rw [hphase]; rfl)).writeExit
  · cases hstep

theorem Awaited.asleep (hcall : (s.w.phase c).inCall = true) :
    Others s c (s.w.bp.cnt = 0 ∨ s.w.Held Phase.writing) (minPipeSize ≤ s.w.bp.cnt ∨ s.w.Held Phase.reading)
      (s.w.lockfl = true ∧ s.lwant = true) true := by
  have hothers := h.others c
  rwa [hcall] at hothers

theorem Awaited.begins (hidle : s.w.phase c = .idle) : Others { s with busy := s.busy + 1 } c (s.w.bp.cnt = 0 ∨ s.w.Held Phase.writing)
      (minPipeSize ≤ s.w.bp.cnt ∨ s.w.Held Phase.reading) (s.w.lockfl = true ∧ s.lwant = true) true := by
  have hothers := h.others c
  rw [hidle] at hothers
  exact hothers.begin

theorem Awaited.readInterrupted (hcall : (s.w.phase c).inCall = true) (hc : (s.w.phase c).holds = false) : Awaited (s.unlockedError c rd error) := by
  apply (h.asleep hcall).unlockedError _ id
  exact fun hr => hr.imp_right fun hheld => held_goto hheld fun hholds => absurd hholds (by rw [hc]; decide)

theorem Awaited.writeInterrupted (hcall : (s.w.phase c).inCall = true) (hc : (s.w.phase c).holds = false)
    {error : Errno} : Awaited (s.writeInterrupted c wr error) := by
  have hheld {kind : Phase → Bool} (hheld : s.w.Held kind) :
      (s.unbusy.w.goto c (.writeDone wr (some error))).Held kind := by
    have hsame : s.unbusy.w.Held kind := by rwa [World.Held, unbusy_phase]
    refine held_goto hsame fun hholds => absurd hholds ?_
    rw [unbusy_phase, hc]
    decide
  refine (h.asleep hcall).unbusy.goto rfl rfl (fun hr => ?_) (fun hw => ?_) (fun hl => ?_)
  · rw [unbusy_bp]
    exact hr.imp_right hheld
  · rw [unbusy_bp]
    exact hw.imp_right hheld
  · rw [unbusy_lockfl, unbusy_lwant]
    exact hl

end

theorem phase_of_rcv {p : Phase} (h : p.cv = some .rcv) : p.reading = true := by
  cases p <;> first | rfl | cases h

theorem phase_of_wcv {p : Phase} (h : p.cv = some .wcv) : p.writing = true := by
  cases p <;> first | rfl | cases h

section
variable (h : Awaited s)
include h

theorem Awaited.broadcast (cv : Cv) : Awaited (s.broadcast cv) where
  size := h.size
  rcv d hw := h.rcv d (not_woken_broadcast hw).1
  wcv d hw := h.wcv d (not_woken_broadcast hw).1
  lkcv d hw := h.lkcv d (not_woken_broadcast hw).1
  busy := h.busy

theorem Awaited.drained (hbusy : ¬s.busy > 0) (d : Nat) : (s.w.phase d).inCall = false := by
  obtain ⟨calls, hcard, hcalls⟩ := h.busy
  rw [Nat.eq_zero_of_not_pos hbusy, Finset.card_eq_zero] at hcard
  rw [Bool.eq_false_iff]
  intro hcall
  have hmem := (hcalls d).mpr hcall
  rw [hcard] at hmem
  cases hmem

theorem Awaited.closeRead (hen : s.Enabled .closeRead) (hstep : s.next .closeRead = some s') : Awaited s' := by
  have hrcv (d : Nat) (hcv : (s.w.phase d).cv = some .rcv) : False := by
    have hreading := phase_of_rcv hcv
    rw [hen.2 d] at hreading
    cases hreading
  simp only [next] at hstep
  split at hstep
  · obtain rfl := some.inj hstep
    exact ⟨h.size, fun d _ hcv => (hrcv d hcv).elim, fun d hw hcv => absurd hcv (not_woken_broadcast hw).2,
      fun d hw => h.lkcv d (not_woken_broadcast hw).1, h.busy⟩
  · next hbusy =>
    obtain rfl := some.inj hstep
    refine ⟨h.size, fun d _ hcv => (hrcv d hcv).elim, fun d _ hcv => ?_, h.lkcv, h.busy⟩
    have hcall := h.drained hbusy d
    rw [Phase.inCall, phase_of_wcv hcv, Bool.or_true] at hcall
    cases hcall

theorem Awaited.closeWrite (hen : s.Enabled .closeWrite) (hstep : s.next .closeWrite = some s') : Awaited s' := by
  have hwcv (d : Nat) (hcv : (s.w.phase d).cv = some .wcv) : False := by
    have hwriting := phase_of_wcv hcv
    rw [hen.2 d] at hwriting
    cases hwriting
  obtain rfl := some.inj hstep
  exact ⟨h.size, fun d hw hcv => absurd hcv (not_woken_broadcast hw).2, fun d _ hcv => (hwcv d hcv).elim,
    fun d hw => h.lkcv d (not_woken_broadcast hw).1, h.busy⟩

/-- A step keeps the invariant that takes no write to sleep unaware. -/
theorem Awaited.next (hinv : Inv s.w) {a : Act} (hen : s.Enabled a) (haware : s.Aware a) (hstep : s.next a = some s') : Awaited s' := by
  cases a with
  | closeRead => exact h.closeRead hen hstep
  | closeReadSignal =>
    simp only [Pipe.next] at hstep
    split at hstep
    · obtain rfl := some.inj hstep
      exact h.broadcast .wcv
    · cases hstep
  | closeWrite => exact h.closeWrite hen hstep
  | restart writeEnd =>
    simp only [Pipe.next] at hstep
    split at hstep
    · obtain rfl := some.inj hstep
      exact h
    obtain rfl := some.inj hstep
    have hset : Awaited { s with w := { s.w with restart := true } } := ⟨h.size, h.rcv, h.wcv, h.lkcv, h.busy⟩
    exact (hset.broadcast .rcv).broadcast .wcv
  | fcntl rflag wflag =>
    obtain rfl := some.inj hstep
    exact ⟨h.size, h.rcv, h.wcv, h.lkcv, h.busy⟩
  | read c len =>
    simp only [Pipe.next] at hstep
    split at hstep
    · next hphase =>
      obtain rfl := some.inj hstep
      exact (h.begins hphase).readLocking hinv (congrArg Phase.holds hphase)
    · cases hstep
  | write c base len grow =>
    simp only [Pipe.next] at hstep
    split at hstep
    · next hphase =>
      split at hstep
      · obtain rfl := some.inj hstep
        have hothers := h.others c
        rw [hphase] at hothers
        have hheld {kind : Phase → Bool} {q : Phase} (hheld : s.w.Held kind) : (s.w.goto c q).Held kind :=
          held_goto hheld fun hholds => absurd hholds (by rw [hphase]; decide)
        exact hothers.goto rfl rfl (Or.imp_right hheld) (Or.imp_right hheld) id
      · next heof =>
        obtain rfl := some.inj hstep
        exact (h.begins hphase).writeLocking hinv (congrArg Phase.holds hphase) grow fun hset => absurd hset heof
    · cases hstep
  | lock c grow =>
    simp only [Pipe.next] at hstep
    split at hstep
    · cases hstep
    split at hstep
    · next hphase =>
      obtain rfl := some.inj hstep
      exact (h.asleep (by rw [hphase]; rfl)).readLocking hinv (by rw [hphase]; rfl)
    · next hphase =>
      obtain rfl := some.inj hstep
      apply (h.asleep (by rw [hphase]; rfl)).writeLocking hinv (by rw [hphase]; rfl) grow
      exact fun heof hfree hsleeps => haware heof ⟨_, hphase, hfree, hsleeps⟩
    · next hphase =>
      obtain rfl := some.inj hstep
      exact (h.asleep (by rw [hphase]; rfl)).writeRelocking hinv (by rw [hphase]; rfl)
    · cases hstep
  | signal c error =>
    simp only [Pipe.next] at hstep
    split at hstep
    · next hphase =>
      obtain rfl := some.inj hstep
      exact h.readInterrupted (by rw [hphase]; rfl) (by rw [hphase]; rfl)
    · next hphase =>
      obtain rfl := some.inj hstep
      exact h.writeInterrupted (by rw [hphase]; rfl) (by rw [hphase]; rfl)
    · cases hstep
  | wake c error =>
    simp only [Pipe.next] at hstep
    split at hstep
    · cases hstep
    split at hstep
    · next hphase =>
      cases error with
      | some error =>
        obtain rfl := some.inj hstep
        exact h.readInterrupted (by rw [hphase]; rfl) (by rw [hphase]; rfl)
      | none =>
        obtain rfl := some.inj hstep
        exact (h.asleep (by rw [hphase]; rfl)).readLocking hinv (by rw [hphase]; rfl)
    · next hphase =>
      obtain rfl := some.inj hstep
      exact (h.asleep (by rw [hphase]; rfl)).writeRelocking hinv (by rw [hphase]; rfl)
    · cases hstep
  | copy c => exact h.copy hstep
  | fault c k => exact h.fault hstep
  | enter c => exact h.enter hinv haware hstep

end

theorem awaited_of_reach (h : pipeSystem.Reach Aware s) : Awaited s := by
  induction h with
  | init h =>
    obtain ⟨buffer, rfl⟩ := h
    exact awaited_created buffer
  | step hreach haware hstep ih => exact ih.next (inv_of_reachable (reach_forget hreach)) hstep.1 haware hstep.2

theorem Awaited.noneLeft (h : Awaited s) (hinv : Inv s.w) : s.NoneLeft := by
  intro hfree d hw
  have hnobody {kind : Phase → Bool} : ¬s.w.Held kind := not_held hinv (by rw [hfree]; decide)
  refine ⟨fun hcv hready => ?_, fun hcv hready => ?_, fun hcv => ?_⟩
  · obtain ⟨heof, hcnt⟩ := h.rcv d hw hcv
    obtain hready | hready := hready
    · exact hready.ne' (hcnt.resolve_right hnobody)
    · rw [heof] at hready
      cases hready
  · obtain ⟨heof, hcnt⟩ := h.wcv d hw hcv
    obtain hready | hready := hready
    · exact Nat.not_le_of_lt hready (hcnt.resolve_right hnobody)
    · rw [heof] at hready
      cases hready
  · have hlock := (h.lkcv d hw hcv).1
    rw [hfree] at hlock
    cases hlock

theorem not_noneLeft_writeLoop (hsleeps : Sleeps s.w s.w.bp wr) (heof : s.w.eof = true) : ¬(s.writeLoop c wr).NoneLeft := by
  obtain ⟨hresid, hroom, hflag, hrestart⟩ := hsleeps
  have hasleep : s.writeLoop c wr = (s.broadcast .rcv).pipeunlock.cvWait c (.writeWait wr) := by
    rw [Pipe.writeLoop, if_neg hresid, if_neg (by rw [hroom]; decide)]
    simp [broadcast_w, hflag, hrestart]
  rw [hasleep]
  intro hleft
  have hw : ((s.broadcast .rcv).pipeunlock.cvWait c (.writeWait wr)).w = { s.w with lockfl := false }.goto c (.writeWait wr) := by
    change World.goto (s.broadcast .rcv).pipeunlock.w c _ = _
    rw [pipeunlock_w, broadcast_w]
  have hphase : ({ s.w with lockfl := false }.goto c (.writeWait wr)).phase c = .writeWait wr := World.phase_goto_self
  have hnone := (hleft (by rw [hw]; rfl) c (update_self ..)).2.1
  rw [hw, hphase] at hnone
  exact hnone rfl (.inr heof)

theorem not_noneLeft_writeLocking (hsize : pipeSize ≤ s.w.bp.size) (hfree : s.w.lockfl = false)
    (hsleeps : Sleeps s.w s.w.bp wr) (heof : s.w.eof = true) (grow : Option (Nat → BitVec 8)) :
    ¬(s.writeLocking c wr grow).NoneLeft := by
  have hloop : s.writeLocking c wr grow = Pipe.writeLoop { s with w := { s.w with lockfl := true } } c wr := by
    rw [Pipe.writeLocking, if_neg (by rw [hfree]; decide)]
    exact if_neg fun hsmall => (room_pos_of_empty hsize hsmall.2.2 hsmall.1).ne' hsleeps.2.1
  rw [hloop]
  exact not_noneLeft_writeLoop hsleeps heof

theorem Awaited.not_noneLeft (h : Awaited s) {a : Act} (hstep : s.next a = some s') (heof : s.w.eof = true)
    (hunaware : s.SleepsUnaware a) : ¬s'.NoneLeft := by
  cases a with
  | lock c grow =>
    obtain ⟨wr, hphase, hfree, hsleeps⟩ := hunaware
    simp only [Pipe.next, hphase] at hstep
    split at hstep
    · cases hstep
    · obtain rfl := some.inj hstep
      exact not_noneLeft_writeLocking h.size hfree hsleeps heof grow
  | enter c =>
    obtain ⟨wr, size, segsize, hphase, hsleeps⟩ := hunaware
    simp only [Pipe.next, hphase] at hstep
    obtain rfl := some.inj hstep
    exact not_noneLeft_writeLoop hsleeps heof
  | _ => cases hunaware

end Pipe

variable {s s' : Pipe} {a : Pipe.Act}

/-- As long as no write has gone to sleep with `PIPE_EOF` set, nobody is left asleep on a pipe that is ready for it; and a
write that does go to sleep then is left. -/
theorem wakeups_kept_iff (h : pipeSystem.Reach Pipe.Aware s) (hstep : pipeSystem.step s a s') : s.NoneLeft ∧ (s'.NoneLeft ↔ s.Aware a) := by
  have hinv : Inv s.w := inv_of_reachable (Pipe.reach_forget h)
  have hawaited := Pipe.awaited_of_reach h
  refine ⟨hawaited.noneLeft hinv, fun hleft heof hunaware => ?_, fun haware => ?_⟩
  · exact hawaited.not_noneLeft hstep.2 heof hunaware hleft
  · have hreach : pipeSystem.Reach Pipe.Aware s' := .step h haware hstep
    exact (Pipe.awaited_of_reach hreach).noneLeft (inv_of_reachable (Pipe.reach_forget hreach))

/-- A write that has filled the buffer, and has more, is back in the mutex after the read end is closed. -/
theorem wakeups_left : ∃ s, pipeSystem.Reachable s ∧ ¬s.NoneLeft := by
  let wr : Writer := ⟨fun _ => 0, 0, 20000, false⟩
  let s₁ : Pipe := Pipe.writeLocking { Pipe.created fun _ => 0 with busy := 1 } 0 wr none
  let s₂ : Pipe := { s₁ with w := (s₁.w.fill 0 16384 wr 0).goto 0 (.writeCopied wr 16384 16384) }
  let s₃ : Pipe := { s₂ with w := { s₂.w with eof := true }, rclosed := true }.broadcast .wcv
  have h₁ : pipeSystem.Reachable s₁ := .step (a := .write 0 (fun _ => 0) 20000 none) (.init ⟨_, rfl⟩) trivial ⟨rfl, rfl⟩
  have h₂ : pipeSystem.Reachable s₂ := .step (a := .copy 0) h₁ trivial ⟨trivial, rfl⟩
  have hnoread (c : Nat) : (s₂.w.phase c).reading = false := by
    by_cases hc : c = 0
    · rw [hc]
      rfl
    rw [World.phase_goto_of_ne hc]
    change (Phase.reading (World.phase (World.goto _ 0 _) c)) = false
    rw [World.phase_goto_of_ne hc]
    rfl
  have h₃ : pipeSystem.Reachable s₃ := .step (a := .closeRead) h₂ trivial ⟨⟨rfl, hnoread⟩, rfl⟩
  have h₄ : pipeSystem.Reachable (s₃.writeCommit 0 wr 16384 16384) := .step (a := .enter 0) h₃ trivial ⟨trivial, rfl⟩
  exact ⟨_, h₄, Pipe.not_noneLeft_writeLoop ⟨by decide, by decide, rfl, rfl⟩ rfl⟩

/-- A read goes to sleep, and is woken by the write that brings bytes. -/
theorem wakeups_kept_woken : ∃ s s' : Pipe, (s.NoneLeft ∧ (s'.NoneLeft ↔ s.Aware (.enter 1))) ∧
    (s.w.phase 0).cv = some .rcv ∧ s.woken 0 = false ∧ s'.woken 0 = true ∧ s'.w.bp.cnt = 3 := by
  let wr : Writer := ⟨fun _ => 1, 0, 3, false⟩
  let s₁ : Pipe := Pipe.readLocking { Pipe.created fun _ => 0 with busy := 1 } 0 ⟨10, 0, false, []⟩
  let s₂ : Pipe := Pipe.writeLocking { s₁ with busy := 2 } 1 wr none
  let s₃ : Pipe := { s₂ with w := (s₂.w.fill 0 3 wr 0).goto 1 (.writeCopied wr 3 3) }
  have h₁ : pipeSystem.Reach Pipe.Aware s₁ := .step (a := .read 0 10) (.init ⟨_, rfl⟩) nofun ⟨rfl, rfl⟩
  have h₂ : pipeSystem.Reach Pipe.Aware s₂ := .step (a := .write 1 (fun _ => 1) 3 none) h₁ nofun ⟨rfl, rfl⟩
  have h₃ : pipeSystem.Reach Pipe.Aware s₃ := .step (a := .copy 1) h₂ nofun ⟨trivial, rfl⟩
  have hstep : pipeSystem.step s₃ (.enter 1) (s₃.writeCommit 1 wr 3 3) := ⟨trivial, rfl⟩
  exact ⟨s₃, _, wakeups_kept_iff h₃ hstep, rfl, rfl, rfl, rfl⟩

end NetBSD.Kern.SysPipe
