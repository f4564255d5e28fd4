import NetBSD.Kern.SysMqueue.Priorities
import Mathlib.Logic.ExistsUnique

/-! Who has a message.

Each call that sends allocates one message, so that a message goes by the call. Where it is decides whether it is
allocated, and how often it has been put into the queue, is there, and was given up: `Placed` says that there is such a
place for every call, and that the phases agree with it. A step moves one message. -/
namespace NetBSD.Kern.SysMqueue
open List Function
open Lib

def Event.isPut (c : Nat) : Event → Bool
  | .put msg => msg.id = c
  | _ => false

def Event.isTake (c : Nat) : Event → Bool
  | .take call _ => call = c
  | _ => false

def Event.isQuit (c : Nat) : Event → Bool
  | .quit call => call = c
  | _ => false

/-- Where the message of a call is. -/
inductive Place where
  | unborn
  | sender
  | queue
  | receiver (call : Nat)
  | taken
  | dropped
  | lost

/-- Whether a message is allocated; how often it was put, is in the queue, and was given up. -/
structure Tally where
  live : Bool
  puts : Nat
  queued : Nat
  quits : Nat

def tally (w : World) (c : Nat) : Tally :=
  ⟨w.live c, w.log.countP (Event.isPut c), ((inQueue w.log).map MqMsg.id).count c, w.log.countP (Event.isQuit c)⟩

def Place.tally : Place → Tally
  | .unborn => ⟨false, 0, 0, 0⟩
  | .sender => ⟨true, 0, 0, 0⟩
  | .queue => ⟨true, 1, 1, 0⟩
  | .receiver _ => ⟨true, 1, 0, 0⟩
  | .taken => ⟨false, 1, 0, 0⟩
  | .dropped => ⟨false, 0, 0, 0⟩
  | .lost => ⟨true, 0, 0, 1⟩

/-- How often a call in the phase has taken a message. -/
def Phase.takes : Phase → Nat
  | .holding _ => 1
  | .received none => 1
  | .received (some error) => if error = .EFAULT then 1 else 0
  | _ => 0

/-- The phases agree with the place of the message of a call. -/
def Fits (phase : Nat → Phase) (c : Nat) : Place → Prop
  | .unborn => (phase c).sends = none ∧ ∀ notify, phase c ≠ .sent none notify
  | .sender => ∃ msg, (phase c).sends = some msg ∧ msg.id = c
  | .receiver r => (∃ notify, phase c = .sent none notify) ∧ ∃ msg, phase r = .holding msg ∧ msg.id = c
  | .dropped => ∃ error, phase c = .sent (some error) none
  | _ => ∃ notify, phase c = .sent none notify

structure Placed (w : World) (place : Nat → Place) : Prop where
  tally : ∀ c, tally w c = (place c).tally
  takes : ∀ r, w.log.countP (Event.isTake r) = (w.phase r).takes
  fits : ∀ c, Fits w.phase c (place c)
  holding : ∀ r msg, w.phase r = .holding msg → place msg.id = .receiver r

variable {w w' : World} {place : Nat → Place} {c i : Nat} {p : Phase} {pl : Place} {msg : MqMsg}

section
variable (h : Placed w place)
include h

/-- A call goes to a phase, and the message `i` to a place. -/
theorem Placed.goto (hphase : w'.phase = update w.phase c p)
    (htally : ∀ c', SysMqueue.tally w' c' = if c' = i then pl.tally else SysMqueue.tally w c')
    (htakes : ∀ r, w'.log.countP (Event.isTake r) = if r = c then p.takes else w.log.countP (Event.isTake r))
    (hfit : Fits w'.phase i pl) (hself : c ≠ i → Fits w'.phase c (place c))
    (hheld : ∀ msg, w.phase c = .holding msg → i = msg.id) (hhold : ∀ msg, p = .holding msg → pl = .receiver c ∧ i = msg.id)
    (hothers : ∀ r msg, r ≠ c → w.phase r = .holding msg → msg.id ≠ i) : Placed w' (update place i pl) := by
  constructor
  · intro c'
    rw [htally]
    by_cases hc : c' = i
    · rw [if_pos hc, hc, update_self]
    · rw [if_neg hc, update_of_ne hc, h.tally]
  · intro r
    rw [htakes, hphase]
    by_cases hr : r = c
    · rw [if_pos hr, hr, update_self]
    · rw [if_neg hr, update_of_ne hr, h.takes]
  · intro c'
    by_cases hc : c' = i
    · rw [hc, update_self]
      exact hfit
    rw [update_of_ne hc]
    by_cases hcc : c' = c
    · subst hcc
      exact hself hc
    have hfits := h.fits c'
    have hsame : w'.phase c' = w.phase c' := by rw [hphase, update_of_ne hcc]
    cases hp : place c' with
    | receiver r =>
      rw [hp] at hfits
      obtain ⟨hsent, msg, hr, rfl⟩ := hfits
      have hrc : r ≠ c := by
        rintro rfl
        exact hc (hheld msg hr).symm
      exact ⟨hsame ▸ hsent, msg, by rw [hphase, update_of_ne hrc, hr], rfl⟩
    | _ =>
      rw [hp] at hfits
      simp only [Fits, hsame] at hfits ⊢
      exact hfits
  · intro r msg hr
    rw [hphase] at hr
    by_cases hrc : r = c
    · subst hrc
      rw [update_self] at hr
      obtain ⟨rfl, rfl⟩ := hhold msg hr
      exact update_self _ _ _
    · rw [update_of_ne hrc] at hr
      rw [update_of_ne (hothers r msg hrc hr)]
      exact h.holding r msg hr

theorem Placed.unborn (hsends : (w.phase c).sends = none) (hsent : ∀ error notify, w.phase c ≠ .sent error notify) : place c = .unborn := by
  have hfits := h.fits c
  cases hp : place c with
  | unborn => rfl
  | sender =>
    rw [hp] at hfits
    obtain ⟨msg, hmsg, -⟩ := hfits
    rw [hsends] at hmsg
    cases hmsg
  | receiver r =>
    rw [hp] at hfits
    obtain ⟨⟨notify, hn⟩, -⟩ := hfits
    exact absurd hn (hsent _ _)
  | dropped =>
    rw [hp] at hfits
    obtain ⟨error, hn⟩ := hfits
    exact absurd hn (hsent _ _)
  | queue | taken | lost =>
    rw [hp] at hfits
    obtain ⟨notify, hn⟩ := hfits
    exact absurd hn (hsent _ _)

theorem Placed.sender (hsends : (w.phase c).sends = some msg) : place c = .sender ∧ msg.id = c := by
  have hfits := h.fits c
  cases hp : place c with
  | sender =>
    rw [hp] at hfits
    obtain ⟨msg', hmsg', hid⟩ := hfits
    rw [hsends] at hmsg'
    cases hmsg'
    exact ⟨rfl, hid⟩
  | unborn =>
    rw [hp] at hfits
    rw [hfits.1] at hsends
    cases hsends
  | receiver r =>
    rw [hp] at hfits
    obtain ⟨⟨notify, hn⟩, -⟩ := hfits
    rw [hn] at hsends
    cases hsends
  | dropped =>
    rw [hp] at hfits
    obtain ⟨error, hn⟩ := hfits
    rw [hn] at hsends
    cases hsends
  | queue | taken | lost =>
    rw [hp] at hfits
    obtain ⟨notify, hn⟩ := hfits
    rw [hn] at hsends
    cases hsends

theorem Placed.held_ne (hpl : ∀ r, place i ≠ .receiver r) (r : Nat) (msg : MqMsg) (hr : w.phase r = .holding msg) : msg.id ≠ i := by
  rintro rfl
  exact hpl r (h.holding r msg hr)

theorem Placed.stay (hphase : w'.phase = update w.phase c p)
    (htally : ∀ c', SysMqueue.tally w' c' = SysMqueue.tally w c') (hlog : w'.log = w.log) (htakes : p.takes = (w.phase c).takes)
    (hfit : Fits w'.phase c (place c)) (hheld : ∀ msg, w.phase c ≠ .holding msg) (hhold : ∀ msg, p ≠ .holding msg)
    (hpl : ∀ r, place c ≠ .receiver r) : Placed w' place := by
  have hgoto : Placed w' (update place c (place c)) :=
    h.goto hphase ?_ ?_ hfit (fun hne => absurd rfl hne) (fun msg hm => absurd hm (hheld msg))
    (fun msg hm => absurd hm (hhold msg)) (fun r msg _ hr => h.held_ne hpl r msg hr)
  · rwa [update_eq_self] at hgoto
  · intro c'
    rw [htally]
    split
    · next hc => rw [hc, h.tally]
    · rfl
  intro r
  rw [hlog]
  split
  · next hr => rw [hr, h.takes, htakes]
  · rfl

theorem Placed.receives (hphase : w.phase c = .idle ∨ w.phase c = .recvWait) :
    place c = .unborn ∧ (w.phase c).takes = 0 ∧ ∀ msg, w.phase c ≠ .holding msg := by
  have hsent : ∀ error notify, w.phase c ≠ .sent error notify := by
    intro error notify hs
    rw [hs] at hphase
    rcases hphase with hp | hp <;> cases hp
  refine ⟨h.unborn ?_ hsent, ?_, ?_⟩
  · rcases hphase with hp | hp <;> rw [hp] <;> rfl
  · rcases hphase with hp | hp <;> rw [hp] <;> rfl
  intro msg hm
  rw [hm] at hphase
  rcases hphase with hp | hp <;> cases hp

end

/-! ### The steps -/

theorem Placed.sends_held (hsends : (w.phase c).sends = some msg) (m : MqMsg) : w.phase c ≠ .holding m := by
  intro hm
  rw [hm] at hsends
  cases hsends

theorem Phase.takes_of_sends {p : Phase} (h : p.sends = some msg) : p.takes = 0 := by
  cases p <;> first | rfl | cases h

section
variable (h : Placed w place)
include h

theorem Placed.alloc (hidle : w.phase c = .idle) (hid : msg.id = c) (hp : p.sends = some msg) :
    Placed ({ w with live := update w.live c true }.goto c p) (update place c .sender) := by
  have hborn : place c = .unborn := h.unborn (by rw [hidle]; rfl) (fun _ _ hs => by rw [hidle] at hs; cases hs)
  have hold := h.tally c
  rw [hborn] at hold
  apply h.goto rfl
  · intro c'
    rw [SysMqueue.tally]
    dsimp only [World.goto]
    split
    · next hc =>
      rw [hc, update_self]
      rw [SysMqueue.tally, Place.tally, Tally.mk.injEq] at hold
      rw [hold.2.1, hold.2.2.1, hold.2.2.2, Place.tally]
    · next hc =>
      rw [update_of_ne hc]
      rfl
  · intro r
    split
    · next hr =>
      rw [hr, Phase.takes_of_sends hp]
      exact (h.takes c).trans (by rw [hidle]; rfl)
    · rfl
  · refine ⟨msg, ?_, hid⟩
    show (update w.phase c p c).sends = some msg
    rw [update_self]
    exact hp
  · exact fun hne => absurd rfl hne
  · exact fun m hm => by rw [hidle] at hm; cases hm
  · rintro m rfl
    cases hp
  · exact fun r m _ hr => h.held_ne (fun r' hr' => by rw [hborn] at hr'; cases hr') r m hr

theorem Placed.put (hsends : (w.phase c).sends = some msg) (mq : Mqueue) (notify : Option Nat) :
    Placed ({ w with mq := mq, log := .put msg :: w.log }.goto c (.sent none notify)) (update place c .queue) := by
  obtain ⟨hpl, hid⟩ := h.sender hsends
  have hold := h.tally c
  rw [hpl, SysMqueue.tally, Tally.mk.injEq] at hold
  apply h.goto rfl
  · intro c'
    rw [SysMqueue.tally]
    dsimp only [World.goto, inQueue]
    rw [countP_cons, countP_cons, map_append, count_append]
    simp only [Event.isPut, Event.isQuit, Bool.false_eq_true, if_false, hid, map_cons, map_nil, count_singleton, beq_iff_eq, decide_eq_true_eq]
    by_cases hc : c' = c
    · subst hc
      simp [if_pos, hold.1, hold.2.1, hold.2.2.1, hold.2.2.2, Place.tally]
    · rw [if_neg hc, if_neg (Ne.symm hc)]
      rfl
  · intro r
    dsimp only [World.goto]
    rw [countP_cons_of_neg (by simp [Event.isTake])]
    split
    · next hr =>
      rw [hr, h.takes, Phase.takes_of_sends hsends]
      rfl
    · rfl
  · exact ⟨notify, update_self _ _ _⟩
  · exact fun hne => absurd rfl hne
  · exact fun m hm => absurd hm (sends_held hsends m)
  · exact fun m hm => by cases hm
  · exact fun r m _ hr => h.held_ne (fun r' hr' => by rw [hpl] at hr'; cases hr') r m hr

theorem Placed.quit (hwait : w.phase c = .sendWait msg) :
    Placed ({ w with log := .quit c :: w.log }.goto c (.sent none none)) (update place c .lost) := by
  have hsends : (w.phase c).sends = some msg := by rw [hwait]; rfl
  obtain ⟨hpl, -⟩ := h.sender hsends
  have hold := h.tally c
  rw [hpl, SysMqueue.tally, Tally.mk.injEq] at hold
  apply h.goto rfl
  · intro c'
    rw [SysMqueue.tally]
    dsimp only [World.goto, inQueue]
    rw [countP_cons, countP_cons]
    simp only [Event.isPut, Event.isQuit, Bool.false_eq_true, if_false, decide_eq_true_eq]
    by_cases hc : c' = c
    · subst hc
      simp [if_pos, hold.1, hold.2.1, hold.2.2.1, hold.2.2.2, Place.tally]
    · rw [if_neg hc, if_neg (Ne.symm hc)]
      rfl
  · intro r
    dsimp only [World.goto]
    rw [countP_cons_of_neg (by simp [Event.isTake])]
    split
    · next hr =>
      rw [hr, h.takes, hwait]
      rfl
    · rfl
  · exact ⟨none, update_self _ _ _⟩
  · exact fun hne => absurd rfl hne
  · exact fun m hm => absurd hm (sends_held hsends m)
  · exact fun m hm => by cases hm
  · exact fun r m _ hr => h.held_ne (fun r' hr' => by rw [hpl] at hr'; cases hr') r m hr

theorem Placed.free {error : Errno} (hfail : w.phase c = .sendFail msg error) :
    Placed ({ w with live := update w.live msg.id false }.goto c (.sent (some error) none))
      (update place c .dropped) := by
  have hsends : (w.phase c).sends = some msg := by rw [hfail]; rfl
  obtain ⟨hpl, hid⟩ := h.sender hsends
  have hold := h.tally c
  rw [hpl, SysMqueue.tally, Place.tally, Tally.mk.injEq] at hold
  apply h.goto rfl
  · intro c'
    rw [SysMqueue.tally]
    dsimp only [World.goto]
    split
    · next hc => rw [hc, hid, update_self, hold.2.1, hold.2.2.1, hold.2.2.2, Place.tally]
    · next hc =>
      rw [hid, update_of_ne hc]
      rfl
  · intro r
    split
    · next hr =>
      rw [hr]
      exact (h.takes c).trans (by rw [hfail]; rfl)
    · rfl
  · exact ⟨error, update_self _ _ _⟩
  · exact fun hne => absurd rfl hne
  · exact fun m hm => absurd hm (sends_held hsends m)
  · exact fun m hm => by cases hm
  · exact fun r m _ hr => h.held_ne (fun r' hr' => by rw [hpl] at hr'; cases hr') r m hr

theorem Placed.queued (hmem : msg ∈ inQueue w.log) : place msg.id = .queue := by
  have hcount : 0 < ((inQueue w.log).map MqMsg.id).count msg.id := count_pos_iff.mpr (mem_map_of_mem hmem)
  have htally := congrArg Tally.queued (h.tally msg.id)
  rw [SysMqueue.tally] at htally
  dsimp only at htally
  cases hp : place msg.id with
  | queue => rfl
  | _ =>
    rw [htally, hp] at hcount
    exact absurd hcount (lt_irrefl 0)

/-- A receiver that has none takes a message of the queue. -/
theorem Placed.take (hphase : w.phase c = .idle ∨ w.phase c = .recvWait) (hmem : msg ∈ inQueue w.log)
    (mq : Mqueue) : Placed ({ w with mq := mq, log := .take c msg :: w.log }.goto c (.holding msg))
      (update place msg.id (.receiver c)) := by
  have hpl := h.queued hmem
  have hold := h.tally msg.id
  rw [hpl, SysMqueue.tally, Place.tally, Tally.mk.injEq] at hold
  have hfits := h.fits msg.id
  rw [hpl] at hfits
  obtain ⟨notify, hsent⟩ := hfits
  have hne : msg.id ≠ c := by
    rintro rfl
    rw [hsent] at hphase
    rcases hphase with hp | hp <;> cases hp
  obtain ⟨hborn, htakes, hheld⟩ := h.receives hphase
  have hperm := ((perm_cons_erase hmem).map MqMsg.id).count_eq
  apply h.goto rfl
  · intro c'
    rw [SysMqueue.tally]
    dsimp only [World.goto, inQueue]
    rw [countP_cons_of_neg (by simp [Event.isPut]), countP_cons_of_neg (by simp [Event.isQuit])]
    have hcount := hperm c'
    rw [map_cons, count_cons] at hcount
    split
    · next hc =>
      subst hc
      rw [if_pos (beq_self_eq_true _)] at hcount
      rw [hold.1, hold.2.1, hold.2.2.2, Place.tally, Tally.mk.injEq]
      exact ⟨rfl, rfl, by omega, rfl⟩
    · next hc =>
      rw [if_neg (by simpa using Ne.symm hc), add_zero] at hcount
      rw [SysMqueue.tally, hcount]
  · intro r
    dsimp only [World.goto]
    rw [countP_cons]
    simp only [Event.isTake, decide_eq_true_eq]
    by_cases hr : r = c
    · subst hr
      rw [if_pos rfl, if_pos rfl, h.takes, htakes]
      rfl
    · rw [if_neg hr, if_neg (Ne.symm hr), add_zero]
  · refine ⟨⟨notify, ?_⟩, msg, update_self _ _ _, rfl⟩
    exact (update_of_ne hne _ _).trans hsent
  · intro _
    rw [hborn]
    refine ⟨?_, ?_⟩
    · show (update w.phase c (.holding msg) c).sends = none
      rw [update_self]
      rfl
    intro notify' hs
    rw [World.goto] at hs
    dsimp only at hs
    rw [update_self] at hs
    cases hs
  · exact fun m hm => absurd hm (hheld m)
  · intro m hm
    cases hm
    exact ⟨rfl, rfl⟩
  · exact fun r m _ hr => h.held_ne (fun r' hr' => by rw [hpl] at hr'; cases hr') r m hr

theorem Placed.out (hphase : w.phase c = .holding msg) (fault : Bool) :
    Placed ({ w with live := update w.live msg.id false }.goto c (.received (if fault then some .EFAULT else none)))
      (update place msg.id .taken) := by
  have hpl := h.holding c msg hphase
  have hold := h.tally msg.id
  rw [hpl, SysMqueue.tally, Place.tally, Tally.mk.injEq] at hold
  have hfits := h.fits msg.id
  rw [hpl] at hfits
  obtain ⟨⟨notify, hsent⟩, -⟩ := hfits
  have hne : msg.id ≠ c := by
    intro heq
    rw [heq, hphase] at hsent
    cases hsent
  have hborn : place c = .unborn := by
    apply h.unborn
    · rw [hphase]
      rfl
    intro error notify' hs
    rw [hphase] at hs
    cases hs
  apply h.goto rfl
  · intro c'
    rw [SysMqueue.tally]
    dsimp only [World.goto]
    split
    · next hc => rw [hc, update_self, hold.2.1, hold.2.2.1, hold.2.2.2, Place.tally]
    · next hc =>
      rw [update_of_ne hc]
      rfl
  · intro r
    by_cases hr : r = c
    · subst hr
      rw [if_pos rfl]
      refine (h.takes r).trans ?_
      rw [hphase]
      cases fault <;> rfl
    · rw [if_neg hr]
      rfl
  · exact ⟨notify, (update_of_ne hne _ _).trans hsent⟩
  · intro _
    rw [hborn]
    refine ⟨?_, ?_⟩
    · show (update w.phase c _ c).sends = none
      rw [update_self]
      rfl
    intro notify' hs
    rw [World.goto] at hs
    dsimp only at hs
    rw [update_self] at hs
    cases hs
  · intro m hm
    rw [hphase] at hm
    cases hm
    rfl
  · exact fun m hm => by cases hm
  · intro r m hrc hr heq
    have hr' := h.holding r m hr
    rw [heq, hpl] at hr'
    exact hrc (Place.receiver.inj hr').symm

theorem Placed.stay_unborn (hphase : w'.phase = update w.phase c p)
    (htally : ∀ c', SysMqueue.tally w' c' = SysMqueue.tally w c') (hlog : w'.log = w.log)
    (hold : w.phase c = .idle ∨ w.phase c = .recvWait) (hp : p.sends = none) (hsent : ∀ notify, p ≠ .sent none notify)
    (htakes : p.takes = 0) (hhold : ∀ msg, p ≠ .holding msg) : Placed w' place := by
  obtain ⟨hborn, htakes', hheld⟩ := h.receives hold
  refine h.stay hphase htally hlog (htakes.trans htakes'.symm) ?_ hheld hhold fun r hr => by rw [hborn] at hr; cases hr
  rw [hborn]
  have hself : w'.phase c = p := by rw [hphase, update_self]
  exact ⟨by rw [hself, hp], fun notify hs => hsent notify (hself.symm.trans hs)⟩

theorem Placed.move (hd : Delivers w) (hmove : Move w w') : ∃ place', Placed w' place' := by
  cases hmove with
  | other _ hphase hlive hlog =>
    refine ⟨place, ?_, ?_, ?_, ?_⟩
    · intro c
      rw [SysMqueue.tally, hlive, hlog]
      exact h.tally c
    · rw [hlog, hphase]
      exact h.takes
    · rw [hphase]
      exact h.fits
    · rw [hphase]
      exact h.holding
  | refuse c error hidle hw' =>
    subst hw'
    exact ⟨place, h.stay_unborn rfl (fun _ => rfl) rfl (.inl hidle) rfl (fun _ hs => by cases hs) rfl fun _ hm => by cases hm⟩
  | alloc c msg p hidle hid hp hw' =>
    subst hw'
    exact ⟨_, h.alloc hidle hid hp⟩
  | look c msg p hsends hp hw' =>
    subst hw'
    obtain ⟨hpl, hid⟩ := h.sender hsends
    refine ⟨place, h.stay rfl (fun _ => rfl) rfl ?_ ?_ (sends_held hsends) ?_ fun r hr => by rw [hpl] at hr; cases hr⟩
    · rw [Phase.takes_of_sends hp, Phase.takes_of_sends hsends]
    · rw [hpl]
      refine ⟨msg, ?_, hid⟩
      show (update w.phase c p c).sends = some msg
      rw [update_self]
      exact hp
    · rintro m rfl
      cases hp
  | put c msg hsends _ hw' =>
    subst hw'
    exact ⟨_, h.put hsends _ _⟩
  | quit c msg hwait _ hw' =>
    subst hw'
    exact ⟨_, h.quit hwait⟩
  | free c msg error hfail hw' =>
    subst hw'
    exact ⟨_, h.free hfail⟩
  | wait c receive hphase hw' =>
    subst hw'
    exact ⟨place, h.stay_unborn rfl (fun _ => rfl) rfl hphase rfl (fun _ hs => by cases hs) rfl fun _ hm => by cases hm⟩
  | fail c receive error hphase herror hw' =>
    subst hw'
    exact ⟨place, h.stay_unborn rfl (fun _ => rfl) rfl hphase rfl (fun _ hs => by cases hs) (if_neg herror) fun _ hm => by cases hm⟩
  | take c msg mq mq' hphase hmq hcur hrecv hw' =>
    subst hw'
    obtain ⟨⟨-, older, newer, hq, -⟩, -⟩ := receive_spec (hd.holds.congr hmq.head hmq.bitmap hmq.curmsgs) hcur hrecv
    exact ⟨_, h.take hphase (hq ▸ mem_append_right _ mem_cons_self) mq'⟩
  | out c msg fault hphase hw' =>
    subst hw'
    exact ⟨_, h.out hphase fault⟩

end

theorem reachable_placed (h : system.Reachable w) : Delivers w ∧ ∃ place, Placed w place := by
  apply h.invariant
  · rintro w ⟨attr, limits, rfl⟩
    refine ⟨reachable_delivers (.init ⟨attr, limits, rfl⟩), fun _ => .unborn, fun _ => rfl, fun _ => rfl, ?_, ?_⟩
    · exact fun _ => ⟨rfl, fun _ hs => by cases hs⟩
    · exact fun _ _ hm => by cases hm
  · rintro w a w' ⟨hd, place, h⟩ _ hstep
    exact ⟨hd.move (next_move hstep), h.move hd (next_move hstep)⟩

/-! ### Owners -/

inductive Owner where
  | sender
  | queue
  | receiver (call : Nat)

/-- Who has the message of a call. -/
def Owns (w : World) (c : Nat) : Owner → Prop
  | .sender => ∃ msg, (w.phase c).sends = some msg
  | .queue => ∃ k ≤ MQ_PQSIZE, ∃ msg ∈ w.mq.mqHead k, msg.id = c
  | .receiver r => ∃ msg, w.phase r = .holding msg ∧ msg.id = c

def Event.caller : Event → Nat
  | .put msg => msg.id
  | .take call _ => call
  | .quit call => call

theorem Holds.mem_iff {mq : Mqueue} {q : List MqMsg} (h : Holds mq q) : msg ∈ q ↔ ∃ k ≤ MQ_PQSIZE, msg ∈ mq.mqHead k := by
  constructor
  · intro hmem
    by_cases hlow : msg.msgPrio < MQ_PQSIZE
    · exact ⟨_, Nat.sub_le _ _, h.mem_list hmem hlow⟩
    · exact ⟨_, Nat.zero_le _, h.mem_reserved hmem (Nat.not_lt.mp hlow)⟩
  rintro ⟨k, hk, hmem⟩
  by_cases h0 : k = 0
  · subst h0
    have hfilter : msg ∈ (mq.mqHead MQ_PQRESQ).filter (·.msgPrio = msg.msgPrio) :=
      mem_filter.mpr ⟨hmem, decide_eq_true rfl⟩
    rw [h.reserved _ (h.above msg hmem)] at hfilter
    exact (mem_filter.mp hfilter).1
  · have hlist := h.lists (MQ_PQSIZE - k) (by omega)
    rw [show MQ_PQSIZE - (MQ_PQSIZE - k) = k by omega] at hlist
    rw [hlist] at hmem
    exact (mem_filter.mp hmem).1

/-- The place of a message says who owns it. -/
def Place.owner : Place → Option Owner
  | .sender => some .sender
  | .queue => some .queue
  | .receiver r => some (.receiver r)
  | _ => none

theorem owns_iff (h : Placed w place) (hd : Delivers w) (owner : Owner) : Owns w c owner ↔ (place c).owner = some owner := by
  have hfits := h.fits c
  cases owner with
  | sender =>
    constructor
    · rintro ⟨msg, hsends⟩
      rw [(h.sender hsends).1]
      rfl
    intro howner
    cases hp : place c <;> rw [hp] at howner hfits <;> cases howner
    obtain ⟨msg, hmsg, -⟩ := hfits
    exact ⟨msg, hmsg⟩
  | queue =>
    constructor
    · rintro ⟨k, hk, msg, hmem, rfl⟩
      rw [h.queued (hd.holds.mem_iff.mpr ⟨k, hk, hmem⟩)]
      rfl
    intro howner
    cases hp : place c <;> rw [hp] at howner <;> cases howner
    have htally := congrArg Tally.queued (h.tally c)
    rw [hp] at htally
    have hcount : ((inQueue w.log).map MqMsg.id).count c = 1 := htally
    obtain ⟨msg, hmem, hid⟩ := mem_map.mp (count_pos_iff.mp (hcount.symm ▸ one_pos))
    obtain ⟨k, hk, hlist⟩ := hd.holds.mem_iff.mp hmem
    exact ⟨k, hk, msg, hlist, hid⟩
  | receiver r =>
    constructor
    · rintro ⟨msg, hr, rfl⟩
      rw [h.holding r msg hr]
      rfl
    · intro howner
      cases hp : place c <;> rw [hp] at howner hfits <;> cases howner
      exact hfits.2

theorem owner_eq_none_iff : pl.owner = none ↔ pl.tally.live = false ∨ pl.tally.quits = 1 := by
  cases pl <;> simp [Place.owner, Place.tally]

theorem not_quit_iff (log : List Event) : log.countP (Event.isQuit c) = 0 ↔ .quit c ∉ log := by
  rw [countP_eq_zero]
  constructor
  · exact fun hall hmem => hall _ hmem (decide_eq_true rfl)
  intro hnot e he hq
  cases e with
  | put msg => cases hq
  | take call msg => cases hq
  | quit call => exact hnot (of_decide_eq_true hq ▸ he)

theorem not_caller {log : List Event} (hput : log.countP (Event.isPut c) = 0) (htake : log.countP (Event.isTake c) = 0)
    (hquit : .quit c ∉ log) : ∀ e ∈ log, e.caller ≠ c := by
  rintro e he rfl
  cases e with
  | put msg => exact countP_eq_zero.mp hput _ he (decide_eq_true rfl)
  | take call msg => exact countP_eq_zero.mp htake _ he (decide_eq_true rfl)
  | quit call => exact hquit he

/-- A sender that has returned 0 has put its message or given it up; one that has returned an error has done neither. -/
theorem Fits.sent {phase : Nat → Phase} (h : Fits phase c pl) {error : Option Errno} {notify : Option Nat}
    (hsent : phase c = .sent error notify) : pl.tally.puts + pl.tally.quits = if error = none then 1 else 0 := by
  cases pl with
  | unborn =>
    rw [if_neg]
    · rfl
    · rintro rfl
      exact h.2 notify hsent
  | sender =>
    obtain ⟨msg, hsends, -⟩ := h
    rw [hsent] at hsends
    cases hsends
  | receiver r =>
    obtain ⟨⟨notify', hn⟩, -⟩ := h
    rw [hsent] at hn
    cases hn
    rfl
  | dropped =>
    obtain ⟨error', hn⟩ := h
    rw [hsent] at hn
    cases hn
    rfl
  | queue | taken | lost =>
    obtain ⟨notify', hn⟩ := h
    rw [hsent] at hn
    cases hn
    rfl

/-- A call that sends has put its message just once if it answers 0, and not if it answers an error, unless it was woken by
the removal of the queue; a call that answers an error is not in the log, unless it is a receiver that could not copy out;
the queue is as the log has it; and an allocated message has one owner, unless its sender was woken so. -/
theorem sent_once_owned_once (h : system.Reachable w) : (∀ c error notify, w.phase c = .sent error notify → .quit c ∉ w.log →
      w.log.countP (Event.isPut c) = if error = none then 1 else 0) ∧
    (∀ c error, (∃ notify, w.phase c = .sent (some error) notify) ∨ w.phase c = .received (some error) ∧ error ≠ .EFAULT →
      ∀ e ∈ w.log, e.caller ≠ c) ∧
    Holds w.mq (inQueue w.log) ∧
    (∀ c, w.live c = true → .quit c ∉ w.log → ∃! owner, Owns w c owner) ∧
    ∀ c owner, Owns w c owner → w.live c = true := by
  obtain ⟨hd, place, hp⟩ := reachable_placed h
  refine ⟨?_, ?_, hd.holds, ?_, ?_⟩
  · intro c error notify hsent hquit
    rw [← (hp.fits c).sent hsent, ← hp.tally c]
    show _ = _ + w.log.countP (Event.isQuit c)
    rw [(not_quit_iff w.log).mpr hquit]
    rfl
  · rintro c error (⟨notify, hsent⟩ | ⟨hrecv, herror⟩)
    · have hnone := (hp.fits c).sent hsent
      rw [← hp.tally c] at hnone
      have htakes := hp.takes c
      rw [hsent] at htakes
      exact not_caller (Nat.eq_zero_of_add_eq_zero hnone).1 htakes ((not_quit_iff w.log).mp (Nat.eq_zero_of_add_eq_zero hnone).2)
    have hborn : place c = .unborn := hp.unborn (by rw [hrecv]; rfl) (fun _ _ hs => by rw [hrecv] at hs; cases hs)
    have htally := hp.tally c
    rw [hborn] at htally
    have htakes := hp.takes c
    rw [hrecv, Phase.takes, if_neg herror] at htakes
    exact not_caller (congrArg Tally.puts htally) htakes ((not_quit_iff w.log).mp (congrArg Tally.quits htally))
  · intro c hlive hquit
    have htally := hp.tally c
    cases howner : (place c).owner with
    | none =>
      rcases owner_eq_none_iff.mp howner with hdead | hlost
      · rw [← htally] at hdead
        exact absurd (hlive.symm.trans hdead) (by decide)
      · rw [← htally] at hlost
        exact absurd (hlost.symm.trans ((not_quit_iff w.log).mpr hquit)) (by decide)
    | some owner =>
      refine ⟨owner, (owns_iff hp hd owner).mpr howner, ?_⟩
      intro owner' howner'
      rw [owns_iff hp hd, howner] at howner'
      exact (Option.some.inj howner').symm
  · intro c owner howns
    rw [owns_iff hp hd] at howns
    have hlive : (tally w c).live = true := by
      rw [hp.tally c]
      cases hpl : place c <;> rw [hpl] at howns <;> first | rfl | cases howns
    exact hlive

/-- A sender waits for room and gets it, and its message is received. -/
theorem sent_once_owned_once_waits : ∃ w, system.Reachable w ∧ w.log.countP (Event.isPut 1) = 1 ∧
    (∃! owner, Owns w 1 owner) ∧ Owns w 1 (.receiver 3) := by
  have hrun : (System.run (System.guarded (fun _ _ => True) next) (created ⟨false, false, false, 1, 100, 0⟩ ⟨64, 16384⟩)
      [.sendStart 0 3 [1] false, .sendEnter 0 true .left, .sendStart 1 40 [2] false, .sendEnter 1 true .left,
        .recvEnter 2 100 true .left, .sendWake 1 none .left, .recvEnter 3 100 true .left]).map
      (fun w => (w.log, w.phase 1, w.phase 3, w.live 1)) =
      some ([.take 3 ⟨1, 40, [2]⟩, .put ⟨1, 40, [2]⟩, .take 2 ⟨0, 3, [1]⟩, .put ⟨0, 3, [1]⟩], .sent none none,
        .holding ⟨1, 40, [2]⟩, true) := by decide
  obtain ⟨w, hw, hobs⟩ := Option.map_eq_some_iff.mp hrun
  simp only [Prod.mk.injEq] at hobs
  obtain ⟨hlog, hsent, hholding, hlive⟩ := hobs
  have hreach : system.Reachable w := System.reach_run _ _ _ _ _ ⟨_, _, rfl⟩ hw
  obtain ⟨hputs, -, -, hone, -⟩ := sent_once_owned_once hreach
  have hquit : .quit 1 ∉ w.log := by
    rw [hlog]
    decide
  exact ⟨w, hreach, hputs 1 none none hsent hquit, hone 1 hlive hquit, _, hholding, rfl⟩

/-- A sender that is woken by the removal of the queue answers 0 with its message neither in the queue nor freed; and a
receiver that cannot copy out answers an error with the message gone. -/
theorem sent_never_owned_never : (∃ w, system.Reachable w ∧ w.phase 1 = .sent none none ∧
      w.log.countP (Event.isPut 1) = 0 ∧ w.live 1 = true) ∧
    ∃ w, system.Reachable w ∧ w.phase 1 = .received (some .EFAULT) ∧ w.log = [.take 1 ⟨0, 3, [1]⟩, .put ⟨0, 3, [1]⟩] ∧
      w.live 0 = false := by
  have hreach : ∀ calls w, System.run (System.guarded (fun _ _ => True) next)
      (created ⟨false, false, false, 1, 100, 0⟩ ⟨64, 16384⟩) calls = some w → system.Reachable w :=
    fun calls w hw => System.reach_run _ _ _ _ calls ⟨_, _, rfl⟩ hw
  constructor
  · have hrun : (System.run (System.guarded (fun _ _ => True) next) (created ⟨false, false, false, 1, 100, 0⟩ ⟨64, 16384⟩)
        [.sendStart 0 3 [1] false, .sendEnter 0 true .left, .sendStart 1 3 [2] false, .sendEnter 1 true .left, .unlink true,
          .sendWake 1 none .left]).map (fun w => (w.phase 1, w.log.countP (Event.isPut 1), w.live 1)) =
        some (.sent none none, 0, true) := by decide
    obtain ⟨w, hw, hobs⟩ := Option.map_eq_some_iff.mp hrun
    simp only [Prod.mk.injEq] at hobs
    exact ⟨w, hreach _ w hw, hobs⟩
  have hrun : (System.run (System.guarded (fun _ _ => True) next) (created ⟨false, false, false, 1, 100, 0⟩ ⟨64, 16384⟩)
      [.sendStart 0 3 [1] false, .sendEnter 0 true .left, .recvEnter 1 100 true .left, .recvOut 1 true]).map
      (fun w => (w.phase 1, w.log, w.live 0)) =
      some (.received (some .EFAULT), [.take 1 ⟨0, 3, [1]⟩, .put ⟨0, 3, [1]⟩], false) := by decide
  obtain ⟨w, hw, hobs⟩ := Option.map_eq_some_iff.mp hrun
  simp only [Prod.mk.injEq] at hobs
  exact ⟨w, hreach _ w hw, hobs⟩

end NetBSD.Kern.SysMqueue
