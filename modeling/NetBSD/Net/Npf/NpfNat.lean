import NetBSD.Lib.System
import NetBSD.Lib.Words

/-! The translation ports of the packet filter.

The policies that share a port map take ports from it for their translation entries: a new entry takes any port that is
free, an imported one its own, and an entry that is destroyed gives its port back. The map is written by compare-and-swap
only, so that each read and each swap is a step of its own. An entry goes by the call that makes it. Ports are in host byte
order. -/
namespace NetBSD.Net.Npf.NpfNat
open Function Nat
open Lib

def PORTMAP_FIRST : Nat := 1024

def PORTMAP_SIZE : Nat := (65536 - PORTMAP_FIRST) / 32

def PORTMAP_FILLED : Word := ~~~0

inductive NatType where
  | natin
  | natout
  deriving DecidableEq

inductive Proto where
  | tcp
  | udp
  | other
  deriving DecidableEq

/-- A policy; `ports` and `portmap` are its flags. -/
structure Natpolicy where
  nType : NatType
  ports : Bool
  portmap : Bool
  nTport : BitVec 16

structure Cache where
  npcProto : Proto
  src : BitVec 128
  dst : BitVec 128
  sport : BitVec 16
  dport : BitVec 16

/-- An entry of the policy `np`; `proto` is what it was created for, and an imported one has none. -/
structure Entry where
  np : Nat
  proto : Option Proto
  ntOaddr : BitVec 128
  ntOport : BitVec 16
  ntTport : BitVec 16

/-- How far a call and its entry are. `scan` and `cas` are in the search for a port, `take` has read the word of its port,
and `put` and `putCas` are on the way to give the port back. -/
inductive Phase where
  | idle
  | scan (nt : Entry) (n idx : Nat)
  | cas (nt : Entry) (n idx : Nat) (map : Word)
  | take (nt : Entry) (map : Word)
  | fault
  | failed
  | live (nt : Entry)
  | put (nt : Entry)
  | putCas (nt : Entry) (map : Word)
  | gone

structure World where
  policy : Nat → Natpolicy
  bitmap : Nat → Word
  phase : Nat → Phase

def World.goto (w : World) (c : Nat) (p : Phase) : World := { w with phase := update w.phase c p }

/-- The place of a port in the map. -/
def slot (port : BitVec 16) : Nat := (port - BitVec.ofNat 16 PORTMAP_FIRST).toNat

def portIdx (port : BitVec 16) : Nat := slot port >>> 5

def portBit (port : BitVec 16) : Nat := slot port &&& 31

/-- Ports are translated for the protocols that have them. -/
def Natpolicy.translates (np : Natpolicy) (proto : Proto) : Prop := np.ports = true ∧ (proto = .tcp ∨ proto = .udp)

instance (np : Natpolicy) (proto : Proto) : Decidable (np.translates proto) :=
  inferInstanceAs (Decidable (np.ports = true ∧ (proto = .tcp ∨ proto = .udp)))

/-- `npf_nat_create` up to the search for a port. `space` says whether there is memory for an entry. -/
def npfNatCreate (w : World) (c np : Nat) (npc : Cache) (space : Bool) (random : Nat) : World :=
  if space = false then w.goto c .failed
  else
    let pol := w.policy np
    let oaddr := if pol.nType = .natout then npc.src else npc.dst
    if ¬pol.translates npc.npcProto then w.goto c (.live ⟨np, some npc.npcProto, oaddr, 0, 0⟩)
    else
      let oport := if pol.nType = .natout then npc.sport else npc.dport
      if pol.portmap then w.goto c (.scan ⟨np, some npc.npcProto, oaddr, oport, 0⟩ PORTMAP_SIZE (random % PORTMAP_SIZE))
      else w.goto c (.live ⟨np, some npc.npcProto, oaddr, oport, pol.nTport⟩)

/-- A round of `npf_nat_getport`: the word is read. With no space left the port is 0. -/
def getportRead (w : World) (c : Nat) (nt : Entry) (n idx : Nat) : World :=
  if w.bitmap idx = PORTMAP_FILLED then
    if n = 0 then w.goto c (.live { nt with ntTport := 0 })
    else w.goto c (.scan nt (n - 1) ((if idx ≠ 0 then idx else PORTMAP_SIZE) - 1))
  else w.goto c (.cas nt n idx (w.bitmap idx))

def getportCas (w : World) (c : Nat) (nt : Entry) (n idx : Nat) (map : Word) : World :=
  let bit := ffs (~~~map) - 1
  if w.bitmap idx = map then
    { w with bitmap := update w.bitmap idx (map ||| 1#32 <<< bit) }.goto c
      (.live { nt with ntTport := BitVec.ofNat 16 (PORTMAP_FIRST + idx <<< 5 + bit) })
  else w.goto c (.scan nt n idx)

/-- `npf_nat_import` up to the swap of `npf_nat_takeport`. `valid` says whether there is such a policy and the address is
one. A word outside the map is not to be read. -/
def npfNatImport (w : World) (c np : Nat) (oaddr : BitVec 128) (oport tport : BitVec 16) (valid : Bool) : World :=
  let nt : Entry := ⟨np, none, oaddr, oport, tport⟩
  if valid = false then w.goto c .failed
  else if (w.policy np).portmap = true ∧ tport ≠ 0 then
    if portIdx tport ≥ PORTMAP_SIZE then w.goto c .fault
    else
      let map := w.bitmap (portIdx tport)
      if map = map ||| 1#32 <<< portBit tport then w.goto c .failed else w.goto c (.take nt map)
  else w.goto c (.live nt)

def takeportCas (w : World) (c : Nat) (nt : Entry) (map : Word) : World :=
  if w.bitmap (portIdx nt.ntTport) = map then
    { w with bitmap := update w.bitmap (portIdx nt.ntTport) (map ||| 1#32 <<< portBit nt.ntTport) }.goto c (.live nt)
  else w.goto c .failed

def npfNatDestroy (w : World) (c : Nat) (nt : Entry) : World :=
  if (w.policy nt.np).portmap = true ∧ nt.ntTport ≠ 0 then w.goto c (.put nt) else w.goto c .gone

def putportCas (w : World) (c : Nat) (nt : Entry) (map : Word) : World :=
  if w.bitmap (portIdx nt.ntTport) = map then
    { w with bitmap := update w.bitmap (portIdx nt.ntTport) (map &&& ~~~(1#32 <<< portBit nt.ntTport)) }.goto c .gone
  else w.goto c (.put nt)

/-- A call begins, goes on by a step, or destroys its entry. -/
inductive Label where
  | create (c np : Nat) (npc : Cache) (space : Bool) (random : Nat)
  | import_ (c np : Nat) (oaddr : BitVec 128) (oport tport : BitVec 16) (valid : Bool)
  | go (c : Nat)
  | destroy (c : Nat)

def next (w : World) : Label → Option World
  | .create c np npc space random =>
    match w.phase c with
    | .idle => some (npfNatCreate w c np npc space random)
    | _ => none
  | .import_ c np oaddr oport tport valid =>
    match w.phase c with
    | .idle => some (npfNatImport w c np oaddr oport tport valid)
    | _ => none
  | .go c =>
    match w.phase c with
    | .scan nt n idx => some (getportRead w c nt n idx)
    | .cas nt n idx map => some (getportCas w c nt n idx map)
    | .take nt map => some (takeportCas w c nt map)
    | .put nt => some (w.goto c (.putCas nt (w.bitmap (portIdx nt.ntTport))))
    | .putCas nt map => some (putportCas w c nt map)
    | _ => none
  | .destroy c =>
    match w.phase c with
    | .live nt => some (npfNatDestroy w c nt)
    | _ => none

def init (w : World) : Prop := w.bitmap = (fun _ => 0) ∧ w.phase = fun _ => .idle

def system : System World Label := .ofStep init next

/-- The entry of a call, from when it is made to when it has given its port back. -/
def Phase.entry : Phase → Option Entry
  | .live nt => some nt
  | .put nt => some nt
  | .putCas nt _ => some nt
  | _ => none

/-- The entry has its port from the map. -/
def Maps (policy : Nat → Natpolicy) (nt : Entry) : Prop := (policy nt.np).portmap = true ∧ nt.ntTport ≠ 0

/-- The phase has an entry with the port of the place. -/
def Phase.Uses (policy : Nat → Natpolicy) (p : Phase) (n : Nat) : Prop :=
  ∃ nt, p.entry = some nt ∧ Maps policy nt ∧ slot nt.ntTport = n

/-- The search is over, and the word is full. -/
def Phase.givesUp (bitmap : Nat → Word) : Phase → Bool
  | .scan _ n idx => n = 0 && bitmap idx = PORTMAP_FILLED
  | _ => false

/-- The search does not give up, and no port below the first is imported. -/
def Sound (w : World) : Label → Prop
  | .import_ _ np _ _ tport _ => (w.policy np).portmap = true → tport = 0 ∨ PORTMAP_FIRST ≤ tport.toNat
  | .go c => (w.phase c).givesUp w.bitmap = false
  | _ => True

instance (w : World) (a : Label) : Decidable (Sound w a) :=
  match a with
  | .import_ _ np _ _ tport _ =>
    inferInstanceAs (Decidable ((w.policy np).portmap = true → tport = 0 ∨ PORTMAP_FIRST ≤ tport.toNat))
  | .go c => inferInstanceAs (Decidable ((w.phase c).givesUp w.bitmap = false))
  | .create .. => inferInstanceAs (Decidable True)
  | .destroy _ => inferInstanceAs (Decidable True)

/-! ### What a phase knows -/

/-- What is known in a phase: a search is within the map and the entry wants a port; what was read was not full; a port to
be taken is in the map and was free; a port from the map is in the map; and an entry whose ports are mapped has one. -/
def Phase.Ok (policy : Nat → Natpolicy) : Phase → Prop
  | .scan nt _ idx => idx < PORTMAP_SIZE ∧ (policy nt.np).portmap = true
  | .cas nt _ idx map => idx < PORTMAP_SIZE ∧ (policy nt.np).portmap = true ∧ map ≠ PORTMAP_FILLED
  | .take nt map => nt.proto = none ∧ Maps policy nt ∧ portIdx nt.ntTport < PORTMAP_SIZE ∧ map.getLsbD (portBit nt.ntTport) = false
  | .fault => False
  | .live nt => (Maps policy nt → portIdx nt.ntTport < PORTMAP_SIZE) ∧
      ∀ proto, nt.proto = some proto → (policy nt.np).translates proto → (policy nt.np).portmap = true → nt.ntTport ≠ 0
  | .put nt => Maps policy nt ∧ portIdx nt.ntTport < PORTMAP_SIZE
  | .putCas nt _ => Maps policy nt ∧ portIdx nt.ntTport < PORTMAP_SIZE
  | _ => True

structure Inv (w : World) : Prop where
  ok : ∀ c, (w.phase c).Ok w.policy
  bits : ∀ n < 32 * PORTMAP_SIZE, mapBit w.bitmap n = true ↔ ∃ c, (w.phase c).Uses w.policy n
  unique : ∀ c c' n, (w.phase c).Uses w.policy n → (w.phase c').Uses w.policy n → c = c'

theorem portIdx_eq (port : BitVec 16) : portIdx port = slot port / 32 := shiftRight_eq_div_pow _ _

theorem portBit_eq (port : BitVec 16) : portBit port = slot port % 32 := and_two_pow_sub_one_eq_mod _ 5

theorem portIdx_lt_iff (port : BitVec 16) : portIdx port < PORTMAP_SIZE ↔ slot port < 32 * PORTMAP_SIZE := by
  rw [portIdx_eq]
  omega

theorem portIdx_lt {port : BitVec 16} (h : PORTMAP_FIRST ≤ port.toNat) : portIdx port < PORTMAP_SIZE := by
  rw [portIdx_lt_iff, slot, BitVec.toNat_sub, BitVec.toNat_ofNat]
  simp only [PORTMAP_FIRST, PORTMAP_SIZE] at h ⊢
  omega

theorem slot_ofNat {idx bit : Nat} (hidx : idx < PORTMAP_SIZE) (hbit : bit < 32) :
    slot (BitVec.ofNat 16 (PORTMAP_FIRST + idx <<< 5 + bit)) = idx * 32 + bit ∧ BitVec.ofNat 16 (PORTMAP_FIRST + idx <<< 5 + bit) ≠ 0 := by
  simp only [PORTMAP_SIZE, PORTMAP_FIRST] at hidx ⊢
  constructor
  · rw [slot, BitVec.toNat_sub, BitVec.toNat_ofNat, BitVec.toNat_ofNat]
    simp only [PORTMAP_FIRST]
    omega
  intro h0
  have htoNat := congrArg BitVec.toNat h0
  rw [BitVec.toNat_ofNat] at htoNat
  change _ = 0 at htoNat
  omega

theorem free_bit {map : Word} (h : map ≠ PORTMAP_FILLED) : ffs (~~~map) - 1 < 32 ∧ map.getLsbD (ffs (~~~map) - 1) = false := by
  have hne : ~~~map ≠ 0 := by
    intro h0
    apply h
    rw [PORTMAP_FILLED, ← h0, BitVec.not_not]
  obtain ⟨k, hk, hffs, hbit, -⟩ := ffs_of_ne_zero hne
  rw [hffs]
  rw [BitVec.getLsbD_not, decide_eq_true hk, Bool.true_and, Bool.not_eq_true'] at hbit
  exact ⟨hk, hbit⟩

theorem taken_bit {port : BitVec 16} {map : Word} (h : map ≠ map ||| 1#32 <<< portBit port) : map.getLsbD (portBit port) = false := by
  by_contra hbit
  rw [Bool.not_eq_false] at hbit
  apply h
  apply BitVec.eq_of_getLsbD_eq
  intro i hi
  have hlt : portBit port < 32 := by rw [portBit_eq]; exact mod_lt _ (by decide)
  rw [BitVec.getLsbD_or, getLsbD_one_shiftLeft hlt]
  by_cases hib : i = portBit port
  · subst hib
    rw [hbit]
    rfl
  · rw [decide_eq_false hib, Bool.or_false]

/-! ### What a step keeps -/

variable {w : World} {c : Nat} {p : Phase}

theorem phase_goto (b : Nat → Word) (c' : Nat) : (({ w with bitmap := b }.goto c p).phase c') = if c' = c then p else w.phase c' := by
  rw [World.goto]
  dsimp only
  split
  · next hc => rw [hc, update_self]
  · next hc => rw [update_of_ne hc]

theorem Inv.goto (h : Inv w) {b : Nat → Word} (hok : p.Ok w.policy)
    (hbits : ∀ n < 32 * PORTMAP_SIZE, mapBit b n = true ↔ p.Uses w.policy n ∨ ∃ c', c' ≠ c ∧ (w.phase c').Uses w.policy n)
    (hfresh : ∀ n c', p.Uses w.policy n → c' ≠ c → ¬(w.phase c').Uses w.policy n) : Inv ({ w with bitmap := b }.goto c p) := by
  constructor
  · intro c'
    rw [phase_goto]
    split
    · exact hok
    · exact h.ok c'
  · intro n hn
    show mapBit b n = true ↔ _
    rw [hbits n hn]
    constructor
    · rintro (huse | ⟨c', hc, huse⟩)
      · exact ⟨c, by rw [phase_goto, if_pos rfl]; exact huse⟩
      · exact ⟨c', by rw [phase_goto, if_neg hc]; exact huse⟩
    rintro ⟨c', huse⟩
    rw [phase_goto] at huse
    split at huse
    · exact .inl huse
    · next hc => exact .inr ⟨c', hc, huse⟩
  · intro c₁ c₂ n h₁ h₂
    rw [phase_goto] at h₁ h₂
    split at h₁
    · next hc₁ =>
      split at h₂
      · next hc₂ => rw [hc₁, hc₂]
      · next hc₂ => exact absurd h₂ (hfresh n c₂ h₁ hc₂)
    · next hc₁ =>
      split at h₂
      · exact absurd h₁ (hfresh n c₁ h₂ hc₁)
      · exact h.unique c₁ c₂ n h₁ h₂

theorem Inv.bits_apart (h : Inv w) (c : Nat) {n : Nat} (hn : n < 32 * PORTMAP_SIZE) : mapBit w.bitmap n = true ↔
    (w.phase c).Uses w.policy n ∨ ∃ c', c' ≠ c ∧ (w.phase c').Uses w.policy n := by
  rw [h.bits n hn]
  constructor
  · rintro ⟨c', huse⟩
    by_cases hc : c' = c
    · exact .inl (hc ▸ huse)
    · exact .inr ⟨c', hc, huse⟩
  · rintro (huse | ⟨c', -, huse⟩)
    · exact ⟨c, huse⟩
    · exact ⟨c', huse⟩

theorem Inv.keep (h : Inv w) (hok : p.Ok w.policy) (huse : ∀ n, p.Uses w.policy n ↔ (w.phase c).Uses w.policy n) : Inv (w.goto c p) := by
  apply h.goto (b := w.bitmap) hok
  · intro n hn
    rw [h.bits_apart c hn, huse]
  · intro n c' hp hc huse'
    exact hc (h.unique c' c n huse' ((huse n).mp hp))

theorem Inv.set (h : Inv w) {m : Nat} (hm : m < 32 * PORTMAP_SIZE) (hok : p.Ok w.policy) (hold : ∀ n, ¬(w.phase c).Uses w.policy n)
    (huse : ∀ n, p.Uses w.policy n ↔ n = m) (hfree : mapBit w.bitmap m = false) :
    Inv ({ w with bitmap := update w.bitmap (m / 32) (w.bitmap (m / 32) ||| 1#32 <<< (m % 32)) }.goto c p) := by
  apply h.goto hok
  · intro n hn
    rw [mapBit_or, Bool.or_eq_true, decide_eq_true_eq, h.bits_apart c hn, huse, or_iff_right (hold n), or_comm]
  intro n c' hp _ huse'
  rw [huse] at hp
  subst hp
  rw [(h.bits n hm).mpr ⟨c', huse'⟩] at hfree
  cases hfree

theorem Inv.clear (h : Inv w) {m : Nat} (hok : p.Ok w.policy) (hold : ∀ n, (w.phase c).Uses w.policy n ↔ n = m)
    (huse : ∀ n, ¬p.Uses w.policy n) :
    Inv ({ w with bitmap := update w.bitmap (m / 32) (w.bitmap (m / 32) &&& ~~~(1#32 <<< (m % 32))) }.goto c p) := by
  apply h.goto hok
  · intro n hn
    rw [mapBit_andNot, Bool.and_eq_true, Bool.not_eq_true', decide_eq_false_iff_not, h.bits_apart c hn, or_iff_right (huse n), hold]
    constructor
    · rintro ⟨rfl | hothers, hne⟩
      · exact absurd rfl hne
      · exact hothers
    rintro ⟨c', hc, huse'⟩
    refine ⟨.inr ⟨c', hc, huse'⟩, ?_⟩
    intro hn
    exact hc (h.unique c' c n huse' ((hold n).mpr hn))
  · exact fun n c' hp => absurd hp (huse n)

section
variable {policy : Nat → Natpolicy}

theorem not_uses (h : p.entry = none) (n : Nat) : ¬p.Uses policy n := by
  rintro ⟨nt, hnt, -⟩
  rw [h] at hnt
  cases hnt

theorem uses_iff {nt : Entry} (h : p.entry = some nt) (hmaps : Maps policy nt) (n : Nat) : p.Uses policy n ↔ n = slot nt.ntTport := by
  constructor
  · rintro ⟨nt', hnt', -, rfl⟩
    rw [h] at hnt'
    cases hnt'
    rfl
  · rintro rfl
    exact ⟨nt, h, hmaps, rfl⟩

theorem not_uses_of_not_maps {nt : Entry} (h : p.entry = some nt) (hmaps : ¬Maps policy nt) (n : Nat) : ¬p.Uses policy n := by
  rintro ⟨nt', hnt', hmaps', -⟩
  rw [h] at hnt'
  cases hnt'
  exact hmaps hmaps'

end

theorem Inv.keep_none (h : Inv w) (hok : p.Ok w.policy) (hold : (w.phase c).entry = none) (hp : ∀ n, ¬p.Uses w.policy n) :
    Inv (w.goto c p) := h.keep hok fun n => iff_of_false (hp n) (not_uses hold n)

/-! ### The steps -/

section
variable (h : Inv w)
include h

theorem create_inv (hidle : w.phase c = .idle) (np : Nat) (npc : Cache) (space : Bool) (random : Nat) :
    Inv (npfNatCreate w c np npc space random) := by
  have hold : (w.phase c).entry = none := by rw [hidle]; rfl
  rw [npfNatCreate]
  dsimp only
  split
  · exact h.keep_none trivial hold (not_uses rfl)
  split
  · next htrans =>
    have hmaps : ∀ oaddr, ¬Maps w.policy ⟨np, some npc.npcProto, oaddr, 0, 0⟩ := fun _ hm => hm.2 rfl
    refine h.keep_none ⟨fun hm => absurd hm (hmaps _), ?_⟩ hold (not_uses_of_not_maps rfl (hmaps _))
    rintro proto hproto ht
    cases hproto
    exact absurd ht htrans
  split
  · next hmap =>
    exact h.keep_none ⟨mod_lt _ (by decide), hmap⟩ hold (not_uses rfl)
  · next hmap =>
    have hmaps : ∀ oaddr oport tport, ¬Maps w.policy ⟨np, some npc.npcProto, oaddr, oport, tport⟩ := fun _ _ _ hm => hmap hm.1
    refine h.keep_none ⟨fun hm => absurd hm (hmaps _ _ _), ?_⟩ hold (not_uses_of_not_maps rfl (hmaps _ _ _))
    exact fun _ _ _ hm => absurd hm hmap

theorem getportRead_inv {nt : Entry} {n idx : Nat} (hscan : w.phase c = .scan nt n idx)
    (hsound : n = 0 → w.bitmap idx ≠ PORTMAP_FILLED) : Inv (getportRead w c nt n idx) := by
  have hold : (w.phase c).entry = none := by rw [hscan]; rfl
  have hok := h.ok c
  rw [hscan] at hok
  obtain ⟨hidx, hmap⟩ := hok
  rw [getportRead]
  split
  · next hfull =>
    rw [if_neg fun hn => hsound hn hfull]
    refine h.keep_none ⟨?_, hmap⟩ hold (not_uses rfl)
    split
    · omega
    · decide
  · next hfree => exact h.keep_none ⟨hidx, hmap, hfree⟩ hold (not_uses rfl)

theorem getportCas_inv {nt : Entry} {n idx : Nat} {map : Word} (hcas : w.phase c = .cas nt n idx map) : Inv (getportCas w c nt n idx map) := by
  have hold : (w.phase c).entry = none := by rw [hcas]; rfl
  have hok := h.ok c
  rw [hcas] at hok
  obtain ⟨hidx, hmap, hfree⟩ := hok
  rw [getportCas]
  split
  · next heq =>
    obtain ⟨hbit, hclear⟩ := free_bit hfree
    obtain ⟨hslot, hne⟩ := slot_ofNat hidx hbit
    have hdiv : (idx * 32 + (ffs (~~~map) - 1)) / 32 = idx := by omega
    have hmod : (idx * 32 + (ffs (~~~map) - 1)) % 32 = ffs (~~~map) - 1 := by omega
    have hset := h.set (m := idx * 32 + (ffs (~~~map) - 1)) (p := .live { nt with ntTport := BitVec.ofNat 16 _ })
      (by omega) ⟨fun _ => ?_, fun _ _ _ _ => hne⟩ (not_uses hold) (fun k => ?_) ?_
    · rw [hdiv, hmod, heq] at hset
      exact hset
    · rw [portIdx_eq]
      rw [hslot, hdiv]
      exact hidx
    · rw [uses_iff (p := .live { nt with ntTport := BitVec.ofNat 16 _ }) rfl ⟨hmap, hne⟩]
      rw [hslot]
    · rw [mapBit_word idx hbit, heq]
      exact hclear
  · exact h.keep_none ⟨hidx, hmap⟩ hold (not_uses rfl)

theorem import_inv (hidle : w.phase c = .idle) (np : Nat) (oaddr : BitVec 128) (oport tport : BitVec 16) (valid : Bool)
    (hsound : (w.policy np).portmap = true → tport = 0 ∨ PORTMAP_FIRST ≤ tport.toNat) :
    Inv (npfNatImport w c np oaddr oport tport valid) := by
  have hold : (w.phase c).entry = none := by rw [hidle]; rfl
  rw [npfNatImport]
  dsimp only
  split
  · exact h.keep_none trivial hold (not_uses rfl)
  split
  · next hmaps =>
    have hidx : portIdx tport < PORTMAP_SIZE := portIdx_lt ((hsound hmaps.1).resolve_left hmaps.2)
    rw [if_neg (Nat.not_le.mpr hidx)]
    split
    · exact h.keep_none trivial hold (not_uses rfl)
    · next hfree =>
      exact h.keep_none ⟨rfl, hmaps, hidx, taken_bit hfree⟩ hold (not_uses rfl)
  · next hmaps =>
    exact h.keep_none ⟨fun hm => absurd hm hmaps, fun _ hproto => by cases hproto⟩ hold (not_uses_of_not_maps rfl hmaps)

theorem takeportCas_inv {nt : Entry} {map : Word} (htake : w.phase c = .take nt map) : Inv (takeportCas w c nt map) := by
  have hold : (w.phase c).entry = none := by rw [htake]; rfl
  have hok := h.ok c
  rw [htake] at hok
  obtain ⟨hproto, hmaps, hidx, hclear⟩ := hok
  rw [takeportCas]
  split
  · next heq =>
    have hset := h.set (m := slot nt.ntTport) (p := .live nt) ((portIdx_lt_iff _).mp hidx)
      ⟨fun _ => hidx, fun _ hsome => by rw [hproto] at hsome; cases hsome⟩ (not_uses hold) (uses_iff rfl hmaps) ?_
    · rw [← portIdx_eq, ← portBit_eq, heq] at hset
      exact hset
    · rw [mapBit, ← portIdx_eq, ← portBit_eq, heq]
      exact hclear
  · exact h.keep_none trivial hold (not_uses rfl)

theorem destroy_inv {nt : Entry} (hlive : w.phase c = .live nt) : Inv (npfNatDestroy w c nt) := by
  have hok := h.ok c
  rw [hlive] at hok
  rw [npfNatDestroy]
  split
  · next hmaps =>
    refine h.keep ⟨hmaps, hok.1 hmaps⟩ fun n => ?_
    rw [hlive, uses_iff rfl hmaps, uses_iff rfl hmaps]
  · next hmaps =>
    refine h.keep trivial fun n => iff_of_false (not_uses rfl n) ?_
    rw [hlive]
    exact not_uses_of_not_maps rfl hmaps n

theorem putportRead_inv {nt : Entry} (hput : w.phase c = .put nt) (map : Word) : Inv (w.goto c (.putCas nt map)) := by
  have hok := h.ok c
  rw [hput] at hok
  refine h.keep hok fun n => ?_
  rw [hput, uses_iff rfl hok.1, uses_iff rfl hok.1]

theorem putportCas_inv {nt : Entry} {map : Word} (hput : w.phase c = .putCas nt map) : Inv (putportCas w c nt map) := by
  have hok := h.ok c
  rw [hput] at hok
  have huse : ∀ n, (w.phase c).Uses w.policy n ↔ n = slot nt.ntTport := by
    rw [hput]
    exact uses_iff rfl hok.1
  rw [putportCas]
  split
  · next heq =>
    have hclear := h.clear (p := .gone) trivial huse (not_uses rfl)
    rw [← portIdx_eq, ← portBit_eq, heq] at hclear
    exact hclear
  · refine h.keep hok fun n => ?_
    rw [huse, uses_iff rfl hok.1]

theorem Inv.next {a : Label} (hsound : Sound w a) {w' : World} (hstep : next w a = some w') : Inv w' := by
  cases a with
  | create c np npc space random =>
    cases hp : w.phase c <;> simp only [NpfNat.next, hp, Option.some.injEq, reduceCtorEq] at hstep
    subst hstep
    exact create_inv h hp np npc space random
  | import_ c np oaddr oport tport valid =>
    cases hp : w.phase c <;> simp only [NpfNat.next, hp, Option.some.injEq, reduceCtorEq] at hstep
    subst hstep
    exact import_inv h hp np oaddr oport tport valid hsound
  | go c =>
    cases hp : w.phase c <;> simp only [NpfNat.next, hp, Option.some.injEq, reduceCtorEq] at hstep <;> subst hstep
    case scan nt n idx =>
      apply getportRead_inv h hp
      intro hn hfull
      rw [Sound, hp, Phase.givesUp, decide_eq_true hn, decide_eq_true hfull] at hsound
      cases hsound
    case cas nt n idx map => exact getportCas_inv h hp
    case take nt map => exact takeportCas_inv h hp
    case put nt => exact putportRead_inv h hp _
    case putCas nt map => exact putportCas_inv h hp
  | destroy c =>
    cases hp : w.phase c <;> simp only [NpfNat.next, hp, Option.some.injEq, reduceCtorEq] at hstep
    subst hstep
    exact destroy_inv h hp

end

theorem reach_inv (h : system.Reach Sound w) : Inv w := by
  apply h.invariant
  · rintro w ⟨hbitmap, hphase⟩
    refine ⟨fun c => by rw [hphase]; trivial, ?_, ?_⟩
    · intro n _
      rw [hbitmap]
      refine iff_of_false (by simp [mapBit]) ?_
      rintro ⟨c, huse⟩
      rw [hphase] at huse
      exact not_uses rfl n huse
    · intro c c' n huse
      rw [hphase] at huse
      exact absurd huse (not_uses rfl n)
  · exact fun w a w' hinv hsound hstep => hinv.next hsound hstep

/-- The set bits of the map are the ports of the entries, no two entries have one port, an entry whose ports are mapped has
one, and no word outside the map is read. -/
theorem ports_owned (h : system.Reach Sound w) : (∀ n < 32 * PORTMAP_SIZE, mapBit w.bitmap n = true ↔
      ∃ c nt, (w.phase c).entry = some nt ∧ Maps w.policy nt ∧ slot nt.ntTport = n) ∧
    (∀ c nt, (w.phase c).entry = some nt → Maps w.policy nt → slot nt.ntTport < 32 * PORTMAP_SIZE) ∧
    (∀ c c' nt nt', (w.phase c).entry = some nt → (w.phase c').entry = some nt' → Maps w.policy nt → Maps w.policy nt' →
      c ≠ c' → nt.ntTport ≠ nt'.ntTport) ∧
    (∀ c nt proto, (w.phase c).entry = some nt → nt.proto = some proto → (w.policy nt.np).translates proto →
      (w.policy nt.np).portmap = true → nt.ntTport ≠ 0) ∧
    ∀ c, w.phase c ≠ .fault := by
  have hinv := reach_inv h
  refine ⟨hinv.bits, ?_, ?_, ?_, ?_⟩
  · intro c nt hnt hmaps
    rw [← portIdx_lt_iff]
    have hok := hinv.ok c
    cases hp : w.phase c <;> rw [hp] at hnt hok <;> cases hnt
    · exact hok.1 hmaps
    · exact hok.2
    · exact hok.2
  · rintro c c' nt nt' hnt hnt' hmaps hmaps' hne heq
    exact hne (hinv.unique c c' (slot nt.ntTport) ⟨nt, hnt, hmaps, rfl⟩ ⟨nt', hnt', hmaps', by rw [heq]⟩)
  · intro c nt proto hnt hproto htrans hmap
    have hok := hinv.ok c
    cases hp : w.phase c <;> rw [hp] at hnt hok <;> cases hnt
    · exact hok.2 proto hproto htrans hmap
    · exact hok.1.2
    · exact hok.1.2
  · intro c hfault
    have hok := hinv.ok c
    rw [hfault] at hok
    exact hok

def mapping : Natpolicy := ⟨.natout, true, true, 0⟩

theorem import_free {port : BitVec 16} (hidle : w.phase c = .idle) (hmaps : Maps w.policy ⟨0, none, 0, 0, port⟩)
    (hidx : portIdx port < PORTMAP_SIZE) (hfree : mapBit w.bitmap (slot port) = false) (h : system.Reachable w) :
    system.Reachable ({ w with
      bitmap := update w.bitmap (slot port / 32) (w.bitmap (slot port / 32) ||| 1#32 <<< (slot port % 32)) }.goto c
        (.live ⟨0, none, 0, 0, port⟩)) := by
  rw [mapBit, ← portIdx_eq, ← portBit_eq] at hfree
  have hset : w.bitmap (portIdx port) ≠ w.bitmap (portIdx port) ||| 1#32 <<< portBit port := by
    intro heq
    have hbit := congrArg (fun word => word.getLsbD (portBit port)) heq
    rw [BitVec.getLsbD_or, hfree, getLsbD_one_shiftLeft (by rw [portBit_eq]; exact mod_lt _ (by decide)), decide_eq_true rfl] at hbit
    cases hbit
  have himport : npfNatImport w c 0 0 0 port true = w.goto c (.take ⟨0, none, 0, 0, port⟩ (w.bitmap (portIdx port))) := by
    have hmaps : (w.policy 0).portmap = true ∧ port ≠ 0 := hmaps
    rw [npfNatImport]
    rw [if_neg (by decide), if_pos hmaps, if_neg (Nat.not_le.mpr hidx), if_neg hset]
  have hstart : NpfNat.next w (.import_ c 0 0 0 port true) = some (npfNatImport w c 0 0 0 port true) := by
    simp [NpfNat.next, hidle]
  have hgo : NpfNat.next (npfNatImport w c 0 0 0 port true) (.go c) =
      some (takeportCas (npfNatImport w c 0 0 0 port true) c ⟨0, none, 0, 0, port⟩ (w.bitmap (portIdx port))) := by
    rw [himport]
    simp [NpfNat.next, World.goto, update_self]
  have hend : takeportCas (npfNatImport w c 0 0 0 port true) c ⟨0, none, 0, 0, port⟩ (w.bitmap (portIdx port)) = { w with
      bitmap := update w.bitmap (slot port / 32) (w.bitmap (slot port / 32) ||| 1#32 <<< (slot port % 32)) }.goto c
        (.live ⟨0, none, 0, 0, port⟩) := by
    rw [himport, takeportCas]
    rw [← portIdx_eq, ← portBit_eq]
    simp [World.goto, update_idem]
  rw [← hend]
  exact .step (.step h trivial hstart) trivial hgo

theorem fill_map (k : Nat) : k ≤ 32 * PORTMAP_SIZE → ∃ w, system.Reachable w ∧ w.policy = (fun _ => mapping) ∧
    (∀ n, mapBit w.bitmap n = decide (n < k)) ∧ ∀ c, k ≤ c → w.phase c = .idle := by
  induction k with
  | zero =>
    exact fun _ => ⟨⟨fun _ => mapping, fun _ => 0, fun _ => .idle⟩, .init ⟨rfl, rfl⟩, rfl, fun n => by simp [mapBit], fun _ _ => rfl⟩
  | succ k ih =>
    intro hk
    obtain ⟨w, hreach, hpolicy, hbits, hidle⟩ := ih (by omega)
    obtain ⟨hslot, hne⟩ := slot_ofNat (show k / 32 < PORTMAP_SIZE by omega) (mod_lt k (by decide))
    have hslot : slot (BitVec.ofNat 16 (PORTMAP_FIRST + (k / 32) <<< 5 + k % 32)) = k := by omega
    have hnext := @import_free _ _ (BitVec.ofNat 16 (PORTMAP_FIRST + (k / 32) <<< 5 + k % 32)) (hidle k (le_refl k))
      ⟨by rw [hpolicy]; rfl, hne⟩ (by rw [portIdx_lt_iff]; omega) (by rw [hslot, hbits, decide_eq_false (lt_irrefl k)]) hreach
    refine ⟨_, hnext, hpolicy, ?_, ?_⟩
    · intro n
      rw [hslot]
      refine (mapBit_or k).trans ?_
      rw [hbits, ← Bool.decide_or]
      exact decide_eq_decide.mpr (by omega)
    · intro c hc
      rw [phase_goto, if_neg (by omega), hidle c (by omega)]

theorem scan_full {nt : Entry} (n : Nat) : ∀ (w : World) (idx : Nat), (∀ i < PORTMAP_SIZE, w.bitmap i = PORTMAP_FILLED) →
    idx < PORTMAP_SIZE → w.phase c = .scan nt n idx → system.Reachable w →
    ∃ w', system.Reachable w' ∧ w'.policy = w.policy ∧ w'.phase c = .live { nt with ntTport := 0 } := by
  induction n with
  | zero =>
    intro w idx hfull hidx hscan hreach
    have hgo : NpfNat.next w (.go c) = some (w.goto c (.live { nt with ntTport := 0 })) := by
      simp [NpfNat.next, hscan, getportRead, hfull idx hidx, if_true]
    exact ⟨_, .step hreach trivial hgo, rfl, update_self _ _ _⟩
  | succ n ih =>
    intro w idx hfull hidx hscan hreach
    have hgo : NpfNat.next w (.go c) = some (w.goto c (.scan nt n ((if idx ≠ 0 then idx else PORTMAP_SIZE) - 1))) := by
      simp [NpfNat.next, hscan, getportRead, hfull idx hidx, if_true, succ_ne_zero, if_false, Nat.add_sub_cancel]
    refine ih (w.goto c (.scan nt n ((if idx ≠ 0 then idx else PORTMAP_SIZE) - 1))) ((if idx ≠ 0 then idx else PORTMAP_SIZE) - 1) hfull ?_ (update_self _ _ _) (.step hreach trivial hgo)
    split
    · omega
    · decide

/-- With all ports taken, a new entry for which ports are translated has port 0; and a port below the first is looked for
outside the map. -/
theorem ports_run_out : (∃ w c nt, system.Reachable w ∧ (w.phase c).entry = some nt ∧ nt.proto = some .tcp ∧
      (w.policy nt.np).translates .tcp ∧ (w.policy nt.np).portmap = true ∧ nt.ntTport = 0) ∧
    ∃ w c, system.Reachable w ∧ w.phase c = .fault := by
  constructor
  · obtain ⟨w, hreach, hpolicy, hbits, hidle⟩ := fill_map (32 * PORTMAP_SIZE) (le_refl _)
    have hfull : ∀ i < PORTMAP_SIZE, w.bitmap i = PORTMAP_FILLED := by
      intro i hi
      apply BitVec.eq_of_getLsbD_eq
      intro j hj
      rw [← mapBit_word i hj, hbits, decide_eq_true (by omega), PORTMAP_FILLED, BitVec.getLsbD_not, decide_eq_true hj]
      simp
    have hstart : NpfNat.next w (.create (32 * PORTMAP_SIZE) 0 ⟨.tcp, 1, 2, 3, 4⟩ true 0) =
        some (w.goto (32 * PORTMAP_SIZE) (.scan ⟨0, some .tcp, 1, 3, 0⟩ PORTMAP_SIZE 0)) := by
      simp only [NpfNat.next, hidle _ (le_refl _), npfNatCreate, hpolicy]
      rfl
    obtain ⟨w', hreach', hpolicy', hlive⟩ := scan_full PORTMAP_SIZE
      (w.goto (32 * PORTMAP_SIZE) (.scan ⟨0, some .tcp, 1, 3, 0⟩ PORTMAP_SIZE 0)) 0 hfull (by decide) (update_self _ _ _)
      (.step hreach trivial hstart)
    refine ⟨w', 32 * PORTMAP_SIZE, ⟨0, some .tcp, 1, 3, 0⟩, hreach', by rw [hlive]; rfl, rfl, ?_, ?_, rfl⟩
    · rw [hpolicy']
      show (w.policy 0).translates .tcp
      rw [hpolicy]
      exact ⟨rfl, .inl rfl⟩
    rw [hpolicy']
    show (w.policy 0).portmap = true
    rw [hpolicy]
    rfl
  · let w : World := ⟨fun _ => mapping, fun _ => 0, fun _ => .idle⟩
    exact ⟨w.goto 0 .fault, 0, .step (s := w) (a := .import_ 0 0 0 0 80 true) (.init ⟨rfl, rfl⟩) trivial rfl, rfl⟩

/-- Two calls look at one word; the first takes its port, and the other one starts again. -/
theorem ports_owned_race : ∃ w, system.Reach Sound w ∧ ((w.phase 0).entry.map (·.ntTport), (w.phase 1).entry.map (·.ntTport)) =
    (some 1024, some 1025) ∧ (∃ c nt, (w.phase c).entry = some nt ∧ Maps w.policy nt ∧ slot nt.ntTport = 1) := by
  have hrun : (System.run (System.guarded Sound next) ⟨fun _ => mapping, fun _ => 0, fun _ => .idle⟩
      [.create 0 0 ⟨.tcp, 1, 2, 3, 4⟩ true 0, .create 1 0 ⟨.udp, 1, 2, 3, 4⟩ true 0, .go 0, .go 1, .go 0, .go 1, .go 1, .go 1]).map
      (fun w => (((w.phase 0).entry.map (·.ntTport), (w.phase 1).entry.map (·.ntTport)), mapBit w.bitmap 1)) =
      some ((some 1024, some 1025), true) := by decide
  obtain ⟨w, hw, hobs⟩ := Option.map_eq_some_iff.mp hrun
  obtain ⟨hports, hbit⟩ := Prod.mk.inj hobs
  have hreach : system.Reach Sound w := System.reach_run _ _ _ _ _ ⟨rfl, rfl⟩ hw
  exact ⟨w, hreach, hports, ((ports_owned hreach).1 1 (by decide)).mp hbit⟩

end NetBSD.Net.Npf.NpfNat
