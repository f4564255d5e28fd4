import NetBSD.Lib.System
import NetBSD.Net.Npf.Lpm
import Mathlib.Data.List.Nodup

/-! The tables of address prefixes.

A tree table has its entries in a list, with their number, and in the structure for the longest match, which both address
families share. What it is for is a set of prefixes: an address is found when a prefix of its family covers it. That
holds while no prefix of length 0 of one family stands in for addresses of the other, and while what is removed is there
and is the longest prefix of its address. -/
namespace NetBSD.Net.Npf.Tableset
open List Option
open Lib

inductive Errno where
  | EINVAL
  | ENOENT
  | EEXIST
  deriving DecidableEq

structure Tblent where
  tePreflen : Nat
  teAlen : Nat
  teAddr : Addr
  deriving DecidableEq

structure Table where
  tLpm : Lpm Tblent
  tList : List Tblent
  tNitems : Nat

def NPF_MAX_NETMASK : Nat := 128

def NPF_NO_NETMASK : Nat := 255

def npfAddrlen2tree (alen : Nat) : Nat := alen >>> 4

def tableCidrCheck (aidx mask : Nat) : Option Errno :=
  if aidx > 1 then some .EINVAL
  else if mask > NPF_MAX_NETMASK ∧ mask ≠ NPF_NO_NETMASK then some .EINVAL
  else if mask > (if aidx ≠ 0 then 128 else 32) ∧ mask ≠ NPF_NO_NETMASK then some .EINVAL
  else none

def preflenOf (alen mask : Nat) : Nat := if mask = NPF_NO_NETMASK then alen * 8 else mask

def npfTableInsert (t : Table) (alen : Nat) (addr : Addr) (mask : Nat) : Option (Table × Option Errno) :=
  match tableCidrCheck (npfAddrlen2tree alen) mask with
  | some error => some (t, some error)
  | none => do
    let ent : Tblent := ⟨preflenOf alen mask, alen, addr⟩
    match ← lpmLookup t.tLpm addr alen with
    | none => return (⟨lpmInsert t.tLpm addr alen ent.tePreflen ent, ent :: t.tList, t.tNitems + 1⟩, none)
    | some _ => return (t, some .EEXIST)

/-- The first value of `error` is written over by the check. -/
def npfTableRemove (t : Table) (alen : Nat) (addr : Addr) (mask : Nat) : Option (Table × Option Errno) :=
  match tableCidrCheck (npfAddrlen2tree alen) mask with
  | some error => some (t, some error)
  | none => do
    match ← lpmLookup t.tLpm addr alen with
    | some ent =>
      let (lpm, _) ← lpmRemove t.tLpm ent.teAddr ent.teAlen ent.tePreflen
      return (⟨lpm, t.tList.erase ent, t.tNitems - 1⟩, none)
    | none => return (t, none)

def npfTableLookup (t : Table) (alen : Nat) (addr : Addr) : Option (Option Errno) :=
  if npfAddrlen2tree alen > 1 then some (some .EINVAL)
  else (lpmLookup t.tLpm addr alen).map fun found => if found.isSome then none else some .ENOENT

def npfTableFlush (t : Table) : Table := ⟨lpmClear t.tLpm, [], 0⟩

/-- A table that has just been made. -/
def create : Table := ⟨.empty, [], 0⟩

/-! ### Runs -/

inductive Call where
  | insert (alen : Nat) (addr : Addr) (mask : Nat)
  | remove (alen : Nat) (addr : Addr) (mask : Nat)
  | flush

/-- The lengths of the two address families, and a mask that is a prefix length of the family or says there is none. -/
def Valid (alen mask : Nat) : Prop := (alen = 4 ∨ alen = 16) ∧ (mask ≤ alen * 8 ∨ mask = NPF_NO_NETMASK)

instance (alen mask : Nat) : Decidable (Valid alen mask) :=
  inferInstanceAs (Decidable ((alen = 4 ∨ alen = 16) ∧ (mask ≤ alen * 8 ∨ mask = NPF_NO_NETMASK)))

/-- The entry covers the address: it is of its family, and the address has the prefix. -/
def Tblent.Covers (e : Tblent) (alen : Nat) (addr : Addr) : Prop := e.teAlen = alen ∧ Agree e.tePreflen e.teAddr addr

instance (e : Tblent) (alen : Nat) (addr : Addr) : Decidable (e.Covers alen addr) :=
  inferInstanceAs (Decidable (e.teAlen = alen ∧ ∀ i < e.tePreflen, addrBit e.teAddr i = addrBit addr i))

def Tblent.Is (e : Tblent) (alen : Nat) (addr : Addr) (preflen : Nat) : Prop := e.tePreflen = preflen ∧ e.Covers alen addr

instance (e : Tblent) (alen : Nat) (addr : Addr) (preflen : Nat) : Decidable (e.Is alen addr preflen) :=
  inferInstanceAs (Decidable (e.tePreflen = preflen ∧ e.Covers alen addr))

/-- A table, and what was put into it and has not been taken out. -/
structure World where
  t : Table
  entries : List Tblent

def without (entries : List Tblent) (alen : Nat) (addr : Addr) (preflen : Nat) : List Tblent :=
  entries.filter fun e => ¬e.Is alen addr preflen

def next (w : World) : Call → Option World
  | .insert alen addr mask => (npfTableInsert w.t alen addr mask).map fun r =>
      ⟨r.1, if r.2 = none then ⟨preflenOf alen mask, alen, addr⟩ :: w.entries else w.entries⟩
  | .remove alen addr mask => (npfTableRemove w.t alen addr mask).map fun r =>
      ⟨r.1, without w.entries alen addr (preflenOf alen mask)⟩
  | .flush => some ⟨npfTableFlush w.t, []⟩

def init (w : World) : Prop := w = ⟨create, []⟩

def system : System World Call := .ofStep init next

def Covered (entries : List Tblent) (alen : Nat) (addr : Addr) : Prop := ∃ e ∈ entries, e.Covers alen addr

instance (entries : List Tblent) (alen : Nat) (addr : Addr) : Decidable (Covered entries alen addr) :=
  inferInstanceAs (Decidable (∃ e ∈ entries, e.Covers alen addr))

/-- With a prefix of length 0 in the table, every address of both families is covered by its own. -/
def Apart (entries : List Tblent) : Prop :=
  ∀ e ∈ entries, e.tePreflen = 0 → ∀ alen addr, alen = 4 ∨ alen = 16 → Covered entries alen addr

/-- The call is about a prefix of a family. What goes in is refused or leaves the families apart; what is to be removed is
there, is the longest prefix of its address, and leaves them apart. -/
def Plain (w : World) : Call → Prop
  | .insert alen addr mask => Valid alen mask ∧ (Covered w.entries alen addr ∨ Apart (⟨preflenOf alen mask, alen, addr⟩ :: w.entries))
  | .remove alen addr mask => Valid alen mask ∧ (∃ e ∈ w.entries, e.Is alen addr (preflenOf alen mask)) ∧
      (∀ e ∈ w.entries, e.Covers alen addr → e.tePreflen ≤ preflenOf alen mask) ∧
      Apart (without w.entries alen addr (preflenOf alen mask))
  | .flush => True

/-- An entry that can be in a table. -/
def Tblent.Ok (e : Tblent) : Prop := (e.teAlen = 4 ∨ e.teAlen = 16) ∧ e.tePreflen ≤ e.teAlen * 8

/-- The structure for the longest match has the entries, each under its prefix. -/
structure Holds (lpm : Lpm Tblent) (entries : List Tblent) : Prop where
  wf : lpm.Wf
  nodup : entries.Nodup
  ok : ∀ e ∈ entries, e.Ok
  prefixes : ∀ p key e, p ≠ 0 → ((lpm.table p).get fnv1aHash key = some e ↔
    e ∈ entries ∧ e.tePreflen = p ∧ key = lpmKey e.teAddr e.teAlen p)
  dflt : ∀ e, lpm.defval = some e ↔ e ∈ entries ∧ e.tePreflen = 0

variable {lpm : Lpm Tblent} {entries : List Tblent} {alen : Nat} {addr : Addr} {mask : Nat}

theorem lpmKey_eq_iff (halen : alen = 4 ∨ alen = 16) {e : Tblent} {p : Nat} (hp : p ≤ alen * 8) :
    lpmKey addr alen p = lpmKey e.teAddr e.teAlen p ↔ e.teAlen = alen ∧ Agree p e.teAddr addr := by
  rw [lpmKey, lpmKey, Prod.mk.injEq]
  constructor
  · rintro ⟨hlen, hagree⟩
    have hp' : p ≤ 32 * lpmToWords alen := by rcases halen with rfl | rfl <;> exact hp
    rw [← hlen, computePrefix_eq_iff _ _ _ _ hp'] at hagree
    exact ⟨hlen.symm, fun i hi => Eq.symm (hagree i hi)⟩
  rintro ⟨hlen, hagree⟩
  have hp' : p ≤ 32 * lpmToWords alen := by rcases halen with rfl | rfl <;> exact hp
  rw [hlen, computePrefix_eq_iff _ _ _ _ hp']
  exact ⟨rfl, fun i hi => (hagree i hi).symm⟩

/-- What the structure has for an address under a length is the entry of that length that covers it. -/
theorem Holds.at_iff (h : Holds lpm entries) (halen : alen = 4 ∨ alen = 16) {p : Nat} (h0 : p ≠ 0) (hp : p ≤ alen * 8)
    {e : Tblent} : lpm.at addr alen p = some e ↔ e ∈ entries ∧ e.Is alen addr p := by
  rw [Lpm.at, h.prefixes p _ e h0, lpmKey_eq_iff halen hp]
  constructor
  · rintro ⟨hmem, rfl, hagree⟩
    exact ⟨hmem, rfl, hagree⟩
  · rintro ⟨hmem, rfl, hagree⟩
    exact ⟨hmem, rfl, hagree⟩

/-- What a look finds: the longest entry that covers the address, or else the one of length 0, of either family. -/
def Finds (entries : List Tblent) (alen : Nat) (addr : Addr) : Option Tblent → Prop
  | some e => e ∈ entries ∧ ((e.Covers alen addr ∧ ∀ e' ∈ entries, e'.Covers alen addr → e'.tePreflen ≤ e.tePreflen) ∨
      e.tePreflen = 0 ∧ ∀ e' ∈ entries, e'.Covers alen addr → e'.tePreflen = 0)
  | none => ∀ e ∈ entries, ¬e.Covers alen addr ∧ e.tePreflen ≠ 0

theorem Holds.lookup (h : Holds lpm entries) (halen : alen = 4 ∨ alen = 16) (addr : Addr) :
    ∃ r, lpmLookup lpm addr alen = some r ∧ Finds entries alen addr r := by
  obtain ⟨r, hrun, hr⟩ := lpmLookup_spec h.wf addr alen
  have hwords : 32 * lpmToWords alen = alen * 8 := by rcases halen with rfl | rfl <;> rfl
  rw [hwords] at hr
  refine ⟨_, hrun, ?_⟩
  cases r with
  | some e =>
    obtain ⟨p, h0, hp, hat, hlonger⟩ := hr
    obtain ⟨hmem, rfl, hcovers⟩ := (h.at_iff halen (by omega) hp).mp hat
    refine ⟨hmem, .inl ⟨hcovers, ?_⟩⟩
    intro e' hmem' hcovers'
    by_contra hlt
    have hle : e'.tePreflen ≤ alen * 8 := hcovers'.1 ▸ (h.ok e' hmem').2
    have hat' := (h.at_iff halen (by omega) hle).mpr ⟨hmem', rfl, hcovers'⟩
    rw [hlonger _ (by omega) hle] at hat'
    cases hat'
  | none =>
    -- No entry with a prefix covers the address.
    have hzero : ∀ e' ∈ entries, e'.Covers alen addr → e'.tePreflen = 0 := by
      intro e' hmem' hcovers'
      by_contra h0
      have hle : e'.tePreflen ≤ alen * 8 := hcovers'.1 ▸ (h.ok e' hmem').2
      have hat' := (h.at_iff halen h0 hle).mpr ⟨hmem', rfl, hcovers'⟩
      rw [hr _ (by omega) hle] at hat'
      cases hat'
    cases hdef : lpm.defval with
    | some e =>
      obtain ⟨hmem, h0⟩ := (h.dflt e).mp hdef
      exact ⟨hmem, .inr ⟨h0, hzero⟩⟩
    | none =>
      intro e hmem
      have h0 : e.tePreflen ≠ 0 := by
        intro h0
        rw [(h.dflt e).mpr ⟨hmem, h0⟩] at hdef
        cases hdef
      exact ⟨fun hcovers => h0 (hzero e hmem hcovers), h0⟩

theorem Finds.isSome_iff {r : Option Tblent} (h : Finds entries alen addr r) (hapart : Apart entries)
    (halen : alen = 4 ∨ alen = 16) : r.isSome = true ↔ Covered entries alen addr := by
  cases r with
  | some e =>
    refine iff_of_true rfl ?_
    obtain ⟨hmem, ⟨hcovers, -⟩ | ⟨h0, -⟩⟩ := h
    · exact ⟨e, hmem, hcovers⟩
    · exact hapart e hmem h0 alen addr halen
  | none =>
    refine iff_of_false (by decide) ?_
    rintro ⟨e, hmem, hcovers⟩
    exact (h e hmem).1 hcovers

theorem Holds.empty : Holds Lpm.empty [] :=
  ⟨.empty, nodup_nil, fun _ he => absurd he not_mem_nil, fun _ _ _ _ => by simp [Lpm.empty, Chained.get_empty],
    fun _ => by simp [Lpm.empty]⟩

/-- An entry for an address that nothing was found for. -/
theorem Holds.insert (h : Holds lpm entries) {ent : Tblent} (hok : ent.Ok) (hnone : Finds entries ent.teAlen ent.teAddr none) :
    Holds (lpmInsert lpm ent.teAddr ent.teAlen ent.tePreflen ent) (ent :: entries) := by
  have hself : ent.Covers ent.teAlen ent.teAddr := ⟨rfl, fun _ _ => rfl⟩
  have hnodup : (ent :: entries).Nodup := nodup_cons.mpr ⟨fun hmem => (hnone ent hmem).1 hself, h.nodup⟩
  have hoks : ∀ e ∈ ent :: entries, e.Ok := forall_mem_cons.mpr ⟨hok, h.ok⟩
  by_cases h0 : ent.tePreflen = 0
  · rw [lpmInsert, if_pos h0]
    refine ⟨⟨h.wf.placed, h.wf.sized, h.wf.used⟩, hnodup, hoks, ?_, ?_⟩
    · intro p key e hp
      rw [h.prefixes p key e hp, mem_cons]
      constructor
      · rintro ⟨hmem, hrest⟩
        exact ⟨.inr hmem, hrest⟩
      rintro ⟨rfl | hmem, rfl, hkey⟩
      · exact absurd h0 hp
      · exact ⟨hmem, rfl, hkey⟩
    intro e
    rw [Option.some.injEq, mem_cons]
    constructor
    · rintro rfl
      exact ⟨.inl rfl, h0⟩
    rintro ⟨rfl | hmem, he⟩
    · rfl
    · exact absurd he (hnone e hmem).2
  obtain ⟨hwf, hdef, htable⟩ := lpmInsert_spec h.wf ent.teAddr ent.teAlen h0 ent
  refine ⟨hwf, hnodup, hoks, ?_, ?_⟩
  · intro p key e hp
    rw [htable, mem_cons]
    split
    · next hc =>
      obtain ⟨rfl, rfl⟩ := hc
      rw [Option.some.injEq]
      constructor
      · rintro rfl
        exact ⟨.inl rfl, rfl, rfl⟩
      rintro ⟨rfl | hmem, hlen, hkey⟩
      · rfl
      · rw [lpmKey_eq_iff hok.1 hok.2, ← hlen] at hkey
        exact absurd hkey (hnone e hmem).1
    · next hc =>
      rw [h.prefixes p key e hp]
      constructor
      · rintro ⟨hmem, hrest⟩
        exact ⟨.inr hmem, hrest⟩
      rintro ⟨rfl | hmem, rfl, rfl⟩
      · exact absurd ⟨rfl, rfl⟩ hc
      · exact ⟨hmem, rfl, rfl⟩
  · intro e
    rw [hdef, h.dflt e, mem_cons]
    constructor
    · rintro ⟨hmem, he⟩
      exact ⟨.inr hmem, he⟩
    rintro ⟨rfl | hmem, he⟩
    · exact absurd he h0
    · exact ⟨hmem, he⟩

theorem Holds.unique (h : Holds lpm entries) {e e' : Tblent} (he : e ∈ entries) (he' : e' ∈ entries)
    (his : e'.Is e.teAlen e.teAddr e.tePreflen) : e' = e := by
  obtain ⟨hlen, halen, hagree⟩ := his
  by_cases h0 : e.tePreflen = 0
  · have hdef := (h.dflt e).mpr ⟨he, h0⟩
    rw [(h.dflt e').mpr ⟨he', hlen.trans h0⟩] at hdef
    exact some.inj hdef
  · have hat := (h.at_iff (h.ok e he).1 h0 (h.ok e he).2).mpr ⟨he, rfl, rfl, fun _ _ => rfl⟩
    rw [(h.at_iff (h.ok e he).1 h0 (h.ok e he).2).mpr ⟨he', hlen, halen, hagree⟩] at hat
    exact some.inj hat

theorem Holds.remove (h : Holds lpm entries) {ent : Tblent} (hmem : ent ∈ entries) :
    ∃ lpm', lpmRemove lpm ent.teAddr ent.teAlen ent.tePreflen = some (lpm', true) ∧ Holds lpm' (entries.erase ent) := by
  have hoks : ∀ e ∈ entries.erase ent, e.Ok := fun e he => h.ok e (mem_of_mem_erase he)
  by_cases h0 : ent.tePreflen = 0
  · refine ⟨{ lpm with defval := none }, if_pos h0, ⟨h.wf.placed, h.wf.sized, h.wf.used⟩, h.nodup.erase ent, hoks, ?_, ?_⟩
    · intro p key e hp
      rw [h.prefixes p key e hp, h.nodup.mem_erase_iff]
      constructor
      · rintro ⟨he, rfl, hkey⟩
        exact ⟨⟨fun heq => hp (heq ▸ h0), he⟩, rfl, hkey⟩
      · rintro ⟨⟨-, he⟩, hrest⟩
        exact ⟨he, hrest⟩
    intro e
    rw [h.nodup.mem_erase_iff]
    refine iff_of_false (by simp) ?_
    rintro ⟨⟨hne, he⟩, he0⟩
    have hdef := (h.dflt e).mpr ⟨he, he0⟩
    rw [(h.dflt ent).mpr ⟨hmem, h0⟩] at hdef
    exact hne (some.inj hdef).symm
  obtain ⟨lpm', hrun, hwf, hdef, htable⟩ := lpmRemove_spec h.wf h0
    ((h.at_iff (h.ok ent hmem).1 h0 (h.ok ent hmem).2).mpr ⟨hmem, rfl, rfl, fun _ _ => rfl⟩)
  refine ⟨lpm', hrun, hwf, h.nodup.erase ent, hoks, ?_, ?_⟩
  · intro p key e hp
    rw [htable, h.nodup.mem_erase_iff]
    split
    · next hc =>
      obtain ⟨rfl, rfl⟩ := hc
      refine iff_of_false (by simp) ?_
      rintro ⟨⟨hne, he⟩, hlen, hkey⟩
      rw [lpmKey_eq_iff (h.ok ent hmem).1 (h.ok ent hmem).2] at hkey
      exact hne (h.unique hmem he ⟨hlen, hkey.1, fun i hi => hkey.2 i (by omega)⟩)
    · next hc =>
      rw [h.prefixes p key e hp]
      constructor
      · rintro ⟨he, rfl, rfl⟩
        refine ⟨⟨?_, he⟩, rfl, rfl⟩
        rintro rfl
        exact hc ⟨rfl, rfl⟩
      · rintro ⟨⟨-, he⟩, hrest⟩
        exact ⟨he, hrest⟩
  · intro e
    rw [hdef, h.dflt e, h.nodup.mem_erase_iff]
    constructor
    · rintro ⟨he, he0⟩
      refine ⟨⟨?_, he⟩, he0⟩
      rintro rfl
      exact h0 he0
    · rintro ⟨⟨-, he⟩, he0⟩
      exact ⟨he, he0⟩

theorem Valid.check (h : Valid alen mask) : tableCidrCheck (npfAddrlen2tree alen) mask = none := by
  obtain ⟨rfl | rfl, hmask⟩ := h
  · rw [tableCidrCheck, if_neg (by decide), if_neg (by simp only [NPF_MAX_NETMASK]; omega), if_neg (by simp [npfAddrlen2tree]; omega)]
  · rw [tableCidrCheck, if_neg (by decide), if_neg (by simp only [NPF_MAX_NETMASK]; omega), if_neg (by simp [npfAddrlen2tree]; omega)]

theorem Valid.ok (h : Valid alen mask) (addr : Addr) : (⟨preflenOf alen mask, alen, addr⟩ : Tblent).Ok := by
  refine ⟨h.1, ?_⟩
  rw [preflenOf]
  split
  · exact le_refl _
  · next hne => exact h.2.resolve_right hne

/-- The table has the entries, and counts them. -/
structure Keeps (t : Table) (entries : List Tblent) : Prop where
  holds : Holds t.tLpm entries
  list : t.tList = entries
  nitems : t.tNitems = entries.length

variable {t : Table}

theorem Keeps.insert (h : Keeps t entries) (hv : Valid alen mask) (addr : Addr) :
    ∃ r, lpmLookup t.tLpm addr alen = some r ∧ Finds entries alen addr r ∧ ∃ t',
      npfTableInsert t alen addr mask = some (t', if r.isSome then some .EEXIST else none) ∧
        Keeps t' (if r.isSome then entries else ⟨preflenOf alen mask, alen, addr⟩ :: entries) := by
  obtain ⟨r, hrun, hr⟩ := h.holds.lookup hv.1 addr
  refine ⟨r, hrun, hr, ?_⟩
  rw [npfTableInsert, hv.check]
  cases r with
  | some e =>
    rw [hrun]
    exact ⟨t, rfl, h⟩
  | none =>
    rw [hrun]
    refine ⟨_, rfl, h.holds.insert (hv.ok addr) hr, ?_, ?_⟩
    · show _ :: t.tList = _ :: entries
      rw [h.list]
    · show t.tNitems + 1 = entries.length + 1
      rw [h.nitems]

theorem Keeps.remove (h : Keeps t entries) (hv : Valid alen mask) (hthere : ∃ e ∈ entries, e.Is alen addr (preflenOf alen mask))
    (hlongest : ∀ e ∈ entries, e.Covers alen addr → e.tePreflen ≤ preflenOf alen mask) :
    ∃ t', npfTableRemove t alen addr mask = some (t', none) ∧ Keeps t' (without entries alen addr (preflenOf alen mask)) := by
  obtain ⟨ent, hmem, hlen, hcovers⟩ := hthere
  obtain ⟨r, hrun, hr⟩ := h.holds.lookup hv.1 addr
  -- What is found is the entry to be removed.
  have hfound : r = some ent := by
    cases r with
    | none => exact absurd hcovers (hr ent hmem).1
    | some e =>
      obtain ⟨he, ⟨hcov, hmax⟩ | ⟨h0, hzero⟩⟩ := hr
      · have heq : e.tePreflen = ent.tePreflen := by
          have hle := hmax ent hmem hcovers
          have hle' := hlongest e he hcov
          omega
        refine congrArg some (h.holds.unique hmem he ⟨heq, hcov.1.trans hcovers.1.symm, ?_⟩)
        intro i hi
        rw [hcov.2 i (by omega), hcovers.2 i (by omega)]
      · have hdef := (h.holds.dflt e).mpr ⟨he, h0⟩
        rw [(h.holds.dflt ent).mpr ⟨hmem, hzero ent hmem hcovers⟩] at hdef
        exact hdef.symm
  subst hfound
  obtain ⟨lpm', hrem, hholds⟩ := h.holds.remove hmem
  have herase : without entries alen addr (preflenOf alen mask) = entries.erase ent := by
    rw [h.holds.nodup.erase_eq_filter]
    apply filter_congr
    intro e he
    by_cases heq : e = ent
    · subst heq
      simp [Tblent.Is, hlen, hcovers]
    have hnot : ¬e.Is alen addr (preflenOf alen mask) := by
      rintro ⟨hlen', hcovers'⟩
      refine heq (h.holds.unique hmem he ⟨hlen'.trans hlen.symm, hcovers'.1.trans hcovers.1.symm, ?_⟩)
      intro i hi
      rw [hcovers'.2 i (by omega), hcovers.2 i (by omega)]
    simp [hnot, heq]
  rw [npfTableRemove, hv.check, herase]
  rw [hrun]
  refine ⟨⟨lpm', t.tList.erase ent, t.tNitems - 1⟩, ?_, hholds, ?_, ?_⟩
  · simp only [bind_eq_bind, bind_some, hrem]
    rfl
  · rw [h.list]
  · rw [h.nitems, length_erase_of_mem hmem]

/-! ### Runs -/

structure Inv (w : World) : Prop where
  keeps : Keeps w.t w.entries
  apart : Apart w.entries

theorem reach_inv {w : World} (h : system.Reach Plain w) : Inv w := by
  apply h.invariant
  · rintro w rfl
    exact ⟨⟨.empty, rfl, rfl⟩, fun _ he => absurd he not_mem_nil⟩
  intro w c w' hinv hplain hstep
  cases c with
  | insert alen addr mask =>
    obtain ⟨hv, hapart⟩ := hplain
    obtain ⟨r, -, hr, t', hins, hkeeps⟩ := hinv.keeps.insert hv addr
    have hw' := (congrArg (Option.map _) hins).symm.trans hstep
    have hsome := hr.isSome_iff hinv.apart hv.1
    cases r with
    | some e =>
      cases hw'
      exact ⟨hkeeps, hinv.apart⟩
    | none =>
      cases hw'
      exact ⟨hkeeps, hapart.resolve_left fun hc => absurd (hsome.mpr hc) (by decide)⟩
  | remove alen addr mask =>
    obtain ⟨hv, hthere, hlongest, hapart⟩ := hplain
    obtain ⟨t', hrem, hkeeps⟩ := hinv.keeps.remove hv hthere hlongest
    have hw' := (congrArg (Option.map _) hrem).symm.trans hstep
    cases hw'
    exact ⟨hkeeps, hapart⟩
  | flush =>
    cases hstep
    exact ⟨⟨.empty, rfl, rfl⟩, fun _ he => absurd he not_mem_nil⟩

/-- An address is found just when an entry of its family covers it; a removal takes out the one entry with the prefix;
the entries are counted. -/
theorem table_is_prefix_set {w : World} (h : system.Reach Plain w) : (∀ alen addr, alen = 4 ∨ alen = 16 →
      npfTableLookup w.t alen addr = some (if Covered w.entries alen addr then none else some .ENOENT)) ∧
    (∀ alen addr mask, Plain w (.remove alen addr mask) → ∃ t', npfTableRemove w.t alen addr mask = some (t', none) ∧
      t'.tList = without w.entries alen addr (preflenOf alen mask)) ∧
    w.t.tList = w.entries ∧ w.t.tNitems = w.entries.length := by
  have hinv := reach_inv h
  refine ⟨?_, ?_, hinv.keeps.list, hinv.keeps.nitems⟩
  · intro alen addr halen
    obtain ⟨r, hrun, hr⟩ := hinv.keeps.holds.lookup halen addr
    have hsome := hr.isSome_iff hinv.apart halen
    have htree : ¬npfAddrlen2tree alen > 1 := by rcases halen with rfl | rfl <;> decide
    rw [npfTableLookup, if_neg htree, hrun, map_some, ← ite_congr (propext hsome) (fun _ => rfl) (fun _ => rfl)]
  · rintro alen addr mask ⟨hv, hthere, hlongest, -⟩
    obtain ⟨t', hrem, hkeeps⟩ := hinv.keeps.remove hv hthere hlongest
    exact ⟨t', hrem, hkeeps.list⟩

/-- The calls on a table where no prefix has length 0. -/
def Simple (w : World) : Call → Prop
  | .insert alen _ mask => Valid alen mask ∧ preflenOf alen mask ≠ 0 ∧ ∀ e ∈ w.entries, e.tePreflen ≠ 0
  | .remove alen addr mask => Valid alen mask ∧ (∃ e ∈ w.entries, e.Is alen addr (preflenOf alen mask)) ∧
      (∀ e ∈ w.entries, e.Covers alen addr → e.tePreflen ≤ preflenOf alen mask) ∧ ∀ e ∈ w.entries, e.tePreflen ≠ 0
  | .flush => True

instance (w : World) (c : Call) : Decidable (Simple w c) :=
  match c with
  | .insert alen _ mask =>
    inferInstanceAs (Decidable (Valid alen mask ∧ preflenOf alen mask ≠ 0 ∧ ∀ e ∈ w.entries, e.tePreflen ≠ 0))
  | .remove alen addr mask =>
    inferInstanceAs (Decidable (Valid alen mask ∧ (∃ e ∈ w.entries, e.Is alen addr (preflenOf alen mask)) ∧
      (∀ e ∈ w.entries, e.Covers alen addr → e.tePreflen ≤ preflenOf alen mask) ∧ ∀ e ∈ w.entries, e.tePreflen ≠ 0))
  | .flush => inferInstanceAs (Decidable True)

theorem Simple.plain {w : World} {c : Call} (h : Simple w c) : Plain w c := by
  cases c with
  | insert alen addr mask =>
    obtain ⟨hv, hp, hall⟩ := h
    refine ⟨hv, .inr fun e he h0 => ?_⟩
    rcases mem_cons.mp he with rfl | he
    · exact absurd h0 hp
    · exact absurd h0 (hall e he)
  | remove alen addr mask =>
    obtain ⟨hv, hthere, hlongest, hall⟩ := h
    exact ⟨hv, hthere, hlongest, fun e he h0 => absurd h0 (hall e (mem_filter.mp he).1)⟩
  | flush => trivial

/-- A prefix within another is put in before it and taken out again. -/
theorem table_is_prefix_set_nested : ∃ w, system.Reach Plain w ∧ w.t.tNitems = 1 ∧
    npfTableLookup w.t 4 [0x0a010203] = some none ∧ npfTableLookup w.t 4 [0x0b000000] = some (some .ENOENT) ∧
    npfTableLookup w.t 16 [0x0a010203, 0, 0, 0] = some (some .ENOENT) := by
  have hrun : (System.run (System.guarded Simple next) ⟨create, []⟩
      [.insert 4 [0x0a010000] 16, .insert 4 [0x0a000000] 8, .remove 4 [0x0a010000] 16]).map (·.entries) =
      some [⟨8, 4, [0x0a000000]⟩] := by decide
  obtain ⟨w, hw, hentries⟩ := map_eq_some_iff.mp hrun
  have hreach : system.Reach Plain w := System.reach_of_run system ⟨create, []⟩ _ (fun _ _ _ _ hs hn => ⟨hs.plain, hn⟩) rfl hw
  obtain ⟨hlookup, -, -, hnitems⟩ := table_is_prefix_set hreach
  rw [hentries] at hlookup hnitems
  refine ⟨w, hreach, hnitems, ?_, ?_, ?_⟩
  · rw [hlookup 4 _ (by decide), if_pos (by decide)]
  · rw [hlookup 4 _ (by decide), if_neg (by decide)]
  · rw [hlookup 16 _ (by decide), if_neg (by decide)]

/-- A removal of what is not there answers 0; a prefix of length 0 is found for the other family; and a removal takes the
longer prefix instead of the one it names. -/
theorem table_is_no_prefix_set : (npfTableRemove create 4 [0x0a000000] 8).map (·.2) = some none ∧
    (∃ w, system.Reachable w ∧ ¬Covered w.entries 4 [0x7f000001] ∧ npfTableLookup w.t 4 [0x7f000001] = some none) ∧
    ∃ w, system.Reachable w ∧ (npfTableRemove w.t 4 [0x0a010000] 8).map (·.1.tList) = some [⟨8, 4, [0x0a000000]⟩] := by
  have hreach : ∀ calls w, System.run (System.guarded (fun _ _ => True) next) ⟨create, []⟩ calls = some w → system.Reachable w :=
    fun calls w hw => System.reach_run _ _ _ _ calls rfl hw
  refine ⟨by decide, ?_, ?_⟩
  · have hrun : (System.run (System.guarded (fun _ _ => True) next) ⟨create, []⟩ [.insert 16 [0, 0, 0, 0] 0]).map
        (fun w => (w.entries, npfTableLookup w.t 4 [0x7f000001])) = some ([⟨0, 16, [0, 0, 0, 0]⟩], some none) := by decide
    obtain ⟨w, hw, hobs⟩ := map_eq_some_iff.mp hrun
    obtain ⟨hentries, hlookup⟩ := Prod.mk.inj hobs
    exact ⟨w, hreach _ w hw, by rw [hentries]; decide, hlookup⟩
  have hrun : (System.run (System.guarded (fun _ _ => True) next) ⟨create, []⟩
      [.insert 4 [0x0a010000] 16, .insert 4 [0x0a000000] 8]).map
      (fun w => (npfTableRemove w.t 4 [0x0a010000] 8).map (·.1.tList)) = some (some [⟨8, 4, [0x0a000000]⟩]) := by decide
  obtain ⟨w, hw, hobs⟩ := map_eq_some_iff.mp hrun
  exact ⟨w, hreach _ w hw, hobs⟩

end NetBSD.Net.Npf.Tableset
