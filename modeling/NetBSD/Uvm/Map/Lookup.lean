import NetBSD.Uvm.Map.VmMap

/-! Lookups find the entry at an address.

Entries and the free space behind them follow each other (`stop_le_start`), so that an address has
one entry, or the header, at or before it (`AtOrBefore`). All three ways to look it up come to
that one. -/
namespace NetBSD.Uvm.Map
open Nat
open Lib

namespace VmMap
variable {m : VmMap} {address p q a b n : Nat} {t : MaxTree}

/-- The entry at an address, or the last one before it. -/
structure AtOrBefore (m : VmMap) (address : Nat) (p : Nat) : Prop where
  le : p ≤ m.entries.length
  starts : 0 < p → m.start p ≤ address
  behind : ∀ q, p < q → q ≤ m.entries.length → address < m.start q

/-- What a lookup has to find: the entry with the address, else the last one that ends before. -/
structure LookedUp (m : VmMap) (address : Nat) (ok : Bool) (p : Nat) : Prop where
  found : ok = true ↔ ∃ q, m.Contains q address
  contains : ok = true → ∀ q, m.Contains q address ↔ q = p
  le : p ≤ m.entries.length
  stops : ok = false → m.stop p ≤ address
  last : ok = false → ∀ q ≤ m.entries.length, m.stop q ≤ address → q ≤ p

/-! ### The order of the entries -/

theorem next_of_lt (h : p < m.entries.length) : m.next p = p + 1 := if_pos h

theorem next_last : m.next m.entries.length = 0 := if_neg (lt_irrefl _)

namespace WellFormed
variable (h : m.WellFormed)
include h

theorem stop_le_succ (hp : p < m.entries.length) : m.stop p ≤ m.start (p + 1) := by
  have hapart := h.apart p (le_of_lt hp)
  rwa [next_of_lt hp] at hapart

theorem stop_le_start (hpq : p < q) (hq : q ≤ m.entries.length) : m.stop p ≤ m.start q := by
  induction q, hpq using le_induction with
  | base => exact h.stop_le_succ hq
  | succ q hpq ih =>
    have hbelow := ih (le_of_succ_le hq)
    have hentry := h.nonempty q (lt_of_le_of_lt (zero_le p) hpq) (le_of_succ_le hq)
    exact le_trans (le_trans hbelow (le_of_lt hentry)) (h.stop_le_succ hq)

theorem stop_le_max (hp : p ≤ m.entries.length) : m.stop p ≤ m.vmMapMax := by
  rcases lt_or_eq_of_le hp with hlt | rfl
  · have hlast := h.apart m.entries.length (le_refl _)
    rw [next_last] at hlast
    have hentry := h.nonempty m.entries.length (lt_of_le_of_lt (zero_le p) hlt) (le_refl _)
    exact le_trans (h.stop_le_start hlt (le_refl _)) (le_trans (le_of_lt hentry) hlast)
  · have hlast := h.apart m.entries.length (le_refl _)
    rwa [next_last] at hlast

theorem min_le_start (hp : 0 < p) (hle : p ≤ m.entries.length) : m.vmMapMin ≤ m.start p := h.stop_le_start hp hle

theorem start_lt (hp : 0 < p) (hpq : p < q) (hq : q ≤ m.entries.length) : m.start p < m.start q :=
  lt_of_lt_of_le (h.nonempty p hp (le_trans (le_of_lt hpq) hq)) (h.stop_le_start hpq hq)

theorem start_le_max (hle : p ≤ m.entries.length) : m.start p ≤ m.vmMapMax := by
  rcases Nat.eq_zero_or_pos p with rfl | hp
  · exact le_refl _
  · exact le_trans (le_of_lt (h.nonempty p hp hle)) (h.stop_le_max hle)

omit h in
theorem atOrBefore_unique (hp : m.AtOrBefore address p) (hq : m.AtOrBefore address q) : p = q := by
  rcases lt_trichotomy p q with hlt | heq | hgt
  · exact absurd (hp.behind q hlt hq.le) (Nat.not_lt.mpr (hq.starts (lt_of_le_of_lt (zero_le p) hlt)))
  · exact heq
  · exact absurd (hq.behind p hgt hp.le) (Nat.not_lt.mpr (hp.starts (lt_of_le_of_lt (zero_le q) hgt)))

theorem atOrBefore_of_contains (hp : m.Contains p address) : m.AtOrBefore address p where
  le := hp.2.1
  starts _ := hp.2.2.1
  behind _ hpq hq := lt_of_lt_of_le hp.2.2.2 (h.stop_le_start hpq hq)

theorem lookedUp_true (hp : m.Contains p address) : m.LookedUp address true p where
  found := iff_of_true rfl ⟨p, hp⟩
  contains _ q := by
    constructor
    · intro hq
      exact atOrBefore_unique (h.atOrBefore_of_contains hq) (h.atOrBefore_of_contains hp)
    · intro hq
      exact hq ▸ hp
  le := hp.2.1
  stops hfalse := absurd hfalse (by decide)
  last hfalse := absurd hfalse (by decide)

theorem lookedUp_false (hp : m.AtOrBefore address p) (hstop : m.stop p ≤ address) : m.LookedUp address false p where
  found := by
    apply iff_of_false (by decide)
    intro ⟨q, hq⟩
    obtain rfl := atOrBefore_unique hp (h.atOrBefore_of_contains hq)
    exact Nat.not_lt.mpr hstop hq.2.2.2
  contains htrue := absurd htrue (by decide)
  le := hp.le
  stops _ := hstop
  last _ q hq hstops := by
    by_contra hlt
    have hbehind := hp.behind q (Nat.not_le.mp hlt) hq
    have hentry := h.nonempty q (lt_of_le_of_lt (zero_le p) (Nat.not_le.mp hlt)) hq
    exact Nat.not_lt.mpr hstops (lt_trans hbehind hentry)

/-- In a subtree with the entries from `a` to below `b`, when the address is behind the entry
before `a` and before entry `b`. -/
theorem bytree_spec {prev : Nat} (hspans : t.Spans a b) (hb : b ≤ m.entries.length + 1) (hprev : prev + 1 = a)
    (hstop : m.stop prev ≤ address) (hstart : 0 < prev → m.start prev ≤ address)
    (hbehind : ∀ q, b ≤ q → q ≤ m.entries.length → address < m.start q) :
    m.LookedUp address (m.uvmMapLookupEntryBytree address t prev).1 (m.uvmMapLookupEntryBytree address t prev).2 := by
  induction t generalizing a b prev with
  | nil =>
    have hends : a = b := hspans
    have hfloor : m.AtOrBefore address prev := ⟨by omega, hstart, fun q hq hle => hbehind q (by omega) hle⟩
    exact h.lookedUp_false hfloor hstop
  | node left cur right ihl ihr =>
    obtain ⟨ha, hcur⟩ := hspans.root
    have hpos : 0 < cur := by omega
    have hle : cur ≤ m.entries.length := by omega
    unfold uvmMapLookupEntryBytree
    by_cases hbegun : address ≥ m.start cur
    · rw [if_pos hbegun]
      by_cases hin : address < m.stop cur
      · rw [if_pos hin]
        exact h.lookedUp_true ⟨hpos, hle, hbegun, hin⟩
      · rw [if_neg hin]
        exact ihr hspans.2 hb rfl (Nat.le_of_not_lt hin) (fun _ => hbegun) hbehind
    rw [if_neg hbegun]
    have hbefore := Nat.lt_of_not_le hbegun
    apply ihl hspans.1 (le_succ_of_le hle) hprev hstop hstart
    intro q hq hqle
    rcases lt_or_eq_of_le hq with hlt | rfl
    · exact lt_trans hbefore (h.start_lt hpos hlt hqle)
    · exact hbefore

theorem lookupList_spec {cur : Nat} (hcur : 0 < cur) (hle : cur ≤ m.entries.length) (hfuel : m.entries.length < n + cur)
    (hstop : m.stop (cur - 1) ≤ address) (hstart : 0 < cur - 1 → m.start (cur - 1) ≤ address) :
    m.LookedUp address (m.lookupList address (n + 1) cur).1 (m.lookupList address (n + 1) cur).2 := by
  induction n generalizing cur with
  | zero => exact absurd hle (by omega)
  | succ n ih =>
    have hprev : m.prev cur = cur - 1 := if_neg (ne_of_gt hcur)
    unfold lookupList
    rw [if_neg (ne_of_gt hcur)]
    by_cases hends : m.stop cur > address
    · rw [if_pos hends]
      by_cases hbegun : address ≥ m.start cur
      · rw [if_pos hbegun]
        exact h.lookedUp_true ⟨hcur, hle, hbegun, hends⟩
      rw [if_neg hbegun, hprev]
      have hfloor : m.AtOrBefore address (cur - 1) := by
        refine ⟨by omega, hstart, fun q hq hqle => ?_⟩
        rcases lt_or_eq_of_le (show cur ≤ q by omega) with hlt | rfl
        · exact lt_trans (Nat.lt_of_not_le hbegun) (h.start_lt hcur hlt hqle)
        · exact Nat.lt_of_not_le hbegun
      exact h.lookedUp_false hfloor hstop
    rw [if_neg hends]
    have hbehind := Nat.le_of_not_lt hends
    have hbegun := le_trans (le_of_lt (h.nonempty cur hcur hle)) hbehind
    rcases lt_or_eq_of_le hle with hlt | hlast
    · rw [next_of_lt hlt]
      exact ih (succ_pos cur) hlt (by omega) hbehind (fun _ => hbegun)
    rw [hlast, next_last]
    have hfloor : m.AtOrBefore address m.entries.length :=
      ⟨le_refl _, fun _ => hlast ▸ hbegun, fun q hq hqle => absurd hqle (Nat.not_le.mpr hq)⟩
    rw [hlast] at hbehind
    exact h.lookedUp_false hfloor hbehind

/-- Wherever the hint is, the lookup is right and leaves a hint on the list. -/
theorem lookup_spec (hmin : m.vmMapMin ≤ address) : m.LookedUp address (m.uvmMapLookupEntry address).1 (m.uvmMapLookupEntry address).2.1 ∧
      ∃ hint ≤ m.entries.length, (m.uvmMapLookupEntry address).2.2 = { m with hint := hint } := by
  generalize hcur : (if m.hint = 0 then m.next m.hint else m.hint) = cur
  have hle : cur ≤ m.entries.length := by
    rw [← hcur]
    unfold next
    split
    · split <;> omega
    · exact h.hint
  have hspans := h.spans
  have htree : m.LookedUp address (m.uvmMapLookupEntryBytree address m.rbTree 0).1 (m.uvmMapLookupEntryBytree address m.rbTree 0).2 :=
    h.bytree_spec hspans (le_refl _) rfl hmin (fun hpos => absurd hpos (lt_irrefl 0))
      fun q hq hqle => absurd hqle (by omega)
  unfold uvmMapLookupEntry
  rw [hcur]
  dsimp only
  by_cases hquick : address ≥ m.start cur ∧ cur ≠ 0 ∧ m.stop cur > address
  · rw [if_pos hquick]
    exact ⟨h.lookedUp_true ⟨Nat.pos_of_ne_zero hquick.2.1, hle, hquick.1, hquick.2.2⟩, m.hint, h.hint, rfl⟩
  rw [if_neg hquick]
  by_cases htake : (if address ≥ m.start cur then decide (m.nentries > 15) else true) = true
  · rw [if_pos htake]
    exact ⟨htree, _, htree.le, rfl⟩
  rw [if_neg htake]
  have hbegun : address ≥ m.start cur := by
    by_contra hno
    exact htake (if_neg hno)
  have hlist : m.LookedUp address (m.lookupList address (m.entries.length + 1) cur).1
      (m.lookupList address (m.entries.length + 1) cur).2 := by
    rcases Nat.eq_zero_or_pos cur with rfl | hpos
    · -- there is no entry
      have hempty : m.entries.length = 0 := by
        by_contra hne
        split at hcur
        · next hheader =>
          rw [hheader, next_of_lt (Nat.pos_of_ne_zero hne)] at hcur
          exact absurd hcur (by decide)
        · next hhint => exact hhint hcur
      show m.LookedUp address false m.entries.length
      rw [hempty]
      have hfloor : m.AtOrBefore address 0 :=
        ⟨zero_le _, fun hpos => absurd hpos (lt_irrefl 0), fun q hq hqle => absurd hqle (by omega)⟩
      exact h.lookedUp_false hfloor hmin
    · have hbelow : m.stop (cur - 1) ≤ m.start cur := h.stop_le_start (sub_lt hpos (by decide)) hle
      apply h.lookupList_spec hpos hle (by omega) (le_trans hbelow hbegun)
      intro hprev
      exact le_trans (le_of_lt (h.start_lt hprev (sub_lt hpos (by decide)) hle)) hbegun
  exact ⟨hlist, _, hlist.le, rfl⟩

end WellFormed

theorem LookedUp.unique {ok ok' : Bool} (h : m.LookedUp address ok p) (h' : m.LookedUp address ok' q) : ok = ok' ∧ p = q := by
  have hok : ok = ok' := Bool.eq_iff_iff.mpr (h.found.trans h'.found.symm)
  subst hok
  refine ⟨rfl, ?_⟩
  cases ok with
  | true =>
    obtain ⟨r, hr⟩ := h.found.mp rfl
    exact ((h.contains rfl r).mp hr).symm.trans ((h'.contains rfl r).mp hr)
  | false => exact le_antisymm (h'.last rfl p h.le (h.stops rfl)) (h.last rfl q h'.le (h'.stops rfl))

end VmMap

/-- A lookup finds the one entry with the address, or the last one that ends at or before it, and
leaves its hint on the list. With any other hint it finds the same. -/
theorem lookup_entry_right {m : VmMap} (h : m.WellFormed) {address : Nat} (hmin : m.vmMapMin ≤ address) (_hmax : address < m.vmMapMax) :
    m.LookedUp address (m.uvmMapLookupEntry address).1 (m.uvmMapLookupEntry address).2.1 ∧
    (∃ hint ≤ m.entries.length, (m.uvmMapLookupEntry address).2.2 = { m with hint := hint }) ∧
    ∀ hint ≤ m.entries.length, (({ m with hint := hint } : VmMap).uvmMapLookupEntry address).1 = (m.uvmMapLookupEntry address).1 ∧
      (({ m with hint := hint } : VmMap).uvmMapLookupEntry address).2.1 = (m.uvmMapLookupEntry address).2.1 := by
  obtain ⟨hright, hhint⟩ := h.lookup_spec hmin
  refine ⟨hright, hhint, fun hint hle => ?_⟩
  have h' : ({ m with hint := hint } : VmMap).WellFormed := { h with hint := hle }
  obtain ⟨hright', -⟩ := @VmMap.WellFormed.lookup_spec { m with hint := hint } address h' hmin
  have hother : m.LookedUp address (({ m with hint := hint } : VmMap).uvmMapLookupEntry address).1
      (({ m with hint := hint } : VmMap).uvmMapLookupEntry address).2.1 := { hright' with }
  exact hother.unique hright

/-- The address behind the second entry. -/
theorem lookup_entry_right_small : (smallMap false).LookedUp 0x9000 ((smallMap false).uvmMapLookupEntry 0x9000).1
    ((smallMap false).uvmMapLookupEntry 0x9000).2.1 ∧ ((smallMap false).uvmMapLookupEntry 0x9000).2.1 = 2 :=
  ⟨(lookup_entry_right (smallMap_wellFormed false) (by decide) (by decide)).1, by decide⟩

end NetBSD.Uvm.Map
