import NetBSD.Netinet.IpFragment.Fragment
import NetBSD.Netinet.IpOptions.Options

/-! What `ip_optcopy` makes of a list of options.

The copier that stops at a byte behind the header or at an assertion is the one of fragmentation where that answers
(`ipOptcopy_toOption`). So on a list that can be taken apart into options it does what it is to do (`Copied`), unless the
header ends with an option that is not a NOP (`Filled`): then the assertion on the last one fails, as `optlen` is all of `cnt`. -/
namespace NetBSD.Netinet.IpOptions
open List
open IpFragment (Byte IPOPT_EOL IPOPT_NOP ipoptCopied padOptions Opt render Parsed Asserted)
variable {diagnostic : Bool} {rounds i n : Nat} {opt b : Byte} {cp dp options rest : List Byte} {hl : BitVec 4}

theorem load_ok (h : cp[i]? = some b) : load cp i = .ok b := by rw [load, h]

theorem loadN_ok (h : n ≤ cp.length) : loadN cp n = .ok (cp.take n) := if_pos h

theorem kassert_ok {p : Prop} [Decidable p] (h : diagnostic = true → p) : kassert diagnostic p = .ok () :=
  if_neg fun hfail => hfail.2 (h hfail.1)

theorem kassert_fail {p : Prop} [Decidable p] (hd : diagnostic = true) (h : ¬p) : kassert diagnostic p = .error .assertion :=
  if_pos ⟨hd, h⟩

theorem ok_of_bind {α β : Type} {x : Except Stop α} {f : α → Except Stop β} {r : β} (h : x >>= f = .ok r) :
    ∃ a, x = .ok a ∧ f a = .ok r := by
  cases x with
  | error _ => cases h
  | ok a => exact ⟨a, rfl, h⟩

/-! ### The copier -/

theorem copyOption_le {r : Nat × List Byte} (hcp : 0 < cp.length) (h : copyOption diagnostic cp.length opt cp = .ok r) : r.1 ≤ cp.length := by
  rw [copyOption] at h
  split at h
  · obtain rfl := Except.ok.inj h
    exact hcp
  obtain ⟨-, -, h⟩ := ok_of_bind h
  obtain ⟨len, -, h⟩ := ok_of_bind h
  obtain ⟨-, -, h⟩ := ok_of_bind h
  have hle : (if (len.toNat : Int) > cp.length then (cp.length : Int).toNat else len.toNat) ≤ cp.length := by
    split <;> omega
  dsimp only at h
  split at h
  · obtain ⟨bytes, -, h⟩ := ok_of_bind h
    obtain rfl := Except.ok.inj h
    exact hle
  · obtain rfl := Except.ok.inj h
    exact hle

theorem stuck (heol : opt ≠ IPOPT_EOL) (hnop : opt ≠ IPOPT_NOP) : IpFragment.ipOptcopyLoop diagnostic rounds [opt] = none := by
  induction rounds with
  | zero => rfl
  | succ rounds ih =>
    rw [IpFragment.ipOptcopyLoop]
    dsimp only
    rw [if_neg heol, if_neg hnop]
    split
    · rfl
    · exact congrArg (Option.map _) ih

/-- A round of the copier, when there is something left. -/
theorem ipOptcopyLoop_round (heol : opt ≠ IPOPT_EOL) : IpFragment.ipOptcopyLoop diagnostic (rounds + 1) (opt :: rest) =
    (copyOption diagnostic (opt :: rest).length opt (opt :: rest)).toOption.bind fun r =>
      (IpFragment.ipOptcopyLoop diagnostic rounds ((opt :: rest).drop r.1)).map (r.2 ++ ·) := by
  rw [IpFragment.ipOptcopyLoop, copyOption]
  dsimp only
  rw [if_neg heol]
  by_cases hnop : opt = IPOPT_NOP
  · rw [if_pos hnop, if_pos hnop]
    rfl
  rw [if_neg hnop, if_neg hnop]
  cases rest with
  | nil =>
    have hshort : ¬(([opt].length : Int) ≥ (IPOPT_OLEN : Int) + 1) := show ¬(1 : Int) ≥ 1 + 1 by decide
    by_cases hd : diagnostic = true
    · rw [kassert_fail hd hshort, if_pos ⟨hd, fun h => absurd h.1 (show ¬1 ≥ 2 by decide)⟩]
      rfl
    rw [kassert_ok fun h => absurd h hd, if_neg fun h => hd h.1]
    show Option.map _ (IpFragment.ipOptcopyLoop diagnostic rounds [opt]) = none
    rw [stuck heol hnop]
    rfl
  | cons len data =>
    generalize hcp : opt :: len :: data = cp
    have hlen : load cp IPOPT_OLEN = .ok len := by
      rw [← hcp]
      rfl
    have hcnt : (cp.length : Int) ≥ (IPOPT_OLEN : Int) + 1 := by
      rw [← hcp]
      exact Int.ofNat_le.mpr (Nat.le_add_left 2 data.length)
    have hhead : (len :: data).headD 0 = len := rfl
    have htwo : cp.length ≥ 2 := Int.ofNat_le.mp hcnt
    rw [kassert_ok fun _ => hcnt, hlen, hhead]
    show _ = Option.bind (Except.toOption ((kassert diagnostic (len.toNat ≥ IPOPT_OLEN + 1 ∧ (len.toNat : Int) < cp.length)).bind _)) _
    by_cases hbad : diagnostic = true ∧ ¬(len.toNat ≥ IPOPT_OLEN + 1 ∧ (len.toNat : Int) < cp.length)
    · rw [kassert_fail hbad.1 hbad.2, if_pos ⟨hbad.1, fun h => hbad.2 ⟨h.2.1, Int.ofNat_lt.mpr h.2.2⟩⟩]
      rfl
    have hgood : diagnostic = true → len.toNat ≥ IPOPT_OLEN + 1 ∧ (len.toNat : Int) < cp.length :=
      fun hd => by_contra fun h => hbad ⟨hd, h⟩
    rw [kassert_ok hgood, if_neg fun h => h.2 ⟨htwo, (hgood h.1).1, Int.ofNat_lt.mp (hgood h.1).2⟩]
    have hoptlen : (if (len.toNat : Int) > cp.length then (cp.length : Int).toNat else len.toNat) =
        if len.toNat > cp.length then cp.length else len.toNat := if_congr Int.ofNat_lt rfl rfl
    rw [hoptlen]
    generalize hn : (if len.toNat > cp.length then cp.length else len.toNat) = n
    have hn' : n ≤ cp.length := by
      rw [← hn]
      split <;> omega
    rw [loadN_ok hn']
    by_cases hcopied : ipoptCopied opt = true
    · simp only [if_pos hcopied]
      rfl
    · simp only [if_neg hcopied]
      rfl

theorem ipOptcopyLoop_toOption : (ipOptcopyLoop diagnostic rounds cp.length cp dp).toOption =
    (IpFragment.ipOptcopyLoop diagnostic rounds cp).map (dp ++ ·) := by
  induction rounds generalizing cp dp with
  | zero => rfl
  | succ rounds ih =>
    rw [ipOptcopyLoop]
    cases cp with
    | nil => exact congrArg some (append_nil dp).symm
    | cons opt rest =>
      have hpos : ((opt :: rest).length : Int) > 0 := Int.natCast_pos.mpr (Nat.succ_pos rest.length)
      rw [if_pos hpos]
      show Except.toOption (if opt = IPOPT_EOL then _ else _) = _
      by_cases heol : opt = IPOPT_EOL
      · rw [if_pos heol, IpFragment.ipOptcopyLoop]
        rw [if_pos heol]
        exact congrArg some (append_nil dp).symm
      rw [if_neg heol, ipOptcopyLoop_round heol]
      cases hround : copyOption diagnostic (opt :: rest).length opt (opt :: rest) with
      | error _ => rfl
      | ok r =>
        have hle : r.1 ≤ (opt :: rest).length := copyOption_le (Nat.succ_pos rest.length) hround
        show Except.toOption (ipOptcopyLoop diagnostic rounds ((opt :: rest).length - r.1) ((opt :: rest).drop r.1) (dp ++ r.2)) =
          Option.map (dp ++ ·) (Option.map (r.2 ++ ·) (IpFragment.ipOptcopyLoop diagnostic rounds ((opt :: rest).drop r.1)))
        rw [← Int.natCast_sub hle, ← length_drop, ih, Option.map_map]
        congr 1
        funext bytes
        exact append_assoc dp r.2 bytes

/-- The header is as long as `ip_hl` says. -/
def Room (hl : BitVec 4) (options : List Byte) : Prop := options.length = 4 * hl.toNat - 20

instance (hl : BitVec 4) (options : List Byte) : Decidable (Room hl options) := inferInstanceAs (Decidable (_ = _))

theorem Room.left (h : Room hl options) : ((4 * hl.toNat - 20 : Int) = options.length) ∨ options = [] ∧ ¬(4 * hl.toNat - 20 : Int) > 0 := by
  rw [Room] at h
  by_cases hfixed : 4 * hl.toNat ≤ 20
  · exact .inr ⟨eq_nil_of_length_eq_zero (by omega), by omega⟩
  · exact .inl (by omega)

theorem ipOptcopy_toOption (h : Room hl options) : (ipOptcopy diagnostic hl options).toOption = IpFragment.ipOptcopy diagnostic options := by
  have hmap : ∀ x : Except Stop (List Byte), Except.toOption (x >>= fun dp => pure (padOptions dp)) = x.toOption.map padOptions := by
    intro x
    cases x <;> rfl
  rw [ipOptcopy, hmap]
  rcases h.left with hcnt | ⟨rfl, hcnt⟩
  · rw [hcnt, ipOptcopyLoop_toOption]
    exact congrArg (Option.map padOptions) Option.map_id'
  · rw [ipOptcopyLoop, if_neg hcnt]
    rfl

/-! ### Options up to the end of the header -/

/-- The header ends with an option that is not a NOP. -/
def Filled (options : List Byte) : Prop :=
  ∃ opts type data, options = render (opts ++ [.opt type data]) ∧ ∀ o ∈ opts ++ [.opt type data], o.Ok

theorem Filled.asserted {opts : List Opt} {tail : List Byte} (h : ¬Filled options) (hparsed : Parsed options opts tail) :
    Asserted true opts tail := by
  rintro - htail o ho
  cases o with
  | nop => rfl
  | opt type data =>
    obtain ⟨front, rfl⟩ := getLast?_eq_some_iff.mp ho
    refine absurd ⟨front, type, data, ?_, hparsed.ok⟩ h
    rw [hparsed.bytes, htail, append_nil]

theorem render_none {opts : List Opt} {type : Byte} {data : List Byte} (hok : ∀ o ∈ opts ++ [.opt type data], o.Ok) :
    IpFragment.ipOptcopyLoop true rounds (render (opts ++ [.opt type data])) = none := by
  induction opts generalizing rounds with
  | nil =>
    cases rounds with
    | zero => rfl
    | succ rounds =>
      rw [nil_append, IpFragment.render_cons, IpFragment.ipOptcopyLoop_opt (hok _ (mem_singleton_self _))]
      exact if_pos ⟨rfl, rfl⟩
  | cons o opts ih =>
    have hrest : ∀ rounds, IpFragment.ipOptcopyLoop true rounds (render (opts ++ [.opt type data])) = none :=
      fun rounds => ih fun o ho => hok o (mem_cons_of_mem _ ho)
    cases rounds with
    | zero => rfl
    | succ rounds =>
      rw [cons_append, IpFragment.render_cons]
      cases o with
      | nop => rw [IpFragment.ipOptcopyLoop_nop, hrest, Option.map_none]
      | opt _ _ => rw [IpFragment.ipOptcopyLoop_opt (hok _ mem_cons_self), hrest, Option.map_none, ite_self]

/-- What the copier is to do: come to its end, with no failed assertion and no byte read behind the header, and write options that are
not longer, and a multiple of four. -/
def Copied (diagnostic : Bool) (hl : BitVec 4) (options : List Byte) : Prop :=
  ∃ dp, ipOptcopy diagnostic hl options = .ok dp ∧ dp.length ≤ 4 * hl.toNat - 20 ∧ dp.length % 4 = 0

theorem ok_iff_toOption {α : Type} {x : Except Stop α} {a : α} : x = .ok a ↔ x.toOption = some a := by
  cases x with
  | error _ =>
    constructor
    · intro h
      cases h
    · intro h
      cases h
  | ok b =>
    rw [Except.ok.injEq]
    exact Option.some_inj.symm

section
variable {opts : List Opt} {tail : List Byte} (hroom : Room hl options) (h : Parsed options opts tail)
include hroom h

theorem copied_of_parsed (hassert : Asserted diagnostic opts tail) : Copied diagnostic hl options := by
  refine ⟨IpFragment.copiedOptions opts, ?_, ?_⟩
  · rw [ok_iff_toOption, ipOptcopy_toOption hroom]
    exact h.ipOptcopy hassert
  have hlen : options.length = 4 * hl.toNat - 20 := hroom
  rw [← hlen]
  exact h.length_le (by omega)

theorem copied_iff : Copied true hl options ↔ ¬Filled options := by
  constructor
  · rintro ⟨dp, hcopy, -⟩ ⟨front, type, data, hbytes, hok⟩
    rw [ok_iff_toOption, ipOptcopy_toOption hroom, IpFragment.ipOptcopy, hbytes, render_none hok] at hcopy
    cases hcopy
  · exact fun hfilled => copied_of_parsed hroom h (Filled.asserted hfilled h)

theorem asserted_iff : Asserted true opts tail ↔ ¬Filled options :=
  ⟨fun hassert => (copied_iff hroom h).mp (copied_of_parsed hroom h hassert), fun hfilled => Filled.asserted hfilled h⟩

end

end NetBSD.Netinet.IpOptions
