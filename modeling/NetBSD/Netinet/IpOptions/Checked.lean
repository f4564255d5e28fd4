import NetBSD.Netinet.IpOptions.Copied

/-! Lists of options that have been checked.

What `ip_dooptions` writes to an option stays in it and behind its first two bytes (`Within`, with a rule for each read and each
store), so that the options after it are of the same types and lengths as before (`Shaped`): it touches nothing behind the header,
and what it accepts can be taken apart, before and after. `ip_pcbopts` leaves its loop before it counts what it has stored. -/
namespace NetBSD.Netinet.IpOptions
open Option Nat
open IpFragment (Byte IPOPT_EOL IPOPT_NOP Opt render Parsed Asserted)
variable {rounds i n optlen pos : Nat} {opt : Byte} {cp cp' bs options : List Byte} {hl : BitVec 4}

/-! ### The options after `ip_dooptions` -/

/-- An option has been written to behind its first two bytes, and nothing else. -/
structure Kept (optlen : Nat) (cp cp' : List Byte) : Prop where
  length : cp'.length = cp.length
  head : cp'.take 2 = cp.take 2
  rest : cp'.drop optlen = cp.drop optlen

theorem Kept.refl (optlen : Nat) (cp : List Byte) : Kept optlen cp cp := ⟨rfl, rfl, rfl⟩

theorem Kept.trans {cp'' : List Byte} (h : Kept optlen cp cp') (h' : Kept optlen cp' cp'') : Kept optlen cp cp'' :=
  ⟨h'.length.trans h.length, h'.head.trans h.head, h'.rest.trans h.rest⟩

theorem store_kept (hlo : 2 ≤ i) (hhi : i + bs.length ≤ optlen) (hin : optlen ≤ cp.length) :
    ∃ cp', store cp i bs = .ok cp' ∧ Kept optlen cp cp' ∧ (∀ k < i, cp'[k]? = cp[k]?) ∧ ∀ k < bs.length, cp'[i + k]? = bs[k]? := by
  have hfront : (cp.take i).length = i := List.length_take_of_le (by omega)
  refine ⟨_, if_pos (by omega), ⟨?_, ?_, ?_⟩, fun k hk => ?_, fun k hk => ?_⟩
  · rw [List.length_append, List.length_append, List.length_drop]
    omega
  · rw [List.take_append_of_le_length (by omega), List.take_take, min_eq_left hlo]
  · rw [← List.append_assoc, List.drop_append, List.drop_eq_nil_of_le, List.nil_append, List.drop_drop, List.length_append, hfront,
      Nat.add_sub_cancel' hhi]
    rw [List.length_append, hfront]
    exact hhi
  · rw [List.getElem?_append_left (by omega), List.getElem?_take_of_lt hk]
  · rw [List.getElem?_append_right (by omega), hfront, Nat.add_sub_cancel_left, List.getElem?_append_left hk]

/-- What may come of an option: it is written to, or the packet is bad. -/
def Within (optlen : Nat) (cp : List Byte) : Except Stop (Seen × List Byte) → Prop
  | .ok r => Kept optlen cp r.2
  | .error (.bad _ _) => True
  | .error _ => False

theorem Within.kept {r : Except Stop (Seen × List Byte)} (hkept : Kept optlen cp cp') (h : Within optlen cp' r) : Within optlen cp r := by
  cases r with
  | ok r => exact hkept.trans h
  | error stop => cases stop <;> exact h

theorem within_check {p : Prop} [Decidable p] {type code : Nat} {r : Except Stop (Seen × List Byte)} (h : ¬p → Within optlen cp r) :
    Within optlen cp (if p then .error (.bad type code) else r) := by
  by_cases hp : p
  · rw [if_pos hp]
    trivial
  · rw [if_neg hp]
    exact h hp

theorem toNat_add_four (ptr : Byte) {len : Nat} (hhi : ptr.toNat + 7 ≤ len) (hlen : len ≤ 40) : (ptr + 4).toNat = ptr.toNat + 4 := by
  exact mod_eq_of_lt (show ptr.toNat + 4 < 256 by omega)

section Write
variable {env : Env} {dst : InAddr} {s : Seen} {f : Byte → Except Stop (Seen × List Byte)} {g : List Byte → Except Stop (Seen × List Byte)}
  (hin : optlen ≤ cp.length)
include hin

theorem within_load (hi : i < optlen) (h : ∀ b, cp[i]? = some b → Within optlen cp (f b)) : Within optlen cp (load cp i >>= f) := by
  have hb := List.getElem?_eq_getElem (lt_of_lt_of_le hi hin)
  rw [load_ok hb]
  exact h _ hb

theorem within_loadAddr {f : InAddr → Except Stop (Seen × List Byte)} (hi : i + 4 ≤ optlen) (h : ∀ a, Within optlen cp (f a)) :
    Within optlen cp (loadAddr cp i >>= f) := by
  have hload : ∀ k < 4, load cp (i + k) = .ok ((cp[i + k]?).getD 0) := by
    intro k hk
    have hb := List.getElem?_eq_getElem (show i + k < cp.length by omega)
    rw [load_ok hb, hb, getD_some]
  have h0 := hload 0 (by decide)
  have h1 := hload 1 (by decide)
  have h2 := hload 2 (by decide)
  have h3 := hload 3 (by decide)
  rw [add_zero] at h0
  rw [loadAddr, h0, h1, h2, h3]
  exact h _

theorem within_store (hlo : 2 ≤ i) (hhi : i + bs.length ≤ optlen)
    (h : ∀ cp', Kept optlen cp cp' → (∀ k < i, cp'[k]? = cp[k]?) → (∀ k < bs.length, cp'[i + k]? = bs[k]?) → Within optlen cp' (g cp')) :
    Within optlen cp (store cp i bs >>= g) := by
  obtain ⟨cp', hstore, hkept, hfront, hthere⟩ := store_kept hlo hhi hin
  rw [hstore]
  exact (h cp' hkept hfront hthere).kept hkept

theorem within_pointer {ptr : Byte} (hlen : 3 ≤ optlen) (h : ∀ cp', Kept optlen cp cp' → cp'[2]? = some ptr → Within optlen cp' (g cp')) :
    Within optlen cp (store cp 2 [ptr] >>= g) :=
  within_store hin (le_refl 2) hlen fun cp' hkept _ hthere => h cp' hkept (hthere 0 Nat.zero_lt_one)

theorem within_vector {a : InAddr} (hlo : 2 ≤ i) (hhi : i + 4 ≤ optlen) (h : ∀ cp', Kept optlen cp cp' → Within optlen cp' (g cp')) :
    Within optlen cp (store cp i a.toList >>= g) := by
  have hlen : a.toList.length = 4 := Vector.length_toList
  refine within_store hin hlo ?_ fun cp' hkept _ _ => h cp' hkept
  rw [hlen]
  exact hhi

theorem stamp_within {ptr : Byte} (hptr : cp[2]? = some ptr) (hlo : 3 ≤ ptr.toNat) (hhi : ptr.toNat + 3 ≤ optlen) :
    Within optlen cp (stamp env s cp) := by
  refine within_load hin (by omega) fun ptr' hptr' => ?_
  obtain rfl := some.inj (hptr.symm.trans hptr')
  refine within_vector hin (by omega) (by omega) fun cp' hkept => ?_
  refine within_pointer (hkept.length ▸ hin) (by omega) fun cp'' _ _ => ?_
  exact Kept.refl optlen cp''

theorem sourceRoute_within : Within optlen cp (sourceRoute env pos opt optlen s cp) := by
  refine within_check fun _ => within_check fun _ => within_check fun hshort => ?_
  have hthree : 3 ≤ optlen := Nat.not_lt.mp hshort
  refine within_load hin hthree fun offset _ => within_check fun hmin => ?_
  have hfour : 4 ≤ offset.toNat := Nat.not_lt.mp hmin
  cases env.ifwithaddr s.dst with
  | none =>
    refine within_check fun _ => ?_
    exact Kept.refl optlen cp
  | some ifa =>
    dsimp only
    by_cases hend : offset.toNat - 1 + 4 > optlen
    · rw [if_pos hend]
      exact Kept.refl optlen cp
    rw [if_neg hend]
    have hroom : offset.toNat - 1 + 4 ≤ optlen := Nat.not_lt.mp hend
    refine within_loadAddr hin hroom fun dst => ?_
    cases (if opt = IPOPT_SSRR then env.ifwithladdr dst else env.rtaddr dst) with
    | none => trivial
    | some ia =>
      refine within_vector hin (by omega) hroom fun cp' hkept => ?_
      refine within_pointer (hkept.length ▸ hin) hthree fun cp'' _ _ => ?_
      exact Kept.refl optlen cp''

theorem recordRoute_within : Within optlen cp (recordRoute env pos optlen s cp) := by
  refine within_check fun _ => within_check fun hshort => ?_
  have hthree : 3 ≤ optlen := Nat.not_lt.mp hshort
  refine within_load hin hthree fun offset _ => within_check fun hmin => ?_
  have hfour : 4 ≤ offset.toNat := Nat.not_lt.mp hmin
  by_cases hend : offset.toNat - 1 + 4 > optlen
  · rw [if_pos hend]
    exact Kept.refl optlen cp
  rw [if_neg hend]
  have hroom : offset.toNat - 1 + 4 ≤ optlen := Nat.not_lt.mp hend
  cases (env.ifwithaddr s.dst).or (env.rtaddr s.dst) with
  | none => trivial
  | some ia =>
    refine within_vector hin (by omega) hroom fun cp' hkept => ?_
    refine within_pointer (hkept.length ▸ hin) hthree fun cp'' _ _ => ?_
    exact Kept.refl optlen cp''

theorem timestamp_within (hlen : (cp[1]?).map (·.toNat) = some optlen) : Within optlen cp (timestamp env dst pos s cp) := by
  obtain ⟨len, hat, hoptlen⟩ := map_eq_some_iff.mp hlen
  refine within_check fun _ => ?_
  rw [load_ok hat]
  show Within optlen cp (if len.toNat < 4 ∨ len.toNat > 40 then _ else _)
  rw [hoptlen]
  refine within_check fun hsize => ?_
  have hfour : 4 ≤ optlen := by omega
  refine within_load hin (by omega) fun ptr hptr => within_check fun hmin => ?_
  refine within_load hin (by omega) fun field _ => ?_
  by_cases hfull : ptr.toNat > optlen - 4
  · rw [if_pos hfull]
    refine within_store hin (by decide) hfour fun cp' _ _ _ => within_check fun _ => ?_
    exact Kept.refl optlen cp'
  rw [if_neg hfull]
  by_cases htsonly : field &&& 0x0f = IPOPT_TS_TSONLY
  · rw [if_pos htsonly]
    exact stamp_within hin hptr (by omega) (by omega)
  rw [if_neg htsonly]
  by_cases htsandaddr : field &&& 0x0f = IPOPT_TS_TSANDADDR
  · rw [if_pos htsandaddr]
    refine within_check fun hroom => ?_
    cases (if env.rcvif then env.ifpforaddr dst else s.ifa) with
    | none => exact stamp_within hin hptr (by omega) (by omega)
    | some ia =>
      refine within_vector hin (by omega) (by omega) fun cp' hkept => ?_
      refine within_pointer (hkept.length ▸ hin) (by omega) fun cp'' hkept' hptr' => ?_
      have hadd := toNat_add_four ptr (show ptr.toNat + 7 ≤ optlen by omega) (by omega)
      exact stamp_within (hkept'.length ▸ hkept.length ▸ hin) hptr' (by omega) (by omega)
  rw [if_neg htsandaddr]
  by_cases hprespec : field &&& 0x0f = IPOPT_TS_PRESPEC
  · rw [if_pos hprespec]
    refine within_check fun hroom => ?_
    refine within_loadAddr hin (by omega) fun addr => ?_
    cases env.ifwithaddr addr with
    | none => exact Kept.refl optlen cp
    | some ia =>
      refine within_pointer hin (by omega) fun cp' hkept hptr' => ?_
      have hadd := toNat_add_four ptr (show ptr.toNat + 7 ≤ optlen by omega) (by omega)
      exact stamp_within (hkept.length ▸ hin) hptr' (by omega) (by omega)
  rw [if_neg hprespec]
  trivial

theorem dooption_within (hlen : opt = IPOPT_NOP ∨ (cp[1]?).map (·.toNat) = some optlen) :
    Within optlen cp (dooption env dst pos opt optlen s cp) := by
  unfold dooption
  by_cases hsource : opt = IPOPT_LSRR ∨ opt = IPOPT_SSRR
  · rw [if_pos hsource]
    exact sourceRoute_within hin
  rw [if_neg hsource]
  by_cases hrecord : opt = IPOPT_RR
  · rw [if_pos hrecord]
    exact recordRoute_within hin
  rw [if_neg hrecord]
  by_cases hts : opt = IPOPT_TS
  · rw [if_pos hts]
    refine timestamp_within hin (hlen.resolve_left ?_)
    rw [hts]
    decide
  rw [if_neg hts]
  exact Kept.refl optlen cp

end Write

theorem optionLength_cases (pos : Nat) (opt : Byte) (hcp : 0 < cp.length) : (∃ type code, optionLength cp.length pos opt cp = .error (.bad type code)) ∨
    ∃ n, optionLength cp.length pos opt cp = .ok n ∧ 0 < n ∧ n ≤ cp.length ∧
      (opt = IPOPT_NOP ∧ n = 1 ∨ opt ≠ IPOPT_NOP ∧ 2 ≤ n ∧ (cp[1]?).map (·.toNat) = some n) := by
  unfold optionLength
  by_cases hnop : opt = IPOPT_NOP
  · rw [if_pos hnop]
    exact .inr ⟨1, rfl, Nat.zero_lt_one, hcp, .inl ⟨hnop, rfl⟩⟩
  rw [if_neg hnop]
  by_cases hshort : (cp.length : Int) < (IPOPT_OLEN : Int) + 1
  · rw [if_pos hshort]
    exact .inl ⟨_, _, rfl⟩
  rw [if_neg hshort]
  have htwo : 1 < cp.length := Int.ofNat_le.mp (Int.not_lt.mp hshort)
  have hlen := List.getElem?_eq_getElem htwo
  rw [load_ok (i := IPOPT_OLEN) hlen]
  dsimp only [bind, Except.bind]
  by_cases hbad : cp[1].toNat < IPOPT_OLEN + 1 ∨ (cp[1].toNat : Int) > cp.length
  · rw [if_pos hbad]
    exact .inl ⟨_, _, rfl⟩
  rw [if_neg hbad]
  obtain ⟨hlo, hhi⟩ := not_or.mp hbad
  have htwo' : 2 ≤ cp[1].toNat := Nat.not_lt.mp hlo
  refine .inr ⟨_, rfl, zero_lt_of_lt htwo', Int.ofNat_le.mp (Int.not_lt.mp hhi), .inr ⟨hnop, htwo', ?_⟩⟩
  rw [hlen]
  rfl

/-- A NOP, or the type of another option. -/
def kind : Opt → Option Byte
  | .nop => none
  | .opt type _ => some type

/-- The options before and after, and what is behind them. -/
def Shaped (cp cp' : List Byte) : Prop := ∃ opts opts' tail, Parsed cp opts tail ∧ Parsed cp' opts' tail ∧
  opts'.map kind = opts.map kind ∧ cp'.length = cp.length

theorem take_bytes {len : Byte} {data : List Byte} (hlo : 2 ≤ len.toNat) (hhi : len.toNat ≤ data.length + 2) :
    (opt :: len :: data).take len.toNat = (Opt.opt opt (data.take (len.toNat - 2))).bytes := by
  have hlen : (data.take (len.toNat - 2)).length + 2 = len.toNat := by
    rw [List.length_take_of_le (by omega)]
    omega
  rw [Opt.bytes, hlen, BitVec.ofNat_toNat, BitVec.setWidth_eq]
  obtain ⟨k, hk⟩ := Nat.exists_eq_add_of_le' hlo
  rw [hk, List.take_succ_cons, List.take_succ_cons, Nat.add_sub_cancel]

theorem take_two {cp : List Byte} {len : Byte} (hopt : cp[0]? = some opt) (hlen : cp[1]? = some len) : ∃ data, cp = opt :: len :: data := by
  match cp with
  | [] => cases hopt
  | [_] => cases hlen
  | a :: b :: data =>
    obtain rfl := some.inj hopt
    obtain rfl := some.inj hlen
    exact ⟨data, rfl⟩

theorem Kept.option (h : Kept n cp cp') (hopt : cp[0]? = some opt) (heol : opt ≠ IPOPT_EOL) (hn : n ≤ cp.length)
    (hlen : opt = IPOPT_NOP ∧ n = 1 ∨ opt ≠ IPOPT_NOP ∧ 2 ≤ n ∧ (cp[1]?).map (·.toNat) = some n) :
    ∃ o o' : Opt, cp.take n = o.bytes ∧ cp'.take n = o'.bytes ∧ o.Ok ∧ o'.Ok ∧ kind o' = kind o := by
  have hsame : ∀ k < 2, cp'[k]? = cp[k]? := by
    intro k hk
    rw [← List.getElem?_take_of_lt hk, h.head, List.getElem?_take_of_lt hk]
  have hopt' := (hsame 0 Nat.zero_lt_two).trans hopt
  rcases hlen with ⟨rfl, rfl⟩ | ⟨hnop, htwo, hlen⟩
  · refine ⟨.nop, .nop, ?_, ?_, trivial, trivial, rfl⟩
    · rw [List.take_one, List.head?_eq_getElem?, hopt]
      rfl
    · rw [List.take_one, List.head?_eq_getElem?, hopt']
      rfl
  obtain ⟨len, hat, rfl⟩ := map_eq_some_iff.mp hlen
  have hn' : len.toNat ≤ cp'.length := h.length ▸ hn
  obtain ⟨data, rfl⟩ := take_two hopt hat
  obtain ⟨data', rfl⟩ := take_two hopt' ((hsame 1 Nat.one_lt_two).trans hat)
  have hok : ∀ data : List Byte, (Opt.opt opt (data.take (len.toNat - 2))).Ok := by
    intro data
    refine ⟨heol, hnop, ?_⟩
    have hle := List.length_take_le (len.toNat - 2) data
    omega
  exact ⟨_, _, take_bytes htwo hn, take_bytes htwo hn', hok data, hok data', rfl⟩

theorem Parsed.cons {o : Opt} {opts : List Opt} {tail : List Byte} (hbytes : cp.take n = o.bytes) (hok : o.Ok)
    (h : Parsed (cp.drop n) opts tail) : Parsed cp (o :: opts) tail := by
  refine ⟨?_, ?_, h.eol⟩
  · rw [IpFragment.render_cons, List.append_assoc, ← hbytes, ← h.bytes, List.take_append_drop]
  · rw [List.forall_mem_cons]
    exact ⟨hok, h.ok⟩

theorem Shaped.cons {out : List Byte} (h : Kept n cp cp') (hopt : cp[0]? = some opt) (heol : opt ≠ IPOPT_EOL) (hn : n ≤ cp.length)
    (hlen : opt = IPOPT_NOP ∧ n = 1 ∨ opt ≠ IPOPT_NOP ∧ 2 ≤ n ∧ (cp[1]?).map (·.toNat) = some n) (hshaped : Shaped (cp.drop n) out) :
    Shaped cp (cp'.take n ++ out) := by
  obtain ⟨o, o', hbytes, hbytes', hok, hok', hkind⟩ := h.option hopt heol hn hlen
  obtain ⟨opts, opts', tail, hparsed, hparsed', hkinds, hout⟩ := hshaped
  have hfront : (cp'.take n).length = n := List.length_take_of_le (h.length ▸ hn)
  refine ⟨o :: opts, o' :: opts', tail, Parsed.cons hbytes hok hparsed, Parsed.cons (n := n) ?_ hok' ?_, ?_, ?_⟩
  · rw [List.take_left' hfront, hbytes']
  · rw [List.drop_left' hfront]
    exact hparsed'
  · rw [List.map_cons, List.map_cons, hkind, hkinds]
  · rw [List.length_append, hout, List.length_drop]
    omega

/-- What may come of the loop: the options keep their shape, or the packet is bad. -/
def Run (cp : List Byte) : Except Stop (Seen × List Byte) → Prop
  | .ok r => Shaped cp r.2
  | .error (.bad _ _) => True
  | .error _ => False

theorem dooptionsLoop_shaped {env : Nat → Env} {dst : InAddr} {s : Seen} (hrounds : cp.length < rounds) :
    Run cp (dooptionsLoop env dst rounds cp.length pos s cp) := by
  induction rounds generalizing cp pos s with
  | zero => exact absurd hrounds (Nat.not_lt_zero _)
  | succ rounds ih =>
    rw [dooptionsLoop]
    cases cp with
    | nil => exact ⟨[], [], [], ⟨rfl, List.forall_mem_nil _, .inl rfl⟩, ⟨rfl, List.forall_mem_nil _, .inl rfl⟩, rfl, rfl⟩
    | cons opt rest =>
      have hpos : ((opt :: rest).length : Int) > 0 := Int.natCast_pos.mpr (succ_pos rest.length)
      rw [if_pos hpos]
      show Run _ (if opt = IPOPT_EOL then _ else _)
      by_cases heol : opt = IPOPT_EOL
      · have hparsed : Parsed (opt :: rest) [] (IPOPT_EOL :: rest) := ⟨heol ▸ rfl, List.forall_mem_nil _, .inr ⟨rest, rfl⟩⟩
        rw [if_pos heol]
        exact ⟨[], [], _, hparsed, hparsed, rfl, rfl⟩
      rw [if_neg heol]
      generalize hcp : opt :: rest = cp at hrounds
      have hopt : cp[0]? = some opt := by
        rw [← hcp]
        rfl
      rcases optionLength_cases pos opt (hcp ▸ succ_pos rest.length : 0 < cp.length) with
        ⟨type, code, hbad⟩ | ⟨n, hn, hn0, hle, hlen⟩
      · rw [hbad]
        trivial
      rw [hn]
      have hwithin : Within n cp (dooption (env (cp.length : Int).toNat) dst pos opt n s cp) :=
        dooption_within hle (hlen.imp And.left fun h => h.2.2)
      show Run cp (Except.bind (dooption _ _ _ _ _ _ _) _)
      cases hoption : dooption (env (cp.length : Int).toNat) dst pos opt n s cp with
      | error stop =>
        rw [hoption] at hwithin
        cases stop <;> exact hwithin
      | ok r =>
        rw [hoption] at hwithin
        have hkept : Kept n cp r.2 := hwithin
        have hrest := @ih (pos + n) (cp.drop n) r.1 (by rw [List.length_drop]; omega)
        rw [List.length_drop, Int.natCast_sub hle] at hrest
        show Run cp (Except.bind (dooptionsLoop env dst rounds (cp.length - n) (pos + n) r.1 (r.2.drop n)) _)
        rw [hkept.rest]
        cases hloop : dooptionsLoop env dst rounds (cp.length - n) (pos + n) r.1 (cp.drop n) with
        | error stop =>
          rw [hloop] at hrest
          cases stop <;> exact hrest
        | ok r' =>
          rw [hloop] at hrest
          exact Shaped.cons hkept hopt heol hle hlen hrest

theorem ipDooptions_cases {env : Nat → Env} {dst : InAddr} (hroom : Room hl options) :
    (∃ type code, ipDooptions env hl dst options = .error (.bad type code)) ∨
      ∃ r, ipDooptions env hl dst options = .ok r ∧ Shaped options r.options := by
  have hrun : Run options (dooptionsLoop env dst (options.length + 1) (4 * hl.toNat - 20) 20 ⟨dst, false, false, false, false, none⟩ options) := by
    rcases hroom.left with hcnt | ⟨rfl, hcnt⟩
    · rw [hcnt]
      exact dooptionsLoop_shaped (lt_succ_self options.length)
    have hparsed : Parsed [] [] [] := ⟨rfl, List.forall_mem_nil _, .inl rfl⟩
    rw [dooptionsLoop, if_neg hcnt]
    exact ⟨[], [], [], hparsed, hparsed, rfl, rfl⟩
  rw [ipDooptions]
  cases hloop : dooptionsLoop env dst (options.length + 1) (4 * hl.toNat - 20) 20 ⟨dst, false, false, false, false, none⟩ options with
  | error stop =>
    rw [hloop] at hrun
    cases stop with
    | bad type code => exact .inl ⟨type, code, rfl⟩
    | beyond => exact hrun.elim
    | assertion => exact hrun.elim
    | rounds => exact hrun.elim
  | ok r =>
    rw [hloop] at hrun
    dsimp only [bind, Except.bind]
    split_ifs
    · exact .inr ⟨_, rfl, hrun⟩
    · exact .inl ⟨_, _, rfl⟩
    · exact .inl ⟨_, _, rfl⟩
    · exact .inr ⟨_, rfl, hrun⟩

theorem asserted_kinds {opts opts' : List Opt} {tail : List Byte} (h : opts'.map kind = opts.map kind) (hassert : Asserted true opts tail) :
    Asserted true opts' tail := by
  intro hd htail o' ho'
  have hlast := congrArg List.getLast? h
  rw [List.getLast?_map, List.getLast?_map, ho'] at hlast
  obtain ⟨o, ho, hkind⟩ := map_eq_some_iff.mp hlast.symm
  rw [hassert hd htail o ho] at hkind
  cases o' with
  | nop => rfl
  | opt _ _ => cases hkind

theorem pcbopt_len {m m' : Opts} (h : pcbopt m cp = some m') : m'.len = m.len := by
  obtain ⟨olen, -, h⟩ := bind_eq_some_iff.mp h
  dsimp only at h
  split_ifs at h
  · obtain rfl := some.inj h
    rfl
  · obtain rfl := some.inj h
    rfl

theorem ipPcbopts_list {mget : Option (List Byte)} {sopt : List Byte} {m : Opts} (h : (ipPcbopts mget sopt).2 = some m) : m.list = [] := by
  have hlen : m.len = 4 := by
    unfold ipPcbopts at h
    split_ifs at h
    cases mget with
    | none => cases h
    | some data =>
      dsimp only at h
      split at h
      · cases h
      · next m' hm' =>
        obtain rfl := some.inj h
        exact pcbopt_len hm'
  rw [Opts.list, hlen, List.take_zero]

/-- **The copier and the checkers.** When `ip_dooptions` finds nothing bad, `ip_optcopy` comes to its end, within the header and with a
multiple of four, on the options as they were and as they are then; but one of its assertions fails exactly when the header ends with an
option that is not a NOP. What `ip_pcbopts` leaves is always copied. -/
theorem optcopy_checked {env : Nat → Env} {dst : InAddr} (hroom : Room hl options)
    (hgood : ∀ type code, ipDooptions env hl dst options ≠ .error (.bad type code)) :
    (∃ r, ipDooptions env hl dst options = .ok r ∧
      ∀ area ∈ [options, r.options], area.length = options.length ∧ (Copied true hl area ↔ ¬Filled options) ∧ Copied false hl area) ∧
    ∀ mget sopt m, (ipPcbopts mget sopt).2 = some m → Copied true (BitVec.ofNat 4 ((20 + m.list.length) / 4)) m.list := by
  constructor
  · obtain ⟨r, hr, opts, opts', tail, hparsed, hparsed', hkinds, hlen⟩ := (ipDooptions_cases hroom).resolve_left
      fun ⟨type, code, hbad⟩ => hgood type code hbad
    refine ⟨r, hr, ?_⟩
    have hroom' : Room hl r.options := hlen.trans hroom
    have hnone : ∀ {opts : List Opt}, Asserted false opts tail := fun hd => absurd hd Bool.false_ne_true
    rw [List.forall_mem_cons, List.forall_mem_singleton]
    refine ⟨⟨rfl, copied_iff hroom hparsed, copied_of_parsed hroom hparsed hnone⟩, hlen, ?_, copied_of_parsed hroom' hparsed' hnone⟩
    rw [copied_iff hroom' hparsed', ← asserted_iff hroom' hparsed', ← asserted_iff hroom hparsed]
    exact ⟨asserted_kinds hkinds.symm, asserted_kinds hkinds⟩
  · intro mget sopt m hm
    rw [ipPcbopts_list hm]
    exact ⟨[], rfl, zero_le _, rfl⟩

/-- What the lookups are in the two runs below: every address is that of an interface. -/
def localEnv : Env := ⟨true, true, some, some, some, true, some, #v[0, 0, 0, 7]⟩

/-- A source route behind a NOP, with the end of the list behind it: the packet is forwarded, and the route is copied as it is then. -/
theorem optcopy_checked_route : ∃ r, ipDooptions (fun _ => localEnv) 8 #v[10, 0, 0, 1] [1, 131, 7, 4, 10, 0, 0, 2, 0, 0, 0, 0] = .ok r ∧
    r.forwarded = true ∧ r.options = [1, 131, 7, 8, 10, 0, 0, 2, 0, 0, 0, 0] ∧
    ipOptcopy true 8 r.options = .ok [1, 131, 7, 8, 10, 0, 0, 2] ∧
    ∀ area ∈ [[1, 131, 7, 4, 10, 0, 0, 2, 0, 0, 0, 0], r.options], area.length = 12 ∧
      (Copied true 8 area ↔ ¬Filled [1, 131, 7, 4, 10, 0, 0, 2, 0, 0, 0, 0]) ∧ Copied false 8 area := by
  have hrun : ipDooptions (fun _ => localEnv) 8 #v[10, 0, 0, 1] [1, 131, 7, 4, 10, 0, 0, 2, 0, 0, 0, 0] =
      .ok ⟨#v[10, 0, 0, 2], [1, 131, 7, 8, 10, 0, 0, 2, 0, 0, 0, 0], true⟩ := by decide
  obtain ⟨r, hr, hareas⟩ := (@optcopy_checked _ 8 (fun _ => localEnv) #v[10, 0, 0, 1]
    (show Room 8 [1, 131, 7, 4, 10, 0, 0, 2, 0, 0, 0, 0] by decide) (by intro _ _ h; cases h)).1
  refine ⟨r, hr, ?_, ?_, ?_, hareas⟩
  all_goals
    obtain rfl := Except.ok.inj (hrun.symm.trans hr)
    decide

/-- Router alert, alone in the header: `ip_dooptions` finds nothing bad, and the assertion fails. -/
theorem optcopy_filled : Room 6 [148, 4, 0, 0] ∧
    ipDooptions (fun _ => localEnv) 6 #v[10, 0, 0, 1] [148, 4, 0, 0] = .ok ⟨#v[10, 0, 0, 1], [148, 4, 0, 0], false⟩ ∧
    ipOptcopy true 6 [148, 4, 0, 0] = .error .assertion := by
  decide

end NetBSD.Netinet.IpOptions
