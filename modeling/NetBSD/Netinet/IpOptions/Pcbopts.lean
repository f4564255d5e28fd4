import NetBSD.Netinet.IpOptions.Checked

/-! What `ip_pcbopts` leaves in `inp_options`, against what the options it was given say.

Both branches of the round end with a `break` of the loop, so that `m_len` is never raised: whatever is copied to the mbuf, nothing of it
is sent, and what stands behind the first option is not looked at. -/
namespace NetBSD.Netinet.IpOptions
open List Option
open IpFragment (Byte IPOPT_EOL IPOPT_NOP Opt render Parsed)

def isRoute : Opt → Bool
  | .nop => false
  | .opt type _ => type = IPOPT_LSRR ∨ type = IPOPT_SSRR

/-- An option as it is to be sent: a source route without its first hop. -/
def sentOption : Opt → Opt
  | .nop => .nop
  | .opt type data => .opt type (if isRoute (.opt type data) then data.take 1 ++ data.drop 5 else data)

def hopOf : Opt → List Byte
  | .nop => []
  | .opt _ data => (data.drop 1).take 4

/-- The first hop of the source route, 0 if there is none. -/
def firstHop (opts : List Opt) : List Byte := ((opts.find? isRoute).map hopOf).getD [0, 0, 0, 0]

/-- What is to be sent; `withEnd` is whether the byte that ends the list is part of it. -/
def sentList (withEnd : Bool) (opts : List Opt) (tail : List Byte) : List Byte :=
  render (opts.map sentOption) ++ if withEnd then tail.take 1 else []

/-- At most one option is a source route, and it has a hop. -/
def Routed (opts : List Opt) : Prop :=
  (opts.filter isRoute).length ≤ 1 ∧ ∀ type data, Opt.opt type data ∈ opts → isRoute (.opt type data) → 5 ≤ data.length

/-- `inp_options` stands for a first hop and a list; none at all stands for neither. -/
def Stores (hop list : List Byte) : Option Opts → Prop
  | none => hop = [0, 0, 0, 0] ∧ list = []
  | some m => m.data.take 4 = hop ∧ m.len = 4 + list.length ∧ m.list = list

/-- What the options say is stored, or they cannot be taken apart and are refused. -/
def StoredRight (withEnd : Bool) (sopt : List Byte) (r : Option Errno × Option Opts) : Prop :=
  (∀ opts tail, Parsed sopt opts tail → r.1 = none ∧ Stores (firstHop opts) (sentList withEnd opts tail) r.2) ∧
  ((∀ opts tail, ¬Parsed sopt opts tail) → r = (some .EINVAL, none))

/-- The first option is not whole, or is a source route without a hop. -/
def FirstBad (sopt : List Byte) : Prop :=
  ∀ olen ∈ pcboptLength sopt (sopt.headD 0), (sopt.headD 0 = IPOPT_LSRR ∨ sopt.headD 0 = IPOPT_SSRR) ∧ olen < IPOPT_OFFSET + 1 + 4

variable {sopt tail data : List Byte} {opts : List Opt} {o : Opt} {withEnd : Bool}

theorem bytes_ne_nil : o.bytes ≠ [] := by cases o <;> exact cons_ne_nil _ _

theorem pcboptLength_bytes (hok : o.Ok) (rest : List Byte) : pcboptLength (o.bytes ++ rest) ((o.bytes ++ rest).headD 0) = some o.bytes.length := by
  cases o with
  | nop => exact if_pos (.inr rfl)
  | opt type data =>
    obtain ⟨heol, hnop, hlen⟩ := hok
    have holen : (BitVec.ofNat 8 (data.length + 2)).toNat = data.length + 2 := by
      rw [BitVec.toNat_ofNat, Nat.mod_eq_of_lt hlen]
    have hcnt : (Opt.bytes (.opt type data) ++ rest).length = data.length + 2 + rest.length := by
      rw [length_append]
      rfl
    refine (if_neg (not_or.mpr ⟨heol, hnop⟩)).trans ((if_neg ?_).trans ((if_neg ?_).trans ?_))
    · rw [IPOPT_OLEN]
      omega
    · change ¬((BitVec.ofNat 8 (data.length + 2)).toNat < _ ∨ (BitVec.ofNat 8 (data.length + 2)).toNat > _)
      rw [IPOPT_OLEN]
      omega
    · exact congrArg some holen

theorem not_firstBad_bytes (hok : o.Ok) (hhop : ∀ type data, o = .opt type data → isRoute o → 5 ≤ data.length) (rest : List Byte) :
    ¬FirstBad (o.bytes ++ rest) := by
  intro hbad
  obtain ⟨hroute, hlt⟩ := hbad _ (pcboptLength_bytes hok rest)
  cases o with
  | nop => exact absurd hroute (by decide : ¬(IPOPT_NOP = IPOPT_LSRR ∨ IPOPT_NOP = IPOPT_SSRR))
  | opt type data =>
    have hle := hhop type data rfl (decide_eq_true hroute)
    change data.length + 1 + 1 < 7 at hlt
    omega

theorem pcboptLength_parsed (h : Parsed sopt opts tail) : pcboptLength sopt (sopt.headD 0) ≠ none := by
  rw [h.bytes]
  cases opts with
  | nil =>
    obtain rfl | ⟨rest, rfl⟩ := h.eol
    · exact some_ne_none 1
    · exact some_ne_none 1
  | cons o opts =>
    rw [IpFragment.render_cons, append_assoc, pcboptLength_bytes (h.ok o mem_cons_self)]
    exact some_ne_none _

theorem Parsed.not_firstBad (h : Parsed sopt opts tail) (hrouted : Routed opts) : ¬FirstBad sopt := by
  rw [h.bytes]
  cases opts with
  | nil =>
    intro hbad
    obtain rfl | ⟨rest, rfl⟩ := h.eol
    · exact absurd (hbad 1 rfl).1 (by decide)
    · exact absurd (hbad 1 rfl).1 (by decide : ¬(IPOPT_EOL = IPOPT_LSRR ∨ IPOPT_EOL = IPOPT_SSRR))
  | cons o opts =>
    rw [IpFragment.render_cons, append_assoc]
    refine not_firstBad_bytes (h.ok o mem_cons_self) (fun type data heq hroute => ?_) _
    exact hrouted.2 type data (heq ▸ mem_cons_self) (heq ▸ hroute)

theorem pcbopt_eq_none (h40 : sopt.length ≤ MAX_IPOPTLEN) {m : Opts} (hm : m.len = 4) : pcbopt m sopt = none ↔ FirstBad sopt := by
  rw [pcbopt, FirstBad]
  cases hlen : pcboptLength sopt (sopt.headD 0) with
  | none => exact iff_of_true rfl fun _ h => absurd h (not_mem_none _)
  | some olen =>
    have hle : olen ≤ max 1 sopt.length := by
      unfold pcboptLength at hlen
      dsimp only at hlen
      split_ifs at hlen
      · obtain rfl := some.inj hlen
        exact le_max_left _ _
      · obtain rfl := some.inj hlen
        omega
    have hroom : ∀ n ≤ olen, ¬m.len + n > MAX_IPOPTLEN + 4 := by
      rw [MAX_IPOPTLEN] at *
      omega
    rw [bind_some]
    simp only [mem_some_iff, forall_eq']
    by_cases hroute : sopt.headD 0 = IPOPT_LSRR ∨ sopt.headD 0 = IPOPT_SSRR
    · by_cases hhop : olen < IPOPT_OFFSET + 1 + 4
      · exact iff_of_true (by rw [if_pos hroute, if_pos hhop]) ⟨hroute, hhop⟩
      rw [if_pos hroute, if_neg hhop]
      refine iff_of_false ?_ fun h => hhop h.2
      exact (if_neg (hroom _ (Nat.sub_le _ _))).trans_ne (some_ne_none _)
    · rw [if_neg hroute, if_neg (hroom _ (le_refl _))]
      exact iff_of_false (some_ne_none _) fun h => hroute h.1

theorem ipPcbopts_refused (h4 : sopt.length % 4 = 0) (h40 : sopt.length ≤ MAX_IPOPTLEN) (hne : sopt ≠ []) :
    ipPcbopts (some data) sopt = (some .EINVAL, none) ↔ FirstBad sopt := by
  rw [← pcbopt_eq_none h40 (m := (⟨data, 4⟩ : Opts).write 0 [0, 0, 0, 0]) rfl, ipPcbopts,
    if_neg (mt eq_nil_of_length_eq_zero hne), if_neg (not_not.mpr h4)]
  cases pcbopt ((⟨data, 4⟩ : Opts).write 0 [0, 0, 0, 0]) sopt with
  | none => exact iff_of_true rfl rfl
  | some m => exact iff_of_false (fun h => some_ne_none _ (congrArg Prod.fst h).symm) (some_ne_none m)

theorem sentList_eq_nil (heol : tail = [] ∨ ∃ rest, tail = IPOPT_EOL :: rest) :
    sentList withEnd opts tail = [] ↔ opts = [] ∧ (withEnd = true → tail = []) := by
  rw [sentList, append_eq_nil_iff]
  refine and_congr ?_ ?_
  · cases opts with
    | nil => exact iff_of_true rfl rfl
    | cons o opts =>
      rw [map_cons, IpFragment.render_cons, append_eq_nil_iff]
      exact iff_of_false (fun h => bytes_ne_nil h.1) (cons_ne_nil _ _)
  cases withEnd with
  | false => exact iff_of_true rfl fun h => absurd h Bool.false_ne_true
  | true =>
    obtain rfl | ⟨rest, rfl⟩ := heol
    · exact iff_of_true rfl fun _ => rfl
    · exact iff_of_false (cons_ne_nil _ _) fun h => cons_ne_nil _ _ (h rfl)

theorem Stores.list_nil {hop list : List Byte} {mget : Option (List Byte)} (h : Stores hop list (ipPcbopts mget sopt).2) : list = [] := by
  cases hm : (ipPcbopts mget sopt).2 with
  | none =>
    rw [hm] at h
    exact h.2
  | some m =>
    rw [hm] at h
    exact h.2.2.symm.trans (ipPcbopts_list hm)

theorem ipPcbopts_end (h4 : sopt.length % 4 = 0) (heol : sopt.head? = some IPOPT_EOL) :
    (ipPcbopts (some data) sopt).1 = none ∧ Stores [0, 0, 0, 0] [] (ipPcbopts (some data) sopt).2 := by
  cases sopt with
  | nil => cases heol
  | cons b rest =>
    obtain rfl := some.inj heol
    rw [ipPcbopts, if_neg (not_not.mpr h4)]
    exact ⟨rfl, rfl, rfl, rfl⟩

/-- Only an empty list is stored as it was given: nothing, or the end of the list where that is no part of it. Of the lists that cannot be
taken apart those are refused whose first option is bad. -/
theorem pcbopts_stored (withEnd : Bool) (data : List Byte) (h4 : sopt.length % 4 = 0) (h40 : sopt.length ≤ MAX_IPOPTLEN)
    (hrouted : ∀ opts tail, Parsed sopt opts tail → Routed opts) :
    StoredRight withEnd sopt (ipPcbopts (some data) sopt) ↔ sopt = [] ∨ (withEnd = false ∧ sopt.head? = some IPOPT_EOL) ∨ FirstBad sopt := by
  constructor
  · intro hright
    by_cases hparse : ∀ opts tail, ¬Parsed sopt opts tail
    · by_cases hne : sopt = []
      · exact .inl hne
      · exact .inr (.inr ((ipPcbopts_refused h4 h40 hne).mp (hright.2 hparse)))
    push Not at hparse
    obtain ⟨opts, tail, hparsed⟩ := hparse
    obtain ⟨rfl, hend⟩ := (sentList_eq_nil hparsed.eol).mp (hright.1 opts tail hparsed).2.list_nil
    have htail : sopt = tail := hparsed.bytes
    obtain hnil | ⟨rest, hrest⟩ := hparsed.eol
    · exact .inl (htail.trans hnil)
    refine .inr (.inl ⟨Bool.eq_false_iff.mpr fun htrue => ?_, ?_⟩)
    · exact cons_ne_nil _ _ (hrest.symm.trans (hend htrue))
    · rw [htail, hrest, head?_cons]
  rintro (rfl | ⟨rfl, heol⟩ | hbad)
  · refine ⟨fun opts tail hparsed => ⟨rfl, ?_⟩, fun hparse => ?_⟩
    · obtain ⟨hrender, rfl⟩ := append_eq_nil_iff.mp hparsed.bytes.symm
      obtain rfl : opts = [] := by
        cases opts with
        | nil => rfl
        | cons o opts =>
          rw [IpFragment.render_cons, append_eq_nil_iff] at hrender
          exact absurd hrender.1 bytes_ne_nil
      exact ⟨rfl, (sentList_eq_nil (.inl rfl)).mpr ⟨rfl, fun _ => rfl⟩⟩
    · exact absurd ⟨rfl, forall_mem_nil _, .inl rfl⟩ (hparse [] [])
  · refine ⟨fun opts tail hparsed => ?_, fun hparse => ?_⟩
    · obtain rfl : opts = [] := by
        cases opts with
        | nil => rfl
        | cons o opts =>
          rw [hparsed.bytes] at heol
          cases o with
          | nop => exact absurd (some.inj heol) (by decide)
          | opt type data => exact absurd (some.inj heol) (hparsed.ok _ mem_cons_self).1
      exact ipPcbopts_end h4 heol
    · cases sopt with
      | nil => cases heol
      | cons b rest =>
        obtain rfl := some.inj heol
        exact absurd ⟨rfl, forall_mem_nil _, .inr ⟨rest, rfl⟩⟩ (hparse [] _)
  · have hne : sopt ≠ [] := by
      rintro rfl
      exact absurd (hbad 1 rfl).1 (by decide)
    exact ⟨fun opts tail hparsed => absurd hbad (Parsed.not_firstBad hparsed (hrouted opts tail hparsed)),
      fun _ => (ipPcbopts_refused h4 h40 hne).mpr hbad⟩

/-- A time stamp that is longer than the list. -/
theorem pcbopts_stored_short : StoredRight true [68, 9, 0, 0] (ipPcbopts (some (replicate 44 0)) [68, 9, 0, 0]) := by
  refine (pcbopts_stored true _ (by decide) (by decide) fun opts tail h => ?_).mpr (.inr (.inr fun olen h => ?_))
  · exact absurd (by decide) (pcboptLength_parsed h)
  · exact absurd h (by simp [pcboptLength, IPOPT_EOL, IPOPT_NOP, IPOPT_OLEN])

/-- A source route with one hop and the end of the list: the hop is stored, and no option. -/
theorem pcbopts_stored_nothing : (∃ opts tail, Parsed [131, 7, 4, 10, 0, 0, 2, 0] opts tail ∧ Routed opts) ∧
    ∀ withEnd, ¬StoredRight withEnd [131, 7, 4, 10, 0, 0, 2, 0] (ipPcbopts (some (replicate 44 0)) [131, 7, 4, 10, 0, 0, 2, 0]) := by
  have hparsed : Parsed [131, 7, 4, 10, 0, 0, 2, 0] [.opt 131 [4, 10, 0, 0, 2]] [0] :=
    ⟨by decide, by decide, .inr ⟨[], rfl⟩⟩
  refine ⟨⟨_, _, hparsed, by decide, ?_⟩, fun withEnd hright => ?_⟩
  · intro type data hmem _
    obtain rfl := (Opt.opt.inj (mem_singleton.mp hmem)).2
    exact le_refl 5
  · exact cons_ne_nil _ _ ((sentList_eq_nil hparsed.eol).mp (hright.1 _ _ hparsed).2.list_nil).1

end NetBSD.Netinet.IpOptions
