import NetBSD.Kern.UipcSocket2.Appends

/-! What sbdrop, sbdroprecord and sbflush leave.

`dropQueue` is the queue without its first bytes: the record in which they end is cut, or gone if no byte of it is left.
The empty mbufs in front go with them, so that each round of sbflush takes at least one record. -/
namespace NetBSD.Kern.UipcSocket2
open List Nat

/-! ### Within a record -/

def trim (len : Nat) : List Mbuf → List Mbuf
  | [] => []
  | m :: rest =>
    if len = 0 then m :: rest
    else if m.len > len then { m with data := m.data.drop len } :: rest
    else trim (len - m.len) rest

theorem bytes_trim (r : List Mbuf) : ∀ len, bytes (trim len r) = (bytes r).drop len := by
  induction r with
  | nil => simp [trim]
  | cons m r ih =>
    intro len
    rw [trim]
    split
    · next h => rw [h, drop_zero]
    split
    · next h => rw [bytes_cons, bytes_cons, drop_append_of_le_length (le_of_lt h)]
    · next h =>
      rw [ih, bytes_cons, drop_append, drop_eq_nil_of_le (Nat.not_lt.mp h), nil_append, Mbuf.len]

theorem trim_eq_nil (r : List Mbuf) : ∀ len, size r < len → trim len r = [] := by
  induction r with
  | nil => exact fun _ _ => rfl
  | cons m r ih =>
    intro len h
    rw [size_cons] at h
    rw [trim, if_neg (by omega), if_neg (by omega), ih _ (by omega)]

theorem dropMbufs_eq (r : List Mbuf) : ∀ (sb : Sockbuf) (len k j : Nat), sb.cc = size r + k → sb.mbcnt = storage r + j → dropMbufs sb len r =
      ({ sb with cc := size (trim len r) + k, mbcnt := storage (trim len r) + j }, len - size r, trim len r) := by
  induction r with
  | nil =>
    intro sb len k j hcc hcnt
    rw [dropMbufs, trim, ← hcc, ← hcnt, size_nil, Nat.sub_zero]
  | cons m r ih =>
    intro sb len k j hcc hcnt
    rw [dropMbufs, trim]
    split
    · next h => simp only [h, ← hcc, ← hcnt, Nat.zero_sub]
    split
    · next h =>
      have hdrop : size ({ m with data := m.data.drop len } :: r) + len = size (m :: r) := by
        rw [size_cons, size_cons, Mbuf.len, length_drop, Mbuf.len]
        rw [Mbuf.len] at h
        omega
      have hsub : len - size (m :: r) = 0 := by
        omega
      have hcc' : sb.cc - len = size ({ m with data := m.data.drop len } :: r) + k := by omega
      simp only [hsub, hcc', hcnt]
      rfl
    · next h =>
      rw [size_cons] at hcc ⊢
      rw [storage_cons] at hcnt
      rw [ih (sbfree sb m) (len - m.len) k j (by simp only [sbfree]; omega) (by simp only [sbfree]; omega), Nat.sub_sub]
      rfl

theorem dropEmpty_eq (r : List Mbuf) : ∀ (sb : Sockbuf) (k j : Nat), sb.cc = size r + k → sb.mbcnt = storage r + j →
    dropEmpty sb r = ({ sb with cc := size (r.dropWhile (·.len = 0)) + k, mbcnt := storage (r.dropWhile (·.len = 0)) + j },
      r.dropWhile (·.len = 0)) := by
  induction r with
  | nil =>
    intro sb k j hcc hcnt
    simp only [dropEmpty, dropWhile_nil, ← hcc, ← hcnt]
  | cons m r ih =>
    intro sb k j hcc hcnt
    rw [dropEmpty]
    split
    · next h =>
      rw [size_cons] at hcc
      rw [storage_cons] at hcnt
      rw [ih (sbfree sb m) k j (by simp only [sbfree]; omega) (by simp only [sbfree]; omega), dropWhile_cons_of_pos (by simpa using h)]
      rfl
    · next h =>
      rw [dropWhile_cons_of_neg (by simpa using h), ← hcc, ← hcnt]

/-- The part of a record behind its first bytes. -/
def left (len : Nat) (r : Record) : Record :=
  match (trim len r).dropWhile (·.len = 0) with
  | [] => []
  | m :: rest => { m with nextpkt := none } :: rest

theorem bytes_dropEmpty (r : List Mbuf) : bytes (r.dropWhile (·.len = 0)) = bytes r := by
  induction r with
  | nil => rfl
  | cons m r ih =>
    by_cases h : m.len = 0
    · rw [dropWhile_cons_of_pos (by simpa using h), ih, bytes_cons, eq_nil_of_length_eq_zero h, nil_append]
    · rw [dropWhile_cons_of_neg (by simpa using h)]

theorem dropEmpty_eq_nil {r : List Mbuf} (h : size r = 0) : r.dropWhile (·.len = 0) = [] := by
  induction r with
  | nil => rfl
  | cons m r ih =>
    rw [size_cons, Nat.add_eq_zero_iff] at h
    rw [dropWhile_cons_of_pos (by simpa using h.1), ih h.2]

theorem bytes_left (len : Nat) (r : Record) : bytes (left len r) = (bytes r).drop len := by
  rw [← bytes_trim, ← bytes_dropEmpty (trim len r), left]
  cases (trim len r).dropWhile (·.len = 0) <;> rfl

theorem left_ne_nil {len : Nat} {r : Record} (h : len < size r) : left len r ≠ [] := by
  intro hnil
  have hlen := congrArg List.length (bytes_left len r)
  rw [hnil, bytes_nil, length_nil, length_drop, length_bytes] at hlen
  omega

theorem left_cases (len : Nat) (r : Record) :
    left len r = [] ∨ ∃ x rest d p, x :: rest <:+ r ∧ left len r = { x with data := d, nextpkt := p } :: rest := by
  have htrim : ∀ (r : Record) (len : Nat), trim len r = [] ∨ ∃ x rest d, x :: rest <:+ r ∧ trim len r = { x with data := d } :: rest := by
    intro r
    induction r with
    | nil => exact fun _ => .inl rfl
    | cons m r ih =>
      intro len
      rw [trim]
      split
      · exact .inr ⟨m, r, m.data, suffix_rfl, rfl⟩
      split
      · exact .inr ⟨m, r, m.data.drop len, suffix_rfl, rfl⟩
      rcases ih (len - m.len) with h | ⟨x, rest, d, hsuf, h⟩
      · exact .inl h
      · exact .inr ⟨x, rest, d, hsuf.trans (suffix_cons m r), h⟩
  rw [left]
  cases hd : (trim len r).dropWhile (·.len = 0) with
  | nil => exact .inl rfl
  | cons m rest =>
    have hsuf : m :: rest <:+ trim len r := hd ▸ dropWhile_suffix _
    rcases htrim r len with h | ⟨x, rest', d, hx, h⟩
    · rw [h] at hsuf
      exact absurd (suffix_nil.mp hsuf) (cons_ne_nil _ _)
    rw [h, suffix_cons_iff] at hsuf
    rcases hsuf with heq | hsuf
    · cases heq
      exact .inr ⟨x, rest, d, none, hx, rfl⟩
    · exact .inr ⟨m, rest, m.data, none, (hsuf.trans (suffix_cons x rest')).trans hx, rfl⟩

theorem left_addrs (len : Nat) (r : Record) : ((left len r).map Mbuf.addr).Sublist (r.map Mbuf.addr) := by
  rcases left_cases len r with h | ⟨x, rest, d, p, hsuf, h⟩
  · rw [h]
    exact nil_sublist _
  · rw [h]
    exact hsuf.sublist.map Mbuf.addr

theorem left_last {len : Nat} {r : Record} (h : len < size r) : Record.last (left len r) = Record.last r := by
  rcases left_cases len r with hnil | ⟨x, rest, d, p, ⟨pre, rfl⟩, heq⟩
  · exact absurd hnil (left_ne_nil h)
  rw [heq]
  cases rest with
  | nil => simp [Record.last]
  | cons y rest =>
    have hne : y :: rest ≠ [] := cons_ne_nil _ _
    simp [Record.last, getLast?_append_of_ne_nil _ (cons_ne_nil _ _), getLast?_cons_of_ne_nil hne]

theorem left_tail (len : Nat) (r : Record) : ∀ x ∈ (left len r).tail, x ∈ r.tail := by
  rcases left_cases len r with h | ⟨x, rest, d, p, ⟨pre, rfl⟩, h⟩
  · simp [h]
  rw [h]
  intro y hy
  cases pre with
  | nil => exact hy
  | cons z pre => exact mem_append_right _ (mem_cons_of_mem _ hy)

/-! ### Over the records -/

def dropQueue (len : Nat) : List Record → List Record
  | [] => []
  | r :: next =>
    if size r < len then dropQueue (len - size r) next
    else if size r = len then next
    else left len r :: next

theorem dropQueue_cases (q : List Record) : ∀ len, dropQueue len q <:+ q ∨
    ∃ r next k, r :: next <:+ q ∧ k < size r ∧ dropQueue len q = left k r :: next := by
  induction q with
  | nil => exact fun _ => .inl suffix_rfl
  | cons r next ih =>
    intro len
    rw [dropQueue]
    split
    · rcases ih (len - size r) with h | ⟨s, rest, k, hsuf, hk, h⟩
      · exact .inl (h.trans (suffix_cons r next))
      · exact .inr ⟨s, rest, k, hsuf.trans (suffix_cons r next), hk, h⟩
    · split
      · exact .inl (suffix_cons r next)
      · exact .inr ⟨r, next, len, suffix_rfl, by omega, rfl⟩

theorem addrs_suffix {p q : List Record} (h : p <:+ q) : (addrs p).Sublist (addrs q) := by
  obtain ⟨pre, rfl⟩ := h
  rw [addrs_append]
  exact sublist_append_right _ _

theorem dropQueue_addrs (len : Nat) (q : List Record) : (addrs (dropQueue len q)).Sublist (addrs q) := by
  rcases dropQueue_cases q len with h | ⟨r, next, k, hsuf, -, h⟩
  · exact addrs_suffix h
  rw [h, addrs_cons]
  refine ((left_addrs k r).append_right _).trans ?_
  rw [← addrs_cons]
  exact addrs_suffix hsuf

section
variable {len : Nat} {q : List Record}

theorem dropQueue_nonempty (hq : [] ∉ q) : [] ∉ dropQueue len q := by
  rcases dropQueue_cases q len with h | ⟨r, next, k, hsuf, hk, h⟩
  · exact fun hmem => hq (h.mem hmem)
  · rw [h, mem_cons, not_or]
    exact ⟨(left_ne_nil hk).symm, fun hmem => hq (hsuf.mem (mem_cons_of_mem _ hmem))⟩

theorem dropQueue_last (hne : dropQueue len q ≠ []) : (dropQueue len q).getLast?.bind Record.last = q.getLast?.bind Record.last := by
  rcases dropQueue_cases q len with ⟨pre, h⟩ | ⟨r, next, k, ⟨pre, rfl⟩, hk, h⟩
  · conv_rhs => rw [← h]
    rw [getLast?_append_of_ne_nil _ hne]
  rw [h, getLast?_append_of_ne_nil _ (cons_ne_nil _ _)]
  cases next with
  | nil => simpa using left_last hk
  | cons s next => rw [getLast?_cons_cons, getLast?_cons_cons]

theorem dropQueue_first {r s : Record} {rest : List Record} (h : dropQueue len q = r :: s :: rest) : (r :: s :: rest).getLast? = q.getLast? := by
  rcases dropQueue_cases q len with ⟨pre, h'⟩ | ⟨r', next, k, ⟨pre, rfl⟩, hk, h'⟩
  · rw [← h', h, getLast?_append_of_ne_nil _ (cons_ne_nil _ _)]
  rw [h] at h'
  cases h'
  rw [getLast?_append_of_ne_nil _ (cons_ne_nil _ _), getLast?_cons_cons, getLast?_cons_cons]

end

theorem size_dropQueue (q : List Record) : ∀ len, len ≤ size q.flatten → size (dropQueue len q).flatten + len = size q.flatten := by
  induction q with
  | nil =>
    intro len h
    simp [dropQueue, le_zero.mp h]
  | cons r next ih =>
    intro len h
    rw [flatten_cons, size_append] at h ⊢
    rw [dropQueue]
    split
    · have hsize := ih (len - size r) (by omega)
      omega
    split
    · omega
    · rw [flatten_cons, size_append, ← length_bytes, bytes_left, length_drop, length_bytes]
      omega

/-- The two loops of sbdrop, with the counters in step. -/
theorem dropRecords_eq (q : List Record) : ∀ (sb : Sockbuf) (len : Nat), sb.cc = size q.flatten → sb.mbcnt = storage q.flatten →
    len ≤ size q.flatten → ∃ m next, dropRecords sb len q =
      some ({ sb with cc := size m + size next.flatten, mbcnt := storage m + storage next.flatten }, m, next) ∧
      dropQueue len q = setFront next (m.dropWhile (·.len = 0)) := by
  induction q with
  | nil =>
    intro sb len hcc hcnt hlen
    refine ⟨[], [], ?_, rfl⟩
    rw [dropRecords, if_pos (le_zero.mp hlen)]
    have hsb : { sb with cc := 0, mbcnt := 0 } = sb := by
      cases sb
      simp_all
    conv_lhs => rw [← hsb]
    rfl
  | cons r next ih =>
    intro sb len hcc hcnt hlen
    rw [flatten_cons, size_append] at hcc hlen
    rw [flatten_cons, storage_append] at hcnt
    have hsize : size (trim len r) = size r - len := by
      rw [← length_bytes, bytes_trim, length_drop, length_bytes]
    rw [dropRecords, dropMbufs_eq r sb len _ _ hcc hcnt, dropQueue]
    cases hm : trim len r with
    | nil =>
      rw [hm, size_nil] at hsize
      dsimp only
      by_cases hr : len - size r = 0
      · have heq : size r = len := by omega
        refine ⟨[], next, ?_, ?_⟩
        · rw [if_pos hr]
        · rw [if_neg (by omega), if_pos heq]
          rfl
      obtain ⟨m, next', hrun, hq⟩ := ih { sb with cc := size [] + size next.flatten, mbcnt := storage [] + storage next.flatten }
        (len - size r) (by simp) (by simp) (by omega)
      refine ⟨m, next', ?_, ?_⟩
      · rw [if_neg hr]
        exact hrun
      · rw [if_pos (by omega)]
        exact hq
    | cons x rest =>
      refine ⟨x :: rest, next, rfl, ?_⟩
      have hle : ¬size r < len := fun h => cons_ne_nil x rest (hm ▸ trim_eq_nil r len h)
      rw [if_neg hle]
      split
      · next heq =>
        have hempty : (x :: rest).dropWhile (·.len = 0) = [] := by
          apply dropEmpty_eq_nil
          rw [← hm, hsize, heq, Nat.sub_self]
        rw [hempty]
        rfl
      · next hne =>
        have hleft := @left_ne_nil len r (by omega)
        rw [left, hm] at hleft ⊢
        cases hd : (x :: rest).dropWhile (·.len = 0) with
        | nil =>
          rw [hd] at hleft
          exact absurd rfl hleft
        | cons y rest' => rfl

theorem sbdrop_eq {sb : Sockbuf} {len : Int} (h : Base sb) (hlen : len.toNat ≤ size sb.mb.flatten) :
    ∃ sb', sbdrop sb len = some sb' ∧ Base sb' ∧ sb'.mb = dropQueue len.toNat sb.mb ∧
      sb'.mbtail = if dropQueue len.toNat sb.mb = [] then none else sb.mbtail := by
  obtain ⟨m, next, hrun, hq⟩ := dropRecords_eq sb.mb sb len.toNat h.cc h.mbcnt hlen
  have hcc : size (m.dropWhile (·.len = 0)) + size next.flatten = size (dropQueue len.toNat sb.mb).flatten := by
    rw [hq]
    cases m.dropWhile (·.len = 0) with
    | nil => rw [size_nil, zero_add, setFront]
    | cons x rest =>
      rw [setFront, flatten_cons, size_append]
      rfl
  have hcnt : storage (m.dropWhile (·.len = 0)) + storage next.flatten = storage (dropQueue len.toNat sb.mb).flatten := by
    rw [hq]
    cases m.dropWhile (·.len = 0) with
    | nil => rw [storage_nil, zero_add, setFront]
    | cons x rest =>
      rw [setFront, flatten_cons, storage_append]
      rfl
  have hnodup := (dropQueue_addrs len.toNat sb.mb).nodup h.nodup
  have hne := @dropQueue_nonempty len.toNat sb.mb h.nonempty
  have hempty := dropEmpty_eq m { sb with cc := size m + size next.flatten, mbcnt := storage m + storage next.flatten } _ _ rfl rfl
  simp only [sbdrop, hrun, Option.map_some, hempty, ← hq, hcc, hcnt]
  cases hd : dropQueue len.toNat sb.mb with
  | nil => exact ⟨_, rfl, ⟨nodup_nil, not_mem_nil, rfl, rfl, rfl, fun _ => rfl⟩, rfl, rfl⟩
  | cons r rest =>
    rw [hd] at hnodup hne
    cases rest with
    | nil => exact ⟨_, rfl, ⟨hnodup, hne, rfl, rfl, rfl, fun h => absurd h (cons_ne_nil _ _)⟩, rfl, rfl⟩
    | cons s rest =>
      refine ⟨_, rfl, ⟨hnodup, hne, rfl, rfl, ?_, fun h => absurd h (cons_ne_nil _ _)⟩, rfl, rfl⟩
      rw [h.lastrecord, dropQueue_first hd]

theorem sbdroprecord_eq {sb : Sockbuf} (h : Base sb) : Base (sbdroprecord sb) ∧ (sbdroprecord sb).mb = sb.mb.tail ∧
    (sbdroprecord sb).mbtail = if sb.mb.tail = [] then none else sb.mbtail := by
  cases hmb : sb.mb with
  | nil =>
    have hlast := h.lastrecord
    have htail := h.empty hmb
    have hsb : sbdroprecord sb = sb := by
      cases sb
      simp_all [sbdroprecord, emptyFixup]
    rw [hsb, hmb, htail]
    exact ⟨h, rfl, rfl⟩
  | cons r q =>
    have hcc := h.cc
    have hcnt := h.mbcnt
    have hnodup := h.nodup
    have hne := h.nonempty
    have hlast := h.lastrecord
    rw [hmb, flatten_cons, size_append] at hcc
    rw [hmb, flatten_cons, storage_append] at hcnt
    rw [hmb, addrs_cons] at hnodup
    rw [hmb, mem_cons, not_or] at hne
    rw [hmb] at hlast
    simp only [sbdroprecord, hmb, foldl_sbfree, emptyFixup, tail_cons]
    split
    · next hq =>
      subst hq
      refine ⟨⟨nodup_nil, not_mem_nil, ?_, ?_, rfl, fun _ => rfl⟩, rfl, rfl⟩
      · simp [hcc]
      · simp [hcnt]
    · next hq =>
      refine ⟨⟨(nodup_append.mp hnodup).2.1, hne.2, ?_, ?_, ?_, fun h => absurd h hq⟩, rfl, (if_neg hq).symm⟩
      · show sb.cc - size r = size q.flatten
        omega
      · show sb.mbcnt - storage r = storage q.flatten
        omega
      · rw [hlast, getLast?_cons_of_ne_nil hq]

/-! ### sbflush -/

theorem storage_pos {r : List Mbuf} (h : r ≠ []) : 0 < storage r := by
  cases r with
  | nil => exact absurd rfl h
  | cons m r =>
    rw [storage_cons, Mbuf.storage, MSIZE]
    omega

section
variable {sb : Sockbuf} (h : Base sb)
include h

theorem Base.mbcnt_eq_zero : sb.mbcnt = 0 ↔ sb.mb = [] := by
  constructor
  · intro hzero
    cases hmb : sb.mb with
    | nil => rfl
    | cons r q =>
      have hr : r ≠ [] := fun hr => h.nonempty (by rw [hmb, hr]; exact mem_cons_self)
      have hpos := storage_pos hr
      have hcnt := h.mbcnt
      rw [hmb, flatten_cons, storage_append] at hcnt
      omega
  · intro hnil
    rw [h.mbcnt, hnil]
    rfl

theorem Base.mbcnt_ne_zero (hcc : 2 ^ 31 ≤ sb.cc) : sb.mbcnt ≠ 0 := by
  intro hzero
  rw [h.cc, h.mbcnt_eq_zero.mp hzero] at hcc
  exact absurd hcc (by decide)

theorem Base.flushed (hmb : sb.mb = []) : sb.cc = 0 ∧ sb.mb = [] ∧ sb.mbtail = none ∧ sb.lastrecord = none := by
  refine ⟨?_, hmb, h.empty hmb, ?_⟩
  · rw [h.cc, hmb]
    rfl
  · rw [h.lastrecord, hmb]
    rfl

end

theorem toInt_eq (n : Nat) : toInt n = if n % 4294967296 < 2147483648 then ((n % 4294967296 : Nat) : Int)
    else ((n % 4294967296 : Nat) : Int) - 4294967296 := by
  have h : toInt n = (n : Int).bmod 4294967296 := rfl
  rw [h, Int.bmod_def]
  split <;> split <;> omega

theorem toInt_small {n : Nat} (h : n < 2 ^ 31) : (toInt n).toNat = n := by
  rw [toInt_eq]
  split <;> omega

theorem toInt_large {n : Nat} (h : 2 ^ 31 ≤ n) : (toInt n).toNat ≤ n ∧ 2 ^ 31 ≤ n - (toInt n).toNat := by
  rw [toInt_eq]
  split <;> omega

theorem dropQueue_shorter {q : List Record} (h : q ≠ []) : (dropQueue (size q.flatten) q).length < q.length := by
  have hshort : ∀ (q : List Record) len, size q.flatten ≤ len → q ≠ [] → (dropQueue len q).length < q.length := by
    intro q
    induction q with
    | nil => exact fun _ _ h => absurd rfl h
    | cons r q ih =>
      intro len hlen _
      rw [flatten_cons, size_append] at hlen
      rw [dropQueue]
      split
      · cases q with
        | nil => exact zero_lt_succ _
        | cons s q => exact lt_succ_of_lt (ih _ (by omega) (cons_ne_nil _ _))
      · rw [if_pos (by omega)]
        exact lt_succ_self _
  exact hshort q _ (le_refl _) h

theorem sbflush_ends (rounds : Nat) : ∀ sb : Sockbuf, Base sb → sb.cc < 2 ^ 31 → sb.mb.length ≤ rounds →
    ∃ sb', sbflush rounds sb = some sb' ∧ Base sb' ∧ sb'.mb = [] ∧ sb'.mbtail = none := by
  induction rounds with
  | zero =>
    intro sb h _ hlen
    have hnil := eq_nil_of_length_eq_zero (le_zero.mp hlen)
    refine ⟨sb, ?_, h, hnil, h.empty hnil⟩
    rw [sbflush.eq_def, if_pos (h.mbcnt_eq_zero.mpr hnil), if_pos (h.flushed hnil)]
  | succ rounds ih =>
    intro sb h hcc hlen
    by_cases hnil : sb.mb = []
    · refine ⟨sb, ?_, h, hnil, h.empty hnil⟩
      rw [sbflush.eq_def, if_pos (h.mbcnt_eq_zero.mpr hnil), if_pos (h.flushed hnil)]
    have hdrop : (toInt sb.cc).toNat = size sb.mb.flatten := by rw [toInt_small hcc, h.cc]
    obtain ⟨sb₁, hrun, hbase, hmb, -⟩ := sbdrop_eq h (le_of_eq hdrop)
    rw [hdrop] at hmb
    have hshort := dropQueue_shorter hnil
    have hsize := size_dropQueue sb.mb _ (le_refl _)
    obtain ⟨sb', hend, hsb'⟩ := ih sb₁ hbase (by rw [hbase.cc, hmb]; omega) (by rw [hmb]; omega)
    refine ⟨sb', ?_, hsb'⟩
    rw [sbflush.eq_def, if_neg (fun hz => hnil (h.mbcnt_eq_zero.mp hz))]
    show (sbdrop sb (toInt sb.cc)).bind (sbflush rounds) = some sb'
    rw [hrun, Option.bind_some, hend]

theorem sbflush_stuck (rounds : Nat) : ∀ sb : Sockbuf, Base sb → 2 ^ 31 ≤ sb.cc → sbflush rounds sb = none := by
  induction rounds with
  | zero =>
    intro sb h hcc
    rw [sbflush.eq_def, if_neg (h.mbcnt_ne_zero hcc)]
  | succ rounds ih =>
    intro sb h hcc
    obtain ⟨hle, hleft⟩ := toInt_large hcc
    have hle' : (toInt sb.cc).toNat ≤ size sb.mb.flatten := h.cc ▸ hle
    obtain ⟨sb₁, hrun, hbase, hmb, -⟩ := sbdrop_eq h hle'
    have hsize := size_dropQueue sb.mb _ hle'
    rw [← hmb, ← hbase.cc, ← h.cc] at hsize
    rw [sbflush.eq_def, if_neg (h.mbcnt_ne_zero hcc)]
    show (sbdrop sb (toInt sb.cc)).bind (sbflush rounds) = none
    rw [hrun, Option.bind_some, ih sb₁ hbase (by omega)]

end NetBSD.Kern.UipcSocket2
