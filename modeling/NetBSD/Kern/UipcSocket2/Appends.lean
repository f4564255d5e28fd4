import NetBSD.Kern.UipcSocket2.Compress

/-! What each append does to the queue.

`Base` is the bookkeeping but for `sb_mbtail`: it holds after every append that finds the tail pointer where it uses
it. Each append has one lemma, that says which queue and which tail pointer it leaves. -/
namespace NetBSD.Kern.UipcSocket2
open List Option

def Record.last (r : Record) : Option Addr := r.getLast?.map Mbuf.addr

structure Base (sb : Sockbuf) : Prop where
  nodup : (addrs sb.mb).Nodup
  nonempty : [] ∉ sb.mb
  cc : sb.cc = size sb.mb.flatten
  mbcnt : sb.mbcnt = storage sb.mb.flatten
  lastrecord : sb.lastrecord = sb.mb.getLast?.bind Record.first
  empty : sb.mb = [] → sb.mbtail = none

/-- The mbufs handed over are the caller's: each once, none of them queued, and linked by `m_next` alone. -/
structure Own (sb : Sockbuf) (m : List Mbuf) : Prop where
  nodup : (m.map Mbuf.addr).Nodup
  away : ∀ x ∈ m, x.addr ∉ addrs sb.mb
  nextpkt : ∀ x ∈ m, x.nextpkt = none

instance (sb : Sockbuf) (m : List Mbuf) : Decidable (Own sb m) :=
  decidable_of_iff ((m.map Mbuf.addr).Nodup ∧ (∀ x ∈ m, x.addr ∉ addrs sb.mb) ∧ ∀ x ∈ m, x.nextpkt = none)
    ⟨fun ⟨h1, h2, h3⟩ => ⟨h1, h2, h3⟩, fun ⟨h1, h2, h3⟩ => ⟨h1, h2, h3⟩⟩

theorem Record.first_ne_none {r : Record} (h : r ≠ []) : Record.first r ≠ none := by
  cases r with
  | nil => exact absurd rfl h
  | cons m r => exact some_ne_none _

theorem first_ne {pre : List Record} {r x : Record} (hr : r ≠ []) (h : (addrs (pre ++ [r])).Nodup) (hx : x ∈ pre) :
    Record.first x ≠ Record.first r := by
  intro heq
  cases r with
  | nil => exact hr rfl
  | cons m r =>
    cases x with
    | nil => cases heq
    | cons y x =>
      have hy : y.addr ∈ addrs pre := mem_map_of_mem (mem_flatten.mpr ⟨_, hx, mem_cons_self⟩)
      have heq : y.addr = m.addr := some.inj heq
      rw [addrs_append, nodup_append] at h
      exact h.2.2 _ hy _ (by simp) heq

theorem setNextpkt_last {pre : List Record} {r : Record} {l : Addr} (rs : List Record) (hl : Record.first r = some l)
    (h : ∀ x ∈ pre, Record.first x ≠ some l) : setNextpkt l rs (pre ++ [r]) = some (pre ++ r :: rs) := by
  induction pre with
  | nil => simp [setNextpkt, hl]
  | cons x pre ih =>
    have hx := h x mem_cons_self
    have ih := ih fun y hy => h y (mem_cons_of_mem _ hy)
    rw [cons_append, setNextpkt, if_neg hx, ih]
    rfl

theorem find_last {pre : List Record} {r : Record} {l : Addr} (hl : Record.first r = some l)
    (h : ∀ x ∈ pre, Record.first x ≠ some l) : (pre ++ [r]).find? (Record.first · = some l) = some r := by
  rw [find?_append, find?_eq_none.mpr (by simpa using h)]
  simp [hl]

namespace Base
variable {sb : Sockbuf}

theorem cases_last (h : Base sb) : (sb.mb = [] ∧ sb.lastrecord = none ∧ sb.mbtail = none) ∨
    ∃ pre r l, sb.mb = pre ++ [r] ∧ r ≠ [] ∧ Record.first r = some l ∧ sb.lastrecord = some l ∧
      ∀ x ∈ pre, Record.first x ≠ some l := by
  rcases eq_nil_or_concat sb.mb with hnil | ⟨pre, r, hmb⟩
  · exact .inl ⟨hnil, by rw [h.lastrecord, hnil]; rfl, h.empty hnil⟩
  rw [concat_eq_append] at hmb
  have hr : r ≠ [] := fun hr => h.nonempty (by rw [hmb, hr]; simp)
  obtain ⟨l, hl⟩ := ne_none_iff_exists'.mp (Record.first_ne_none hr)
  refine .inr ⟨pre, r, l, hmb, hr, hl, by rw [h.lastrecord, hmb]; simpa using hl, ?_⟩
  intro x hx
  rw [← hl]
  exact first_ne hr (hmb ▸ h.nodup) hx

theorem linkRecordChain (h : Base sb) (sb' : Sockbuf) (hmb : sb'.mb = sb.mb) (hlast : sb'.lastrecord = sb.lastrecord)
    (rs : List Record) (mlast : Option Addr) :
    linkRecordChain sb' rs mlast = some { sb' with mb := sb.mb ++ rs, lastrecord := mlast } := by
  rcases h.cases_last with ⟨hnil, hnone, -⟩ | ⟨pre, r, l, hpre, hr, hl, hsome, hne⟩
  · rw [UipcSocket2.linkRecordChain, hlast, hnone, hnil]
    rfl
  · rw [UipcSocket2.linkRecordChain, hlast, hsome, hmb, hpre]
    simp [setNextpkt_last rs hl hne, map_some, append_assoc, cons_append, nil_append]

theorem lastrecord_ne (h : Base sb) {m : List Mbuf} (hown : Own sb m) : ∀ x ∈ m, sb.lastrecord ≠ some x.addr := by
  intro x hx heq
  rcases h.cases_last with ⟨-, hnone, -⟩ | ⟨before, r, l, hr, -, hl, hsome, -⟩
  · rw [hnone] at heq
    cases heq
  rw [hsome, ← hl] at heq
  apply hown.away x hx
  rw [hr, addrs_append, addrs_cons, mem_append, mem_append]
  cases r with
  | nil => cases heq
  | cons z r => exact .inr (.inl (some.inj heq ▸ mem_cons_self))

theorem insert (h : Base sb) {sb' : Sockbuf} (pre rs post : List Record) (hmb : sb.mb = pre ++ post) (hmb' : sb'.mb = pre ++ (rs ++ post))
    (hrs : rs ≠ []) (hne : [] ∉ rs) (hnodup : (addrs rs).Nodup) (haway : ∀ a ∈ addrs rs, a ∉ addrs sb.mb)
    (hcc : sb'.cc = sb.cc + size rs.flatten) (hcnt : sb'.mbcnt = sb.mbcnt + storage rs.flatten)
    (hlast : sb'.lastrecord = (pre ++ (rs ++ post)).getLast?.bind Record.first) : Base sb' where
  nodup := by
    have hperm : (addrs sb'.mb).Perm (addrs rs ++ addrs sb.mb) := by
      rw [hmb', hmb]
      simp only [addrs_append]
      exact perm_append_comm_assoc ..
    rw [hperm.nodup_iff, nodup_append]
    exact ⟨hnodup, h.nodup, fun a ha b hb hab => haway a ha (hab ▸ hb)⟩
  nonempty := by
    have hold := h.nonempty
    rw [hmb, mem_append, not_or] at hold
    rw [hmb', mem_append, mem_append, not_or, not_or]
    exact ⟨hold.1, hne, hold.2⟩
  cc := by
    rw [hcc, h.cc, hmb', hmb]
    simp only [flatten_append, size_append]
    omega
  mbcnt := by
    rw [hcnt, h.mbcnt, hmb', hmb]
    simp only [flatten_append, storage_append]
    omega
  lastrecord := by rw [hlast, hmb']
  empty := by
    intro hnil
    rw [hmb', append_eq_nil_iff, append_eq_nil_iff] at hnil
    exact absurd hnil.2.1 hrs

end Base

/-! ### sbappendrecord and sbinsertoob -/

theorem moveEor_cases (m0 : Mbuf) (m : List Mbuf) : (moveEor m0 m = (m0, m) ∧ (m = [] ∨ m0.eor = false)) ∨
    ∃ o rest, m = o :: rest ∧ m0.eor = true ∧ moveEor m0 m = (m0.setEor false, o.setEor true :: rest) := by
  cases m with
  | nil => exact .inl ⟨rfl, .inl rfl⟩
  | cons o rest =>
    cases h : m0.eor with
    | false => exact .inl ⟨by simp [moveEor, h], .inr rfl⟩
    | true => exact .inr ⟨o, rest, rfl, rfl, by simp [moveEor, h]⟩

section MoveEor
variable (m0 : Mbuf) (m : List Mbuf)

@[simp] theorem moveEor_addr : (moveEor m0 m).1.addr = m0.addr := by
  rcases moveEor_cases m0 m with ⟨h, -⟩ | ⟨o, rest, -, -, h⟩ <;> simp [h]

@[simp] theorem moveEor_data : (moveEor m0 m).1.data = m0.data := by
  rcases moveEor_cases m0 m with ⟨h, -⟩ | ⟨o, rest, -, -, h⟩ <;> simp [h]

@[simp] theorem moveEor_len : (moveEor m0 m).1.len = m0.len := by
  rw [Mbuf.len, moveEor_data, Mbuf.len]

@[simp] theorem moveEor_storage : (moveEor m0 m).1.storage = m0.storage := by
  rcases moveEor_cases m0 m with ⟨h, -⟩ | ⟨o, rest, -, -, h⟩ <;> simp [h]

@[simp] theorem moveEor_addrs : (moveEor m0 m).2.map Mbuf.addr = m.map Mbuf.addr := by
  rcases moveEor_cases m0 m with ⟨h, -⟩ | ⟨o, rest, hm, -, h⟩ <;> rw [h]
  rw [hm]
  rfl

@[simp] theorem moveEor_bytes : bytes (moveEor m0 m).2 = bytes m := by
  rcases moveEor_cases m0 m with ⟨h, -⟩ | ⟨o, rest, hm, -, h⟩ <;> rw [h]
  rw [hm]
  rfl

@[simp] theorem moveEor_size : size (moveEor m0 m).2 = size m := by rw [← length_bytes, moveEor_bytes, length_bytes]

theorem moveEor_nextpkts (h : ∀ x ∈ m, x.nextpkt = none) : ∀ x ∈ (moveEor m0 m).2, x.nextpkt = none := by
  rcases moveEor_cases m0 m with ⟨h', -⟩ | ⟨o, rest, hm, -, h'⟩ <;> rw [h']
  · exact h
  · rw [hm, forall_mem_cons] at h
    exact forall_mem_cons.mpr h

theorem moveEor_marks : (moveEor m0 m).2 = [] ∨ (moveEor m0 m).1.eor = false := by
  rcases moveEor_cases m0 m with ⟨h, hm⟩ | ⟨o, rest, hm, -, h⟩ <;> rw [h]
  · exact hm
  · exact .inr rfl

theorem moveEor_any : ((moveEor m0 m).1.eor || (moveEor m0 m).2.any Mbuf.eor) = (m0.eor || m.any Mbuf.eor) := by
  rcases moveEor_cases m0 m with ⟨h, hm⟩ | ⟨o, rest, hm, hm0, h⟩ <;> rw [h]
  rw [hm0]
  rfl

end MoveEor

/-- The record sbcompress makes of a chain that starts one. -/
def newRecord (ro : Addr → Bool) (m0 : Mbuf) (m : List Mbuf) : Record := pack ro false (moveEor m0 m).1 (moveEor m0 m).2

/-- An mbuf of the chain stays one of its own behind the first. -/
def linksNew (ro : Addr → Bool) (m0 : Mbuf) (m : List Mbuf) : Bool := links ro false (moveEor m0 m).1 (moveEor m0 m).2

theorem newRecord_tail {ro : Addr → Bool} {m0 : Mbuf} {m : List Mbuf} : linksNew ro m0 m = true ↔ (newRecord ro m0 m).tail ≠ [] := pack_links

theorem newRecord_ne_nil {ro : Addr → Bool} {m0 : Mbuf} {m : List Mbuf} : newRecord ro m0 m ≠ [] := pack_ne_nil

theorem newRecord_addrs (ro : Addr → Bool) (m0 : Mbuf) (m : List Mbuf) : ((newRecord ro m0 m).map Mbuf.addr).Sublist ((m0 :: m).map Mbuf.addr) := by
  have h := @pack_addrs ro false (moveEor m0 m).1 (moveEor m0 m).2
  rwa [moveEor_addr, moveEor_addrs] at h

theorem size_newRecord (ro : Addr → Bool) (m0 : Mbuf) (m : List Mbuf) : size (newRecord ro m0 m) = size (m0 :: m) := by
  rw [newRecord, size_pack, moveEor_len, moveEor_size, size_cons]

theorem bytes_newRecord (ro : Addr → Bool) (m0 : Mbuf) (m : List Mbuf) : bytes (newRecord ro m0 m) = bytes (m0 :: m) := by
  rw [newRecord, bytes_pack, moveEor_data, moveEor_bytes, bytes_cons]

/-- The first mbuf of the chain is put between two parts of the queue, and the rest behind it. -/
theorem startRecord {sb sb' : Sockbuf} {ro : Addr → Bool} {pre post : List Record} {m0 : Mbuf} {m : List Mbuf} (h : Base sb)
    (hown : Own sb (m0 :: m)) (hmb : sb.mb = pre ++ post) (hmb' : sb'.mb = pre ++ [(moveEor m0 m).1] :: post)
    (hcc : sb'.cc = sb.cc + m0.len) (hcnt : sb'.mbcnt = sb.mbcnt + m0.storage)
    (hlast : sb'.lastrecord = if post = [] then some m0.addr else sb.lastrecord) :
    ∃ sb'', sbcompress ro sb' (some m0.addr) false (moveEor m0 m).2 = some sb'' ∧ Base sb'' ∧ sb''.mb = pre ++ newRecord ro m0 m :: post ∧
      sb''.mbtail = if linksNew ro m0 m then Record.last (newRecord ro m0 m) else sb'.mbtail := by
  have haway := hown.away
  rw [hmb, addrs_append] at haway
  have hlast' : ∀ x ∈ (moveEor m0 m).2, sb'.lastrecord ≠ some x.addr := by
    intro x hx
    have hx : x.addr ∈ m.map Mbuf.addr := moveEor_addrs m0 m ▸ mem_map_of_mem hx
    rw [hlast]
    split
    · intro heq
      have hnodup := hown.nodup
      rw [map_cons, nodup_cons] at hnodup
      exact hnodup.1 (some.inj heq ▸ hx)
    · obtain ⟨y, hy, hyx⟩ := mem_map.mp hx
      rw [← hyx]
      exact h.lastrecord_ne hown y (mem_cons_of_mem _ hy)
  have hnodup : (((moveEor m0 m).1 :: (moveEor m0 m).2).map Mbuf.addr).Nodup := by
    rw [map_cons, moveEor_addr, moveEor_addrs]
    exact hown.nodup
  have haway' : ∀ x ∈ (moveEor m0 m).1 :: (moveEor m0 m).2, x.addr ∉ addrs (pre ++ [] :: post) := by
    intro x hx
    have hx : x.addr ∈ (m0 :: m).map Mbuf.addr := by
      rw [map_cons, ← moveEor_addr m0 m, ← moveEor_addrs m0 m]
      exact mem_map_of_mem hx
    obtain ⟨y, hy, hyx⟩ := mem_map.mp hx
    rw [addrs_append, ← hyx]
    exact haway y hy
  have hrun := sbcompress_at ro pre post (moveEor m0 m).2 sb' [] (moveEor m0 m).1 false hmb' hnodup haway' hlast'
  rw [moveEor_addr] at hrun
  refine ⟨_, hrun, ?_, rfl, ?_⟩
  · apply h.insert pre [newRecord ro m0 m] post hmb
    · rfl
    · exact cons_ne_nil _ _
    · simpa using Ne.symm newRecord_ne_nil
    · rw [addrs_cons, addrs_nil, append_nil]
      exact (newRecord_addrs ro m0 m).nodup hown.nodup
    · intro a ha
      rw [addrs_cons, addrs_nil, append_nil] at ha
      obtain ⟨x, hx, rfl⟩ := mem_map.mp ((newRecord_addrs ro m0 m).subset ha)
      exact hown.away x hx
    · simp [hcc, size_newRecord, add_assoc]
    · rw [hcnt, flatten_singleton, newRecord, storage_pack, moveEor_storage, add_assoc]
    rw [hlast]
    split
    · next hpost =>
      rw [hpost]
      simp [newRecord, pack_first]
    · next hpost => rw [h.lastrecord, hmb, getLast?_append_of_ne_nil _ hpost, getLast?_append_of_ne_nil _ (by simp),
        getLast?_append_of_ne_nil _ hpost]
  · simp only [newRecord_tail, ite_not]
    rfl

theorem sbappendrecord_eq {sb : Sockbuf} {ro : Addr → Bool} {m0 : Mbuf} {m : List Mbuf} (h : Base sb) (hown : Own sb (m0 :: m)) :
    ∃ sb', sbappendrecord ro sb (m0 :: m) = some sb' ∧ Base sb' ∧ sb'.mb = sb.mb ++ [newRecord ro m0 m] ∧
      sb'.mbtail = if linksNew ro m0 m then Record.last (newRecord ro m0 m) else sb.mbtail := by
  have hlink := h.linkRecordChain (sballoc sb (moveEor m0 m).1) rfl rfl [[(moveEor m0 m).1]] (some m0.addr)
  obtain ⟨sb', hrun, hbase, hmb, htail⟩ := @startRecord sb { sballoc sb (moveEor m0 m).1 with
    mb := sb.mb ++ [[(moveEor m0 m).1]], lastrecord := some m0.addr } ro sb.mb [] m0 m h hown (by simp) rfl (by simp [sballoc])
    (by simp [sballoc]) (by simp)
  refine ⟨sb', ?_, hbase, hmb, htail⟩
  simp only [sbappendrecord, linkRecord, Record.first, head?_cons, map_some, moveEor_addr, hlink, bind_eq_bind, bind_some]
  exact hrun

theorem sbinsertoob_eq {sb : Sockbuf} {ro : Addr → Bool} {m0 : Mbuf} {m : List Mbuf} (h : Base sb) (hown : Own sb (m0 :: m)) :
    ∃ sb', sbinsertoob ro sb (m0 :: m) = some sb' ∧ Base sb' ∧
      sb'.mb = sb.mb.takeWhile oobTrain ++ newRecord ro m0 m :: sb.mb.dropWhile oobTrain ∧
      sb'.mbtail = if linksNew ro m0 m then Record.last (newRecord ro m0 m) else sb.mbtail := by
  obtain ⟨sb', hrun, hbase, hmb, htail⟩ := @startRecord sb { sballoc sb (moveEor m0 m).1 with
    mb := sb.mb.takeWhile oobTrain ++ [(moveEor m0 m).1] :: sb.mb.dropWhile oobTrain
    lastrecord := if sb.mb.dropWhile oobTrain = [] then some m0.addr else sb.lastrecord } ro (sb.mb.takeWhile oobTrain)
    (sb.mb.dropWhile oobTrain) m0 m h hown takeWhile_append_dropWhile.symm rfl (by simp [sballoc]) (by simp [sballoc]) rfl
  refine ⟨sb', ?_, hbase, hmb, htail⟩
  rw [← hrun]
  simp [sbinsertoob, moveEor_addr, sballoc]

namespace Base
variable {sb : Sockbuf}

theorem extend (h : Base sb) {ro : Addr → Bool} {pre : List Record} {r : Record} {n : Mbuf} {m : List Mbuf}
    (hmb : sb.mb = pre ++ [r ++ [n]]) (hown : Own sb m) :
    ∃ sb', sbcompress ro sb (some n.addr) false m = some sb' ∧ Base sb' ∧ sb'.mb = pre ++ [r ++ pack ro false n m] ∧
      sb'.mbtail = if links ro false n m then Record.last (pack ro false n m) else sb.mbtail := by
  have hall : (addrs sb.mb ++ m.map Mbuf.addr).Nodup := by
    rw [nodup_append]
    refine ⟨h.nodup, hown.nodup, ?_⟩
    intro a ha b hb hab
    obtain ⟨x, hx, rfl⟩ := mem_map.mp hb
    exact hown.away x hx (hab ▸ ha)
  have haddrs : addrs sb.mb ++ m.map Mbuf.addr = (addrs pre ++ r.map Mbuf.addr) ++ (n :: m).map Mbuf.addr := by
    simp [hmb]
  rw [haddrs, nodup_append] at hall
  have hrun := sbcompress_at ro pre [] m sb r n false hmb hall.2.1 ?_ (h.lastrecord_ne hown)
  · refine ⟨_, hrun, ⟨?_, ?_, ?_, ?_, ?_, by simp⟩, rfl, by simp [pack_links, ite_not, Record.last]⟩
    · have hsub := (@pack_addrs ro false n m).append_left (addrs pre ++ r.map Mbuf.addr)
      have hnodup := hsub.nodup (nodup_append.mpr hall)
      simpa only [addrs_append, addrs_cons, addrs_nil, append_nil, map_append, append_assoc] using hnodup
    · have hold := h.nonempty
      rw [hmb] at hold
      simpa [pack_ne_nil] using hold
    · rw [h.cc, hmb]
      simp [size_pack, add_assoc]
    · rw [h.mbcnt, hmb]
      simp [storage_pack, add_assoc]
    rw [h.lastrecord, hmb]
    cases r with
    | nil => simpa [Record.first] using (@pack_first ro false n m).symm
    | cons x r => simp [Record.first]
  · intro x hx ha
    rw [addrs_append, addrs_cons, addrs_nil, append_nil] at ha
    exact hall.2.2 _ ha _ (mem_map_of_mem hx) rfl

theorem fill (h : Base sb) {ro : Addr → Bool} {m : List Mbuf} (hmb : sb.mb = []) (hown : Own sb m) {l : Option Addr}
    (hl : l = none ∨ l = Record.first m) : ∃ sb', sbcompress ro { sb with lastrecord := l } none false m = some sb' ∧
      Base { sb' with lastrecord := Record.first (packEmpty ro false m) } ∧
      (l = Record.first m → sb'.lastrecord = Record.first (packEmpty ro false m)) ∧
      sb'.mb = (if packEmpty ro false m = [] then [] else [packEmpty ro false m]) ∧
      sb'.mbtail = Record.last (packEmpty ro false m) := by
  obtain ⟨l', hrun, hl'⟩ := sbcompress_empty ro m { sb with lastrecord := l } false hmb (h.empty hmb) hl hown.nodup
  refine ⟨_, hrun, ?_, hl', rfl, rfl⟩
  have hcc := h.cc
  have hcnt := h.mbcnt
  by_cases hnil : packEmpty ro false m = []
  · have hsize := @size_packEmpty ro false m
    constructor <;> simp_all [Record.first]
  · have hnodup : ((packEmpty ro false m).map Mbuf.addr).Nodup := packEmpty_addrs.nodup hown.nodup
    constructor <;> simp_all [size_packEmpty]

end Base

/-- sbappend fills an empty queue, extends the last record, or starts one behind a record that is marked. -/
inductive Appended (ro : Addr → Bool) (sb : Sockbuf) (m : List Mbuf) (sb' : Sockbuf) : Prop where
  | fill (hmb : sb.mb = []) (hmb' : sb'.mb = if packEmpty ro false m = [] then [] else [packEmpty ro false m])
    (htail : sb'.mbtail = Record.last (packEmpty ro false m))
  | extend (pre : List Record) (r : Record) (n : Mbuf) (hmb : sb.mb = pre ++ [r ++ [n]])
    (hmark : (r ++ [n]).any Mbuf.eor = false) (hmb' : sb'.mb = pre ++ [r ++ pack ro false n m])
    (htail : sb'.mbtail = if links ro false n m then Record.last (pack ro false n m) else sb.mbtail)
  | record (pre : List Record) (r : Record) (m0 : Mbuf) (rest : List Mbuf) (hm : m = m0 :: rest) (hmb : sb.mb = pre ++ [r])
    (hmark : r.any Mbuf.eor = true) (hmb' : sb'.mb = sb.mb ++ [newRecord ro m0 rest])
    (htail : sb'.mbtail = if linksNew ro m0 rest then Record.last (newRecord ro m0 rest) else sb.mbtail)

theorem sbappend_eq {sb : Sockbuf} {ro : Addr → Bool} {m : List Mbuf} (h : Base sb) (hown : Own sb m) (hm : m ≠ []) :
    ∃ sb', sbappend ro sb m = some sb' ∧ Base sb' ∧ Appended ro sb m sb' := by
  rcases h.cases_last with ⟨hnil, hnone, -⟩ | ⟨pre, r, l, hmb, hr, hl, hsome, hne⟩
  · obtain ⟨sb', hrun, hbase, hlast, hmb', htail⟩ := h.fill hnil hown (.inr rfl)
    refine ⟨sb', ?_, ?_, .fill hnil hmb' htail⟩
    · rw [sbappend, if_neg hm, hnone]
      exact hrun
    · rw [← hlast rfl] at hbase
      exact hbase
  have hfind : sb.mb.find? (Record.first · = some l) = some r := by rw [hmb, find_last hl hne]
  have heq : sbappend ro sb m = if r.any Mbuf.eor then sbappendrecord ro sb m
      else sbcompress ro sb (r.getLast?.map Mbuf.addr) false m := by
    simp [sbappend, if_neg hm, hsome, hfind, bind_eq_bind, bind_some]
  cases hmark : r.any Mbuf.eor with
  | true =>
    cases m with
    | nil => exact absurd rfl hm
    | cons m0 rest =>
      obtain ⟨sb', hrun, hbase, hmb', htail⟩ := sbappendrecord_eq h hown
      refine ⟨sb', ?_, hbase, .record pre r m0 rest rfl hmb hmark hmb' htail⟩
      rw [heq, if_pos hmark, hrun]
  | false =>
    obtain ⟨s, n, hs⟩ := eq_nil_or_concat r |>.resolve_left hr
    rw [concat_eq_append] at hs
    subst hs
    obtain ⟨sb', hrun, hbase, hmb', htail⟩ := h.extend hmb hown
    refine ⟨sb', ?_, hbase, .extend pre s n hmb hmark hmb' htail⟩
    rw [heq, hmark, if_neg Bool.false_ne_true, getLast?_concat, map_some, hrun]

/-- With `sb_mbtail` at the last mbuf sbappendstream fills or extends as sbappend does, but asks for no mark. -/
theorem sbappendstream_eq {sb : Sockbuf} {ro : Addr → Bool} {m : List Mbuf} (h : Base sb) (hown : Own sb m)
    (hone : sb.mb.head?.bind Record.first = sb.lastrecord) (htail : sb.mbtail = sb.mb.getLast?.bind Record.last) :
    ∃ sb', sbappendstream ro sb m = some sb' ∧ Base sb' ∧
      ((sb.mb = [] ∧ sb'.mb = (if packEmpty ro false m = [] then [] else [packEmpty ro false m]) ∧
        sb'.mbtail = Record.last (packEmpty ro false m)) ∨
      ∃ r n, sb.mb = [r ++ [n]] ∧ sb'.mb = [r ++ pack ro false n m] ∧
        sb'.mbtail = if links ro false n m then Record.last (pack ro false n m) else sb.mbtail) := by
  rcases h.cases_last with ⟨hnil, hnone, htnone⟩ | ⟨pre, r, l, hmb, hr, hl, hsome, hne⟩
  · obtain ⟨sb', hrun, hbase, -, hmb', htail'⟩ := @h.fill _ ro m hnil hown none (.inl rfl)
    have hfirst : sb'.mb.head?.bind Record.first = Record.first (packEmpty ro false m) := by
      rw [hmb']
      split
      · next hp => rw [hp]; rfl
      · rfl
    refine ⟨{ sb' with lastrecord := sb'.mb.head?.bind Record.first }, ?_, ?_, .inl ⟨hnil, hmb', htail'⟩⟩
    · have hsame : { sb with lastrecord := none } = sb := by rw [← hnone]
      rw [hsame] at hrun
      rw [sbappendstream, if_pos hone, htnone, hrun]
      rfl
    · rw [hfirst]
      exact hbase
  -- One record: the first of the queue would else be told from the last.
  have hpre : pre = [] := by
    cases pre with
    | nil => rfl
    | cons x pre =>
      rw [hmb, hsome] at hone
      exact absurd hone (hne x mem_cons_self)
  subst hpre
  obtain ⟨s, n, hs⟩ := eq_nil_or_concat r |>.resolve_left hr
  rw [concat_eq_append] at hs
  subst hs
  obtain ⟨sb', hrun, hbase, hmb', htail'⟩ := @h.extend _ ro [] s n m hmb hown
  have hn : sb.mbtail = some n.addr := by rw [htail, hmb]; simp [Record.last]
  refine ⟨{ sb' with lastrecord := sb'.mb.head?.bind Record.first }, ?_, ?_, .inr ⟨s, n, hmb, hmb', htail'⟩⟩
  · rw [sbappendstream, if_pos hone, hn, hrun]
    rfl
  · exact { hbase with lastrecord := by simp [hmb'] }

theorem foldl_sballoc (r : List Mbuf) : ∀ sb, r.foldl sballoc sb = { sb with cc := sb.cc + size r, mbcnt := sb.mbcnt + storage r } := by
  induction r with
  | nil => intro sb; rfl
  | cons m r ih =>
    intro sb
    rw [foldl_cons, ih]
    simp [sballoc, size_cons, storage_cons, add_assoc]

theorem foldl_sbfree (r : List Mbuf) : ∀ sb, r.foldl sbfree sb = { sb with cc := sb.cc - size r, mbcnt := sb.mbcnt - storage r } := by
  induction r with
  | nil => intro sb; rfl
  | cons m r ih =>
    intro sb
    rw [foldl_cons, ih]
    simp [sbfree, size_cons, storage_cons, Nat.sub_sub]

theorem putRecord_eq {sb : Sockbuf} {r : Record} (h : Base sb) (hown : Own sb r) (hr : r ≠ []) :
    ∃ sb', putRecord sb r = some sb' ∧ Base sb' ∧ sb'.mb = sb.mb ++ [r] ∧ sb'.mbtail = Record.last r := by
  have hlink := h.linkRecordChain (r.foldl sballoc sb) (by rw [foldl_sballoc]) (by rw [foldl_sballoc]) [r] (Record.first r)
  refine ⟨_, by rw [putRecord, linkRecord, hlink]; rfl, ?_, rfl, rfl⟩
  apply h.insert sb.mb [r] []
  · simp
  · simp
  · simp
  · simpa using Ne.symm hr
  · simpa using hown.nodup
  · intro a ha
    rw [addrs_cons, addrs_nil, append_nil] at ha
    obtain ⟨x, hx, rfl⟩ := mem_map.mp ha
    exact hown.away x hx
  · simp [foldl_sballoc]
  · simp [foldl_sballoc]
  · simp

/-- How many names m_gethdr finds an mbuf for. -/
def granted (answers : List (Option Addr)) : Nat := (answers.takeWhile isSome).length

theorem prependAll_eq {asa : List UInt8} {sb' : Sockbuf} {made' : List Record} {all : Bool} (m0 : List Record) :
    ∀ (answers : List (Option Addr)) (sb : Sockbuf) (made : List Record), prependAll asa sb made m0 answers = some (sb', made', all) →
      ∃ new, made' = made ++ new ∧ sb' = new.flatten.foldl sballoc sb ∧ (all = true ↔ m0.length ≤ granted answers) := by
  induction m0 with
  | nil =>
    intro answers sb made h
    obtain ⟨rfl, rfl, rfl⟩ := h
    exact ⟨[], (append_nil _).symm, rfl, by simp⟩
  | cons m rest ih =>
    intro answers sb made h
    cases answers with
    | nil =>
      obtain ⟨rfl, rfl, rfl⟩ := h
      exact ⟨[], (append_nil _).symm, rfl, by simp [granted]⟩
    | cons answer answers =>
      cases answer with
      | none =>
        obtain ⟨rfl, rfl, rfl⟩ := h
        exact ⟨[], (append_nil _).symm, rfl, by simp [granted]⟩
      | some addr =>
        simp only [prependAll, bind_eq_bind, bind_eq_some_iff] at h
        obtain ⟨n, -, hrun⟩ := h
        obtain ⟨new, rfl, rfl, hall⟩ := ih _ _ _ hrun
        rw [hall]
        simp [granted]

theorem sbappendaddrchain_refused {sb sb' : Sockbuf} {asa : List UInt8} {m0 : List Record} {answers : List (Option Addr)} {b : Bool}
    (h : granted answers < m0.length) (hrun : sbappendaddrchain sb asa m0 answers = some (b, sb')) : b = false ∧ sb' = sb := by
  simp only [sbappendaddrchain, bind_eq_bind, bind_eq_some_iff] at hrun
  obtain ⟨⟨sb₁, made, all⟩, hmade, hrun⟩ := hrun
  obtain ⟨new, hnew, hsb₁, hall⟩ := prependAll_eq m0 _ _ _ hmade
  rw [nil_append] at hnew
  have hfalse : all = false := by
    rw [← Bool.not_eq_true, hall]
    omega
  have hback : made.foldl (fun sb n => n.foldl sbfree sb) sb₁ = sb := by
    rw [hsb₁, hnew, ← foldl_flatten, foldl_sballoc, foldl_sbfree, Nat.add_sub_cancel, Nat.add_sub_cancel]
  subst hfalse
  rw [hback] at hrun
  cases hrun
  exact ⟨rfl, rfl⟩

theorem sbappendaddrchain_one {sb : Sockbuf} {asa : List UInt8} {m0 : Mbuf} {rest : List Mbuf} {addr : Addr}
    {answers : List (Option Addr)} {len : Nat} (hlen : m0.pkthdr = some len) (hasa : asa.length ≤ MHLEN) (h : Base sb)
    (hown : Own sb (m0 :: rest)) (haddr : addr ∉ (m0 :: rest).map Mbuf.addr) (haway : addr ∉ addrs sb.mb) :
    ∃ sb' n, sbappendaddrchain sb asa [m0 :: rest] (some addr :: answers) = some (true, sb') ∧ Base sb' ∧
      sb'.mb = sb.mb ++ [n :: { m0 with nextpkt := none } :: rest] ∧
      sb'.mbtail = Record.last (n :: { m0 with nextpkt := none } :: rest) := by
  obtain ⟨n, hn⟩ : ∃ n : Mbuf, n = ⟨addr, .soname, asa, false, some (asa.length + len), none, MHLEN - asa.length, none⟩ :=
    ⟨_, rfl⟩
  have hown' : Own sb (n :: { m0 with nextpkt := none } :: rest) := by
    obtain ⟨hnodup, hm, hnext⟩ := hown
    rw [forall_mem_cons] at hm hnext
    refine ⟨nodup_cons.mpr ⟨hn ▸ haddr, hnodup⟩, ?_, ?_⟩
    · exact forall_mem_cons.mpr ⟨hn ▸ haway, forall_mem_cons.mpr hm⟩
    · exact forall_mem_cons.mpr ⟨hn ▸ rfl, forall_mem_cons.mpr ⟨rfl, hnext.2⟩⟩
  obtain ⟨sb', hrun, hbase, hmb, htail⟩ := putRecord_eq h hown' (cons_ne_nil _ _)
  refine ⟨sb', n, ?_, hbase, hmb, htail⟩
  have hcall : sbappendaddrchain sb asa [m0 :: rest] (some addr :: answers) =
      (putRecord sb (n :: { m0 with nextpkt := none } :: rest)).map (true, ·) := by
    simp only [sbappendaddrchain, prependAll, prependSockaddr, if_neg (Nat.not_lt.mpr hasa), hlen, map_some, ← hn,
      bind_eq_bind, bind_some, head?_nil, bind_none, nil_append, if_true,
      getLast?_singleton, putRecord, linkRecord]
    cases linkRecordChain _ _ _ <;> rfl
  rw [hcall, hrun]
  rfl

end NetBSD.Kern.UipcSocket2
