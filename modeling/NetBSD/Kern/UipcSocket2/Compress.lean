import NetBSD.Kern.UipcSocket2.Queue

/-! What sbcompress leaves.

Behind the last mbuf `n` of a record it puts the chain with its empty mbufs freed and its small ones copied: `pack` is
the record from `n` on. `sbcompress_at` says that the loop over the queue does this and nothing else, and the lemmas
about `pack` what that is: the same bytes, the storage of the mbufs linked, one mark at most. -/
namespace NetBSD.Kern.UipcSocket2
open List Option

def bytes (r : List Mbuf) : List UInt8 := r.flatMap Mbuf.data

def size (r : List Mbuf) : Nat := (r.map Mbuf.len).sum

def storage (r : List Mbuf) : Nat := (r.map Mbuf.storage).sum

def addrs (q : List Record) : List Addr := q.flatten.map Mbuf.addr

@[simp] theorem bytes_nil : bytes [] = [] := rfl
@[simp] theorem bytes_cons (m : Mbuf) (r : List Mbuf) : bytes (m :: r) = m.data ++ bytes r := rfl
@[simp] theorem bytes_append (r s : List Mbuf) : bytes (r ++ s) = bytes r ++ bytes s := flatMap_append
@[simp] theorem size_nil : size [] = 0 := rfl
@[simp] theorem size_cons (m : Mbuf) (r : List Mbuf) : size (m :: r) = m.len + size r := rfl
@[simp] theorem size_append (r s : List Mbuf) : size (r ++ s) = size r + size s := by simp [size]
@[simp] theorem storage_nil : storage [] = 0 := rfl
@[simp] theorem storage_cons (m : Mbuf) (r : List Mbuf) : storage (m :: r) = m.storage + storage r := rfl
@[simp] theorem storage_append (r s : List Mbuf) : storage (r ++ s) = storage r + storage s := by simp [storage]
@[simp] theorem addrs_nil : addrs [] = [] := rfl
@[simp] theorem addrs_cons (r : Record) (q : List Record) : addrs (r :: q) = r.map Mbuf.addr ++ addrs q := by simp [addrs]
@[simp] theorem addrs_append (q p : List Record) : addrs (q ++ p) = addrs q ++ addrs p := by simp [addrs]

theorem length_bytes (r : List Mbuf) : (bytes r).length = size r := by
  induction r with
  | nil => rfl
  | cons m r ih => rw [bytes_cons, length_append, ih, size_cons, Mbuf.len]

@[simp] theorem setEor_data (b : Bool) (m : Mbuf) : (m.setEor b).data = m.data := rfl
@[simp] theorem setEor_len (b : Bool) (m : Mbuf) : (m.setEor b).len = m.len := rfl
@[simp] theorem setEor_addr (b : Bool) (m : Mbuf) : (m.setEor b).addr = m.addr := rfl
@[simp] theorem setEor_storage (b : Bool) (m : Mbuf) : (m.setEor b).storage = m.storage := rfl
@[simp] theorem setEor_nextpkt (b : Bool) (m : Mbuf) : (m.setEor b).nextpkt = m.nextpkt := rfl
@[simp] theorem setEor_eor (b : Bool) (m : Mbuf) : (m.setEor b).eor = b := rfl
@[simp] theorem take_data (n m : Mbuf) : (n.take m).data = n.data ++ m.data := rfl
@[simp] theorem take_addr (n m : Mbuf) : (n.take m).addr = n.addr := rfl
@[simp] theorem take_storage (n m : Mbuf) : (n.take m).storage = n.storage := rfl
@[simp] theorem take_nextpkt (n m : Mbuf) : (n.take m).nextpkt = n.nextpkt := rfl
@[simp] theorem take_eor (n m : Mbuf) : (n.take m).eor = n.eor := rfl

/-! ### The mbuf an address points to -/

section Located
variable {pre post : List Record} {r : Record} {n : Mbuf}

theorem find_at (hn : n.addr ∉ addrs pre) (hr : n.addr ∉ r.map Mbuf.addr) : find (pre ++ (r ++ [n]) :: post) n.addr = some n := by
  have hpre : ∀ x ∈ pre.flatten, ¬ x.addr = n.addr := fun x hx h => hn (h ▸ mem_map_of_mem hx)
  have hrec : ∀ x ∈ r, ¬ x.addr = n.addr := fun x hx h => hr (h ▸ mem_map_of_mem hx)
  simp only [find, flatten_append, flatten_cons, find?_append]
  rw [find?_eq_none.mpr (by simpa using hpre), find?_eq_none.mpr (by simpa using hrec)]
  simp

theorem map_absent {β : Type*} [DecidableEq β] (a : Addr) (f g : Mbuf → β) {r : List Mbuf} (h : a ∉ r.map Mbuf.addr) :
    (r.map fun m => if m.addr = a then f m else g m) = r.map g := by
  apply map_congr_left
  intro m hm
  rw [if_neg]
  intro hma
  exact h (hma ▸ mem_map_of_mem hm)

theorem modify_absent {q : List Record} (a : Addr) (f : Mbuf → Mbuf) (h : a ∉ addrs q) : modify a f q = q := by
  induction q with
  | nil => rfl
  | cons r q ih =>
    rw [addrs_cons, mem_append, not_or] at h
    have hr : (r.map fun m => if m.addr = a then f m else m) = r.map id := map_absent a f id h.1
    rw [modify, map_cons, hr, List.map_id]
    exact congrArg (r :: ·) (ih h.2)

theorem modify_at (f : Mbuf → Mbuf) (hpre : n.addr ∉ addrs pre) (hr : n.addr ∉ r.map Mbuf.addr) (hpost : n.addr ∉ addrs post) :
    modify n.addr f (pre ++ (r ++ [n]) :: post) = pre ++ (r ++ [f n]) :: post := by
  have hmap : (r.map fun m => if m.addr = n.addr then f m else m) = r.map id := map_absent n.addr f id hr
  have h1 := modify_absent n.addr f hpre
  have h2 := modify_absent n.addr f hpost
  simp only [modify] at h1 h2
  simp [modify, map_append, map_cons, map_nil, h1, h2, hmap, List.map_id, if_pos]

theorem setNext_absent (a : Addr) (m : Mbuf) {r : Record} (h : a ∉ r.map Mbuf.addr) : setNext a m r = r := by
  induction r with
  | nil => rfl
  | cons x r ih =>
    rw [map_cons, mem_cons, not_or] at h
    rw [setNext, if_neg (Ne.symm h.1), ih h.2]

theorem setNext_last (m : Mbuf) (hr : n.addr ∉ r.map Mbuf.addr) : setNext n.addr m (r ++ [n]) = r ++ [n, m] := by
  induction r with
  | nil => simp [setNext]
  | cons x r ih =>
    rw [map_cons, mem_cons, not_or] at hr
    rw [cons_append, setNext, if_neg (Ne.symm hr.1), ih hr.2, cons_append]

theorem map_setNext_absent (a : Addr) (m : Mbuf) {q : List Record} (h : a ∉ addrs q) : q.map (setNext a m) = q := by
  induction q with
  | nil => rfl
  | cons r q ih =>
    rw [addrs_cons, mem_append, not_or] at h
    rw [map_cons, setNext_absent a m h.1, ih h.2]

theorem setNext_at (m : Mbuf) (hpre : n.addr ∉ addrs pre) (hr : n.addr ∉ r.map Mbuf.addr) (hpost : n.addr ∉ addrs post) :
    (pre ++ (r ++ [n]) :: post).map (setNext n.addr m) = pre ++ (r ++ [n, m]) :: post := by
  rw [map_append, map_cons, map_setNext_absent _ m hpre, map_setNext_absent _ m hpost, setNext_last m hr]

end Located

/-! ### The record from `n` on -/

def pack (ro : Addr → Bool) (eor : Bool) (n : Mbuf) : List Mbuf → List Mbuf
  | [] => [if eor then n.setEor true else n]
  | m :: rest =>
    let eor := eor || m.eor
    if freed eor m (rest.head?.or (some n)) then pack ro eor n rest
    else if copied ro n m then pack ro eor (n.take m) rest
    else n :: pack ro eor (m.setEor false) rest

/-- An mbuf of the chain stays one of its own behind `n`. -/
def links (ro : Addr → Bool) (eor : Bool) (n : Mbuf) : List Mbuf → Bool
  | [] => false
  | m :: rest =>
    let eor := eor || m.eor
    if freed eor m (rest.head?.or (some n)) then links ro eor n rest
    else if copied ro n m then links ro eor (n.take m) rest
    else true

/-- The queue sbcompress starts from nothing. -/
def packEmpty (ro : Addr → Bool) (eor : Bool) : List Mbuf → List Mbuf
  | [] => []
  | m :: rest =>
    let eor := eor || m.eor
    if freed eor m rest.head? then packEmpty ro eor rest else pack ro eor (m.setEor false) rest

attribute [elab_as_elim] pack.induct_unfolding packEmpty.induct_unfolding

theorem freed_data {eor : Bool} {m : Mbuf} {o : Option Mbuf} (h : freed eor m o = true) : m.data = [] := by
  rw [freed, Bool.and_eq_true] at h
  exact List.isEmpty_iff.mp h.1

section Pack
variable {ro : Addr → Bool} {eor : Bool} {n : Mbuf} {t : List Mbuf}

theorem pack_ne_nil : pack ro eor n t ≠ [] := by
  fun_induction pack ro eor n t <;> simp_all

theorem pack_first : Record.first (pack ro eor n t) = some n.addr := by
  fun_induction pack ro eor n t with
  | case1 eor => cases eor <;> rfl
  | case2 _ _ _ _ _ _ ih => exact ih
  | case3 _ _ _ _ _ _ _ ih => exact ih
  | case4 => rfl

theorem bytes_pack : bytes (pack ro eor n t) = n.data ++ bytes t := by
  fun_induction pack ro eor n t with
  | case1 eor => cases eor <;> simp
  | case2 _ _ m _ _ hfree ih => simp [ih, freed_data hfree]
  | case3 _ _ _ _ _ _ _ ih => simp [ih]
  | case4 _ _ _ _ _ _ _ ih => simp [ih]

theorem size_pack : size (pack ro eor n t) = n.len + size t := by
  rw [← length_bytes, bytes_pack, length_append, length_bytes, Mbuf.len]

theorem pack_addrs : ((pack ro eor n t).map Mbuf.addr).Sublist (n.addr :: t.map Mbuf.addr) := by
  fun_induction pack ro eor n t with
  | case1 eor => cases eor <;> simp
  | case2 _ _ _ _ _ _ ih => exact ih.trans ((sublist_cons_self _ _).cons_cons _)
  | case3 _ _ _ _ _ _ _ ih => exact ih.trans ((sublist_cons_self _ _).cons_cons _)
  | case4 _ _ _ _ _ _ _ ih => exact ih.cons_cons _

theorem storage_pack : storage (pack ro eor n t) = n.storage + storage (pack ro eor n t).tail := by
  fun_induction pack ro eor n t with
  | case1 eor => cases eor <;> simp
  | case2 _ _ _ _ _ _ ih => exact ih
  | case3 _ _ _ _ _ _ _ ih => exact ih
  | case4 => simp

theorem pack_links : links ro eor n t = true ↔ (pack ro eor n t).tail ≠ [] := by
  fun_induction pack ro eor n t with
  | case1 => simp [links]
  | case2 _ _ _ _ _ hfree ih => rw [links, if_pos hfree, ih]
  | case3 _ _ _ _ _ hfree hcopy ih => rw [links, if_neg hfree, if_pos hcopy, ih]
  | case4 _ _ _ _ _ hfree hcopy =>
    rw [links, if_neg hfree, if_neg hcopy]
    exact iff_of_true rfl pack_ne_nil

theorem pack_nextpkt (hn : n.nextpkt = none) (ht : ∀ m ∈ t, m.nextpkt = none) : ∀ m ∈ pack ro eor n t, m.nextpkt = none := by
  fun_induction pack ro eor n t with
  | case1 eor => cases eor <;> simpa using hn
  | case2 _ _ _ _ _ _ ih => exact ih hn (forall_mem_of_forall_mem_cons ht)
  | case3 _ _ _ _ _ _ _ ih => exact ih hn (forall_mem_of_forall_mem_cons ht)
  | case4 _ _ m _ _ _ _ ih =>
    exact forall_mem_cons.mpr ⟨hn, ih (ht m mem_cons_self) (forall_mem_of_forall_mem_cons ht)⟩

theorem pack_marks (hn : n.eor = false) :
    (∀ m ∈ (pack ro eor n t).dropLast, m.eor = false) ∧ (pack ro eor n t).any Mbuf.eor = (eor || t.any Mbuf.eor) := by
  fun_induction pack ro eor n t with
  | case1 eor => cases eor <;> simp [hn]
  | case2 eor _ m rest _ hfree ih =>
    rw [any_cons, ← Bool.or_assoc]
    exact ih hn
  | case3 _ _ _ _ _ _ _ ih =>
    rw [any_cons, ← Bool.or_assoc]
    exact ih hn
  | case4 _ _ m _ _ _ _ ih =>
    obtain ⟨hdrop, hany⟩ := ih rfl
    rw [dropLast_cons_of_ne_nil pack_ne_nil, any_cons, hany, hn, Bool.false_or, any_cons, ← Bool.or_assoc]
    exact ⟨forall_mem_cons.mpr ⟨hn, hdrop⟩, rfl⟩

theorem pack_getLast : (if (pack ro eor n t).tail = [] then some n.addr else (pack ro eor n t).getLast?.map Mbuf.addr) =
    (pack ro eor n t).getLast?.map Mbuf.addr := by
  have hfirst := @pack_first ro eor n t
  split
  · next h =>
    cases hp : pack ro eor n t with
    | nil => exact absurd hp pack_ne_nil
    | cons x rest =>
      rw [hp] at h hfirst
      rw [tail_cons] at h
      rw [h]
      exact hfirst.symm
  · rfl

theorem bytes_packEmpty : bytes (packEmpty ro eor t) = bytes t := by
  fun_induction packEmpty ro eor t with
  | case1 => rfl
  | case2 _ _ _ _ hfree ih => rw [ih, bytes_cons, freed_data hfree, nil_append]
  | case3 => rw [bytes_pack, setEor_data, bytes_cons]

theorem size_packEmpty : size (packEmpty ro eor t) = size t := by rw [← length_bytes, bytes_packEmpty, length_bytes]

theorem packEmpty_addrs : ((packEmpty ro eor t).map Mbuf.addr).Sublist (t.map Mbuf.addr) := by
  fun_induction packEmpty ro eor t with
  | case1 => simp
  | case2 _ _ _ _ _ ih => exact ih.trans (sublist_cons_self _ _)
  | case3 => exact pack_addrs

theorem packEmpty_nextpkt (ht : ∀ m ∈ t, m.nextpkt = none) : ∀ m ∈ packEmpty ro eor t, m.nextpkt = none := by
  fun_induction packEmpty ro eor t with
  | case1 => simp
  | case2 _ _ _ _ _ ih => exact ih (forall_mem_of_forall_mem_cons ht)
  | case3 _ m => exact pack_nextpkt (ht m mem_cons_self) (forall_mem_of_forall_mem_cons ht)

theorem packEmpty_marks (h : eor = true → t ≠ []) : (∀ m ∈ (packEmpty ro eor t).dropLast, m.eor = false) ∧
    (packEmpty ro eor t).any Mbuf.eor = (eor || t.any Mbuf.eor) := by
  fun_induction packEmpty ro eor t with
  | case1 eor =>
    cases eor with
    | false => simp
    | true => exact absurd rfl (h rfl)
  | case2 eor m rest _ hfree ih =>
    rw [any_cons, ← Bool.or_assoc]
    apply ih
    intro heor hnil
    subst hnil
    simp [freed, heor] at hfree
  | case3 _ _ _ _ hfree =>
    rw [any_cons, ← Bool.or_assoc]
    exact pack_marks rfl

end Pack

/-- The loop behind the last mbuf of a record, wherever in the queue that record is. -/
theorem sbcompress_at (ro : Addr → Bool) (pre post : List Record) (t : List Mbuf) :
    ∀ (sb : Sockbuf) (r : Record) (n : Mbuf) (eor : Bool), sb.mb = pre ++ (r ++ [n]) :: post →
      ((n :: t).map Mbuf.addr).Nodup → (∀ m ∈ n :: t, m.addr ∉ addrs (pre ++ r :: post)) → (∀ m ∈ t, sb.lastrecord ≠ some m.addr) →
      sbcompress ro sb (some n.addr) eor t = some { sb with
        mb := pre ++ (r ++ pack ro eor n t) :: post
        cc := sb.cc + size t
        mbcnt := sb.mbcnt + storage (pack ro eor n t).tail
        mbtail := if (pack ro eor n t).tail = [] then sb.mbtail else (pack ro eor n t).getLast?.map Mbuf.addr } := by
  induction t with
  | nil =>
    intro sb r n eor hmb _ haway _
    have hn := haway n mem_cons_self
    simp only [addrs_append, addrs_cons, mem_append, not_or] at hn
    obtain ⟨hpre, hr, hpost⟩ := hn
    cases eor with
    | false =>
      simp only [sbcompress, pack, Bool.false_eq_true, if_false, tail_cons, storage_nil, size_nil, add_zero, if_true, ← hmb]
    | true =>
      simp only [sbcompress, hmb, find_at hpre hr, map_some, modify_at _ hpre hr hpost]
      simp [pack]
  | cons m t ih =>
    intro sb r n eor hmb hnodup haway hlast
    have hn := haway n mem_cons_self
    simp only [addrs_append, addrs_cons, mem_append, not_or] at hn
    obtain ⟨hpre, hr, hpost⟩ := hn
    have hfind : find sb.mb n.addr = some n := by rw [hmb]; exact find_at hpre hr
    have htest : freeTest sb.mb (some n.addr) (eor || m.eor) m t = some (freed (eor || m.eor) m (t.head?.or (some n))) := by
      cases t with
      | cons o rest => rfl
      | nil =>
        simp only [freeTest, hfind, map_some, head?_nil, none_or]
        split
        · rfl
        · next h =>
          rw [freed, freed]
          cases hd : m.data.isEmpty <;> cases he : (eor || m.eor) <;> simp_all
    rw [map_cons, nodup_cons] at hnodup
    have hmt := hnodup.2
    have hnt : ((n :: t).map Mbuf.addr).Nodup := by
      rw [map_cons, nodup_cons]
      exact ⟨fun h => hnodup.1 (mem_cons_of_mem _ h), hmt.of_cons⟩
    have haway' : ∀ x ∈ n :: t, x.addr ∉ addrs (pre ++ r :: post) := by
      intro x hx
      rcases mem_cons.mp hx with rfl | hx
      · exact haway x mem_cons_self
      · exact haway x (mem_cons_of_mem _ (mem_cons_of_mem _ hx))
    have hlast' : ∀ x ∈ t, sb.lastrecord ≠ some x.addr := forall_mem_of_forall_mem_cons hlast
    simp only [sbcompress, htest, bind_eq_bind, bind_some, pack]
    split
    · -- An empty mbuf: nothing changes.
      next hfree =>
      have hlen : m.len = 0 := by rw [Mbuf.len, freed_data hfree, length_nil]
      rw [if_neg (hlast m mem_cons_self), ih sb r n _ hmb hnt haway' hlast', size_cons, hlen, zero_add]
    simp only [hfind, bind_some]
    split
    · -- The data goes to `n`, which stays the last mbuf of its record.
      refine (ih { sb with mb := modify n.addr (·.take m) sb.mb, cc := sb.cc + m.len } r (n.take m) (eor || m.eor)
        ?_ hnt ?_ hlast').trans ?_
      · rw [hmb, modify_at _ hpre hr hpost]
      · intro x hx
        rcases mem_cons.mp hx with rfl | hx
        · exact haway' n mem_cons_self
        · exact haway' x (mem_cons_of_mem _ hx)
      · simp only [size_cons, add_assoc]
    -- The mbuf is linked: it is now the last of the record, and `n` one before it.
    refine (ih (link sb (some n.addr) m) (r ++ [n]) (m.setEor false) (eor || m.eor) ?_ hmt ?_ hlast').trans ?_
    · simp only [link, sballoc, hmb, setNext_at _ hpre hr hpost, append_assoc, cons_append, nil_append]
    · intro x hx
      have hxn : x.addr ≠ n.addr := by
        intro heq
        rcases mem_cons.mp hx with rfl | hx
        · exact hnodup.1 (heq ▸ mem_cons_self)
        · exact hnodup.1 (heq ▸ mem_cons_of_mem _ (mem_map_of_mem hx))
      have hxr : x.addr ∉ addrs (pre ++ r :: post) := by
        rcases mem_cons.mp hx with rfl | hx
        · exact haway m (mem_cons_of_mem _ mem_cons_self)
        · exact haway' x (mem_cons_of_mem _ hx)
      simpa [hxn] using hxr
    · have htail := @pack_getLast ro (eor || m.eor) (m.setEor false) t
      rw [setEor_addr] at htail
      simp [link, sballoc, htail, append_assoc, cons_append, nil_append, tail_cons, pack_ne_nil,
        if_false, getLast?_cons_of_ne_nil pack_ne_nil, size_cons, storage_pack, setEor_storage, add_assoc]

/-- The loop that starts the queue: an mbuf freed takes `sb_lastrecord` along. -/
theorem sbcompress_empty (ro : Addr → Bool) (t : List Mbuf) : ∀ (sb : Sockbuf) (eor : Bool), sb.mb = [] → sb.mbtail = none →
    sb.lastrecord = none ∨ sb.lastrecord = Record.first t → (t.map Mbuf.addr).Nodup → ∃ l, sbcompress ro sb none eor t = some { sb with
        mb := if packEmpty ro eor t = [] then [] else [packEmpty ro eor t]
        cc := sb.cc + size t
        mbcnt := sb.mbcnt + storage (packEmpty ro eor t)
        lastrecord := l
        mbtail := (packEmpty ro eor t).getLast?.map Mbuf.addr } ∧
      (sb.lastrecord = Record.first t → l = Record.first (packEmpty ro eor t)) := by
  induction t with
  | nil =>
    intro sb eor hmb htail hlast _
    refine ⟨sb.lastrecord, ?_, ?_⟩
    · cases eor <;> simp only [sbcompress, packEmpty, if_true, size_nil, storage_nil, add_zero, getLast?_nil, map_none, ← hmb, ← htail]
    · simpa [packEmpty] using h
  | cons m t ih =>
    intro sb eor hmb htail hlast hnodup
    have htest : freeTest sb.mb none (eor || m.eor) m t = some (freed (eor || m.eor) m t.head?) := by
      cases t with
      | cons o rest => rfl
      | nil => rfl
    simp only [sbcompress, htest, bind_eq_bind, bind_some, packEmpty]
    split
    · next hfree =>
      have hlen : m.len = 0 := by rw [Mbuf.len, freed_data hfree, length_nil]
      rw [size_cons, hlen, zero_add]
      rcases hlast with hnone | hfirst
      · obtain ⟨l, hrun, -⟩ := ih sb (eor || m.eor) hmb htail (.inl hnone) hnodup.of_cons
        rw [if_neg (by simp [hnone])]
        refine ⟨l, hrun, ?_⟩
        intro h
        rw [hnone] at h
        cases h
      · obtain ⟨l, hrun, hl⟩ := ih { sb with lastrecord := Record.first t } (eor || m.eor) hmb htail (.inr rfl) hnodup.of_cons
        have hm : sb.lastrecord = some m.addr := hfirst
        refine ⟨l, ?_, fun _ => hl rfl⟩
        rw [if_pos hm]
        exact hrun
    have hlast' : ∀ x ∈ t, sb.lastrecord ≠ some x.addr := by
      intro x hx h
      rcases hlast with hnone | hfirst
      · rw [hnone] at h
        cases h
      rw [hfirst] at h
      rw [map_cons, nodup_cons] at hnodup
      exact hnodup.1 (some.inj h ▸ mem_map_of_mem hx)
    have hrun := sbcompress_at ro [] [] t (link sb none m) [] (m.setEor false) (eor || m.eor) rfl hnodup (by simp) hlast'
    refine ⟨sb.lastrecord, hrun.trans ?_, ?_⟩
    · have htail' := @pack_getLast ro (eor || m.eor) (m.setEor false) t
      rw [setEor_addr] at htail'
      simp [link, sballoc, htail', nil_append, pack_ne_nil, if_false, size_cons, storage_pack, setEor_storage, add_assoc]
    · intro h
      rw [h, pack_first]
      rfl

end NetBSD.Kern.UipcSocket2
