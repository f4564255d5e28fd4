import NetBSD.Kern.UipcSocket2.Book

/-! A socket buffer is a FIFO of records.

The FIFO knows of a record its bytes and whether it is marked: it says what the appends and the drops are for. A run of
calls is followed by it, answer by answer, and the queue read front to back is always what the FIFO holds, with the mark
of a record on its last mbuf. The calls left out are the stream that finds `sb_mbtail` elsewhere or a mark before it, and
the chains with a mark inside that sbappendaddr and sbappendcontrol take as they are. -/
namespace NetBSD.Kern.UipcSocket2
open List
open Lib

abbrev Fifo := List (List UInt8 × Bool)

namespace Fifo

/-- The last record goes on; without one the bytes are the first, if there is something in them. -/
def extend (q : Fifo) (b : List UInt8) (e : Bool) : Fifo :=
  match q.getLast? with
  | none => if b = [] ∧ e = false then [] else [(b, e)]
  | some (b', e') => q.dropLast ++ [(b' ++ b, e' || e)]

/-- A marked record does not go on. -/
def append (q : Fifo) (b : List UInt8) (e : Bool) : Fifo :=
  if (q.getLast?.any fun r => r.2) then q ++ [(b, e)] else q.extend b e

/-- The record in which the bytes end is cut, or gone with its last byte. -/
def drop (n : Nat) : Fifo → Fifo
  | [] => []
  | (b, e) :: q => if b.length < n then drop (n - b.length) q else if b.length = n then q else (b.drop n, e) :: q

end Fifo

/-- The queue read front to back. -/
def contents (sb : Sockbuf) : Fifo := sb.mb.map fun r => (bytes r, marked r)

/-- What the call is for; `ok` is its answer. -/
def Fifo.call (q : Fifo) (ok : Bool) : Call → Fifo
  | .sbappend _ m => if m = [] then q else q.append (bytes m) (marked m)
  | .sbappendstream _ m => q.extend (bytes m) (marked m)
  | .sbappendrecord _ m => if m = [] then q else q ++ [(bytes m, marked m)]
  | .sbappendaddr asa m0 control _ => if ok then q ++ [(asa ++ bytes (control ++ m0), marked (control ++ m0))] else q
  | .sbappendcontrol m0 control => if ok then q ++ [(bytes (control ++ m0), marked (control ++ m0))] else q
  | .sbdrop len => q.drop len.toNat
  | .sbdroprecord => q.tail
  | _ => q

/-- The call with its answer; those that have none succeed. -/
def call (sb : Sockbuf) : Call → Option (Bool × Sockbuf)
  | .sbappendaddr asa m0 control alloc => sbappendaddr sb asa m0 control alloc
  | .sbappendcontrol m0 control => sbappendcontrol sb m0 control
  | .sbappendaddrchain asa m0 answers => sbappendaddrchain sb asa m0 answers
  | c => (next sb c).map (true, ·)

/-- A chain that sbcompress frees altogether. -/
def Vain (m : List Mbuf) : Prop := ∀ x ∈ m, x.data = [] ∧ x.eor = false

/-- The calls that keep the order. A stream may find `sb_mbtail` anywhere only if it brings nothing. -/
def Orderly (sb : Sockbuf) : Call → Prop
  | .sbappend _ _ | .sbappendrecord _ _ | .sbdrop _ | .sbdroprecord => True
  | .sbappendstream ro m => Vain m ∨ (sb.mbtail = sb.mb.getLast?.bind Record.last ∧
    ∀ r ∈ sb.mb.getLast?, ∀ n ∈ r.getLast?, marked r = true → links ro false n m = false)
  | .sbappendaddr _ m0 control _ | .sbappendcontrol m0 control => ∀ x ∈ (control ++ m0).dropLast, x.eor = false
  -- Not calls of a FIFO.
  | .sbinsertoob _ _ | .sbappendaddrchain _ _ _ | .sbflush => False

/-- The books but for the tail pointer, and the mark of a record on its last mbuf. -/
structure Shape (sb : Sockbuf) : Prop extends Base sb where
  marks : ∀ r ∈ sb.mb, ∀ m ∈ r.dropLast, m.eor = false

@[simp] theorem marked_append (r s : Record) : marked (r ++ s) = (marked r || marked s) := any_append

theorem marked_nil : marked [] = false := rfl

theorem marked_cons (m : Mbuf) (r : Record) : marked (m :: r) = (m.eor || marked r) := rfl

/-! ### Appending -/

theorem contents_concat {sb : Sockbuf} {pre : List Record} {r : Record} (h : sb.mb = pre ++ [r]) :
    contents sb = (pre.map fun r => (bytes r, marked r)) ++ [(bytes r, marked r)] := by
  rw [contents, h, map_append]
  rfl

section Pack
variable {ro : Addr → Bool} {n : Mbuf} {m : List Mbuf} {r : Record}

theorem pack_marked {eor : Bool} (hn : n.eor = true) (h : links ro eor n m = false) : ∃ n', pack ro eor n m = [n'] ∧ n'.eor = true := by
  fun_induction pack ro eor n m with
  | case1 eor => cases eor <;> simp [hn]
  | case2 _ _ _ _ _ hfree ih =>
    rw [links, if_pos hfree] at h
    exact ih hn h
  | case3 _ _ _ _ _ _ hcopy => simp [copied, hn] at hcopy
  | case4 _ _ _ _ _ hfree hcopy =>
    rw [links, if_neg hfree, if_neg hcopy] at h
    cases h

theorem extend_marks (hr : ∀ x ∈ (r ++ [n]).dropLast, x.eor = false) (hlinks : marked (r ++ [n]) = true → links ro false n m = false) :
    (∀ x ∈ (r ++ pack ro false n m).dropLast, x.eor = false) ∧ marked (r ++ pack ro false n m) = (marked (r ++ [n]) || marked m) := by
  rw [dropLast_concat] at hr
  rw [dropLast_append_of_ne_nil pack_ne_nil, forall_mem_append, marked_append, marked_append]
  have hr' : marked r = false := by simpa [marked] using hr
  cases hn : n.eor with
  | false =>
    obtain ⟨hdrop, hany⟩ := @pack_marks ro false n m hn
    refine ⟨⟨hr, hdrop⟩, ?_⟩
    have hmark : marked (pack ro false n m) = marked m := hany
    rw [hmark, hr', marked_cons, hn]
    rfl
  | true =>
    have hmark : marked (r ++ [n]) = true := by
      rw [marked_append, marked_cons, hn]
      simp
    obtain ⟨n', hpack, hn'⟩ := pack_marked hn (hlinks hmark)
    rw [hpack]
    refine ⟨⟨hr, fun x hx => absurd hx not_mem_nil⟩, ?_⟩
    rw [marked_cons, hn', marked_cons, hn]
    simp

end Pack

theorem vain_iff {m : List Mbuf} : Vain m ↔ bytes m = [] ∧ marked m = false := by
  simp only [Vain, bytes, marked, flatMap_eq_nil_iff, any_eq_false, Bool.not_eq_true]
  exact forall₂_and

theorem packEmpty_vain {ro : Addr → Bool} {m : List Mbuf} (h : Vain m) : packEmpty ro false m = [] := by
  induction m with
  | nil => rfl
  | cons x m ih =>
    obtain ⟨hx, hm⟩ := forall_mem_cons.mp h
    have hfree : freed (false || x.eor) x m.head? = true := by simp [freed, hx.1, hx.2]
    rw [packEmpty, if_pos hfree, hx.2]
    exact ih hm

theorem sbcompress_vain {sb : Sockbuf} {ro : Addr → Bool} {n : Option Addr} {m : List Mbuf} (h : Vain m)
    (hlast : ∀ x ∈ m, sb.lastrecord ≠ some x.addr) : sbcompress ro sb n false m = some sb := by
  induction m with
  | nil => rfl
  | cons x m ih =>
    obtain ⟨hx, hm⟩ := forall_mem_cons.mp h
    have htest : freeTest sb.mb n false x m = some true := by
      cases m <;> cases n <;> simp [freeTest, freed, hx.1]
    simp only [sbcompress, hx.2, Bool.or_false, htest, Option.bind_eq_bind, Option.bind_some, if_true, if_neg (hlast x mem_cons_self)]
    exact ih hm (forall_mem_of_forall_mem_cons hlast)

theorem Shape.fill {sb sb' : Sockbuf} {ro : Addr → Bool} {m : List Mbuf} (hbase : Base sb') (hnil : sb.mb = [])
    (hmb : sb'.mb = if packEmpty ro false m = [] then [] else [packEmpty ro false m]) :
    Shape sb' ∧ contents sb' = (contents sb).extend (bytes m) (marked m) := by
  have hmarks := @packEmpty_marks ro false m (fun h => absurd h Bool.false_ne_true)
  have hbytes := @bytes_packEmpty ro false m
  have hmark : marked (packEmpty ro false m) = marked m := hmarks.2
  by_cases hp : packEmpty ro false m = []
  · rw [if_pos hp] at hmb
    rw [hp] at hbytes hmark
    refine ⟨⟨hbase, by simp [hmb]⟩, ?_⟩
    simp [contents, hmb, hnil, Fifo.extend, ← hbytes, ← hmark, marked_nil]
  rw [if_neg hp] at hmb
  refine ⟨⟨hbase, by simpa [hmb] using hmarks.1⟩, ?_⟩
  have hvain : ¬(bytes m = [] ∧ marked m = false) := fun h => hp (packEmpty_vain (vain_iff.mpr h))
  have hold : contents sb = [] := by rw [contents, hnil]; rfl
  rw [hold, contents, hmb, Fifo.extend]
  simp [if_neg hvain, map_cons, map_nil, hbytes, hmark]

theorem Shape.extend {sb sb' : Sockbuf} {ro : Addr → Bool} {pre : List Record} {r : Record} {n : Mbuf} {m : List Mbuf}
    (h : Shape sb) (hbase : Base sb') (hmb : sb.mb = pre ++ [r ++ [n]]) (hmb' : sb'.mb = pre ++ [r ++ pack ro false n m])
    (hlinks : marked (r ++ [n]) = true → links ro false n m = false) :
    Shape sb' ∧ contents sb' = (contents sb).extend (bytes m) (marked m) := by
  have hold := h.marks
  rw [hmb, forall_mem_append, forall_mem_singleton] at hold
  obtain ⟨hmarks, hmark⟩ := extend_marks hold.2 hlinks
  refine ⟨⟨hbase, ?_⟩, ?_⟩
  · rw [hmb', forall_mem_append, forall_mem_singleton]
    exact ⟨hold.1, hmarks⟩
  · rw [contents_concat hmb, contents_concat hmb', Fifo.extend]
    simp [bytes_append, bytes_pack, bytes_cons, bytes_nil, append_nil, append_assoc, hmark]

theorem Shape.concat {sb sb' : Sockbuf} {r : Record} (h : Shape sb) (hbase : Base sb') (hmb : sb'.mb = sb.mb ++ [r])
    (hr : ∀ m ∈ r.dropLast, m.eor = false) : Shape sb' ∧ contents sb' = contents sb ++ [(bytes r, marked r)] := by
  refine ⟨⟨hbase, ?_⟩, contents_concat hmb⟩
  rw [hmb, forall_mem_append, forall_mem_singleton]
  exact ⟨h.marks, hr⟩

theorem newRecord_marks (ro : Addr → Bool) (m0 : Mbuf) (m : List Mbuf) :
    (∀ x ∈ (newRecord ro m0 m).dropLast, x.eor = false) ∧ marked (newRecord ro m0 m) = marked (m0 :: m) := by
  have hany := moveEor_any m0 m
  rcases moveEor_marks m0 m with hnil | hfirst
  · rw [newRecord, hnil, pack, if_neg Bool.false_ne_true]
    rw [hnil, any_nil, Bool.or_false] at hany
    refine ⟨fun x hx => absurd hx not_mem_nil, ?_⟩
    rw [marked_cons, hany, marked_nil, Bool.or_false]
    rfl
  · obtain ⟨hdrop, hmark⟩ := @pack_marks ro false _ (moveEor m0 m).2 hfirst
    rw [hfirst] at hany
    exact ⟨hdrop, hmark.trans hany⟩

theorem Fifo.extend_vain (q : Fifo) : q.extend [] false = q := by
  rcases eq_nil_or_concat q with rfl | ⟨q, ⟨b, e⟩, rfl⟩
  · rfl
  · rw [extend]
    simp

theorem marked_left {k : Nat} {r : Record} (hk : k < size r) (hr : ∀ m ∈ r.dropLast, m.eor = false) :
    (∀ m ∈ (left k r).dropLast, m.eor = false) ∧ marked (left k r) = marked r := by
  rcases left_cases k r with hnil | ⟨x, rest, d, p, ⟨pre, rfl⟩, heq⟩
  · exact absurd hnil (left_ne_nil hk)
  rw [dropLast_append_of_ne_nil (cons_ne_nil _ _), forall_mem_append] at hr
  have hpre : marked pre = false := by simpa [marked] using hr.1
  rw [heq, marked_append, hpre]
  refine ⟨?_, rfl⟩
  cases rest with
  | nil => exact fun m hm => absurd hm not_mem_nil
  | cons y rest =>
    rw [dropLast_cons_of_ne_nil (cons_ne_nil _ _), forall_mem_cons] at hr ⊢
    exact hr.2

theorem dropQueue_marks (q : List Record) : ∀ len, (∀ r ∈ q, ∀ m ∈ r.dropLast, m.eor = false) →
    (∀ r ∈ dropQueue len q, ∀ m ∈ r.dropLast, m.eor = false) ∧
      (dropQueue len q).map (fun r => (bytes r, marked r)) = Fifo.drop len (q.map fun r => (bytes r, marked r)) := by
  induction q with
  | nil => exact fun len h => ⟨h, rfl⟩
  | cons r q ih =>
    intro len h
    obtain ⟨hr, hq⟩ := forall_mem_cons.mp h
    rw [dropQueue, map_cons, Fifo.drop, length_bytes]
    split
    · exact ih _ hq
    split
    · exact ⟨hq, rfl⟩
    · obtain ⟨hleft, hmark⟩ := marked_left (k := len) (by omega) hr
      exact ⟨forall_mem_cons.mpr ⟨hleft, hq⟩, by rw [map_cons, bytes_left, hmark]⟩

/-! ### Runs -/

namespace Shape
variable {sb : Sockbuf} {ro : Addr → Bool} {m : List Mbuf}

theorem sbappendrecord (h : Shape sb) (hown : Own sb m) (hm : m ≠ []) : ∃ sb', UipcSocket2.sbappendrecord ro sb m = some sb' ∧
    Shape sb' ∧ contents sb' = contents sb ++ [(bytes m, marked m)] := by
  cases m with
  | nil => exact absurd rfl hm
  | cons m0 m =>
    obtain ⟨sb', hrun, hbase, hmb, -⟩ := @sbappendrecord_eq sb ro m0 m h.toBase hown
    obtain ⟨hmarks, hmark⟩ := newRecord_marks ro m0 m
    obtain ⟨hshape, hcont⟩ := h.concat hbase hmb hmarks
    exact ⟨sb', hrun, hshape, by rw [hcont, bytes_newRecord, hmark]⟩

theorem sbappend (h : Shape sb) (hown : Own sb m) (hm : m ≠ []) : ∃ sb', UipcSocket2.sbappend ro sb m = some sb' ∧
    Shape sb' ∧ contents sb' = (contents sb).append (bytes m) (marked m) := by
  obtain ⟨sb', hrun, hbase, happ⟩ := @sbappend_eq sb ro m h.toBase hown hm
  refine ⟨sb', hrun, ?_⟩
  cases happ with
  | fill hnil hmb _ =>
    obtain ⟨hshape, hcont⟩ := fill hbase hnil hmb
    refine ⟨hshape, ?_⟩
    rw [hcont, contents, hnil]
    rfl
  | extend pre r n hmb hmark hmb' _ =>
    obtain ⟨hshape, hcont⟩ := h.extend hbase hmb hmb' fun h => absurd h (by rw [marked, hmark]; exact Bool.false_ne_true)
    have hlast : ((contents sb).getLast?.any fun r => r.2) = false := by
      rw [contents_concat hmb, getLast?_concat]
      exact hmark
    rw [Fifo.append, if_neg (by rw [hlast]; exact Bool.false_ne_true)]
    exact ⟨hshape, hcont⟩
  | record pre r m0 rest hcons hmb hmark hmb' _ =>
    subst hcons
    obtain ⟨hmarks, hmark'⟩ := newRecord_marks ro m0 rest
    obtain ⟨hshape, hcont⟩ := h.concat hbase hmb' hmarks
    have hlast : ((contents sb).getLast?.any fun r => r.2) = true := by
      rw [contents_concat hmb, getLast?_concat]
      exact hmark
    rw [Fifo.append, if_pos hlast, hcont, bytes_newRecord, hmark']
    exact ⟨hshape, rfl⟩

theorem sbappendstream (h : Shape sb) (hlaw : Lawful sb (.sbappendstream ro m)) (hord : Orderly sb (.sbappendstream ro m)) :
    ∃ sb', UipcSocket2.sbappendstream ro sb m = some sb' ∧ Shape sb' ∧ contents sb' = (contents sb).extend (bytes m) (marked m) := by
  obtain ⟨hown, hone⟩ := hlaw
  have hfirst : sb.mb.head?.bind Record.first = sb.lastrecord := by
    rw [h.lastrecord]
    match sb.mb, hone with
    | [], _ => rfl
    | [r], _ => rfl
  rcases hord with hvain | ⟨htail, hmark⟩
  · refine ⟨sb, ?_, h, ?_⟩
    · rw [UipcSocket2.sbappendstream, if_pos hfirst, sbcompress_vain hvain (h.toBase.lastrecord_ne hown), Option.map_some, hfirst]
    · obtain ⟨hbytes, hmark⟩ := vain_iff.mp hvain
      rw [hbytes, hmark, Fifo.extend_vain]
  obtain ⟨sb', hrun, hbase, hq⟩ := @sbappendstream_eq sb ro m h.toBase hown hfirst htail
  refine ⟨sb', hrun, ?_⟩
  rcases hq with ⟨hnil, hmb, -⟩ | ⟨r, n, hmb, hmb', -⟩
  · exact fill hbase hnil hmb
  · exact @h.extend sb sb' ro [] r n m hbase hmb hmb' (hmark _ (by rw [hmb]; rfl) n (by simp))

theorem putRecord (h : Shape sb) {r : Record} (hown : Own sb r) (hr : r ≠ []) (hmarks : ∀ x ∈ r.dropLast, x.eor = false) :
    ∃ sb', UipcSocket2.putRecord sb r = some sb' ∧ Shape sb' ∧ contents sb' = contents sb ++ [(bytes r, marked r)] := by
  obtain ⟨sb', hrun, hbase, hmb, -⟩ := putRecord_eq h.toBase hown hr
  exact ⟨sb', hrun, h.concat hbase hmb hmarks⟩

/-- A call does to the queue what it is for; one that fails changes nothing. -/
theorem call {c : Call} (h : Shape sb) (hlaw : Lawful sb c) (hord : Orderly sb c) :
    ∃ ok sb', UipcSocket2.call sb c = some (ok, sb') ∧ Shape sb' ∧ contents sb' = (contents sb).call ok c ∧ (ok = false → sb' = sb) := by
  cases c with
  | sbappend ro m =>
    by_cases hm : m = []
    · refine ⟨true, sb, ?_, h, ?_, fun _ => rfl⟩
      · rw [hm]
        rfl
      · rw [Fifo.call, if_pos hm]
    · obtain ⟨sb', hrun, hshape, hcont⟩ := @h.sbappend sb ro m hlaw hm
      refine ⟨true, sb', congrArg (Option.map (true, ·)) hrun, hshape, ?_, fun h => absurd h (by decide)⟩
      rw [Fifo.call, if_neg hm, hcont]
  | sbappendstream ro m =>
    obtain ⟨sb', hrun, hshape, hcont⟩ := h.sbappendstream hlaw hord
    exact ⟨true, sb', congrArg (Option.map (true, ·)) hrun, hshape, hcont, fun h => absurd h (by decide)⟩
  | sbappendrecord ro m =>
    by_cases hm : m = []
    · refine ⟨true, sb, ?_, h, ?_, fun _ => rfl⟩
      · rw [hm]
        rfl
      · rw [Fifo.call, if_pos hm]
    · obtain ⟨sb', hrun, hshape, hcont⟩ := @h.sbappendrecord sb ro m hlaw hm
      refine ⟨true, sb', congrArg (Option.map (true, ·)) hrun, hshape, ?_, fun h => absurd h (by decide)⟩
      rw [Fifo.call, if_neg hm, hcont]
  | sbappendaddr asa m0 control a =>
    obtain ⟨hown, hunused, hhdr⟩ := hlaw
    rcases sbappendaddr_cases asa a hhdr with hrun | ⟨n, hn, hrun⟩
    · exact ⟨false, sb, hrun, h, rfl, fun _ => rfl⟩
    obtain ⟨-, hdata, heor, -⟩ := sonameMbuf_some hn
    have hmarks : ∀ x ∈ (n :: (control ++ m0)).dropLast, x.eor = false := by
      cases hcons : control ++ m0 with
      | nil => exact fun x hx => absurd hx not_mem_nil
      | cons y rest =>
        rw [dropLast_cons_of_ne_nil (cons_ne_nil _ _), ← hcons]
        exact forall_mem_cons.mpr ⟨heor, hord⟩
    obtain ⟨sb', hput, hshape, hcont⟩ := h.putRecord (hown.soname hunused hn) (cons_ne_nil _ _) hmarks
    rw [hput] at hrun
    refine ⟨true, sb', hrun, hshape, ?_, fun h => absurd h (by decide)⟩
    rw [hcont, Fifo.call, if_pos rfl, bytes_cons, marked_cons, hdata, heor, Bool.false_or]
  | sbappendcontrol m0 control =>
    obtain ⟨hown, hcontrol⟩ := hlaw
    by_cases hspace : ((control ++ m0).map Mbuf.len).sum > sbspace sb
    · exact ⟨false, sb, by rw [UipcSocket2.call, UipcSocket2.sbappendcontrol, if_neg hcontrol, if_pos hspace], h, rfl, fun _ => rfl⟩
    obtain ⟨sb', hput, hshape, hcont⟩ := h.putRecord hown (append_ne_nil_of_left_ne_nil hcontrol m0) hord
    refine ⟨true, sb', ?_, hshape, hcont, fun h => absurd h (by decide)⟩
    rw [UipcSocket2.call, UipcSocket2.sbappendcontrol, if_neg hcontrol, if_neg hspace, hput]
    rfl
  | sbdrop len =>
    have hlen : len.toNat ≤ size sb.mb.flatten := h.cc ▸ hlaw
    obtain ⟨sb', hrun, hbase, hmb, -⟩ := sbdrop_eq h.toBase hlen
    obtain ⟨hmarks, hcont⟩ := dropQueue_marks sb.mb len.toNat h.marks
    refine ⟨true, sb', congrArg (Option.map (true, ·)) hrun, ⟨hbase, hmb ▸ hmarks⟩, ?_, fun h => absurd h (by decide)⟩
    rw [contents, hmb, hcont]
    rfl
  | sbdroprecord =>
    obtain ⟨hbase, hmb, -⟩ := sbdroprecord_eq h.toBase
    refine ⟨true, _, rfl, ⟨hbase, ?_⟩, ?_, fun h => absurd h (by decide)⟩
    · intro r hr
      rw [hmb] at hr
      exact h.marks r (mem_of_mem_tail hr)
    · rw [contents, hmb, map_tail]
      rfl
  | sbinsertoob ro m => exact hord.elim
  | sbappendaddrchain asa m0 answers => exact hord.elim
  | sbflush => exact hord.elim

end Shape

/-- The buffer, and what it should hold by the calls so far and their answers. -/
structure World where
  sb : Sockbuf
  fifo : Fifo

/-- Each step is a call; the FIFO follows it by the answer. -/
def history : System World Call where
  init w := (∃ hiwat mbmax, w.sb = empty hiwat mbmax) ∧ w.fifo = []
  step w c w' := ∃ ok, UipcSocket2.call w.sb c = some (ok, w'.sb) ∧ w'.fifo = w.fifo.call ok c

/-- The queue read front to back is what was appended and not dropped, record by record, the mark of a record on its last
mbuf; no call goes astray, and one that fails changes nothing. -/
theorem lossless_fifo {w : World} (h : history.Reach (fun w c => Lawful w.sb c ∧ Orderly w.sb c) w) :
    contents w.sb = w.fifo ∧ (∀ r ∈ w.sb.mb, marked r = true → ∃ m ∈ r.getLast?, m.eor = true ∧ ∀ x ∈ r.dropLast, x.eor = false) ∧
      ∀ c, Lawful w.sb c → Orderly w.sb c → ∃ ok sb', call w.sb c = some (ok, sb') ∧ (ok = false → sb' = w.sb) := by
  have hinv : Shape w.sb ∧ contents w.sb = w.fifo := by
    apply h.invariant
    · rintro w ⟨⟨hiwat, mbmax, hsb⟩, hfifo⟩
      rw [hsb, hfifo]
      exact ⟨⟨(Book.init hiwat mbmax).toBase, fun _ hr => absurd hr not_mem_nil⟩, rfl⟩
    rintro w c w' ⟨hshape, hcont⟩ hc ⟨ok, hstep, hfifo⟩
    obtain ⟨ok', sb', hrun, hshape', hcont', -⟩ := hshape.call hc.1 hc.2
    rw [hstep] at hrun
    obtain ⟨rfl, rfl⟩ := hrun
    exact ⟨hshape', by rw [hcont', hfifo, hcont]⟩
  obtain ⟨hshape, hcont⟩ := hinv
  refine ⟨hcont, ?_, ?_⟩
  · intro r hr hmark
    have hdrop := hshape.marks r hr
    rcases eq_nil_or_concat r with rfl | ⟨s, n, rfl⟩
    · cases hmark
    rw [concat_eq_append, dropLast_concat] at hdrop
    rw [concat_eq_append, getLast?_concat, dropLast_concat]
    have hs : marked s = false := by simpa [marked] using hdrop
    rw [concat_eq_append, marked_append, hs, marked_cons, marked_nil, Bool.or_false] at hmark
    exact ⟨n, rfl, hmark, hdrop⟩
  · intro c hlaw hord
    obtain ⟨ok, sb', hrun, -, -, hfail⟩ := hshape.call hlaw hord
    exact ⟨ok, sb', hrun, hfail⟩

/-- The buffer with `message` in it. -/
def holding : Sockbuf := ⟨[[plain 1 .control [7], plain 2 .data [8, 9]]], 3, 1024, some 1, some 2, 100, 100⟩

/-- The first byte of `message` is dropped. -/
theorem lossless_fifo_message : ∃ w, history.Reach (fun w c => Lawful w.sb c ∧ Orderly w.sb c) w ∧ w.fifo = [([8, 9], false)] ∧
    contents w.sb = [([8, 9], false)] := by
  have hlaw : Lawful (empty 100 100) message := by
    show Own _ _
    decide
  have hdrop : Lawful holding (.sbdrop 1) := by
    show (1 : Int).toNat ≤ 3
    decide
  have hreach : history.Reach (fun w c => Lawful w.sb c ∧ Orderly w.sb c)
      ⟨⟨[[plain 2 .data [8, 9]]], 2, 512, some 2, some 2, 100, 100⟩, [([8, 9], false)]⟩ := by
    refine .step (s := ⟨holding, [([7, 8, 9], false)]⟩) (a := .sbdrop 1) ?_ ⟨hdrop, trivial⟩ ⟨true, by decide, by decide⟩
    exact .step (s := ⟨empty 100 100, []⟩) (a := message) (.init ⟨⟨100, 100, rfl⟩, rfl⟩) ⟨hlaw, trivial⟩
      ⟨true, by decide, by decide⟩
  exact ⟨_, hreach, rfl, (lossless_fifo hreach).1⟩

/-- A record of one mbuf, and a stream behind it: the record is gone. -/
theorem stream_loses_record : ∃ w, history.Reach (fun w c => Lawful w.sb c) w ∧ w.fifo = [([7, 8], false)] ∧
    contents w.sb = [([8], false)] := by
  have hrecord : Lawful (empty 100 100) (.sbappendrecord (fun _ => false) [plain 1 .data [7]]) := by
    show Own _ _
    decide
  have hstream : Lawful ⟨[[plain 1 .data [7]]], 1, 512, some 1, none, 100, 100⟩ (.sbappendstream (fun _ => false) [plain 2 .data [8]]) := by
    show Own _ _ ∧ _
    decide
  have hreach : history.Reach (fun w c => Lawful w.sb c)
      ⟨⟨[[plain 2 .data [8]]], 2, 1024, some 2, some 2, 100, 100⟩, [([7, 8], false)]⟩ := by
    refine .step (s := ⟨⟨[[plain 1 .data [7]]], 1, 512, some 1, none, 100, 100⟩, [([7], false)]⟩)
      (a := .sbappendstream (fun _ => false) [plain 2 .data [8]]) ?_ hstream ⟨true, by decide, by decide⟩
    exact .step (s := ⟨empty 100 100, []⟩) (a := .sbappendrecord (fun _ => false) [plain 1 .data [7]])
      (.init ⟨⟨100, 100, rfl⟩, rfl⟩) hrecord ⟨true, by decide, by decide⟩
  exact ⟨_, hreach, rfl, by decide⟩

end NetBSD.Kern.UipcSocket2
