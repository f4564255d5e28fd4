import NetBSD.Kern.UipcSocket2.Drops

/-! The bookkeeping of a socket buffer over whole runs.

`Book` is what the debugging checks of the source test: the counters are exact, the two pointers are at the last record
and its last mbuf, and only first mbufs point to a next record. It survives every call that meets `Spared`; the calls
left out are those that leave `sb_mbtail` behind, those that leave a second pointer to the next record, and a flush of
more bytes than an `int` counts. -/
namespace NetBSD.Kern.UipcSocket2
open List Option
open Lib

structure Book (sb : Sockbuf) : Prop extends Base sb where
  mbtail : sb.mbtail = sb.mb.getLast?.bind Record.last
  nextpkt : ∀ r ∈ sb.mb, ∀ m ∈ r.tail, m.nextpkt = none

inductive Call where
  | sbappend (ro : Addr → Bool) (m : List Mbuf)
  | sbappendstream (ro : Addr → Bool) (m : List Mbuf)
  | sbappendrecord (ro : Addr → Bool) (m : List Mbuf)
  | sbinsertoob (ro : Addr → Bool) (m : List Mbuf)
  | sbappendaddr (asa : List UInt8) (m0 control : List Mbuf) (alloc : Alloc)
  | sbappendcontrol (m0 control : List Mbuf)
  | sbappendaddrchain (asa : List UInt8) (m0 : List Record) (answers : List (Option Addr))
  | sbdrop (len : Int)
  | sbdroprecord
  | sbflush

/-- A flush is given as many rounds as there are records; more rounds do not help it. -/
def next (sb : Sockbuf) : Call → Option Sockbuf
  | .sbappend ro m => sbappend ro sb m
  | .sbappendstream ro m => sbappendstream ro sb m
  | .sbappendrecord ro m => sbappendrecord ro sb m
  | .sbinsertoob ro m => sbinsertoob ro sb m
  | .sbappendaddr asa m0 control alloc => (sbappendaddr sb asa m0 control alloc).map Prod.snd
  | .sbappendcontrol m0 control => (sbappendcontrol sb m0 control).map Prod.snd
  | .sbappendaddrchain asa m0 answers => (sbappendaddrchain sb asa m0 answers).map Prod.snd
  | .sbdrop len => sbdrop sb len
  | .sbdroprecord => some (sbdroprecord sb)
  | .sbflush => sbflush sb.mb.length sb

/-- The addresses m_get and m_gethdr answer with are of no mbuf in use. -/
def Unused (sb : Sockbuf) (m : List Mbuf) (answers : List (Option Addr)) : Prop :=
  ∀ a, some a ∈ answers → a ∉ addrs sb.mb ∧ a ∉ m.map Mbuf.addr

/-- What the callers promise: the mbufs are theirs, a stream is one record, data with a name has a packet header, and no
more is dropped than there is. -/
def Lawful (sb : Sockbuf) : Call → Prop
  | .sbappend _ m | .sbappendrecord _ m | .sbinsertoob _ m => Own sb m
  | .sbappendstream _ m => Own sb m ∧ sb.mb.length ≤ 1
  | .sbappendaddr _ m0 control alloc =>
    Own sb (control ++ m0) ∧ Unused sb (control ++ m0) [alloc.get] ∧ ∀ m ∈ m0.head?, m.pkthdr.isSome = true
  | .sbappendcontrol m0 control => Own sb (control ++ m0) ∧ control ≠ []
  | .sbappendaddrchain asa m0 answers => Own sb m0.flatten ∧ Unused sb m0.flatten answers ∧ m0 ≠ [] ∧ asa.length ≤ MHLEN ∧
    ∀ r ∈ m0, ∃ m ∈ r.head?, m.pkthdr.isSome = true
  | .sbdrop len => len.toNat ≤ sb.cc
  | .sbdroprecord | .sbflush => True

/-- A record started by a chain has an mbuf behind the first: only then does sbcompress set `sb_mbtail`. -/
def Followed (ro : Addr → Bool) : List Mbuf → Bool
  | [] => true
  | m0 :: m => linksNew ro m0 m

def marked (r : Record) : Bool := r.any Mbuf.eor

/-- The calls that keep the books. -/
def Spared (sb : Sockbuf) : Call → Prop
  | .sbappend ro m => ∀ r ∈ sb.mb.getLast?, marked r = true → Followed ro m = true
  | .sbappendrecord ro m => Followed ro m = true
  | .sbinsertoob ro m => m = [] ∨ Followed ro m = (sb.mb.dropWhile oobTrain).isEmpty
  | .sbappendaddrchain _ m0 answers => m0.length = 1 ∨ granted answers < m0.length
  | .sbflush => sb.cc < 2 ^ 31
  | _ => True

/-! ### One call -/

section Pack
variable {ro : Addr → Bool} {eor : Bool} {n : Mbuf} {t : List Mbuf} {r : Record}

theorem pack_tail_nextpkt (ht : ∀ m ∈ t, m.nextpkt = none) : ∀ m ∈ (pack ro eor n t).tail, m.nextpkt = none := by
  fun_induction pack ro eor n t with
  | case1 => simp
  | case2 _ _ _ _ _ _ ih => exact ih (forall_mem_of_forall_mem_cons ht)
  | case3 _ _ _ _ _ _ _ ih => exact ih (forall_mem_of_forall_mem_cons ht)
  | case4 _ _ m => exact pack_nextpkt (ht m mem_cons_self) (forall_mem_of_forall_mem_cons ht)

theorem extend_nextpkt (hr : ∀ m ∈ (r ++ [n]).tail, m.nextpkt = none) (ht : ∀ m ∈ t, m.nextpkt = none) :
    ∀ m ∈ (r ++ pack ro eor n t).tail, m.nextpkt = none := by
  cases r with
  | nil => exact pack_tail_nextpkt ht
  | cons x r =>
    rw [cons_append, tail_cons, forall_mem_append] at hr ⊢
    exact ⟨hr.1, pack_nextpkt (hr.2 n mem_cons_self) ht⟩

theorem extend_last : Record.last (r ++ pack ro eor n t) =
    if links ro eor n t then Record.last (pack ro eor n t) else some n.addr := by
  simp only [Record.last, getLast?_append_of_ne_nil r pack_ne_nil, pack_links, ite_not]
  exact pack_getLast.symm

end Pack

namespace Book
variable {sb sb' : Sockbuf} {ro : Addr → Bool}

theorem fill (hbase : Base sb') {p : Record} (hp : ∀ m ∈ p, m.nextpkt = none) (hmb : sb'.mb = if p = [] then [] else [p])
    (htail : sb'.mbtail = Record.last p) : Book sb' := by
  refine ⟨hbase, ?_, ?_⟩
  · rw [htail, hmb]
    split
    · next hnil => rw [hnil]; rfl
    · rfl
  intro r hr m hm
  rw [hmb] at hr
  split at hr
  · cases hr
  · rw [mem_singleton.mp hr] at hm
    exact hp m (mem_of_mem_tail hm)

theorem extend (h : Book sb) (hbase : Base sb') {pre : List Record} {r : Record} {n : Mbuf} {m : List Mbuf}
    (hown : Own sb m) (hmb : sb.mb = pre ++ [r ++ [n]]) (hmb' : sb'.mb = pre ++ [r ++ pack ro false n m])
    (htail : sb'.mbtail = if links ro false n m then Record.last (pack ro false n m) else sb.mbtail) : Book sb' := by
  have hold : sb.mbtail = some n.addr := by
    rw [h.mbtail, hmb]
    simp [Record.last]
  refine ⟨hbase, ?_, ?_⟩
  · rw [htail, hmb', hold, getLast?_concat, bind_some, extend_last]
  rw [hmb', forall_mem_append, forall_mem_singleton]
  have hnext := h.nextpkt
  rw [hmb, forall_mem_append, forall_mem_singleton] at hnext
  exact ⟨hnext.1, extend_nextpkt hnext.2 hown.nextpkt⟩

theorem insert (h : Book sb) (hbase : Base sb') {pre post : List Record} {r : Record} (hmb : sb.mb = pre ++ post)
    (hmb' : sb'.mb = pre ++ r :: post) (hr : ∀ m ∈ r.tail, m.nextpkt = none)
    (htail : sb'.mbtail = if post = [] then Record.last r else sb.mbtail) : Book sb' := by
  refine ⟨hbase, ?_, ?_⟩
  · rw [htail, hmb']
    split
    · next hpost => rw [hpost, getLast?_concat, bind_some]
    · next hpost =>
      rw [h.mbtail, hmb, getLast?_append_of_ne_nil _ hpost, getLast?_append_of_ne_nil _ (cons_ne_nil _ _), getLast?_cons_of_ne_nil hpost]
  · have hnext := h.nextpkt
    rw [hmb, forall_mem_append] at hnext
    rw [hmb', forall_mem_append, forall_mem_cons]
    exact ⟨hnext.1, hr, hnext.2⟩

theorem newRecord_nextpkt {m0 : Mbuf} {m : List Mbuf} (hown : Own sb (m0 :: m)) : ∀ x ∈ (newRecord ro m0 m).tail, x.nextpkt = none :=
  pack_tail_nextpkt (moveEor_nextpkts m0 m (forall_mem_of_forall_mem_cons hown.nextpkt))

theorem sbappendrecord (h : Book sb) {m : List Mbuf} (hown : Own sb m) (hspared : Followed ro m = true) :
    ∃ sb', UipcSocket2.sbappendrecord ro sb m = some sb' ∧ Book sb' := by
  cases m with
  | nil => exact ⟨sb, rfl, h⟩
  | cons m0 m =>
    obtain ⟨sb', hrun, hbase, hmb, htail⟩ := @sbappendrecord_eq sb ro m0 m h.toBase hown
    have hlinks : linksNew ro m0 m = true := hspared
    rw [hlinks] at htail
    exact ⟨sb', hrun, h.insert hbase (append_nil _).symm hmb (newRecord_nextpkt hown) htail⟩

theorem sbappend (h : Book sb) {m : List Mbuf} (hown : Own sb m) (hspared : ∀ r ∈ sb.mb.getLast?, marked r = true → Followed ro m = true) :
    ∃ sb', UipcSocket2.sbappend ro sb m = some sb' ∧ Book sb' := by
  by_cases hm : m = []
  · exact ⟨sb, by rw [UipcSocket2.sbappend, if_pos hm], h⟩
  obtain ⟨sb', hrun, hbase, happ⟩ := @sbappend_eq sb ro m h.toBase hown hm
  refine ⟨sb', hrun, ?_⟩
  cases happ with
  | fill hnil hmb htail => exact fill hbase (packEmpty_nextpkt hown.nextpkt) hmb htail
  | extend pre r n hmb _ hmb' htail => exact h.extend hbase hown hmb hmb' htail
  | record pre r m0 rest hcons hmb hmark hmb' htail =>
    subst hcons
    have hlinks : linksNew ro m0 rest = true := hspared r (by rw [hmb, getLast?_concat]; rfl) hmark
    rw [hlinks] at htail
    exact h.insert hbase (append_nil _).symm hmb' (newRecord_nextpkt hown) htail

theorem sbappendstream (h : Book sb) {m : List Mbuf} (hown : Own sb m) (hone : sb.mb.length ≤ 1) :
    ∃ sb', UipcSocket2.sbappendstream ro sb m = some sb' ∧ Book sb' := by
  have hfirst : sb.mb.head?.bind Record.first = sb.lastrecord := by
    rw [h.lastrecord]
    match sb.mb, hone with
    | [], _ => rfl
    | [r], _ => rfl
  obtain ⟨sb', hrun, hbase, hq⟩ := @sbappendstream_eq sb ro m h.toBase hown hfirst h.mbtail
  refine ⟨sb', hrun, ?_⟩
  rcases hq with ⟨-, hmb, htail⟩ | ⟨r, n, hmb, hmb', htail⟩
  · exact fill hbase (packEmpty_nextpkt hown.nextpkt) hmb htail
  · exact @h.extend _ sb' ro hbase [] r n m hown hmb hmb' htail

theorem sbinsertoob (h : Book sb) {m : List Mbuf} (hown : Own sb m) (hspared : m = [] ∨ Followed ro m = (sb.mb.dropWhile oobTrain).isEmpty) :
    ∃ sb', UipcSocket2.sbinsertoob ro sb m = some sb' ∧ Book sb' := by
  cases m with
  | nil => exact ⟨sb, rfl, h⟩
  | cons m0 m =>
    obtain ⟨sb', hrun, hbase, hmb, htail⟩ := @sbinsertoob_eq sb ro m0 m h.toBase hown
    have hlinks : linksNew ro m0 m = (sb.mb.dropWhile oobTrain).isEmpty := hspared.resolve_left (cons_ne_nil _ _)
    rw [hlinks] at htail
    simp only [List.isEmpty_iff] at htail
    exact ⟨sb', hrun, h.insert hbase takeWhile_append_dropWhile.symm hmb (newRecord_nextpkt hown) htail⟩

theorem putRecord (h : Book sb) {r : Record} (hown : Own sb r) (hr : r ≠ []) : ∃ sb', UipcSocket2.putRecord sb r = some sb' ∧ Book sb' := by
  obtain ⟨sb', hrun, hbase, hmb, htail⟩ := putRecord_eq h.toBase hown hr
  exact ⟨sb', hrun, h.insert hbase (append_nil _).symm hmb (fun x hx => hown.nextpkt x (mem_of_mem_tail hx)) htail⟩

end Book

theorem sonameMbuf_some {asa : List UInt8} {a : Alloc} {m : Mbuf} (h : sonameMbuf asa a = some m) :
    a.get = some m.addr ∧ m.data = asa ∧ m.eor = false ∧ m.nextpkt = none := by
  simp only [sonameMbuf, bind_eq_bind, bind_eq_some_iff, Option.pure_def] at h
  obtain ⟨addr, haddr, h⟩ := h
  split at h
  · obtain ⟨size, -, h⟩ := bind_eq_some_iff.mp h
    cases h
    exact ⟨haddr, rfl, rfl, rfl⟩
  · cases h
    exact ⟨haddr, rfl, rfl, rfl⟩

theorem Own.soname {sb : Sockbuf} {m : List Mbuf} {asa : List UInt8} {a : Alloc} {n : Mbuf} (hown : Own sb m)
    (hunused : Unused sb m [a.get]) (h : sonameMbuf asa a = some n) : Own sb (n :: m) := by
  obtain ⟨hget, -, -, hnext⟩ := sonameMbuf_some h
  obtain ⟨haway, hne⟩ := hunused n.addr (hget ▸ mem_singleton_self _)
  exact ⟨nodup_cons.mpr ⟨hne, hown.nodup⟩, forall_mem_cons.mpr ⟨haway, hown.away⟩, forall_mem_cons.mpr ⟨hnext, hown.nextpkt⟩⟩

theorem sbappendaddr_cases {sb : Sockbuf} (asa : List UInt8) {m0 control : List Mbuf} (a : Alloc)
    (hhdr : ∀ m ∈ m0.head?, m.pkthdr.isSome = true) : sbappendaddr sb asa m0 control a = some (false, sb) ∨ ∃ n, sonameMbuf asa a = some n ∧
        sbappendaddr sb asa m0 control a = (putRecord sb (n :: (control ++ m0))).map (true, ·) := by
  have hlen : ∃ len, hdrLen m0 = some len := by
    cases m0 with
    | nil => exact ⟨0, rfl⟩
    | cons m m0 => exact isSome_iff_exists.mp (hhdr m rfl)
  obtain ⟨len, hlen⟩ := hlen
  rw [sbappendaddr, hlen, bind_eq_bind, bind_some]
  split
  · exact .inl rfl
  cases hn : sonameMbuf asa a with
  | none => exact .inl rfl
  | some n => exact .inr ⟨n, rfl, rfl⟩

theorem prependAll_some {asa : List UInt8} (m0 : List Record) : ∀ (answers : List (Option Addr)) (sb : Sockbuf) (made : List Record),
    asa.length ≤ MHLEN → (∀ r ∈ m0, ∃ m ∈ r.head?, m.pkthdr.isSome = true) → ∃ x, prependAll asa sb made m0 answers = some x := by
  induction m0 with
  | nil => exact fun answers sb made _ _ => ⟨_, rfl⟩
  | cons r m0 ih =>
    intro answers sb made hasa hhdr
    obtain ⟨m, hm, hsome⟩ := hhdr r mem_cons_self
    obtain ⟨rest, rfl⟩ := head?_eq_some_iff.mp hm
    obtain ⟨len, hlen⟩ := isSome_iff_exists.mp hsome
    match answers with
    | [] => exact ⟨_, rfl⟩
    | none :: _ => exact ⟨_, rfl⟩
    | some addr :: answers =>
      simp only [prependAll, prependSockaddr, if_neg (Nat.not_lt.mpr hasa), hlen, map_some, bind_eq_bind, bind_some]
      exact ih answers _ _ hasa fun r hr => hhdr r (mem_cons_of_mem _ hr)

namespace Book
variable {sb sb' : Sockbuf}

theorem sbappendaddr (h : Book sb) (asa : List UInt8) {m0 control : List Mbuf} {a : Alloc} (hown : Own sb (control ++ m0))
    (hunused : Unused sb (control ++ m0) [a.get]) (hhdr : ∀ m ∈ m0.head?, m.pkthdr.isSome = true) :
    ∃ b sb', UipcSocket2.sbappendaddr sb asa m0 control a = some (b, sb') ∧ Book sb' := by
  rcases sbappendaddr_cases asa a hhdr with hrun | ⟨n, hn, hrun⟩
  · exact ⟨false, sb, hrun, h⟩
  obtain ⟨sb', hput, hbook⟩ := h.putRecord (hown.soname hunused hn) (cons_ne_nil _ _)
  rw [hput] at hrun
  exact ⟨true, sb', hrun, hbook⟩

theorem sbappendcontrol (h : Book sb) {m0 control : List Mbuf} (hown : Own sb (control ++ m0)) (hcontrol : control ≠ []) :
    ∃ b sb', UipcSocket2.sbappendcontrol sb m0 control = some (b, sb') ∧ Book sb' := by
  rw [UipcSocket2.sbappendcontrol, if_neg hcontrol]
  split
  · exact ⟨false, sb, rfl, h⟩
  obtain ⟨sb', hput, hbook⟩ := h.putRecord hown (append_ne_nil_of_left_ne_nil hcontrol m0)
  rw [hput]
  exact ⟨true, sb', rfl, hbook⟩

theorem sbappendaddrchain (h : Book sb) {asa : List UInt8} {m0 : List Record} {answers : List (Option Addr)}
    (hlaw : Lawful sb (.sbappendaddrchain asa m0 answers)) (hspared : m0.length = 1 ∨ granted answers < m0.length) :
    ∃ b sb', UipcSocket2.sbappendaddrchain sb asa m0 answers = some (b, sb') ∧ Book sb' := by
  obtain ⟨hown, hunused, hne, hasa, hhdr⟩ := hlaw
  by_cases hrefused : granted answers < m0.length
  · obtain ⟨⟨sb₁, made, all⟩, hmade⟩ := prependAll_some m0 answers sb [] hasa hhdr
    obtain ⟨-, -, -, hall⟩ := prependAll_eq m0 _ _ _ hmade
    have hfalse : all = false := by
      rw [← Bool.not_eq_true, hall]
      omega
    have hrun : UipcSocket2.sbappendaddrchain sb asa m0 answers = some (false, made.foldl (fun sb n => n.foldl sbfree sb) sb₁) := by
      simp [UipcSocket2.sbappendaddrchain, hmade, hfalse, bind_eq_bind, bind_some, Bool.false_eq_true, if_false, Option.pure_def]
    obtain ⟨-, hsame⟩ := sbappendaddrchain_refused hrefused hrun
    exact ⟨false, _, hrun, hsame.symm ▸ h⟩
  obtain ⟨r, rfl⟩ := length_eq_one_iff.mp (hspared.resolve_right hrefused)
  obtain ⟨m, hm, hsome⟩ := hhdr r mem_cons_self
  obtain ⟨rest, rfl⟩ := head?_eq_some_iff.mp hm
  obtain ⟨len, hlen⟩ := isSome_iff_exists.mp hsome
  rw [flatten_singleton] at hown hunused
  cases answers with
  | nil => exact absurd (Nat.zero_lt_one) hrefused
  | cons answer answers =>
    cases answer with
    | none => exact absurd (Nat.zero_lt_one) hrefused
    | some addr =>
      obtain ⟨haway, haddr⟩ := hunused addr mem_cons_self
      obtain ⟨sb', n, hrun, hbase, hmb, htail⟩ := @sbappendaddrchain_one sb asa m rest addr answers len hlen hasa h.toBase hown haddr haway
      refine ⟨true, sb', hrun, h.insert hbase (append_nil _).symm hmb ?_ htail⟩
      exact forall_mem_cons.mpr ⟨rfl, forall_mem_of_forall_mem_cons hown.nextpkt⟩

theorem sbdrop (h : Book sb) {len : Int} (hlen : len.toNat ≤ sb.cc) : ∃ sb', UipcSocket2.sbdrop sb len = some sb' ∧ Book sb' := by
  obtain ⟨sb', hrun, hbase, hmb, htail⟩ := sbdrop_eq h.toBase (h.cc ▸ hlen)
  refine ⟨sb', hrun, hbase, ?_, ?_⟩
  · rw [htail, hmb]
    split
    · next hnil => rw [hnil]; rfl
    · next hne => rw [h.mbtail, dropQueue_last hne]
  intro r hr m hm
  rw [hmb] at hr
  rcases dropQueue_cases sb.mb len.toNat with hsuf | ⟨s, next, k, hsuf, -, heq⟩
  · exact h.nextpkt r (hsuf.mem hr) m hm
  rw [heq] at hr
  rcases mem_cons.mp hr with rfl | hr
  · exact h.nextpkt s (hsuf.mem mem_cons_self) m (left_tail k s m hm)
  · exact h.nextpkt r (hsuf.mem (mem_cons_of_mem _ hr)) m hm

theorem sbdroprecord (h : Book sb) : Book (UipcSocket2.sbdroprecord sb) := by
  obtain ⟨hbase, hmb, htail⟩ := sbdroprecord_eq h.toBase
  refine ⟨hbase, ?_, ?_⟩
  · rw [htail, hmb]
    split
    · next hnil => rw [hnil]; rfl
    · next hne =>
      rw [h.mbtail]
      cases hq : sb.mb with
      | nil => rw [hq] at hne; exact absurd rfl hne
      | cons r q =>
        rw [hq, tail_cons] at hne
        rw [tail_cons, getLast?_cons_of_ne_nil hne]
  · intro r hr
    rw [hmb] at hr
    exact h.nextpkt r (mem_of_mem_tail hr)

theorem next (h : Book sb) {c : Call} (hlaw : Lawful sb c) (hspared : Spared sb c) : ∃ sb', UipcSocket2.next sb c = some sb' ∧ Book sb' := by
  cases c with
  | sbappend ro m => exact h.sbappend hlaw hspared
  | sbappendstream ro m => exact h.sbappendstream hlaw.1 hlaw.2
  | sbappendrecord ro m => exact h.sbappendrecord hlaw hspared
  | sbinsertoob ro m => exact h.sbinsertoob hlaw hspared
  | sbappendaddr asa m0 control a =>
    obtain ⟨b, sb', hrun, hbook⟩ := h.sbappendaddr asa hlaw.1 hlaw.2.1 hlaw.2.2
    exact ⟨sb', by rw [UipcSocket2.next, hrun]; rfl, hbook⟩
  | sbappendcontrol m0 control =>
    obtain ⟨b, sb', hrun, hbook⟩ := h.sbappendcontrol hlaw.1 hlaw.2
    exact ⟨sb', by rw [UipcSocket2.next, hrun]; rfl, hbook⟩
  | sbappendaddrchain asa m0 answers =>
    obtain ⟨b, sb', hrun, hbook⟩ := h.sbappendaddrchain hlaw hspared
    exact ⟨sb', by rw [UipcSocket2.next, hrun]; rfl, hbook⟩
  | sbdrop len => exact h.sbdrop hlaw
  | sbdroprecord => exact ⟨_, rfl, h.sbdroprecord⟩
  | sbflush =>
    obtain ⟨sb', hrun, hbase, hmb, htail⟩ := sbflush_ends sb.mb.length sb h.toBase hspared (le_refl _)
    refine ⟨sb', hrun, hbase, ?_, ?_⟩
    · rw [htail, hmb]
      rfl
    · rw [hmb]
      exact fun r hr => absurd hr not_mem_nil

end Book

/-! ### Runs -/

def empty (hiwat mbmax : Nat) : Sockbuf := ⟨[], 0, 0, none, none, hiwat, mbmax⟩

def system : System Sockbuf Call := .ofStep (fun sb => ∃ hiwat mbmax, sb = empty hiwat mbmax) next

theorem Book.init (hiwat mbmax : Nat) : Book (empty hiwat mbmax) where
  nodup := nodup_nil
  nonempty := not_mem_nil
  cc := rfl
  mbcnt := rfl
  lastrecord := rfl
  empty := fun _ => rfl
  mbtail := rfl
  nextpkt := fun _ hr => absurd hr not_mem_nil

/-- In every run of calls that keep the books, they are kept: the counters and the pointers are exact, no call goes
astray, and a flush ends, if there are fewer bytes than an `int` counts. -/
theorem books_kept {sb : Sockbuf} (h : system.Reach (fun sb c => Lawful sb c ∧ Spared sb c) sb) :
    Book sb ∧ (∀ c, Lawful sb c → Spared sb c → ∃ sb', next sb c = some sb' ∧ Book sb') ∧
      ((∃ rounds sb', sbflush rounds sb = some sb') ↔ sb.cc < 2 ^ 31) := by
  have hbook : Book sb := by
    apply h.invariant
    · rintro _ ⟨hiwat, mbmax, rfl⟩
      exact .init hiwat mbmax
    intro sb c sb' hsb hc hstep
    obtain ⟨sb'', hrun, hbook⟩ := hsb.next hc.1 hc.2
    rw [show next sb c = some sb' from hstep] at hrun
    exact some.inj hrun ▸ hbook
  refine ⟨hbook, fun c hlaw hspared => hbook.next hlaw hspared, ?_, ?_⟩
  · rintro ⟨rounds, sb', hrun⟩
    by_contra hcc
    rw [sbflush_stuck rounds sb hbook.toBase (Nat.not_lt.mp hcc)] at hrun
    cases hrun
  · intro hcc
    obtain ⟨sb', hrun, -⟩ := sbflush_ends sb.mb.length sb hbook.toBase hcc (le_refl _)
    exact ⟨_, sb', hrun⟩

/-- An mbuf of its own, with room for no more. -/
def plain (addr : Addr) (type : MType) (data : List UInt8) : Mbuf := ⟨addr, type, data, false, none, none, 0, none⟩

/-- A record of control and data. -/
def message : Call := .sbappendrecord (fun _ => false) [plain 1 .control [7], plain 2 .data [8, 9]]

/-- After `message` the tail pointer is at its data. -/
theorem books_kept_message : ∃ sb, system.Reach (fun sb c => Lawful sb c ∧ Spared sb c) sb ∧ sb.cc = 3 ∧ sb.mbcnt = 1024 ∧
    sb.lastrecord = some 1 ∧ sb.mbtail = some 2 ∧ Book sb := by
  have hlaw : Lawful (empty 100 100) message := by
    show Own _ _
    decide
  have hspared : Spared (empty 100 100) message := by
    show linksNew _ _ _ = true
    decide
  obtain ⟨sb, hrun, -⟩ := (Book.init 100 100).next hlaw hspared
  have hreach : system.Reach (fun sb c => Lawful sb c ∧ Spared sb c) sb := .step (.init ⟨100, 100, rfl⟩) ⟨hlaw, hspared⟩ hrun
  have hsb : (next (empty 100 100) message).map (fun sb => (sb.cc, sb.mbcnt, sb.lastrecord, sb.mbtail)) =
      some (3, 1024, some 1, some 2) := by decide
  rw [hrun, map_some, Option.some.injEq, Prod.mk.injEq, Prod.mk.injEq, Prod.mk.injEq] at hsb
  exact ⟨sb, hreach, hsb.1, hsb.2.1, hsb.2.2.1, hsb.2.2.2, (books_kept hreach).1⟩

/-- A record of one mbuf leaves the tail pointer behind. -/
theorem lone_mbuf_no_tail : ∃ sb, system.Reach Lawful sb ∧ sb.mb ≠ [] ∧ sb.mbtail = none := by
  have hlaw : Lawful (empty 100 100) (.sbappendrecord (fun _ => false) [plain 1 .data [7]]) := by
    show Own _ _
    decide
  exact ⟨⟨[[plain 1 .data [7]]], 1, 512, some 1, none, 100, 100⟩, .step (.init ⟨100, 100, rfl⟩) hlaw rfl, by decide, rfl⟩

end NetBSD.Kern.UipcSocket2
