import NetBSD.Kern.SubrVmem.Tiled

/-! Room is found in an arena where there is some.

Whatever becomes of the arena, its spans stay cut into segments without holes, and each free segment
is on its list (`reachable_spec`). So a request that fails has been tried on every free segment. -/
namespace NetBSD.Kern.SubrVmem
open List
open Lib

variable {vm vm' vm₁ : Vmem} {bt bt₁ b t sp : Bt} {q : Request} {pos stop addr size start : Nat}
  {l before before₁ behind behind₁ : List Bt}

theorem sub_of_le {x y : Nat} (hx : x < 2 ^ 64) (h : y ≤ x) : sub x y = x - y := by
  rw [sub, show x + (2 ^ 64 - y) = x - y + 2 ^ 64 by omega, word, Nat.add_mod_right]
  exact Nat.mod_eq_of_lt (lt_of_le_of_lt (Nat.sub_le x y) hx)

theorem Tiled.join (h : Tiled pos stop (t :: bt :: l)) (hstop : stop ≤ 2 ^ 63) (ht : ¬ t.IsSpan) (hbt : ¬ bt.IsSpan) (hseg : ¬ bt₁.IsSpan)
    (hstart : bt₁.btStart = t.btStart) (hsize : bt₁.btSize = word (t.btSize + bt.btSize)) : Tiled pos stop (bt₁ :: l) := by
  obtain ⟨hpos, htsize, hle, htail⟩ := (tiled_segment ht).mp h
  obtain ⟨hnext, hbtsize, hle', htail'⟩ := (tiled_segment hbt).mp htail
  have hword : word (t.btSize + bt.btSize) = t.btSize + bt.btSize := word_of_lt (by omega)
  rw [tiled_segment hseg, hsize, hword]
  refine ⟨hstart.trans hpos, by omega, by omega, ?_⟩
  rwa [← add_assoc]

namespace Vmem

theorem eq_of_mem_ite {c : Prop} [Decidable c] (h : b ∈ if c then [t] else []) : b = t := by
  split at h
  · exact mem_singleton.mp h
  · cases h

theorem cut_types (vm : Vmem) (size : Nat) (bt : Bt) (start : Nat) :
    (∀ b ∈ (vm.cut size bt start).1 ++ (vm.cut size bt start).2.2, b.btType = .free) ∧ (vm.cut size bt start).2.1.btType = .busy := by
  refine ⟨fun b hb => ?_, rfl⟩
  rcases mem_append.mp hb with hfront | hrest
  · rw [eq_of_mem_ite hfront]
  · rw [eq_of_mem_ite hrest]

theorem cut_tiled (hfree : ¬ bt.IsSpan) (hle : bt.btStart ≤ start) (hend : start + size ≤ bt.btStart + bt.btSize) (hsize : 0 < size)
    (hstop : stop ≤ 2 ^ 63) (h : Tiled pos stop (bt :: l)) :
    Tiled pos stop ((vm.cut size bt start).1 ++ (vm.cut size bt start).2.1 :: (vm.cut size bt start).2.2 ++ l) := by
  obtain ⟨hpos, hbt, hfits, htail⟩ := (tiled_segment hfree).mp h
  have hfront : sub start bt.btStart = start - bt.btStart := sub_of_le (by omega) hle
  have hrest : (if bt.btStart ≠ start then sub bt.btSize (sub start bt.btStart) else bt.btSize) = pos + bt.btSize - start := by
    split
    · rw [hfront, sub_of_le (by omega) (by omega)]
      omega
    · omega
  have hback : Tiled start stop ((vm.cut size bt start).2.1 :: (vm.cut size bt start).2.2 ++ l) := by
    unfold cut
    dsimp only
    rw [hrest]
    split
    · rw [cons_append, tiled_segment (not_isSpan_of_busy rfl), singleton_append, tiled_segment (not_isSpan_of_free rfl)]
      next hsplit =>
      have hne := (Bool.and_eq_true_iff.mp hsplit).1
      have hne := of_decide_eq_true hne
      have hword : word (start + size) = start + size := word_of_lt (by omega)
      have hsub : sub (pos + bt.btSize - start) size = pos + bt.btSize - start - size := sub_of_le (by omega) (by omega)
      dsimp only
      rw [hword, hsub]
      refine ⟨rfl, hsize, by omega, rfl, by omega, by omega, ?_⟩
      rwa [show start + size + (pos + bt.btSize - start - size) = pos + bt.btSize by omega]
    · next hsplit =>
      rw [cons_append, tiled_segment (not_isSpan_of_busy rfl)]
      dsimp only
      refine ⟨rfl, by omega, by omega, ?_⟩
      rwa [nil_append, show start + (pos + bt.btSize - start) = pos + bt.btSize by omega]
  have hfronts {back : List Bt} (hback : Tiled start stop back) : Tiled pos stop ((vm.cut size bt start).1 ++ back) := by
    unfold cut
    split
    · rw [singleton_append, tiled_segment (not_isSpan_of_free rfl)]
      dsimp only
      rw [hfront]
      refine ⟨hpos, by omega, by omega, ?_⟩
      rwa [show pos + (start - bt.btStart) = start by omega]
    · next heq =>
      rw [← hpos, not_not.mp heq]
      exact hback
  rw [append_assoc]
  exact hfronts hback

theorem gotit_cases {r : Option Nat} (h : vm.gotit size bt start = some (r, vm')) :
    vm'.seglist = splice bt ((vm.cut size bt start).1 ++ (vm.cut size bt start).2.1 :: (vm.cut size bt start).2.2) vm.seglist ∧
    vm'.busylist = (vm.cut size bt start).2.1 :: vm.busylist ∧
    (∀ b : Bt, vm'.listed b = vm.listed b - [bt].count b + ((vm.cut size bt start).1 ++ (vm.cut size bt start).2.2).count b) ∧
    ∀ idx, ∀ b ∈ vm'.freelist idx, b ∈ vm.freelist idx ∨ b ∈ (vm.cut size bt start).1 ++ (vm.cut size bt start).2.2 := by
  obtain ⟨vm₁, hins, heq⟩ := Option.map_eq_some_iff.mp h
  obtain ⟨fl, rfl, hcount, hmem⟩ := insfrees_cases hins
  obtain ⟨-, rfl⟩ := Prod.mk.inj heq
  refine ⟨rfl, rfl, fun b => ?_, fun idx b hb => ?_⟩
  · rw [← listed_btRemfree]
    exact hcount b
  · exact (hmem idx b hb).imp_left mem_of_mem_erase

/-! ### vmem_xfree -/

structure Joined (vm vm₁ : Vmem) (l l₁ : List Bt) (bt₁ : Bt) : Prop where
  free : bt₁.btType = .free
  eq : vm₁ = { vm with freelist := vm₁.freelist }
  mem : ∀ idx, ∀ b ∈ vm₁.freelist idx, b ∈ vm.freelist idx
  listed : ∀ (b : Bt) (k : Nat), k + l.count b ≤ vm.listed b → k + l₁.count b ≤ vm₁.listed b
  spans : ∀ sp ∈ l, sp.IsSpan → sp ∈ l₁
  subset : ∀ b ∈ l₁, b ∈ l

theorem Joined.refl (hfree : bt.btType = .free) : Joined vm vm l l bt :=
  ⟨hfree, rfl, fun _ _ hb => hb, fun _ _ h => h, fun _ hsp _ => hsp, fun _ h => h⟩

theorem Joined.remfree (hfree : bt₁.btType = .free) (ht : t.btType = .free) : Joined vm (vm.btRemfree t) (t :: l) l bt₁ where
  free := hfree
  eq := rfl
  mem idx b hb := mem_of_mem_erase hb
  listed b k h := by
    rw [← singleton_append, count_append] at h
    rw [listed_btRemfree]
    omega
  spans sp hsp hspan := (mem_cons.mp hsp).resolve_left fun heq => not_isSpan_of_free ht (heq ▸ hspan)
  subset _ hb := mem_cons_of_mem _ hb

theorem joinNext_spec (h : vm.joinNext bt behind = (vm₁, bt₁, behind₁)) (hfree : bt.btType = .free) : Joined vm vm₁ behind behind₁ bt₁ ∧
      ∀ pos stop, stop ≤ 2 ^ 63 → Tiled pos stop (bt :: behind) → Tiled pos stop (bt₁ :: behind₁) := by
  cases behind with
  | nil =>
    cases h
    exact ⟨Joined.refl hfree, fun _ _ _ h => h⟩
  | cons t rest =>
    rw [joinNext] at h
    split at h
    · next ht =>
      cases h
      exact ⟨Joined.remfree hfree ht, fun pos stop hstop h =>
        h.join hstop (not_isSpan_of_free hfree) (not_isSpan_of_free ht) (not_isSpan_of_free hfree) rfl rfl⟩
    · cases h
      exact ⟨Joined.refl hfree, fun _ _ _ h => h⟩

theorem joinPrev_spec (h : vm.joinPrev bt before = (vm₁, bt₁, before₁)) (hfree : bt.btType = .free) :
    Joined vm vm₁ before before₁ bt₁ ∧ ∀ behind pos stop, stop ≤ 2 ^ 63 → SpansLow (before.reverse ++ bt :: behind) →
      Tiled pos stop (before.reverse ++ bt :: behind) → Tiled pos stop (before₁.reverse ++ bt₁ :: behind) := by
  cases before with
  | nil =>
    cases h
    exact ⟨Joined.refl hfree, fun _ _ _ _ _ h => h⟩
  | cons t rest =>
    rw [joinPrev] at h
    split at h
    · next ht =>
      cases h
      refine ⟨Joined.remfree hfree ht, fun behind pos stop hstop hlow h => ?_⟩
      rw [reverse_cons, append_assoc] at h hlow
      apply Tiled.replace [t, bt] [_] h hstop hlow
      intro pos stop hstop h
      exact h.join hstop (not_isSpan_of_free ht) (not_isSpan_of_free hfree) (not_isSpan_of_free hfree) rfl (by rw [add_comm])
    · cases h
      exact ⟨Joined.refl hfree, fun _ _ _ _ _ h => h⟩

/-- What a step keeps of the segments. -/
structure Kept (vm vm' : Vmem) : Prop where
  listed : Listed vm'
  spans : ∀ sp ∈ vm.seglist, sp.IsSpan → sp ∈ vm'.seglist
  tiled : SpansLow vm.seglist → Tiled 0 0 vm.seglist → Tiled 0 0 vm'.seglist

theorem add_kept (hlisted : Listed vm) (h : vm.vmemAdd addr size = some vm') : Kept vm vm' := by
  obtain ⟨fl, rfl, hsize, hcount, hmem⟩ := btInsfree_cases h
  refine ⟨⟨fun idx b hb => ?_, hlisted.busy, fun b hb => ?_⟩, fun sp hsp _ => mem_append_left _ hsp, fun _ htiled => htiled.add hsize⟩
  · rcases hmem idx b hb with hold | rfl
    · exact hlisted.free idx b hold
    · rfl
  have hold := hlisted.listed b hb
  have hspan : [(⟨.spanStatic, addr, size⟩ : Bt)].count b = 0 :=
    count_eq_zero.mpr fun hmem => nomatch hb.symm.trans (congrArg Bt.btType (mem_singleton.mp hmem))
  show (vm.seglist ++ ([(⟨.spanStatic, addr, size⟩ : Bt)] ++ [(⟨.free, addr, size⟩ : Bt)])).count b ≤ (fl (vm.order b.btSize)).count b
  rw [count_append, count_append, hspan, zero_add, show (fl (vm.order b.btSize)).count b = _ from hcount b]
  exact Nat.add_le_add_right hold _

theorem gotit_kept {r : Option Nat} (hq : q.Legal) (hlisted : Listed vm) (hbt : bt.btType = .free) (hfit : vmemFit bt q = some start)
    (h : vm.gotit q.size bt start = some (r, vm')) : Kept vm vm' := by
  obtain ⟨hseglist, hbusy, hcount, hmem⟩ := gotit_cases h
  obtain ⟨hfrees, hnew⟩ := cut_types vm q.size bt start
  refine ⟨⟨fun idx b hb => ?_, fun b hb => ?_, fun b hb => ?_⟩, fun sp hsp hspan => ?_, fun hlow htiled => ?_⟩
  · exact (hmem idx b hb).elim (hlisted.free idx b) (hfrees b)
  · rw [hbusy] at hb
    rcases mem_cons.mp hb with rfl | hold
    · exact hnew
    · exact hlisted.busy b hold
  · have hold := hlisted.listed b hb
    have hroom : [(vm.cut q.size bt start).2.1].count b = 0 :=
      count_eq_zero.mpr fun hmem => absurd (hb.symm.trans (mem_singleton.mp hmem ▸ hnew)) (by decide)
    have hsplice := count_splice_le bt vm.seglist
      ((vm.cut q.size bt start).1 ++ (vm.cut q.size bt start).2.1 :: (vm.cut q.size bt start).2.2) b
    rw [hseglist, hcount b]
    rw [count_append, ← singleton_append (l := (vm.cut q.size bt start).2.2), count_append, hroom, zero_add, ← count_append] at hsplice
    exact le_trans hsplice (Nat.add_le_add_right (Nat.sub_le_sub_right hold _) _)
  · rw [hseglist]
    by_cases hin : bt ∈ vm.seglist
    · obtain ⟨pre, post, hl, hsplice⟩ := splice_of_mem hin
        ((vm.cut q.size bt start).1 ++ (vm.cut q.size bt start).2.1 :: (vm.cut q.size bt start).2.2)
      rw [hsplice]
      rw [hl] at hsp
      rcases mem_append.mp hsp with hpre | hpost
      · exact mem_append_left _ hpre
      · have hpost := (mem_cons.mp hpost).resolve_left fun heq => not_isSpan_of_free hbt (heq ▸ hspan)
        exact mem_append_right _ (mem_append_right _ hpost)
    · rwa [splice_of_notMem hin]
  rw [hseglist]
  by_cases hin : bt ∈ vm.seglist
  · obtain ⟨hpos, hend⟩ := htiled.bounded (Nat.zero_le _) hlow hin (not_isSpan_of_free hbt)
    have hplace := (hq.fit_spec_low hend hpos).1 start hfit
    obtain ⟨pre, post, hl, hsplice⟩ := splice_of_mem hin
      ((vm.cut q.size bt start).1 ++ (vm.cut q.size bt start).2.1 :: (vm.cut q.size bt start).2.2)
    rw [hsplice]
    rw [hl] at htiled hlow
    apply Tiled.replace [bt] _ htiled (Nat.zero_le _) hlow
    intro pos stop hstop h
    exact cut_tiled (not_isSpan_of_free hbt) hplace.start_le hplace.le_end hq.size_pos hstop h
  · rwa [splice_of_notMem hin]

theorem coalesce_kept (hlisted : Listed vm) (hsegs : vm.seglist = before.reverse ++ b :: behind) (hb : b.btType = .busy)
    (hbt : bt.btType = .free) (hstart : bt.btStart = b.btStart) (hsize : bt.btSize = b.btSize)
    (h : (vm.btRembusy b).coalesce bt before behind = some vm') : Kept vm vm' := by
  rcases hnext : (vm.btRembusy b).joinNext bt behind with ⟨vm₁, bt₁, behind₁⟩
  rcases hprev : vm₁.joinPrev bt₁ before with ⟨vm₂, bt₂, before₂⟩
  obtain ⟨hjoin₁, htiled₁⟩ := joinNext_spec hnext hbt
  obtain ⟨hjoin₂, htiled₂⟩ := joinPrev_spec hprev hjoin₁.free
  rw [coalesce, hnext] at h
  dsimp only at h
  rw [hprev] at h
  obtain ⟨fl, rfl, hpos, hcount, hmem⟩ := btInsfree_cases h
  have hspan (sp : Bt) (hsp : sp.IsSpan) : sp ≠ b := fun heq => not_isSpan_of_busy hb (heq ▸ hsp)
  refine ⟨⟨fun idx x hx => ?_, fun x hx => ?_, fun x hx => ?_⟩, fun sp hsp hspan' => ?_, fun hlow htiled => ?_⟩
  · rcases hmem idx x hx with hold | rfl
    · exact hlisted.free idx x (hjoin₁.mem idx x (hjoin₂.mem idx x hold))
    · exact hjoin₂.free
  · rw [hjoin₂.eq] at hx
    rw [hjoin₁.eq] at hx
    exact hlisted.busy x (mem_of_mem_erase hx)
  · have hold := hlisted.listed x hx
    have hbusy : [b].count x = 0 :=
      count_eq_zero.mpr fun hmem => nomatch (hx.symm.trans (congrArg Bt.btType (mem_singleton.mp hmem))).trans hb
    rw [hsegs, count_append, count_reverse, ← singleton_append (l := behind), count_append, hbusy, zero_add] at hold
    have hbehind := hjoin₁.listed x _ hold
    rw [add_comm] at hbehind
    have hbefore := hjoin₂.listed x _ hbehind
    show (before₂.reverse ++ bt₂ :: behind₁).count x ≤ (fl (vm₂.order x.btSize)).count x
    rw [show (fl (vm₂.order x.btSize)).count x = vm₂.listed x + [bt₂].count x from hcount x, count_append, count_reverse,
      ← singleton_append (l := behind₁), count_append]
    omega
  · rw [hsegs] at hsp
    rcases mem_append.mp hsp with hin | hin
    · exact mem_append_left _ (mem_reverse.mpr (hjoin₂.spans sp (mem_reverse.mp hin) hspan'))
    · have hin := (mem_cons.mp hin).resolve_left (hspan sp hspan')
      exact mem_append_right _ (mem_cons_of_mem _ (hjoin₁.spans sp hin hspan'))
  rw [hsegs] at hlow htiled
  have hlow₁ : SpansLow (before.reverse ++ bt₁ :: behind₁) := by
    intro sp hsp hspan'
    rcases mem_append.mp hsp with hin | hin
    · exact hlow sp (mem_append_left _ hin) hspan'
    rcases mem_cons.mp hin with rfl | hin
    · exact absurd hspan' (not_isSpan_of_free hjoin₁.free)
    · exact hlow sp (mem_append_right _ (mem_cons_of_mem _ (hjoin₁.subset sp hin))) hspan'
  have htiled₁' : Tiled 0 0 (before.reverse ++ bt₁ :: behind₁) := by
    rw [← append_nil (bt₁ :: behind₁)]
    rw [← append_nil (b :: behind)] at htiled hlow
    apply Tiled.replace (b :: behind) _ htiled (Nat.zero_le _) hlow
    intro pos stop hstop h
    rw [append_nil] at h ⊢
    apply htiled₁ pos stop hstop
    rw [tiled_segment (not_isSpan_of_busy hb)] at h
    rwa [tiled_segment (not_isSpan_of_free hbt), hstart, hsize]
  exact htiled₂ behind₁ 0 0 (Nat.zero_le _) hlow₁ htiled₁'

theorem xfree_kept (hlisted : Listed vm) (h : vm.vmemXfree addr = some vm') : Kept vm vm' := by
  obtain ⟨b, hlookup, h⟩ := Option.bind_eq_some_iff.mp h
  have hb := hlisted.busy b (mem_of_find?_eq_some hlookup)
  dsimp only at h
  rw [span_eq_takeWhile_dropWhile] at h
  have hsegs := takeWhile_append_dropWhile (p := fun x => decide (x ≠ b)) (l := (vm.btRembusy b).seglist)
  rcases hdrop : (vm.btRembusy b).seglist.dropWhile fun x => decide (x ≠ b) with _ | ⟨b', behind⟩
  · rw [hdrop] at h
    cases h
  have heq : b' = b := by
    have hhead := head_dropWhile_not (p := fun x => decide (x ≠ b)) (l := (vm.btRembusy b).seglist) (by rw [hdrop]; exact cons_ne_nil _ _)
    simp only [hdrop, head_cons] at hhead
    exact not_not.mp (of_decide_eq_false hhead)
  rw [hdrop] at h hsegs
  subst heq
  apply coalesce_kept hlisted _ hb _ _ _ h
  · rw [reverse_reverse]
    exact hsegs.symm
  · rfl
  · rfl
  · rfl

end Vmem

open Vmem

theorem next_kept {c : Call} (hlisted : Listed vm) (hc : c.Legal vm) (h : next vm c = some vm') : Kept vm vm' := by
  cases c with
  | add addr size => exact add_kept hlisted h
  | xfree addr => exact xfree_kept hlisted h
  | xalloc q instantfit tags =>
    obtain ⟨⟨r, vm''⟩, halloc, rfl⟩ := Option.map_eq_some_iff.mp h
    rcases xalloc_cases halloc with ⟨-, rfl⟩ | ⟨bt, start, ⟨idx, hidx⟩, hfit, hgotit⟩
    · exact ⟨hlisted, fun _ hsp _ => hsp, fun _ h => h⟩
    · exact gotit_kept hc hlisted (hlisted.free idx bt hidx) hfit hgotit

/-- In every arena the free segments are on the lists, and while the spans end below 2^63 they are
cut into segments without holes. -/
theorem reachable_spec (h : Reachable vm) : Listed vm ∧ (SpansLow vm.seglist → Tiled 0 0 vm.seglist) := by
  apply System.Reach.invariant _ _ h
  · rintro _ ⟨quantumShift, -, rfl⟩
    exact ⟨⟨fun idx b hb => (nomatch hb), fun b hb => (nomatch hb), fun b hb => Nat.zero_le _⟩, fun _ => rfl⟩
  intro vm c vm' hinv hc hstep
  have hkept := next_kept hinv.1 hc hstep
  refine ⟨hkept.listed, fun hlow => ?_⟩
  have hlow' : SpansLow vm.seglist := fun sp hsp hspan => hlow sp (hkept.spans sp hsp hspan) hspan
  exact hkept.tiled hlow' (hinv.2 hlow')

/-- ENOMEM is the answer only where no free segment has room, and leaves the arena as it is. -/
theorem xalloc_complete (h : Reachable vm) (hlow : ∀ sp ∈ vm.seglist, sp.IsSpan → sp.btStart + sp.btSize ≤ 2 ^ 63) {instantfit : Bool}
    (hq : (vm.rounded q).Legal) (hfail : vm.vmemXalloc q instantfit true = some (none, vm')) :
    vm' = vm ∧ ∀ b ∈ vm.seglist, b.btType = .free → ∀ a, ¬ (vm.rounded q).Admissible b a := by
  obtain ⟨hlisted, htiled⟩ := reachable_spec h
  obtain ⟨heq, hsearch⟩ := xalloc_none hfail
  refine ⟨heq, fun b hb hfree a ha => ?_⟩
  obtain ⟨hpos, hend⟩ := (htiled hlow).bounded (Nat.zero_le _) hlow hb (not_isSpan_of_free hfree)
  have hlist : b ∈ vm.freelist (vm.order b.btSize) := by
    apply count_pos_iff.mp
    exact lt_of_lt_of_le (count_pos_iff.mpr hb) (hlisted.listed b hfree)
  have hsize : (vm.rounded q).size ≤ b.btSize := by
    have hstart := ha.start_le
    have hstop := ha.le_end
    omega
  have hnone := bestFit_none hsearch hlist (by omega) hsize
  exact (hq.fit_spec_low hend hpos).2 hnone a ha

/-- Sixteen pages from 64K on, with pages as the quantum. -/
def smallArena : Vmem :=
  { created 12 with
    seglist := [⟨.spanStatic, 0x10000, 0x10000⟩, ⟨.free, 0x10000, 0x10000⟩]
    freelist := Function.update (fun _ => []) 4 [⟨.free, 0x10000, 0x10000⟩]
    size := 0x10000 }

/-- There is no room for 17 pages. -/
theorem xalloc_complete_small : Reachable smallArena ∧ ∀ b ∈ smallArena.seglist, b.btType = .free → ∀ a, ¬ (Request.mk 0x11000 0x1000 0 0 0 0xfffff).Admissible b a := by
  have hreach : Reachable smallArena := .step (a := .add 0x10000 0x10000) (.init ⟨12, by decide, rfl⟩)
    (show 0x10000 + 0x10000 ≤ 2 ^ 64 by decide) rfl
  have hlow : ∀ sp ∈ smallArena.seglist, sp.IsSpan → sp.btStart + sp.btSize ≤ 2 ^ 63 := by decide
  have hlegal : (smallArena.rounded ⟨0x10001, 0, 0, 0, 0, 0xfffff⟩).Legal :=
    ⟨by decide, ⟨12, by decide, by decide⟩, by decide, fun h => absurd rfl h, fun h => h.1 rfl, by decide, by decide⟩
  have hfail : smallArena.vmemXalloc ⟨0x10001, 0, 0, 0, 0, 0xfffff⟩ true true = some (none, smallArena) := rfl
  exact ⟨hreach, (xalloc_complete hreach hlow hlegal hfail).2⟩

end NetBSD.Kern.SubrVmem
