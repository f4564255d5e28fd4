import NetBSD.Fs.Msdosfs.Cache

/-! Files grow and shrink.

A call on a file leaves the chains of the others alone: it changes entries of its own chain
and of free clusters only (`Touches`). `Ends` says how a call may end: it leaves the map, or
the volume and the file are in order again (`InOrder`), with a chain that begins as the old one
after `extendfile` and is its beginning after `detrunc` to a smaller size. -/
namespace NetBSD.Fs.Msdosfs
open List Function
open Lib

/-- Other entries in use stay, and what is taken was free. -/
structure Touches (v v' : Volume) (l l' : List Nat) : Prop where
  fat : ∀ c, c ∉ l → v.fat c ≠ 0 → v'.fat c = v.fat c
  mem : ∀ c ∈ l', c ∈ l ∨ v.fat c = 0

theorem Touches.refl (v : Volume) (l : List Nat) : Touches v v l l := ⟨fun _ _ _ => rfl, fun _ hc => .inl hc⟩

theorem Touches.trans {v v₁ v₂ : Volume} {l l₁ l₂ : List Nat} (h₁ : Touches v v₁ l l₁) (h₂ : Touches v₁ v₂ l₁ l₂) :
    Touches v v₂ l l₂ := by
  refine ⟨fun c hc hne => ?_, fun c hc => ?_⟩
  · have hsame := h₁.fat c hc hne
    have hout : c ∉ l₁ := fun hin => (h₁.mem c hin).elim hc hne
    rw [h₂.fat c hout (by rw [hsame]; exact hne), hsame]
  rcases h₂.mem c hc with hin | h0
  · exact h₁.mem c hin
  by_cases hin : c ∈ l
  · exact .inl hin
  refine .inr ?_
  by_contra hne
  rw [h₁.fat c hin hne] at h0
  exact hne h0

/-- The map, the table and one file agree. -/
structure InOrder {g : Geometry} (m : Mount g) (d : Denode) (v : Volume) (l : List Nat) : Prop where
  shows_ : m.Shows v
  exact_ : v.Exact g
  chain : FileChain g v.fat d.startCluster l
  cached : d.Cached l

def Ends {g : Geometry} (v : Volume) (l : List Nat) (P : List Nat → Prop)
    (out : Option (Except Errno Unit × Mount g × Denode)) : Prop :=
  g.Strays ∧ out = none ∨ ∃ r m' d' v' l', out = some (r, m', d') ∧ InOrder m' d' v' l' ∧ Touches v v' l l' ∧ P l'

section Ends
variable {g : Geometry} {m : Mount g} {d : Denode} {v v₁ : Volume} {l l₁ : List Nat} {P Q : List Nat → Prop}
  {out : Option (Except Errno Unit × Mount g × Denode)}

theorem InOrder.ends (h : InOrder m d v l) (hP : P l) (r : Except Errno Unit) : Ends v l P (some (r, m, d)) :=
  .inr ⟨r, m, d, v, l, rfl, h, .refl v l, hP⟩

theorem InOrder.recache {d' : Denode} (h : InOrder m d v l) (hc : d'.Cached l) (hs : d'.startCluster = d.startCluster) : InOrder m d' v l := by
  refine ⟨h.shows_, h.exact_, ?_, hc⟩
  rw [hs]
  exact h.chain

theorem InOrder.setSize (h : InOrder m d v l) {size : Nat} (hsize : size < 2 ^ 64) : InOrder m {d with fileSize := size} v l :=
  h.recache ⟨h.cached.slots, h.cached.last, hsize⟩ rfl

theorem Ends.after (ht : Touches v v₁ l l₁) (h : Ends v₁ l₁ P out) (hPQ : ∀ l', P l' → Q l') : Ends v l Q out := by
  rcases h with hnone | ⟨r, m', d', v', l', heq, hord, ht', hP⟩
  · exact .inl hnone
  · exact .inr ⟨r, m', d', v', l', heq, hord, ht.trans ht', hPQ l' hP⟩

end Ends

namespace Denode
variable {g : Geometry} {m : Mount g} {d : Denode} {v : Volume} {l : List Nat} {start : Nat}

/-! ### Growing -/

/-- `FC_LASTFC` names the last cluster, if there is one. -/
def Tail (d : Denode) (l : List Nat) : Prop := l ≠ [] → l.getLast? = some d.lastfc.fsrcn ∧ d.lastfc.frcn + 1 = l.length

theorem Cached.tail (h : Cached d l) (hne : d.lastfc.frcn ≠ FCE_EMPTY) : Tail d l := by
  intro _
  have hlen := h.last hne
  refine ⟨?_, hlen⟩
  rw [getLast?_eq_getElem?, ← hlen]
  exact h.slots d.lastfc (by simp [fc]) hne

theorem Cached.append {new : List Nat} (h : Cached d l) (start : Nat) {last : Nat} (hne : new ≠ []) (hlast : new.getLast? = some last) :
    Cached {d with startCluster := start, lastfc := ⟨l.length + new.length - 1, last⟩} (l ++ new) := by
  have hpos : 0 < new.length := length_pos_of_ne_nil hne
  have hold (s : Slot) (hs : s ∈ d.fc) (hs' : s.frcn ≠ FCE_EMPTY) : (l ++ new)[s.frcn]? = some s.fsrcn := by
    have hget := h.slots s hs hs'
    rw [getElem?_append_left (List.getElem?_eq_some_iff.mp hget).1]
    exact hget
  refine ⟨fun s hs hs' => ?_, fun _ => ?_, h.size⟩
  · have hs : s ∈ [d.lastmap, ⟨l.length + new.length - 1, last⟩, d.nexttolastfc] := hs
    simp only [mem_cons, not_mem_nil, or_false] at hs
    rcases hs with rfl | rfl | rfl
    · exact hold _ (by simp [fc]) hs'
    · show (l ++ new)[l.length + new.length - 1]? = some last
      rw [getElem?_append_right (by omega), show l.length + new.length - 1 - l.length = new.length - 1 from by omega, ← getLast?_eq_getElem?]
      exact hlast
    · exact hold _ (by simp [fc]) hs'
  · show l.length + new.length - 1 + 1 = (l ++ new).length
    rw [length_append]
    omega

theorem getLast?_range' (a : Nat) {n : Nat} (hn : 0 < n) : (List.range' a n).getLast? = some (a + n - 1) := by
  rw [getLast?_eq_getElem?, length_range', getElem?_range' (by omega)]
  congr 1
  omega

theorem alloc_touches (hex : v.Exact g) {cn got : Nat} (hrun : ∀ i < got, cn + i ∈ v.free)
    (hcl : ∀ c ∈ v.free, g.Cluster c) (l : List Nat) : Touches v (v.alloc g cn got) l (l ++ List.range' cn got) := by
  have hfree (c : Nat) (hc : cn ≤ c ∧ c < cn + got) : v.fat c = 0 := by
    have hin := hrun (c - cn) (by omega)
    rw [show cn + (c - cn) = c from by omega] at hin
    exact (hex c (hcl c hin)).mp hin
  refine ⟨fun c _ hne => Mount.alloc_fat fun hc => hne (hfree c hc), fun c hc => ?_⟩
  rcases mem_append.mp hc with hc | hc
  · exact .inl hc
  · have hc := mem_range'_1.mp hc
    exact .inr (hfree c hc)

section Extend
variable {m₁ : Mount g} {cn got : Nat}

theorem InOrder.first (h : InOrder m d v l) (hmark : g.Marked) (h0 : d.startCluster = 0) (hpos : 0 < got)
    (hrun : ∀ i < got, cn + i ∈ v.free) (hm₁ : m₁.Shows (v.alloc g cn got)) :
    InOrder m₁ {d with startCluster := cn, lastfc := ⟨got - 1, cn + got - 1⟩} (v.alloc g cn got) (l ++ List.range' cn got) := by
  have hcl (i : Nat) (hi : i < got) : g.Cluster (cn + i) := h.shows_.clusters _ (hrun i hi)
  obtain rfl : l = [] := h.chain.start_eq_zero.mp h0
  have hlen : (List.range' cn got).length = got := length_range'
  have hcached := h.cached.append cn (ne_nil_of_length_pos (by omega)) (getLast?_range' cn hpos)
  rw [length_nil, hlen, zero_add] at hcached
  refine ⟨hm₁, Mount.alloc_exact h.exact_ hcl, .inr ⟨Mount.alloc_linked hmark hpos hcl, fun c hc => ?_⟩, hcached⟩
  have hc := mem_range'_1.mp hc
  rw [show c = cn + (c - cn) from by omega]
  exact hcl _ (by omega)

theorem InOrder.link (h : InOrder m d v l) (hmark : g.Marked) (htail : Tail d l) (h0 : d.startCluster ≠ 0) (hpos : 0 < got)
    (hrun : ∀ i < got, cn + i ∈ v.free) (hm₁ : m₁.Shows (v.alloc g cn got)) :
    ∃ old m₂ v₂, m₁.fatentry d.lastfc.fsrcn cn = some (.ok old, m₂) ∧
      InOrder m₂ {d with lastfc := ⟨l.length + got - 1, cn + got - 1⟩} v₂ (l ++ List.range' cn got) ∧
      Touches v v₂ l (l ++ List.range' cn got) := by
  have hl := h.chain.linked h0
  obtain ⟨hlast, -⟩ := htail fun hnil => h0 (h.chain.start_eq_zero.mpr hnil)
  have hmem := mem_of_getLast? hlast
  have hcl (i : Nat) (hi : i < got) : g.Cluster (cn + i) := h.shows_.clusters _ (hrun i hi)
  have hne := h.chain.fat_ne_zero
  -- Nothing of the chain is in the run.
  have hout (c : Nat) (hc : c ∈ l) : ¬(cn ≤ c ∧ c < cn + got) := by
    intro hin
    have hfree := hrun (c - cn) (by omega)
    rw [show cn + (c - cn) = c from by omega] at hfree
    exact hne c hc ((h.exact_ c (h.chain.cluster c hc)).mp hfree)
  have hcn : cn &&& g.fatmask = cn := g.and_fatmask (by simpa using (hcl 0 hpos).2)
  obtain ⟨m₂, hm₂, hs₂⟩ := hm₁.fatentry (h.chain.cluster _ hmem) cn
  rw [hcn] at hs₂
  have hex₁ := Mount.alloc_exact h.exact_ hcl
  have htouch := alloc_touches h.exact_ hrun h.shows_.clusters l
  refine ⟨_, m₂, _, hm₂, ⟨hs₂, fun c hc => ?_, .inr ⟨?_, fun c hc => ?_⟩, ?_⟩, fun c hc hc0 => ?_, htouch.mem⟩
  · -- The entry was in use and is in use.
    show c ∈ (v.alloc g cn got).free ↔ update (v.alloc g cn got).fat d.lastfc.fsrcn cn c = 0
    by_cases hlc : c = d.lastfc.fsrcn
    · subst hlc
      have hold : (v.alloc g cn got).fat d.lastfc.fsrcn ≠ 0 := by
        rw [Mount.alloc_fat (hout _ hmem)]
        exact hne _ hmem
      have hfirst := (hcl 0 hpos).1
      rw [update_self, hex₁ _ hc, CLUST_FIRST] at *
      exact ⟨fun h => absurd h hold, fun h => absurd h (by omega)⟩
    · rw [update_of_ne hlc]
      exact hex₁ c hc
  · refine hl.append hlast (fun x hx hxl => ?_) ?_
    · show update (v.alloc g cn got).fat d.lastfc.fsrcn cn x = v.fat x
      rw [update_of_ne hxl, Mount.alloc_fat (hout x hx)]
    show Linked _ _ (update (v.alloc g cn got).fat d.lastfc.fsrcn cn d.lastfc.fsrcn) _
    rw [update_self]
    refine (@Mount.alloc_linked g v hmark cn got hpos hcl).congr fun x hx => ?_
    have hx := mem_range'_1.mp hx
    have hxl : x ≠ d.lastfc.fsrcn := fun hxl => hout _ hmem (hxl ▸ hx)
    exact update_of_ne hxl _ _
  · rcases mem_append.mp hc with hc | hc
    · exact h.chain.cluster c hc
    have hc := mem_range'_1.mp hc
    rw [show c = cn + (c - cn) from by omega]
    exact hcl _ (by omega)
  · have hlen : (List.range' cn got).length = got := length_range'
    have hcached := h.cached.append d.startCluster (ne_nil_of_length_pos (by omega)) (getLast?_range' cn hpos)
    rw [hlen] at hcached
    exact hcached
  · show update (v.alloc g cn got).fat d.lastfc.fsrcn cn c = v.fat c
    have hlc : c ≠ d.lastfc.fsrcn := fun hlc => hc (hlc ▸ hmem)
    rw [update_of_ne hlc]
    exact htouch.fat c hc hc0

theorem extendLoop_ends (hmark : g.Marked) (usec n : Nat) (m : Mount g) (d : Denode) (v : Volume) (l : List Nat) (count : Nat)
    (hn : count ≤ n) (h : InOrder m d v l) (htail : Tail d l) :
    Ends v l (fun l' => l <+: l') (extendLoop usec n m d count) := by
  induction n generalizing m d v l count with
  | zero => exact h.ends prefix_rfl (.ok ())
  | succ n ih =>
    rw [extendLoop]
    by_cases hcount : count = 0
    · rw [if_pos hcount]
      exact h.ends prefix_rfl (.ok ())
    rw [if_neg hcount]
    -- The preferred start is the cluster behind the last one.
    have hstart : (if d.startCluster = 0 then 0 else ulong (d.lastfc.fsrcn + 1)) ≤ g.maxcluster + 1 := by
      by_cases h0 : d.startCluster = 0
      · rw [if_pos h0]
        omega
      obtain ⟨hlast, -⟩ := htail fun hnil => h0 (h.chain.start_eq_zero.mpr hnil)
      have hle := (h.chain.cluster _ (mem_of_getLast? hlast)).2
      rw [if_neg h0, ulong]
      omega
    rcases h.shows_.clusteralloc_cases usec (by omega : 0 < count) hstart with
      ⟨hstray, -, hnone⟩ | ⟨-, hfull⟩ | ⟨cn, got, m₁, hpos, hle, hrun, heq, hm₁⟩
    · simp only [Option.bind_eq_bind, hnone, Option.bind_none]
      exact .inl ⟨hstray, rfl⟩
    · simp only [Option.bind_eq_bind, hfull, Option.bind_some]
      exact h.ends prefix_rfl (.error .enospc)
    simp only [Option.bind_eq_bind, heq, Option.bind_some]
    have hprefix (l' : List Nat) (hl' : l ++ List.range' cn got <+: l') : l <+: l' := (prefix_append l _).trans hl'
    have hnewtail (d' : Denode) (hd' : d'.lastfc = ⟨l.length + got - 1, cn + got - 1⟩) : Tail d' (l ++ List.range' cn got) := by
      intro _
      have hlen : (List.range' cn got).length = got := length_range'
      rw [hd', length_append, hlen, getLast?_append, getLast?_range' cn hpos]
      exact ⟨rfl, by show l.length + got - 1 + 1 = l.length + got; omega⟩
    by_cases h0 : d.startCluster = 0
    · rw [if_pos h0]
      have hnil : l = [] := h.chain.start_eq_zero.mp h0
      refine (ih m₁ _ _ _ (count - got) (by omega) (InOrder.first h hmark h0 hpos hrun hm₁) (hnewtail _ ?_)).after
        (alloc_touches h.exact_ hrun h.shows_.clusters l) hprefix
      rw [hnil, length_nil, zero_add]
    obtain ⟨old, m₂, v₂, hm₂, hord, htouch⟩ := InOrder.link h hmark htail h0 hpos hrun hm₁
    obtain ⟨-, hlen⟩ := htail fun hnil => h0 (h.chain.start_eq_zero.mpr hnil)
    have hsmall := h.chain.length_le
    have hmax := g.maxcluster_le
    have hfrcn : ulong (d.lastfc.frcn + 1) = l.length := by
      rw [ulong]
      omega
    rw [if_neg h0, hm₂]
    simp only [Option.bind_some, hfrcn]
    exact (ih m₂ _ v₂ _ (count - got) (by omega) hord (hnewtail _ rfl)).after htouch hprefix

theorem extendfile_ends (hmark : g.Marked) (h : InOrder m d v l) (hwf : WellFormed g l) (count usec : Nat) :
    Ends v l (fun l' => l <+: l') (extendfile m d count usec) := by
  -- What `FC_LASTFC` holds is copied before the loop.
  have hfrom (d : Denode) (h : InOrder m d v l) (htail : Tail d l) :
      Ends v l (fun l' => l <+: l') (extendFrom m d count usec) := by
    refine extendLoop_ends hmark usec count m d.fcLastToNexttolast v l count le_rfl ⟨h.shows_, h.exact_, h.chain, ?_⟩ htail
    refine ⟨fun s hs hne => ?_, h.cached.last, h.cached.size⟩
    have hs : s ∈ [d.lastmap, d.lastfc, d.lastfc] := hs
    simp only [mem_cons, not_mem_nil, or_false, or_self] at hs
    exact h.cached.slots s (by rcases hs with rfl | rfl <;> simp [fc]) hne
  rw [extendfile]
  by_cases hroot : d.startCluster = MSDOSFSROOT ∧ d.isDir = true
  · rw [if_pos hroot]
    exact h.ends prefix_rfl (.error .enospc)
  rw [if_neg hroot]
  by_cases hempty : d.lastfc.frcn = FCE_EMPTY ∧ d.startCluster ≠ 0
  · -- The last cluster is looked up first.
    have hlen := h.chain.length_le
    have hmax := g.maxcluster_le
    have hget : l[CLUST_END]? = none := by
      refine getElem?_eq_none ?_
      rw [CLUST_END, CLUST_EOFE]
      omega
    have hch : FileChain g m.fat d.startCluster l := by
      rw [h.shows_.fat]
      exact h.chain
    obtain ⟨c, hlast, hmap⟩ := pcbmap_tooBig h.cached hch hwf hempty.2 hget
    rw [if_pos hempty, hmap]
    refine hfrom _ ⟨h.shows_, h.exact_, h.chain, h.cached.setLastfc hlast⟩ fun hne => ⟨hlast, ?_⟩
    have hpos := length_pos_of_ne_nil hne
    show l.length - 1 + 1 = l.length
    omega
  · rw [if_neg hempty]
    refine hfrom d h fun hne => ?_
    have h0 : d.startCluster ≠ 0 := fun h0 => hne (h.chain.start_eq_zero.mp h0)
    exact h.cached.tail (fun he => hempty ⟨he, h0⟩) hne

end Extend

/-! ### Shrinking -/

theorem purge_eq {s : Slot} {k : Nat} (h : (s.purge k).frcn ≠ FCE_EMPTY) : s.purge k = s ∧ s.frcn < k := by
  unfold Slot.purge at h ⊢
  by_cases hk : s.frcn ≥ k
  · rw [if_pos hk] at h
    exact absurd rfl h
  · rw [if_neg hk]
    exact ⟨rfl, by omega⟩

theorem mem_fcPurge {k : Nat} {s : Slot} (hs : s ∈ (d.fcPurge k).fc) (hne : s.frcn ≠ FCE_EMPTY) : s ∈ d.fc ∧ s.frcn < k := by
  have hs : s ∈ d.fc.map (·.purge (k % 2 ^ 32)) := hs
  obtain ⟨t, ht, rfl⟩ := mem_map.mp hs
  obtain ⟨heq, hlt⟩ := purge_eq hne
  rw [heq]
  exact ⟨ht, lt_of_lt_of_le hlt (Nat.mod_le _ _)⟩

theorem cluster_of_clcount {length k : Nat} (h0 : length ≠ 0) (hlen : length < 2 ^ 64) (hk : k < 2 ^ 32)
    (h : ulong (g.clcount length + (2 ^ 64 - 1)) = k) : g.clcount length = k + 1 ∧ g.cluster (length - 1) = k := by
  have hpos : 0 < 2 ^ g.cnshift := Nat.two_pow_pos _
  have hcl : g.clcount length = ulong (length + 2 ^ g.cnshift - 1) / 2 ^ g.cnshift := Nat.shiftRight_eq_div_pow _ _
  have hclu : g.cluster (length - 1) = (length - 1) / 2 ^ g.cnshift := Nat.shiftRight_eq_div_pow _ _
  by_cases hover : length + 2 ^ g.cnshift - 1 < 2 ^ 64
  · have hsum : length + 2 ^ g.cnshift - 1 = length - 1 + 2 ^ g.cnshift := by omega
    have hval : g.clcount length = (length - 1) / 2 ^ g.cnshift + 1 := by
      rw [hcl, ulong, Nat.mod_eq_of_lt hover, hsum, Nat.add_div_right _ hpos]
    have hsmall : (length - 1) / 2 ^ g.cnshift ≤ length - 1 := Nat.div_le_self _ _
    rw [ulong] at h
    omega
  -- A count that does not fit is 0, and the last cluster would be the highest number.
  have hzero : g.clcount length = 0 := by
    rw [hcl, ulong]
    refine Nat.div_eq_of_lt ?_
    omega
  rw [ulong] at h
  omega

theorem InOrder.cut (h : InOrder m d v l) (hmark : g.Marked) {k c : Nat} (hget : l[k]? = some c) :
    ∃ old m₁, m.fatentry c CLUST_EOFE = some (.ok old, m₁) ∧ ∀ d' : Denode, d'.startCluster = d.startCluster →
      Cached d' (l.take (k + 1)) → Ends v l (fun l' => l' <+: l) (freeTail m₁ d' old) := by
  have hmem := mem_of_getElem? hget
  have h0 : d.startCluster ≠ 0 := fun h0 => ne_nil_of_mem hmem (h.chain.start_eq_zero.mp h0)
  have hl := h.chain.linked h0
  have hcl := h.chain.cluster
  have hne := h.chain.fat_ne_zero
  have hsplit : l.take (k + 1) ++ l.drop (k + 1) = l := take_append_drop _ _
  have hdisj : ∀ x ∈ l.take (k + 1), x ∉ l.drop (k + 1) := by
    have hnd := hl.nodup
    rw [← hsplit] at hnd
    exact fun x hx hx' => (disjoint_of_nodup_append hnd) hx hx'
  have hctake : c ∈ l.take (k + 1) :=
    mem_of_getElem? (by rw [getElem?_take_of_lt (Nat.lt_succ_self k)]; exact hget)
  obtain ⟨m₁, hm₁, hs₁⟩ := h.shows_.fatentry (hcl c hmem) CLUST_EOFE
  obtain ⟨v₁, hv₁⟩ : ∃ v₁ : Volume, v₁ = ⟨v.free, update v.fat c (CLUST_EOFE &&& g.fatmask)⟩ := ⟨_, rfl⟩
  have hfat₁ (x : Nat) (hx : x ≠ c) : v₁.fat x = v.fat x := by
    rw [hv₁]
    exact update_of_ne hx _ _
  have hfatc : v₁.fat c = CLUST_EOFE &&& g.fatmask := by
    rw [hv₁]
    exact update_self _ _ _
  have hex₁ : v₁.Exact g := by
    intro x hx
    have hfree : v₁.free = v.free := by rw [hv₁]
    rw [hfree, h.exact_ x hx]
    by_cases hxc : x = c
    · subst hxc
      have hle := g.le_of_eof g.eof_eofe
      have hpos := g.eofs_pos
      exact ⟨fun hz => absurd hz (hne x hmem), fun hz => absurd hz (by omega)⟩
    · rw [hfat₁ x hxc]
  have hchain₁ : Linked v₁.fat g.Eof d.startCluster (l.take (k + 1)) :=
    hl.take hget (fun x _ hxc => hfat₁ x hxc) (by rw [hfatc]; exact g.eof_eofe)
  have htake (x : Nat) (hx : x ∈ l.take (k + 1)) : x ∈ l := mem_of_mem_take hx
  refine ⟨_, m₁, hm₁, fun d' hstart hcached => ?_⟩
  rw [← hv₁] at hs₁
  rw [freeTail]
  rcases hl.drop hget with ⟨heof, hdrop⟩ | hrest
  · -- The file was not longer.
    rw [if_neg (fun hfree => hfree.2 heof)]
    refine .inr ⟨_, m₁, d', v₁, l.take (k + 1), rfl, ⟨hs₁, hex₁, ?_, hcached⟩, ⟨fun x hx _ => ?_, fun x hx => .inl (htake x hx)⟩,
      take_prefix _ _⟩
    · rw [hstart]
      exact .inr ⟨hchain₁, fun x hx => hcl x (htake x hx)⟩
    · exact hfat₁ x fun hxc => hx (hxc ▸ hmem)
  have hdropl (x : Nat) (hx : x ∈ l.drop (k + 1)) : x ∈ l := mem_of_mem_drop hx
  have hrest₁ : Linked v₁.fat g.Eof (v.fat c) (l.drop (k + 1)) :=
    hrest.congr fun x hx => hfat₁ x fun hxc => hdisj c hctake (hxc ▸ hx)
  have hused (x : Nat) (hx : x ∈ l.drop (k + 1)) : x ∉ v₁.free := by
    rw [hv₁]
    exact fun hfree => hne x (hdropl x hx) ((h.exact_ x (hcl x (hdropl x hx))).mp hfree)
  obtain ⟨m₂, hm₂, hs₂⟩ := hs₁.freeclusterchain hrest₁ (fun x hx => hcl x (hdropl x hx)) hused
    fun x hx => hmark.not_cluster hx
  rw [if_pos ⟨hne c hmem, hrest.not_stop _ hrest.mem_self⟩, hm₂]
  refine .inr ⟨_, m₂, d', v₁.release (l.drop (k + 1)), l.take (k + 1), rfl, ⟨hs₂, Mount.release_exact hex₁ _, ?_, hcached⟩,
    ⟨fun x hx _ => ?_, fun x hx => .inl (htake x hx)⟩, take_prefix _ _⟩
  · rw [hstart]
    exact .inr ⟨hchain₁.congr fun x hx => if_neg (hdisj x hx), fun x hx => hcl x (htake x hx)⟩
  show (if x ∈ l.drop (k + 1) then 0 else v₁.fat x) = v.fat x
  rw [if_neg (fun hx' => hx (hdropl x hx'))]
  exact hfat₁ x fun hxc => hx (hxc ▸ hmem)

theorem Cached.fcPurge (h : Cached d l) {k size : Nat} (hsize : size < 2 ^ 64) : Cached ({d with fileSize := size}.fcPurge k) l := by
  refine ⟨fun s hs hne => h.slots s (mem_fcPurge hs hne).1 hne, fun hne => ?_, hsize⟩
  obtain ⟨heq, -⟩ := purge_eq hne
  have hsame : ({d with fileSize := size}.fcPurge k).lastfc = d.lastfc := heq
  rw [hsame] at hne ⊢
  exact h.last hne

theorem shrink_ends (hmark : g.Marked) (h : InOrder m d v l) (hwf : WellFormed g l) {length : Nat} (hlen : length < 2 ^ 64) :
    Ends v l (fun l' => l' <+: l) (shrink m d length) := by
  have hmax := g.maxcluster_le
  have hch : FileChain g m.fat d.startCluster l := by
    rw [h.shows_.fat]
    exact h.chain
  rw [shrink]
  by_cases hroot : d.isRoot = true ∧ g.fatType ≠ .fat32
  · rw [if_pos hroot]
    exact h.ends (P := fun l' => l' <+: l) prefix_rfl (.error .einval)
  rw [if_neg hroot]
  by_cases hzero : length = 0
  · -- The whole chain goes.
    rw [if_pos hzero, freeTail]
    have hcached : Cached ({d with startCluster := 0, fileSize := 0}.fcPurge (g.clcount 0)) [] := by
      have hcount : g.clcount 0 = 0 := by
        have hbound := g.bounded
        rw [MAXBSIZE] at hbound
        rw [Geometry.clcount, Nat.shiftRight_eq_div_pow, ulong, Geometry.bpcluster]
        refine Nat.div_eq_of_lt ?_
        have hpos : 0 < 2 ^ g.cnshift := Nat.two_pow_pos _
        omega
      rw [hcount]
      refine ⟨fun s hs hne => absurd (mem_fcPurge hs hne).2 (Nat.not_lt_zero _), fun hne => ?_, by show 0 < 2 ^ 64; decide⟩
      exact absurd (purge_eq hne).2 (Nat.not_lt_zero _)
    by_cases h0 : d.startCluster = 0
    · rw [if_neg (fun hfree => hfree.1 h0)]
      have hnil := h.chain.start_eq_zero.mp h0
      exact .inr ⟨_, m, _, v, [], rfl, ⟨h.shows_, h.exact_, .inl ⟨rfl, rfl⟩, hcached⟩,
        ⟨fun _ _ _ => rfl, fun _ hc => absurd hc not_mem_nil⟩, nil_prefix⟩
    have hl := h.chain.linked h0
    have hused (x : Nat) (hx : x ∈ l) : x ∉ v.free :=
      fun hfree => h.chain.fat_ne_zero x hx ((h.exact_ x (h.chain.cluster x hx)).mp hfree)
    obtain ⟨m₁, hm₁, hs₁⟩ := h.shows_.freeclusterchain hl h.chain.cluster hused fun x hx => hmark.not_cluster hx
    rw [if_pos ⟨h0, hl.not_stop _ hl.mem_self⟩, hm₁]
    exact .inr ⟨_, m₁, _, v.release l, [], rfl, ⟨hs₁, Mount.release_exact h.exact_ l, .inl ⟨rfl, rfl⟩, hcached⟩,
      ⟨fun _ hc _ => if_neg hc, fun _ hc => absurd hc not_mem_nil⟩, nil_prefix⟩
  rw [if_neg hzero]
  by_cases h0 : d.startCluster = 0
  · -- There is no chain: the answer is an error, or the fixed root directory.
    rw [pcbmap_root h0]
    cases hroot : atRoot g d.isDir d.fileSize (ulong (g.clcount length + (2 ^ 64 - 1))) with
    | inval => exact h.ends (P := fun l' => l' <+: l) prefix_rfl (.error .einval)
    | tooBig n => exact h.ends (P := fun l' => l' <+: l) prefix_rfl (.error .e2big)
    | found bn cn size =>
      have hcn : cn = 0 := by
        unfold atRoot at hroot
        split_ifs at hroot
        injection hroot with _ hcn _
        exact hcn.symm
      have hfat : m.fatentry cn CLUST_EOFE = some (.error .einval, m) := by
        rw [hcn]
        exact if_pos (.inl (by decide))
      simp only [Option.bind_eq_bind, hfat, Option.bind_some]
      exact (h.recache (h.cached.fcPurge hlen) rfl).ends (P := fun l' => l' <+: l) prefix_rfl (.error .einval)
  obtain ⟨k, hk⟩ : ∃ k, k = ulong (g.clcount length + (2 ^ 64 - 1)) := ⟨_, rfl⟩
  rw [← hk]
  cases hget : l[k]? with
  | none =>
    obtain ⟨c, hlast, hmap⟩ := pcbmap_tooBig h.cached hch hwf h0 hget
    rw [hmap]
    exact (h.recache (h.cached.setLastfc hlast) rfl).ends (P := fun l' => l' <+: l) prefix_rfl (.error .e2big)
  | some c =>
    have hklen := (List.getElem?_eq_some_iff.mp hget).1
    have hsmall := h.chain.length_le
    obtain ⟨hcount, hclu⟩ := @cluster_of_clcount g length k hzero hlen (by omega) hk.symm
    obtain ⟨old, m₁, hm₁, hends⟩ := InOrder.cut h hmark hget
    rw [pcbmap_found h.cached hch hwf h0 hget, hcount, hclu]
    simp only [Option.bind_eq_bind, hm₁, Option.bind_some]
    have hmapped := h.cached.setLastmap hget
    refine hends _ rfl ⟨fun s hs hne => ?_, fun _ => ?_, hlen⟩
    · -- The slots left are below the cut, and `FC_LASTFC` is the new end.
      obtain ⟨d₁, hd₁⟩ : ∃ d₁ : Denode, d₁ = {d with lastmap := ⟨k, c⟩, fileSize := length} := ⟨_, rfl⟩
      have hold (s : Slot) (hs : s ∈ (d₁.fcPurge (k + 1)).fc) (hne : s.frcn ≠ FCE_EMPTY) :
          (l.take (k + 1))[s.frcn]? = some s.fsrcn := by
        obtain ⟨hmem, hlt⟩ := mem_fcPurge hs hne
        rw [getElem?_take_of_lt hlt]
        exact hmapped.slots s (by rw [hd₁] at hmem; exact hmem) hne
      have hs : s ∈ [(d₁.fcPurge (k + 1)).lastmap, ⟨k, c⟩, (d₁.fcPurge (k + 1)).nexttolastfc] := by
        rw [hd₁]
        exact hs
      simp only [mem_cons, not_mem_nil, or_false] at hs
      rcases hs with rfl | rfl | rfl
      · exact hold _ (by simp [fc]) hne
      · rw [getElem?_take_of_lt (Nat.lt_succ_self k)]
        exact hget
      · exact hold _ (by simp [fc]) hne
    · show k + 1 = (l.take (k + 1)).length
      rw [length_take]
      omega

section
variable (hrs : g.Unreserved) (h : InOrder m d v l) {length : Nat} (hlen : length < 2 ^ 64) (usec : Nat)
include hrs h hlen usec

theorem deextend_ends : Ends v l (fun _ => True) (deextend m d length usec) := by
  rw [deextend]
  by_cases hroot : d.isRoot = true ∧ g.fatType ≠ .fat32
  · rw [if_pos hroot]
    exact h.ends trivial (.error .einval)
  rw [if_neg hroot]
  by_cases hdir : d.isDir = true
  · rw [if_pos hdir]
    exact h.ends trivial (.error .eisdir)
  rw [if_neg hdir]
  by_cases hcount : ulong (g.clcount length + (2 ^ 64 - g.clcount d.fileSize)) > 0
  case neg =>
    simp only [if_neg hcount]
    exact (h.setSize hlen).ends trivial (.ok ())
  simp only [if_pos hcount]
  by_cases hfew : ulong (g.clcount length + (2 ^ 64 - g.clcount d.fileSize)) > m.freeclustercount
  · rw [if_pos hfew]
    exact h.ends trivial (.error .enospc)
  rw [if_neg hfew]
  rcases extendfile_ends hrs.marked h (hrs.wellFormed h.chain) (ulong (g.clcount length + (2 ^ 64 - g.clcount d.fileSize))) usec with
    ⟨hstray, hnone⟩ | ⟨r, m₁, d₁, v₁, l₁, heq, h₁, ht, -⟩
  · simp only [Option.bind_eq_bind, hnone, Option.bind_none]
    exact .inl ⟨hstray, rfl⟩
  simp only [Option.bind_eq_bind, heq, Option.bind_some]
  cases r with
  | ok _ => exact .inr ⟨.ok (), m₁, {d₁ with fileSize := length}, v₁, l₁, rfl, h₁.setSize hlen, ht, trivial⟩
  | error e =>
    -- What was added is truncated away again.
    rcases shrink_ends hrs.marked h₁ (hrs.wellFormed h₁.chain) h₁.cached.size with
      ⟨hstray, hnone⟩ | ⟨r, m₂, d₂, v₂, l₂, heq₂, h₂, ht₂, -⟩
    · simp only [hnone, Option.bind_none]
      exact .inl ⟨hstray, rfl⟩
    · simp only [heq₂, Option.bind_some]
      exact .inr ⟨.error e, m₂, d₂, v₂, l₂, rfl, h₂, ht.trans ht₂, trivial⟩

theorem detrunc_ends : Ends v l (fun _ => True) (detrunc m d length usec) := by
  rw [detrunc]
  by_cases hroot : d.isRoot = true ∧ g.fatType ≠ .fat32
  · rw [if_pos hroot]
    exact h.ends trivial (.error .einval)
  rw [if_neg hroot]
  by_cases hgrow : d.fileSize < length
  · rw [if_pos hgrow]
    exact deextend_ends hrs h hlen usec
  · rw [if_neg hgrow]
    exact (shrink_ends hrs.marked h (hrs.wellFormed h.chain) hlen).after (.refl v l) fun _ _ => trivial

end

theorem loadvnode_cached (hch : FileChain g m.fat start l) (hwf : WellFormed g l) {size : Nat} (hsize : size < 2 ^ 64)
    (isDir isRoot : Bool) : (loadvnode m start size isDir isRoot).startCluster = start ∧ Cached (loadvnode m start size isDir isRoot) l := by
  obtain ⟨d, hd⟩ : ∃ d : Denode, d = fcPurge ⟨start, size, isDir, isRoot, ⟨0, 0⟩, ⟨0, 0⟩, ⟨0, 0⟩⟩ 0 := ⟨_, rfl⟩
  have hstart : d.startCluster = start := by rw [hd]; rfl
  have hcached : Cached d l := by
    refine ⟨fun s hs hne => ?_, fun hne => ?_, by rw [hd]; exact hsize⟩
    · rw [hd] at hs
      exact absurd (mem_fcPurge hs hne).2 (Nat.not_lt_zero _)
    · rw [hd] at hne
      exact absurd (purge_eq hne).2 (Nat.not_lt_zero _)
  rw [loadvnode, ← hd]
  by_cases hdir : isDir = true ∧ start ≠ MSDOSFSROOT
  · obtain ⟨hc', hs'⟩ := hcached.pcbmap (m := m) (by rw [hstart]; exact hch) hwf CLUST_END
    simp only [if_pos hdir]
    cases hmap : d.pcbmap m CLUST_END with
    | mk answer d' =>
      rw [hmap] at hc' hs'
      cases answer with
      | found bn cn size => exact ⟨hs'.trans hstart, hc'⟩
      | tooBig n => exact ⟨hs'.trans hstart, hc'.slots, hc'.last, Nat.mod_lt _ (by decide)⟩
      | inval => exact ⟨hs'.trans hstart, hc'⟩
  · simp only [if_neg hdir]
    exact ⟨hstart, hcached⟩

end Denode

end NetBSD.Fs.Msdosfs
