import NetBSD.Fs.Msdosfs.Files
import NetBSD.Lib.System

/-! Runs of calls on a mounted volume.

A `World` is the mount and the denodes in memory, by number. A call that leaves the map has no
next state. `Inv` holds along every run of calls on chains that no other file shares: the map
is exact, and every file has a chain of its own that its cache agrees with. -/
namespace NetBSD.Fs.Msdosfs
open Function Option
open Lib

structure World (g : Geometry) where
  mnt : Mount g
  files : Nat → Option Denode

inductive Call where
  | loadvnode (f startCluster fileSize : Nat) (isDir isRoot : Bool)
  | reclaim (f : Nat)
  | setSize (f size : Nat)
  | pcbmap (f findcn : Nat)
  | extendfile (f count usec : Nat)
  | detrunc (f length usec : Nat)
  | clusteralloc (start count usec : Nat)
  | clusterfree (cluster : Nat)
  | freeclusterchain (cluster : Nat)

namespace World
variable {g : Geometry}

/-- A call on a denode in memory. -/
def onFile (w : World g) (f : Nat) (call : Mount g → Denode → Option (Except Errno Unit × Mount g × Denode)) : Option (World g) :=
  (w.files f).bind fun d => (call w.mnt d).map fun out => ⟨out.2.1, update w.files f (some out.2.2)⟩

/-- `setSize` is what `msdosfs_write` does after `extendfile`. -/
def next (w : World g) : Call → Option (World g)
  | .loadvnode f startCluster fileSize isDir isRoot =>
    some {w with files := update w.files f (some (Denode.loadvnode w.mnt startCluster (ulong fileSize) isDir isRoot))}
  | .reclaim f => some {w with files := update w.files f none}
  | .setSize f size => w.onFile f fun m d => some (.ok (), m, {d with fileSize := ulong size})
  | .pcbmap f findcn => w.onFile f fun m d => some (.ok (), m, (d.pcbmap m findcn).2)
  | .extendfile f count usec => w.onFile f fun m d => d.extendfile m count usec
  | .detrunc f length usec => w.onFile f fun m d => d.detrunc m (ulong length) usec
  | .clusteralloc start count usec => (w.mnt.clusteralloc start count usec).map fun out => {w with mnt := out.2}
  | .clusterfree cluster => (w.mnt.clusterfree cluster).map fun out => {w with mnt := out.2}
  | .freeclusterchain cluster => (w.mnt.freeclusterchain cluster).map fun m => {w with mnt := m}

/-- The chain of a file in memory. -/
def Has (w : World g) (f : Nat) (l : List Nat) : Prop :=
  ∃ d, w.files f = some d ∧ FileChain g w.mnt.fat d.startCluster l

/-- What callers promise: a chain is opened or freed only when it is one and no file in memory
has a part of it, and a cluster is asked for behind one of the volume, or anywhere. -/
def Promised (w : World g) : Call → Prop
  | .loadvnode f startCluster _ _ _ => w.files f = none ∧
      ∃ l, FileChain g w.mnt.fat startCluster l ∧ WellFormed g l ∧ ∀ f' l', w.Has f' l' → l.Disjoint l'
  | .reclaim _ => True
  | .setSize f _ | .pcbmap f _ | .extendfile f _ _ | .detrunc f _ _ => (w.files f).isSome
  | .clusteralloc start count _ => start ≤ g.maxcluster + 1 ∧ 0 < count
  | .clusterfree cluster => g.Cluster cluster ∧ w.mnt.fat cluster ≠ 0 ∧ ∀ f l, w.Has f l → cluster ∉ l
  | .freeclusterchain cluster => ∃ l, Linked w.mnt.fat g.Eof cluster l ∧ (∀ c ∈ l, g.Cluster c) ∧ ∀ f l', w.Has f l' → l.Disjoint l'

/-- A call on a file whose chain is well formed. Growing is left to `extendfile`. -/
def OnWellFormed (w : World g) : Call → Prop
  | .pcbmap f _ | .extendfile f _ _ => ∀ l, w.Has f l → WellFormed g l
  | .detrunc f length _ => (∀ l, w.Has f l → WellFormed g l) ∧ ∀ d, w.files f = some d → ulong length ≤ d.fileSize
  | _ => True

end World

/-- The volume has just been mounted. The next free cluster of the FSInfo block has been
checked. -/
def Mounted (g : Geometry) (w : World g) : Prop :=
  (∀ f, w.files f = none) ∧ ∃ m : Mount g, (m.fsinfo = true → m.nxtfree ≤ g.maxcluster) ∧ m.fillinusemap = some w.mnt

def msdosfs (g : Geometry) : System (World g) Call := .ofStep (Mounted g) World.next

structure World.Inv {g : Geometry} (w : World g) (v : Volume) (chains : Nat → List Nat) : Prop where
  shows_ : w.mnt.Shows v
  exact_ : v.Exact g
  files : ∀ f d, w.files f = some d → FileChain g v.fat d.startCluster (chains f) ∧ d.Cached (chains f)
  apart : ∀ f f' d d', w.files f = some d → w.files f' = some d' → f ≠ f' → (chains f).Disjoint (chains f')

namespace World
variable {g : Geometry} {w : World g} {v v' : Volume} {chains : Nat → List Nat}

section
variable (h : w.Inv v chains)
include h

theorem Inv.has_chain {f : Nat} {d : Denode} (hd : w.files f = some d) : w.Has f (chains f) := by
  refine ⟨d, hd, ?_⟩
  rw [h.shows_.fat]
  exact (h.files f d hd).1

theorem Inv.elsewhere {m' : Mount g} (hs : m'.Shows v') (hex : v'.Exact g)
    (hfat : ∀ f d, w.files f = some d → ∀ c ∈ chains f, v'.fat c = v.fat c) : Inv {w with mnt := m'} v' chains := by
  refine ⟨hs, hex, fun f d hd => ?_, h.apart⟩
  obtain ⟨hch, hc⟩ := h.files f d hd
  exact ⟨hch.congr (hfat f d hd), hc⟩

theorem Inv.onFile {f : Nat} {d : Denode} (hd : w.files f = some d)
    (call : Mount g → Denode → Option (Except Errno Unit × Mount g × Denode)) {P : List Nat → Prop}
    (hends : Ends v (chains f) P (call w.mnt d)) :
    g.Strays ∧ w.onFile f call = none ∨ ∃ w' v' chains', w.onFile f call = some w' ∧ w'.Inv v' chains' := by
  rw [World.onFile, hd, Option.bind_some]
  rcases hends with ⟨hstray, hnone⟩ | ⟨r, m', d', v', l', heq, hord, htouch, -⟩
  · exact .inl ⟨hstray, by rw [hnone]; rfl⟩
  refine .inr ⟨⟨m', update w.files f (some d')⟩, v', update chains f l', by rw [heq]; rfl, hord.shows_, hord.exact_, ?_, ?_⟩
  · intro f₁ d₁ hd₁
    by_cases hf : f₁ = f
    · subst hf
      rw [show (World.mk m' (update w.files f₁ (some d'))).files = update w.files f₁ (some d') from rfl] at hd₁
      rw [update_self] at hd₁ ⊢
      rw [← some.inj hd₁]
      exact ⟨hord.chain, hord.cached⟩
    have hd₁ : update w.files f (some d') f₁ = some d₁ := hd₁
    rw [update_of_ne hf] at hd₁ ⊢
    obtain ⟨hch, hc⟩ := h.files f₁ d₁ hd₁
    -- Another file's entries are in use and not on this chain.
    refine ⟨hch.congr fun c hc' => htouch.fat c (fun hin => ?_) (hch.fat_ne_zero c hc'), hc⟩
    exact h.apart f₁ f d₁ d hd₁ hd hf hc' hin
  have hmine (f₂ : Nat) (d₂ : Denode) (hd₂ : w.files f₂ = some d₂) (hne : f₂ ≠ f) : l'.Disjoint (chains f₂) := by
    intro c hc hc₂
    rcases htouch.mem c hc with hin | hfree
    · exact h.apart f₂ f d₂ d hd₂ hd hne hc₂ hin
    · exact (h.files f₂ d₂ hd₂).1.fat_ne_zero c hc₂ hfree
  intro f₁ f₂ d₁ d₂ hg₁ hg₂ hne
  rw [show (World.mk m' (update w.files f (some d'))).files = update w.files f (some d') from rfl] at hg₁ hg₂
  by_cases hf₁ : f₁ = f
  · subst hf₁
    rw [update_of_ne hne.symm] at hg₂
    rw [update_self, update_of_ne hne.symm]
    exact hmine f₂ d₂ hg₂ hne.symm
  rw [update_of_ne hf₁] at hg₁
  by_cases hf₂ : f₂ = f
  · subst hf₂
    rw [update_self, update_of_ne hf₁]
    exact (hmine f₁ d₁ hg₁ hf₁).symm
  · rw [update_of_ne hf₂] at hg₂
    rw [update_of_ne hf₁, update_of_ne hf₂]
    exact h.apart f₁ f₂ d₁ d₂ hg₁ hg₂ hne

theorem Inv.loadvnode {f start : Nat} {l : List Nat} (hch : FileChain g w.mnt.fat start l)
    (hwf : WellFormed g l) (hdisj : ∀ f' l', w.Has f' l' → l.Disjoint l') (size : Nat) (isDir isRoot : Bool) :
    Inv {w with files := update w.files f (some (Denode.loadvnode w.mnt start (ulong size) isDir isRoot))} v
      (update chains f l) := by
  obtain ⟨hstart, hcached⟩ := Denode.loadvnode_cached hch hwf (show ulong size < 2 ^ 64 from Nat.mod_lt _ (by decide)) isDir isRoot
  obtain ⟨d', hd'⟩ : ∃ d', d' = Denode.loadvnode w.mnt start (ulong size) isDir isRoot := ⟨_, rfl⟩
  rw [← hd'] at hstart hcached ⊢
  refine ⟨h.shows_, h.exact_, fun f₁ d₁ hg₁ => ?_, fun f₁ f₂ d₁ d₂ hg₁ hg₂ hne => ?_⟩
  · rw [show (World.mk w.mnt (update w.files f (some d'))).files = update w.files f (some d') from rfl] at hg₁
    by_cases hf : f₁ = f
    · subst hf
      rw [update_self] at hg₁ ⊢
      rw [← some.inj hg₁, hstart, ← h.shows_.fat]
      exact ⟨hch, hcached⟩
    · rw [update_of_ne hf] at hg₁ ⊢
      exact h.files f₁ d₁ hg₁
  rw [show (World.mk w.mnt (update w.files f (some d'))).files = update w.files f (some d') from rfl] at hg₁ hg₂
  by_cases hf₁ : f₁ = f
  · subst hf₁
    rw [update_of_ne hne.symm] at hg₂
    rw [update_self, update_of_ne hne.symm]
    exact hdisj f₂ _ (h.has_chain hg₂)
  rw [update_of_ne hf₁] at hg₁
  by_cases hf₂ : f₂ = f
  · subst hf₂
    rw [update_self, update_of_ne hf₁]
    exact (hdisj f₁ _ (h.has_chain hg₁)).symm
  · rw [update_of_ne hf₂] at hg₂
    rw [update_of_ne hf₁, update_of_ne hf₂]
    exact h.apart f₁ f₂ d₁ d₂ hg₁ hg₂ hne

theorem Inv.reclaim (f : Nat) : Inv {w with files := update w.files f none} v chains := by
  have hstill (f₁ : Nat) (d₁ : Denode) (hg₁ : update w.files f none f₁ = some d₁) : w.files f₁ = some d₁ := by
    by_cases hf : f₁ = f
    · subst hf
      exact absurd hg₁ (by simp)
    · rwa [update_of_ne hf] at hg₁
  exact ⟨h.shows_, h.exact_, fun f₁ d₁ hg₁ => h.files f₁ d₁ (hstill f₁ d₁ hg₁),
    fun f₁ f₂ d₁ d₂ hg₁ hg₂ => h.apart f₁ f₂ d₁ d₂ (hstill f₁ d₁ hg₁) (hstill f₂ d₂ hg₂)⟩

theorem Inv.inOrder {f : Nat} {d : Denode} (hd : w.files f = some d) : InOrder w.mnt d v (chains f) :=
  ⟨h.shows_, h.exact_, (h.files f d hd).1, (h.files f d hd).2⟩

theorem Inv.next (hmark : g.Marked) {a : Call} (hp : w.Promised a) (hwf : g.Unreserved ∨ w.OnWellFormed a) :
    g.Strays ∧ w.next a = none ∨ ∃ w' v' chains', w.next a = some w' ∧ w'.Inv v' chains' := by
  have hopen (f : Nat) (hf : (w.files f).isSome) : ∃ d, w.files f = some d := Option.isSome_iff_exists.mp hf
  cases a with
  | loadvnode f start size isDir isRoot =>
    obtain ⟨-, l, hch, hl, hdisj⟩ := hp
    exact .inr ⟨_, v, _, rfl, h.loadvnode hch hl hdisj size isDir isRoot⟩
  | reclaim f => exact .inr ⟨_, v, chains, rfl, h.reclaim f⟩
  | setSize f size =>
    obtain ⟨d, hd⟩ := hopen f hp
    have hsize : ulong size < 2 ^ 64 := Nat.mod_lt _ (by decide)
    exact h.onFile hd (fun m d => some (.ok (), m, {d with fileSize := ulong size}))
      (((h.inOrder hd).setSize hsize).ends (P := fun _ => True) trivial (.ok ()))
  | pcbmap f findcn =>
    obtain ⟨d, hd⟩ := hopen f hp
    have hchain := (h.files f d hd).1
    have hw : WellFormed g (chains f) := hwf.elim (fun hrs => hrs.wellFormed hchain) fun hon => hon _ (h.has_chain hd)
    have hch : FileChain g w.mnt.fat d.startCluster (chains f) := by
      rw [h.shows_.fat]
      exact hchain
    obtain ⟨hc, hs⟩ := (h.files f d hd).2.pcbmap hch hw findcn
    exact h.onFile hd (fun m d => some (.ok (), m, (d.pcbmap m findcn).2))
      (((h.inOrder hd).recache hc hs).ends (P := fun _ => True) trivial (.ok ()))
  | extendfile f count usec =>
    obtain ⟨d, hd⟩ := hopen f hp
    have hw : WellFormed g (chains f) :=
      hwf.elim (fun hrs => hrs.wellFormed (h.files f d hd).1) fun hon => hon _ (h.has_chain hd)
    exact h.onFile hd (fun m d => d.extendfile m count usec) (Denode.extendfile_ends hmark (h.inOrder hd) hw count usec)
  | detrunc f length usec =>
    obtain ⟨d, hd⟩ := hopen f hp
    have hlen : ulong length < 2 ^ 64 := Nat.mod_lt _ (by decide)
    rcases hwf with hrs | ⟨hon, hle⟩
    · exact h.onFile hd (fun m d => d.detrunc m (ulong length) usec) (Denode.detrunc_ends hrs (h.inOrder hd) hlen usec)
    have hshrink : d.detrunc w.mnt (ulong length) usec = d.shrink w.mnt (ulong length) := by
      rw [Denode.detrunc, if_neg (Nat.not_lt.mpr (hle d hd)), Denode.shrink]
      by_cases hroot : d.isRoot = true ∧ g.fatType ≠ .fat32
      · rw [if_pos hroot, if_pos hroot]
      · rw [if_neg hroot]
    have hends := Denode.shrink_ends hmark (h.inOrder hd) (hon _ (h.has_chain hd)) hlen
    rw [← hshrink] at hends
    exact h.onFile hd (fun m d => d.detrunc m (ulong length) usec) hends
  | clusteralloc start count usec =>
    rcases h.shows_.clusteralloc_cases usec hp.2 hp.1 with ⟨hstray, -, hnone⟩ | ⟨-, hfull⟩ | ⟨cn, got, m', -, -, hrun, heq, hm'⟩
    · exact .inl ⟨hstray, by rw [World.next, hnone]; rfl⟩
    · exact .inr ⟨w, v, chains, by rw [World.next, hfull]; rfl, h⟩
    have htouch := Denode.alloc_touches h.exact_ hrun h.shows_.clusters []
    refine .inr ⟨{w with mnt := m'}, _, chains, by rw [World.next, heq]; rfl, h.elsewhere hm'
      (Mount.alloc_exact h.exact_ fun i hi => h.shows_.clusters _ (hrun i hi)) fun f d hd c hc => ?_⟩
    exact htouch.fat c List.not_mem_nil ((h.files f d hd).1.fat_ne_zero c hc)
  | clusterfree cluster =>
    obtain ⟨hcl, hne, hout⟩ := hp
    have hnot : cluster ∉ v.free := by
      rw [h.exact_ cluster hcl, ← h.shows_.fat]
      exact hne
    obtain ⟨m', hm', hs'⟩ := h.shows_.clusterfree hcl hnot
    refine .inr ⟨{w with mnt := m'}, _, chains, by rw [World.next, hm']; rfl, h.elsewhere hs'
      (Mount.release_exact h.exact_ _) fun f d hd c hc => if_neg fun hin => ?_⟩
    rw [List.mem_singleton.mp hin] at hc
    exact hout f _ (h.has_chain hd) hc
  | freeclusterchain cluster =>
    obtain ⟨l, hl, hcl, hout⟩ := hp
    rw [h.shows_.fat] at hl
    have hused (x : Nat) (hx : x ∈ l) : x ∉ v.free :=
      fun hfree => FileChain.fat_ne_zero (.inr ⟨hl, hcl⟩) x hx ((h.exact_ x (hcl x hx)).mp hfree)
    obtain ⟨m', hm', hs'⟩ := h.shows_.freeclusterchain hl hcl hused fun x hx => hmark.not_cluster hx
    refine .inr ⟨{w with mnt := m'}, _, chains, by rw [World.next, hm']; rfl, h.elsewhere hs'
      (Mount.release_exact h.exact_ _) fun f d hd c hc => if_neg fun hin => ?_⟩
    exact hout f _ (h.has_chain hd) hin hc

end

theorem Mounted.inv (h : Mounted g w) : ∃ v, w.Inv v fun _ => [] := by
  obtain ⟨hnone, m, hnxt, hfill⟩ := h
  obtain ⟨m', hm', hs⟩ := m.fillinusemap_spec hnxt
  obtain rfl : w.mnt = m' := some.inj (hfill.symm.trans hm')
  refine ⟨_, hs, Mount.freeBelow_exact _, fun f d hd => ?_, fun f f' d d' hd => ?_⟩
  · rw [hnone f] at hd
    exact absurd hd (by simp)
  · rw [hnone f] at hd
    exact absurd hd (by simp)

theorem reach_inv (hmark : g.Marked) {ok : World g → Call → Prop} (hok : ∀ w a, ok w a → w.Promised a ∧ (g.Unreserved ∨ w.OnWellFormed a))
    (h : (msdosfs g).Reach ok w) : ∃ v chains, w.Inv v chains := by
  refine @System.Reach.invariant _ _ _ _ (fun w : World g => ∃ v chains, w.Inv v chains) (fun w hw => ?_)
    (fun w a w' hinv ha hstep => ?_) w h
  · obtain ⟨v, hv⟩ := Mounted.inv hw
    exact ⟨v, _, hv⟩
  obtain ⟨v, chains, hinv⟩ := hinv
  have hstep : w.next a = some w' := hstep
  rcases hinv.next hmark (hok w a ha).1 (hok w a ha).2 with ⟨-, hnone⟩ | ⟨w₁, v', chains', hw₁, h'⟩
  · rw [hnone] at hstep
    exact absurd hstep (by simp)
  · obtain rfl : w₁ = w' := some.inj (hw₁.symm.trans hstep)
    exact ⟨v', chains', h'⟩

end World

end NetBSD.Fs.Msdosfs
