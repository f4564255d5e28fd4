import NetBSD.Fs.Msdosfs.Denode
import NetBSD.Fs.Msdosfs.Chains

/-! The cache tells what the table says.

`FileChain` is the chain of a file and `Cached` what its slots must be: clusters of that
chain, and for `FC_LASTFC` its last one. A chain is well formed when no cluster on it has a
number from the reserved range, where `pcbmap` sees an end. On such a chain `pcbmap` answers
as if there were no cache, whatever slot it starts from. -/
namespace NetBSD.Fs.Msdosfs
open List Option
open Lib

/-- The chain of a file that starts at `start`. -/
def FileChain (g : Geometry) (fat : Nat → Nat) (start : Nat) (l : List Nat) : Prop :=
  start = 0 ∧ l = [] ∨ Linked fat g.Eof start l ∧ ∀ c ∈ l, g.Cluster c

/-- No number from the reserved range. -/
def WellFormed (g : Geometry) (l : List Nat) : Prop := ∀ c ∈ l, c < CLUST_RSRVD &&& g.fatmask

structure Denode.Cached (d : Denode) (l : List Nat) : Prop where
  slots : ∀ s ∈ d.fc, s.frcn ≠ FCE_EMPTY → l[s.frcn]? = some s.fsrcn
  last : d.lastfc.frcn ≠ FCE_EMPTY → d.lastfc.frcn + 1 = l.length
  size : d.fileSize < 2 ^ 64

section FileChain
variable {g : Geometry} {fat fat' : Nat → Nat} {start : Nat} {l : List Nat}

section
variable (h : FileChain g fat start l)
include h

theorem FileChain.cluster : ∀ c ∈ l, g.Cluster c := by
  rcases h with ⟨-, rfl⟩ | ⟨-, hcl⟩
  · exact fun c hc => absurd hc not_mem_nil
  · exact hcl

theorem FileChain.linked (h0 : start ≠ 0) : Linked fat g.Eof start l := by
  rcases h with ⟨hz, -⟩ | ⟨hl, -⟩
  · exact absurd hz h0
  · exact hl

theorem FileChain.start_eq_zero : start = 0 ↔ l = [] := by
  rcases h with ⟨hz, hnil⟩ | ⟨hl, hcl⟩
  · exact ⟨fun _ => hnil, fun _ => hz⟩
  obtain ⟨t, rfl⟩ := hl.eq_cons
  refine ⟨fun h0 => ?_, fun hnil => absurd hnil (cons_ne_nil _ _)⟩
  have hfirst := (hcl start mem_cons_self).1
  rw [h0] at hfirst
  exact absurd hfirst (by decide)

theorem FileChain.length_le : l.length ≤ g.maxcluster := by
  rcases h with ⟨-, rfl⟩ | ⟨hl, hcl⟩
  · exact Nat.zero_le _
  · exact Mount.length_le_maxcluster hl.nodup hcl

theorem FileChain.fat_ne_zero : ∀ c ∈ l, fat c ≠ 0 := by
  intro c hc h0
  rcases h with ⟨-, rfl⟩ | ⟨hl, hcl⟩
  · exact absurd hc not_mem_nil
  rcases hl.next_mem c hc with hnext | hstop
  · have hfirst := (hcl _ hnext).1
    rw [CLUST_FIRST] at hfirst
    omega
  · have hle := g.le_of_eof hstop
    have hpos := g.eofs_pos
    omega

theorem FileChain.congr (heq : ∀ c ∈ l, fat' c = fat c) : FileChain g fat' start l := by
  rcases h with hnil | ⟨hl, hcl⟩
  · exact .inl hnil
  · exact .inr ⟨hl.congr heq, hcl⟩

end

theorem Geometry.Unreserved.wellFormed (hrs : g.Unreserved) (h : FileChain g fat start l) : WellFormed g l :=
  fun c hc => lt_of_le_of_lt (h.cluster c hc).2 hrs

theorem FileChain.unique {l' : List Nat} (h : FileChain g fat start l) (h' : FileChain g fat start l') : l = l' := by
  rcases h with ⟨rfl, rfl⟩ | ⟨hl, hcl⟩
  · rcases h' with ⟨-, rfl⟩ | ⟨hl', hcl'⟩
    · rfl
    · exact absurd (hcl' 0 hl'.mem_self).1 (by decide)
  · rcases h' with ⟨rfl, rfl⟩ | ⟨hl', -⟩
    · exact absurd (hcl 0 hl.mem_self).1 (by decide)
    · exact hl.unique hl'

end FileChain

/-! ### Slots -/

namespace Denode
variable {g : Geometry} {m : Mount g} {d : Denode} {l : List Nat}

theorem closer_spec {findcn : Nat} {P : Slot → Prop} (slots : List Slot) (closest : Option Slot)
    (hc : ∀ s, closest = some s → s.frcn ≤ findcn ∧ P s) (hs : ∀ s ∈ slots, s.frcn ≠ FCE_EMPTY → P s) :
    ∀ s, slots.foldl (closer findcn) closest = some s → s.frcn ≤ findcn ∧ P s := by
  induction slots generalizing closest with
  | nil => exact hc
  | cons t rest ih =>
    refine ih (closer findcn closest t) (fun s hs' => ?_) fun s hmem => hs s (mem_cons_of_mem _ hmem)
    unfold closer at hs'
    by_cases ht : t.frcn ≠ FCE_EMPTY ∧ t.frcn ≤ findcn
    · have htP : t.frcn ≤ findcn ∧ P t := ⟨ht.2, hs t mem_cons_self ht.1⟩
      rw [if_pos ht] at hs'
      cases closest with
      | none =>
        rw [← some.inj hs']
        exact htP
      | some c =>
        by_cases hgt : t.frcn > c.frcn
        · simp only [if_pos hgt] at hs'
          rw [← some.inj hs']
          exact htP
        · simp only [if_neg hgt] at hs'
          exact hc s hs'
    · rw [if_neg ht] at hs'
      exact hc s hs'

theorem fcLookup_spec {findcn : Nat} (hc : Cached d l) (h0 : l[0]? = some d.startCluster) :
    ((d.fcLookup findcn).getD ⟨0, d.startCluster⟩).frcn ≤ findcn ∧
      l[((d.fcLookup findcn).getD ⟨0, d.startCluster⟩).frcn]? = some ((d.fcLookup findcn).getD ⟨0, d.startCluster⟩).fsrcn := by
  cases hlook : d.fcLookup findcn with
  | none => exact ⟨Nat.zero_le _, h0⟩
  | some s => exact closer_spec d.fc none nofun hc.slots s hlook

theorem walk_spec {start : Nat} (hl : Linked m.fat g.Eof start l) (hcl : ∀ c ∈ l, g.Cluster c) (hwf : WellFormed g l)
    (n i cn prevcn : Nat) (hi : l[i]? = some cn) :
    (∀ c, l[i + n]? = some c → walk m n i cn prevcn = .found (i + n) c) ∧
      (l[i + n]? = none → ∃ c, l.getLast? = some c ∧ walk m n i cn prevcn = .hiteof l.length c) := by
  have hneof (c : Nat) (hc : c ∈ l) : ¬g.Eof c := by
    intro heof
    have hlt := hwf c hc
    have hle := g.le_of_eof heof
    have hrs := g.rsrvd_le_eofs
    omega
  induction n generalizing i cn prevcn with
  | zero =>
    rw [add_zero, hi]
    refine ⟨fun c hc => ?_, nofun⟩
    rw [← some.inj hc]
    exact if_pos (hneof cn (mem_of_getElem? hi))
  | succ n ih =>
    have hmem := mem_of_getElem? hi
    have hlt := hwf cn hmem
    have hin := hcl cn hmem
    rw [walk, if_neg (by omega), if_neg (by have := hin.1; have := hin.2; omega), show i + (n + 1) = i + 1 + n from by omega]
    rcases hl.next_getElem? hi with hnext | ⟨hlen, hstop⟩
    · exact ih (i + 1) (m.fat cn) cn hnext
    -- The entry is an end mark, and the next round stops there.
    have hrs : m.fat cn ≥ CLUST_RSRVD &&& g.fatmask := g.rsrvd_le_eofs.trans (g.le_of_eof hstop)
    have hlast : l.getLast? = some cn := by
      rw [getLast?_eq_getElem?, ← hlen, Nat.add_sub_cancel, hi]
    have hend : walk m n (i + 1) (m.fat cn) cn = .hiteof l.length cn := by
      rw [← hlen]
      cases n with
      | zero => exact if_neg (not_not.mpr hstop)
      | succ n => exact if_pos hrs
    have hnone : l[i + 1 + n]? = none := getElem?_eq_none (by omega)
    rw [hnone]
    exact ⟨nofun, fun _ => ⟨cn, hlast, hend⟩⟩

section Pcbmap
variable {v : Volume} {findcn : Nat}

/-- The answer for the root directory, which has no chain, and for an empty file. -/
def atRoot (g : Geometry) (isDir : Bool) (fileSize findcn : Nat) : Mapped :=
  if isDir then
    if g.cn2off findcn ≥ fileSize then .tooBig (g.bn2cn g.rootdirsize)
    else .found (g.rootdirblk + g.cn2bn findcn) MSDOSFSROOT (min g.bpcluster (fileSize - g.cn2off findcn))
  else .tooBig 0

theorem pcbmap_root (h0 : d.startCluster = 0) : d.pcbmap m findcn = (atRoot g d.isDir d.fileSize findcn, d) := by
  rw [pcbmap, atRoot]
  split_ifs <;> rfl

section
variable (hc : Cached d l) (hch : FileChain g m.fat d.startCluster l) (hwf : WellFormed g l) (h0 : d.startCluster ≠ 0)
include hc hch hwf h0

theorem pcbmap_found {c : Nat} (hget : l[findcn]? = some c) :
    d.pcbmap m findcn = (.found (g.cntobn c) c g.bpcluster, {d with lastmap := ⟨findcn, c⟩}) := by
  have hl := hch.linked h0
  obtain ⟨t, ht⟩ := hl.eq_cons
  obtain ⟨hle, hplace⟩ := @fcLookup_spec d l findcn hc (by rw [ht]; rfl)
  have hwalk := (walk_spec hl hch.cluster hwf (findcn - _) _ _ 0 hplace).1 c (by rw [Nat.add_sub_cancel' hle]; exact hget)
  rw [Nat.add_sub_cancel' hle] at hwalk
  rw [pcbmap, if_neg h0]
  simp [hwalk]

theorem pcbmap_tooBig (hget : l[findcn]? = none) :
    ∃ c, l.getLast? = some c ∧ d.pcbmap m findcn = (.tooBig l.length, {d with lastfc := ⟨l.length - 1, c⟩}) := by
  have hl := hch.linked h0
  obtain ⟨t, ht⟩ := hl.eq_cons
  obtain ⟨hle, hplace⟩ := @fcLookup_spec d l findcn hc (by rw [ht]; rfl)
  obtain ⟨c, hlast, hwalk⟩ :=
    (walk_spec hl hch.cluster hwf (findcn - _) _ _ 0 hplace).2 (by rw [Nat.add_sub_cancel' hle]; exact hget)
  have hlen := hch.length_le
  have hmax := g.maxcluster_le
  have hpos : 0 < l.length := by
    rw [ht]
    exact Nat.succ_pos _
  have hval : ulong (l.length + (2 ^ 64 - 1)) = l.length - 1 := by
    rw [ulong]
    omega
  refine ⟨c, hlast, ?_⟩
  rw [pcbmap, if_neg h0]
  simp only [hwalk, hval]

end

theorem Cached.setLastmap (hc : Cached d l) {c : Nat} (hget : l[findcn]? = some c) : Cached {d with lastmap := ⟨findcn, c⟩} l := by
  refine ⟨fun s hs hne => ?_, hc.last, hc.size⟩
  rcases mem_cons.mp hs with rfl | hs
  · exact hget
  · exact hc.slots s (mem_cons_of_mem _ hs) hne

theorem Cached.setLastfc (hc : Cached d l) {c : Nat} (hget : l.getLast? = some c) : Cached {d with lastfc := ⟨l.length - 1, c⟩} l := by
  have hpos : 0 < l.length := length_pos_of_mem (mem_of_getLast? hget)
  refine ⟨fun s hs hne => ?_, fun _ => by show l.length - 1 + 1 = l.length; omega, hc.size⟩
  have hs : s ∈ [d.lastmap, ⟨l.length - 1, c⟩, d.nexttolastfc] := hs
  simp only [mem_cons, not_mem_nil, or_false] at hs
  rcases hs with rfl | rfl | rfl
  · exact hc.slots _ (by simp [fc]) hne
  · rw [← getLast?_eq_getElem?]
    exact hget
  · exact hc.slots _ (by simp [fc]) hne

theorem Cached.pcbmap (hc : Cached d l) (hch : FileChain g m.fat d.startCluster l) (hwf : WellFormed g l) (findcn : Nat) :
    Cached (d.pcbmap m findcn).2 l ∧ (d.pcbmap m findcn).2.startCluster = d.startCluster := by
  by_cases h0 : d.startCluster = 0
  · rw [pcbmap_root h0]
    exact ⟨hc, rfl⟩
  cases hget : l[findcn]? with
  | some c =>
    rw [pcbmap_found hc hch hwf h0 hget]
    exact ⟨hc.setLastmap hget, rfl⟩
  | none =>
    obtain ⟨c, hlast, hmap⟩ := pcbmap_tooBig hc hch hwf h0 hget
    rw [hmap]
    exact ⟨hc.setLastfc hlast, rfl⟩

/-- The same file with nothing in its cache. -/
def uncached (d : Denode) : Denode := d.fcPurge 0

theorem uncached_cached (hc : Cached d l) : Cached d.uncached l := by
  have hempty (s : Slot) : (s.purge (0 % 2 ^ 32)).frcn = FCE_EMPTY := by
    exact congrArg Slot.frcn (if_pos (Nat.zero_le _))
  refine ⟨fun s hs hne => ?_, fun hne => absurd (hempty _) hne, hc.size⟩
  have hs : s ∈ [d.lastmap.purge (0 % 2 ^ 32), d.lastfc.purge (0 % 2 ^ 32), d.nexttolastfc.purge (0 % 2 ^ 32)] := hs
  simp only [mem_cons, not_mem_nil, or_false] at hs
  rcases hs with rfl | rfl | rfl <;> exact absurd (hempty _) hne

theorem pcbmap_uncached (hc : Cached d l) (hch : FileChain g m.fat d.startCluster l) (hwf : WellFormed g l) (findcn : Nat) :
    (d.pcbmap m findcn).1 = (d.uncached.pcbmap m findcn).1 := by
  have hc' := uncached_cached hc
  by_cases h0 : d.startCluster = 0
  · rw [pcbmap_root h0, @pcbmap_root g m d.uncached findcn h0]
    rfl
  cases hget : l[findcn]? with
  | some c => rw [pcbmap_found hc hch hwf h0 hget, @pcbmap_found g m d.uncached l findcn hc' hch hwf h0 c hget]
  | none =>
    obtain ⟨c, -, hmap⟩ := pcbmap_tooBig hc hch hwf h0 hget
    obtain ⟨c', -, hmap'⟩ := @pcbmap_tooBig g m d.uncached l findcn hc' hch hwf h0 hget
    rw [hmap, hmap']

end Pcbmap

end Denode

end NetBSD.Fs.Msdosfs
