import NetBSD.Kern.Wapbl.Replay

/-! Reading through a WAPBL journal that has not been replayed
(`sys/kern/vfs_wapbl.c`).

`wapbl_replay_can_read` and `wapbl_replay_read` walk a range one file system block at a
time and look each block up in the hash. The keys of the hash are device blocks, a file
system block apart; the first walk stays on its first block and the second goes on by
one device block. What they should answer is read off the writes of
`wapbl_replay_write`, and `replay_reads_iff` says of which ranges they do. -/
namespace NetBSD.Kern.Wapbl
open List Nat

section Walks
variable (g : Geometry)

/-- The loop of `wapbl_replay_can_read`, for what is left of `len` in file system blocks. -/
def canReadLoop (wr : Replay) (blk : Int) : Nat → Nat
  | 0 => 0
  | n + 1 => if (wapblBlkhashGet wr.blkhash blk).isSome then 1 else canReadLoop wr blk n

def wapblReplayCanRead (wr : Replay) (blk : Int) (len : Nat) : Nat := canReadLoop wr blk (len / g.fsBlk)

/-- The loop of `wapbl_replay_read`. -/
def readLoop (disk : Disk) (wr : Replay) : Nat → List Cell → Int → List Cell
  | 0, data, _ => data
  | n + 1, data, blk =>
    let block := match wapblBlkhashGet wr.blkhash blk with
      | some wb => (wapblCircRead g disk g.fsBlk wb.wbOff).1
      | none => data.take g.fsBlk
    block ++ readLoop disk wr n (data.drop g.fsBlk) (blk + 1)

/-- `wapbl_replay_read`: what it leaves in the caller's buffer. -/
def wapblReplayRead (disk : Disk) (wr : Replay) (data : List Cell) (blk : Int) (len : Nat) : List Cell :=
  readLoop g disk wr (len / g.fsBlk) data blk

end Walks

section Spec
variable (g : Geometry) (disk : Disk) (wr : Replay)

/-- The `i`-th file system block of a buffer. -/
def fsBlockAt (data : List Cell) (i : Nat) : List Cell := (data.drop (i * g.fsBlk)).take g.fsBlk

/-- The address of the `i`-th file system block of a range. -/
def fsBlockAddr (blk : Int) (i : Nat) : Int := blk + i * btodb g.fsBlk

/-- Some file system block of the range is in the journal. -/
def RangeLogged (blk : Int) (len : Nat) : Prop :=
  ∃ i < len / g.fsBlk, ∃ cells, (fsBlockAddr g blk i, cells) ∈ wapblReplayWrite g disk wr

/-- The blocks of the range that are in the journal, and no others, are overwritten with
what `wapbl_replay_write` would write there. -/
structure ReadsThrough (data : List Cell) (blk : Int) (len : Nat) (data' : List Cell) : Prop where
  length : data'.length = data.length
  logged : ∀ i < len / g.fsBlk, ∀ cells, (fsBlockAddr g blk i, cells) ∈ wapblReplayWrite g disk wr → fsBlockAt g data' i = cells
  others : ∀ i < len / g.fsBlk, (∀ cells, (fsBlockAddr g blk i, cells) ∉ wapblReplayWrite g disk wr) →
    fsBlockAt g data' i = fsBlockAt g data i

/-- The journal's copy of a block, as it is found through the hash. -/
def copyOf (blk : Int) : Option (List Cell) :=
  (wapblBlkhashGet wr.blkhash blk).map fun wb => (wapblCircRead g disk g.fsBlk wb.wbOff).1

end Spec

section Hash
variable {g : Geometry} {disk : Disk} {wr wr' : Replay} {blk : Int}

theorem processRecord_hashNodup (h : HashNodup wr.blkhash) (saveoff off : Nat) (r : Record) :
    HashNodup (processRecord g wr saveoff off r).1.blkhash := by
  cases r with
  | blocks wcLen wcBlocks =>
    let keeps (st : List WapblBlk × Nat) : Prop := HashNodup st.1
    refine foldlRecOn wcBlocks _ (motive := keeps) h fun st hst b _ => ?_
    exact foldlRecOn _ _ (motive := keeps) hst fun st hst j _ => hashNodup_ins hst
  | revocations wcLen wcBlocks =>
    refine foldlRecOn wcBlocks _ (motive := HashNodup) h fun hash hn b _ => ?_
    exact foldlRecOn _ _ (motive := HashNodup) hn fun hash hn j _ => hashNodup_rem hn
  | inodes wcLen wcClear wcInodes =>
    simp only [processRecord, wapblReplayProcessInodes]
    split <;> exact h

theorem replayLoop_hashNodup {head fuel off : Nat} (h : HashNodup wr.blkhash)
    (hloop : replayLoop g disk head fuel wr off = some (.ok wr')) : HashNodup wr'.blkhash := by
  induction fuel generalizing wr off with
  | zero =>
    unfold replayLoop at hloop
    split at hloop
    · cases hloop
      exact h
    · cases hloop
  | succ fuel ih =>
    unfold replayLoop at hloop
    split at hloop
    · cases hloop
      exact h
    simp only at hloop
    split at hloop
    · cases hloop
    · next wcn _ =>
      split at hloop
      · cases hloop
      · exact ih (processRecord_hashNodup h _ _ wcn) hloop

theorem replayProcess_hashNodup {head tail fuel : Nat} (h : wapblReplayProcess g disk head tail fuel = some (.ok wr)) : HashNodup wr.blkhash :=
  replayLoop_hashNodup (show HashNodup [] from nodup_nil) h

theorem mem_replayWrite_iff (h : HashNodup wr.blkhash) {cells : List Cell} :
    (blk, cells) ∈ wapblReplayWrite g disk wr ↔ copyOf g disk wr blk = some cells := by
  rw [wapblReplayWrite, mem_map, copyOf, Option.map_eq_some_iff]
  constructor
  · rintro ⟨wb, hwb, heq⟩
    obtain ⟨rfl, rfl⟩ := Prod.mk.inj heq
    exact ⟨wb, (mem_iff_get h wb).mp hwb, rfl⟩
  · rintro ⟨wb, hget, rfl⟩
    obtain rfl := wapblBlkhashGet_blk hget
    exact ⟨wb, (mem_iff_get h wb).mpr hget, rfl⟩

theorem copyOf_eq_none : copyOf g disk wr blk = none ↔ wapblBlkhashGet wr.blkhash blk = none := by
  rw [copyOf, Option.map_eq_none_iff]

end Hash

section Loops
variable {g : Geometry} {disk : Disk} {wr : Replay} {blk : Int}

theorem wapblCircRead_length (len off : Nat) : (wapblCircRead g disk len off).1.length = len := by
  simp only [wapblCircRead]
  split
  · simp only [readAt, length_append, length_map, length_range]
    omega
  · simp [readAt]

theorem copyOf_length {cells : List Cell} (h : copyOf g disk wr blk = some cells) : cells.length = g.fsBlk := by
  obtain ⟨wb, -, rfl⟩ := Option.map_eq_some_iff.mp h
  exact wapblCircRead_length ..

theorem canReadLoop_eq (n : Nat) : canReadLoop wr blk n = 1 ↔ 0 < n ∧ wapblBlkhashGet wr.blkhash blk ≠ none := by
  induction n with
  | zero => simp [canReadLoop]
  | succ n ih =>
    unfold canReadLoop
    cases hget : wapblBlkhashGet wr.blkhash blk with
    | none => simpa [hget] using ih
    | some wb => simp

theorem readLoop_succ (n : Nat) (data : List Cell) : readLoop g disk wr (n + 1) data blk =
    (copyOf g disk wr blk).getD (data.take g.fsBlk) ++ readLoop g disk wr n (data.drop g.fsBlk) (blk + 1) := by
  simp only [readLoop, copyOf]
  cases wapblBlkhashGet wr.blkhash blk <;> rfl

theorem copyOf_getD_length {data : List Cell} (h : g.fsBlk ≤ data.length) : ((copyOf g disk wr blk).getD (data.take g.fsBlk)).length = g.fsBlk := by
  cases hcopy : copyOf g disk wr blk with
  | none =>
    rw [Option.getD_none, length_take]
    exact min_eq_left h
  | some cells => exact copyOf_length hcopy

theorem readLoop_length {n : Nat} {data : List Cell} (h : n * g.fsBlk ≤ data.length) : (readLoop g disk wr n data blk).length = data.length := by
  induction n generalizing data blk with
  | zero => rfl
  | succ n ih =>
    rw [succ_mul] at h
    rw [readLoop_succ, length_append, copyOf_getD_length (by omega), ih (by rw [length_drop]; omega), length_drop]
    omega

theorem readLoop_block {n i : Nat} {data : List Cell} (h : n * g.fsBlk ≤ data.length) (hi : i < n) :
    fsBlockAt g (readLoop g disk wr n data blk) i = (copyOf g disk wr (blk + i)).getD (fsBlockAt g data i) := by
  induction n generalizing data blk i with
  | zero => omega
  | succ n ih =>
    rw [succ_mul] at h
    have hlen := @copyOf_getD_length g disk wr blk data (by omega)
    rw [readLoop_succ, fsBlockAt]
    cases i with
    | zero =>
      rw [zero_mul, drop_zero, take_append_of_le_length hlen.ge, take_of_length_le hlen.le]
      simp [fsBlockAt]
    | succ i =>
      have hdrop (rest : List Cell) :
          ((copyOf g disk wr blk).getD (data.take g.fsBlk) ++ rest).drop ((i + 1) * g.fsBlk) = rest.drop (i * g.fsBlk) := by
        rw [succ_mul, add_comm, ← drop_drop, drop_left' hlen]
      have hnext := @ih (blk + 1) i (data.drop g.fsBlk) (by rw [length_drop]; omega) (by omega)
      rw [hdrop, ← fsBlockAt, hnext, fsBlockAt, fsBlockAt, drop_drop]
      rw [show blk + 1 + (i : Int) = blk + ((i + 1 : Nat) : Int) by omega,
        show g.fsBlk + i * g.fsBlk = (i + 1) * g.fsBlk by rw [succ_mul, add_comm]]

end Loops

/-! ### When a read gives what it is to give -/

section Reads
variable {g : Geometry} {disk : Disk} {wr : Replay} {blk : Int} {len : Nat}

section
variable (hn : HashNodup wr.blkhash)
include hn

theorem rangeLogged_iff : RangeLogged g disk wr blk len ↔ ∃ i < len / g.fsBlk, wapblBlkhashGet wr.blkhash (fsBlockAddr g blk i) ≠ none := by
  simp [RangeLogged, mem_replayWrite_iff hn, ← Option.ne_none_iff_exists', ne_eq, copyOf_eq_none]

/-- The first walk is right about a range whose first block is in the journal, and about
one that is not in the journal at all. -/
theorem canRead_iff (hlen : 0 < len / g.fsBlk) : (wapblReplayCanRead g wr blk len = 1 ↔ RangeLogged g disk wr blk len) ↔
      wapblBlkhashGet wr.blkhash blk ≠ none ∨ ∀ i < len / g.fsBlk, wapblBlkhashGet wr.blkhash (fsBlockAddr g blk i) = none := by
  have hfirst : fsBlockAddr g blk 0 = blk := by simp [fsBlockAddr]
  rw [rangeLogged_iff hn, wapblReplayCanRead, canReadLoop_eq]
  constructor
  · intro h
    by_cases hget : wapblBlkhashGet wr.blkhash blk = none
    · refine .inr fun i hi => ?_
      by_contra hne
      exact (h.mpr ⟨i, hi, hne⟩).2 hget
    · exact .inl hget
  · rintro (hget | hnone)
    · exact iff_of_true ⟨hlen, hget⟩ ⟨0, hlen, hfirst.symm ▸ hget⟩
    refine iff_of_false (fun h => h.2 (hfirst ▸ hnone 0 hlen)) ?_
    rintro ⟨i, hi, hne⟩
    exact hne (hnone i hi)

theorem readsThrough_iff {data data' : List Cell} : ReadsThrough g disk wr data blk len data' ↔ data'.length = data.length ∧
      ∀ i < len / g.fsBlk, fsBlockAt g data' i = (copyOf g disk wr (fsBlockAddr g blk i)).getD (fsBlockAt g data i) := by
  have hblock (i : Nat) : ((∀ cells, (fsBlockAddr g blk i, cells) ∈ wapblReplayWrite g disk wr →
      fsBlockAt g data' i = cells) ∧ ((∀ cells, (fsBlockAddr g blk i, cells) ∉ wapblReplayWrite g disk wr) →
        fsBlockAt g data' i = fsBlockAt g data i)) ↔
      fsBlockAt g data' i = (copyOf g disk wr (fsBlockAddr g blk i)).getD (fsBlockAt g data i) := by
    simp only [mem_replayWrite_iff hn]
    cases copyOf g disk wr (fsBlockAddr g blk i) <;> simp
  constructor
  · rintro ⟨hlen, hlogged, hothers⟩
    exact ⟨hlen, fun i hi => (hblock i).mp ⟨hlogged i hi, hothers i hi⟩⟩
  · rintro ⟨hlen, h⟩
    exact ⟨hlen, fun i hi => ((hblock i).mpr (h i hi)).1, fun i hi => ((hblock i).mpr (h i hi)).2⟩

end

theorem copies_eq {a b : Option (List Cell)} {n : Nat} (hpos : 0 < n)
    (h : ∀ c : Byte, a.getD (replicate n (.byte c)) = b.getD (replicate n (.byte c))) : a = b := by
  have habsurd (cells : List Cell) (hc : ∀ c : Byte, cells = replicate n (.byte c)) : False := by
    have := (hc 0).symm.trans (hc 1)
    simp [hpos.ne'] at this
  cases a with
  | none =>
    cases b with
    | none => rfl
    | some cells => exact (habsurd cells fun c => (h c).symm).elim
  | some cells =>
    cases b with
    | none => exact (habsurd cells h).elim
    | some cells' => exact congrArg some (h 0)

/-- The second walk is right about a range when each of its blocks has the same copy as
the device block it is taken for. -/
theorem read_iff (hn : HashNodup wr.blkhash) (hdvd : g.fsBlk ∣ len) : (∀ data : List Cell, data.length = len →
        ReadsThrough g disk wr data blk len (wapblReplayRead g disk wr data blk len)) ↔
      ∀ i < len / g.fsBlk, copyOf g disk wr (blk + i) = copyOf g disk wr (fsBlockAddr g blk i) := by
  have hmul : len / g.fsBlk * g.fsBlk = len := Nat.div_mul_cancel hdvd
  constructor
  · intro h i hi
    refine copies_eq (fsBlk_pos g) fun c => ?_
    have hread := ((readsThrough_iff hn).mp (h (replicate len (.byte c)) length_replicate)).2 i hi
    have hle : (i + 1) * g.fsBlk ≤ len := hmul ▸ Nat.mul_le_mul_right _ hi
    have hold : fsBlockAt g (replicate len (Cell.byte c)) i = replicate g.fsBlk (.byte c) := by
      rw [succ_mul] at hle
      rw [fsBlockAt, drop_replicate, take_replicate, min_eq_left (by omega)]
    rwa [wapblReplayRead, readLoop_block (by rw [length_replicate, hmul]) hi, hold] at hread
  · intro h data hdata
    refine (readsThrough_iff hn).mpr ⟨readLoop_length (by rw [hmul, hdata]), fun i hi => ?_⟩
    rw [wapblReplayRead, readLoop_block (by rw [hmul, hdata]) hi, h i hi]

/-- Reading a range through the journal gives the replayed content, and the test before
it says whether there is any, exactly when the first block of the range is in the journal
unless none is, and the block of the range that is `i`-th has the copy of the device
block `i` after its start. -/
theorem replay_reads_iff {head tail fuel : Nat} (hproc : wapblReplayProcess g disk head tail fuel = some (.ok wr))
    (hdvd : g.fsBlk ∣ len) (hlen : 0 < len) :
    ((wapblReplayCanRead g wr blk len = 1 ↔ RangeLogged g disk wr blk len) ∧ ∀ data : List Cell, data.length = len →
        ReadsThrough g disk wr data blk len (wapblReplayRead g disk wr data blk len)) ↔
      (wapblBlkhashGet wr.blkhash blk ≠ none ∨ ∀ i < len / g.fsBlk, wapblBlkhashGet wr.blkhash (fsBlockAddr g blk i) = none) ∧
      ∀ i < len / g.fsBlk, copyOf g disk wr (blk + i) = copyOf g disk wr (fsBlockAddr g blk i) := by
  have hn := replayProcess_hashNodup hproc
  have hpos : 0 < len / g.fsBlk := Nat.div_pos (le_of_dvd hlen hdvd) (fsBlk_pos g)
  rw [canRead_iff hn hpos, read_iff hn hdvd]

end Reads

/-! ### A journal with one buffer of two file system blocks

The log has blocks of 512 bytes, the file system blocks of 1024. The buffer is device
blocks 64 to 67: its file system blocks are found under 64 and 66. -/

def twoBlockGeometry : Geometry where
  circOff := 1024
  circSize := 4096
  off_pos := sample_off_pos
  size_pos := sample_size_pos
  logDevBshift := 9
  fsDevBshift := 10
  log_ge := sampleGeometry.log_ge
  fs_ge := by decide
  off_dvd := sampleGeometry.off_dvd
  size_dvd := ⟨8, rfl⟩

/-- The records of a transaction and between them the buffer, its bytes all 1. -/
def twoBlockDisk : Disk := fun x =>
  if x < 1536 then .record (.blocks 2560 [⟨64, 2048⟩]) (x - 1024)
  else if x < 3584 then .byte 1
  else .record (.inodes 512 true []) (x - 3584)

def twoBlockReplay : Replay := ⟨[⟨66, 2560⟩, ⟨64, 1536⟩], [], 4096, 3584⟩

theorem twoBlock_processed : wapblReplayProcess twoBlockGeometry twoBlockDisk 4096 1024 2 = some (.ok twoBlockReplay) := by
  have hok : (wapblReplayProcess twoBlockGeometry twoBlockDisk 4096 1024 2).bind Except.toOption = some twoBlockReplay := by
    set_option maxRecDepth 4000 in decide
  obtain ⟨r, hr, hwr⟩ := Option.bind_eq_some_iff.mp hok
  cases r with
  | error e => cases hwr
  | ok wr =>
    obtain rfl := Option.some.inj hwr
    exact hr

theorem replay_reads_iff_one_block : (wapblReplayCanRead twoBlockGeometry twoBlockReplay 66 1024 = 1 ↔
        RangeLogged twoBlockGeometry twoBlockDisk twoBlockReplay 66 1024) ∧
      ∀ data : List Cell, data.length = 1024 → ReadsThrough twoBlockGeometry twoBlockDisk twoBlockReplay data 66 1024
        (wapblReplayRead twoBlockGeometry twoBlockDisk twoBlockReplay data 66 1024) := by
  refine (replay_reads_iff twoBlock_processed (by decide) (by decide)).mpr ⟨.inl (by decide), fun i hi => ?_⟩
  obtain rfl : i = 0 := by
    have : 1024 / twoBlockGeometry.fsBlk = 1 := by decide
    omega
  rfl

/-- The second block of the range is in the journal and not read; a range that begins
before the buffer is not even taken to be in the journal. -/
theorem replay_reads_stale : wapblReplayProcess twoBlockGeometry twoBlockDisk 4096 1024 2 = some (.ok twoBlockReplay) ∧
      (wapblReplayWrite twoBlockGeometry twoBlockDisk twoBlockReplay).map Prod.fst = [66, 64] ∧
      wapblReplayCanRead twoBlockGeometry twoBlockReplay 62 4096 = 0 ∧
      fsBlockAddr twoBlockGeometry 62 1 = 64 ∧ fsBlockAddr twoBlockGeometry 64 1 = 66 ∧
      (66, replicate 1024 (Cell.byte 1)) ∈ wapblReplayWrite twoBlockGeometry twoBlockDisk twoBlockReplay ∧
      fsBlockAt twoBlockGeometry (wapblReplayRead twoBlockGeometry twoBlockDisk twoBlockReplay
        (replicate 2048 (.byte 0)) 64 2048) 1 = replicate 1024 (Cell.byte 0) := by
  all_goals set_option maxRecDepth 4000 in decide

end NetBSD.Kern.Wapbl
