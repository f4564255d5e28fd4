import NetBSD.Dev.Aurateconv.Stream

/-! The output frames as a function of the input.

An output frame is numbered from the start of the stream, as an input frame is. The input frames that it is made of and the
weight with which they are mixed follow from its number and the rates (`outFrame`), and so does, from the number of the frames
that were consumed and produced, the phase of the filter (`InPhase`). -/
namespace NetBSD.Dev.Aurateconv
open List
variable (P : Params) (fed more : List Byte)

/-- The interpolation of the template that a call takes. -/
def interpolation : Nat → Value → Value → Value :=
  if P.src.precision = 32 then interpolate32 P.dst.validbits else interpolate

/-- The frame of the input with a number. -/
def frameAt (i : Nat) : List Value := frame P.src.precision P.src.encoding P.src.channels (fed.drop (i * P.frameSrc))

/-- The frame in front of it; in front of the first is silence. -/
def before : Nat → List Value
  | 0 => replicate P.src.channels 0
  | i + 1 => frameAt P fed i

/-- How many frames of the input an output frame needs. -/
def needs (k : Nat) : Nat :=
  if P.src.sampleRate < P.dst.sampleRate then (k + 1) * P.src.sampleRate / P.dst.sampleRate + 1
  else ((k + 1) * P.src.sampleRate - 1) / P.dst.sampleRate + 1

/-- The output frame with a number. -/
def outFrame (k : Nat) : List Value :=
  mix P.src.channels P.dst.channels
    (if P.src.sampleRate < P.dst.sampleRate then
      zipWith (interpolation P (weight P ((k + 1) * P.src.sampleRate % P.dst.sampleRate)))
        (before P fed (needs P k)) (before P fed (needs P k - 1))
    else before P fed (needs P k))

/-- The first `k` output frames. -/
def outBytes (k : Nat) : List Byte :=
  (List.range k).flatMap fun j => frameBytes P.src.precision P.src.encoding (outFrame P fed j)

/-- The phase of the filter after `n` frames that were consumed and `k` that were produced. -/
structure InPhase (phase : Phase) (n k : Nat) : Prop where
  down : P.dst.sampleRate ≤ P.src.sampleRate →
    phase.count = n * P.dst.sampleRate % P.src.sampleRate ∧ k = n * P.dst.sampleRate / P.src.sampleRate
  up : P.src.sampleRate < P.dst.sampleRate → phase.count + n * P.dst.sampleRate = (k + 1) * P.src.sampleRate + P.dst.sampleRate ∧
      phase.count ≤ P.dst.sampleRate + P.src.sampleRate ∧ phase.next = before P fed n ∧ phase.prev = before P fed (n - 1) ∧
      (n = 0 ∧ k = 0 ∨ 0 < n ∧ P.src.sampleRate ≤ phase.count ∧ phase.count < P.dst.sampleRate + P.src.sampleRate)

variable {P fed more} {c : Conv} {phase : Phase} {i j k n : Nat}

theorem length_mix {src dst : Nat} {v : List Value} (h : v.length = src) : (mix src dst v).length = dst := by
  unfold mix
  split
  · next hmono => rw [hmono.2, length_singleton]
  split
  · next hle =>
    rw [take_of_length_le (le_of_eq h)]
    split <;> simp only [length_append, length_replicate, length_singleton] <;> omega
  · rw [length_take]
    omega

theorem length_before : (before P fed n).length = P.src.channels := by
  cases n with
  | zero => exact length_replicate
  | succ i => exact length_frame

theorem length_outFrame (fed : List Byte) (k : Nat) : (outFrame P fed k).length = P.dst.channels := by
  apply length_mix
  split
  · rw [length_zipWith, length_before, length_before, Nat.min_self]
  · exact length_before

theorem outBytes_succ : outBytes P fed (k + 1) = outBytes P fed k ++ frameBytes P.src.precision P.src.encoding (outFrame P fed k) := by
  rw [outBytes, range_succ, flatMap_append, flatMap_singleton]
  rfl

theorem length_outBytes : (outBytes P fed k).length = k * (P.dst.channels * (P.src.precision / 8)) := by
  induction k with
  | zero => rw [zero_mul]; rfl
  | succ k ih => rw [outBytes_succ, length_append, ih, length_frameBytes, length_outFrame fed k, Nat.succ_mul]

theorem frameSrc_eq : P.frameSrc = P.src.channels * (P.src.precision / 8) := mul_comm _ _

theorem frameAt_append (h : (i + 1) * P.frameSrc ≤ fed.length) : frameAt P (fed ++ more) i = frameAt P fed i := by
  rw [Nat.succ_mul] at h
  rw [frameAt, drop_append_of_le_length (by omega), frame_append]
  · rfl
  · rw [length_drop, ← frameSrc_eq]
    omega

theorem before_append (h : n * P.frameSrc ≤ fed.length) : before P (fed ++ more) n = before P fed n := by
  cases n with
  | zero => rfl
  | succ i => exact frameAt_append h

theorem outFrame_append (h : needs P k * P.frameSrc ≤ fed.length) : outFrame P (fed ++ more) k = outFrame P fed k := by
  have hless : (needs P k - 1) * P.frameSrc ≤ fed.length := le_trans (Nat.mul_le_mul_right _ (Nat.sub_le _ _)) h
  rw [outFrame, outFrame, before_append h, before_append hless]

theorem outBytes_append (h : ∀ j < k, needs P j * P.frameSrc ≤ fed.length) : outBytes P (fed ++ more) k = outBytes P fed k := by
  induction k with
  | zero => rfl
  | succ k ih =>
    rw [outBytes_succ, outBytes_succ, ih fun j hj => h j (Nat.lt_succ_of_lt hj), outFrame_append (h k (Nat.lt_succ_self k))]

theorem outBytes_mono (h : j ≤ k) : outBytes P fed j <+: outBytes P fed k := by
  induction h with
  | refl => exact prefix_refl _
  | step _ ih =>
    rw [outBytes_succ]
    exact ih.trans (prefix_append _ _)

theorem InPhase.start : InPhase P fed (aurateconv P) 0 0 where
  down h := by
    rw [zero_mul, Nat.zero_div]
    exact ⟨if_neg (Nat.not_lt.mpr h), rfl⟩
  up h := by
    have hcount : (aurateconv P).count = P.dst.sampleRate + P.src.sampleRate := if_pos h
    rw [hcount]
    exact ⟨by omega, le_refl _, rfl, rfl, .inl ⟨rfl, rfl⟩⟩

section
variable (h : InPhase P fed phase n k)
include h

theorem InPhase.append (hn : n * P.frameSrc ≤ fed.length) : InPhase P (fed ++ more) phase n k where
  down := h.down
  up hrate := by
    obtain ⟨hcount, hle, hnext, hprev, hfirst⟩ := h.up hrate
    rw [before_append hn, before_append (le_trans (Nat.mul_le_mul_right _ (Nat.sub_le _ _)) hn)]
    exact ⟨hcount, hle, hnext, hprev, hfirst⟩

theorem InPhase.rate_up (hrate : P.src.sampleRate < P.dst.sampleRate) (hk : 0 < k) : n = k * P.src.sampleRate / P.dst.sampleRate + 1 := by
  obtain ⟨hcount, -, -, -, ⟨-, h0⟩ | ⟨hn, hge, hlt⟩⟩ := h.up hrate
  · omega
  obtain ⟨i, rfl⟩ : ∃ i, n = i + 1 := ⟨n - 1, by omega⟩
  have hdiv := (Nat.div_mod_unique (a := k * P.src.sampleRate) (d := i) (c := phase.count - P.src.sampleRate)
    (Nat.zero_lt_of_lt hrate)).mpr ⟨by rw [Nat.succ_mul, Nat.succ_mul] at hcount; rw [mul_comm P.dst.sampleRate]; omega,
      by omega⟩
  rw [hdiv.1]

theorem InPhase.needs_le (hto : 0 < P.dst.sampleRate) (hj : j < k) : needs P j ≤ n := by
  unfold needs
  split
  · next hrate =>
    rw [h.rate_up hrate (Nat.zero_lt_of_lt hj)]
    exact Nat.succ_le_succ (Nat.div_le_div_right (Nat.mul_le_mul_right _ hj))
  · next hrate =>
    have hk := (h.down (Nat.not_lt.mp hrate)).2
    have hpos : 0 < (j + 1) * P.src.sampleRate := Nat.mul_pos (Nat.succ_pos j) (by omega)
    have hle : (j + 1) * P.src.sampleRate ≤ n * P.dst.sampleRate :=
      le_trans (Nat.mul_le_mul_right _ hj) (hk ▸ Nat.div_mul_le_self _ _)
    apply (Nat.div_lt_iff_lt_mul hto).mpr
    omega

/-- A frame that is read on the way to fewer frames: with it an output frame is complete, or not. -/
theorem InPhase.read_down (hto : 0 < P.dst.sampleRate) (hrate : P.dst.sampleRate ≤ P.src.sampleRate) :
    if P.src.sampleRate ≤ phase.count + P.dst.sampleRate then
      InPhase P fed { phase with count := phase.count + P.dst.sampleRate - P.src.sampleRate } (n + 1) (k + 1) ∧
        outFrame P fed k = mix P.src.channels P.dst.channels (frameAt P fed n)
    else InPhase P fed { phase with count := phase.count + P.dst.sampleRate } (n + 1) k := by
  obtain ⟨hcount, hk⟩ := h.down hrate
  have hfrom : 0 < P.src.sampleRate := lt_of_lt_of_le hto hrate
  have hparts := Nat.div_add_mod (n * P.dst.sampleRate) P.src.sampleRate
  have hlt := Nat.mod_lt (n * P.dst.sampleRate) hfrom
  rw [← hk] at hparts
  split
  · next hdue =>
    have hnew := (Nat.div_mod_unique (a := (n + 1) * P.dst.sampleRate) (d := k + 1)
      (c := phase.count + P.dst.sampleRate - P.src.sampleRate) hfrom).mpr
      ⟨by rw [Nat.succ_mul, Nat.mul_succ]; omega, by omega⟩
    refine ⟨⟨fun _ => ⟨hnew.2.symm, hnew.1.symm⟩, fun hup => absurd hrate (Nat.not_le.mpr hup)⟩, ?_⟩
    have hneeds : needs P k = n + 1 := by
      rw [needs, if_neg (Nat.not_lt.mpr hrate)]
      congr 1
      rw [Nat.div_eq_iff hto, Nat.succ_mul, mul_comm k]
      omega
    rw [outFrame, if_neg (Nat.not_lt.mpr hrate), hneeds]
    rfl
  · next hdue =>
    have hnew := (Nat.div_mod_unique (a := (n + 1) * P.dst.sampleRate) (d := k)
      (c := phase.count + P.dst.sampleRate) hfrom).mpr ⟨by rw [Nat.succ_mul]; omega, by omega⟩
    exact ⟨fun _ => ⟨hnew.2.symm, hnew.1.symm⟩, fun hup => absurd hrate (Nat.not_le.mpr hup)⟩

end

theorem InPhase.write_up (hrate : P.src.sampleRate < P.dst.sampleRate) (hlt : phase.count < P.dst.sampleRate)
    (hcount : phase.count + n * P.dst.sampleRate = (k + 1) * P.src.sampleRate) (hnext : phase.next = before P fed (n + 1))
    (hprev : phase.prev = before P fed n) :
    InPhase P fed { phase with count := phase.count + P.src.sampleRate } (n + 1) (k + 1) ∧ outFrame P fed k = mix P.src.channels P.dst.channels
        (zipWith (interpolation P (weight P phase.count)) phase.next phase.prev) := by
  have hnew := (Nat.div_mod_unique (a := (k + 1) * P.src.sampleRate) (d := n) (c := phase.count)
    (Nat.zero_lt_of_lt hrate)).mpr ⟨by rw [mul_comm P.dst.sampleRate]; exact hcount, hlt⟩
  refine ⟨⟨fun hdown => absurd hrate (Nat.not_lt.mpr hdown), fun _ => ⟨?_, ?_, hnext, hprev, .inr ⟨Nat.succ_pos n, ?_, ?_⟩⟩⟩, ?_⟩
  · show phase.count + P.src.sampleRate + (n + 1) * P.dst.sampleRate = (k + 1 + 1) * P.src.sampleRate + P.dst.sampleRate
    rw [Nat.succ_mul n, Nat.succ_mul (k + 1)]
    omega
  · show phase.count + P.src.sampleRate ≤ _
    omega
  · show _ ≤ phase.count + P.src.sampleRate
    omega
  · show phase.count + P.src.sampleRate < _
    omega
  · rw [outFrame, if_pos hrate, needs, if_pos hrate, hnew.1, hnew.2, hnext, hprev]
    rfl

end NetBSD.Dev.Aurateconv
