import NetBSD.Dev.Aurateconv.Frames

/-! The conversion as a function on streams.

What a call does is what its rounds do. A round keeps the relation between what was fed and what has come out (`Tracks`), as long
as the samples lie in one piece each and the frames that are to be written have room (`Fits`). What has come out is then a prefix
of a stream that the input alone decides, however the calls and the rings cut it (`conversion_exact`).

The rings do not keep to this by themselves: `audio_init_ringbuffer` makes blocks of a power of two, whereas `audio_stream_ctor`
makes a ring of whole frames. A sample of 24 bits in front of the end of such a ring is written behind it
(`conversion_crosses_end`). -/
namespace NetBSD.Dev.Aurateconv
open List Option
open Lib
variable {P : Params} {fed drained bytes : List Byte} {c : Conv} {m n k : Nat}

/-- The frames that are written to `dst` up to `m` bytes have room, and their samples lie in one piece each. Bytes that are not a
whole frame in the ring are as many behind the limit. -/
def Room (P : Params) (m : Nat) (dst : Stream) : Prop :=
  m ≤ dst.used ∨ m + dst.used % P.frameDst ≤ dst.size ∧ dst.Straight (P.src.precision / 8) dst.inp (m + dst.used % P.frameDst - dst.used)

instance (dst : Stream) : Decidable (Room P m dst) := inferInstanceAs (Decidable (_ ∨ _))

/-- The samples that are in `src` lie in one piece each, and what is written fits. -/
def Fits (P : Params) (m : Nat) (src dst : Stream) : Prop :=
  src.Straight (P.src.precision / 8) src.outp src.used ∧ Room P m dst

instance (src dst : Stream) : Decidable (Fits P m src dst) := inferInstanceAs (Decidable (_ ∧ _))

/-- `n` frames of the input were read, and the ring holds the rest of it. -/
structure Reads (P : Params) (fed : List Byte) (src : Stream) (n : Nat) : Prop where
  ok : src.Ok
  consumed : n * P.frameSrc + src.used = fed.length
  rest : src.contents = fed.drop (n * P.frameSrc)

/-- After `n` frames of the input, `k` frames have come out. -/
structure Tracks (P : Params) (fed drained : List Byte) (c : Conv) (n k : Nat) : Prop where
  reads : Reads P fed c.src n
  ok : c.dst.Ok
  output : drained ++ c.dst.contents = outBytes P fed k
  phase : InPhase P fed c.phase n k

section
variable (hP : P.Supported)
include hP

theorem Params.Supported.interpolation_eq (maxUsed : Int) (c : Conv) : aurateconvFetchTo P maxUsed c =
      convert P.src.precision P.src.encoding P (upTo P c.dst maxUsed) P.frameSrc (interpolation P) c := by
  have hformat := hP.format
  simp only [mem_cons, not_mem_nil, or_false] at hformat
  obtain ⟨he, hp | hp | hp | hp⟩ | ⟨he, hp | hp | hp⟩ := hformat <;>
    simp only [aurateconvFetchTo, interpolation, he, hp] <;> rfl

theorem Params.Supported.bytes_pos : 0 < P.src.precision / 8 := by
  have hformat := hP.format
  simp only [mem_cons, not_mem_nil, or_false] at hformat
  obtain ⟨-, hp | hp | hp | hp⟩ | ⟨-, hp | hp | hp⟩ := hformat <;> rw [hp] <;> decide

theorem Params.Supported.frameDst_eq : P.frameDst = P.dst.channels * (P.src.precision / 8) := by
  rw [Params.frameDst, ← hP.precision, mul_comm]

theorem Params.Supported.frameSrc_pos : 0 < P.frameSrc := Nat.mul_pos hP.bytes_pos hP.srcChannels.1

theorem Params.Supported.frameDst_pos : 0 < P.frameDst := by
  rw [hP.frameDst_eq]
  exact Nat.mul_pos hP.dstChannels.1 hP.bytes_pos

end

theorem frameDst_dvd_upTo (P : Params) (dst : Stream) (maxUsed : Int) : P.frameDst ∣ upTo P dst maxUsed := by
  unfold upTo
  rcases le_total (dst.size / P.frameDst * P.frameDst)
    (if maxUsed.tdiv P.frameDst * P.frameDst ≤ 0 then P.frameDst else (maxUsed.tdiv P.frameDst * P.frameDst).toNat) with h | h
  · rw [min_eq_left h]
    exact Nat.dvd_mul_left _ _
  rw [min_eq_right h]
  split
  · exact Nat.dvd_refl _
  · next hpos =>
    apply Int.natCast_dvd_natCast.mp
    rw [Int.toNat_of_nonneg (Int.le_of_lt (Int.not_le.mp hpos))]
    exact Int.dvd_mul_left _ _

theorem Reads.next {src : Stream} (h : Reads P fed src n) (hstraight : src.Straight (P.src.precision / 8) src.outp src.used)
    (hused : P.frameSrc ≤ src.used) {src' : Stream} {v : List Value}
    (hread : readSn P.src.precision P.src.encoding P.src.channels src = (v, src')) :
    v = frameAt P fed n ∧ Reads P fed src' (n + 1) ∧ src'.Straight (P.src.precision / 8) src'.outp src'.used := by
  obtain ⟨hvalues, hdrops, hstraight'⟩ := Stream.readSn_eq P.src.encoding h.ok hstraight (frameSrc_eq ▸ hused)
  rw [hread] at hvalues hdrops hstraight'
  rw [← frameSrc_eq] at hdrops
  refine ⟨?_, ⟨hdrops.ok, ?_, ?_⟩, hstraight'⟩
  · rw [frameAt, ← h.rest]
    exact hvalues
  · have hconsumed := h.consumed
    rw [hdrops.used, Nat.succ_mul]
    omega
  · rw [hdrops.contents, h.rest, drop_drop, Nat.succ_mul]

theorem Room.write (hP : P.Supported) (hm : P.frameDst ∣ m) {dst : Stream} (h : Room P m dst) (hok : dst.Ok)
    (hused : dst.used < m) {samples : List Value} (hsamples : samples.length = P.dst.channels) :
    dst.Appends (writeSn P.src.precision P.src.encoding dst samples) (frameBytes P.src.precision P.src.encoding samples) ∧
      Room P m (writeSn P.src.precision P.src.encoding dst samples) := by
  obtain hdone | ⟨hroom, hstraight⟩ := h
  · exact absurd hused (Nat.not_lt.mpr hdone)
  have hlen : samples.length * (P.src.precision / 8) = P.frameDst := by rw [hsamples, hP.frameDst_eq]
  have hpos := hP.frameDst_pos
  -- the frames up to the limit end as far behind it as the bytes in the ring end in their frame
  have hnext : dst.used + P.frameDst ≤ m + dst.used % P.frameDst := by
    obtain ⟨q, rfl⟩ := hm
    have hparts := Nat.div_add_mod dst.used P.frameDst
    have hless : dst.used / P.frameDst < q := (Nat.div_lt_iff_lt_mul hpos).mpr (by rw [mul_comm]; exact hused)
    have hmul := Nat.mul_le_mul_left P.frameDst hless
    rw [Nat.mul_succ] at hmul
    omega
  obtain ⟨happends, hstraight'⟩ := Stream.writeSn_appends P.src.encoding samples hok hstraight (by omega)
    (by omega)
  have hnew := happends.used
  rw [length_frameBytes, hlen] at hnew
  rw [hlen] at hstraight'
  refine ⟨happends, .inr ?_⟩
  rw [hnew, happends.size, Nat.add_mod_right, ← Nat.sub_sub]
  exact ⟨hroom, hstraight'⟩

theorem output_write {s t : Stream} (hout : drained ++ s.contents = outBytes P fed k)
    (h : s.Appends t (frameBytes P.src.precision P.src.encoding (outFrame P fed k))) :
    drained ++ t.contents = outBytes P fed (k + 1) := by
  rw [h.contents, ← append_assoc, hout, outBytes_succ]

theorem downBody_tracks (hP : P.Supported) (hm : P.frameDst ∣ m) (hrate : P.dst.sampleRate ≤ P.src.sampleRate)
    (hfits : Fits P m c.src c.dst) (h : Tracks P fed drained c n k) (hcond : sameCond m P.frameSrc c = true) {c' : Conv}
    (hbody : downBody P.src.precision P.src.encoding P c = c') :
    Fits P m c'.src c'.dst ∧ ∃ k', Tracks P fed drained c' (n + 1) k' := by
  obtain ⟨hused, hsrc⟩ := of_decide_eq_true hcond
  have hphase := h.phase.read_down hP.dstRate.1 hrate
  rw [downBody] at hbody
  generalize hread : readSn P.src.precision P.src.encoding P.src.channels c.src = r at hbody
  obtain ⟨v, src⟩ := r
  obtain ⟨rfl, hreads, hstraight⟩ := h.reads.next hfits.1 hsrc hread
  dsimp only at hbody
  by_cases hdue : P.src.sampleRate ≤ c.phase.count + P.dst.sampleRate
  · rw [if_pos hdue] at hphase hbody
    subst hbody
    obtain ⟨happends, hroom⟩ := hfits.2.write hP hm h.ok hused (length_outFrame fed k)
    have hout := output_write h.output happends
    rw [hphase.2] at happends hroom hout
    exact ⟨⟨hstraight, hroom⟩, k + 1, hreads, happends.ok, hout, hphase.1⟩
  · rw [if_neg hdue] at hphase hbody
    subst hbody
    exact ⟨⟨hstraight, hfits.2⟩, k, hreads, h.ok, h.output, hphase⟩

theorem sameBody_eq (hrate : P.src.sampleRate = P.dst.sampleRate) (h : InPhase P fed c.phase n k) :
    sameBody P.src.precision P.src.encoding P c = downBody P.src.precision P.src.encoding P c := by
  have hcount : c.phase.count = 0 := by rw [(h.down (Nat.le_of_eq hrate.symm)).1, hrate, Nat.mul_mod_left]
  rw [downBody, hcount, hrate, Nat.zero_add]
  simp only [ge_iff_le, Nat.le_refl, if_true, Nat.sub_self]
  rw [← hcount]
  rfl

theorem upBody_tracks (hP : P.Supported) (hm : P.frameDst ∣ m) (hrate : P.src.sampleRate < P.dst.sampleRate)
    (hfits : Fits P m c.src c.dst) (h : Tracks P fed drained c n k) (hcond : upCond P m P.frameSrc c = true) {c' : Conv}
    (hbody : upBody P.src.precision P.src.encoding P (interpolation P) c = c') :
    Fits P m c'.src c'.dst ∧ ∃ n', Tracks P fed drained c' n' (k + 1) := by
  obtain ⟨hused, hdue⟩ := of_decide_eq_true hcond
  obtain ⟨hcount, hle, hnext, hprev, hfirst⟩ := h.phase.up hrate
  -- what is so once a frame that was due has been read
  obtain ⟨i, phase, src, hread, hreads, hstraight, hlt, hcount', hnext', hprev'⟩ : ∃ i phase src,
      upRead P.src.precision P.src.encoding P c = ⟨phase, src, c.dst⟩ ∧ Reads P fed src (i + 1) ∧
      src.Straight (P.src.precision / 8) src.outp src.used ∧ phase.count < P.dst.sampleRate ∧
      phase.count + i * P.dst.sampleRate = (k + 1) * P.src.sampleRate ∧ phase.next = before P fed (i + 1) ∧
      phase.prev = before P fed i := by
    unfold upRead
    by_cases hge : P.dst.sampleRate ≤ c.phase.count
    · rw [if_pos hge]
      obtain hsrc : P.frameSrc ≤ c.src.used := by omega
      generalize hread : readSn P.src.precision P.src.encoding P.src.channels c.src = r
      obtain ⟨v, src⟩ := r
      obtain ⟨rfl, hreads, hstraight⟩ := h.reads.next hfits.1 hsrc hread
      refine ⟨n, _, src, rfl, hreads, hstraight, ?_, ?_, rfl, hnext⟩
      · show c.phase.count - P.dst.sampleRate < _
        omega
      · show c.phase.count - P.dst.sampleRate + _ = _
        omega
    · rw [if_neg hge]
      obtain ⟨rfl, rfl⟩ | ⟨hn, -, -⟩ := hfirst
      · omega
      obtain ⟨i, rfl⟩ : ∃ i, n = i + 1 := ⟨n - 1, by omega⟩
      rw [Nat.succ_mul] at hcount
      exact ⟨i, c.phase, c.src, rfl, h.reads, hfits.1, by omega, by omega, hnext, hprev⟩
  obtain ⟨hphase, hframe⟩ := InPhase.write_up hrate hlt hcount' hnext' hprev'
  rw [upBody, hread] at hbody
  subst hbody
  obtain ⟨happends, hroom⟩ := hfits.2.write hP hm h.ok hused (length_outFrame fed k)
  have hout := output_write h.output happends
  rw [hframe] at happends hroom hout
  exact ⟨⟨hstraight, hroom⟩, i + 1, hreads, happends.ok, hout, hphase⟩

section Loops
variable {cond : Conv → Bool} {body : Conv → Conv} {I : Conv → Prop} {fuel : Nat}

theorem loop_keeps (hstep : ∀ c, I c → cond c = true → I (body c)) (h : I c) : I (loop cond body fuel c) := by
  induction fuel generalizing c with
  | zero => exact h
  | succ fuel ih =>
    rw [loop]
    split
    · next hcond => exact ih (hstep c h hcond)
    · exact h

theorem loop_stops (measure : Conv → Nat) (hstep : ∀ c, I c → cond c = true → I (body c) ∧ measure (body c) < measure c)
    (h : I c) (hfuel : measure c ≤ fuel) : cond (loop cond body fuel c) = false := by
  induction fuel generalizing c with
  | zero =>
    by_contra hcond
    have hless := (hstep c h (Bool.not_eq_false _ ▸ hcond)).2
    omega
  | succ fuel ih =>
    rw [loop]
    split
    · next hcond =>
      obtain ⟨hkeep, hless⟩ := hstep c h hcond
      exact ih hkeep (by omega)
    · next hcond => exact Bool.not_eq_true _ ▸ hcond

end Loops

theorem Tracks.length (hP : P.Supported) (h : Tracks P fed drained c n k) : drained.length + c.dst.used = k * P.frameDst := by
  have hlen := congrArg List.length h.output
  rw [length_append, Stream.length_contents, length_outBytes, ← hP.frameDst_eq] at hlen
  exact hlen

/-- A call is over when `dst` is full, or a frame is due that `src` does not have. -/
def Over (P : Params) (m : Nat) (c : Conv) : Prop :=
  m ≤ c.dst.used ∨ c.src.used < P.frameSrc ∧ (P.src.sampleRate < P.dst.sampleRate → P.dst.sampleRate ≤ c.phase.count)

theorem loop_down (hP : P.Supported) (hm : P.frameDst ∣ m) (hrate : P.dst.sampleRate ≤ P.src.sampleRate) {body : Conv → Conv}
    (hbody : ∀ c n k, Tracks P fed drained c n k → body c = downBody P.src.precision P.src.encoding P c)
    (hfits : Fits P m c.src c.dst) (h : Tracks P fed drained c n k) :
    (∃ n k, Tracks P fed drained (loop (sameCond m P.frameSrc) body c.src.used c) n k) ∧
      Over P m (loop (sameCond m P.frameSrc) body c.src.used c) := by
  have hround : ∀ c, (Fits P m c.src c.dst ∧ ∃ n k, Tracks P fed drained c n k) → sameCond m P.frameSrc c = true →
      (Fits P m (body c).src (body c).dst ∧ ∃ n k, Tracks P fed drained (body c) n k) ∧ (body c).src.used < c.src.used := by
    intro c hc hcond
    obtain ⟨hfits, n, k, h⟩ := hc
    rw [hbody c n k h]
    obtain ⟨hfits', k', h'⟩ := downBody_tracks hP hm hrate hfits h hcond rfl
    refine ⟨⟨hfits', n + 1, k', h'⟩, ?_⟩
    have hbefore := h.reads.consumed
    have hafter := h'.reads.consumed
    have hpos := hP.frameSrc_pos
    rw [Nat.succ_mul] at hafter
    omega
  have hstart : Fits P m c.src c.dst ∧ ∃ n k, Tracks P fed drained c n k := ⟨hfits, n, k, h⟩
  refine ⟨(loop_keeps (fun c hc hcond => (hround c hc hcond).1) hstart).2, ?_⟩
  have hstop := of_decide_eq_false (loop_stops (fun c => c.src.used) hround hstart (le_refl _))
  unfold Over
  omega

theorem loop_up (hP : P.Supported) (hm : P.frameDst ∣ m) (hrate : P.src.sampleRate < P.dst.sampleRate)
    (hfits : Fits P m c.src c.dst) (h : Tracks P fed drained c n k) :
    (∃ n k, Tracks P fed drained
        (loop (upCond P m P.frameSrc) (upBody P.src.precision P.src.encoding P (interpolation P)) m c) n k) ∧
      Over P m (loop (upCond P m P.frameSrc) (upBody P.src.precision P.src.encoding P (interpolation P)) m c) := by
  have hround : ∀ c, (Fits P m c.src c.dst ∧ ∃ n k, Tracks P fed drained c n k) → upCond P m P.frameSrc c = true →
      (Fits P m (upBody P.src.precision P.src.encoding P (interpolation P) c).src
          (upBody P.src.precision P.src.encoding P (interpolation P) c).dst ∧
        ∃ n k, Tracks P fed drained (upBody P.src.precision P.src.encoding P (interpolation P) c) n k) ∧
      m - (upBody P.src.precision P.src.encoding P (interpolation P) c).dst.used < m - c.dst.used := by
    intro c hc hcond
    obtain ⟨hfits, n, k, h⟩ := hc
    obtain ⟨hfits', n', h'⟩ := upBody_tracks hP hm hrate hfits h hcond rfl
    refine ⟨⟨hfits', n', k + 1, h'⟩, ?_⟩
    have hused := (of_decide_eq_true hcond).1
    have hbefore := h.length hP
    have hafter := h'.length hP
    have hpos := hP.frameDst_pos
    rw [Nat.succ_mul] at hafter
    omega
  have hstart : Fits P m c.src c.dst ∧ ∃ n k, Tracks P fed drained c n k := ⟨hfits, n, k, h⟩
  refine ⟨(loop_keeps (fun c hc hcond => (hround c hc hcond).1) hstart).2, ?_⟩
  have hstop := of_decide_eq_false (loop_stops (fun c => m - c.dst.used) hround hstart (Nat.sub_le _ _))
  unfold Over
  omega

theorem fetchTo_tracks (hP : P.Supported) {maxUsed : Int} (hfits : Fits P (upTo P c.dst maxUsed) c.src c.dst) (h : Tracks P fed drained c n k) :
    (∃ n k, Tracks P fed drained (aurateconvFetchTo P maxUsed c) n k) ∧ Over P (upTo P c.dst maxUsed) (aurateconvFetchTo P maxUsed c) := by
  have hm := frameDst_dvd_upTo P c.dst maxUsed
  rw [hP.interpolation_eq, convert]
  split
  · next hrate =>
    exact loop_down hP hm (le_of_eq hrate.symm) (fun c n k h => sameBody_eq hrate h.phase) hfits h
  split
  · next hrate => exact loop_down hP hm (le_of_lt hrate) (fun _ _ _ _ => rfl) hfits h
  · exact loop_up hP hm (by omega) hfits h

/-- The condition on a step: in a call that converts, the samples lie in one piece each, and what is written has room. -/
def InPieces (P : Params) (s : State) : Act → Prop
  | .fetch maxUsed bytes err => err = true ∨ Fits P (upTo P s.dst maxUsed) (s.src.fill bytes) s.dst
  | .drain _ => True

instance (s : State) (a : Act) : Decidable (InPieces P s a) :=
  match a with
  | .fetch _ _ _ => inferInstanceAs (Decidable (_ ∨ _))
  | .drain _ => inferInstanceAs (Decidable True)

theorem Tracks.feed (hP : P.Supported) (h : Tracks P fed drained c n k) (hroom : c.src.used + bytes.length ≤ c.src.size) :
    Tracks P (fed ++ bytes) drained { c with src := c.src.fill bytes } n k := by
  have hfill := h.reads.ok.fill hroom
  have hconsumed := h.reads.consumed
  refine ⟨⟨hfill.ok, ?_, ?_⟩, h.ok, ?_, h.phase.append (by omega)⟩
  · rw [hfill.used, length_append]
    omega
  · rw [hfill.contents, h.reads.rest, drop_append_of_le_length (by omega)]
  rw [h.output, outBytes_append]
  intro j hj
  exact le_trans (Nat.mul_le_mul_right _ (h.phase.needs_le hP.dstRate.1 hj)) (by omega)

theorem Tracks.next (hP : P.Supported) {s s' : State} {a : Act} (hok : InPieces P s a)
    (h : ∃ n k, Tracks P s.fed s.drained s.toConv n k) (hstep : next P s a = some s') :
    ∃ n k, Tracks P s'.fed s'.drained s'.toConv n k := by
  obtain ⟨n, k, h⟩ := h
  cases a with
  | fetch maxUsed bytes err =>
    rw [Aurateconv.next] at hstep
    split at hstep
    · next hroom =>
      obtain rfl := some.inj hstep
      have hfeed := h.feed hP hroom
      cases err with
      | true => exact ⟨n, k, hfeed⟩
      | false => exact (fetchTo_tracks hP (hok.resolve_left (by decide)) hfeed).1
    · cases hstep
  | drain l =>
    rw [Aurateconv.next] at hstep
    split at hstep
    · next hl =>
      obtain rfl := some.inj hstep
      have hdrain := h.ok.drain hl
      refine ⟨n, k, h.reads, hdrain.ok, ?_, h.phase⟩
      rw [hdrain.contents, append_assoc, take_append_drop]
      exact h.output
    · cases hstep

theorem reach_tracks (hP : P.Supported) {s : State} (hs : (rateSystem P).Reach (InPieces P) s) : ∃ n k, Tracks P s.fed s.drained s.toConv n k := by
  refine @System.Reach.invariant _ _ _ _ (fun s => ∃ n k, Tracks P s.fed s.drained s.toConv n k) ?_ ?_ _ hs
  · intro s hinit
    obtain ⟨srcSize, dstSize, srcBuf, dstBuf, hsrc, hdst, rfl⟩ := hinit
    exact ⟨0, 0, ⟨⟨hsrc, Nat.zero_le _, rfl⟩, by rw [Nat.zero_mul]; rfl, by rw [Nat.zero_mul]; rfl⟩, ⟨hdst, Nat.zero_le _, rfl⟩, rfl, .start⟩
  · intro s a s' h hok hstep
    exact Tracks.next hP hok h hstep

theorem weight_lt {count : Nat} (h : count < P.dst.sampleRate) : weight P count < 256 := by
  rw [weight, Nat.div_lt_iff_lt_mul (Nat.zero_lt_of_lt h), mul_comm 256]
  exact Nat.mul_lt_mul_of_pos_right h (by decide)

theorem upRead_count {bits : Nat} {en : Encoding} (hrate : P.src.sampleRate < P.dst.sampleRate)
    (h : c.phase.count ≤ P.dst.sampleRate + P.src.sampleRate) : (upRead bits en P c).phase.count < P.dst.sampleRate := by
  unfold upRead
  split
  · show c.phase.count - P.dst.sampleRate < _
    omega
  · next hge => exact Nat.not_le.mp hge

theorem upBody_count {bits : Nat} {en : Encoding} {interp : Nat → Value → Value → Value}
    (hrate : P.src.sampleRate < P.dst.sampleRate) (h : c.phase.count ≤ P.dst.sampleRate + P.src.sampleRate) :
    (upBody bits en P interp c).phase.count ≤ P.dst.sampleRate + P.src.sampleRate := by
  have hlt : (upRead bits en P c).phase.count < P.dst.sampleRate := upRead_count hrate h
  show (upRead bits en P c).phase.count + P.src.sampleRate ≤ _
  omega

/-- **The conversion is a function on streams with an exact rate.** In every run in which the samples lie in one piece each and
have room, the numbers of the frames that were consumed and produced are in the relation of the rates; two runs with the same
input give outputs one of which is a prefix of the other; and in each round of a call that interpolates, the weight is less than
256. -/
theorem conversion_exact (hP : P.Supported) {s : State} (hs : (rateSystem P).Reach (InPieces P) s) :
    (∃ n k, n * P.frameSrc + s.src.used = s.fed.length ∧ s.output.length = k * P.frameDst ∧ (P.src.sampleRate = P.dst.sampleRate → k = n) ∧
      (P.dst.sampleRate < P.src.sampleRate → k = n * P.dst.sampleRate / P.src.sampleRate) ∧
      (P.src.sampleRate < P.dst.sampleRate → 1 ≤ k → n = k * P.src.sampleRate / P.dst.sampleRate + 1)) ∧
    (∀ s', (rateSystem P).Reach (InPieces P) s' → s'.fed = s.fed → s.output <+: s'.output ∨ s'.output <+: s.output) ∧
    (P.src.sampleRate < P.dst.sampleRate → ∀ m bytes rounds, weight P (upRead P.src.precision P.src.encoding P
        (loop (upCond P m P.frameSrc) (upBody P.src.precision P.src.encoding P (interpolation P)) rounds
          { s.toConv with src := s.src.fill bytes })).phase.count < 256) := by
  obtain ⟨n, k, h⟩ := reach_tracks hP hs
  have hout : s.output = outBytes P s.fed k := h.output
  refine ⟨⟨n, k, h.reads.consumed, ?_, ?_, ?_, h.phase.rate_up⟩, ?_, ?_⟩
  · rw [hout, length_outBytes, hP.frameDst_eq]
  · intro hrate
    rw [(h.phase.down (le_of_eq hrate.symm)).2, hrate, Nat.mul_div_cancel n hP.dstRate.1]
  · intro hrate
    exact (h.phase.down (le_of_lt hrate)).2
  · intro s' hs' hfed
    obtain ⟨n', k', h'⟩ := reach_tracks hP hs'
    have hout' : s'.output = outBytes P s'.fed k' := h'.output
    rw [hout, hout', hfed]
    rcases le_total k k' with hle | hle
    · exact .inl (outBytes_mono hle)
    · exact .inr (outBytes_mono hle)
  intro hrate m bytes rounds
  apply weight_lt
  apply upRead_count hrate
  apply loop_keeps (I := fun c => c.phase.count ≤ P.dst.sampleRate + P.src.sampleRate)
  · intro c hc _
    exact upBody_count hrate hc
  · exact (h.phase.up hrate).2.1

/-- Little-endian samples without padding. -/
def pcm (rate bits channels : Nat) : AudioParams := ⟨rate, .slinearLE, bits, bits, channels⟩

def started (P : Params) (srcSize dstSize : Nat) : State :=
  ⟨⟨aurateconv P, emptyStream srcSize fun _ => 0, emptyStream dstSize fun _ => 0⟩, [], []⟩

theorem started_init {srcSize dstSize : Nat} (hsrc : 0 < srcSize) (hdst : 0 < dstSize) :
    (rateSystem P).init (started P srcSize dstSize) := ⟨srcSize, dstSize, _, _, hsrc, hdst, rfl⟩

/-- Two runs from 2 to 3 frames: with small rings that go round, and in one call. -/
theorem conversion_exact_runs : ∃ s s' : State, (rateSystem ⟨pcm 2 16 1, pcm 3 16 1⟩).Reach (InPieces ⟨pcm 2 16 1, pcm 3 16 1⟩) s ∧
      (rateSystem ⟨pcm 2 16 1, pcm 3 16 1⟩).Reach (InPieces ⟨pcm 2 16 1, pcm 3 16 1⟩) s' ∧
      s.output.length = 14 ∧ s'.output.length = 16 ∧ (s.output <+: s'.output ∨ s'.output <+: s.output) := by
  obtain ⟨s, hs, hobs⟩ := map_eq_some_iff.mp (show (System.run
    (System.guarded (InPieces ⟨pcm 2 16 1, pcm 3 16 1⟩) (next ⟨pcm 2 16 1, pcm 3 16 1⟩)) (started ⟨pcm 2 16 1, pcm 3 16 1⟩ 6 8)
      [.fetch 8 [1, 0, 4, 0, 9, 0] false, .drain 4, .fetch 2 [] true, .fetch 100 [16, 0, 25] false, .drain 3,
        .fetch 4 [0, 36, 0] false, .drain 1, .fetch 6 [] false]).map (fun s => (s.fed, s.output.length)) =
      some ([1, 0, 4, 0, 9, 0, 16, 0, 25, 0, 36, 0], 14) by decide)
  obtain ⟨s', hs', hobs'⟩ := map_eq_some_iff.mp (show (System.run
    (System.guarded (InPieces ⟨pcm 2 16 1, pcm 3 16 1⟩) (next ⟨pcm 2 16 1, pcm 3 16 1⟩)) (started ⟨pcm 2 16 1, pcm 3 16 1⟩ 32 32)
      [.fetch 32 [1, 0, 4, 0, 9, 0, 16, 0, 25, 0, 36, 0] false]).map (fun s => (s.fed, s.output.length)) =
      some ([1, 0, 4, 0, 9, 0, 16, 0, 25, 0, 36, 0], 16) by decide)
  have hreach := System.reach_run _ _ _ _ _ (started_init (P := ⟨pcm 2 16 1, pcm 3 16 1⟩) (by decide) (by decide)) hs
  have hreach' := System.reach_run _ _ _ _ _ (started_init (P := ⟨pcm 2 16 1, pcm 3 16 1⟩) (by decide) (by decide)) hs'
  obtain ⟨hfed, hlen⟩ := Prod.mk.inj hobs
  obtain ⟨hfed', hlen'⟩ := Prod.mk.inj hobs'
  have hP : Params.Supported ⟨pcm 2 16 1, pcm 3 16 1⟩ :=
    ⟨rfl, rfl, rfl, by decide, by decide, by decide, by decide, by decide, by decide⟩
  exact ⟨s, s', hreach, hreach', hlen, hlen', (conversion_exact hP hreach).2.1 s' hreach' (hfed'.trans hfed.symm)⟩

/-- The bytes `1`, `2` and so on. -/
def counted (start len : Nat) : List Byte := (List.range' start len).map (BitVec.ofNat 8)

/-- One channel of 24 bits to two, with a ring of 128 bytes and with one of 252: the sample that begins two bytes in front of the
end of the first comes out as another. -/
theorem conversion_crosses_end : ∃ s s' : State, Params.Supported ⟨pcm 48000 24 1, pcm 48000 24 2⟩ ∧
      (rateSystem ⟨pcm 48000 24 1, pcm 48000 24 2⟩).Reachable s ∧ (rateSystem ⟨pcm 48000 24 1, pcm 48000 24 2⟩).Reachable s' ∧
      s'.fed = s.fed ∧ ¬ (s.output <+: s'.output ∨ s'.output <+: s.output) := by
  obtain ⟨s, hs, hobs⟩ := map_eq_some_iff.mp (show (System.run
    (System.guarded (fun _ _ => True) (next ⟨pcm 48000 24 1, pcm 48000 24 2⟩))
      (started ⟨pcm 48000 24 1, pcm 48000 24 2⟩ 96 128)
      [.fetch 128 (counted 1 63) false, .drain 64, .fetch 128 (counted 64 33) false]).map
        (fun s => (s.fed, s.output.length, s.output[128]?)) = some (counted 1 96, 192, some 1) by
          set_option maxRecDepth 4000 in decide)
  obtain ⟨s', hs', hobs'⟩ := map_eq_some_iff.mp (show (System.run
    (System.guarded (fun _ _ => True) (next ⟨pcm 48000 24 1, pcm 48000 24 2⟩))
      (started ⟨pcm 48000 24 1, pcm 48000 24 2⟩ 96 252) [.fetch 252 (counted 1 96) false]).map
        (fun s => (s.fed, s.output.length, s.output[128]?)) = some (counted 1 96, 192, some 66) by
          set_option maxRecDepth 4000 in decide)
  have hreach := System.reach_run _ _ _ _ _ (started_init (P := ⟨pcm 48000 24 1, pcm 48000 24 2⟩) (by decide) (by decide)) hs
  have hreach' := System.reach_run _ _ _ _ _ (started_init (P := ⟨pcm 48000 24 1, pcm 48000 24 2⟩) (by decide) (by decide)) hs'
  obtain ⟨hfed, hobs⟩ := Prod.mk.inj hobs
  obtain ⟨hfed', hobs'⟩ := Prod.mk.inj hobs'
  obtain ⟨hlen, hbyte⟩ := Prod.mk.inj hobs
  obtain ⟨hlen', hbyte'⟩ := Prod.mk.inj hobs'
  have hne : s.output ≠ s'.output := by
    intro heq
    rw [heq, hbyte'] at hbyte
    exact absurd hbyte (by decide)
  refine ⟨s, s', ⟨rfl, rfl, rfl, by decide, by decide, by decide, by decide, by decide, by decide⟩, hreach, hreach',
    hfed'.trans hfed.symm, ?_⟩
  rintro (h | h)
  · exact hne (h.eq_of_length (hlen.trans hlen'.symm))
  · exact hne (h.eq_of_length (hlen'.trans hlen.symm)).symm

end NetBSD.Dev.Aurateconv
