import Xtd.Pipeline.Segment

/-!
# Pipeline options

`pipe_options` and `validate_options` (`pipeline_impl.h`).  The options are machine words; the validated options keep
their values together with what the validation has checked, so that options that were not accepted cannot be built.
-/

namespace Xtd

/-- `pipe_options`; the allocator kind is left out, the pipeline is modelled for every memory resource. -/
structure PipeOptions where
  bufferSize : UInt64 := 1024 * 4
  resumeWriterThreshold : UInt64 := 1024 * 32
  pauseWriterThreshold : UInt64 := 1024 * 128

structure ValidatedOptions where
  bufferSize : Nat
  pauseWriterThreshold : Nat
  resumeWriterThreshold : Nat
  maxPooledSegments : Nat
  bufferSize_pos : 0 < bufferSize
  bufferSize_lt : bufferSize < SizeT.modulus
  pause_pos : 0 < pauseWriterThreshold
  pause_lt : pauseWriterThreshold < SizeT.modulus
  resume_le : resumeWriterThreshold ≤ pauseWriterThreshold
  maxPooledSegments_eq : maxPooledSegments =
    pauseWriterThreshold / bufferSize + (if pauseWriterThreshold % bufferSize ≠ 0 then 1 else 0)

def validateOptions (options : PipeOptions) : Except Exn ValidatedOptions :=
  if h₁ : options.bufferSize.toNat = 0 then .error (.invalidArgument "buffer_size must be > 0")
  else if h₂ : options.pauseWriterThreshold.toNat = 0 then
    .error (.invalidArgument "pause_writer_threshold must be > 0")
  else if h₃ : options.resumeWriterThreshold.toNat > options.pauseWriterThreshold.toNat then
    .error (.invalidArgument "resume_writer_threshold must be <= pause_writer_threshold")
  else .ok {
    bufferSize := options.bufferSize.toNat
    pauseWriterThreshold := options.pauseWriterThreshold.toNat
    resumeWriterThreshold := options.resumeWriterThreshold.toNat
    maxPooledSegments := options.pauseWriterThreshold.toNat / options.bufferSize.toNat +
      (if options.pauseWriterThreshold.toNat % options.bufferSize.toNat ≠ 0 then 1 else 0)
    bufferSize_pos := Nat.pos_of_ne_zero h₁
    bufferSize_lt := options.bufferSize.toNat_lt
    pause_pos := Nat.pos_of_ne_zero h₂
    pause_lt := options.pauseWriterThreshold.toNat_lt
    resume_le := Nat.le_of_not_lt h₃
    maxPooledSegments_eq := rfl }

/-- Two-byte segments, pausing at five and resuming at three bytes. -/
def ValidatedOptions.small : ValidatedOptions :=
  ⟨2, 5, 3, 3, by decide, by decide, by decide, by decide, by decide, rfl⟩

namespace ValidatedOptions

theorem div_le_maxPooledSegments (o : ValidatedOptions) :
    o.pauseWriterThreshold / o.bufferSize ≤ o.maxPooledSegments := by
  rw [o.maxPooledSegments_eq]
  exact Nat.le_add_right ..

theorem maxPooledSegments_pos (o : ValidatedOptions) : 0 < o.maxPooledSegments := by
  have h1 := o.pause_pos
  have h2 := Nat.div_add_mod o.pauseWriterThreshold o.bufferSize
  rw [o.maxPooledSegments_eq]
  refine Nat.pos_of_ne_zero ?_
  intro h
  obtain ⟨h3, h4⟩ := Nat.add_eq_zero_iff.1 h
  rw [h3] at h2
  split at h4
  · cases h4
  · omega

theorem maxPooledSegments_le (o : ValidatedOptions) : o.maxPooledSegments ≤ o.pauseWriterThreshold := by
  have h1 := Nat.div_add_mod o.pauseWriterThreshold o.bufferSize
  have h2 := Nat.le_mul_of_pos_left (o.pauseWriterThreshold / o.bufferSize) o.bufferSize_pos
  rw [o.maxPooledSegments_eq]
  split <;> omega

end ValidatedOptions

/-- The validated options are exactly what `validateOptions` can return. -/
theorem exists_validateOptions (v : ValidatedOptions) : ∃ options, validateOptions options = .ok v := by
  have hb := v.bufferSize_pos
  have hp := v.pause_pos
  have hr := v.resume_le
  have e1 : (UInt64.ofNat v.bufferSize).toNat = v.bufferSize := UInt64.toNat_ofNat_of_lt' v.bufferSize_lt
  have e2 : (UInt64.ofNat v.pauseWriterThreshold).toNat = v.pauseWriterThreshold :=
    UInt64.toNat_ofNat_of_lt' v.pause_lt
  have e3 : (UInt64.ofNat v.resumeWriterThreshold).toNat = v.resumeWriterThreshold :=
    UInt64.toNat_ofNat_of_lt' (Nat.lt_of_le_of_lt hr v.pause_lt)
  refine ⟨⟨.ofNat v.bufferSize, .ofNat v.resumeWriterThreshold, .ofNat v.pauseWriterThreshold⟩, ?_⟩
  unfold validateOptions
  rw [dif_neg (by simp only [e1]; omega), dif_neg (by simp only [e2]; omega),
    dif_neg (by simp only [e2, e3]; omega)]
  obtain ⟨b, p, r, m, _, _, _, _, _, rfl⟩ := v
  simp only at e1 e2 e3
  simp only [e1, e2, e3]

end Xtd
