import Xtd.Pipeline.Advance
import Xtd.Pipeline.Backpressure

/-!
# What a paused writer has left

The writer pauses for want of room, and stays paused for want of room if segments are not larger than the resume
threshold.  All segments are full then, and all but the first are unread, so the reader still has all but one of the
segments that fit below the pause threshold, and a byte.
-/

namespace Xtd

open Concurrency

variable {ρ π τ : Type} {o : ValidatedOptions} {p q : Pipe ρ π}

/-- The counts are right, only the first segment has been read from, and a pause is for want of room. -/
structure Backlog (o : ValidatedOptions) (p : Pipe ρ π) : Prop where
  accounted : Accounted o p
  unread : ∀ seg ∈ p.segments.tail, seg.readOffset = 0
  paused : p.writerPaused = true → p.shouldPauseWriter o = true

/-! ### Full segments -/

/-- Without room in the last segment there is none. -/
theorem full_of_hasWritableTail (h : Accounted o p) (ht : p.hasWritableTail = false) :
    ∀ seg ∈ p.segments, seg.full = true := by
  intro seg hseg
  unfold Pipe.hasWritableTail at ht
  split at ht
  · rename_i hnone
    rw [List.getLast?_eq_none_iff.1 hnone] at hseg
    simp at hseg
  · rename_i back hback
    obtain ⟨front, hf⟩ := List.getLast?_eq_some_iff.1 hback
    rw [hf, List.mem_append, List.mem_singleton] at hseg
    rcases hseg with hseg | rfl
    · exact h.full seg (by rw [hf]; simpa using hseg)
    · simpa using ht

theorem hasWritableTail_of_full (h : ∀ seg ∈ p.segments, seg.full = true) : p.hasWritableTail = false := by
  unfold Pipe.hasWritableTail
  split
  · rfl
  · rename_i back hback
    simp [h back (List.mem_of_getLast? hback)]

/-- A full row whose segments but the first are unread holds more than all but one of them. -/
theorem readableSize_of_full {n : Nat} {l : List (DataSegment π)} (hrow : Row n l)
    (hfull : ∀ seg ∈ l, seg.full = true) (hunread : ∀ seg ∈ l.tail, seg.readOffset = 0) :
    (l.length - 1) * n ≤ readableSize l ∧ (l ≠ [] → (l.length - 1) * n < readableSize l) := by
  induction l with
  | nil => simp
  | cons s l ih =>
    have hs := hrow.readable s (by simp)
    have hrest : readableSize l = l.length * n := by
      refine readableSize_eq_mul ?_
      intro seg hseg
      have h1 := of_decide_eq_true (hfull seg (by simp [hseg]))
      have h2 := hunread seg (by simpa using hseg)
      have h3 := hrow.capacity seg (by simp [hseg])
      have h4 := seg.readable_end
      have h5 := seg.written_le
      unfold DataSegment.writableSize at h1
      omega
    rw [readableSize_cons, List.length_cons, Nat.add_sub_cancel, hrest]
    omega

/-- What a paused writer has left: all but one of the segments that fit, and a byte. -/
theorem Backlog.lt_buffered (h : Backlog o p) (ho : o.bufferSize ≤ o.pauseWriterThreshold) (hp : p.writerPaused = true) :
    (o.pauseWriterThreshold / o.bufferSize - 1) * o.bufferSize < p.bufferedSize := by
  have hpause := h.paused hp
  unfold Pipe.shouldPauseWriter at hpause
  rw [Bool.and_eq_true, Bool.not_eq_true', decide_eq_true_eq, h.accounted.allocationCapacity_eq] at hpause
  obtain ⟨htail, hroom⟩ := hpause
  have hact := h.accounted.actual
  have hb := o.bufferSize_pos
  -- as many segments as fit
  have hcount : o.pauseWriterThreshold / o.bufferSize ≤ p.segments.length := by
    rw [← Nat.lt_succ_iff, Nat.div_lt_iff_lt_mul hb, Nat.succ_mul, ← hact]
    omega
  have hne : p.segments ≠ [] := by
    have hone : 1 ≤ o.pauseWriterThreshold / o.bufferSize := (Nat.le_div_iff_mul_le hb).2 (by omega)
    intro hnil
    rw [hnil] at hcount
    simp only [List.length_nil] at hcount
    omega
  have hlt := (readableSize_of_full h.accounted.row (full_of_hasWritableTail h.accounted htail) h.unread).2 hne
  rw [h.accounted.buffered]
  calc (o.pauseWriterThreshold / o.bufferSize - 1) * o.bufferSize
      ≤ (p.segments.length - 1) * o.bufferSize := Nat.mul_le_mul_right _ (by omega)
    _ < readableSize p.segments := hlt

/-! ### Every piece keeps the backlog -/

private theorem Consumed.rest {consumed : Nat} {segs left : List (DataSegment π)} (h : Consumed consumed segs left) :
    (∀ seg ∈ left.tail, seg ∈ segs.tail) ∧ ((∀ seg ∈ segs, seg.full = true) → ∀ seg ∈ left, seg.full = true) := by
  obtain ⟨popped, rest, rfl, -, ⟨rfl, rfl⟩ | ⟨head, head', tail, rfl, hread, rfl⟩⟩ := h
  · simp
  · have hfull : head'.full = head.full := by
      unfold DataSegment.advanceRead at hread
      split at hread <;> cases hread
      rfl
    constructor
    · intro seg hseg
      cases popped <;> simp_all
    · intro hall seg hseg
      rcases List.mem_cons.1 hseg with rfl | hseg
      · rw [hfull]
        exact hall head (by simp)
      · exact hall seg (by simp [hseg])

private theorem mem_tail_concat {α : Type} {l : List α} {a b : α} (h : b ∈ (l ++ [a]).tail) :
    b ∈ l.tail ∨ l ≠ [] ∧ b = a := by
  cases l <;> simp_all

section

variable [MemoryResource ρ π]

private theorem copyChunk_unread {data : List Byte} {capacity n : Nat} {oom : Bool}
    (hp : ∀ seg ∈ p.segments.tail, seg.readOffset = 0) (hq : p.copyChunk o data capacity oom = some (q, n)) :
    ∀ seg ∈ q.segments.tail, seg.readOffset = 0 := by
  unfold Pipe.copyChunk at hq
  dsimp only at hq
  split at hq
  · cases hq
  · rename_i p' hg
    simp only [Option.some.injEq, Prod.mk.injEq] at hq
    obtain ⟨rfl, -⟩ := hq
    have hp' : ∀ seg ∈ p'.segments.tail, seg.readOffset = 0 := by
      unfold Pipe.getSegment at hg
      split at hg
      · split at hg <;> cases hg
        intro seg hseg
        rcases mem_tail_concat hseg with hseg | ⟨-, rfl⟩
        · exact hp seg hseg
        · rfl
      · cases hg
        exact hp
    intro seg hseg
    change seg ∈ (p'.copyToBack _).1.segments.tail at hseg
    unfold Pipe.copyToBack at hseg
    split at hseg
    · exact hp' seg hseg
    · rename_i back hback
      obtain ⟨front, hf⟩ := List.getLast?_eq_some_iff.1 hback
      rw [hf] at hp'
      simp only [hf, List.dropLast_concat] at hseg
      rcases mem_tail_concat hseg with hseg | ⟨hne, rfl⟩
      · exact hp' seg (by cases front <;> simp_all)
      · exact hp' back (by cases front <;> simp_all)

/-- An `advance` leaves the writer paused only for want of room. -/
private theorem backlog_advance (ho : o.bufferSize ≤ o.resumeWriterThreshold) (h : Backlog o p) {consumed examined : Nat}
    {paused : Bool} (hc : consumed ≤ p.bufferedSize)
    (hq : q = { p.afterConsume o consumed with examinedSize := SizeT.sub examined consumed })
    (hpaused : paused = (p.writerPaused && !q.shouldResumeWriter o))
    (hA : Accounted o { q with writerPaused := paused, pendingReadSize := 0, hasPendingRead := false }) :
    Backlog o { q with writerPaused := paused, pendingReadSize := 0, hasPendingRead := false } := by
  obtain ⟨htail, hfull⟩ := (consumed_consume h.accounted hc).rest
  refine ⟨hA, ?_, ?_⟩
  · intro seg hseg
    subst hq
    exact h.unread seg (htail seg hseg)
  · intro hp
    rw [show paused = true from hp, eq_comm, Bool.and_eq_true, Bool.not_eq_true'] at hpaused
    have hold := h.paused hpaused.1
    have hact : o.pauseWriterThreshold ≤ q.actualBufferedSize := by
      have hres := hpaused.2
      unfold Pipe.shouldResumeWriter at hres
      simp only [Bool.and_eq_false_iff, decide_eq_false_iff_not] at hres
      omega
    unfold Pipe.shouldPauseWriter at hold ⊢
    rw [Bool.and_eq_true, Bool.not_eq_true'] at hold
    have hb := o.bufferSize_pos
    have hroom := hA.allocationCapacity_eq
    have hnone : ({ q with writerPaused := paused, pendingReadSize := 0, hasPendingRead := false } :
        Pipe ρ π).hasWritableTail = false := by
      subst hq
      exact hasWritableTail_of_full (hfull (full_of_hasWritableTail h.accounted hold.1))
    rw [Bool.and_eq_true, Bool.not_eq_true', decide_eq_true_eq, hroom]
    exact ⟨hnone, by dsimp only; omega⟩

private theorem backlog_piece (ho : o.bufferSize ≤ o.resumeWriterThreshold) (h : Backlog o p) {l : PipeLocal}
    (hl : l.Ordered) (hne : l ≠ .completeReader) (stop oom : Bool) :
    Backlog o ((pipeline ρ o).exec l p stop oom).shared := by
  have hA := accounted_piece h.accounted hl hne stop oom
  have hm := pipe_moves o l p stop oom
  generalize (pipeline ρ o).exec l p stop oom = r at hm hA ⊢
  cases hm with
  | pause hd hp hc ha => exact ⟨hA, h.unread, fun _ => shouldPause_of_capacity (p := { p with writerPaused := true }) ha⟩
  | chunk q n hd hp hc ha hq =>
    have hunread : ∀ seg ∈ q.segments.tail, seg.readOffset = 0 := copyChunk_unread h.unread hq
    refine ⟨hA, hunread, ?_⟩
    obtain ⟨r, segs, b, a, hframe⟩ := copyChunk_frame hq
    have hnot : q.writerPaused = false := by
      rw [hframe]
      exact hp
    intro hpaused
    simp only [hnot, Bool.false_or] at hpaused
    exact hpaused
  | readNow =>
    rcases readTail_cases p stop with ⟨-, he⟩ | ⟨-, he⟩ <;> rw [he] at hA ⊢ <;> exact ⟨hA, h.unread, h.paused⟩
  | readAfter =>
    rcases readTail_cases { p with readerWaiting := false } stop with ⟨-, he⟩ | ⟨-, he⟩ <;> rw [he] at hA ⊢ <;>
      exact ⟨hA, h.unread, h.paused⟩
  | advanceFault evs hr hp he hx =>
    have hpend := h.accounted.pending
    have hce : _ ≤ _ := hl
    exact absurd (consume_spec h.accounted (by omega)).1 hx
  | advance q paused hr hp he hx hq hpa =>
    have hpend := h.accounted.pending
    have hce : _ ≤ _ := hl
    exact backlog_advance ho h (by omega) hq hpa hA
  | completeWriter => exact ⟨hA, h.unread, fun h => by cases h⟩
  | completeReader => exact absurd rfl hne
  | _ => exact ⟨hA, h.unread, h.paused⟩

variable [DecidableEq τ] [Fintype τ]

theorem backlog_of_exec (ho : o.bufferSize ≤ o.resumeWriterThreshold) {m : ρ} {tr : List PipeEvent}
    {s : PipeState τ ρ π} (h : ((pipeline ρ o).machine τ).Exec Machine.Any (State.init (Pipe.new m)) tr s)
    (hr : s.shared.readerCompleted = false) : Backlog o s.shared := by
  have hB : s.shared.readerCompleted = true ∨ Backlog o s.shared := by
    refine (Monitor.shared_invariant (P := fun p => p.readerCompleted = true ∨ Backlog o p) (Q := PipeLocal.Ordered) h
      (.inr ⟨accounted_new o m, by simp [Pipe.new], fun h => by cases h⟩) (fun s t op l _ he => enter_ordered he) ?_).1
    intro l p stop oom hB hl
    refine ⟨?_, fun l' hl' => next_ordered hl'⟩
    rcases hB with hB | hB
    · exact .inl (readerCompleted_mono l stop oom hB)
    · by_cases hne : l = .completeReader
      · subst hne
        exact .inl rfl
      · exact .inr (backlog_piece ho hB hl hne stop oom)
  rcases hB with hB | hB
  · rw [hr] at hB
    cases hB
  · exact hB

end

end Xtd
