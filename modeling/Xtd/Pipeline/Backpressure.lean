import Xtd.Pipeline.Accounting

/-!
# Pausing and resuming the writer

The writer pauses when no further segment fits below the pause threshold, and `advance` resumes it when
`should_resume_writer` holds.  That test compares the *segment size* with the resume threshold.  If segments are not
larger than the resume threshold, a paused writer always leaves bytes for the reader; otherwise a paused writer is never
resumed, and the reader can consume everything and leave both sides waiting.
-/

namespace Xtd

open Concurrency

variable {ρ π τ : Type} [MemoryResource ρ π] [DecidableEq τ] [Fintype τ] {o : ValidatedOptions} {p : Pipe ρ π}

/-! ### Segments not larger than the resume threshold -/

/-- The counts are right and a paused writer has left a segment behind; nothing is said once the reader is
completed. -/
def PausedHolds (o : ValidatedOptions) (p : Pipe ρ π) : Prop :=
  p.readerCompleted = true ∨ (Accounted o p ∧ (p.writerPaused = true → p.segments ≠ []))

omit [MemoryResource ρ π] in
private theorem capacity_of_empty (ho : o.bufferSize ≤ o.resumeWriterThreshold) (h : Accounted o p)
    (he : p.segments = []) : p.writerAvailableCapacity o = o.bufferSize := by
  have hr := o.resume_le
  have ha := h.actual
  have ht : p.hasWritableTail = false := by simp [Pipe.hasWritableTail, he]
  simp only [he, List.length_nil, Nat.zero_mul] at ha
  unfold Pipe.writerAvailableCapacity
  rw [ht, h.allocationCapacity_eq, ha]
  simp only [Bool.false_eq_true, ↓reduceIte, ge_iff_le]
  rw [if_pos (by omega)]

omit [MemoryResource ρ π] in
/-- While segments are not larger than the resume threshold, `advance` leaves the writer paused only if the allocated
segments still reach the pause threshold. -/
private theorem segments_of_not_resume (ho : o.bufferSize ≤ o.resumeWriterThreshold) (h : Accounted o p)
    (hr : p.shouldResumeWriter o = false) : p.segments ≠ [] := by
  intro he
  have ha := h.actual
  have hp := o.pause_pos
  simp only [he, List.length_nil, Nat.zero_mul] at ha
  unfold Pipe.shouldResumeWriter at hr
  rw [ha] at hr
  simp only [Bool.and_eq_false_iff, decide_eq_false_iff_not] at hr
  omega

private theorem pausedHolds_piece (ho : o.bufferSize ≤ o.resumeWriterThreshold) (h : PausedHolds o p) {l : PipeLocal}
    (hl : l.Ordered) (stop oom : Bool) : PausedHolds o ((pipeline ρ o).exec l p stop oom).shared := by
  rcases h with h | ⟨hA, hseg⟩
  · exact .inl (readerCompleted_mono l stop oom h)
  by_cases hne : l = .completeReader
  · subst hne; exact .inl rfl
  have hA' := accounted_piece hA hl hne stop oom
  refine .inr ⟨hA', ?_⟩
  have hm := pipe_moves o l p stop oom
  generalize (pipeline ρ o).exec l p stop oom = r at hm hA' ⊢
  cases hm with
  | pause hd hp hc ha =>
    intro _ he
    have := capacity_of_empty ho hA he
    have := o.bufferSize_pos
    omega
  | chunk q n hd hp hc ha hq => exact fun _ => (copyChunk_spec hA hd ha hq).2.2.2.2
  | readNow =>
    rcases readTail_cases p stop with ⟨-, he⟩ | ⟨-, he⟩ <;> rw [he] <;> exact hseg
  | readAfter =>
    rcases readTail_cases { p with readerWaiting := false } stop with ⟨-, he⟩ | ⟨-, he⟩ <;> rw [he] <;> exact hseg
  | advanceFault evs hr hp he hx =>
    have := hA.pending
    have hce : _ ≤ _ := hl
    exact absurd (consume_spec hA (by omega)).1 hx
  | advance q paused hr hp he hx hq hpa =>
    intro hpaused
    simp only at hpaused
    rw [hpa, Bool.and_eq_true, Bool.not_eq_true'] at hpaused
    exact segments_of_not_resume ho hA' hpaused.2
  | completeWriter => exact fun h => nomatch h
  | completeReader => exact absurd rfl hne
  | _ => exact hseg

/-- With segments not larger than the resume threshold, the reader finds bytes whenever the writer is paused. -/
theorem buffered_of_paused (ho : o.bufferSize ≤ o.resumeWriterThreshold) {r : ρ} {tr : List PipeEvent}
    {s : PipeState τ ρ π} (h : ((pipeline ρ o).machine τ).Exec Machine.Any (State.init (Pipe.new r)) tr s)
    (hrc : s.shared.readerCompleted = false) (hp : s.shared.writerPaused = true) : 0 < s.shared.bufferedSize := by
  have hP : PausedHolds o s.shared := by
    refine (Monitor.shared_invariant (P := PausedHolds o) (Q := PipeLocal.Ordered) h
      (.inr ⟨accounted_new o r, fun h => nomatch h⟩) (fun s t op l _ he => enter_ordered he) ?_).1
    intro l p stop oom hp hl
    exact ⟨pausedHolds_piece ho hp hl stop oom, fun l' hl' => next_ordered hl'⟩
  rcases hP with hP | ⟨hA, hseg⟩
  · rw [hrc] at hP; cases hP
  · exact hA.buffered_pos (hseg hp)

/-! ### Segments larger than the resume threshold -/

/-- Nobody has read yet and nobody is completed. -/
structure Fresh (o : ValidatedOptions) (p : Pipe ρ π) : Prop where
  accounted : Accounted o p
  waiting : p.readerWaiting = false
  pending : p.hasPendingRead = false
  writer : p.writerCompleted = false
  reader : p.readerCompleted = false
  examined : p.examinedSize = 0

omit [MemoryResource ρ π] in
private theorem Fresh.not_completed (h : Fresh o p) : p.isAnyCompleted = false := by
  simp [Pipe.isAnyCompleted, h.writer, h.reader]

/-- Without a failing allocation there is room for a chunk. -/
theorem copyChunk_isSome (p : Pipe ρ π) (data : List Byte) (capacity : Nat) :
    ∃ q n, p.copyChunk o data capacity false = some (q, n) := by
  obtain ⟨⟨b, r⟩, hr⟩ := Option.isSome_iff_exists.1 (MemoryResource.allocate_isSome p.allocator o.bufferSize)
  unfold Pipe.copyChunk Pipe.getSegment
  split
  · rename_i h
    split at h
    · rw [hr] at h; cases h
    · cases h
  · exact ⟨_, _, rfl⟩

omit [MemoryResource ρ π] in
/-- A pipeline filled up to the pause threshold has no room in its last segment and none for another one. -/
private theorem shouldPause_of_filled (h : Accounted o p) (hf : o.pauseWriterThreshold ≤ p.bufferedSize) :
    p.shouldPauseWriter o = true := by
  have h1 := h.buffered_le
  have h2 := h.actual_le
  have hb := o.bufferSize_pos
  have htail : p.hasWritableTail = false := by
    unfold Pipe.hasWritableTail
    split
    · rfl
    · rename_i back hback
      obtain ⟨front, hfront⟩ := List.getLast?_eq_some_iff.1 hback
      have h3 := readableSize_le_mul (l := front) (fun s hs => h.capacity s (by simp [hfront, hs]))
      have h4 := h.buffered
      have h5 := h.actual
      have h6 := h.capacity back (by simp [hfront])
      have h7 := back.readable_end
      have h8 := back.written_le
      rw [hfront] at h4 h5
      simp only [readableSize_append, readableSize_cons, readableSize_nil, List.length_append, List.length_singleton,
        Nat.succ_mul] at h4 h5
      have hw : back.writableSize = 0 := by unfold DataSegment.writableSize; omega
      simp [DataSegment.full, hw]
  unfold Pipe.shouldPauseWriter
  rw [htail, h.allocationCapacity_eq]
  simp only [Bool.not_false, Bool.true_and, decide_eq_true_eq]
  omega

/-- Thread `w` is in the chunk loop of a write and nobody else is inside. -/
structure Filling (o : ValidatedOptions) (w : τ) (data : List Byte) (s : PipeState τ ρ π) : Prop where
  phase : ∃ call copied, s.phase w = .locked (.writeLoop call data copied false none)
  others : ∀ u, u ≠ w → s.phase u = .outside
  fresh : Fresh o s.shared
  paused : data = [] → s.shared.writerPaused = true

/-- The writer is paused and nobody else is inside. -/
structure Stuck (o : ValidatedOptions) (w : τ) (s : PipeState τ ρ π) : Prop where
  lock : s.lock = none
  others : ∀ u, u ≠ w → s.phase u = .outside
  fresh : Fresh o s.shared
  paused : s.shared.writerPaused = true

/-- Nothing was consumed from the segments, and a pause is for want of room. -/
structure Unread (o : ValidatedOptions) (p : Pipe ρ π) : Prop where
  readOffset : ∀ seg ∈ p.segments, seg.readOffset = 0
  paused : p.writerPaused = true → p.shouldPauseWriter o = true

omit [MemoryResource ρ π] in
/-- A writer without room pauses. -/
theorem shouldPause_of_capacity (ha : p.writerAvailableCapacity o = 0) : p.shouldPauseWriter o = true := by
  have hb := o.bufferSize_pos
  unfold Pipe.writerAvailableCapacity at ha
  unfold Pipe.shouldPauseWriter
  cases ht : p.hasWritableTail with
  | true =>
    unfold Pipe.hasWritableTail at ht
    rw [if_pos (by unfold Pipe.hasWritableTail; exact ht)] at ha
    unfold Pipe.backWritableSize at ha
    split at ht
    · cases ht
    · rename_i back hback
      rw [hback] at ha
      simp only at ha
      simp [DataSegment.full, ha] at ht
  | false =>
    rw [ht] at ha
    simp only [Bool.false_eq_true, ↓reduceIte, ge_iff_le] at ha
    simp only [Bool.not_false, Bool.true_and, decide_eq_true_eq]
    by_contra hlt
    rw [if_pos (by omega)] at ha
    omega

/-- A chunk is copied behind what is there, into the last segment or a new one. -/
private theorem copyChunk_readOffset {data : List Byte} {capacity n : Nat} {oom : Bool} {q : Pipe ρ π}
    (hp : ∀ seg ∈ p.segments, seg.readOffset = 0) (hq : p.copyChunk o data capacity oom = some (q, n)) :
    ∀ seg ∈ q.segments, seg.readOffset = 0 := by
  unfold Pipe.copyChunk at hq
  dsimp only at hq
  split at hq
  · cases hq
  · rename_i p' hg
    simp only [Option.some.injEq, Prod.mk.injEq] at hq
    obtain ⟨rfl, -⟩ := hq
    have hp' : ∀ seg ∈ p'.segments, seg.readOffset = 0 := by
      unfold Pipe.getSegment at hg
      split at hg
      · split at hg
        · cases hg
        · cases hg
          intro seg hseg
          rcases List.mem_append.1 hseg with hseg | hseg
          · exact hp seg hseg
          · rw [List.mem_singleton.1 hseg]
            rfl
      · cases hg
        exact hp
    intro seg hseg
    change seg ∈ (p'.copyToBack _).1.segments at hseg
    unfold Pipe.copyToBack at hseg
    split at hseg
    · exact hp' seg hseg
    · rename_i back hback
      rcases List.mem_append.1 hseg with hseg | hseg
      · exact hp' seg (List.dropLast_subset _ hseg)
      · rw [List.mem_singleton.1 hseg]
        exact hp' back (List.mem_of_getLast? hback)

omit [MemoryResource ρ π] [Fintype τ] in
private theorem Filling.others_update {w : τ} {data : List Byte} {s : PipeState τ ρ π} (h : Filling o w data s)
    (ph : Phase PipeLocal CondVar PipeEvent) {u : τ} (hu : u ≠ w) : Function.update s.phase w ph u = .outside := by
  rw [Function.update_of_ne hu]
  exact h.others u hu

/-- A pass of the chunk loop that leaves it with the writer paused. -/
private theorem Filling.leave {w : τ} {data : List Byte} {s : PipeState τ ρ π} {call copied : Nat}
    (h : Filling o w data s) (hph : s.phase w = .locked (.writeLoop call data copied false none)) {q : Pipe ρ π}
    (hq : Fresh o q) (hU : Unread o q) (hp : q.writerPaused = true)
    (he : s.shared.writeLoop o call data copied false none false false =
      q.writeUnlock call data copied false none false) :
    ∃ tr s', ((pipeline ρ o).machine τ).Exec Machine.Any s tr s' ∧ Stuck o w s' ∧ Unread o s'.shared := by
  obtain ⟨k, hu⟩ : ∃ k, q.writeUnlock call data copied false none false = ⟨q, [], .release [] k⟩ := ⟨_, rfl⟩
  have he' : (pipeline ρ o).piece s (.writeLoop call data copied false none) false = ⟨q, [], .release [] k⟩ :=
    he.trans hu
  have hm := Monitor.Moves.release (M := pipeline ρ o) w false _ [] k hph (by rw [he'])
  refine ⟨_, _, .snoc .nil trivial (Monitor.step_of_moves hm), ⟨rfl, fun _ => h.others_update _, ?_, ?_⟩, ?_⟩
  · simp only [he']
    exact hq
  · simp only [he']
    exact hp
  · simp only [he']
    exact hU

/-- A pass of the chunk loop that copies a chunk. -/
private theorem Filling.chunk {w : τ} {data : List Byte} {s : PipeState τ ρ π} (h : Filling o w data s)
    (hU : Unread o s.shared) (hlen : o.pauseWriterThreshold ≤ s.shared.bufferedSize + data.length)
    (hp : s.shared.writerPaused = false) (hd : data ≠ []) (ha : s.shared.writerAvailableCapacity o ≠ 0) :
    ∃ tr s' k, ((pipeline ρ o).machine τ).Exec Machine.Any s tr s' ∧ Filling o w (data.drop k) s' ∧
      Unread o s'.shared ∧ 0 < k ∧ k ≤ data.length ∧ s'.shared.bufferedSize = s.shared.bufferedSize + k := by
  obtain ⟨call, copied, hph⟩ := h.phase
  have hA := h.fresh.accounted
  have hc := h.fresh.not_completed
  obtain ⟨q, k, hq⟩ := copyChunk_isSome (o := o) s.shared data (s.shared.writerAvailableCapacity o)
  obtain ⟨hA', hk, hk', hbytes, -⟩ := copyChunk_spec hA hd ha hq
  have hbuf : q.bufferedSize = s.shared.bufferedSize + k := by
    have e := congrArg List.length hbytes
    simp only [length_readableBytes, List.length_append, List.length_take] at e
    rw [hA'.buffered, e, hA.buffered]
    omega
  have he : (pipeline ρ o).piece s (.writeLoop call data copied false none) false =
      ⟨{ q with writerPaused := q.writerPaused || q.shouldPauseWriter o }, [.commit call (data.take k)],
        .hold (.writeLoop call (data.drop k) (SizeT.add copied k) q.readerWaiting none)⟩ := by
    show s.shared.writeLoop o call data copied false none false false = _
    simp [Pipe.writeLoop, hp, hd, hc, ha, hq]
  have hread := copyChunk_readOffset hU.readOffset hq
  obtain ⟨r, segs, b, a, rfl⟩ := copyChunk_frame hq
  change b = s.shared.bufferedSize + k at hbuf
  have hm := Monitor.Moves.hold (M := pipeline ρ o) w false _ _ hph (by rw [he])
  rw [h.fresh.waiting] at hm
  refine ⟨_, _, k, .snoc .nil trivial (Monitor.step_of_moves hm),
    ⟨⟨_, _, Function.update_self ..⟩, fun _ => h.others_update _, ?_, ?_⟩, ⟨?_, ?_⟩, hk, hk', ?_⟩
  · simp only [he]
    exact { h.fresh with accounted := { hA' with } }
  · -- the last chunk fills the pipeline
    intro hnil
    have hk0 := List.drop_eq_nil_iff.1 hnil
    simp only [he, Bool.or_eq_true]
    exact .inr (shouldPause_of_filled hA' (by show o.pauseWriterThreshold ≤ b; omega))
  · simp only [he]
    exact hread
  · intro hpa
    simp only [he, hp, Bool.false_or] at hpa ⊢
    exact hpa
  · simp only [he]
    exact hbuf

/-- A write that fills the pipeline up to the pause threshold ends in a pause. -/
private theorem exists_stuck (w : τ) (data : List Byte) (s : PipeState τ ρ π) (h : Filling o w data s)
    (hU : Unread o s.shared) (hlen : o.pauseWriterThreshold ≤ s.shared.bufferedSize + data.length) :
    ∃ tr s', ((pipeline ρ o).machine τ).Exec Machine.Any s tr s' ∧ Stuck o w s' ∧ Unread o s'.shared := by
  -- every chunk makes the data shorter
  induction hn : data.length using Nat.strong_induction_on generalizing s data with
  | _ n ih =>
    obtain ⟨call, copied, hph⟩ := h.phase
    have hc := h.fresh.not_completed
    by_cases hp : s.shared.writerPaused = true
    · refine h.leave hph h.fresh hU hp ?_
      simp [Pipe.writeLoop, hp]
    simp only [Bool.not_eq_true] at hp
    have hd : data ≠ [] := fun hd => by simp [h.paused hd] at hp
    by_cases ha : s.shared.writerAvailableCapacity o = 0
    · refine h.leave (q := { s.shared with writerPaused := true }) hph ?_ ⟨hU.readOffset, fun _ => ?_⟩ rfl ?_
      · exact { h.fresh with accounted := { h.fresh.accounted with } }
      · exact shouldPause_of_capacity (p := s.shared) ha
      · simp [Pipe.writeLoop, hp, hd, hc, ha]
    · obtain ⟨tr, s', k, hex, hF, hU', hk, hk', hbuf⟩ := h.chunk hU hlen hp hd ha
      have hdrop : (data.drop k).length = data.length - k := List.length_drop
      obtain ⟨tr', s'', hex', hst⟩ := ih (data.drop k).length (by omega) (data.drop k) s' hF hU' (by omega) rfl
      exact ⟨_, s'', hex.trans hex', hst⟩

omit [MemoryResource ρ π] in
private theorem fresh_new (o : ValidatedOptions) (r : ρ) : Fresh o (Pipe.new r : Pipe ρ π) :=
  ⟨accounted_new o r, rfl, rfl, rfl, rfl, rfl⟩

private theorem exists_stuck_new (o : ValidatedOptions) (r : ρ) (w : τ) :
    ∃ tr s, ((pipeline ρ o).machine τ).Exec Machine.Any (State.init (Pipe.new r)) tr s ∧ Stuck o w s ∧
      Unread o s.shared := by
  have hlen : (List.replicate o.pauseWriterThreshold (0 : Byte)).length = o.pauseWriterThreshold := by simp
  have hne : List.replicate o.pauseWriterThreshold (0 : Byte) ≠ [] := by
    rw [← List.length_pos_iff, hlen]; exact o.pause_pos
  generalize List.replicate o.pauseWriterThreshold (0 : Byte) = data at hlen hne
  have h1 := Monitor.exec_enter (M := pipeline ρ o) (s := (State.init (Pipe.new r) : PipeState τ ρ π)) w
    (.write ⟨data, hlen ▸ o.pause_lt⟩ none) (.writeTop 0 data 0 none) [.writeCall 0 data] false
    rfl rfl (by simp [pipeline, PipeOp.enter, hne, State.init])
  have h2 := h1.trans (Monitor.exec_wait w .spaceAvailable (.writeLoop 0 data 0 false none) (Pipe.new r) [] false
    (Function.update_self ..) rfl rfl)
  obtain ⟨tr, s, h3, hs⟩ := exists_stuck (o := o) w data ⟨Pipe.new r, some w,
    Function.update (Function.update (fun _ => .outside) w (.locked (.writeTop 0 data 0 none))) w
      (.locked (.writeLoop 0 data 0 false none)), fun _ => false, 1⟩
    ⟨⟨_, _, Function.update_self ..⟩, fun u hu => by simp [Function.update_of_ne hu], fresh_new o r,
      fun h => absurd h hne⟩ ⟨by simp [Pipe.new], by intro h; cases h⟩ (Nat.le_trans (Nat.le_of_eq hlen.symm) (Nat.le_add_left ..))
  exact ⟨_, s, h2.trans h3, hs⟩

/-- An `advance` that does not resume the paused writer. -/
private theorem advance_keeps_pause {consumed examined : Nat} (hr : p.readerCompleted = false)
    (hp : p.hasPendingRead = true) (he : examined ≤ p.pendingReadSize) (hx : (p.consume o consumed).exit = .done)
    (hpa : p.writerPaused = true) (ho : o.resumeWriterThreshold < o.bufferSize) :
    p.advance o consumed examined =
      ⟨{ p.afterConsume o consumed with
          examinedSize := SizeT.sub examined consumed
          writerPaused := true
          pendingReadSize := 0
          hasPendingRead := false }, [.advanced (p.consume o consumed).dropped], .release [] (.done [])⟩ := by
  have hno : ∀ p' : Pipe ρ π, p'.shouldResumeWriter o = false := by
    intro p'
    simp only [Pipe.shouldResumeWriter, Bool.and_eq_false_iff, decide_eq_false_iff_not]
    omega
  simp [Pipe.advance, hr, hp, Nat.not_lt.2 he, hx, hno, hpa, Pipe.afterConsume]

/-- In a stuck pipeline the reader reads all bytes and comes to its `advance`. -/
private theorem exec_read {w r : τ} (hwr : r ≠ w) {s : PipeState τ ρ π} (h : Stuck o w s)
    (hb : 0 < s.shared.bufferedSize) {consumed examined : Nat} (hce : consumed ≤ examined) :
    ∃ tr s', ((pipeline ρ o).machine τ).Exec Machine.Any s tr s' ∧
      s'.phase r = .locked (.advance consumed examined) ∧
      s'.shared = { s.shared with
        readerWaiting := false, hasPendingRead := true, pendingReadSize := s.shared.bufferedSize } := by
  have hA := h.fresh.accounted
  have hsize : (makeReadableView s.shared.segments).size = s.shared.bufferedSize := by
    rw [size_makeReadableView (hA.buffered ▸ hA.buffered_lt), hA.buffered]
  -- the read finds all bytes and does not wait
  have h1 := Monitor.exec_enter (M := pipeline ρ o) r (.readAtLeast 0 none) (.readTop 0 none) [] false
    (h.others r hwr) h.lock rfl
  have h2 := h1.trans (Monitor.exec_wait r .dataAvailable (.readAfterWait 0 none)
    { s.shared with readerWaiting := true } [] false (Function.update_self ..)
    (by
      show s.shared.readTop 0 none _ = _
      simp [Pipe.readTop, h.fresh.pending, h.fresh.reader, h.fresh.writer])
    (by
      show Pipe.dataAvailable _ 0 = true
      simp [Pipe.dataAvailable, h.fresh.examined, hb]))
  have h3 := h2.trans (Monitor.exec_leave r _ _ [] false (Function.update_self ..) rfl)
  have h4 := h3.trans (Monitor.exec_enter (M := pipeline ρ o) r (.advance ⟨consumed, true⟩ ⟨examined, true⟩)
    (.advance consumed examined) [] false (Function.update_self ..) rfl
    (by simp [pipeline, PipeOp.enter, Position.sequenceOffset, hce]))
  exact ⟨_, _, h4, Function.update_self .., congrArg (fun n => ({ s.shared with
    readerWaiting := false, hasPendingRead := true, pendingReadSize := n } : Pipe ρ π)) hsize⟩

/-- In a stuck pipeline with segments larger than the resume threshold the reader consumes everything and the writer
stays paused. -/
private theorem exists_drained {w r : τ} (hwr : r ≠ w) (ho : o.resumeWriterThreshold < o.bufferSize)
    {s : PipeState τ ρ π} (h : Stuck o w s) (hb : 0 < s.shared.bufferedSize) :
    ∃ tr s', ((pipeline ρ o).machine τ).Exec Machine.Any s tr s' ∧ s'.shared.writerCompleted = false ∧
      s'.shared.readerCompleted = false ∧ s'.shared.writerPaused = true ∧ s'.shared.bufferedSize = 0 := by
  have hA := h.fresh.accounted
  obtain ⟨tr, s', h1, hl, hs⟩ := exec_read hwr h hb (Nat.le_refl s.shared.bufferedSize)
  -- `advance` drops them all and finds no reason to resume the writer
  have hx := (consume_spec hA (Nat.le_refl s.shared.bufferedSize)).1
  have hbuf := consume_bufferedSize hA (Nat.le_refl s.shared.bufferedSize)
  have h2 := h1.trans (Monitor.exec_leave r _ _ [] false hl
    (by rw [hs]; exact advance_keeps_pause h.fresh.reader rfl (Nat.le_refl _) hx h.paused ho))
  exact ⟨_, _, h2, h.fresh.writer, h.fresh.reader, rfl, by rw [← Nat.sub_self]; exact hbuf⟩

/-- The reader finds bytes whenever the writer is paused, in every run, exactly if segments are not larger than the
resume threshold. -/
theorem paused_holds_bytes_iff (o : ValidatedOptions) (m : ρ) (w r : τ) (hwr : r ≠ w) :
    (∀ tr (s : PipeState τ ρ π), ((pipeline ρ o).machine τ).Exec Machine.Any (State.init (Pipe.new m)) tr s →
      s.shared.writerCompleted = false → s.shared.readerCompleted = false → s.shared.writerPaused = true →
      0 < s.shared.bufferedSize) ↔ o.bufferSize ≤ o.resumeWriterThreshold := by
  constructor
  · intro h
    by_contra ho
    obtain ⟨tr, s, hs, hst, -⟩ := exists_stuck_new (τ := τ) o m w
    have hb := h tr s hs hst.fresh.writer hst.fresh.reader hst.paused
    obtain ⟨tr', s', hs', hw, hr, hp, h0⟩ := exists_drained hwr (by omega) hst hb
    have := h _ s' (hs.trans hs') hw hr hp
    omega
  · intro ho tr s hs _ hr hp
    exact buffered_of_paused ho hs hr hp

/-- Thread `0` fills the pipeline up to the pause threshold. -/
def fillUp : List (PipeAction (Fin 2)) :=
  [.call 0 (.write .oneToFive none),
    .run 0 false, .run 0 false, .run 0 false, .run 0 false, .run 0 false, .run 0 false]

theorem paused_holds_bytes_small :
    ∃ tr, ∃ s : PipeState (Fin 2) FixedPoolResource Nat,
      ((pipeline FixedPoolResource .small).machine (Fin 2)).Exec Machine.Any (State.init (Pipe.new (.make .small))) tr s ∧
      s.shared.writerPaused = true ∧ 0 < s.shared.bufferedSize := by
  obtain ⟨tr, s, h, hc⟩ := Machine.exists_exec_of_run ((pipeline FixedPoolResource .small).machine (Fin 2))
    Machine.Any (State.init (Pipe.new (.make .small))) (fun _ _ => true) fillUp
    (fun _ s => decide (s.shared.writerCompleted = false ∧ s.shared.readerCompleted = false ∧
      s.shared.writerPaused = true)) (fun _ _ _ => trivial) (by decide)
  obtain ⟨hw, hr, hp⟩ := of_decide_eq_true hc
  have hb := (paused_holds_bytes_iff .small (FixedPoolResource.make .small) (0 : Fin 2) 1 (by decide)).2 (by decide)
  exact ⟨tr, s, h, hp, hb tr s h hw hr hp⟩

/-- Four-byte segments, pausing at eight and resuming at three bytes. -/
def ValidatedOptions.wide : ValidatedOptions :=
  ⟨4, 8, 3, 2, by decide, by decide, by decide, by decide, by decide, rfl⟩

/-- Thread `0` fills both segments, thread `1` reads and consumes them. -/
def fillAndDrain : List (PipeAction (Fin 2)) :=
  [.call 0 (.write ⟨[1, 2, 3, 4, 5, 6, 7, 8], by decide⟩ none),
    .run 0 false, .run 0 false, .run 0 false, .run 0 false, .run 0 false, .run 0 false,
    .call 1 (.readAtLeast 0 none), .run 1 false, .run 1 false, .run 1 false, .run 1 false,
    .call 1 (.advance ⟨8, true⟩ ⟨8, true⟩), .run 1 false, .run 1 false]

/-- With segments larger than the resume threshold the writer is still paused when everything is consumed. -/
theorem paused_empty_wide :
    ∃ tr, ∃ s : PipeState (Fin 2) FixedPoolResource Nat,
      ((pipeline FixedPoolResource .wide).machine (Fin 2)).Exec Machine.Any (State.init (Pipe.new (.make .wide))) tr s ∧
      s.shared.writerCompleted = false ∧ s.shared.readerCompleted = false ∧ s.shared.writerPaused = true ∧
      s.shared.bufferedSize = 0 := by
  obtain ⟨tr, s, h, hc⟩ := Machine.exists_exec_of_run ((pipeline FixedPoolResource .wide).machine (Fin 2))
    Machine.Any (State.init (Pipe.new (.make .wide))) (fun _ _ => true) fillAndDrain
    (fun _ s => decide (s.shared.writerCompleted = false ∧ s.shared.readerCompleted = false ∧
      s.shared.writerPaused = true ∧ s.shared.bufferedSize = 0)) (fun _ _ _ => trivial) (by decide)
  exact ⟨tr, s, h, of_decide_eq_true hc⟩

/-! ### Resuming at the threshold -/

omit [MemoryResource ρ π] in
/-- What is buffered in segments that lie below the pause threshold. -/
private theorem buffered_le_of_actual (h : Accounted o p) (hlt : p.actualBufferedSize < o.pauseWriterThreshold) :
    p.bufferedSize ≤ (o.pauseWriterThreshold - 1) / o.bufferSize * o.bufferSize := by
  have hact := h.actual
  have hle : p.segments.length ≤ (o.pauseWriterThreshold - 1) / o.bufferSize := by
    rw [Nat.le_div_iff_mul_le o.bufferSize_pos, ← hact]
    omega
  calc p.bufferedSize ≤ p.actualBufferedSize := h.buffered_le
    _ = p.segments.length * o.bufferSize := hact
    _ ≤ _ := Nat.mul_le_mul_right _ hle

/-- The piece of an `advance` that resumes the paused writer. -/
private theorem resumed_advance {consumed examined : Nat} {stop oom : Bool}
    (hpa : p.writerPaused = true)
    (hres : ((pipeline ρ o).exec (.advance consumed examined) p stop oom).shared.writerPaused = false) :
    ((pipeline ρ o).exec (.advance consumed examined) p stop oom).shared.shouldResumeWriter o = true := by
  have hm := pipe_moves o (.advance consumed examined) p stop oom
  generalize (pipeline ρ o).exec (.advance consumed examined) p stop oom = r at hm hres ⊢
  cases hm with
  | advanceThrow => rw [hpa] at hres; cases hres
  | advanceFault => exact absurd (hpa.symm.trans hres) (by decide)
  | advance q paused hr hp he hx hq hpaused =>
    rw [show paused = false from hres, hpa] at hpaused
    simpa [Pipe.shouldResumeWriter] using hpaused

omit [MemoryResource ρ π] in
/-- A pipeline that is paused before anything was consumed consists of full segments. -/
private theorem readableSize_of_unread (hA : Accounted o p) (hU : Unread o p) (hpa : p.writerPaused = true) :
    ∀ seg ∈ p.segments, seg.readableSize = o.bufferSize := by
  have hsp := hU.paused hpa
  unfold Pipe.shouldPauseWriter at hsp
  rw [Bool.and_eq_true, Bool.not_eq_true'] at hsp
  have hfull : ∀ seg ∈ p.segments, seg.full = true := by
    intro seg hseg
    have htail := hsp.1
    unfold Pipe.hasWritableTail at htail
    split at htail
    · rename_i hnone
      rw [List.getLast?_eq_none_iff.1 hnone] at hseg
      cases hseg
    · rename_i back hback
      obtain ⟨front, hf⟩ := List.getLast?_eq_some_iff.1 hback
      rw [hf] at hseg
      rcases List.mem_append.1 hseg with hseg | hseg
      · exact hA.full seg (by rw [hf]; simpa using hseg)
      · rw [List.mem_singleton.1 hseg]
        simpa using htail
  intro seg hseg
  have h1 := of_decide_eq_true (hfull seg hseg)
  have h2 := hU.readOffset seg hseg
  have h3 := hA.capacity seg hseg
  have h4 := seg.readable_end
  have h5 := seg.written_le
  unfold DataSegment.writableSize at h1
  omega

theorem readableSize_eq_mul {n : Nat} {l : List (DataSegment π)} (h : ∀ seg ∈ l, seg.readableSize = n) :
    readableSize l = l.length * n := by
  induction l with
  | nil => simp
  | cons s l ih =>
    rw [readableSize_cons, h s (by simp), ih (fun x hx => h x (by simp [hx])), List.length_cons, Nat.succ_mul]
    omega

/-- Consuming the first segment as a whole takes its size off the allocated bytes. -/
private theorem consume_head {head : DataSegment π} {tail : List (DataSegment π)} (hs : p.segments = head :: tail)
    (hr : head.readableSize = o.bufferSize) :
    (p.consume o o.bufferSize).actualBufferedSize = SizeT.sub p.actualBufferedSize o.bufferSize := by
  have hb := o.bufferSize_pos
  have h0 : SizeT.sub o.bufferSize o.bufferSize = 0 := by
    rw [SizeT.sub_eq (Nat.le_refl _) o.bufferSize_lt, Nat.sub_self]
  have hrest : ∀ (l : List (DataSegment π)) (r : ρ) (b a : Nat),
      (Pipe.advanceLoop o.bufferSize l r 0 b a).actualBufferedSize = a := by
    intro l r b a
    cases l <;> rfl
  unfold Pipe.consume
  rw [hs]
  unfold Pipe.advanceLoop
  rw [if_pos hb, if_neg (by omega), hr, h0]
  exact hrest ..

/-- An `advance` that resumes the paused writer. -/
private theorem advance_resumes {consumed examined : Nat} (hr : p.readerCompleted = false)
    (hp : p.hasPendingRead = true) (he : examined ≤ p.pendingReadSize) (hx : (p.consume o consumed).exit = .done)
    (hpa : p.writerPaused = true) (ho : o.bufferSize ≤ o.resumeWriterThreshold)
    (hact : (p.consume o consumed).actualBufferedSize < o.pauseWriterThreshold) :
    p.advance o consumed examined =
      ⟨{ p.afterConsume o consumed with
          examinedSize := SizeT.sub examined consumed
          writerPaused := false
          pendingReadSize := 0
          hasPendingRead := false }, [.advanced (p.consume o consumed).dropped],
        .release [.one .spaceAvailable] (.done [])⟩ := by
  simp [Pipe.advance, hr, hp, Nat.not_lt.2 he, hx, hpa, Pipe.afterConsume, Pipe.shouldResumeWriter, ho, hact]

omit [DecidableEq τ] [Fintype τ] in
/-- In a pipeline that is stuck before anything was consumed, the smallest amount that brings the allocated bytes below
the pause threshold. -/
private theorem exists_consumed {w : τ} {s : PipeState τ ρ π} (h : Stuck o w s) (hU : Unread o s.shared)
    (ho : o.bufferSize ≤ o.resumeWriterThreshold) :
    ∃ consumed, consumed ≤ s.shared.bufferedSize ∧
      (s.shared.consume o consumed).actualBufferedSize < o.pauseWriterThreshold ∧
      (s.shared.consume o consumed).bufferedSize = (o.pauseWriterThreshold - 1) / o.bufferSize * o.bufferSize := by
  have hA := h.fresh.accounted
  have hb := o.bufferSize_pos
  have hp := o.pause_pos
  have hres := o.resume_le
  have hread := readableSize_of_unread hA hU h.paused
  have hbuf : s.shared.bufferedSize = s.shared.segments.length * o.bufferSize := by
    rw [hA.buffered, readableSize_eq_mul hread]
  have hact := hA.actual
  have hle := hA.actual_le
  have hroom : o.pauseWriterThreshold < s.shared.actualBufferedSize + o.bufferSize := by
    have hsp := hU.paused h.paused
    unfold Pipe.shouldPauseWriter at hsp
    rw [Bool.and_eq_true, hA.allocationCapacity_eq, decide_eq_true_eq] at hsp
    omega
  by_cases hlt : s.shared.actualBufferedSize < o.pauseWriterThreshold
  · refine ⟨0, Nat.zero_le _, ?_, ?_⟩
    · have h1 : (s.shared.consume o 0).actualBufferedSize = s.shared.actualBufferedSize := by
        unfold Pipe.consume
        cases s.shared.segments <;> rfl
      rw [h1]
      exact hlt
    · have hdiv : (o.pauseWriterThreshold - 1) / o.bufferSize = s.shared.segments.length := by
        refine Nat.div_eq_of_lt_le ?_ ?_
        · rw [← hact]; omega
        · rw [Nat.succ_mul, ← hact]; omega
      rw [consume_bufferedSize hA (Nat.zero_le _), hdiv, hbuf, Nat.sub_zero]
  · -- the segments reach the pause threshold exactly: the first one has to go
    have heq : s.shared.segments.length * o.bufferSize = o.pauseWriterThreshold := by omega
    cases hseg : s.shared.segments with
    | nil => rw [hseg] at heq; simp at heq; omega
    | cons head tail =>
      have hhead := hread head (by rw [hseg]; simp)
      have hlen : s.shared.segments.length = tail.length + 1 := by rw [hseg]; rfl
      have hdiv : (o.pauseWriterThreshold - 1) / o.bufferSize = tail.length := by
        rw [hlen, Nat.succ_mul] at heq
        refine Nat.div_eq_of_lt_le ?_ ?_
        · omega
        · rw [Nat.succ_mul]; omega
      have hc : o.bufferSize ≤ s.shared.bufferedSize := by omega
      refine ⟨o.bufferSize, hc, ?_, ?_⟩
      · rw [consume_head hseg hhead, SizeT.sub_eq (by omega) hA.actual_lt]
        omega
      · rw [consume_bufferedSize hA hc, hdiv, hbuf, hlen, Nat.succ_mul]
        omega

/-- A successful `advance` resumes the paused writer only at the resume threshold, in every run, exactly if segments are
larger than that threshold, so that the writer is never resumed, or the threshold is not below the largest multiple of
the segment size under the pause threshold. -/
theorem resume_at_threshold_iff (o : ValidatedOptions) (m : ρ) (w r : τ) (hwr : r ≠ w) :
    (∀ tr (s : PipeState τ ρ π), ((pipeline ρ o).machine τ).Exec Machine.Any (State.init (Pipe.new m)) tr s →
      s.shared.writerPaused = true → s.shared.writerCompleted = false → s.shared.readerCompleted = false →
      ∀ t z s' evs consumed examined bytes, s.phase t = .locked (.advance consumed examined) →
        ((pipeline ρ o).machine τ).step s (.run t z) = some (s', evs) → .advanced bytes ∈ evs →
        s'.shared.writerPaused = false → s'.shared.bufferedSize ≤ o.resumeWriterThreshold) ↔
    (o.resumeWriterThreshold < o.bufferSize ∨
      (o.pauseWriterThreshold - 1) / o.bufferSize * o.bufferSize ≤ o.resumeWriterThreshold) := by
  constructor
  · intro h
    by_contra hno
    rw [not_or, Nat.not_lt, Nat.not_le] at hno
    obtain ⟨ho, hgt⟩ := hno
    obtain ⟨tr, s, hs, hst, hU⟩ := exists_stuck_new (τ := τ) o m w
    obtain ⟨consumed, hc, hact, hbuf⟩ := exists_consumed hst hU ho
    have hpos : 0 < s.shared.bufferedSize := by
      have := consume_bufferedSize hst.fresh.accounted hc
      omega
    obtain ⟨tr', s', hs', hl, hsh⟩ := exec_read hwr hst hpos hc
    have hadv := advance_resumes (p := { s.shared with
        readerWaiting := false, hasPendingRead := true, pendingReadSize := s.shared.bufferedSize })
      hst.fresh.reader rfl (Nat.le_refl s.shared.bufferedSize) (consume_spec hst.fresh.accounted hc).1 hst.paused ho hact
    have hpiece : (pipeline ρ o).piece s' (.advance consumed s.shared.bufferedSize) false =
        s'.shared.advance o consumed s.shared.bufferedSize := rfl
    rw [hsh, hadv] at hpiece
    obtain ⟨s'', evs, hstep, hs'', hevs⟩ := Monitor.exists_piece (M := pipeline ρ o) false hl
    have hle := h _ s' (hs.trans hs') (by rw [hsh]; exact hst.paused) (by rw [hsh]; exact hst.fresh.writer)
      (by rw [hsh]; exact hst.fresh.reader) r false s'' evs consumed s.shared.bufferedSize _ hl hstep
      (hevs _ (by rw [hpiece]; exact List.mem_singleton.2 rfl)) (by rw [hs'', hpiece])
    rw [hs'', hpiece] at hle
    change (s.shared.consume o consumed).bufferedSize ≤ _ at hle
    omega
  · intro ho tr s hs hpa _ hrc t z s' evs consumed examined bytes hl hstep _ hres
    have hm := Monitor.moves_of_step hstep
    obtain ⟨hacc, hord⟩ := accounted_of_exec (hs.snoc trivial hstep)
    have hsh := (hm.of_piece hl).1
    rw [hsh] at hres
    have hshould := resumed_advance hpa hres
    have hA : Accounted o s'.shared := by
      rcases hacc with hc | hA
      · rw [hsh] at hc
        have : s.shared.readerCompleted = true := by
          rw [← readerCompleted_piece (o := o) (l := .advance consumed examined) nofun (s.stop none) z]
          exact hc
        rw [hrc] at this
        cases this
      · exact hA
    have hshould' : s'.shared.shouldResumeWriter o = true := by rw [hsh]; exact hshould
    unfold Pipe.shouldResumeWriter at hshould'
    rw [Bool.and_eq_true, decide_eq_true_eq, decide_eq_true_eq] at hshould'
    rcases ho with ho | ho
    · omega
    · exact Nat.le_trans (buffered_le_of_actual hA hshould'.2) ho

/-- Thread `0` fills the pipeline, thread `1` reads and comes to an `advance` that consumes the given bytes. -/
def fillAndAdvance (consumed : Nat) : List (PipeAction (Fin 2)) :=
  fillUp ++ [.call 1 (.readAtLeast 0 none), .run 1 false, .run 1 false, .run 1 false, .run 1 false,
    .call 1 (.advance ⟨consumed, true⟩ ⟨4, true⟩), .run 1 false]

private def isAdvancing (consumed examined : Nat) : Phase PipeLocal CondVar PipeEvent → Bool
  | .locked (.advance c e) => decide (c = consumed ∧ e = examined)
  | _ => false

private theorem eq_of_isAdvancing {consumed examined : Nat} {ph : Phase PipeLocal CondVar PipeEvent}
    (h : isAdvancing consumed examined ph = true) : ph = .locked (.advance consumed examined) := by
  unfold isAdvancing at h
  split at h
  · obtain ⟨rfl, rfl⟩ := of_decide_eq_true h
    rfl
  · cases h

private def isAdvanced : PipeEvent → Bool
  | .advanced _ => true
  | _ => false

private theorem exists_advanced {evs : List PipeEvent} (h : evs.any isAdvanced = true) :
    ∃ bytes, .advanced bytes ∈ evs := by
  obtain ⟨e, he, hm⟩ := List.any_eq_true.1 h
  cases e with
  | advanced bytes => exact ⟨bytes, he⟩
  | _ => cases hm

/-- Two-byte segments, pausing at five and resuming at four bytes. -/
def ValidatedOptions.close : ValidatedOptions :=
  { ValidatedOptions.small with
    resumeWriterThreshold := 4
    resume_le := by decide }

theorem resume_at_threshold_close :
    ∃ tr, ∃ s s' : PipeState (Fin 2) FixedPoolResource Nat, ∃ evs,
      ((pipeline FixedPoolResource .close).machine (Fin 2)).Exec Machine.Any (State.init (Pipe.new (.make .close))) tr s ∧
      s.shared.writerPaused = true ∧
      ((pipeline FixedPoolResource .close).machine (Fin 2)).step s (.run 1 false) = some (s', evs) ∧
      s'.shared.writerPaused = false ∧ s'.shared.bufferedSize ≤ 4 := by
  obtain ⟨tr, s, h, hc⟩ := Machine.exists_exec_of_run ((pipeline FixedPoolResource .close).machine (Fin 2))
    Machine.Any (State.init (Pipe.new (.make .close))) (fun _ _ => true) (fillAndAdvance 1)
    (fun _ s => isAdvancing 1 4 (s.phase 1) && decide (s.shared.writerPaused = true ∧
      s.shared.writerCompleted = false ∧ s.shared.readerCompleted = false ∧
      (s.shared.advance .close 1 4).shared.writerPaused = false) &&
      (s.shared.advance .close 1 4).events.any isAdvanced)
    (fun _ _ _ => trivial) (by decide)
  simp only [Bool.and_eq_true, decide_eq_true_eq] at hc
  obtain ⟨⟨hl, hp, hw, hr, hres⟩, hev⟩ := hc
  have hl := eq_of_isAdvancing hl
  obtain ⟨s', evs, hstep, hs', hevs⟩ := Monitor.exists_piece (M := pipeline FixedPoolResource .close) false hl
  obtain ⟨bytes, hadv⟩ := exists_advanced hev
  have hadv := hevs _ hadv
  have hres' : s'.shared.writerPaused = false := by rw [hs']; exact hres
  have hiff := (resume_at_threshold_iff .close (FixedPoolResource.make .close) (0 : Fin 2) 1 (by decide)).2 (by decide)
  exact ⟨tr, s, s', evs, h, hp, hstep, hres', hiff tr s h hp hw hr 1 false s' evs 1 4 bytes hl hstep hadv hres'⟩

/-- With room for two segments below the pause threshold and none to spare above the resume threshold, an `advance` that
consumes nothing resumes the writer while four bytes are buffered and the resume threshold is three. -/
theorem resumed_above_threshold_small :
    ∃ tr, ∃ s s' : PipeState (Fin 2) FixedPoolResource Nat, ∃ evs bytes,
      ((pipeline FixedPoolResource .small).machine (Fin 2)).Exec Machine.Any (State.init (Pipe.new (.make .small))) tr s ∧
      s.shared.writerPaused = true ∧ s.shared.writerCompleted = false ∧ s.shared.readerCompleted = false ∧
      s.phase 1 = .locked (.advance 0 4) ∧
      ((pipeline FixedPoolResource .small).machine (Fin 2)).step s (.run 1 false) = some (s', evs) ∧
      .advanced bytes ∈ evs ∧ s'.shared.writerPaused = false ∧
      ValidatedOptions.small.resumeWriterThreshold < s'.shared.bufferedSize := by
  obtain ⟨tr, s, h, hc⟩ := Machine.exists_exec_of_run ((pipeline FixedPoolResource .small).machine (Fin 2))
    Machine.Any (State.init (Pipe.new (.make .small))) (fun _ _ => true) (fillAndAdvance 0)
    (fun _ s => isAdvancing 0 4 (s.phase 1) && decide (s.shared.writerPaused = true ∧
      s.shared.writerCompleted = false ∧ s.shared.readerCompleted = false ∧
      (s.shared.advance .small 0 4).shared.writerPaused = false ∧
      (s.shared.advance .small 0 4).shared.bufferedSize = 4) &&
      (s.shared.advance .small 0 4).events.any isAdvanced)
    (fun _ _ _ => trivial) (by decide)
  simp only [Bool.and_eq_true, decide_eq_true_eq] at hc
  obtain ⟨⟨hl, hp, hw, hr, hres, hbuf⟩, hev⟩ := hc
  have hl := eq_of_isAdvancing hl
  obtain ⟨s', evs, hstep, hs', hevs⟩ := Monitor.exists_piece (M := pipeline FixedPoolResource .small) false hl
  obtain ⟨bytes, hadv⟩ := exists_advanced hev
  have hadv := hevs _ hadv
  refine ⟨tr, s, s', evs, bytes, h, hp, hw, hr, hl, hstep, hadv, by rw [hs']; exact hres, ?_⟩
  have hb : s'.shared.bufferedSize = 4 := by rw [hs']; exact hbuf
  rw [hb]
  decide

end Xtd
