import Xtd.Pipeline.Impl

/-!
# What a piece of the pipeline can do

One case for each way through the pieces of `write`, `read_at_least`, `advance`, `complete_writer` and
`complete_reader`; all invariants are proved from these cases.
-/

namespace Xtd

open Concurrency

variable {ρ π : Type} [MemoryResource ρ π]

/-- Everything a piece can do in `p`. -/
inductive PipeMoves (o : ValidatedOptions) (p : Pipe ρ π) : PipeLocal → (stop oom : Bool) → PipePiece ρ π → Prop
  | topThrow {call data copied token stop oom} (hc : p.isAnyCompleted = true) :
      PipeMoves o p (.writeTop call data copied token) stop oom
        ⟨p, [], .release [] (.done [.writeThrow call (.logicError "pipeline is completed")])⟩
  | topWait {call data copied token stop oom} (hc : p.isAnyCompleted = false) :
      PipeMoves o p (.writeTop call data copied token) stop oom
        ⟨p, [], .wait .spaceAvailable (.writeLoop call data copied false token)⟩
  | leave {call data copied notify token stop oom} (h : data = [] ∨ p.writerPaused = true) :
      PipeMoves o p (.writeLoop call data copied notify token) stop oom
        (p.writeUnlock call data copied notify token stop)
  | loopThrow {call data copied notify token stop oom} (hd : data ≠ []) (hp : p.writerPaused = false)
      (hc : p.isAnyCompleted = true) :
      PipeMoves o p (.writeLoop call data copied notify token) stop oom
        ⟨p, [], .release [] (.done [.writeThrow call (.logicError "pipeline is completed")])⟩
  | loopStop {call data copied notify token oom} (hd : data ≠ []) (hp : p.writerPaused = false)
      (hc : p.isAnyCompleted = false) :
      PipeMoves o p (.writeLoop call data copied notify token) true oom
        ⟨p, [], .release [] (.done [.writeReturn call copied true])⟩
  | pause {call data copied notify token oom} (hd : data ≠ []) (hp : p.writerPaused = false)
      (hc : p.isAnyCompleted = false) (ha : p.writerAvailableCapacity o = 0) :
      PipeMoves o p (.writeLoop call data copied notify token) false oom
        (({ p with writerPaused := true } : Pipe ρ π).writeUnlock call data copied notify token false)
  | loopOom {call data copied notify token oom} (hd : data ≠ []) (hp : p.writerPaused = false)
      (hc : p.isAnyCompleted = false) (ha : p.writerAvailableCapacity o ≠ 0)
      (hq : p.copyChunk o data (p.writerAvailableCapacity o) oom = none) :
      PipeMoves o p (.writeLoop call data copied notify token) false oom
        ⟨p, [], .release [] (.done [.writeThrow call .badAlloc])⟩
  | chunk {call data copied notify token oom} (q : Pipe ρ π) (n : Nat) (hd : data ≠ [])
      (hp : p.writerPaused = false) (hc : p.isAnyCompleted = false) (ha : p.writerAvailableCapacity o ≠ 0)
      (hq : p.copyChunk o data (p.writerAvailableCapacity o) oom = some (q, n)) :
      PipeMoves o p (.writeLoop call data copied notify token) false oom
        ⟨{ q with writerPaused := q.writerPaused || q.shouldPauseWriter o }, [.commit call (data.take n)],
          .hold (.writeLoop call (data.drop n) (SizeT.add copied n) (notify || q.readerWaiting) token)⟩
  | readThrow {minSize token stop oom} (e : Exn) (h : p.hasPendingRead = true ∨ p.readerCompleted = true) :
      PipeMoves o p (.readTop minSize token) stop oom ⟨p, [], .release [] (.done [.readThrow e])⟩
  | readWait {minSize token stop oom} (hp : p.hasPendingRead = false) (hr : p.readerCompleted = false)
      (hw : p.writerCompleted = false) :
      PipeMoves o p (.readTop minSize token) stop oom
        ⟨{ p with readerWaiting := true }, [], .wait .dataAvailable (.readAfterWait minSize token)⟩
  | readNow {minSize token stop oom} (hp : p.hasPendingRead = false) (hr : p.readerCompleted = false)
      (hw : p.writerCompleted = true) : PipeMoves o p (.readTop minSize token) stop oom (p.readTail stop)
  | readAfter {minSize token stop oom} :
      PipeMoves o p (.readAfterWait minSize token) stop oom
        (({ p with readerWaiting := false } : Pipe ρ π).readTail stop)
  | advanceThrow {consumed examined stop oom} (e : Exn)
      (h : p.readerCompleted = true ∨ p.hasPendingRead = false ∨ p.pendingReadSize < examined) :
      PipeMoves o p (.advance consumed examined) stop oom ⟨p, [], .release [] (.done [.advanceThrow e])⟩
  | advanceFault {consumed examined stop oom} (evs : List PipeEvent) (hr : p.readerCompleted = false)
      (hp : p.hasPendingRead = true) (he : examined ≤ p.pendingReadSize)
      (hx : (p.consume o consumed).exit ≠ .done)
      (hevs : evs = [.advanceUndefined] ∨ ∃ e, evs = [.advanceThrow e]) :
      PipeMoves o p (.advance consumed examined) stop oom ⟨p.afterConsume o consumed, [], .release [] (.done evs)⟩
  | advance {consumed examined stop oom} (q : Pipe ρ π) (paused : Bool) (hr : p.readerCompleted = false)
      (hp : p.hasPendingRead = true) (he : examined ≤ p.pendingReadSize) (hx : (p.consume o consumed).exit = .done)
      (hq : q = { p.afterConsume o consumed with examinedSize := SizeT.sub examined consumed })
      (hpa : paused = (p.writerPaused && !q.shouldResumeWriter o)) :
      PipeMoves o p (.advance consumed examined) stop oom
        ⟨{ q with writerPaused := paused, pendingReadSize := 0, hasPendingRead := false },
          [.advanced (p.consume o consumed).dropped],
          .release (if p.writerPaused && !paused then [.one .spaceAvailable] else []) (.done [])⟩
  | completeWriter {stop oom} : PipeMoves o p .completeWriter stop oom p.completeWriter
  | completeReader {stop oom} : PipeMoves o p .completeReader stop oom p.completeReader

private theorem writeLoop_moves (o : ValidatedOptions) (p : Pipe ρ π) (call : Nat) (data : List Byte) (copied : Nat)
    (notify : Bool) (token : Option Nat) (stop oom : Bool) :
    PipeMoves o p (.writeLoop call data copied notify token) stop oom
      (p.writeLoop o call data copied notify token stop oom) := by
  unfold Pipe.writeLoop
  split
  · rename_i h
    exact .leave (by simpa using h)
  · rename_i h
    simp only [Bool.or_eq_true, List.isEmpty_iff, not_or, Bool.not_eq_true] at h
    split
    · rename_i hc
      exact .loopThrow h.1 h.2 hc
    · rename_i hc
      simp only [Bool.not_eq_true] at hc
      cases stop with
      | true => exact .loopStop h.1 h.2 hc
      | false =>
        simp only [Bool.false_eq_true, ↓reduceIte]
        split
        · rename_i ha
          exact .pause h.1 h.2 hc ha
        · rename_i ha
          split
          · rename_i hq
            exact .loopOom h.1 h.2 hc ha hq
          · rename_i q n hq
            exact .chunk q n h.1 h.2 hc ha hq

private theorem readTop_moves (o : ValidatedOptions) (p : Pipe ρ π) (minSize : Nat) (token : Option Nat)
    (stop oom : Bool) : PipeMoves o p (.readTop minSize token) stop oom (p.readTop minSize token stop) := by
  unfold Pipe.readTop
  split
  · rename_i hp
    exact .readThrow _ (.inl hp)
  · rename_i hp
    simp only [Bool.not_eq_true] at hp
    split
    · rename_i hr
      exact .readThrow _ (.inr hr)
    · rename_i hr
      simp only [Bool.not_eq_true] at hr
      split
      · rename_i hw
        exact .readWait hp hr (by simpa using hw)
      · rename_i hw
        exact .readNow hp hr (by simpa using hw)

private theorem advance_moves (o : ValidatedOptions) (p : Pipe ρ π) (consumed examined : Nat) (stop oom : Bool) :
    PipeMoves o p (.advance consumed examined) stop oom (p.advance o consumed examined) := by
  unfold Pipe.advance
  split
  · rename_i hr
    exact .advanceThrow _ (.inl hr)
  · rename_i hr
    simp only [Bool.not_eq_true] at hr
    split
    · rename_i hp
      exact .advanceThrow _ (.inr (.inl (by simpa using hp)))
    · rename_i hp
      split
      · rename_i he
        exact .advanceThrow _ (.inr (.inr he))
      · rename_i he
        have hp' : p.hasPendingRead = true := by simpa using hp
        have he' : examined ≤ p.pendingReadSize := by omega
        dsimp only
        split
        · rename_i hx
          exact .advanceFault _ hr hp' he' (by rw [hx]; exact fun h => nomatch h) (.inl rfl)
        · rename_i e hx
          exact .advanceFault _ hr hp' he' (by rw [hx]; exact fun h => nomatch h) (.inr ⟨e, rfl⟩)
        · rename_i hx
          exact .advance _ _ hr hp' he' hx rfl rfl

/-- Every piece is one of the cases. -/
theorem pipe_moves (o : ValidatedOptions) (l : PipeLocal) (p : Pipe ρ π) (stop oom : Bool) :
    PipeMoves o p l stop oom ((pipeline ρ o).exec l p stop oom) := by
  cases l with
  | writeTop call data copied token =>
    show PipeMoves o p _ stop oom (p.writeTop call data copied token)
    unfold Pipe.writeTop
    split
    · rename_i hc
      exact .topThrow hc
    · rename_i hc
      exact .topWait (by simpa using hc)
  | writeLoop call data copied notify token => exact writeLoop_moves o p call data copied notify token stop oom
  | readTop minSize token => exact readTop_moves o p minSize token stop oom
  | readAfterWait minSize token => exact .readAfter
  | advance consumed examined => exact advance_moves o p consumed examined stop oom
  | completeWriter => exact .completeWriter
  | completeReader => exact .completeReader

omit [MemoryResource ρ π] in
/-- The checks of `advance` under the lock are exclusive of what it goes on with. -/
theorem not_advanceThrow {p : Pipe ρ π} {examined : Nat} (hr : p.readerCompleted = false)
    (hp : p.hasPendingRead = true) (he : examined ≤ p.pendingReadSize) :
    ¬ (p.readerCompleted = true ∨ p.hasPendingRead = false ∨ p.pendingReadSize < examined) := by
  rintro (h | h | h)
  · rw [hr] at h
    cases h
  · rw [hp] at h
    cases h
  · omega

/-- Everything a call can do before it first locks the mutex. -/
inductive PipeEnters (n : Nat) : PipeOp → List PipeEvent → Option PipeLocal → Prop
  | writeNothing (data : Span) (token : Option Nat) (h : data.bytes = []) :
      PipeEnters n (.write data token) [.writeCall n data.bytes, .writeReturn n 0 false] none
  | write (data : Span) (token : Option Nat) (h : data.bytes ≠ []) :
      PipeEnters n (.write data token) [.writeCall n data.bytes] (some (.writeTop n data.bytes 0 token))
  | read (minSize : Nat) (token : Option Nat) :
      PipeEnters n (.readAtLeast minSize token) [] (some (.readTop minSize token))
  | advanceThrow (consumed examined : Position) (e : Exn) (h : examined.offset < consumed.offset) :
      PipeEnters n (.advance consumed examined) [.advanceThrow e] none
  | advance (consumed examined : Position) (h : consumed.offset ≤ examined.offset) :
      PipeEnters n (.advance consumed examined) [] (some (.advance consumed.offset examined.offset))
  | completeWriter : PipeEnters n .completeWriter [] (some .completeWriter)
  | completeReader : PipeEnters n .completeReader [] (some .completeReader)

theorem pipe_enters (op : PipeOp) (n : Nat) : PipeEnters n op (op.enter n).1 (op.enter n).2 := by
  cases op with
  | write data token =>
    by_cases h : data.bytes = []
    · have e : (PipeOp.write data token).enter n = ([.writeCall n data.bytes, .writeReturn n 0 false], none) := by
        simp [PipeOp.enter, h]
      rw [e]; exact .writeNothing data token h
    · have e : (PipeOp.write data token).enter n =
          ([.writeCall n data.bytes], some (.writeTop n data.bytes 0 token)) := by
        simp [PipeOp.enter, h]
      rw [e]; exact .write data token h
  | readAtLeast minSize token => exact .read minSize token
  | advance consumed examined =>
    by_cases h : examined.offset < consumed.offset
    · have e : (PipeOp.advance consumed examined).enter n =
          ([.advanceThrow (.invalidArgument "consumed must be <= examined")], none) := by
        simp [PipeOp.enter, Position.sequenceOffset, h]
      rw [e]; exact .advanceThrow consumed examined _ h
    · have e : (PipeOp.advance consumed examined).enter n =
          ([], some (.advance consumed.offset examined.offset)) := by
        simp [PipeOp.enter, Position.sequenceOffset, h]
      rw [e]; exact .advance consumed examined (by omega)
  | completeWriter => exact .completeWriter
  | completeReader => exact .completeReader

/-- A call that goes on to lock the mutex. -/
theorem pipe_enters_of_some {op : PipeOp} {n : Nat} {l : PipeLocal} (h : (op.enter n).2 = some l) :
    ∃ evs, PipeEnters n op evs (some l) := by
  rw [← h]
  exact ⟨_, pipe_enters op n⟩

/-- What a call shows before it first locks the mutex: the data of a write, or that it ends at once. -/
theorem enter_events {op : PipeOp} {n : Nat} {e : PipeEvent} (h : e ∈ (op.enter n).1) :
    (∃ data, e = .writeCall n data) ∨ (∃ copied stop, e = .writeReturn n copied stop) ∨ ∃ ex, e = .advanceThrow ex := by
  have hen := pipe_enters op n
  generalize (op.enter n).1 = evs at hen h
  generalize (op.enter n).2 = l? at hen
  cases hen with
  | writeNothing =>
    rcases List.mem_pair.1 h with rfl | rfl
    · exact .inl ⟨_, rfl⟩
    · exact .inr (.inl ⟨_, _, rfl⟩)
  | write => exact .inl ⟨_, List.mem_singleton.1 h⟩
  | advanceThrow => exact .inr (.inr ⟨_, List.mem_singleton.1 h⟩)
  | _ => cases h

/-! ### The parts -/

section

omit [MemoryResource ρ π]

theorem writeUnlock_cases (p : Pipe ρ π) (call : Nat) (data : List Byte) (copied : Nat) (notify : Bool)
    (token : Option Nat) (stop : Bool) :
    (data = [] ∧ p.writeUnlock call data copied notify token stop =
      ⟨p, [], .release (if notify then [.one .dataAvailable] else []) (.done [.writeReturn call copied stop])⟩) ∨
    (data ≠ [] ∧ p.writeUnlock call data copied notify token stop =
      ⟨p, [], .release (if notify then [.one .dataAvailable] else []) (.again (.writeTop call data copied token))⟩) := by
  by_cases h : data = []
  · exact .inl ⟨h, by simp [Pipe.writeUnlock, h]⟩
  · exact .inr ⟨h, by simp [Pipe.writeUnlock, h]⟩

theorem readTail_cases (p : Pipe ρ π) (stop : Bool) :
    (stop = true ∧ p.readTail stop = ⟨p, [], .release [] (.done [.readCancelled])⟩) ∨
    (stop = false ∧ p.readTail stop =
      ⟨{ p with hasPendingRead := true, pendingReadSize := (makeReadableView p.segments).size },
        [.readReturn (makeReadableView p.segments) p.writerCompleted], .release [] (.done [])⟩) := by
  cases stop with
  | true => exact .inl ⟨rfl, rfl⟩
  | false => exact .inr ⟨rfl, rfl⟩

/-- After its inner loop `write` goes on at its top, if at all. -/
theorem writeUnlock_local {p : Pipe ρ π} {call : Nat} {data : List Byte} {copied : Nat} {notify : Bool}
    {token : Option Nat} {stop : Bool} {l : PipeLocal}
    (h : (p.writeUnlock call data copied notify token stop).next.local? = some l) :
    l = .writeTop call data copied token := by
  rcases writeUnlock_cases p call data copied notify token stop with ⟨-, he⟩ | ⟨-, he⟩ <;> rw [he] at h <;> cases h
  rfl

/-- A read ends after its wait. -/
theorem readTail_next (p : Pipe ρ π) (stop : Bool) :
    (p.readTail stop).next = .release [] (.done (p.readTail stop).next.doneEvents) := by
  rcases readTail_cases p stop with ⟨-, he⟩ | ⟨-, he⟩ <;> rw [he] <;> rfl

theorem readTail_local (p : Pipe ρ π) (stop : Bool) : (p.readTail stop).next.local? = none := by
  rw [readTail_next]; rfl

theorem copyToBack_frame (p : Pipe ρ π) (source : List Byte) :
    ∃ segs, (p.copyToBack source).1 = { p with segments := segs } := by
  unfold Pipe.copyToBack
  split
  · exact ⟨p.segments, rfl⟩
  · exact ⟨_, rfl⟩

end

theorem getSegment_frame {o : ValidatedOptions} {p p' : Pipe ρ π} {oom : Bool} (h : p.getSegment o oom = some p') :
    ∃ r segs a, p' = { p with allocator := r, segments := segs, actualBufferedSize := a } := by
  unfold Pipe.getSegment at h
  split at h
  · split at h
    · cases h
    · cases h
      exact ⟨_, _, _, rfl⟩
  · cases h
    exact ⟨_, _, _, rfl⟩

/-- Copying a chunk changes the segments and the byte counts only. -/
theorem copyChunk_frame {o : ValidatedOptions} {p q : Pipe ρ π} {data : List Byte} {capacity n : Nat} {oom : Bool}
    (h : p.copyChunk o data capacity oom = some (q, n)) :
    ∃ r segs b a, q = { p with allocator := r, segments := segs, bufferedSize := b, actualBufferedSize := a } := by
  unfold Pipe.copyChunk at h
  dsimp only at h
  split at h
  · cases h
  · rename_i p' hg
    obtain ⟨r, segs, a, rfl⟩ := getSegment_frame hg
    simp only [Option.some.injEq, Prod.mk.injEq] at h
    obtain ⟨rfl, -⟩ := h
    obtain ⟨segs', hs⟩ := copyToBack_frame
      { p with allocator := r, segments := segs, actualBufferedSize := a } (data.take (min data.length capacity))
    rw [hs]
    exact ⟨_, _, _, _, rfl⟩

/-! ### The end of a call -/

/-- The events that end a call. -/
def PipeEvent.isEnd : PipeEvent → Bool
  | writeReturn _ _ _ | writeThrow _ _ | readCancelled | readThrow _ | advanceThrow _ | advanceUndefined => true
  | _ => false

/-- Nothing else is shown after the lock is released. -/
theorem doneEvents_isEnd (o : ValidatedOptions) (l : PipeLocal) (p : Pipe ρ π) (stop oom : Bool) :
    ∀ e ∈ ((pipeline ρ o).exec l p stop oom).next.doneEvents, e.isEnd = true := by
  have hm := pipe_moves o l p stop oom
  generalize (pipeline ρ o).exec l p stop oom = r at hm ⊢
  have unlock : ∀ (p : Pipe ρ π) (call data copied notify token stop),
      ∀ e ∈ (p.writeUnlock call data copied notify token stop).next.doneEvents, e.isEnd = true := by
    intro p call data copied notify token stop
    rcases writeUnlock_cases p call data copied notify token stop with ⟨-, he⟩ | ⟨-, he⟩ <;> rw [he]
    · simp [Next.doneEvents, PipeEvent.isEnd]
    · simp [Next.doneEvents]
  have tail : ∀ (p : Pipe ρ π) (stop), ∀ e ∈ (p.readTail stop).next.doneEvents, e.isEnd = true := by
    intro p stop
    rcases readTail_cases p stop with ⟨-, he⟩ | ⟨-, he⟩ <;> rw [he]
    · simp [Next.doneEvents, PipeEvent.isEnd]
    · simp [Next.doneEvents]
  cases hm with
  | leave => exact unlock _ _ _ _ _ _ _
  | pause => exact unlock _ _ _ _ _ _ _
  | readNow => exact tail _ _
  | readAfter => exact tail _ _
  | advanceFault evs _ _ _ _ hevs =>
    rcases hevs with rfl | ⟨e, rfl⟩ <;> simp [Next.doneEvents, PipeEvent.isEnd]
  | _ => simp [Next.doneEvents, PipeEvent.isEnd, Pipe.completeWriter, Pipe.completeReader]

/-- A successful read returns a view of the segments and leaves a pending read of its size. -/
theorem readReturn_piece {o : ValidatedOptions} {l : PipeLocal} {p : Pipe ρ π} {stop oom : Bool}
    {buffer : SegmentedByteView} {completed : Bool}
    (h : .readReturn buffer completed ∈ ((pipeline ρ o).exec l p stop oom).events) :
    buffer = makeReadableView p.segments ∧ completed = p.writerCompleted ∧
      ∃ waiting, (pipeline ρ o).exec l p stop oom =
        ⟨{ p with readerWaiting := waiting, hasPendingRead := true, pendingReadSize := buffer.size },
          [.readReturn buffer completed], .release [] (.done [])⟩ := by
  have hm := pipe_moves o l p stop oom
  generalize (pipeline ρ o).exec l p stop oom = r at hm h ⊢
  have tail : ∀ waiting, .readReturn buffer completed ∈
      (({ p with readerWaiting := waiting } : Pipe ρ π).readTail stop).events →
      buffer = makeReadableView p.segments ∧ completed = p.writerCompleted ∧
      ∃ waiting', ({ p with readerWaiting := waiting } : Pipe ρ π).readTail stop =
        ⟨{ p with readerWaiting := waiting', hasPendingRead := true, pendingReadSize := buffer.size },
          [.readReturn buffer completed], .release [] (.done [])⟩ := by
    intro waiting h
    rcases readTail_cases { p with readerWaiting := waiting } stop with ⟨-, he⟩ | ⟨-, he⟩ <;> rw [he] at h ⊢
    · cases h
    · simp only [List.mem_singleton, PipeEvent.readReturn.injEq] at h
      obtain ⟨rfl, rfl⟩ := h
      exact ⟨rfl, rfl, waiting, rfl⟩
  cases hm with
  | readNow => exact tail p.readerWaiting h
  | readAfter => exact tail false h
  | leave => cases h
  | pause => cases h
  | _ => simp_all [Pipe.completeWriter, Pipe.completeReader]

/-- Only `complete_writer` shows that the writer is completed. -/
theorem writerCompleted_piece {o : ValidatedOptions} {l : PipeLocal} {p : Pipe ρ π} {stop oom : Bool}
    (h : .writerCompleted ∈ ((pipeline ρ o).exec l p stop oom).events) : l = .completeWriter := by
  have hm := pipe_moves o l p stop oom
  generalize (pipeline ρ o).exec l p stop oom = r at hm h
  have tail : ∀ q : Pipe ρ π, .writerCompleted ∉ (q.readTail stop).events := by
    intro q
    rcases readTail_cases q stop with ⟨-, he⟩ | ⟨-, he⟩ <;> rw [he] <;> simp
  cases hm with
  | completeWriter => rfl
  | readNow => exact absurd h (tail _)
  | readAfter => exact absurd h (tail _)
  | leave => cases h
  | pause => cases h
  | _ => simp [Pipe.completeReader] at h

/-! ### The endpoints -/

/-- The operations of the write endpoint. -/
def PipeOp.isWriter : PipeOp → Bool
  | write _ _ | completeWriter => true
  | _ => false

def PipeLocal.isWriter : PipeLocal → Bool
  | writeTop _ _ _ _ | writeLoop _ _ _ _ _ | completeWriter => true
  | _ => false

/-- A call enters its own endpoint. -/
theorem endpoint_enter {op : PipeOp} {n : Nat} {l : PipeLocal} (h : (op.enter n).2 = some l) :
    (l = .completeReader → op = .completeReader) ∧ l.isWriter = op.isWriter := by
  obtain ⟨evs, hen⟩ := pipe_enters_of_some h
  cases hen with
  | completeReader => exact ⟨fun _ => rfl, rfl⟩
  | _ => exact ⟨nofun, rfl⟩

/-- A piece goes on in the endpoint of its call, and not at the completion of the reader. -/
theorem endpoint_next {o : ValidatedOptions} {p : Pipe ρ π} {l l' : PipeLocal} {stop oom : Bool}
    (h : ((pipeline ρ o).exec l p stop oom).next.local? = some l') :
    l' ≠ .completeReader ∧ l'.isWriter = l.isWriter := by
  have hm := pipe_moves o l p stop oom
  generalize (pipeline ρ o).exec l p stop oom = r at hm h
  cases hm with
  | topWait => cases h; exact ⟨nofun, rfl⟩
  | leave => rw [writeUnlock_local h]; exact ⟨nofun, rfl⟩
  | pause => rw [writeUnlock_local h]; exact ⟨nofun, rfl⟩
  | chunk => cases h; exact ⟨nofun, rfl⟩
  | readWait => cases h; exact ⟨nofun, rfl⟩
  | readNow => rw [readTail_local] at h; cases h
  | readAfter => rw [readTail_local] at h; cases h
  | _ => cases h

/-! ### The completion flags -/

/-- Only `complete_reader` sets `m_reader_completed`. -/
theorem readerCompleted_piece {o : ValidatedOptions} {p : Pipe ρ π} {l : PipeLocal} (hl : l ≠ .completeReader)
    (stop oom : Bool) : ((pipeline ρ o).exec l p stop oom).shared.readerCompleted = p.readerCompleted := by
  have hm := pipe_moves o l p stop oom
  generalize (pipeline ρ o).exec l p stop oom = r at hm ⊢
  cases hm with
  | chunk q n hd hp hc ha hq =>
    obtain ⟨r, segs, b, a, rfl⟩ := copyChunk_frame hq
    rfl
  | readNow => rcases readTail_cases p stop with ⟨-, he⟩ | ⟨-, he⟩ <;> rw [he]
  | readAfter =>
    rcases readTail_cases { p with readerWaiting := false } stop with ⟨-, he⟩ | ⟨-, he⟩ <;> rw [he]
  | advance q paused hr hp he hx hq hpa => subst hq; rfl
  | completeReader => exact absurd rfl hl
  | _ => rfl

/-- A completed reader stays completed. -/
theorem readerCompleted_mono {o : ValidatedOptions} {p : Pipe ρ π} (l : PipeLocal) (stop oom : Bool)
    (h : p.readerCompleted = true) : ((pipeline ρ o).exec l p stop oom).shared.readerCompleted = true := by
  by_cases hl : l = .completeReader
  · subst hl; rfl
  · rw [readerCompleted_piece hl]; exact h

/-- A completed writer stays completed. -/
theorem writerCompleted_mono {o : ValidatedOptions} {p : Pipe ρ π} (l : PipeLocal) (stop oom : Bool)
    (h : p.writerCompleted = true) : ((pipeline ρ o).exec l p stop oom).shared.writerCompleted = true := by
  have hm := pipe_moves o l p stop oom
  generalize (pipeline ρ o).exec l p stop oom = r at hm ⊢
  cases hm with
  | chunk q n hd hp hc ha hq =>
    obtain ⟨r, segs, b, a, rfl⟩ := copyChunk_frame hq
    exact h
  | readNow => rcases readTail_cases p stop with ⟨-, he⟩ | ⟨-, he⟩ <;> rw [he] <;> exact h
  | readAfter =>
    rcases readTail_cases { p with readerWaiting := false } stop with ⟨-, he⟩ | ⟨-, he⟩ <;> rw [he] <;> exact h
  | advance q paused hr hp he hx hq hpa => subst hq; exact h
  | completeWriter => rfl
  | _ => exact h

end Xtd
