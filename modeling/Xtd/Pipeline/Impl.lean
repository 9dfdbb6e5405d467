import Xtd.Concurrency.Monitor
import Xtd.Pipeline.Options
import Xtd.Pipeline.View

/-!
# The pipeline

`pipeline_impl.h` as a monitor: the members guarded by `m_mutex`, the predicates of the two condition variables and the
pieces of `write`, `read_at_least`, `advance`, `complete_writer` and `complete_reader` that run with the lock held.
`write` is cut at the head of its outer loop, at its wait and at every pass of its inner loop, `read_at_least` at its
wait; a stop request can come at each of these points.  The calls are numbered and show what they do as events.
-/

namespace Xtd

open Concurrency

/-- A `std::span<const std::byte>`: its size is a `size_t`. -/
structure Span where
  bytes : List Byte
  size_lt : bytes.length < SizeT.modulus

def Span.oneToThree : Span := ⟨[1, 2, 3], by decide⟩

def Span.oneToFive : Span := ⟨[1, 2, 3, 4, 5], by decide⟩

/-- The members of `pipeline` guarded by its mutex; the thresholds and the segment size are the validated options. -/
structure Pipe (ρ π : Type) where
  allocator : ρ
  segments : List (DataSegment π)
  bufferedSize : Nat
  actualBufferedSize : Nat
  examinedSize : Nat
  pendingReadSize : Nat
  readerWaiting : Bool
  hasPendingRead : Bool
  writerCompleted : Bool
  readerCompleted : Bool
  writerPaused : Bool

inductive CondVar
  | dataAvailable
  | spaceAvailable
  deriving DecidableEq

/-- What the calls of the pipeline show.  `commit` and `advanced` carry the bytes copied into a segment and the bytes
dropped from the segments; `writeReturn` also says whether the stop token asked for a stop. -/
inductive PipeEvent
  | writeCall (call : Nat) (data : List Byte)
  | commit (call : Nat) (bytes : List Byte)
  | writeReturn (call : Nat) (copied : Nat) (stop : Bool)
  | writeThrow (call : Nat) (e : Exn)
  | readReturn (buffer : SegmentedByteView) (completed : Bool)
  | readCancelled
  | readThrow (e : Exn)
  | advanced (dropped : List Byte)
  | advanceThrow (e : Exn)
  | advanceUndefined
  | writerCompleted
  | readerCompleted

/-- The operations of the two endpoints; stop tokens are numbered, `none` is the default token. -/
inductive PipeOp
  | write (data : Span) (token : Option Nat)
  | readAtLeast (minSize : Nat) (token : Option Nat)
  | advance (consumed examined : Position)
  | completeWriter
  | completeReader

/-- The places at which a call holds or waits for the lock, with its local variables. -/
inductive PipeLocal
  | writeTop (call : Nat) (data : List Byte) (copied : Nat) (token : Option Nat)
  | writeLoop (call : Nat) (data : List Byte) (copied : Nat) (notify : Bool) (token : Option Nat)
  | readTop (minSize : Nat) (token : Option Nat)
  | readAfterWait (minSize : Nat) (token : Option Nat)
  | advance (consumed examined : Nat)
  | completeWriter
  | completeReader

abbrev PipePiece (ρ π : Type) := Piece (Pipe ρ π) PipeLocal CondVar PipeEvent

namespace Pipe

variable {ρ π : Type}

/-- A new pipeline over a memory resource. -/
def new (r : ρ) : Pipe ρ π := ⟨r, [], 0, 0, 0, 0, false, false, false, false, false⟩

def dataAvailable (p : Pipe ρ π) (minSize : Nat) : Bool :=
  p.writerCompleted ||
    (decide (p.bufferedSize > p.examinedSize) && (decide (minSize = 0) || decide (p.bufferedSize ≥ minSize)))

def spaceAvailable (p : Pipe ρ π) : Bool := !p.writerPaused

def shouldResumeWriter (o : ValidatedOptions) (p : Pipe ρ π) : Bool :=
  decide (o.bufferSize ≤ o.resumeWriterThreshold) && decide (p.actualBufferedSize < o.pauseWriterThreshold)

def hasWritableTail (p : Pipe ρ π) : Bool :=
  match p.segments.getLast? with
  | none => false
  | some back => !back.full

def segmentAllocationCapacity (o : ValidatedOptions) (p : Pipe ρ π) : Nat :=
  if p.actualBufferedSize < o.pauseWriterThreshold then SizeT.sub o.pauseWriterThreshold p.actualBufferedSize else 0

/-- `m_segments.back().writable_size()`. -/
def backWritableSize (p : Pipe ρ π) : Nat :=
  match p.segments.getLast? with
  | none => 0
  | some back => back.writableSize

def writerAvailableCapacity (o : ValidatedOptions) (p : Pipe ρ π) : Nat :=
  if p.hasWritableTail then p.backWritableSize
  else if p.segmentAllocationCapacity o ≥ o.bufferSize then o.bufferSize else 0

def shouldPauseWriter (o : ValidatedOptions) (p : Pipe ρ π) : Bool :=
  !p.hasWritableTail && decide (p.segmentAllocationCapacity o < o.bufferSize)

def isAnyCompleted (p : Pipe ρ π) : Bool := p.writerCompleted || p.readerCompleted

/-! ### `read_at_least` -/

/-- `read_at_least` after its wait. -/
def readTail (p : Pipe ρ π) (stop : Bool) : PipePiece ρ π :=
  if stop then ⟨p, [], .release [] (.done [.readCancelled])⟩
  else
    let buffer := makeReadableView p.segments
    ⟨{ p with hasPendingRead := true, pendingReadSize := buffer.size }, [.readReturn buffer p.writerCompleted],
      .release [] (.done [])⟩

def readTop (p : Pipe ρ π) (minSize : Nat) (token : Option Nat) (stop : Bool) : PipePiece ρ π :=
  if p.hasPendingRead then
    ⟨p, [], .release [] (.done
      [.readThrow (.logicError "advance(consumed, examined) must be called before the next read")])⟩
  else if p.readerCompleted then
    ⟨p, [], .release [] (.done [.readThrow (.logicError "pipeline reader is completed")])⟩
  else if !p.writerCompleted then
    ⟨{ p with readerWaiting := true }, [], .wait .dataAvailable (.readAfterWait minSize token)⟩
  else p.readTail stop

def readAfterWait (p : Pipe ρ π) (stop : Bool) : PipePiece ρ π :=
  ({ p with readerWaiting := false } : Pipe ρ π).readTail stop

/-! ### `advance` -/

/-- How the loop of `advance` ends; `front()` on an empty deque is undefined behaviour. -/
inductive AdvanceExit
  | done
  | emptyFront
  | threw (e : Exn)
  deriving DecidableEq

/-- The result of the loop of `advance`: the members it has changed, the bytes it has dropped and, for every
subtraction it has made, the minuend and the subtrahend. -/
structure AdvanceLoop (ρ π : Type) where
  allocator : ρ
  segments : List (DataSegment π)
  bufferedSize : Nat
  actualBufferedSize : Nat
  dropped : List Byte
  subtractions : List (Nat × Nat)
  exit : AdvanceExit

/-- `while (remaining_consumed > 0)` of `advance`. -/
def advanceLoop [MemoryResource ρ π] (bufferSize : Nat) : (segments : List (DataSegment π)) → (allocator : ρ) →
    (remaining buffered actual : Nat) → AdvanceLoop ρ π
  | [], r, remaining, b, a => ⟨r, [], b, a, [], [], if remaining > 0 then .emptyFront else .done⟩
  | head :: tail, r, remaining, b, a =>
    if remaining > 0 then
      let readableSize := head.readableSize
      if remaining < readableSize then
        match head.advanceRead remaining with
        | .error e => ⟨r, head :: tail, b, a, [], [], .threw e⟩
        | .ok head' =>
          ⟨r, head' :: tail, SizeT.sub b remaining, a, head.readableBytes.take remaining, [(b, remaining)], .done⟩
      else
        let rest := advanceLoop bufferSize tail (MemoryResource.deallocate r head.buffer head.capacity)
          (SizeT.sub remaining readableSize) (SizeT.sub b readableSize) (SizeT.sub a bufferSize)
        { rest with
          dropped := head.readableBytes ++ rest.dropped
          subtractions := (remaining, readableSize) :: (b, readableSize) :: (a, bufferSize) :: rest.subtractions }
    else ⟨r, head :: tail, b, a, [], [], .done⟩

/-- The loop of `advance` as it is started in `p`. -/
def consume [MemoryResource ρ π] (o : ValidatedOptions) (p : Pipe ρ π) (consumed : Nat) : AdvanceLoop ρ π :=
  advanceLoop o.bufferSize p.segments p.allocator consumed p.bufferedSize p.actualBufferedSize

/-- The members the loop of `advance` has changed. -/
def afterConsume [MemoryResource ρ π] (o : ValidatedOptions) (p : Pipe ρ π) (consumed : Nat) : Pipe ρ π :=
  let loop := p.consume o consumed
  { p with
    allocator := loop.allocator
    segments := loop.segments
    bufferedSize := loop.bufferedSize
    actualBufferedSize := loop.actualBufferedSize }

/-- `advance` with the lock held; the check `consumed <= examined` is made before. -/
def advance [MemoryResource ρ π] (o : ValidatedOptions) (p : Pipe ρ π) (consumed examined : Nat) : PipePiece ρ π :=
  if p.readerCompleted then
    ⟨p, [], .release [] (.done [.advanceThrow (.logicError "pipeline reader is completed")])⟩
  else if !p.hasPendingRead then
    ⟨p, [], .release [] (.done [.advanceThrow (.logicError "advance called without a pending read")])⟩
  else if examined > p.pendingReadSize then
    ⟨p, [], .release [] (.done
      [.advanceThrow (.outOfRange "examined exceeds the most recent read buffer length")])⟩
  else
    let loop := p.consume o consumed
    match loop.exit with
    | .emptyFront => ⟨p.afterConsume o consumed, [], .release [] (.done [.advanceUndefined])⟩
    | .threw e => ⟨p.afterConsume o consumed, [], .release [] (.done [.advanceThrow e])⟩
    | .done =>
      let p' := { p.afterConsume o consumed with examinedSize := SizeT.sub examined consumed }
      let paused := p'.writerPaused && !p'.shouldResumeWriter o
      ⟨{ p' with writerPaused := paused, pendingReadSize := 0, hasPendingRead := false }, [.advanced loop.dropped],
        .release (if p.writerPaused && !paused then [.one .spaceAvailable] else []) (.done [])⟩

/-! ### `write` -/

/-- `get_segment`, up to the reference it returns; fails if the memory resource does. -/
def getSegment [MemoryResource ρ π] (o : ValidatedOptions) (p : Pipe ρ π) (oom : Bool) : Option (Pipe ρ π) :=
  if p.segments.getLast?.all DataSegment.full then
    match MemoryResource.allocate p.allocator o.bufferSize oom with
    | none => none
    | some (buffer, r) =>
      some { p with
        allocator := r
        segments := p.segments ++ [.new buffer o.bufferSize]
        actualBufferedSize := SizeT.add p.actualBufferedSize o.bufferSize }
  else some p

/-- `copy_from` on the last segment. -/
def copyToBack (p : Pipe ρ π) (source : List Byte) : Pipe ρ π × Nat :=
  match p.segments.getLast? with
  | none => (p, 0)
  | some back =>
    ({ p with segments := p.segments.dropLast ++ [(back.copyFrom source).1] }, (back.copyFrom source).2)

def writeTop (p : Pipe ρ π) (call : Nat) (data : List Byte) (copied : Nat) (token : Option Nat) : PipePiece ρ π :=
  if p.isAnyCompleted then
    ⟨p, [], .release [] (.done [.writeThrow call (.logicError "pipeline is completed")])⟩
  else ⟨p, [], .wait .spaceAvailable (.writeLoop call data copied false token)⟩

/-- `write` after its inner loop: unlock, notify and take the outer loop again or return. -/
def writeUnlock (p : Pipe ρ π) (call : Nat) (data : List Byte) (copied : Nat) (notify : Bool) (token : Option Nat)
    (stop : Bool) : PipePiece ρ π :=
  ⟨p, [], .release (if notify then [.one .dataAvailable] else [])
    (if data.isEmpty then .done [.writeReturn call copied stop] else .again (.writeTop call data copied token))⟩

/-- `get_segment().copy_from(..)` in the inner loop of `write`, with the update of `m_buffered_size`; also returns how
many bytes were copied. -/
def copyChunk [MemoryResource ρ π] (o : ValidatedOptions) (p : Pipe ρ π) (data : List Byte) (availableCapacity : Nat)
    (oom : Bool) : Option (Pipe ρ π × Nat) :=
  let requestedSize := min data.length availableCapacity
  match p.getSegment o oom with
  | none => none
  | some p' =>
    let (p'', copySize) := p'.copyToBack (data.take requestedSize)
    some ({ p'' with bufferedSize := SizeT.add p''.bufferedSize copySize }, copySize)

/-- One pass of the inner loop of `write`. -/
def writeLoop [MemoryResource ρ π] (o : ValidatedOptions) (p : Pipe ρ π) (call : Nat) (data : List Byte)
    (copied : Nat) (notify : Bool) (token : Option Nat) (stop oom : Bool) : PipePiece ρ π :=
  if data.isEmpty || p.writerPaused then p.writeUnlock call data copied notify token stop
  else if p.isAnyCompleted then
    ⟨p, [], .release [] (.done [.writeThrow call (.logicError "pipeline is completed")])⟩
  else if stop then ⟨p, [], .release [] (.done [.writeReturn call copied true])⟩
  else
    let availableCapacity := p.writerAvailableCapacity o
    if availableCapacity = 0 then
      ({ p with writerPaused := true } : Pipe ρ π).writeUnlock call data copied notify token stop
    else
      match p.copyChunk o data availableCapacity oom with
      | none => ⟨p, [], .release [] (.done [.writeThrow call .badAlloc])⟩
      | some (q, copySize) =>
        ⟨{ q with writerPaused := q.writerPaused || q.shouldPauseWriter o }, [.commit call (data.take copySize)],
          .hold (.writeLoop call (data.drop copySize) (SizeT.add copied copySize) (notify || q.readerWaiting) token)⟩

/-! ### Completion -/

def completeWriter (p : Pipe ρ π) : PipePiece ρ π :=
  ⟨{ p with writerPaused := false, writerCompleted := true }, [.writerCompleted],
    .release [.all .dataAvailable, .all .spaceAvailable] (.done [])⟩

/-- The segments stay where they are. -/
def completeReader (p : Pipe ρ π) : PipePiece ρ π :=
  ⟨{ p with
      readerCompleted := true
      hasPendingRead := false
      writerPaused := false
      pendingReadSize := 0
      bufferedSize := 0
      actualBufferedSize := 0
      examinedSize := 0 }, [.readerCompleted],
    .release [.all .spaceAvailable, .all .dataAvailable] (.done [])⟩

end Pipe

/-! ### The monitor -/

namespace PipeLocal

def token : PipeLocal → Option Nat
  | writeTop _ _ _ token | writeLoop _ _ _ _ token => token
  | readTop _ token | readAfterWait _ token => token
  | advance _ _ | completeWriter | completeReader => none

/-- The minimum size a waiting read asks for. -/
def minSize : PipeLocal → Nat
  | readTop minSize _ | readAfterWait minSize _ => minSize
  | _ => 0

end PipeLocal

/-- What a call does before it first locks the mutex. -/
def PipeOp.enter : PipeOp → Nat → List PipeEvent × Option PipeLocal
  | write data token, call =>
    if data.bytes.isEmpty then ([.writeCall call data.bytes, .writeReturn call 0 false], none)
    else ([.writeCall call data.bytes], some (.writeTop call data.bytes 0 token))
  | readAtLeast minSize token, _ => ([], some (.readTop minSize token))
  | advance consumed examined, _ =>
    if consumed.sequenceOffset > examined.sequenceOffset then
      ([.advanceThrow (.invalidArgument "consumed must be <= examined")], none)
    else ([], some (.advance consumed.sequenceOffset examined.sequenceOffset))
  | completeWriter, _ => ([], some .completeWriter)
  | completeReader, _ => ([], some .completeReader)

/-- The pipeline with the given options over a memory resource; the environment chooses whether `operator new`
fails. -/
def pipeline (ρ : Type) {π : Type} [MemoryResource ρ π] (o : ValidatedOptions) :
    Monitor (Pipe ρ π) PipeOp PipeLocal CondVar Bool PipeEvent where
  enter := PipeOp.enter
  token := PipeLocal.token
  pred
    | .dataAvailable, l, p => p.dataAvailable l.minSize
    | .spaceAvailable, _, p => p.spaceAvailable
  exec
    | .writeTop call data copied token, p, _, _ => p.writeTop call data copied token
    | .writeLoop call data copied notify token, p, stop, oom => p.writeLoop o call data copied notify token stop oom
    | .readTop minSize token, p, stop, _ => p.readTop minSize token stop
    | .readAfterWait _ _, p, stop, _ => p.readAfterWait stop
    | .advance consumed examined, p, _, _ => p.advance o consumed examined
    | .completeWriter, p, _, _ => p.completeWriter
    | .completeReader, p, _, _ => p.completeReader

end Xtd
