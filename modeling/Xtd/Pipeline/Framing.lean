import Xtd.Concurrency.Client
import Xtd.Pipeline.ViewOperations
import Xtd.Pipeline.Written
import Xtd.Sequence.Cut

/-!
# Lines from a stream

The delimiter parser of `pipeline.md`: it reads, cuts every complete line off the buffer, advances to the rest and
examines all of it, until a read reports the end of the stream.  The parser is a client of the pipeline.  Between two
calls the lines it has handed out, each with its `'\n'`, are the bytes it has consumed, so in the end the lines are those
of the stream, however the writes and the segments have cut it.
-/

namespace Xtd

open Concurrency

/-- `'\n'`. -/
def newline : Byte := 10

namespace SegmentedByteView

/-- `while (position newline = remaining.position_of('\n'))`: the lines passed to `process_line` and how the loop ends,
if it does within the given number of turns. -/
def lineLoop : (turns : Nat) → (remaining : SegmentedByteView) →
    List SegmentedByteView × Option (Except Exn SegmentedByteView)
  | 0, _ => ([], none)
  | turns + 1, remaining =>
    let position := remaining.positionOf newline
    if position.found then
      match remaining.slice remaining.beginPosition position with
      | .error e => ([], some (.error e))
      | .ok line =>
        match remaining.slice (position.add 1) remaining.endPosition with
        | .error e => ([line], some (.error e))
        | .ok rest => (line :: (lineLoop turns rest).1, (lineLoop turns rest).2)
    else ([], some (.ok remaining))

end SegmentedByteView

/-! ### The parser -/

/-- Where the delimiter parser is: before a read, before the `advance` that follows it, behind its `break`, or out of its
loop by a cancelled read or an exception.  It is `unfinished` if an inner loop takes more turns than there are bytes or
`advance` has undefined behaviour. -/
inductive ParserStage
  | reading
  | advancing (remaining : SegmentedByteView) (completed : Bool)
  | finished (remaining : SegmentedByteView)
  | cancelled
  | threw (e : Exn)
  | unfinished

structure DelimiterParser where
  lines : List SegmentedByteView
  stage : ParserStage

namespace DelimiterParser

def new : DelimiterParser := ⟨[], .reading⟩

/-- What the parser does with a buffer. -/
def parse (g : DelimiterParser) (buffer : SegmentedByteView) (completed : Bool) : DelimiterParser :=
  match buffer.lineLoop (buffer.size + 1) with
  | (lines, some (.ok remaining)) => ⟨g.lines ++ lines, .advancing remaining completed⟩
  | (lines, some (.error e)) => ⟨g.lines ++ lines, .threw e⟩
  | (lines, none) => ⟨g.lines ++ lines, .unfinished⟩

def see (g : DelimiterParser) (e : PipeEvent) : DelimiterParser :=
  match g.stage, e with
  | .reading, .readReturn buffer completed => g.parse buffer completed
  | .reading, .readCancelled => ⟨g.lines, .cancelled⟩
  | .reading, .readThrow e => ⟨g.lines, .threw e⟩
  | .advancing remaining true, .advanced _ => ⟨g.lines, .finished remaining⟩
  | .advancing _ false, .advanced _ => ⟨g.lines, .reading⟩
  | .advancing _ _, .advanceThrow e => ⟨g.lines, .threw e⟩
  | .advancing _ _, .advanceUndefined => ⟨g.lines, .unfinished⟩
  | _, _ => g

def call (token : Option Nat) (g : DelimiterParser) : Option PipeOp :=
  match g.stage with
  | .reading => some (.readAtLeast 0 token)
  | .advancing remaining _ => some (.advance remaining.beginPosition remaining.endPosition)
  | _ => none

end DelimiterParser

/-- The delimiter parser reading with the given stop token. -/
def delimiterParser (token : Option Nat) : Client DelimiterParser PipeOp PipeEvent :=
  ⟨DelimiterParser.call token, DelimiterParser.see⟩

/-- Lines as they stand in the stream, each with its `'\n'`. -/
def terminated (lines : List SegmentedByteView) : List Byte := lines.flatMap fun line => line.flatten ++ [newline]

@[simp] theorem terminated_append (lines lines' : List SegmentedByteView) :
    terminated (lines ++ lines') = terminated lines ++ terminated lines' := by
  simp [terminated]

/-- Lines without `'\n'` are found again. -/
theorem splitOn_terminated {lines : List SegmentedByteView} (hl : ∀ line ∈ lines, newline ∉ line.flatten)
    {rest : List Byte} (hr : newline ∉ rest) :
    (terminated lines ++ rest).splitOn newline = lines.map SegmentedByteView.flatten ++ [rest] := by
  induction lines with
  | nil => exact List.splitOn_eq_singleton hr
  | cons line lines ih =>
    have hline := hl line (by simp)
    have hrest := ih (fun line h => hl line (by simp [h]))
    have happ : terminated (line :: lines) ++ rest = line.flatten ++ newline :: (terminated lines ++ rest) := by
      simp [terminated]
    rw [happ, List.splitOn_append_cons_self, List.splitOn_eq_singleton hline, hrest]
    rfl

/-! ### The inner loop -/

namespace SegmentedByteView

/-- The inner loop ends, throws nothing, and cuts the bytes into lines and a rest without `'\n'`. -/
theorem lineLoop_spec {v : SegmentedByteView} (hv : v.WellFormed) (hfit : v.beginOffset + v.size < SizeT.modulus)
    {turns : Nat} (hturns : v.size < turns) :
    ∃ lines rest, v.lineLoop turns = (lines, some (.ok rest)) ∧ rest.WellFormed ∧
      v.flatten = terminated lines ++ rest.flatten ∧ (∀ line ∈ lines, newline ∉ line.flatten) ∧
      newline ∉ rest.flatten ∧ rest.beginOffset + rest.size = v.beginOffset + v.size ∧
      rest.beginOffset = v.beginOffset + (terminated lines).length := by
  induction turns generalizing v with
  | zero => omega
  | succ turns ih =>
    unfold lineLoop
    dsimp only
    rw [positionOf_eq hv]
    cases hfound : v.flatten.idxOf? newline with
    | none =>
      exact ⟨[], v, rfl, hv, rfl, by simp, List.idxOf?_eq_none_iff.1 hfound, rfl, rfl⟩
    | some i =>
      obtain ⟨hi, hcut, hfree⟩ := Sequence.cut_of_idxOf? hfound
      have hsize := hv.size_eq
      have hpos : place v.beginOffset (some i) = ⟨v.beginOffset + i, true⟩ := by
        rw [place, SizeT.add_eq (by omega)]
      have hnext : Position.add ⟨v.beginOffset + i, true⟩ 1 = ⟨v.beginOffset + i + 1, true⟩ := by
        rw [Position.add, SizeT.add_eq (by dsimp only; omega)]
      have hend : v.endPosition = ⟨v.beginOffset + v.size, true⟩ := by
        rw [endPosition, endOffset, SizeT.add_eq hfit]
      obtain ⟨line, hslice, -, -, -, hline⟩ := slice_spec hv hfit v.beginPosition
        ⟨v.beginOffset + i, true⟩ (Nat.le_refl _) (Nat.le_add_right _ _) (by dsimp only; omega)
      obtain ⟨rest, hslice', hrest, hbegin', hsize', hrest'⟩ := slice_spec hv hfit
        ⟨v.beginOffset + i + 1, true⟩ ⟨v.beginOffset + v.size, true⟩
        (by dsimp only; omega) (by dsimp only; omega) (Nat.le_refl _)
      have hline : line.flatten = v.flatten.take i := by
        rw [hline]
        simp [beginPosition]
      have hrest' : rest.flatten = v.flatten.drop (i + 1) := by
        rw [hrest']
        dsimp only
        rw [show v.beginOffset + i + 1 - v.beginOffset = i + 1 by omega]
        exact List.take_of_length_le (by rw [List.length_drop]; omega)
      dsimp only at hbegin' hsize'
      obtain ⟨lines, last, hloop, hlast, hbytes, hlines, hnone, hlastEnd, hlastBegin⟩ :=
        ih hrest (by omega) (by omega)
      refine ⟨line :: lines, last, ?_, hlast, ?_, ?_, hnone, by omega, ?_⟩
      · rw [hpos, hslice, hnext, hend, hslice']
        dsimp only
        rw [hloop]
        rfl
      · have happ : terminated (line :: lines) = v.flatten.take i ++ newline :: terminated lines := by
          simp [terminated, hline]
        rw [happ, List.append_assoc, List.cons_append, ← hbytes, hrest']
        exact hcut
      · intro line' hmem
        rcases List.mem_cons.1 hmem with rfl | hmem
        · rw [hline]
          exact hfree
        · exact hlines line' hmem
      · have hlen : line.flatten.length = i := by
          rw [hline, List.length_take]
          omega
        have happ : (terminated (line :: lines)).length = i + 1 + (terminated lines).length := by
          simp only [terminated, List.flatMap_cons, List.length_append, List.length_singleton, hlen]
        omega

end SegmentedByteView

/-! ### Writers -/

variable {ρ π τ : Type} [MemoryResource ρ π] [DecidableEq τ] [Fintype τ] {o : ValidatedOptions} {p q : Pipe ρ π}

/-- What a reader sees of a piece of a writer: there may be more bytes, unless the writer is completed. -/
structure Extends (p q : Pipe ρ π) (more : List Byte) : Prop where
  pending : q.hasPendingRead = p.hasPendingRead
  pendingSize : q.pendingReadSize = p.pendingReadSize
  bytes : readableBytes q.segments = readableBytes p.segments ++ more
  completed : p.writerCompleted = true → q.writerCompleted = true ∧ more = []

omit [MemoryResource ρ π] in
private theorem Extends.refl (p : Pipe ρ π) : Extends p p [] := ⟨rfl, rfl, by simp, fun h => ⟨h, rfl⟩⟩

/-- A piece of a writer leaves the pending read, may add bytes, and neither drops nor returns any. -/
private theorem writer_piece (hA : Accounted o p) {l : PipeLocal} (hl : l.isWriter = true) (stop oom : Bool) :
    (∃ more, Extends p ((pipeline ρ o).exec l p stop oom).shared more) ∧
      ∀ e ∈ ((pipeline ρ o).exec l p stop oom).events,
        e.droppedBytes = [] ∧ ∀ b completed, e ≠ .readReturn b completed := by
  have hm := pipe_moves o l p stop oom
  generalize (pipeline ρ o).exec l p stop oom = r at hm ⊢
  cases hm with
  | topThrow => exact ⟨⟨[], .refl p⟩, List.forall_mem_nil _⟩
  | topWait => exact ⟨⟨[], .refl p⟩, List.forall_mem_nil _⟩
  | leave => exact ⟨⟨[], .refl p⟩, List.forall_mem_nil _⟩
  | loopThrow => exact ⟨⟨[], .refl p⟩, List.forall_mem_nil _⟩
  | loopStop => exact ⟨⟨[], .refl p⟩, List.forall_mem_nil _⟩
  | pause => exact ⟨⟨[], rfl, rfl, by simp [Pipe.writeUnlock], fun h => ⟨h, rfl⟩⟩, List.forall_mem_nil _⟩
  | loopOom => exact ⟨⟨[], .refl p⟩, List.forall_mem_nil _⟩
  | chunk q n hd hp hc ha hq =>
    obtain ⟨-, -, -, hbytes, -⟩ := copyChunk_spec hA hd ha hq
    obtain ⟨r, segs, b, a, hframe⟩ := copyChunk_frame hq
    refine ⟨⟨_, by rw [hframe], by rw [hframe], hbytes, ?_⟩, by simp [PipeEvent.droppedBytes]⟩
    intro hw
    simp [Pipe.isAnyCompleted, hw] at hc
  | completeWriter =>
    exact ⟨⟨[], rfl, rfl, by simp [Pipe.completeWriter], fun _ => ⟨rfl, rfl⟩⟩,
      by simp [Pipe.completeWriter, PipeEvent.droppedBytes]⟩
  | _ => cases hl

/-! ### The parser in a run -/

/-- Where the parser is, the place of its call, and what it has handed out of the stream so far. -/
inductive Framed (token : Option Nat) (tr : List PipeEvent) (p : Pipe ρ π) :
    DelimiterParser → Option PipeLocal → Prop
  | reading (lines : List SegmentedByteView) (l? : Option PipeLocal)
      (hl : ∀ l, l? = some l → l = .readTop 0 token ∨ l = .readAfterWait 0 token) (hpending : p.hasPendingRead = false)
      (hlines : dropped tr = terminated lines) : Framed token tr p ⟨lines, .reading⟩ l?
  | advancing (lines : List SegmentedByteView) (remaining : SegmentedByteView) (completed : Bool)
      (l? : Option PipeLocal) (more : List Byte)
      (hl : ∀ l, l? = some l → l = .advance remaining.beginOffset (remaining.beginOffset + remaining.size))
      (hpending : p.hasPendingRead = true) (hsize : p.pendingReadSize = remaining.beginOffset + remaining.size)
      (hbytes : dropped tr ++ readableBytes p.segments = terminated lines ++ remaining.flatten ++ more)
      (hbegin : (terminated lines).length = (dropped tr).length + remaining.beginOffset)
      (hcompleted : completed = true → p.writerCompleted = true ∧ more = [])
      (hfree : newline ∉ remaining.flatten) : Framed token tr p ⟨lines, .advancing remaining completed⟩ l?
  | finished (lines : List SegmentedByteView) (remaining : SegmentedByteView) (hw : p.writerCompleted = true)
      (hbytes : dropped tr ++ readableBytes p.segments = terminated lines ++ remaining.flatten)
      (hfree : newline ∉ remaining.flatten) : Framed token tr p ⟨lines, .finished remaining⟩ none
  | cancelled (lines : List SegmentedByteView) : Framed token tr p ⟨lines, .cancelled⟩ none

variable {token : Option Nat} {tr evs : List PipeEvent} {g : DelimiterParser} {l? : Option PipeLocal}

omit [MemoryResource ρ π] in
/-- What others do does not disturb the parser. -/
theorem Framed.other (h : Framed token tr p g l?) {more : List Byte} (hq : Extends p q more) (hd : dropped evs = []) :
    Framed token (tr ++ evs) q g l? := by
  have hd' : dropped (tr ++ evs) = dropped tr := by rw [dropped_append, hd, List.append_nil]
  cases h with
  | reading lines _ hl hpending hlines =>
    exact .reading lines _ hl (hq.pending.trans hpending) (hd'.trans hlines)
  | advancing lines remaining completed _ more' hl hpending hsize hbytes hbegin hcompleted hfree =>
    refine .advancing lines remaining completed _ (more' ++ more) hl (hq.pending.trans hpending)
      (hq.pendingSize.trans hsize) ?_ (by rw [hd']; exact hbegin) ?_ hfree
    · rw [hd', hq.bytes, ← List.append_assoc, hbytes]
      simp
    · intro hc
      obtain ⟨hw, rfl⟩ := hcompleted hc
      obtain ⟨hw', rfl⟩ := hq.completed hw
      exact ⟨hw', rfl⟩
  | finished lines remaining hw hbytes hfree =>
    obtain ⟨hw', rfl⟩ := hq.completed hw
    refine .finished lines remaining hw' ?_ hfree
    rw [hd', hq.bytes, List.append_nil]
    exact hbytes
  | cancelled lines => exact .cancelled lines

/-- No line handed out so far contains a `'\n'`. -/
def DelimiterParser.Clean (g : DelimiterParser) : Prop := ∀ line ∈ g.lines, newline ∉ line.flatten

/-- What the parser makes of the events of a piece. -/
def DelimiterParser.after (g : DelimiterParser) (r : PipePiece ρ π) : DelimiterParser :=
  (r.events ++ r.next.doneEvents).foldl DelimiterParser.see g

/-- The parser is framed and clean after the piece `r` of its call. -/
structure FramedAfter (token : Option Nat) (tr : List PipeEvent) (g : DelimiterParser) (r : PipePiece ρ π) : Prop where
  framed : Framed token (tr ++ r.events) r.shared (g.after r) r.next.local?
  clean : (g.after r).Clean
  quiet : ∀ n ns k, r.next = .release (n :: ns) k → r.next.doneEvents = []

omit [MemoryResource ρ π] in
/-- A read that comes to its end: the parser takes the lines off the buffer. -/
private theorem framed_readTail {lines : List SegmentedByteView} (hlt : readableSize p.segments < SizeT.modulus)
    (hlines : dropped tr = terminated lines) (hclean : DelimiterParser.Clean ⟨lines, .reading⟩) (stop : Bool) :
    FramedAfter token tr ⟨lines, .reading⟩ (p.readTail stop) := by
  rcases readTail_cases p stop with ⟨-, he⟩ | ⟨-, he⟩ <;> rw [he]
  · exact ⟨.cancelled lines, hclean, nofun⟩
  · have hsize := size_makeReadableView hlt
    have hv := wellFormed_makeReadableView hlt
    have hbegin : (makeReadableView p.segments).beginOffset = 0 := rfl
    obtain ⟨lines', rest, hloop, -, hbytes, hfree, hnone, hend, hoff⟩ :=
      SegmentedByteView.lineLoop_spec hv (by omega) (Nat.lt_succ_self _)
    have hafter : DelimiterParser.after ⟨lines, .reading⟩
        (⟨{ p with hasPendingRead := true, pendingReadSize := (makeReadableView p.segments).size },
          [.readReturn (makeReadableView p.segments) p.writerCompleted], .release [] (.done [])⟩ : PipePiece ρ π) =
        ⟨lines ++ lines', .advancing rest p.writerCompleted⟩ := by
      show DelimiterParser.parse _ _ _ = _
      rw [DelimiterParser.parse, hloop]
    rw [flatten_makeReadableView] at hbytes
    have hsame : dropped (tr ++ [.readReturn (makeReadableView p.segments) p.writerCompleted]) = dropped tr := by
      rw [dropped_append]
      exact List.append_nil _
    refine ⟨?_, ?_, nofun⟩
    · rw [hafter]
      refine .advancing _ rest p.writerCompleted _ [] (fun _ h => nomatch h) rfl ?_ ?_ ?_ ?_ hnone
      · dsimp only
        omega
      · rw [hsame, hlines, hbytes]
        simp
      · rw [hsame, hlines, terminated_append, List.length_append]
        omega
      · exact fun hc => ⟨hc, rfl⟩
    · rw [hafter]
      intro line hmem
      rcases List.mem_append.1 hmem with hmem | hmem
      · exact hclean line hmem
      · exact hfree line hmem

/-- The `advance` of the parser drops what it has handed out. -/
private theorem framed_advance (hA : Accounted o p) {lines : List SegmentedByteView} {remaining : SegmentedByteView}
    {completed : Bool} {more : List Byte} (hr : p.readerCompleted = false)
    (hpending : p.hasPendingRead = true) (hsize : p.pendingReadSize = remaining.beginOffset + remaining.size)
    (hbytes : dropped tr ++ readableBytes p.segments = terminated lines ++ remaining.flatten ++ more)
    (hbegin : (terminated lines).length = (dropped tr).length + remaining.beginOffset)
    (hcompleted : completed = true → p.writerCompleted = true ∧ more = []) (hfree : newline ∉ remaining.flatten)
    (hclean : DelimiterParser.Clean ⟨lines, .advancing remaining completed⟩) (stop oom : Bool) :
    FramedAfter token tr ⟨lines, .advancing remaining completed⟩
      ((pipeline ρ o).exec (.advance remaining.beginOffset (remaining.beginOffset + remaining.size)) p stop oom) := by
  have hm := pipe_moves o (.advance remaining.beginOffset (remaining.beginOffset + remaining.size)) p stop oom
  generalize (pipeline ρ o).exec (.advance remaining.beginOffset (remaining.beginOffset + remaining.size)) p stop oom
    = r at hm ⊢
  have hpend := hA.pending
  obtain ⟨hexit, -, hdrop, hrest, -⟩ := consume_spec hA (show remaining.beginOffset ≤ p.bufferedSize by omega)
  cases hm with
  | advanceThrow e h => exact absurd h (not_advanceThrow hr hpending (Nat.le_of_eq hsize.symm))
  | advanceFault evs _ _ he hx => exact absurd hexit hx
  | advance q paused _ _ he hx hq hpa =>
    subst hq
    have hdropped : dropped (tr ++ [.advanced (p.consume o remaining.beginOffset).dropped]) =
        dropped tr ++ (readableBytes p.segments).take remaining.beginOffset := by
      rw [dropped_append, ← hdrop]
      simp [dropped, PipeEvent.droppedBytes]
    have hstream : dropped (tr ++ [.advanced (p.consume o remaining.beginOffset).dropped]) ++
        readableBytes (p.consume o remaining.beginOffset).segments = terminated lines ++ remaining.flatten ++ more := by
      rw [hdropped, hrest, List.append_assoc, List.take_append_drop, hbytes]
    cases completed with
    | true =>
      obtain ⟨hw, rfl⟩ := hcompleted rfl
      rw [List.append_nil] at hstream
      exact ⟨.finished lines remaining hw hstream hfree, hclean, fun _ _ _ _ => rfl⟩
    | false =>
      refine ⟨.reading lines none (by intro t h; cases h) rfl ?_, hclean, fun _ _ _ _ => rfl⟩
      -- the dropped bytes are as many as the lines have
      refine (List.append_inj (hstream.trans (List.append_assoc _ _ _)) ?_).1
      rw [hdropped, List.length_append, List.length_take, length_readableBytes, ← hA.buffered]
      omega

/-- Every piece of a call of the parser. -/
theorem framed_piece (hA : Accounted o p) (hr : p.readerCompleted = false) {l : PipeLocal}
    (h : Framed token tr p g (some l)) (hclean : g.Clean) (stop oom : Bool) :
    FramedAfter token tr g ((pipeline ρ o).exec l p stop oom) := by
  have hlt : readableSize p.segments < SizeT.modulus := hA.buffered ▸ hA.buffered_lt
  cases h with
  | reading lines _ hl hpending hlines =>
    rcases hl l rfl with rfl | rfl
    · have hm := pipe_moves o (.readTop 0 token) p stop oom
      generalize (pipeline ρ o).exec (.readTop 0 token) p stop oom = r at hm ⊢
      cases hm with
      | readThrow e h =>
        rw [hpending, hr] at h
        rcases h with h | h <;> cases h
      | readWait =>
        refine ⟨.reading lines _ ?_ hpending (by simpa using hlines), hclean, nofun⟩
        rintro l' h
        cases h
        exact .inr rfl
      | readNow => exact framed_readTail hlt hlines hclean stop
    · exact framed_readTail (p := { p with readerWaiting := false }) hlt hlines hclean stop
  | advancing lines remaining completed _ more hl hpending hsize hbytes hbegin hcompleted hfree =>
    obtain rfl := hl l rfl
    exact framed_advance hA hr hpending hsize hbytes hbegin hcompleted hfree hclean stop oom

omit [MemoryResource ρ π] in
/-- The parser calls only what is allowed: its `advance` is not refused. -/
theorem Framed.call (hA : Accounted o p) (h : Framed token tr p g none) {op : PipeOp} (hcall : g.call token = some op)
    (n : Nat) : (op.enter n).1 = [] ∧ Framed token tr p g (op.enter n).2 := by
  cases h with
  | reading lines _ hl hpending hlines =>
    cases hcall
    refine ⟨rfl, .reading lines _ ?_ hpending hlines⟩
    rintro l h
    cases h
    exact .inl rfl
  | advancing lines remaining completed _ more hl hpending hsize hbytes hbegin hcompleted hfree =>
    cases hcall
    have hlt := hA.buffered_lt
    have hle := hA.pending
    have hend : remaining.endOffset = remaining.beginOffset + remaining.size := SizeT.add_eq (by omega)
    have henter : (PipeOp.advance remaining.beginPosition remaining.endPosition).enter n =
        ([], some (.advance remaining.beginOffset (remaining.beginOffset + remaining.size))) := by
      unfold PipeOp.enter
      rw [← hend]
      exact if_neg (by show ¬ remaining.beginOffset > remaining.endOffset; omega)
    rw [henter]
    refine ⟨rfl, .advancing lines remaining completed _ more ?_ hpending hsize hbytes hbegin hcompleted hfree⟩
    rintro l h
    cases h
    rfl
  | finished => cases hcall
  | cancelled => cases hcall

/-- The parser has seen the end of the stream and has `remaining` left. -/
def DelimiterParser.AtEnd (g : DelimiterParser) (remaining : SegmentedByteView) : Prop :=
  g.stage = .advancing remaining true ∨ g.stage = .finished remaining

def DelimiterParser.Broken (g : DelimiterParser) : Prop := (∃ e, g.stage = .threw e) ∨ g.stage = .unfinished

/-- The parser does not read any more. -/
def DelimiterParser.Ends (g : DelimiterParser) : Prop := (∃ remaining, g.AtEnd remaining) ∨ g.Broken

omit [MemoryResource ρ π] in
theorem Framed.not_broken (h : Framed token tr p g l?) : ¬ g.Broken := by
  rintro (⟨e, he⟩ | he) <;> cases h <;> cases he

omit [MemoryResource ρ π] in
/-- At the end the lines and the rest make up the stream. -/
theorem Framed.atEnd (h : Framed token tr p g l?) {remaining : SegmentedByteView} (hend : g.AtEnd remaining) :
    dropped tr ++ readableBytes p.segments = terminated g.lines ++ remaining.flatten ∧ newline ∉ remaining.flatten := by
  cases h with
  | reading => rcases hend with hend | hend <;> cases hend
  | advancing lines _ _ _ more _ _ _ hbytes _ hcompleted hfree =>
    rcases hend with hend | hend
    · cases hend
      obtain ⟨-, rfl⟩ := hcompleted rfl
      rw [List.append_nil] at hbytes
      exact ⟨hbytes, hfree⟩
    · cases hend
  | finished lines _ _ hbytes hfree =>
    rcases hend with hend | hend
    · cases hend
    · cases hend
      exact ⟨hbytes, hfree⟩
  | cancelled => rcases hend with hend | hend <;> cases hend

private theorem DelimiterParser.Ends.see (h : g.Ends) (e : PipeEvent) : (g.see e).Ends := by
  obtain ⟨lines, stage⟩ := g
  rcases h with ⟨remaining, h | h⟩ | ⟨e', h⟩ | h
  · obtain rfl : stage = _ := h
    cases e with
    | advanced => exact .inl ⟨remaining, .inr rfl⟩
    | advanceThrow e => exact .inr (.inl ⟨e, rfl⟩)
    | advanceUndefined => exact .inr (.inr rfl)
    | _ => exact .inl ⟨remaining, .inl rfl⟩
  · obtain rfl : stage = _ := h
    exact .inl ⟨remaining, .inr rfl⟩
  · obtain rfl : stage = _ := h
    exact .inr (.inl ⟨e', rfl⟩)
  · obtain rfl : stage = _ := h
    exact .inr (.inr rfl)

private theorem DelimiterParser.Ends.foldl (h : g.Ends) (evs : List PipeEvent) :
    (evs.foldl DelimiterParser.see g).Ends := by
  induction evs generalizing g with
  | nil => exact h
  | cons e evs ih => exact ih (h.see e)

private theorem DelimiterParser.ends_parse (g : DelimiterParser) (buffer : SegmentedByteView) :
    (g.parse buffer true).Ends := by
  unfold DelimiterParser.parse
  split
  · exact .inl ⟨_, .inl rfl⟩
  · exact .inr (.inl ⟨_, rfl⟩)
  · exact .inr (.inr rfl)

/-- A read of the parser that reports the end of the stream is its last one. -/
private theorem Framed.ends {l : PipeLocal} (h : Framed token tr p g (some l)) {stop oom : Bool}
    {buffer : SegmentedByteView} (he : .readReturn buffer true ∈ ((pipeline ρ o).exec l p stop oom).events) :
    (g.see (.readReturn buffer true)).Ends := by
  cases h with
  | reading lines => exact DelimiterParser.ends_parse _ buffer
  | advancing lines remaining completed _ more hl =>
    obtain rfl := hl l rfl
    have hm := pipe_moves o (.advance remaining.beginOffset (remaining.beginOffset + remaining.size)) p stop oom
    generalize (pipeline ρ o).exec (.advance remaining.beginOffset (remaining.beginOffset + remaining.size)) p stop oom
      = r at hm he
    cases hm <;> simp at he

/-! ### Runs -/

/-- The thread `c` runs the delimiter parser, `w` makes the writes, and nobody else uses the read endpoint. -/
def ParserRun (token : Option Nat) (c w : τ) (x : DelimiterParser × PipeState τ ρ π) (a : PipeAction τ) : Prop :=
  (delimiterParser token).Follows c x a ∧ OneWriter w x.2 a ∧ ∀ t op, a = .call t op → t ≠ c → op.isWriter = true

section Runs

variable {c w : τ} {m : ρ} {x x' : DelimiterParser × PipeState τ ρ π} {a : PipeAction τ}

/-- Nobody completes the reader, and all but the parser write. -/
theorem parser_locals
    (h : ((delimiterParser token).machine (pipeline ρ o) c).Exec (ParserRun token c w)
      (.new, State.init (Pipe.new m)) tr x) :
    x.2.shared.readerCompleted = false ∧ ∀ t l, (x.2.phase t).local? = some l →
      l ≠ .completeReader ∧ (t ≠ c → l.isWriter = true) := by
  have h' := Client.exec_monitor (fun _ a => ∀ t op, a = .call t op →
    op ≠ .completeReader ∧ (t ≠ c → op.isWriter = true)) h (by
      rintro x a ⟨hfollows, -, hothers⟩ t op rfl
      refine ⟨?_, hothers t op rfl⟩
      rintro rfl
      by_cases htc : t = c
      · subst htc
        have hcall := hfollows _ rfl
        change x.1.call token = _ at hcall
        unfold DelimiterParser.call at hcall
        split at hcall <;> cases hcall
      · cases hothers t _ rfl htc)
  refine Monitor.thread_invariant (P := fun p => p.readerCompleted = false)
    (A := fun t l _ => l ≠ .completeReader ∧ (t ≠ c → l.isWriter = true)) h' rfl ?_ ?_
  · intro s t op l hok _ he
    obtain ⟨h1, h2⟩ := hok t op rfl
    obtain ⟨hcomplete, hend⟩ := endpoint_enter he
    exact ⟨fun hl => h1 (hcomplete hl), fun ht => hend.trans (h2 ht)⟩
  · intro t l p stop oom hr hl
    refine ⟨(readerCompleted_piece hl.1 stop oom).trans hr, ?_, fun _ _ _ h => h⟩
    intro l' hn
    obtain ⟨h1, h2⟩ := endpoint_next hn
    exact ⟨h1, fun hne => h2.trans (hl.2 hne)⟩

/-- The parser hands out the stream line by line, in every state of a run. -/
theorem framed_of_exec
    (h : ((delimiterParser token).machine (pipeline ρ o) c).Exec (ParserRun token c w)
      (.new, State.init (Pipe.new m)) tr x) :
    Framed token tr x.2.shared x.1 (x.2.phase c).local? ∧ x.1.Clean ∧ (x.2.phase c).doneEvents = [] := by
  induction h with
  | nil => exact ⟨.reading [] none nofun rfl rfl, nofun, rfl⟩
  | @snoc tr evs x x' a h hok hs ih =>
    obtain ⟨hF, hclean, hdone⟩ := ih
    obtain ⟨hm, hg⟩ := Client.moves_of_step hs
    have hrun := Client.exec_monitor Machine.Any h (fun _ _ _ => trivial)
    obtain ⟨hr, hlocals⟩ := parser_locals h
    have hA := accounted_of_open hrun hr
    -- what a piece of the parser does
    have hparser : ∀ {l : PipeLocal} (z : Bool), x.2.phase c = .locked l →
        FramedAfter token tr x.1 ((pipeline ρ o).piece x.2 l z) := by
      intro l z hl
      rw [hl] at hF
      exact framed_piece hA hr hF hclean (x.2.stop l.token) z
    -- only a piece of the parser drops bytes
    have hdropped : (∀ z l, a = .run c z → x.2.phase c ≠ .locked l) → dropped evs = [] := by
      intro hnot
      refine List.flatMap_eq_nil_iff.2 ?_
      intro e he
      cases e with
      | advanced bytes =>
        obtain ⟨t, z, l, rfl, hl, hp, -⟩ := shown_by_piece hrun hm he rfl nofun
        have htc : t ≠ c := by
          rintro rfl
          exact hnot z l rfl hl
        exact ((writer_piece hA ((hlocals t l (Monitor.local?_of_locked hl)).2 htc) _ _).2 _ hp).1
      | _ => rfl
    obtain ⟨hdone', hstep⟩ := Client.quiet_step hs hdone
      (fun z l n ns k _ hl hn => (hparser z hl).quiet n ns k hn)
    rcases hstep with ⟨op, rfl, hout, hnext⟩ | ⟨z, l, rfl, hl, hnext⟩ | ⟨hcall, hpiece, hnext⟩
    · obtain ⟨hsh, hown, -⟩ := hm.of_call
      rw [hout] at hF
      obtain ⟨hnil, hF'⟩ := hF.call hA (hok.1 op rfl) x.2.calls
      rw [show ((pipeline ρ o).enter op x.2.calls).1 = [] from hnil] at hnext
      rw [hown, hsh, hnext]
      exact ⟨hF'.other (.refl _) (hdropped nofun), hclean, hdone'⟩
    · have hP := hparser z hl
      obtain ⟨hsh, hown, -⟩ := hm.of_piece hl
      obtain ⟨evs', rfl, hd⟩ := hm.events_of_piece hl
      have hstill : dropped evs' = [] :=
        dropped_of_still fun e he => still_of_isEnd (doneEvents_isEnd o _ _ _ _ e (hd e he))
      rw [hown, hsh, hnext, ← List.append_assoc]
      exact ⟨hP.framed.other (.refl _) hstill, hP.clean, hdone'⟩
    · have hlocal := hm.local?_of_idle hcall hpiece
      obtain ⟨more, hmore⟩ : ∃ more, Extends x.2.shared x'.2.shared more := by
        rcases hm.shared_eq with ⟨he, -⟩ | ⟨t, z, l, ha, hl, he⟩
        · exact ⟨[], by rw [he]; exact .refl _⟩
        · have htc : t ≠ c := by
            rintro rfl
            exact hpiece z l ha hl
          rw [he]
          exact (writer_piece hA ((hlocals t l (Monitor.local?_of_locked hl)).2 htc) _ _).1
      rw [hlocal, hnext]
      exact ⟨hF.other hmore (hdropped hpiece), hclean, hdone'⟩

/-- A read with `completed()` set brings the parser to the end of the stream, where it stays. -/
theorem atEnd_of_exec
    (h : ((delimiterParser token).machine (pipeline ρ o) c).Exec (ParserRun token c w)
      (.new, State.init (Pipe.new m)) tr x) {buffer : SegmentedByteView} (hmem : .readReturn buffer true ∈ tr) :
    ∃ remaining, x.1.AtEnd remaining := by
  have hends : x.1.Ends := by
    induction h with
    | nil => cases hmem
    | @snoc tr evs x x' a h hok hs ih =>
      obtain ⟨hm, hg⟩ := Client.moves_of_step hs
      rcases List.mem_append.1 hmem with hmem | hmem
      · rw [hg]
        split
        · exact (ih hmem).foldl evs
        · exact ih hmem
      · have hrun := Client.exec_monitor Machine.Any h (fun _ _ _ => trivial)
        obtain ⟨hr, hlocals⟩ := parser_locals h
        obtain ⟨-, -, hevs, -⟩ := readReturn_step hrun hm hmem
        obtain ⟨t, z, l, rfl, hl, hp, -⟩ := shown_by_piece hrun hm hmem rfl nofun
        have hlt : (x.2.phase t).local? = some l := Monitor.local?_of_locked hl
        have hA := accounted_of_open hrun hr
        have htc : t = c := by
          by_contra htc
          exact ((writer_piece hA ((hlocals t l hlt).2 htc) _ _).2 _ hp).2 buffer true rfl
        subst htc
        have hg' : x'.1 = evs.foldl DelimiterParser.see x.1 := hg.trans (if_pos rfl)
        rw [hg', hevs]
        have hF := (framed_of_exec h).1
        rw [hlt] at hF
        exact hF.ends hp
  rcases hends with hend | hbroken
  · exact hend
  · exact absurd hbroken (framed_of_exec h).1.not_broken

end Runs

/-! ### The lines of the stream -/

/-- In every run of the delimiter parser with one writer: no slice and no `advance` throws, and once a read has had
`completed()` set, the lines handed out are the segments of the stream that `'\n'` terminates, in order, and the rest of
the parser is what follows the last `'\n'`.  The stream is what the writes have committed; if they all have returned the
size of their data, it is the data written, whatever the split into writes was. -/
theorem delimiter_framing {c w : τ} {m : ρ} {x : DelimiterParser × PipeState τ ρ π}
    (h : ((delimiterParser token).machine (pipeline ρ o) c).Exec (ParserRun token c w)
      (.new, State.init (Pipe.new m)) tr x) :
    ¬ x.1.Broken ∧
    ∀ buffer, .readReturn buffer true ∈ tr → ∃ remaining, x.1.AtEnd remaining ∧
      ((List.range x.2.calls).flatMap (committed tr)).splitOn newline =
        x.1.lines.map SegmentedByteView.flatten ++ [remaining.flatten] ∧
      ∀ S, written tr = S →
        (∀ i data, .writeCall i data ∈ tr → ∃ stop, .writeReturn i data.length stop ∈ tr) →
        S.splitOn newline = x.1.lines.map SegmentedByteView.flatten ++ [remaining.flatten] := by
  obtain ⟨hF, hclean, -⟩ := framed_of_exec h
  refine ⟨hF.not_broken, ?_⟩
  intro buffer hmem
  obtain ⟨remaining, hend⟩ := atEnd_of_exec h hmem
  have hrun := Client.exec_monitor (OneWriter w) h (fun _ _ hok => hok.2.1)
  have hr := (parser_locals h).1
  have hsplit : (dropped tr ++ readableBytes x.2.shared.segments).splitOn newline =
      x.1.lines.map SegmentedByteView.flatten ++ [remaining.flatten] := by
    obtain ⟨hbytes, hfree⟩ := hF.atEnd hend
    rw [hbytes]
    exact splitOn_terminated hclean hfree
  refine ⟨remaining, hend, ?_, ?_⟩
  · rw [← (stream_integrity hrun hr).1]
    exact hsplit
  · rintro S rfl hfull
    rw [← stream_eq_written hrun hr hfull, ← (stream_integrity hrun hr).1]
    exact hsplit

/-- Thread `0` writes the first byte of a line and, after thread `1` has read it, the rest of the line and a byte of the
next one; then it completes the writer. -/
def writeLines : List (PipeAction (Fin 2)) :=
  [.call 0 (.write ⟨[97], by decide⟩ none), .run 0 false, .run 0 false, .run 0 false, .run 0 false, .run 0 false,
    .call 1 (.readAtLeast 0 none), .run 1 false, .run 1 false, .run 1 false, .run 1 false,
    .call 1 (.advance ⟨0, true⟩ ⟨1, true⟩), .run 1 false, .run 1 false,
    .call 0 (.write ⟨[98, 10, 99], by decide⟩ none),
    .run 0 false, .run 0 false, .run 0 false, .run 0 false, .run 0 false, .run 0 false,
    .call 0 .completeWriter, .run 0 false, .run 0 false, .notify 0 none, .notify 0 none,
    .call 1 (.readAtLeast 0 none), .run 1 false, .run 1 false,
    .call 1 (.advance ⟨3, true⟩ ⟨4, true⟩), .run 1 false, .run 1 false]

/-- The parser calls `op`, as a test. -/
def ParserStage.calls : ParserStage → PipeOp → Bool
  | .reading, .readAtLeast 0 none => true
  | .advancing remaining _, .advance ⟨consumed, true⟩ ⟨examined, true⟩ =>
    decide (consumed = remaining.beginOffset ∧ examined = remaining.endOffset)
  | _, _ => false

theorem ParserStage.call_eq {g : DelimiterParser} {op : PipeOp} (h : g.stage.calls op = true) :
    g.call none = some op ∧ ∀ data token, op ≠ .write data token := by
  obtain ⟨lines, stage⟩ := g
  unfold ParserStage.calls at h
  split at h
  · rename_i hstage
    obtain rfl : stage = _ := hstage
    exact ⟨rfl, nofun⟩
  · rename_i hstage
    obtain rfl : stage = _ := hstage
    obtain ⟨rfl, rfl⟩ := of_decide_eq_true h
    exact ⟨rfl, nofun⟩
  · cases h

private def parserStep (x : DelimiterParser × PipeState (Fin 2) FixedPoolResource Nat) : PipeAction (Fin 2) → Bool
  | .call 0 op => op.isWriter
  | .call 1 op => x.1.stage.calls op
  | _ => true

private theorem parserRun_of_parserStep (x : DelimiterParser × PipeState (Fin 2) FixedPoolResource Nat)
    (a : PipeAction (Fin 2)) (h : parserStep x a = true) : ParserRun none 1 0 x a := by
  refine ⟨?_, ?_, ?_⟩
  · rintro op rfl
    exact (ParserStage.call_eq h).1
  · rintro t data token rfl
    match t with
    | 0 => rfl
    | 1 => exact absurd rfl ((ParserStage.call_eq h).2 data token)
  · rintro t op rfl ht
    match t with
    | 0 => exact h
    | 1 => exact absurd rfl ht

private def isLastRead : PipeEvent → Bool
  | .readReturn _ true => true
  | _ => false

private theorem eq_of_isLastRead {e : PipeEvent} (h : isLastRead e = true) : ∃ buffer, e = .readReturn buffer true := by
  unfold isLastRead at h
  split at h
  · exact ⟨_, rfl⟩
  · cases h

theorem delimiter_framing_writeLines :
    ∃ tr, ∃ x : DelimiterParser × PipeState (Fin 2) FixedPoolResource Nat,
      ((delimiterParser none).machine (pipeline FixedPoolResource .small) 1).Exec (ParserRun none 1 0)
        (.new, State.init (Pipe.new (.make .small))) tr x ∧
      x.1.lines.map SegmentedByteView.flatten = [[97, 98]] ∧
      ∃ remaining, x.1.AtEnd remaining ∧
        ((List.range x.2.calls).flatMap (committed tr)).splitOn newline = [[97, 98]] ++ [remaining.flatten] := by
  obtain ⟨tr, x, h, hc⟩ := Machine.exists_exec_of_run
    ((delimiterParser none).machine (pipeline FixedPoolResource .small) (1 : Fin 2)) (ParserRun none 1 0)
    (.new, State.init (Pipe.new (.make .small)))
    parserStep writeLines
    (fun tr x => decide (x.1.lines.map SegmentedByteView.flatten = [[97, 98]]) && tr.any isLastRead)
    parserRun_of_parserStep (by decide)
  rw [Bool.and_eq_true] at hc
  have hlines := of_decide_eq_true hc.1
  obtain ⟨e, he, hread⟩ := List.any_eq_true.1 hc.2
  obtain ⟨buffer, rfl⟩ := eq_of_isLastRead hread
  obtain ⟨remaining, hend, hsplit, -⟩ := (delimiter_framing h).2 buffer he
  rw [hlines] at hsplit
  exact ⟨tr, x, h, hlines, remaining, hend, hsplit⟩

end Xtd
