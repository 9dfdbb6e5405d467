import Xtd.Concurrency.ClientPair
import Xtd.Pipeline.Ingested
import Xtd.Pipeline.Parsing

/-!
# A file or a socket, line by line

A worker of `pipe_utils.h` copies its input into the pipeline while the delimiter parser of `pipeline.md` takes the lines
out.  The lines handed out are those of the input.  The two threads cannot block each other if segments are not larger
than the resume threshold and a line is not longer than all but one of the segments that fit below the pause threshold:
a paused writer has left more bytes than a line has, so the parser, which consumes all complete lines, still has one to
consume.
-/

namespace Xtd

open Concurrency

/-! ### Lines of a stream -/

/-- The lines at the beginning of a stream are found again. -/
theorem splitOn_terminated_append {lines : List SegmentedByteView} (hl : ∀ line ∈ lines, newline ∉ line.flatten)
    (rest : List Byte) :
    (terminated lines ++ rest).splitOn newline = lines.map SegmentedByteView.flatten ++ rest.splitOn newline := by
  induction lines with
  | nil => simp [terminated]
  | cons line lines ih =>
    have hline := hl line (by simp)
    have hrest := ih (fun line h => hl line (by simp [h]))
    have happ : terminated (line :: lines) ++ rest = line.flatten ++ newline :: (terminated lines ++ rest) := by
      simp [terminated]
    rw [happ, List.splitOn_append_cons_self, List.splitOn_eq_singleton hline, hrest]
    rfl

/-- What stands in front of the first `'\n'` belongs to the first line. -/
theorem splitOn_append_of_not_mem {front : List Byte} (hf : newline ∉ front) (rest : List Byte) :
    (front ++ rest).splitOn newline = (rest.splitOn newline).modifyHead (front ++ ·) := by
  induction front with
  | nil => exact (congrFun List.modifyHead_id (rest.splitOn newline)).symm
  | cons b front ih =>
    rw [List.mem_cons, not_or] at hf
    have hb : (b == newline) = false := by
      rw [beq_eq_false_iff_ne]
      exact Ne.symm hf.1
    rw [List.cons_append, List.splitOn_cons_eq_if_modifyHead, hb, ih hf.2, if_neg Bool.false_ne_true,
      List.modifyHead_modifyHead]
    rfl

theorem exists_line_of_prefix {front : List Byte} (hf : newline ∉ front) (rest : List Byte) :
    ∃ line ∈ (front ++ rest).splitOn newline, front <+: line := by
  rw [splitOn_append_of_not_mem hf]
  cases hs : rest.splitOn newline with
  | nil => exact absurd hs (List.splitOn_ne_nil _ _)
  | cons line lines => exact ⟨front ++ line, by simp, List.prefix_append _ _⟩

/-! ### The worker and the parser -/

variable {ι : Type} {turn : ι → Turn ι} {bytes : ι → List Byte} {total : List Byte}

theorem DelimiterParser.isWriter_of_call {g : DelimiterParser} {token : Option Nat} {op : PipeOp}
    (h : g.call token = some op) : op.isWriter = false := by
  unfold DelimiterParser.call at h
  split at h <;> cases h <;> rfl

theorem CopyStage.isWriter_of_call {g : CopyStage ι} {op : PipeOp} (h : g.call turn = some op) :
    op.isWriter = true := by
  unfold CopyStage.call at h
  split at h
  · split at h <;> cases h <;> rfl
  · cases h
  · cases h

/-- The thread `w` runs a worker, the thread `c` the delimiter parser, nobody else makes calls and no allocation fails. -/
def LineRun {ρ π τ : Type} (turn : ι → Turn ι) (token : Option Nat) (w c : τ)
    (x : (CopyStage ι × DelimiterParser) × PipeState τ ρ π) (a : PipeAction τ) : Prop :=
  Client.Both (copyWorker turn) (delimiterParser token) w c x a ∧ ∀ t, a ≠ .run t true

section Runs

variable {ρ π τ : Type} [MemoryResource ρ π] [DecidableEq τ] [Fintype τ] {o : ValidatedOptions} {m : ρ} {w c : τ}
  {token : Option Nat} {tr : List PipeEvent} {g₀ : CopyStage ι} {x : (CopyStage ι × DelimiterParser) × PipeState τ ρ π}
  {a : PipeAction τ}

omit [MemoryResource ρ π] [DecidableEq τ] [Fintype τ] in
private theorem LineRun.parser (h : LineRun turn token w c x a) : ParserRun token c w (x.1.2, x.2) a := by
  refine ⟨h.1.right, ?_, ?_⟩
  · rintro t data token' rfl
    rcases h.1.only t _ rfl with rfl | rfl
    · rfl
    · cases DelimiterParser.isWriter_of_call (h.1.right _ rfl)
  · rintro t op rfl ht
    rcases h.1.only t op rfl with rfl | rfl
    · exact CopyStage.isWriter_of_call (h.1.left op rfl)
    · exact absurd rfl ht

omit [MemoryResource ρ π] [DecidableEq τ] [Fintype τ] in
private theorem LineRun.worker (h : LineRun turn token w c x a) : CopyRun turn w (x.1.1, x.2) a := by
  refine ⟨h.1.left, ?_⟩
  rintro t op rfl ht
  rcases h.1.only t op rfl with rfl | rfl
  · exact absurd rfl ht
  · exact DelimiterParser.isWriter_of_call (h.1.right op rfl)

omit [DecidableEq τ] [Fintype τ] in
private theorem getSegment_isSome (p : Pipe ρ π) : (p.getSegment o false).isSome = true := by
  obtain ⟨⟨b, r⟩, hr⟩ := Option.isSome_iff_exists.1 (MemoryResource.allocate_isSome p.allocator o.bufferSize)
  unfold Pipe.getSegment
  rw [hr]
  split <;> rfl

theorem parser_exec
    (h : (Client.pair (copyWorker turn) (delimiterParser token) (pipeline ρ o) w c).Exec (LineRun turn token w c)
      ((g₀, .new), State.init (Pipe.new m)) tr x) :
    ((delimiterParser token).machine (pipeline ρ o) c).Exec (ParserRun token c w) (.new, State.init (Pipe.new m)) tr
      (x.1.2, x.2) :=
  Client.exec_right h fun _ _ _ _ hok => hok.parser

theorem worker_exec
    (h : (Client.pair (copyWorker turn) (delimiterParser token) (pipeline ρ o) w c).Exec (LineRun turn token w c)
      ((g₀, .new), State.init (Pipe.new m)) tr x) :
    ((copyWorker turn).machine (pipeline ρ o) w).Exec (fun x a => CopyRun turn w x a ∧ Undisturbed o w x.2 a)
      (g₀, State.init (Pipe.new m)) tr (x.1.1, x.2) := by
  refine Client.exec_left h ?_
  intro tr x a h hok
  refine ⟨hok.worker, ?_⟩
  intro oom l ha hl hw
  refine ⟨(parser_locals (parser_exec h)).1, ?_⟩
  cases oom with
  | true => exact absurd ha (hok.2 w)
  | false => exact getSegment_isSome x.2.shared

/-- No notification is dropped: the writes of the worker have no stop token. -/
theorem exec_notifies (hcopies : Copies turn bytes)
    (h : (Client.pair (copyWorker turn) (delimiterParser token) (pipeline ρ o) w c).Exec (LineRun turn token w c)
      ((g₀, .new), State.init (Pipe.new m)) tr x)
    (h0 : Copying turn bytes total [] (Pipe.new m : Pipe ρ π) g₀ none) :
    ((pipeline ρ o).machine τ).Exec (Notifies o w c) (State.init (Pipe.new m)) tr x.2 := by
  refine Client.exec_pair h ?_
  intro tr x a h hok
  refine ⟨⟨hok.parser.2.1, ?_⟩, ?_⟩
  · rintro t minSize token' rfl
    rcases hok.1.only t _ rfl with rfl | rfl
    · cases CopyStage.isWriter_of_call (hok.1.left _ rfl)
    · rfl
  · intro t oom call data copied token' ha hl hd hp hend
    have hrun := (worker_exec h).mono fun _ _ hok => hok.1
    have hlocal := Monitor.local?_of_locked hl
    have htw : t = w := by
      by_contra htw
      have hreads := copy_locals hrun htw hlocal
      cases hreads
    subst htw
    have hC := copying_of_exec hcopies hrun h0
    rw [hlocal] at hC
    have htoken : token' = none := hC.token
    subst htoken
    have hoom : oom = false := by
      rw [← Bool.not_eq_true]
      rintro rfl
      exact hok.2 t ha
    subst hoom
    rcases hend with hstop | ⟨-, hfail⟩
    · cases hstop
    · obtain ⟨q, n, hq⟩ := copyChunk_isSome x.2.shared data (x.2.shared.writerAvailableCapacity o) (o := o)
      rw [hfail] at hq
      cases hq

omit [MemoryResource ρ π] [DecidableEq τ] [Fintype τ] in
/-- In a pipeline whose writer is completed the worker is at its end. -/
private theorem Copying.finished_of_completed {p : Pipe ρ π} {g : CopyStage ι} {l? : Option PipeLocal}
    (h : Copying turn bytes total tr p g l?) (hw : p.writerCompleted = true) (hg : ∀ e, g ≠ .threw e) :
    g = .finished ∧ ingested tr = total := by
  cases h with
  | looping _ hp => rw [hw] at hp; cases hp
  | writing _ _ _ _ _ _ _ _ _ _ hp => rw [hw] at hp; cases hp
  | completing _ hp => rw [hw] at hp; cases hp
  | finished _ hbytes => exact ⟨rfl, hbytes⟩
  | threw e => exact absurd rfl (hg e)

omit [MemoryResource ρ π] [DecidableEq τ] [Fintype τ] in
/-- A worker at its end has completed the writer. -/
private theorem Copying.completed_of_finished {p : Pipe ρ π} {l? : Option PipeLocal}
    (h : Copying turn bytes total tr p .finished l?) : p.writerCompleted = true := by
  cases h with
  | finished hw => exact hw

omit [MemoryResource ρ π] [DecidableEq τ] [Fintype τ] in
/-- A worker outside has committed what it has read. -/
private theorem Copying.bytes_of_looping {p : Pipe ρ π} {input : ι}
    (h : Copying turn bytes total tr p (.looping input) none) : ingested tr ++ bytes input = total := by
  cases h with
  | looping _ _ hbytes => exact hbytes

/-! ### The end of the two threads -/

/-- No line is longer than all but one of the segments that fit below the pause threshold. -/
def LinesFit (o : ValidatedOptions) (received : List Byte) : Prop :=
  ∀ line ∈ received.splitOn newline, line.length ≤ (o.pauseWriterThreshold / o.bufferSize - 1) * o.bufferSize

instance (o : ValidatedOptions) (received : List Byte) : Decidable (LinesFit o received) :=
  inferInstanceAs (Decidable (∀ line ∈ received.splitOn newline, _))

/-- How the two threads come to rest: both are at their end; the parser was cancelled; or the worker waits for its input,
and all lines of what has arrived are handed out. -/
def ComesToRest (turn : ι → Turn ι) (token : Option Nat) (received : List Byte)
    (x : (CopyStage ι × DelimiterParser) × PipeState τ ρ π) : Prop :=
  (x.1.1 = .finished ∧ ∃ remaining, x.1.2.stage = .finished remaining) ∨
  (x.1.2.stage = .cancelled ∧ x.2.stop token = true) ∨
  ∃ input rest, x.1.1 = .looping input ∧ turn input = .waits ∧
    received.splitOn newline = x.1.2.lines.map SegmentedByteView.flatten ++ [rest]

/-- A parser asleep has taken out everything up to the last `'\n'`. -/
private theorem caught_up
    (h : ((delimiterParser token).machine (pipeline ρ o) c).Exec (ParserRun token c w)
      (.new, State.init (Pipe.new m)) tr (x.1.2, x.2)) {minSize : Nat} {token' : Option Nat}
    (hasleep : x.2.phase c = .asleep .dataAvailable (.readAfterWait minSize token'))
    (hdata : x.2.shared.dataAvailable minSize = false) :
    x.2.shared.writerCompleted = false ∧ newline ∉ readableBytes x.2.shared.segments ∧
      ingested tr = terminated x.1.2.lines ++ readableBytes x.2.shared.segments := by
  have hrun := Client.exec_monitor Machine.Any h (fun _ _ _ => trivial)
  have hr := (parser_locals h).1
  have hA := accounted_of_open hrun hr
  have hF := (framed_of_exec h).1
  have hexamined := (parsed_of_exec h).examined
  have hstream := ingested_eq hrun hr
  obtain ⟨⟨f, g⟩, s⟩ := x
  dsimp only at hasleep hdata hrun hr hA hF hexamined hstream ⊢
  rw [hasleep] at hF
  change Framed token tr s.shared g (some (.readAfterWait minSize token')) at hF
  cases hF with
  | reading lines _ hl _ hlines =>
    have hmin : minSize = 0 := by
      rcases hl _ rfl with hl | hl <;> cases hl
      rfl
    subst hmin
    unfold Pipe.dataAvailable at hdata
    rw [Bool.or_eq_false_iff] at hdata
    simp only [decide_true, Bool.true_or, Bool.and_true, decide_eq_false_iff_not, Nat.not_lt] at hdata
    refine ⟨hdata.1, ?_, by rw [hstream, hlines]⟩
    have hlen : (readableBytes s.shared.segments).length ≤ s.shared.examinedSize := by
      rw [length_readableBytes, ← hA.buffered]
      exact hdata.2
    rwa [List.take_of_length_le hlen] at hexamined
  | advancing lines remaining completed _ more hl =>
    have hplace := hl _ rfl
    cases hplace

omit [MemoryResource ρ π] [DecidableEq τ] [Fintype τ] in
/-- The writer does not pause behind a parser that has taken out all lines, if the lines fit. -/
private theorem not_paused {p : Pipe ρ π} {lines : List SegmentedByteView} {rest : List Byte} (hB : Backlog o p)
    (ho : o.bufferSize ≤ o.resumeWriterThreshold) (hfit : LinesFit o total)
    (hlines : ∀ line ∈ lines, newline ∉ line.flatten) (hfree : newline ∉ readableBytes p.segments)
    (htotal : total = terminated lines ++ (readableBytes p.segments ++ rest)) : p.writerPaused = false := by
  rw [← Bool.not_eq_true]
  intro hp
  have hres := o.resume_le
  have hlt := hB.lt_buffered (Nat.le_trans ho hres) hp
  obtain ⟨line, hline, hprefix⟩ := exists_line_of_prefix hfree rest
  have hmem : line ∈ total.splitOn newline := by
    rw [htotal, splitOn_terminated_append hlines]
    exact List.mem_append_right _ hline
  have hle := hfit line hmem
  have hlen := hprefix.length_le
  rw [length_readableBytes, ← hB.accounted.buffered] at hlen
  omega

/-- The parser at rest has nothing to call or is asleep for want of lines; the worker then is at its end or waits. -/
private theorem comes_to_rest (hcopies : Copies turn bytes) (hwaits : ∀ input, turn input = .waits → bytes input = [])
    (hwc : w ≠ c)
    (h : (Client.pair (copyWorker turn) (delimiterParser token) (pipeline ρ o) w c).Exec (LineRun turn token w c)
      ((g₀, .new), State.init (Pipe.new m)) tr x)
    (h0 : Copying turn bytes total [] (Pipe.new m : Pipe ρ π) g₀ none) (hg : ∀ e, g₀ ≠ .threw e)
    (ho : o.bufferSize ≤ o.resumeWriterThreshold) (hfit : LinesFit o total)
    (hstuck : Client.Stuck (copyWorker turn) (delimiterParser token) (pipeline ρ o) w c x) :
    ComesToRest turn token total x := by
  have hparser := parser_exec h
  have hworker := worker_exec h
  have hnotifies := exec_notifies hcopies h h0
  have hrun : ((pipeline ρ o).machine τ).Exec Machine.Any (State.init (Pipe.new m)) tr x.2 :=
    Client.exec_pair h (fun _ _ _ _ _ => trivial)
  have hr : x.2.shared.readerCompleted = false := (parser_locals hparser).1
  have hq := hstuck.quiescent (Monitor.exclusive_of_exec hrun)
  have hneed : ∀ t cv l, x.2.phase t = .asleep cv l → pipeNeed ρ o cv l x.2.shared = 0 := fun t cv l ht =>
    (pipeline_pays o m w c).need_eq_zero hnotifies hq ht
  obtain ⟨hF, hclean, -⟩ := framed_of_exec hparser
  have hP := parsed_of_exec hparser
  have hC := copying_of_exec hcopies (hworker.mono fun _ _ hok => hok.1) h0
  have hthrew := not_threw_of_exec hcopies hworker h0 hg
  have hahead : (copyWorker turn).ahead w (x.1.1, x.2) = x.1.1 := Client.ahead_of_quiescent hq
  rw [hahead] at hC hthrew
  rcases hq c with hout | ⟨cv, l, hasleep⟩
  · -- the parser is outside: it has ended
    have hcall := hstuck.call_right hwc hout
    cases hstage : x.1.2.stage with
    | reading => simp [delimiterParser, DelimiterParser.call, hstage] at hcall
    | advancing => simp [delimiterParser, DelimiterParser.call, hstage] at hcall
    | cancelled => exact .inr (.inl ⟨hstage, hP.cancelled hstage⟩)
    | threw e => exact absurd (.inl ⟨e, hstage⟩) hF.not_broken
    | unfinished => exact absurd (.inr hstage) hF.not_broken
    | finished remaining =>
      have hcompleted : x.2.shared.writerCompleted = true := hF.completed_of_atEnd (.inr hstage)
      exact .inl ⟨(hC.finished_of_completed hcompleted hthrew).1, remaining, hstage⟩
  · rcases asleep_cases hnotifies hasleep with ⟨rfl, -, -, -, minSize, token', rfl⟩ | ⟨-, hcw, -⟩
    · have hdata : x.2.shared.dataAvailable minSize = false := by
        simpa [pipeNeed, pipeline, PipeLocal.minSize] using hneed c _ _ hasleep
      obtain ⟨hcompleted, hfree, hstream⟩ := caught_up hparser hasleep hdata
      have hin := hC.in_order
      obtain ⟨rest, hrest⟩ := hin
      rw [hstream, List.append_assoc] at hrest
      rcases hq w with hout | ⟨cv, l, hasleep'⟩
      · -- the worker is outside: it waits, since the writer is not completed
        have hcall := hstuck.call_left hwc hout
        have hout' : (x.2.phase w).local? = none := by
          rw [hout]
          rfl
        cases hstage : x.1.1 with
        | finished =>
          rw [hstage] at hC
          have hend := hC.completed_of_finished
          rw [hcompleted] at hend
          cases hend
        | threw e => exact absurd hstage (hthrew e)
        | looping input =>
          rw [hstage] at hC
          cases hturn : turn input with
          | writes data rest => simp [copyWorker, CopyStage.call, hstage, hturn] at hcall
          | leaves => simp [copyWorker, CopyStage.call, hstage, hturn] at hcall
          | waits =>
            have htotal : total = terminated x.1.2.lines ++ readableBytes x.2.shared.segments := by
              rw [hout'] at hC
              have hbytes := hC.bytes_of_looping
              rw [hwaits input hturn, List.append_nil] at hbytes
              rw [← hbytes, hstream]
            refine .inr (.inr ⟨input, readableBytes x.2.shared.segments, hstage, hturn, ?_⟩)
            rw [htotal]
            exact splitOn_terminated hclean hfree
      · rcases asleep_cases hnotifies hasleep' with ⟨-, hwc', -⟩ | ⟨rfl, -⟩
        · exact absurd hwc' hwc
        · have hpaused : x.2.shared.writerPaused = true := by
            simpa [pipeNeed, pipeline, Pipe.spaceAvailable] using hneed w _ l hasleep'
          rw [not_paused (backlog_of_exec ho hrun hr) ho hfit hclean hfree hrest.symm] at hpaused
          cases hpaused
    · exact absurd hcw.symm hwc

/-- What comes of the bytes received: the lines handed out are the first ones, at the end of the stream all of them; and
if the lines fit, the two threads do not block each other. -/
structure HandsOut (o : ValidatedOptions) (turn : ι → Turn ι) (token : Option Nat) (w c : τ) (received : List Byte)
    (x : (CopyStage ι × DelimiterParser) × PipeState τ ρ π) : Prop where
  not_threw : ∀ e, x.1.1 ≠ .threw e
  not_broken : ¬ x.1.2.Broken
  lines : x.1.2.lines.map SegmentedByteView.flatten <+: (received.splitOn newline).dropLast
  atEnd : ∀ remaining, x.1.2.AtEnd remaining →
    received.splitOn newline = x.1.2.lines.map SegmentedByteView.flatten ++ [remaining.flatten]
  rest : o.bufferSize ≤ o.resumeWriterThreshold → LinesFit o received →
    Client.Stuck (copyWorker turn) (delimiterParser token) (pipeline ρ o) w c x → ComesToRest turn token received x

theorem handsOut_of_exec (hcopies : Copies turn bytes) (hwaits : ∀ input, turn input = .waits → bytes input = [])
    (hwc : w ≠ c)
    (h : (Client.pair (copyWorker turn) (delimiterParser token) (pipeline ρ o) w c).Exec (LineRun turn token w c)
      ((g₀, .new), State.init (Pipe.new m)) tr x)
    (h0 : Copying turn bytes total [] (Pipe.new m : Pipe ρ π) g₀ none) (hg : ∀ e, g₀ ≠ .threw e) :
    HandsOut o turn token w c total x := by
  have hparser := parser_exec h
  have hworker := worker_exec h
  have hr : x.2.shared.readerCompleted = false := (parser_locals hparser).1
  obtain ⟨hF, hclean, -⟩ := framed_of_exec hparser
  have hC := copying_of_exec hcopies (hworker.mono fun _ _ hok => hok.1) h0
  have hI := ingested_of_exec hcopies hworker h0 hg
  refine ⟨hI.not_threw, hF.not_broken, ?_, ?_, fun ho hfit hstuck => comes_to_rest hcopies hwaits hwc h h0 hg ho hfit hstuck⟩
  · obtain ⟨rest, hrest⟩ := (parsed_of_exec hparser).lines.trans hI.in_order
    rw [← hrest, splitOn_terminated_append hclean, List.dropLast_append_of_ne_nil (List.splitOn_ne_nil _ _)]
    exact List.prefix_append _ _
  · intro remaining hend
    obtain ⟨hbytes, hfree⟩ := hF.atEnd hend
    have hall := (hC.finished_of_completed (hF.completed_of_atEnd hend)
      (not_threw_of_exec hcopies hworker h0 hg)).2
    have hstream := ingested_eq (Client.exec_monitor Machine.Any hparser (fun _ _ _ => trivial)) hr
    rw [← hall, hstream, hbytes]
    exact splitOn_terminated hclean hfree

end Runs

/-- A worker of `threaded_copy_from_socket` waits when everything is written that has arrived. -/
theorem socketBytes_of_waits {chunkSize : ChunkSize} {recvs : List (RecvResult chunkSize)}
    (h : socketTurn recvs = .waits) : socketBytes recvs = [] := by
  induction recvs with
  | nil => rfl
  | cons r recvs ih =>
    cases r with
    | interrupted => exact ih h
    | _ => cases h

theorem fileTurn_not_waits (chunkSize : ChunkSize) (f : FileInput) : fileTurn chunkSize f ≠ .waits := by
  unfold fileTurn
  dsimp only
  split_ifs <;> intro h <;> cases h

/-- From the input to the lines, for every sequence of results of `recv` and every file, in every run of a worker and the
parser in which no allocation fails: no exception escapes; the lines handed out are the first lines of the bytes received
and none is handed out that is not complete; a parser at the end has handed out all of them and has the rest.  If segments
are not larger than the resume threshold and the lines fit, the two threads never block each other: when none of them has a
step left, both are at their end, or the parser was cancelled, or the worker waits for more and all lines that have arrived
are handed out. -/
theorem ingestion_hands_out_lines {ρ π τ : Type} [MemoryResource ρ π] [DecidableEq τ] [Fintype τ] (o : ValidatedOptions)
    (token : Option Nat) {w c : τ} (hwc : w ≠ c) (m : ρ) (chunkSize : ChunkSize) :
    (∀ (recvs : List (RecvResult chunkSize)) tr
        (x : (CopyStage (List (RecvResult chunkSize)) × DelimiterParser) × PipeState τ ρ π),
      (Client.pair (copyWorker socketTurn) (delimiterParser token) (pipeline ρ o) w c).Exec
        (LineRun socketTurn token w c) ((socketWorker (.ok ()) recvs, .new), State.init (Pipe.new m)) tr x →
      HandsOut o socketTurn token w c (socketBytes recvs) x) ∧
    ∀ (file : Option (List Byte)) tr (x : (CopyStage FileInput × DelimiterParser) × PipeState τ ρ π),
      (Client.pair (copyWorker (fileTurn chunkSize)) (delimiterParser token) (pipeline ρ o) w c).Exec
        (LineRun (fileTurn chunkSize) token w c) ((fileWorker (.ok ()) file, .new), State.init (Pipe.new m)) tr x →
      HandsOut o (fileTurn chunkSize) token w c (file.getD []) x := by
  constructor
  · intro recvs tr x h
    exact handsOut_of_exec socket_copies (fun _ => socketBytes_of_waits) hwc h (.looping recvs rfl rfl)
      (fun e h => by cases h)
  · intro file tr x h
    have h0 : Copying (fileTurn chunkSize) fileBytes (file.getD []) [] (Pipe.new m : Pipe ρ π)
        (fileWorker (.ok ()) file) none := by
      cases file <;> exact .looping _ rfl rfl
    exact handsOut_of_exec (file_copies chunkSize) (fun f hf => absurd hf (fileTurn_not_waits chunkSize f)) hwc h h0
      (by cases file <;> intro e h <;> cases h)

/-- A line arrives in two parts, the second one with a byte of the next line, and the stream ends. -/
def lineInTwoParts : List (RecvResult ChunkSize.sixteen) :=
  [.received ⟨[120, 121], by decide⟩ (by decide) (by decide), .interrupted,
    .received ⟨[10, 122], by decide⟩ (by decide) (by decide), .endOfStream]

/-- Thread `1` is asleep when the first part arrives, and comes back for the rest when the writer is completed. -/
def handOutLine : List (PipeAction (Fin 2)) :=
  [.call 1 (.readAtLeast 0 none), .run 1 false, .run 1 false, .run 1 false,
    .call 0 (.write ⟨[120, 121], by decide⟩ none), .run 0 false, .run 0 false, .run 0 false, .run 0 false, .run 0 false,
    .notify 0 (some 1), .run 1 false, .run 1 false, .run 1 false,
    .call 1 (.advance ⟨0, true⟩ ⟨2, true⟩), .run 1 false, .run 1 false,
    .call 0 (.write ⟨[10, 122], by decide⟩ none), .run 0 false, .run 0 false, .run 0 false, .run 0 false, .run 0 false,
    .call 0 .completeWriter, .run 0 false, .run 0 false, .notify 0 none, .notify 0 none,
    .call 1 (.readAtLeast 0 none), .run 1 false, .run 1 false,
    .call 1 (.advance ⟨3, true⟩ ⟨4, true⟩), .run 1 false, .run 1 false]

def lineStep (x : (CopyStage (List (RecvResult ChunkSize.sixteen)) × DelimiterParser) ×
    PipeState (Fin 2) FixedPoolResource Nat) : PipeAction (Fin 2) → Bool
  | .call t op => if t = 0 then x.1.1.calls socketTurn op else x.1.2.stage.calls op
  | .run _ oom => !oom
  | _ => true

theorem lineRun_of_lineStep (x : (CopyStage (List (RecvResult ChunkSize.sixteen)) × DelimiterParser) ×
    PipeState (Fin 2) FixedPoolResource Nat) (a : PipeAction (Fin 2)) (h : lineStep x a = true) :
    LineRun socketTurn none 0 1 x a := by
  refine ⟨⟨?_, ?_, ?_⟩, ?_⟩
  · rintro op rfl
    exact CopyStage.call_eq h
  · rintro op rfl
    exact (ParserStage.call_eq h).1
  · intro t op _
    omega
  · rintro t rfl
    simp [lineStep] at h

theorem ingestion_hands_out_lines_handOutLine :
    ∃ tr, ∃ x : (CopyStage (List (RecvResult ChunkSize.sixteen)) × DelimiterParser) ×
        PipeState (Fin 2) FixedPoolResource Nat,
      (Client.pair (copyWorker socketTurn) (delimiterParser none) (pipeline FixedPoolResource .small) 0 1).Exec
        (LineRun socketTurn none 0 1) ((socketWorker (.ok ()) lineInTwoParts, .new), State.init (Pipe.new (.make .small)))
        tr x ∧
      Client.Stuck (copyWorker socketTurn) (delimiterParser none) (pipeline FixedPoolResource .small) 0 1 x ∧
      ComesToRest socketTurn none (socketBytes lineInTwoParts) x ∧
      x.1.2.lines.map SegmentedByteView.flatten = [[120, 121]] ∧
      [[120, 121]] <+: ((socketBytes lineInTwoParts).splitOn newline).dropLast := by
  obtain ⟨tr, x, h, hc⟩ := Machine.exists_exec_of_run
    (Client.pair (copyWorker socketTurn) (delimiterParser none) (pipeline FixedPoolResource .small) (0 : Fin 2) 1)
    (LineRun socketTurn none 0 1)
    ((socketWorker (.ok ()) lineInTwoParts, .new), State.init (Pipe.new (.make .small))) lineStep handOutLine
    (fun _ x => decide (x.1.2.lines.map SegmentedByteView.flatten = [[120, 121]] ∧
      (∀ t, (x.2.phase t).rests = true ∧ (x.2.phase t).local?.isNone) ∧
      (x.1.1.call socketTurn).isNone = true ∧ (x.1.2.call none).isNone = true))
    lineRun_of_lineStep (by decide)
  obtain ⟨hlines, hrests, hworker, hparser⟩ := of_decide_eq_true hc
  have hstuck : Client.Stuck (copyWorker socketTurn) (delimiterParser none) (pipeline FixedPoolResource .small) 0 1 x :=
    Client.stuck_of_outside (fun t => Phase.eq_outside (hrests t).1 (hrests t).2) (Option.isNone_iff_eq_none.1 hworker)
      (Option.isNone_iff_eq_none.1 hparser)
  have hH := (ingestion_hands_out_lines .small none (by decide) (.make .small) ChunkSize.sixteen).1 lineInTwoParts tr x h
  refine ⟨tr, x, h, hstuck, hH.rest (by decide) (by decide) hstuck, hlines, ?_⟩
  rw [← hlines]
  exact hH.lines

end Xtd
