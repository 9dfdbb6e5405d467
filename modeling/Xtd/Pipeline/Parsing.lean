import Xtd.Pipeline.Framing
import Xtd.Pipeline.Ingestion

/-!
# The delimiter parser, step by step

What a step of a run makes of the delimiter parser: it takes the lines off a buffer, is cancelled, or goes on to its next
call.  The lines it has handed out stay a beginning of the stream also when it is cancelled, and the bytes it has examined
and left in the pipeline have no `'\n'`.
-/

namespace Xtd

open Concurrency

variable {ρ π τ : Type} {token : Option Nat} {g g' : DelimiterParser} {p : Pipe ρ π} {tr evs : List PipeEvent}

/-! ### What is in the pipeline -/

section Stream

variable [MemoryResource ρ π] [DecidableEq τ] [Fintype τ] {o : ValidatedOptions} {m : ρ} {s : PipeState τ ρ π}

private theorem ingested_of_committed (h : ∀ i, committed evs i = []) : ingested evs = [] := by
  simp only [ingested, List.flatMap_eq_nil_iff]
  intro e he
  cases e with
  | commit i bytes =>
    have hnil := List.flatMap_eq_nil_iff.1 (h i) _ he
    simpa [PipeEvent.committedBytes, PipeEvent.commitBytes] using hnil
  | _ => rfl

/-- A piece moves bytes from the calls into the pipeline or out of it. -/
private theorem ingested_piece (hA : Accounted o p) {l : PipeLocal} (hl : l.Ordered)
    (hne : l ≠ .completeReader) (stop oom : Bool) :
    readableBytes p.segments ++ ingested ((pipeline ρ o).exec l p stop oom).events =
      dropped ((pipeline ρ o).exec l p stop oom).events ++
        readableBytes ((pipeline ρ o).exec l p stop oom).shared.segments := by
  rcases stream_piece hA hl hne stop oom with ⟨i, rest, copied, n, hc⟩ | hc
  · rw [hc.events, hc.bytes]
    simp [ingested, dropped, PipeEvent.commitBytes, PipeEvent.droppedBytes]
  · rw [ingested_of_committed hc.commits, List.append_nil, hc.bytes]

/-- What was copied into the pipeline was dropped or is still there. -/
theorem ingested_eq {ok : PipeState τ ρ π → PipeAction τ → Prop}
    (h : ((pipeline ρ o).machine τ).Exec ok (State.init (Pipe.new m)) tr s) (hr : s.shared.readerCompleted = false) :
    ingested tr = dropped tr ++ readableBytes s.shared.segments := by
  induction h with
  | nil => rfl
  | @snoc tr evs s s' a h hok hs ih =>
    have hr0 := readerCompleted_of_exec (.snoc .nil hok hs) hr
    have hm := Monitor.moves_of_step hs
    rw [ingested_append, dropped_append, ih hr0, List.append_assoc, List.append_assoc]
    congr 1
    have hquiet : ∀ {evs' : List PipeEvent}, (∀ e ∈ evs', e.isEnd = true) → ingested evs' = [] ∧ dropped evs' = [] :=
      fun hend => ⟨ingested_of_isEnd hend, dropped_of_still fun e he => still_of_isEnd (hend e he)⟩
    rcases hm.events_eq with ⟨t, op, rfl, -, rfl, -⟩ | ⟨t, z, l, evs', rfl, hl, rfl, hd, -⟩ | ⟨-, hidle, hd, -⟩
    · have hboth : ∀ e ∈ ((pipeline ρ o).enter op s.calls).1, e.commitBytes = [] ∧ e.droppedBytes = [] := by
        intro e he
        rcases enter_events he with ⟨_, rfl⟩ | ⟨_, _, rfl⟩ | ⟨_, rfl⟩ <;> exact ⟨rfl, rfl⟩
      have hi : ingested ((pipeline ρ o).enter op s.calls).1 = [] :=
        List.flatMap_eq_nil_iff.2 fun e he => (hboth e he).1
      have hn : dropped ((pipeline ρ o).enter op s.calls).1 = [] :=
        List.flatMap_eq_nil_iff.2 fun e he => (hboth e he).2
      rw [hi, hn, hm.of_call.1]
      simp
    · obtain ⟨hi, hn⟩ := hquiet fun e he => doneEvents_isEnd o _ _ _ _ e (hd e he)
      have hA := accounted_of_open h hr0
      have hord := (accounted_of_exec h).2 t l (Monitor.local?_of_locked hl)
      have hsh := (hm.of_piece hl).1
      have hne : l ≠ .completeReader := by
        rintro rfl
        rw [hsh] at hr
        cases hr
      rw [ingested_append, dropped_append, hi, hn, List.append_nil, List.append_nil, hsh]
      exact ingested_piece hA hord hne _ _
    · have hend : ∀ e ∈ evs, e.isEnd = true := by
        intro e he
        obtain ⟨t, ht⟩ := hd e he
        exact Monitor.doneEvents_of_exec h (fun l y stop z _ _ _ _ => doneEvents_isEnd o l y stop z) t _ ht
      obtain ⟨hi, hn⟩ := hquiet hend
      have hsame : s'.shared = s.shared := by
        rcases hm.shared_eq with ⟨he, -⟩ | ⟨t, z, l, ha, hl, -⟩
        · exact he
        · exact absurd hl (hidle t z l ha)
      rw [hi, hn, hsame]
      simp

end Stream

/-! ### A piece of the parser -/

/-- What a piece of a call can make of the parser, where `stop` is the answer of its stop token. -/
inductive ParserMoves (stop : Bool) (g : DelimiterParser) : DelimiterParser → Prop
  | same : ParserMoves stop g g
  | cancelled (h : stop = true) : ParserMoves stop g ⟨g.lines, .cancelled⟩
  | parsed (lines : List SegmentedByteView) (remaining : SegmentedByteView) (completed : Bool)
      (hsize : remaining.flatten.length = remaining.size) :
      ParserMoves stop g ⟨g.lines ++ lines, .advancing remaining completed⟩
  | next : ParserMoves stop g ⟨g.lines, .reading⟩
  | finished (remaining : SegmentedByteView) : ParserMoves stop g ⟨g.lines, .finished remaining⟩

private theorem parser_readTail {lines : List SegmentedByteView} (hlt : readableSize p.segments < SizeT.modulus)
    (stop : Bool) : ParserMoves stop ⟨lines, .reading⟩ (DelimiterParser.after ⟨lines, .reading⟩ (p.readTail stop)) := by
  rcases readTail_cases p stop with ⟨rfl, he⟩ | ⟨-, he⟩ <;> rw [he]
  · exact .cancelled rfl
  · have hv := wellFormed_makeReadableView hlt
    have hsize := size_makeReadableView hlt
    have hbegin : (makeReadableView p.segments).beginOffset = 0 := rfl
    obtain ⟨lines', rest, hloop, hrest, -⟩ := SegmentedByteView.lineLoop_spec hv (by omega) (Nat.lt_succ_self _)
    have hafter : DelimiterParser.after ⟨lines, .reading⟩
        (⟨{ p with hasPendingRead := true, pendingReadSize := (makeReadableView p.segments).size },
          [.readReturn (makeReadableView p.segments) p.writerCompleted], .release [] (.done [])⟩ : PipePiece ρ π) =
        ⟨lines ++ lines', .advancing rest p.writerCompleted⟩ := by
      show DelimiterParser.parse _ _ _ = _
      rw [DelimiterParser.parse, hloop]
    rw [hafter]
    exact .parsed lines' rest p.writerCompleted hrest.size_eq.symm

section

variable [MemoryResource ρ π] {o : ValidatedOptions}

/-- What a piece of its call makes of the parser; `asked` tells on which tokens a stop was requested. -/
theorem parser_moves (hA : Accounted o p) (hr : p.readerCompleted = false) {l : PipeLocal}
    (h : Framed token tr p g (some l)) (asked : Option Nat → Bool) (oom : Bool) :
    ParserMoves (asked token) g (g.after ((pipeline ρ o).exec l p (asked l.token) oom)) := by
  have hlt : readableSize p.segments < SizeT.modulus := hA.buffered ▸ hA.buffered_lt
  cases h with
  | reading lines _ hl hpending hlines =>
    rcases hl l rfl with rfl | rfl
    · have hm := pipe_moves o (.readTop 0 token) p (asked token) oom
      change ParserMoves _ _ (DelimiterParser.after _ ((pipeline ρ o).exec (.readTop 0 token) p (asked token) oom))
      generalize (pipeline ρ o).exec (.readTop 0 token) p (asked token) oom = r at hm ⊢
      cases hm with
      | readThrow e h =>
        rw [hpending, hr] at h
        simp at h
      | readWait => exact .same
      | readNow => exact parser_readTail hlt _
    · exact parser_readTail (p := { p with readerWaiting := false }) hlt _
  | advancing lines remaining completed _ more hl hpending hsize hbytes hbegin hcompleted hfree =>
    obtain rfl := hl l rfl
    have hpend := hA.pending
    obtain ⟨hexit, -⟩ := consume_spec hA (show remaining.beginOffset ≤ p.bufferedSize by omega)
    have hm := pipe_moves o (.advance remaining.beginOffset (remaining.beginOffset + remaining.size)) p
      (asked (PipeLocal.advance remaining.beginOffset (remaining.beginOffset + remaining.size)).token) oom
    generalize (pipeline ρ o).exec (.advance remaining.beginOffset (remaining.beginOffset + remaining.size)) p
      (asked (PipeLocal.advance remaining.beginOffset (remaining.beginOffset + remaining.size)).token) oom = r at hm ⊢
    cases hm with
    | advanceThrow e h => exact absurd h (not_advanceThrow hr hpending (Nat.le_of_eq hsize.symm))
    | advanceFault evs _ _ _ hx => exact absurd hexit hx
    | advance q paused =>
      cases completed with
      | true => exact .finished remaining
      | false => exact .next

/-- What the `advance` of the parser leaves examined has no `'\n'`. -/
theorem examined_advance (hA : Accounted o p) (hr : p.readerCompleted = false) {consumed examined : Nat}
    (h : Framed token tr p g (some (.advance consumed examined)))
    (hremaining : ∀ remaining completed, g.stage = .advancing remaining completed →
      remaining.flatten.length = remaining.size) (stop oom : Bool) :
    newline ∉ (readableBytes ((pipeline ρ o).exec (.advance consumed examined) p stop oom).shared.segments).take
      ((pipeline ρ o).exec (.advance consumed examined) p stop oom).shared.examinedSize := by
  cases h with
  | reading lines _ hl =>
    rcases hl _ rfl with hl | hl <;> cases hl
  | advancing lines remaining completed _ more hl hpending hsize hbytes hbegin hcompleted hfree =>
    cases hl _ rfl
    have hpend := hA.pending
    have hlt := hA.buffered_lt
    have hlen := hremaining remaining completed rfl
    obtain ⟨hexit, -, -, hrest, -⟩ := consume_spec hA (show remaining.beginOffset ≤ p.bufferedSize by omega)
    -- behind the lines the stream goes on with what remains
    have hdrop : (readableBytes p.segments).drop remaining.beginOffset = remaining.flatten ++ more := by
      have heq := congrArg (List.drop (terminated lines).length) hbytes
      rw [List.append_assoc, List.drop_left, hbegin, List.drop_length_add_append] at heq
      exact heq
    have hm := pipe_moves o (.advance remaining.beginOffset (remaining.beginOffset + remaining.size)) p stop oom
    generalize (pipeline ρ o).exec (.advance remaining.beginOffset (remaining.beginOffset + remaining.size)) p stop oom
      = r at hm ⊢
    cases hm with
    | advanceThrow e h => exact absurd h (not_advanceThrow hr hpending (Nat.le_of_eq hsize.symm))
    | advanceFault evs _ _ _ hx => exact absurd hexit hx
    | advance q paused _ _ he hx hq hpa =>
      subst hq
      have hsub : SizeT.sub (remaining.beginOffset + remaining.size) remaining.beginOffset = remaining.size := by
        rw [SizeT.sub_eq (Nat.le_add_right _ _) (by omega)]
        omega
      show newline ∉ (readableBytes (p.consume o remaining.beginOffset).segments).take (SizeT.sub _ _)
      rw [hrest, hdrop, hsub, ← hlen, List.take_left]
      exact hfree

/-- Other pieces change neither what is examined nor what is readable, but for bytes that are added. -/
theorem examined_piece (hA : Accounted o p) {l : PipeLocal} (hne : l ≠ .completeReader)
    (hadvance : ∀ consumed examined, l ≠ .advance consumed examined) (stop oom : Bool) :
    ((pipeline ρ o).exec l p stop oom).shared.examinedSize = p.examinedSize ∧
      readableBytes p.segments <+: readableBytes ((pipeline ρ o).exec l p stop oom).shared.segments := by
  have hm := pipe_moves o l p stop oom
  generalize (pipeline ρ o).exec l p stop oom = r at hm ⊢
  cases hm with
  | chunk q n hd hp hc ha hq =>
    obtain ⟨-, -, -, hbytes, -⟩ := copyChunk_spec hA hd ha hq
    obtain ⟨r, segs, b, a, hframe⟩ := copyChunk_frame hq
    have hsame : q.examinedSize = p.examinedSize := by rw [hframe]
    have hprefix : readableBytes p.segments <+: readableBytes q.segments := ⟨_, hbytes.symm⟩
    exact ⟨hsame, hprefix⟩
  | readNow => rcases readTail_cases p stop with ⟨-, he⟩ | ⟨-, he⟩ <;> rw [he] <;> exact ⟨rfl, List.prefix_rfl⟩
  | readAfter =>
    rcases readTail_cases { p with readerWaiting := false } stop with ⟨-, he⟩ | ⟨-, he⟩ <;> rw [he] <;>
      exact ⟨rfl, List.prefix_rfl⟩
  | advanceThrow => exact absurd rfl (hadvance _ _)
  | advanceFault => exact absurd rfl (hadvance _ _)
  | advance => exact absurd rfl (hadvance _ _)
  | completeReader => exact absurd rfl hne
  | _ => exact ⟨rfl, List.prefix_rfl⟩

end

/-- A parser that has ended has seen the end of the stream. -/
theorem Framed.completed_of_atEnd {l? : Option PipeLocal} (h : Framed token tr p g l?)
    {remaining : SegmentedByteView} (hg : g.AtEnd remaining) : p.writerCompleted = true := by
  cases h with
  | finished _ _ hw => exact hw
  | advancing _ _ _ _ _ _ _ _ _ _ hcompleted =>
    rcases hg with hg | hg <;> cases hg
    exact (hcompleted rfl).1
  | reading => rcases hg with hg | hg <;> cases hg
  | cancelled => rcases hg with hg | hg <;> cases hg

/-! ### Runs -/

variable [MemoryResource ρ π] [DecidableEq τ] [Fintype τ] {o : ValidatedOptions} {c w : τ} {m : ρ}
  {x x' : DelimiterParser × PipeState τ ρ π} {a : PipeAction τ}

/-- What is known of the parser in a run, whatever became of it. -/
structure Parsed (token : Option Nat) (tr : List PipeEvent) (x : DelimiterParser × PipeState τ ρ π) : Prop where
  remaining : ∀ remaining completed, x.1.stage = .advancing remaining completed →
    remaining.flatten.length = remaining.size
  lines : terminated x.1.lines <+: ingested tr
  cancelled : x.1.stage = .cancelled → x.2.stop token = true
  examined : newline ∉ (readableBytes x.2.shared.segments).take x.2.shared.examinedSize

/-- What a step of a run makes of the parser. -/
theorem parser_step
    (h : ((delimiterParser token).machine (pipeline ρ o) c).Exec (ParserRun token c w)
      (.new, State.init (Pipe.new m)) tr x)
    (hok : ParserRun token c w x a) (hs : ((delimiterParser token).machine (pipeline ρ o) c).step x a = some (x', evs)) :
    ParserMoves (x.2.stop token) x.1 x'.1 := by
  obtain ⟨hF, hclean, hdone⟩ := framed_of_exec h
  have hrun := Client.exec_monitor Machine.Any h (fun _ _ _ => trivial)
  have hr := (parser_locals h).1
  have hA := accounted_of_open hrun hr
  obtain ⟨-, hstep⟩ := Client.quiet_step hs hdone (fun z l n ns k _ hl hn => by
    rw [hl] at hF
    exact (framed_piece hA hr hF hclean (x.2.stop l.token) z).quiet n ns k hn)
  rcases hstep with ⟨op, rfl, hout, hnext⟩ | ⟨z, l, rfl, hl, hnext⟩ | ⟨-, -, hnext⟩
  · rw [hout] at hF
    obtain ⟨hnil, -⟩ := hF.call hA (hok.1 op rfl) x.2.calls
    rw [show ((pipeline ρ o).enter op x.2.calls).1 = [] from hnil] at hnext
    rw [hnext]
    exact .same
  · rw [hl] at hF
    rw [hnext]
    exact parser_moves hA hr hF x.2.stop z
  · rw [hnext]
    exact .same

/-- The lines handed out are a beginning of the stream, as long as the parser is not cancelled. -/
private theorem lines_of_framed
    (h : ((delimiterParser token).machine (pipeline ρ o) c).Exec (ParserRun token c w)
      (.new, State.init (Pipe.new m)) tr x) (hc : x.1.stage ≠ .cancelled) : terminated x.1.lines <+: ingested tr := by
  have hF := (framed_of_exec h).1
  have hr := (parser_locals h).1
  rw [ingested_eq (Client.exec_monitor Machine.Any h (fun _ _ _ => trivial)) hr]
  obtain ⟨g, s⟩ := x
  dsimp only at hF hc ⊢
  generalize (s.phase c).local? = l? at hF
  cases hF with
  | reading lines _ _ _ hlines =>
    rw [hlines]
    exact List.prefix_append _ _
  | advancing lines remaining completed _ more _ _ _ hbytes =>
    rw [hbytes, List.append_assoc]
    exact List.prefix_append _ _
  | finished lines remaining _ hbytes =>
    rw [hbytes]
    exact List.prefix_append _ _
  | cancelled => exact absurd rfl hc

/-- What the parser has examined stays free of `'\n'`. -/
private theorem examined_step
    (h : ((delimiterParser token).machine (pipeline ρ o) c).Exec (ParserRun token c w)
      (.new, State.init (Pipe.new m)) tr x) (hP : Parsed token tr x)
    (hm : (pipeline ρ o).Moves x.2 a x'.2 evs) :
    newline ∉ (readableBytes x'.2.shared.segments).take x'.2.shared.examinedSize := by
  have hrun := Client.exec_monitor Machine.Any h (fun _ _ _ => trivial)
  obtain ⟨hr, hlocals⟩ := parser_locals h
  have hA := accounted_of_open hrun hr
  rcases hm.shared_eq with ⟨he, -⟩ | ⟨t, z, l, rfl, hl, he⟩
  · rw [he]
    exact hP.examined
  · have hlocal := Monitor.local?_of_locked hl
    obtain ⟨hne, hwriter⟩ := hlocals t l hlocal
    rw [he]
    by_cases hadvance : ∃ consumed examined, l = .advance consumed examined
    · obtain ⟨consumed, examined, rfl⟩ := hadvance
      have htc : t = c := by
        by_contra htc
        cases hwriter htc
      subst htc
      have hF := (framed_of_exec h).1
      rw [hlocal] at hF
      exact examined_advance hA hr hF hP.remaining _ z
    · obtain ⟨hsame, more, hmore⟩ := examined_piece (o := o) hA hne (fun a b hab => hadvance ⟨a, b, hab⟩)
        (x.2.stop l.token) z
      have hle : x.2.shared.examinedSize ≤ (readableBytes x.2.shared.segments).length := by
        rw [length_readableBytes, ← hA.buffered]
        exact hA.examined
      have htake : (readableBytes ((pipeline ρ o).exec l x.2.shared (x.2.stop l.token) z).shared.segments).take
          x.2.shared.examinedSize = (readableBytes x.2.shared.segments).take x.2.shared.examinedSize := by
        rw [← hmore, List.take_append_of_le_length hle]
      show newline ∉ (readableBytes ((pipeline ρ o).exec l x.2.shared (x.2.stop l.token) z).shared.segments).take
        ((pipeline ρ o).exec l x.2.shared (x.2.stop l.token) z).shared.examinedSize
      rw [hsame, htake]
      exact hP.examined

theorem parsed_of_exec
    (h : ((delimiterParser token).machine (pipeline ρ o) c).Exec (ParserRun token c w)
      (.new, State.init (Pipe.new m)) tr x) : Parsed token tr x := by
  induction h with
  | nil =>
    exact ⟨(fun _ _ h => by cases h), List.nil_prefix, (fun h => by cases h), by simp [State.init, Pipe.new]⟩
  | @snoc tr evs x x' a h hok hs ih =>
    obtain ⟨hm, -⟩ := Client.moves_of_step hs
    have hmoves := parser_step h hok hs
    have hgrow : ingested tr <+: ingested (tr ++ evs) := by
      rw [ingested_append]
      exact List.prefix_append _ _
    have hexamined := examined_step h ih hm
    refine ⟨?_, ?_, ?_, hexamined⟩
    · intro remaining completed hstage
      generalize x'.1 = g' at hmoves hstage
      cases hmoves with
      | same => exact ih.remaining remaining completed hstage
      | parsed lines remaining' completed' hsize =>
        cases hstage
        exact hsize
      | _ => cases hstage
    · by_cases hc : x'.1.stage = .cancelled
      · have hlines : x'.1.lines = x.1.lines := by
          generalize x'.1 = g' at hmoves hc
          cases hmoves with
          | parsed => cases hc
          | _ => rfl
        rw [hlines]
        exact ih.lines.trans hgrow
      · exact lines_of_framed (.snoc h hok hs) hc
    · intro hc
      generalize x'.1 = g' at hmoves hc
      cases hmoves with
      | same => exact hm.stop_mono (ih.cancelled hc)
      | cancelled hstop => exact hm.stop_mono hstop
      | _ => cases hc

end Xtd
