import Xtd.Pipeline.Stream
import Xtd.Pipeline.Completion

/-!
# The end of the stream

`complete_writer` clears the pause flag and wakes the writers, also one that is in the middle of a write.  Every pass of
the loops of `write` looks at the completion flags again before it copies a chunk, so nothing is committed after the
writer is completed.  From then on the readable bytes only get less, by what `advance` drops from their front, and a
read that reports the end of the stream is followed by reads that return the rest of what it has returned.
-/

namespace Xtd

open Concurrency

variable {ρ π τ : Type} [MemoryResource ρ π] [DecidableEq τ] [Fintype τ] {o : ValidatedOptions} {p : Pipe ρ π}
  {ok : PipeState τ ρ π → PipeAction τ → Prop} {m : ρ} {tr tr' evs : List PipeEvent} {s s' : PipeState τ ρ π}
  {a : PipeAction τ}

/-! ### One piece -/

/-- A completed writer commits nothing. -/
theorem no_commit_piece (hw : p.writerCompleted = true) (l : PipeLocal) (stop oom : Bool) (i : Nat)
    (bytes : List Byte) : .commit i bytes ∉ ((pipeline ρ o).exec l p stop oom).events := by
  have hm := pipe_moves o l p stop oom
  generalize (pipeline ρ o).exec l p stop oom = r at hm ⊢
  have tail : ∀ {q : Pipe ρ π}, .commit i bytes ∉ (q.readTail stop).events := by
    intro q
    rcases readTail_cases q stop with ⟨-, he⟩ | ⟨-, he⟩ <;> rw [he] <;> simp
  have unlock : ∀ {q : Pipe ρ π} {call data copied notify token stop},
      .commit i bytes ∉ (q.writeUnlock call data copied notify token stop).events := by
    intro q call data copied notify token stop h
    cases h
  cases hm with
  | chunk q n hd hp hc ha hq => simp [Pipe.isAnyCompleted, hw] at hc
  | leave => exact unlock
  | pause => exact unlock
  | readNow => exact tail
  | readAfter => exact tail
  | _ => simp [Pipe.completeWriter, Pipe.completeReader]

/-- With the writer completed a piece only drops bytes from the front. -/
theorem bytes_of_completed (hA : Accounted o p) (hw : p.writerCompleted = true) {l : PipeLocal} (hl : l.Ordered)
    (hne : l ≠ .completeReader) (stop oom : Bool) :
    dropped ((pipeline ρ o).exec l p stop oom).events ++
      readableBytes ((pipeline ρ o).exec l p stop oom).shared.segments = readableBytes p.segments := by
  rcases stream_piece hA hl hne stop oom with ⟨i, rest, copied, n, hc⟩ | hc
  · refine absurd ?_ (no_commit_piece (o := o) hw l stop oom i (rest.take n))
    rw [hc.events]
    exact List.mem_singleton.2 rfl
  · exact hc.bytes

/-- A successful `advance` drops as many bytes as it was asked to consume. -/
theorem length_advanced (hA : Accounted o p) {consumed examined : Nat} (hce : consumed ≤ examined) {stop oom : Bool}
    {bytes : List Byte}
    (h : .advanced bytes ∈ ((pipeline ρ o).exec (.advance consumed examined) p stop oom).events) :
    bytes = (readableBytes p.segments).take consumed ∧ bytes.length = consumed := by
  have hm := pipe_moves o (.advance consumed examined) p stop oom
  generalize (pipeline ρ o).exec (.advance consumed examined) p stop oom = r at hm h
  cases hm with
  | advanceThrow => cases h
  | advanceFault => cases h
  | advance q paused _ _ he hx hq hpa =>
    have hpend := hA.pending
    have hc : consumed ≤ p.bufferedSize := by omega
    obtain ⟨-, -, hdrop, -⟩ := consume_spec hA hc
    simp only [List.mem_singleton, PipeEvent.advanced.injEq] at h
    have hlen : ((readableBytes p.segments).take consumed).length = consumed := by
      rw [List.length_take, length_readableBytes, ← hA.buffered]
      omega
    rw [h, hdrop]
    exact ⟨rfl, hlen⟩

/-! ### Runs after the writer is completed -/

/-- Completion flags stay set. -/
theorem completed_step (hm : (pipeline ρ o).Moves s a s' evs) :
    (s.shared.writerCompleted = true → s'.shared.writerCompleted = true) ∧
      (s.shared.readerCompleted = true → s'.shared.readerCompleted = true) := by
  rcases hm.shared_eq with ⟨he, -⟩ | ⟨t, z, l, -, -, he⟩
  · rw [he]
    exact ⟨id, id⟩
  · rw [he]
    exact ⟨writerCompleted_mono _ _ _, readerCompleted_mono _ _ _⟩

theorem readerCompleted_of_exec (h : ((pipeline ρ o).machine τ).Exec ok s tr s')
    (hr : s'.shared.readerCompleted = false) : s.shared.readerCompleted = false := by
  induction h with
  | nil => exact hr
  | snoc _ _ hs ih =>
    refine ih ?_
    rw [← Bool.not_eq_true]
    intro hc
    rw [(completed_step (Monitor.moves_of_step hs)).2 hc] at hr
    cases hr

private theorem eq_nil_of_append_cons {e : PipeEvent} {before after : List PipeEvent}
    (h : before ++ e :: after = [e]) : before = [] ∧ after = [] := by
  have := congrArg List.length h
  simp only [List.length_append, List.length_cons, List.length_nil] at this
  exact ⟨List.length_eq_zero_iff.1 (by omega), List.length_eq_zero_iff.1 (by omega)⟩

/-- One step with the writer completed. -/
private theorem ended_step (h : ((pipeline ρ o).machine τ).Exec ok (State.init (Pipe.new m)) tr s)
    (hm : (pipeline ρ o).Moves s a s' evs) (hw : s.shared.writerCompleted = true) :
    (∀ i bytes, .commit i bytes ∉ evs) ∧
      (s'.shared.readerCompleted = false →
        dropped evs ++ readableBytes s'.shared.segments = readableBytes s.shared.segments) := by
  have hend := Monitor.doneEvents_of_exec h (fun l y stop z _ _ _ _ => doneEvents_isEnd o l y stop z)
  obtain ⟨hacc, hord⟩ := accounted_of_exec h
  constructor
  · intro i bytes he
    rcases hm.mem_events he with ⟨t, op, -, he⟩ | ⟨t, z, l, -, -, he | he⟩ | ⟨t, he⟩
    · exact enter_not_transfers he trivial
    · exact no_commit_piece hw _ _ _ _ _ he
    · cases doneEvents_isEnd o _ _ _ _ _ he
    · cases hend t _ he
  · intro hr
    have hA : Accounted o s.shared := by
      rcases hacc with hc | hA
      · rw [(completed_step hm).2 hc] at hr; cases hr
      · exact hA
    rcases hm.events_eq with ⟨t, op, rfl, -, rfl, -⟩ | ⟨t, z, l, evs', rfl, hl, rfl, hd, -⟩ | ⟨-, hrun, hd, -⟩
    · rw [hm.of_call.1]
      show dropped (op.enter s.calls).1 ++ _ = _
      rw [dropped_of_still (pipe_enters op s.calls).still, List.nil_append]
    · have hne : l ≠ .completeReader := by
        rintro rfl
        rw [(hm.of_piece hl).1] at hr
        cases hr
      have hstill : ∀ e ∈ evs', e.Still := fun e he => still_of_isEnd (doneEvents_isEnd o _ _ _ _ e (hd e he))
      rw [dropped_append, dropped_of_still hstill, List.append_nil, (hm.of_piece hl).1]
      exact bytes_of_completed hA hw (hord t l (Monitor.local?_of_locked hl)) hne _ _
    · have hstill : ∀ e ∈ evs, e.Still := by
        intro e he
        obtain ⟨t, ht⟩ := hd e he
        exact still_of_isEnd (hend t e ht)
      rcases hm.shared_eq with ⟨he, -⟩ | ⟨t, z, l, ha, hl, -⟩
      · rw [he, dropped_of_still hstill, List.nil_append]
      · exact absurd hl (hrun t z l ha)

/-- In every run from a state with the writer completed nothing is committed, and the readable bytes are those of the
beginning without what was dropped. -/
theorem ended_of_exec (h : ((pipeline ρ o).machine τ).Exec ok (State.init (Pipe.new m)) tr s)
    (h' : ((pipeline ρ o).machine τ).Exec ok s tr' s') (hw : s.shared.writerCompleted = true) :
    s'.shared.writerCompleted = true ∧ (∀ i bytes, .commit i bytes ∉ tr') ∧
      (s'.shared.readerCompleted = false →
        dropped tr' ++ readableBytes s'.shared.segments = readableBytes s.shared.segments) := by
  induction h' with
  | nil => exact ⟨hw, by simp, fun _ => rfl⟩
  | @snoc tr' evs u v a h' ha hs ih =>
    obtain ⟨hw', hcom, hbytes⟩ := ih
    have hm := Monitor.moves_of_step hs
    obtain ⟨hcom', hbytes'⟩ := ended_step (h.trans h') hm hw'
    refine ⟨(completed_step hm).1 hw', ?_, ?_⟩
    · intro i bytes he
      rcases List.mem_append.1 he with he | he
      · exact hcom i bytes he
      · exact hcom' i bytes he
    · intro hr
      have hr' := readerCompleted_of_exec (.snoc .nil ha hs) hr
      rw [dropped_append, List.append_assoc, hbytes' hr, hbytes hr']

/-- The step at which the writer is completed shows nothing else. -/
private theorem writerCompleted_step (h : ((pipeline ρ o).machine τ).Exec ok (State.init (Pipe.new m)) tr s)
    (hm : (pipeline ρ o).Moves s a s' evs) (he : .writerCompleted ∈ evs) :
    evs = [.writerCompleted] ∧ s'.shared.writerCompleted = true := by
  obtain ⟨t, z, l, rfl, hl, hp, honly⟩ := shown_by_piece h hm he rfl nofun
  obtain rfl := writerCompleted_piece hp
  exact ⟨honly rfl, by rw [(hm.of_piece hl).1]; rfl⟩

/-- End of stream is final.  In every run before `complete_reader`: after `complete_writer` nothing is committed; the
reads that follow a read with `completed()` set have it set too and return what that read has returned without the
bytes dropped in between; and a successful `advance` drops exactly as many bytes as it consumes. -/
theorem end_of_stream_final
    (h : ((pipeline ρ o).machine τ).Exec Machine.Any (State.init (Pipe.new m)) tr s)
    (hr : s.shared.readerCompleted = false) :
    (∀ tr₁ tr₂, tr = tr₁ ++ .writerCompleted :: tr₂ → ∀ i bytes, .commit i bytes ∉ tr₂) ∧
    (∀ tr₁ tr₂ tr₃ b b' completed,
      tr = tr₁ ++ .readReturn b true :: (tr₂ ++ .readReturn b' completed :: tr₃) →
      completed = true ∧ b'.flatten = b.flatten.drop (dropped tr₂).length) ∧
    ∀ t z s' evs consumed examined bytes, s.phase t = .locked (.advance consumed examined) →
      ((pipeline ρ o).machine τ).step s (.run t z) = some (s', evs) → .advanced bytes ∈ evs →
      bytes = (readableBytes s.shared.segments).take consumed ∧ bytes.length = consumed := by
  refine ⟨?_, ?_, ?_⟩
  · intro tr₁ tr₂ htr i bytes
    obtain ⟨tr₁', tr₂', before, after, u, v, a, h1, -, hs, h2, rfl, rfl⟩ := h.split htr
    obtain ⟨he, hw⟩ := writerCompleted_step h1 (Monitor.moves_of_step hs) (by simp)
    obtain ⟨rfl, rfl⟩ := eq_nil_of_append_cons he
    exact (ended_of_exec (h1.snoc trivial hs) h2 hw).2.1 i bytes
  · intro tr₁ tr₂ tr₃ b b' completed htr
    -- the later read, the earlier one before it, and the run in between
    obtain ⟨tr₁', tr₂', before, after, u, v, a, h1, -, hs, h2, rfl, htr'⟩ := h.split htr
    obtain ⟨rfl, hc, he, waiting, hv⟩ := readReturn_step h1 (Monitor.moves_of_step hs)
      (List.mem_append_right _ (List.mem_cons_self ..))
    obtain ⟨rfl, rfl⟩ := eq_nil_of_append_cons he
    obtain ⟨tr₃', tr₄', before', after', u', v', a', h3, -, hs', h4, rfl, rfl⟩ := h2.split htr'.symm
    have h1' := h1.snoc trivial hs
    obtain ⟨rfl, hc', he', waiting', hv'⟩ := readReturn_step (h1'.trans h3) (Monitor.moves_of_step hs')
      (List.mem_append_right _ (List.mem_cons_self ..))
    obtain ⟨rfl, rfl⟩ := eq_nil_of_append_cons he'
    have hw : v.shared.writerCompleted = true := by rw [hv]; exact hc.symm
    obtain ⟨hw', -, hbytes⟩ := ended_of_exec h1' h3 hw
    have hr' : u'.shared.readerCompleted = false := by
      have := readerCompleted_of_exec h4 hr
      rwa [hv'] at this
    refine ⟨by rw [hc', hw'], ?_⟩
    have hbytes := hbytes hr'
    rw [hv] at hbytes
    rw [List.append_nil, flatten_makeReadableView, flatten_makeReadableView, ← hbytes, List.drop_left]
  · intro t z s' evs consumed examined bytes hl hs he
    have hm := Monitor.moves_of_step hs
    have hord := (accounted_of_exec h).2
    have hA := accounted_of_open h hr
    obtain ⟨t', z', l, ha, hl', hp, -⟩ := shown_by_piece h hm he rfl nofun
    cases ha
    rw [hl] at hl'
    cases hl'
    exact length_advanced hA (hord t _ (Monitor.local?_of_locked hl)) hp

/-- Thread `0` writes five bytes and is paused after four.  Thread `2` completes the writer; thread `1` reads the four
bytes, consumes three of them and reads again, and thread `0` finds its write at an end. -/
def completeUnderWrite : List (PipeAction (Fin 3)) :=
  [.call 0 (.write .oneToFive none),
    .run 0 false, .run 0 false, .run 0 false, .run 0 false, .run 0 false, .run 0 false,
    .run 0 false, .run 0 false, .run 0 false,
    .call 2 .completeWriter, .run 2 false, .run 2 false, .notify 2 none, .notify 2 none,
    .call 1 (.readAtLeast 0 none), .run 1 false, .run 1 false,
    .call 1 (.advance ⟨3, true⟩ ⟨4, true⟩), .run 1 false, .run 1 false,
    .run 0 false, .run 0 false, .run 0 false,
    .call 1 (.readAtLeast 0 none), .run 1 false, .run 1 false]

private def isWriterCompleted : PipeEvent → Bool
  | .writerCompleted => true
  | _ => false

private theorem eq_of_isWriterCompleted {e : PipeEvent} (h : isWriterCompleted e = true) : e = .writerCompleted := by
  unfold isWriterCompleted at h
  split at h
  · rfl
  · cases h

/-- The last read sees the byte that was left. -/
private def isReadOfFour : PipeEvent → Bool
  | .readReturn b true => decide (b.flatten = [4])
  | _ => false

theorem end_of_stream_final_completeUnderWrite :
    ∃ tr, ∃ s : PipeState (Fin 3) FixedPoolResource Nat,
      ((pipeline FixedPoolResource .small).machine (Fin 3)).Exec Machine.Any (State.init (Pipe.new (.make .small))) tr s ∧
      s.shared.readerCompleted = false ∧ .writerCompleted ∈ tr ∧ dropped tr = [1, 2, 3] ∧
      (∀ tr₁ tr₂, tr = tr₁ ++ .writerCompleted :: tr₂ → ∀ i bytes, .commit i bytes ∉ tr₂) ∧
      ∀ tr₁ tr₂ tr₃ b b' completed,
        tr = tr₁ ++ .readReturn b true :: (tr₂ ++ .readReturn b' completed :: tr₃) →
        completed = true ∧ b'.flatten = b.flatten.drop (dropped tr₂).length := by
  obtain ⟨tr, s, h, hc⟩ := Machine.exists_exec_of_run ((pipeline FixedPoolResource .small).machine (Fin 3))
    Machine.Any (State.init (Pipe.new (.make .small))) (fun _ _ => true) completeUnderWrite
    (fun tr s => decide (s.shared.readerCompleted = false ∧ dropped tr = [1, 2, 3]) &&
      (tr.any isWriterCompleted && tr.any isReadOfFour))
    (fun _ _ _ => trivial) (by decide)
  rw [Bool.and_eq_true, Bool.and_eq_true] at hc
  obtain ⟨hr, hd⟩ := of_decide_eq_true hc.1
  obtain ⟨e, he, hw⟩ := List.any_eq_true.1 hc.2.1
  rw [eq_of_isWriterCompleted hw] at he
  obtain ⟨h1, h2, -⟩ := end_of_stream_final h hr
  exact ⟨tr, s, h, hr, he, hd, h1, h2⟩

end Xtd
