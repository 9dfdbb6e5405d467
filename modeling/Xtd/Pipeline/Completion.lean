import Xtd.Pipeline.Accounting

/-!
# The end of the reader

`complete_reader` resets the counters and is meant to be the last thing that happens on the reading side.  A
`read_at_least` that is in its wait at that moment does not look at `m_reader_completed` again: it stays asleep while
the writer is not completed, and once the writer is completed it returns what the segments still hold as a successful
read.  If there is no such call, or only calls that are cancelled with the writer completed, completion is final.
-/

namespace Xtd

open Concurrency

variable {ρ π τ : Type} [MemoryResource ρ π] [DecidableEq τ] [Fintype τ] {o : ValidatedOptions} {p : Pipe ρ π}

/-- What `complete_reader` leaves behind. -/
structure Pipe.Closed (p : Pipe ρ π) : Prop where
  completed : p.readerCompleted = true
  pending : p.hasPendingRead = false
  buffered : p.bufferedSize = 0
  pendingSize : p.pendingReadSize = 0

/-- Every call of `read_at_least` that is in its wait finds the writer completed and a stop requested. -/
def WaitsCancelled (s : PipeState τ ρ π) : Prop :=
  ∀ u minSize token, (s.phase u).local? = some (.readAfterWait minSize token) →
    s.shared.writerCompleted = true ∧ s.stop token = true

/-- `complete_reader` takes effect only while no `read_at_least` is in its wait, unless cancelled with the writer
completed. -/
def CompletesReaderIdle (s : PipeState τ ρ π) (a : PipeAction τ) : Prop :=
  ∀ t z, a = .run t z → s.phase t = .locked .completeReader → WaitsCancelled s

/-- A successful read or bytes taken over from a write. -/
def PipeEvent.Transfers : PipeEvent → Prop
  | readReturn _ _ | commit _ _ => True
  | _ => False

/-! ### One piece -/

/-- In a pipeline that is closed every piece leaves it closed and transfers nothing, unless it is a read that comes out
of its wait without a stop. -/
theorem closed_piece (h : p.Closed) {l : PipeLocal} (stop oom : Bool)
    (hl : ∀ minSize token, l = .readAfterWait minSize token → stop = true) :
    let r := (pipeline ρ o).exec l p stop oom
    r.shared.Closed ∧ (∀ e ∈ r.events, ¬ e.Transfers) ∧
      ∀ minSize token, r.next.local? ≠ some (.readAfterWait minSize token) := by
  have hm := pipe_moves o l p stop oom
  generalize (pipeline ρ o).exec l p stop oom = r at hm ⊢
  have hany : p.isAnyCompleted = true := by simp [Pipe.isAnyCompleted, h.completed]
  have hr := h.completed
  have hp := h.pending
  cases hm with
  | topThrow => exact ⟨h, by simp, by simp [Next.local?]⟩
  | topWait hc => rw [hany] at hc; cases hc
  | leave =>
    rcases writeUnlock_cases p _ _ _ _ _ stop with ⟨-, he⟩ | ⟨-, he⟩ <;> rw [he]
    · exact ⟨h, by simp, by simp [Next.local?]⟩
    · exact ⟨h, by simp, by simp [Next.local?]⟩
  | loopThrow => exact ⟨h, by simp, by simp [Next.local?]⟩
  | loopStop _ _ hc => rw [hany] at hc; cases hc
  | pause _ _ hc => rw [hany] at hc; cases hc
  | loopOom _ _ hc => rw [hany] at hc; cases hc
  | chunk _ _ _ _ hc => rw [hany] at hc; cases hc
  | readThrow => exact ⟨h, by simp, by simp [Next.local?]⟩
  | readWait _ hc => rw [hr] at hc; cases hc
  | readNow _ hc => rw [hr] at hc; cases hc
  | readAfter =>
    rw [hl _ _ rfl]
    exact ⟨{ h with }, by simp [Pipe.readTail], by simp [Pipe.readTail, Next.local?]⟩
  | advanceThrow => exact ⟨h, by simp, by simp [Next.local?]⟩
  | advanceFault _ hc => rw [hr] at hc; cases hc
  | advance _ _ hc => rw [hr] at hc; cases hc
  | completeWriter => exact ⟨{ h with }, by simp [Pipe.completeWriter, PipeEvent.Transfers], by
      simp [Pipe.completeWriter, Next.local?]⟩
  | completeReader => exact ⟨⟨rfl, rfl, rfl, rfl⟩, by simp [Pipe.completeReader, PipeEvent.Transfers], by
      simp [Pipe.completeReader, Next.local?]⟩

/-- What ends a call is never a transfer: these are shown while the lock is held. -/
private theorem not_transfers_of_isEnd {e : PipeEvent} (h : e.isEnd = true) : ¬ e.Transfers := by
  cases e with
  | readReturn => cases h
  | commit => cases h
  | _ => exact id

theorem enter_not_transfers {op : PipeOp} {n : Nat} {e : PipeEvent} (h : e ∈ (op.enter n).1) : ¬ e.Transfers := by
  rcases enter_events h with ⟨_, rfl⟩ | ⟨_, _, rfl⟩ | ⟨_, rfl⟩ <;> exact id

theorem enter_not_readAfterWait {op : PipeOp} {n minSize : Nat} {token : Option Nat} :
    (op.enter n).2 ≠ some (.readAfterWait minSize token) := by
  intro h
  obtain ⟨evs, hen⟩ := pipe_enters_of_some h
  cases hen

/-! ### Runs -/

/-- The end of the reader is final in this state. -/
structure Final (s : PipeState τ ρ π) : Prop where
  closed : s.shared.Closed
  waits : WaitsCancelled s

variable {s s' : PipeState τ ρ π} {a : PipeAction τ} {tr evs : List PipeEvent}

/-- The step at which `complete_reader` takes effect. -/
private theorem final_of_completeReader (h : (pipeline ρ o).Moves s a s' evs) (hok : CompletesReaderIdle s a) {t : τ}
    {z : Bool} (ha : a = .run t z) (hl : s.phase t = .locked .completeReader)
    (hs : s'.shared = ((pipeline ρ o).piece s .completeReader z).shared) : Final s' := by
  constructor
  · rw [hs]; exact ⟨rfl, rfl, rfl, rfl⟩
  · intro u minSize token hu
    rcases h.local_eq hu with ⟨hu, -⟩ | ⟨op, -, he⟩ | ⟨z', l, ha', hl', hn⟩
    · obtain ⟨hw, hst⟩ := hok t z ha hl u minSize token hu
      rw [hs]
      exact ⟨hw, h.stop_mono hst⟩
    · exact absurd he enter_not_readAfterWait
    · rw [ha] at ha'
      cases ha'
      rw [hl] at hl'
      cases hl'
      cases hn

/-- Every step keeps the end of the reader final. -/
private theorem Final.step (hf : Final s) (h : (pipeline ρ o).Moves s a s' evs) : Final s' := by
  -- the piece at `l`, if the step runs one, is not a read that was not cancelled
  have hlocal : ∀ {t l minSize token}, s.phase t = .locked l → l = .readAfterWait minSize token →
      s.stop ((pipeline ρ o).token l) = true := by
    intro t l minSize token hl hr
    subst hr
    exact (hf.waits t minSize token (by rw [hl]; rfl)).2
  have hw : s.shared.writerCompleted = true → s'.shared.writerCompleted = true := by
    intro hw
    rcases h.shared_eq with ⟨he, -⟩ | ⟨t, z, l, -, hl, he⟩ <;> rw [he]
    · exact hw
    · exact writerCompleted_mono _ _ _ hw
  constructor
  · rcases h.shared_eq with ⟨he, -⟩ | ⟨t, z, l, -, hl, he⟩ <;> rw [he]
    · exact hf.closed
    · exact (closed_piece hf.closed _ z (fun _ _ hr => hlocal hl hr)).1
  · intro u minSize token hu
    rcases h.local_eq hu with ⟨hu, -⟩ | ⟨op, -, he⟩ | ⟨z, l, -, hl, hn⟩
    · obtain ⟨hc, hst⟩ := hf.waits u minSize token hu
      exact ⟨hw hc, h.stop_mono hst⟩
    · exact absurd he enter_not_readAfterWait
    · exact absurd hn ((closed_piece hf.closed _ z (fun _ _ hr => hlocal hl hr)).2.2 minSize token)

/-- No step transfers anything once the end of the reader is final. -/
private theorem Final.not_transfers (hf : Final s) (h : (pipeline ρ o).Moves s a s' evs)
    (hd : ∀ t, ∀ e ∈ (s.phase t).doneEvents, e.isEnd = true) : ∀ e ∈ evs, ¬ e.Transfers := by
  intro e he
  rcases h.mem_events he with ⟨t, op, -, he⟩ | ⟨t, z, l, -, hl, he | he⟩ | ⟨t, he⟩
  · exact enter_not_transfers he
  · refine (closed_piece hf.closed _ z (fun minSize token hr => ?_)).2.1 e he
    subst hr
    exact (hf.waits t minSize token (by rw [hl]; rfl)).2
  · exact not_transfers_of_isEnd (doneEvents_isEnd o _ _ _ _ e he)
  · exact not_transfers_of_isEnd (hd t e he)

private theorem final_of_exec {r : ρ}
    (h : ((pipeline ρ o).machine τ).Exec CompletesReaderIdle (State.init (Pipe.new r)) tr s)
    (hc : s.shared.readerCompleted = true) : Final s := by
  revert hc
  refine h.state_invariant (I := fun s => s.shared.readerCompleted = true → Final s) (fun h => nomatch h) ?_
  intro s a s' evs ih hok hs hc
  have hm := Monitor.moves_of_step hs
  rcases hm.shared_eq with ⟨he, -⟩ | ⟨t, z, l, ha, hl, he⟩
  · rw [he] at hc
    exact (ih hc).step hm
  · by_cases hne : l = .completeReader
    · subst hne
      exact final_of_completeReader hm hok ha hl he
    · rw [he] at hc
      exact (ih ((readerCompleted_piece hne _ z).symm.trans hc)).step hm

/-- In every run in which `complete_reader` takes effect only while no read is in its wait (or only reads that are
cancelled, with the writer completed), its effect is final: the counters stay reset, no read stays in its wait, and no
later step returns a successful read or commits a byte of a write. -/
theorem reader_completion_final {r : ρ}
    (h : ((pipeline ρ o).machine τ).Exec CompletesReaderIdle (State.init (Pipe.new r)) tr s)
    (hc : s.shared.readerCompleted = true) :
    s.shared.hasPendingRead = false ∧ s.shared.bufferedSize = 0 ∧ s.shared.pendingReadSize = 0 ∧
    (∀ t minSize token, (s.phase t).local? = some (.readAfterWait minSize token) →
      s.shared.dataAvailable minSize = true) ∧
    ∀ a s' evs, ((pipeline ρ o).machine τ).step s a = some (s', evs) →
      (∀ buffer completed, .readReturn buffer completed ∉ evs) ∧ ∀ call bytes, .commit call bytes ∉ evs := by
  have hf := final_of_exec h hc
  have hd := Monitor.doneEvents_of_exec h (fun l y stop z _ _ _ _ => doneEvents_isEnd o l y stop z)
  refine ⟨hf.closed.pending, hf.closed.buffered, hf.closed.pendingSize, ?_, ?_⟩
  · intro t minSize token ht
    simp [Pipe.dataAvailable, (hf.waits t minSize token ht).1]
  · intro a s' evs hs
    have hnot := hf.not_transfers (Monitor.moves_of_step hs) hd
    constructor
    · intro buffer completed he
      exact hnot _ he trivial
    · intro call bytes he
      exact hnot _ he trivial

private def completesReaderIdle (s : PipeState (Fin 2) ρ π) : PipeAction (Fin 2) → Bool
  | .run t _ =>
    match s.phase t with
    | .locked .completeReader =>
      decide (∀ u, (match (s.phase u).local? with
        | some (.readAfterWait _ token) => s.shared.writerCompleted && s.stop token
        | _ => true) = true)
    | _ => true
  | _ => true

omit [MemoryResource ρ π] in
private theorem completesReaderIdle_sound (s : PipeState (Fin 2) ρ π) (a : PipeAction (Fin 2))
    (h : completesReaderIdle s a = true) : CompletesReaderIdle s a := by
  rintro t z rfl hl u minSize token hu
  simp only [completesReaderIdle, hl, decide_eq_true_eq] at h
  have := h u
  rw [hu] at this
  simpa using this

/-- Thread `1` waits for data and is cancelled; thread `0` completes the writer and then the reader. -/
def cancelAndComplete : List (PipeAction (Fin 2)) :=
  [.call 1 (.readAtLeast 0 (some 7)), .run 1 false, .run 1 false, .run 1 false, .requestStop 7,
    .call 0 .completeWriter, .run 0 false, .run 0 false, .notify 0 none, .notify 0 none,
    .call 0 .completeReader, .run 0 false, .run 0 false]

private def isWokenRead : Phase PipeLocal CondVar PipeEvent → Bool
  | .woken .dataAvailable (.readAfterWait 0 (some 7)) => true
  | _ => false

private theorem eq_of_isWokenRead {ph : Phase PipeLocal CondVar PipeEvent} (h : isWokenRead ph = true) :
    ph = .woken .dataAvailable (.readAfterWait 0 (some 7)) := by
  unfold isWokenRead at h
  split at h
  · rfl
  · cases h

theorem reader_completion_final_cancelled :
    ∃ tr, ∃ s : PipeState (Fin 2) FixedPoolResource Nat,
      ((pipeline FixedPoolResource .small).machine (Fin 2)).Exec CompletesReaderIdle
        (State.init (Pipe.new (.make .small))) tr s ∧
      s.shared.readerCompleted = true ∧ s.phase 1 = .woken .dataAvailable (.readAfterWait 0 (some 7)) ∧
      s.shared.dataAvailable 0 = true := by
  obtain ⟨tr, s, h, hc⟩ := Machine.exists_exec_of_run ((pipeline FixedPoolResource .small).machine (Fin 2))
    CompletesReaderIdle (State.init (Pipe.new (.make .small))) completesReaderIdle cancelAndComplete
    (fun _ s => s.shared.readerCompleted && isWokenRead (s.phase 1)) completesReaderIdle_sound (by decide)
  simp only [Bool.and_eq_true] at hc
  have hp := eq_of_isWokenRead hc.2
  exact ⟨tr, s, h, hc.1, hp, (reader_completion_final h hc.1).2.2.2.1 1 0 (some 7) (by rw [hp]; rfl)⟩

/-- Thread `1` examines the only byte and reads again; then thread `0` completes the reader and the writer. -/
def completeUnderRead : List (PipeAction (Fin 2)) :=
  [.call 0 (.write ⟨[1], by decide⟩ none), .run 0 false, .run 0 false, .run 0 false, .run 0 false, .run 0 false,
    .call 1 (.readAtLeast 0 none), .run 1 false, .run 1 false, .run 1 false, .run 1 false,
    .call 1 (.advance ⟨0, true⟩ ⟨1, true⟩), .run 1 false, .run 1 false,
    .call 1 (.readAtLeast 0 none), .run 1 false, .run 1 false, .run 1 false,
    .call 0 .completeReader, .run 0 false, .run 0 false, .notify 0 none, .notify 0 none,
    .call 0 .completeWriter, .run 0 false, .run 0 false, .notify 0 none, .notify 0 none,
    .run 1 false, .run 1 false]

private def PipeEvent.isReadReturn : PipeEvent → Bool
  | readReturn _ _ => true
  | _ => false

/-- A read that is in its wait while the reader is completed still returns successfully, with a pending read and stale
bytes. -/
theorem read_returns_after_completion :
    ∃ tr, ∃ s s' : PipeState (Fin 2) FixedPoolResource Nat, ∃ evs buffer completed,
      ((pipeline FixedPoolResource .small).machine (Fin 2)).Exec Machine.Any
        (State.init (Pipe.new (.make .small))) tr s ∧
      s.shared.readerCompleted = true ∧
      ((pipeline FixedPoolResource .small).machine (Fin 2)).step s (.run 1 false) = some (s', evs) ∧
      .readReturn buffer completed ∈ evs ∧ s'.shared.hasPendingRead = true ∧ s'.shared.pendingReadSize = 1 := by
  obtain ⟨tr, s, h, hc⟩ := Machine.exists_exec_of_run ((pipeline FixedPoolResource .small).machine (Fin 2))
    Machine.Any (State.init (Pipe.new (.make .small))) (fun _ _ => true) completeUnderRead
    (fun _ s => s.shared.readerCompleted &&
      (((pipeline FixedPoolResource .small).machine (Fin 2)).step s (.run 1 false)).any
        (fun x : PipeState (Fin 2) FixedPoolResource Nat × List PipeEvent =>
          x.2.any PipeEvent.isReadReturn && x.1.shared.hasPendingRead && decide (x.1.shared.pendingReadSize = 1)))
    (fun _ _ _ => trivial) (by decide)
  simp only [Bool.and_eq_true, Option.any_eq_true, List.any_eq_true] at hc
  obtain ⟨hr, ⟨s', evs⟩, hs, ⟨⟨e, he, hev⟩, hp⟩, hn⟩ := hc
  cases e with
  | readReturn buffer completed => exact ⟨tr, s, s', evs, buffer, completed, h, hr, hs, he, hp, of_decide_eq_true hn⟩
  | _ => cases hev

end Xtd
