import Xtd.Concurrency.Termination
import Xtd.Pipeline.Cancellation
import Xtd.Pipeline.FixedPool

/-!
# Shutdown of the pipeline

Once the writer is completed every call of the pipeline ends with its next piece: a write throws or has nothing left to
do, a read does not wait, and `complete_writer` wakes whoever is asleep.  So the calls under way return, also those of an
endpoint that goes on after the other one is completed.
-/

namespace Xtd

open Concurrency

variable {ρ π τ : Type} [MemoryResource ρ π] [DecidableEq τ] [Fintype τ] {o : ValidatedOptions} {p : Pipe ρ π}

/-- What a call has still to do once the writer is completed: one piece and its notifications. -/
def PipeLocal.rank : PipeLocal → Nat
  | writeTop _ _ _ _ | readTop _ _ | readAfterWait _ _ => 1
  | writeLoop _ _ _ _ _ | advance _ _ => 2
  | completeWriter | completeReader => 3

/-- The writer is completed, and so not paused. -/
def Pipe.WriterEnded (p : Pipe ρ π) : Prop := p.writerCompleted = true ∧ p.writerPaused = false

private theorem writerEnded_piece (h : p.WriterEnded) (l : PipeLocal) (stop oom : Bool) :
    ((pipeline ρ o).exec l p stop oom).shared.WriterEnded := by
  obtain ⟨hc, hp⟩ := h
  refine ⟨writerCompleted_mono l stop oom hc, ?_⟩
  have hany : p.isAnyCompleted = true := by simp [Pipe.isAnyCompleted, hc]
  have hm := pipe_moves o l p stop oom
  generalize (pipeline ρ o).exec l p stop oom = r at hm ⊢
  cases hm with
  | pause _ _ hopen => rw [hany] at hopen; cases hopen
  | chunk q n _ _ hopen => rw [hany] at hopen; cases hopen
  | readNow => rcases readTail_cases p stop with ⟨-, he⟩ | ⟨-, he⟩ <;> rw [he] <;> exact hp
  | readAfter =>
    rcases readTail_cases { p with readerWaiting := false } stop with ⟨-, he⟩ | ⟨-, he⟩ <;> rw [he] <;> exact hp
  | advance q paused _ _ _ _ _ hpa =>
    show paused = false
    rw [hpa, hp]
    rfl
  | completeWriter => rfl
  | completeReader => rfl
  | _ => exact hp

/-- With the writer completed every piece is the last one of its call. -/
private theorem last_piece (h : p.WriterEnded) (l : PipeLocal) (stop oom : Bool) :
    ∃ ns evs, ((pipeline ρ o).exec l p stop oom).next = .release ns (.done evs) ∧ ns.length < l.rank := by
  obtain ⟨hc, hp⟩ := h
  have hany : p.isAnyCompleted = true := by simp [Pipe.isAnyCompleted, hc]
  have hm := pipe_moves o l p stop oom
  generalize (pipeline ρ o).exec l p stop oom = r at hm ⊢
  cases hm with
  | topWait hopen => rw [hany] at hopen; cases hopen
  | pause _ _ hopen => rw [hany] at hopen; cases hopen
  | loopStop _ _ hopen => rw [hany] at hopen; cases hopen
  | loopOom _ _ hopen => rw [hany] at hopen; cases hopen
  | chunk q n _ _ hopen => rw [hany] at hopen; cases hopen
  | readWait _ _ hw => rw [hc] at hw; cases hw
  | @leave call data copied notify token _ _ hleave =>
    have hdata : data = [] := by
      rcases hleave with hdata | hpaused
      · exact hdata
      · rw [hp] at hpaused
        cases hpaused
    subst hdata
    refine ⟨if notify then [.one .dataAvailable] else [], _, rfl, ?_⟩
    split <;> simp [PipeLocal.rank]
  | readNow => exact ⟨[], _, readTail_next p stop, by simp [PipeLocal.rank]⟩
  | readAfter => exact ⟨[], _, readTail_next _ stop, by simp [PipeLocal.rank]⟩
  | advance q paused =>
    refine ⟨if p.writerPaused && !paused then [.one .spaceAvailable] else [], _, rfl, ?_⟩
    split <;> simp [PipeLocal.rank]
  | completeWriter => exact ⟨_, _, rfl, by simp [PipeLocal.rank]⟩
  | completeReader => exact ⟨_, _, rfl, by simp [PipeLocal.rank]⟩
  | _ => exact ⟨[], _, rfl, by simp [PipeLocal.rank]⟩

theorem pipeline_ranking (ρ : Type) {π : Type} [MemoryResource ρ π] (o : ValidatedOptions) :
    (pipeline ρ o).Ranking Pipe.WriterEnded (fun _ => 0) PipeLocal.rank where
  pred cv l p h := by
    cases cv with
    | dataAvailable =>
      show p.dataAvailable l.minSize = true
      simp [Pipe.dataAvailable, h.1]
    | spaceAvailable =>
      show p.spaceAvailable = true
      simp [Pipe.spaceAvailable, h.2]
  keeps l p stop oom h := writerEnded_piece h l stop oom
  hold l p stop oom l' h hn := by
    obtain ⟨ns, evs, hn', -⟩ := last_piece (o := o) h l stop oom
    rw [hn] at hn'
    cases hn'
  wait l p stop oom cv l' h hn := by
    obtain ⟨ns, evs, hn', -⟩ := last_piece (o := o) h l stop oom
    rw [hn] at hn'
    cases hn'
  release l p stop oom ns k h hn := by
    obtain ⟨ns', evs, hn', hlt⟩ := last_piece (o := o) h l stop oom
    rw [hn] at hn'
    cases hn'
    simpa [After.steps] using hlt

variable {m : ρ} {tr : List PipeEvent} {s s' : PipeState τ ρ π} {as : List (PipeAction τ)}

theorem writerEnded_of_exec {ok : PipeState τ ρ π → PipeAction τ → Prop}
    (h : ((pipeline ρ o).machine τ).Exec ok (State.init (Pipe.new m)) tr s)
    (hc : s.shared.writerCompleted = true) : s.shared.WriterEnded := by
  refine ⟨hc, ?_⟩
  rw [← Bool.not_eq_true]
  intro hp
  have hopen := not_completed_of_paused h hp
  rw [Pipe.isAnyCompleted, hc] at hopen
  cases hopen

/-- Under a completed writer a thread is asleep only until `complete_writer` has sent its notifications. -/
theorem pipe_sendsAll_of_completed {ok : PipeState τ ρ π → PipeAction τ → Prop}
    (h : ((pipeline ρ o).machine τ).Exec ok (State.init (Pipe.new m)) tr s) (hc : s.shared.writerCompleted = true)
    {t : τ} {cv : CondVar} {l : PipeLocal} (ht : s.phase t = .asleep cv l) : ∃ u, (s.phase u).sendsAll cv := by
  refine Monitor.sendsAll_invariant_under (F := fun p => p.writerCompleted = true)
    (J := fun p => p.writerCompleted = true → p.WriterEnded) h nofun (fun _ _ h hc => writerEnded_of_exec h hc)
    (fun cv l p hJ hF => (pipeline_ranking ρ o).pred cv l p (hJ hF)) ?_ hc ht
  intro l p stop oom hF
  have hm := pipe_moves o l p stop oom
  generalize (pipeline ρ o).exec l p stop oom = r at hF hm ⊢
  cases hm with
  | completeWriter =>
    right
    intro cv
    cases cv with
    | dataAvailable => exact List.mem_cons_self ..
    | spaceAvailable => exact List.mem_cons_of_mem _ (List.mem_cons_self ..)
  | chunk q n _ _ _ _ hq =>
    obtain ⟨_, _, _, _, rfl⟩ := copyChunk_frame hq
    exact .inl hF
  | readNow => rcases readTail_cases p stop with ⟨-, he⟩ | ⟨-, he⟩ <;> rw [he] at hF <;> exact .inl hF
  | readAfter =>
    rcases readTail_cases { p with readerWaiting := false } stop with ⟨-, he⟩ | ⟨-, he⟩ <;> rw [he] at hF <;>
      exact .inl hF
  | advance q paused _ _ _ _ hq =>
    subst hq
    exact .inl hF
  | _ => exact .inl hF

/-- No thread makes another call. -/
def NoPipeCalls (_ : PipeState τ ρ π) (a : PipeAction τ) : Prop := ∀ t op, a ≠ .call t op

/-- The pipeline shuts down.  From every reachable state in which the writer is completed, wherever the threads are in
their calls and whatever the schedule, the wake-ups for no reason, the stop requests and the failing allocations: without
new calls the calls under way take no more steps than the bound says, and when none of them has a step left every call has
returned. -/
theorem pipeline_shutdown (h : ((pipeline ρ o).machine τ).Exec Machine.Any (State.init (Pipe.new m)) tr s)
    (hc : s.shared.writerCompleted = true) (hp : ((pipeline ρ o).machine τ).Path NoPipeCalls s as s') :
    as.countP Action.goesOn ≤ ∑ t, (s.phase t).steps PipeLocal.rank ∧
    ((∀ t a, a.Own t → ((pipeline ρ o).machine τ).step s' a = none) → ∀ t, s'.phase t = .outside) := by
  obtain ⟨hended, hle⟩ := (pipeline_ranking ρ o).path_length_le (writerEnded_of_exec h hc) hp
  constructor
  · simp only [Monitor.work, Nat.zero_add] at hle
    omega
  · intro hstuck t
    obtain ⟨tr', h'⟩ := hp.exec
    have hrun := h.trans (h'.mono (fun _ _ _ => trivial))
    by_contra ht
    obtain ⟨u, a, ha, s'', evs, hm⟩ := Monitor.exists_own_move (M := pipeline ρ o) (Monitor.exclusive_of_exec hrun) ht
      (fun v cv l hv => pipe_sendsAll_of_completed hrun hended.1 hv)
    have hnone := hstuck u a ha
    rw [Monitor.step_of_moves hm] at hnone
    cases hnone

/-- Thread `0` writes five bytes and sleeps after four, thread `1` waits for eight; thread `2` completes the writer. -/
def completeUnderSleepers : List (PipeAction (Fin 3)) :=
  [.call 1 (.readAtLeast 8 none), .run 1 false, .run 1 false, .run 1 false,
    .call 0 (.write .oneToFive none), .run 0 false, .run 0 false, .run 0 false, .run 0 false, .run 0 false, .run 0 false,
    .notify 0 (some 1), .run 1 false, .run 1 false, .run 0 false, .run 0 false, .run 0 false,
    .call 2 .completeWriter, .run 2 false, .run 2 false]

/-- Thread `0` wakes up for no reason, thread `1` with the first notification, and gets the lock before it. -/
def returnFromSleep : List (PipeAction (Fin 3)) :=
  [.spurious 0, .notify 2 none, .run 1 false, .notify 2 none, .run 1 false, .run 1 false, .run 0 false, .run 0 false,
    .run 0 false]

omit [MemoryResource ρ π] in
private theorem noPipeCalls_of_goesOn (s : PipeState (Fin 3) ρ π) (a : PipeAction (Fin 3)) (h : a.goesOn = true) :
    NoPipeCalls s a := by
  rintro t op rfl
  cases h

theorem pipeline_shutdown_returnFromSleep :
    ∃ tr, ∃ s s' : PipeState (Fin 3) FixedPoolResource Nat,
      ((pipeline FixedPoolResource .small).machine (Fin 3)).Exec Machine.Any (State.init (Pipe.new (.make .small))) tr s ∧
      s.shared.writerCompleted = true ∧
      ((pipeline FixedPoolResource .small).machine (Fin 3)).Path NoPipeCalls s returnFromSleep s' ∧
      9 ≤ ∑ t, (s.phase t).steps PipeLocal.rank ∧ ∀ t, s'.phase t = .outside := by
  obtain ⟨tr, s, h, hc⟩ := Machine.exists_exec_of_run ((pipeline FixedPoolResource .small).machine (Fin 3)) Machine.Any
    (State.init (Pipe.new (.make .small))) (fun _ _ => true) completeUnderSleepers
    (fun _ s => decide (s.shared.writerCompleted = true ∧
      (((pipeline FixedPoolResource .small).machine (Fin 3)).run (fun _ a => a.goesOn) s returnFromSleep).any
        (fun x => decide (∀ t, (x.2.phase t).rests = true ∧ (x.2.phase t).local?.isNone)) = true))
    (fun _ _ _ => trivial) (by decide)
  obtain ⟨hw, hrun⟩ := of_decide_eq_true hc
  rw [Option.any_eq_true] at hrun
  obtain ⟨⟨tr', s'⟩, hr, hout⟩ := hrun
  have hp : ((pipeline FixedPoolResource .small).machine (Fin 3)).Path NoPipeCalls s returnFromSleep s' :=
    Machine.path_of_run noPipeCalls_of_goesOn hr
  obtain ⟨hle, hend⟩ := pipeline_shutdown h hw hp
  have houtside : ∀ t, s'.phase t = .outside := fun t =>
    Phase.eq_outside (of_decide_eq_true hout t).1 (of_decide_eq_true hout t).2
  have hstuck : ∀ t a, a.Own t → (pipeline FixedPoolResource .small).step s' a = none :=
    fun t a ha => Monitor.step_own_of_outside (houtside t) ha
  exact ⟨tr, s, s', h, hw, hp, hle, hend hstuck⟩

end Xtd
