import Xtd.Channel.Consumer
import Xtd.Logging.LogSink
import Xtd.Logging.OtelSink

/-!
# The logger

`logging.h`: `log` writes to the sinks with a channel of their own and puts the message into the channel of the logger,
where the worker takes it out for the other sinks.  The destructor completes the writer and joins the worker.  The sinks
are added before anything is logged.
-/

namespace Xtd

open Concurrency

inductive Sink
  | logSink (opts : LogSinkOpts)
  | otelSink (opts : OtelSinkOpts)

/-- `m_sinks` and `m_own_channel_sinks`. -/
structure Logger where
  sinks : List LogSinkOpts
  ownChannelSinks : List OtelSinkOpts

namespace Logger

def new : Logger := ⟨[], []⟩

/-- `add_sink`: `own_channel` is true of an `otel_sink` only. -/
def addSink (l : Logger) : Sink → Logger
  | .otelSink opts => { l with ownChannelSinks := l.ownChannelSinks ++ [opts] }
  | .logSink opts => { l with sinks := l.sinks ++ [opts] }

/-- `log`: the calls to the channels of the sinks that own one, and the call to the channel of the logger. -/
def log (l : Logger) (message : LogMessage) : List (Option (ChannelOp LogMessage)) × Option (ChannelOp LogMessage) :=
  (l.ownChannelSinks.map fun sink => OtelSink.write sink message,
    if l.sinks.isEmpty then none else some (.emplace .TRY message none))

/-- What the sinks are to write for a message, one after the other. -/
def outputs (l : Logger) (c : Calendar) (message : LogMessage) : List Output :=
  l.sinks.filterMap fun sink => sink.write c message

/-- `process_logs`, with what was handed to `write_to_output`. -/
def processLogs (l : Logger) (c : Calendar) :
    Client (ForEach (List Output)) (ChannelOp LogMessage) (ChannelEvent LogMessage) :=
  forEach (fun written message => written ++ l.outputs c message) none

variable {l : Logger} {c : Calendar}

private theorem foldl_outputs (written : List Output) (messages : List LogMessage) :
    messages.foldl (fun written message => written ++ l.outputs c message) written =
      written ++ messages.flatMap (l.outputs c) := by
  induction messages generalizing written with
  | nil => simp
  | cons message messages ih => rw [List.foldl_cons, ih, List.flatMap_cons, List.append_assoc]

/-! ### Runs -/

variable {τ : Type} [DecidableEq τ] [Fintype τ]

/-- The thread `w` runs `process_logs`; the others call `log`, and the destructor completes the writer. -/
def Logging (l : Logger) (c : Calendar) (w : τ) (x : ForEach (List Output) × ChannelState τ LogMessage)
    (a : ChannelAction τ LogMessage) : Prop :=
  (l.processLogs c).Follows w x a ∧
    ∀ t op, a = .call t op → t ≠ w → (∃ message, (l.log message).2 = some op) ∨ op = .completeWriter

variable {w : τ} {tr evs : List (ChannelEvent LogMessage)} {x x' : ForEach (List Output) × ChannelState τ LogMessage}
  {a : ChannelAction τ LogMessage}

omit [DecidableEq τ] [Fintype τ] in
private theorem eq_of_log {message : LogMessage} {op : ChannelOp LogMessage} (h : (l.log message).2 = some op) :
    l.sinks ≠ [] ∧ op = .emplace .TRY message none := by
  simp only [log] at h
  split at h
  · cases h
  · rename_i hne
    exact ⟨by simpa using hne, (Option.some.inj h).symm⟩

omit [DecidableEq τ] [Fintype τ] in
theorem Logging.consuming (h : l.Logging c w x a) :
    Consuming (fun written message => written ++ l.outputs c message) none w x a := by
  refine ⟨h.1, ?_⟩
  rintro t op ha ht
  rcases h.2 t op ha ht with ⟨message, hlog⟩ | rfl
  · rw [(eq_of_log hlog).2]
    rfl
  · rfl

/-- The places of the calls of `log` and of the destructor. -/
def OfLog (l : Logger) (p : ChannelLocal LogMessage) : Prop :=
  (l.sinks ≠ [] ∧ ∃ call message, p = .emplaceTop call .TRY message none) ∨ ∃ call, p = .completeWriter call

omit [DecidableEq τ] [Fintype τ] in
/-- Such a call has one piece: it inserts its message unless the writer is completed, or completes the writer. -/
private theorem log_piece {p : ChannelLocal LogMessage} (hp : l.OfLog p) (s : ChannelState τ LogMessage) (z : Bool) :
    let r := (channel LogMessage 0).piece s p z
    r.next.local? = none ∧ (insertedValues r.events ≠ [] → l.sinks ≠ []) ∧
      ∀ i, .emplaceReturn i false ∈ r.events ++ r.next.doneEvents → s.shared.writerCompleted = true := by
  have hm : ChannelMoves 0 s.shared p false ((channel LogMessage 0).piece s p z) := by
    have htoken : p.token = none := by rcases hp with ⟨-, call, message, rfl⟩ | ⟨call, rfl⟩ <;> rfl
    have hstop : s.stop ((channel LogMessage 0).token p) = false := by
      show s.stop p.token = false
      rw [htoken]
      rfl
    have hmoves := channel_moves 0 p s.shared (s.stop ((channel LogMessage 0).token p)) z
    rw [hstop] at hmoves
    rw [Monitor.piece, hstop]
    exact hmoves
  dsimp only
  generalize (channel LogMessage 0).piece s p z = r at hm ⊢
  rcases hp with ⟨hne, call, message, rfl⟩ | ⟨call, rfl⟩
  · cases hm with
    | emplaceFail hat h =>
      cases hat
      refine ⟨rfl, fun _ => hne, ?_⟩
      rintro i -
      simpa [Channel.full] using h
    | insert hat =>
      cases hat
      exact ⟨rfl, fun _ => hne, by simp [Channel.insert, Next.doneEvents]⟩
    | readEmpty hat => cases hat
    | take hat => cases hat
    | mayRead hat => cases hat
  · cases hm with
    | completeWriter => exact ⟨rfl, fun h => absurd rfl h, by simp [Channel.completeWriter, Next.doneEvents]⟩
    | emplaceFail hat => cases hat
    | insert hat => cases hat
    | readEmpty hat => cases hat
    | take hat => cases hat
    | mayRead hat => cases hat

/-- What holds of the threads that log: nothing is inserted without a sink, and no message is refused before the writer is
completed. -/
structure Logged (l : Logger) (w : τ) (tr : List (ChannelEvent LogMessage))
    (x : ForEach (List Output) × ChannelState τ LogMessage) : Prop where
  others : ∀ t p, t ≠ w → (x.2.phase t).local? = some p → l.OfLog p
  sinks : insertedValues tr ≠ [] → l.sinks ≠ []
  refused : ∀ i, .emplaceReturn i false ∈ tr → x.2.shared.writerCompleted = true

private theorem logged_step (h : ((channel LogMessage 0).machine τ).Exec Machine.Any (State.init .new) tr x.2)
    (hL : Logged l w tr x) (hloop : ∀ p, (x.2.phase w).local? = some p → p.isReadAll = true)
    (hok : l.Logging c w x a) (hm : (channel LogMessage 0).Moves x.2 a x'.2 evs) : Logged l w (tr ++ evs) x' := by
  have hmono : x.2.shared.writerCompleted = true → x'.2.shared.writerCompleted = true :=
    fun hc => ((step_fifo h hm).2.2 hc).1
  refine ⟨?_, ?_, ?_⟩
  · intro t p ht hp
    rcases hm.local_eq hp with ⟨hp, -⟩ | ⟨op, rfl, he⟩ | ⟨z, p₀, -, hp₀, hn⟩
    · exact hL.others t p ht hp
    · obtain rfl := Option.some.inj he
      rcases hok.2 t op rfl ht with ⟨message, hlog⟩ | rfl
      · obtain ⟨hne, rfl⟩ := eq_of_log hlog
        exact .inl ⟨hne, _, message, rfl⟩
      · exact .inr ⟨_, rfl⟩
    · rw [(log_piece (hL.others t p₀ ht (Monitor.local?_of_locked hp₀)) x.2 z).1] at hn
      cases hn
  · intro hne
    rw [insertedValues_append] at hne
    by_cases htr : insertedValues tr = []
    · rw [htr, List.nil_append] at hne
      rcases values_of_step h hm with ⟨-, hnil, -⟩ | ⟨t, z, p, -, hp, -, hins, -⟩
      · exact absurd hnil hne
      · rw [hins] at hne
        by_cases ht : t = w
        · subst ht
          exact absurd (pushes_of_isReadAll 0 (hloop p (Monitor.local?_of_locked hp))).1 hne
        · exact (log_piece (hL.others t p ht (Monitor.local?_of_locked hp)) x.2 z).2.1 hne
    · exact hL.sinks htr
  · intro i hi
    refine (List.mem_append.1 hi).elim (fun hi => hmono (hL.refused i hi)) ?_
    intro hi
    rcases hm.mem_events hi with ⟨t, op, -, he⟩ | ⟨t, z, p, -, hp, he⟩ | ⟨t, he⟩
    · cases he
    · have he := List.mem_append.2 he
      by_cases ht : t = w
      · subst ht
        exact absurd he ((pushes_of_isReadAll 0 (hloop p (Monitor.local?_of_locked hp))).2 i false)
      · exact hmono ((log_piece (hL.others t p ht (Monitor.local?_of_locked hp)) x.2 z).2.2 i he)
    · rcases Monitor.doneEvents_of_exec h
        (fun l y stop z n ns k hn e he => (channel_shows 0 l y stop z).succeeds hn he) t _ he with
        ⟨_, he⟩ | ⟨_, _, _, he⟩ <;> cases he

private theorem logged_of_exec (h : ((l.processLogs c).machine (channel LogMessage 0) w).Exec (l.Logging c w)
    (⟨false, []⟩, State.init .new) tr x) : Logged l w tr x := by
  induction h with
  | nil => exact ⟨nofun, fun h => absurd rfl h, nofun⟩
  | @snoc tr evs x x' a h hok hs ih =>
    obtain ⟨hm, -⟩ := Client.moves_of_step hs
    have hrun := Client.exec_monitor Machine.Any h (fun _ _ _ => trivial)
    have hloop := looped_of_exec (h.mono fun _ _ hok => hok.consuming)
    exact logged_step hrun ih (fun p hp => (hloop.place p hp).1) hok hm

/-- From `log` to the descriptors.  In every run of the logger the worker has handed to `write_to_output` the lines of a
beginning of the messages accepted, sink by sink and each only for the messages of its level; a message is accepted only if
there is a sink for it, and none is refused before the writer is completed.  When the worker has ended these are all the
messages accepted.  In every run of these calls of `write_to_output`, whatever the system answers, each line was handed
over in full or was given up at a failed `write`. -/
theorem logger_writes (h : ((l.processLogs c).machine (channel LogMessage 0) w).Exec (l.Logging c w)
    (⟨false, []⟩, State.init .new) tr x) :
    ∃ messages, messages <+: insertedValues tr ∧
      (insertedValues tr ≠ [] → l.sinks ≠ []) ∧
      (∀ i, .emplaceReturn i false ∈ tr → x.2.shared.writerCompleted = true) ∧
      (x.1.ended = true → messages = insertedValues tr) ∧
      x.1.result = messages.flatMap (l.outputs c) ∧
      ∀ o₀ tr' g o, (writeToOutput.against Posix.os).Exec Machine.Any (.start x.1.result, o₀) tr' (g, o) →
        g = .finished →
        ∃ pieces, tr' = pieces.flatten ∧ List.Forall₂ Written (messages.flatMap (l.outputs c)) pieces := by
  have hL := logged_of_exec h
  obtain ⟨messages, hprefix, hresult, hend⟩ := consumed_inserted (h.mono fun _ _ hok => hok.consuming)
  rw [foldl_outputs, List.nil_append] at hresult
  refine ⟨messages, hprefix, hL.sinks, hL.refused, fun he => (hend he rfl).2, hresult, ?_⟩
  intro o₀ tr' g o hw hg
  subst hg
  rw [hresult] at hw
  cases outputs_of_exec hw with
  | finished pieces htr hdone => exact ⟨pieces, htr, hdone⟩

/-- A sink that takes everything, and one that takes errors only. -/
def twoSinks : Logger := ((new.addSink (.logSink { minLogLevel := .trace })).addSink
  (.logSink { minLogLevel := .error, fd := 2 }))

/-- A calendar that prints its formats. -/
def formatCalendar : Calendar := ⟨Unit, (), fun _ => some (), fun _ => some (), fun format _ => format⟩

/-- Thread `1` logs two warnings and completes the writer; the worker of thread `0` takes the first one when it has been
woken, and the second one after the completion. -/
def logTwo : List (ChannelAction (Fin 2) LogMessage) :=
  [.call 0 (.readAll none), .run 0 false, .run 0 false, .run 0 false, .run 0 false,
    .call 1 (.emplace .TRY (OtelSink.warningAt 1) none), .run 1 false, .run 1 false, .notify 1 (some 0),
    .run 0 false, .run 0 false, .run 0 false,
    .call 1 (.emplace .TRY (OtelSink.warningAt 2) none), .run 1 false, .run 1 false,
    .call 1 .completeWriter, .run 1 false, .run 1 false]

/-- The notifications of the completion are sent; the worker takes what is left and ends. -/
def joinWorker : List (ChannelAction (Fin 2) LogMessage) :=
  [.notify 1 none, .notify 1 none, .run 0 false, .run 0 false, .run 0 false, .run 0 false, .run 0 false, .run 0 false,
    .run 0 false, .run 0 false]

/-- The two threads keep to their calls, as a test. -/
private def logs (x : ForEach (List Output) × ChannelState (Fin 2) LogMessage) : ChannelAction (Fin 2) LogMessage → Bool
  | .call t op =>
    if t = 0 then match op with
      | .readAll none => !x.1.ended
      | _ => false
    else match op with
      | .completeWriter | .emplace .TRY _ none => true
      | _ => false
  | _ => true

private theorem logging_of_logs (x : ForEach (List Output) × ChannelState (Fin 2) LogMessage)
    (a : ChannelAction (Fin 2) LogMessage) (h : logs x a = true) : twoSinks.Logging formatCalendar 0 x a := by
  constructor
  · rintro op rfl
    simp only [logs, if_true] at h
    split at h
    · rw [Bool.not_eq_true'] at h
      exact if_neg (by rw [h]; exact Bool.false_ne_true)
    · cases h
  · rintro t op rfl ht
    simp only [logs, if_neg ht] at h
    split at h
    · exact .inr rfl
    · exact .inl ⟨_, rfl⟩
    · cases h

theorem logger_writes_logTwo :
    ∃ tr, ∃ x : ForEach (List Output) × ChannelState (Fin 2) LogMessage,
      ((twoSinks.processLogs formatCalendar).machine (channel LogMessage 0) 0).Exec (twoSinks.Logging formatCalendar 0)
        (⟨false, []⟩, State.init .new) tr x ∧
      (insertedValues tr).map LogMessage.timestamp = [1, 2] ∧
      x.1.result = (insertedValues tr).flatMap (twoSinks.outputs formatCalendar) := by
  obtain ⟨tr, x, h, hc⟩ := Machine.exists_exec_of_run
    ((twoSinks.processLogs formatCalendar).machine (channel LogMessage 0) (0 : Fin 2))
    (twoSinks.Logging formatCalendar 0) (⟨false, []⟩, State.init .new) logs (logTwo ++ joinWorker)
    (fun tr x => decide ((insertedValues tr).map LogMessage.timestamp = [1, 2] ∧ x.1.ended = true))
    logging_of_logs (by decide)
  obtain ⟨hvalues, hended⟩ := of_decide_eq_true hc
  obtain ⟨messages, -, -, -, hall, hresult, -⟩ := logger_writes h
  rw [hall hended] at hresult
  exact ⟨tr, x, h, hvalues, hresult⟩

/-- The destructor loses nothing.  Once it has completed the writer, and when nothing is logged any more, the worker makes
one call at most, and it and the calls of `log` under way take no more steps than the bound says; and when nobody has a
step left the worker has ended, every call has returned, and the lines of all the messages accepted were handed to
`write_to_output`. -/
theorem logger_shutdown {as : List (ChannelAction τ LogMessage)}
    (h : ((l.processLogs c).machine (channel LogMessage 0) w).Exec (l.Logging c w)
      (⟨false, []⟩, State.init .new) tr x)
    (hc : x.2.shared.writerCompleted = true)
    (hp : ((l.processLogs c).machine (channel LogMessage 0) w).Path ((l.processLogs c).Only w) x as x') :
    as.countP Action.goesOn ≤ 5 * x.2.shared.queue.length + ∑ t, (x.2.phase t).steps ChannelLocal.rank + 5 ∧
    as.countP Action.isCall ≤ 1 ∧
    ((∀ t a, a.Own t ∨ (∃ op, a = .call t op) → (l.processLogs c).Only w x' a →
        ((l.processLogs c).machine (channel LogMessage 0) w).step x' a = none) →
      x'.1.ended = true ∧ (∀ t, x'.2.phase t = .outside) ∧
        x'.1.result = (insertedValues tr).flatMap (l.outputs c)) := by
  obtain ⟨hle, hcalls, hend⟩ := consumer_shutdown (h.mono fun _ _ hok => hok.consuming) hc hp
  refine ⟨hle, hcalls, ?_⟩
  intro hstuck
  obtain ⟨hended, hout, hresult⟩ := hend hstuck
  refine ⟨hended, hout, ?_⟩
  rw [hresult rfl, foldl_outputs, List.nil_append]

/-- No calls but that of the worker, as a test. -/
private def joins (x : ForEach (List Output) × ChannelState (Fin 2) LogMessage)
    (a : ChannelAction (Fin 2) LogMessage) : Bool :=
  logs x a && match a with
    | .call t _ => decide (t = 0)
    | _ => true

private theorem only_of_joins (x : ForEach (List Output) × ChannelState (Fin 2) LogMessage)
    (a : ChannelAction (Fin 2) LogMessage) (h : joins x a = true) : (twoSinks.processLogs formatCalendar).Only 0 x a := by
  obtain ⟨hlogs, hcall⟩ := Bool.and_eq_true_iff.1 h
  refine ⟨(logging_of_logs x a hlogs).1, ?_⟩
  rintro t op rfl
  exact of_decide_eq_true hcall

theorem logger_shutdown_joinWorker :
    ∃ tr, ∃ x x' : ForEach (List Output) × ChannelState (Fin 2) LogMessage,
      ((twoSinks.processLogs formatCalendar).machine (channel LogMessage 0) 0).Exec (twoSinks.Logging formatCalendar 0)
        (⟨false, []⟩, State.init .new) tr x ∧
      x.2.shared.writerCompleted = true ∧ (insertedValues tr).map LogMessage.timestamp = [1, 2] ∧
      ((twoSinks.processLogs formatCalendar).machine (channel LogMessage 0) 0).Path ((twoSinks.processLogs formatCalendar).Only 0)
        x joinWorker x' ∧
      10 ≤ 5 * x.2.shared.queue.length + ∑ t, (x.2.phase t).steps ChannelLocal.rank + 5 ∧
      x'.1.ended = true ∧ x'.1.result = (insertedValues tr).flatMap (twoSinks.outputs formatCalendar) := by
  obtain ⟨tr, x, h, hc⟩ := Machine.exists_exec_of_run
    ((twoSinks.processLogs formatCalendar).machine (channel LogMessage 0) (0 : Fin 2))
    (twoSinks.Logging formatCalendar 0) (⟨false, []⟩, State.init .new) logs logTwo
    (fun tr x => decide (x.2.shared.writerCompleted = true ∧ (insertedValues tr).map LogMessage.timestamp = [1, 2] ∧
      (((twoSinks.processLogs formatCalendar).machine (channel LogMessage 0) (0 : Fin 2)).run joins x joinWorker).any
        (fun y => decide (y.2.1.ended = true ∧ ∀ t, (y.2.2.phase t).rests = true ∧ (y.2.2.phase t).local?.isNone)) =
          true))
    logging_of_logs (by decide)
  obtain ⟨hw, hvalues, hrun⟩ := of_decide_eq_true hc
  rw [Option.any_eq_true] at hrun
  obtain ⟨⟨tr', x'⟩, hr, hout⟩ := hrun
  obtain ⟨hended, hrests⟩ := of_decide_eq_true hout
  have hp : ((twoSinks.processLogs formatCalendar).machine (channel LogMessage 0) 0).Path
      ((twoSinks.processLogs formatCalendar).Only 0) x joinWorker x' := Machine.path_of_run only_of_joins hr
  have houtside : ∀ t, x'.2.phase t = .outside := fun t => Phase.eq_outside (hrests t).1 (hrests t).2
  obtain ⟨hle, -, hend⟩ := logger_shutdown h hw hp
  have hcall : (twoSinks.processLogs formatCalendar).call x'.1 = none := if_pos hended
  obtain ⟨-, -, hresult⟩ := hend (fun t a => Client.stuck_of_rests houtside hcall t)
  exact ⟨tr, x, x', h, hw, hvalues, hp, hle, hended, hresult⟩

end Logger

end Xtd
