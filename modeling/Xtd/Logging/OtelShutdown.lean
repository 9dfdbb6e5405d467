import Xtd.Channel.Consumer
import Xtd.Logging.OtelSink

/-!
# The end of the OTEL sink

The destructor of `otel_sink` completes the writer and joins the worker, which by then may be anywhere in its loops: what
is left in the channel is sent in batches, and the worker ends.
-/

namespace Xtd

open Concurrency

namespace OtelSink

/-- What the worker has still to call outside its calls: a blocking read, or an attempt and then a blocking read. -/
def Worker.outside (price : Nat) (g : Worker) : Nat :=
  match g.stage with
  | .reading => 4 + price
  | .draining => 6 + 2 * price
  | .finished => 0

/-- What it has still to call behind its call, if it gets no message there. -/
def Worker.inside (price : Nat) (g : Worker) : Nat :=
  match g.stage with
  | .draining => 3 + price
  | _ => 0

variable {o : OtelSinkOpts} {hostname : List Byte}

private theorem outside_le (price : Nat) (g : Worker) : g.outside price ≤ 6 + 2 * price := by
  unfold Worker.outside
  split <;> omega

private theorem inside_le (price : Nat) (g : Worker) : g.inside price ≤ 6 + 2 * price := by
  unfold Worker.inside
  split <;> omega

/-- How a piece of the worker at `l` goes on: in its call, with a message, or without one. -/
inductive ReadPiece (c : Channel LogMessage) (stage : WorkerStage) : ChannelPiece LogMessage → Prop
  | goesOn (r : ChannelPiece LogMessage) (l' : ChannelLocal LogMessage) (hn : r.next.local? = some l') (hat : stage.At l')
      (he : r.events = []) : ReadPiece c stage r
  | message (call : Nat) (c' : Channel LogMessage) (message : LogMessage) (rest : List LogMessage)
      (hq : c.queue = message :: rest) :
      ReadPiece c stage (c'.remove call message rest (.done [.readReturn call stage.strategy (.ok message)]))
  | nothing (call : Nat) (c' : Channel LogMessage) (error : ChannelReadErrors) (hq : c'.queue = c.queue) :
      ReadPiece c stage ⟨c', [], .release [] (.done [.readReturn call stage.strategy (.error error)])⟩

private theorem reads_of_reading {c : Channel LogMessage} {l : ChannelLocal LogMessage} (hat : WorkerStage.reading.At l)
    (stop z : Bool) : ReadPiece c .reading ((channel LogMessage 0).exec l c stop z) := by
  have hm := channel_moves 0 l c stop z
  generalize (channel LogMessage 0).exec l c stop z = r at hm ⊢
  obtain ⟨call, rfl | rfl | rfl⟩ := hat
  · cases hm with
    | readWait => exact .goesOn _ _ rfl ⟨call, .inr (.inl rfl)⟩ rfl
    | readGo => exact .goesOn _ _ rfl ⟨call, .inr (.inr rfl)⟩ rfl
    | emplaceFail h => cases h
    | insert h => cases h
    | readCancelled h => cases h
    | readEmpty h => cases h
    | take h => cases h
    | mayRead h => cases h
  · cases hm with
    | readCancelled h => cases h; exact .nothing call _ _ rfl
    | readEmpty h => cases h; exact .nothing call _ _ rfl
    | take h hq hk => cases h; cases hk; exact .message call _ _ _ hq
    | emplaceFail h => cases h
    | insert h => cases h
    | mayRead h => cases h
  · cases hm with
    | readCancelled h => cases h; exact .nothing call _ _ rfl
    | readEmpty h => cases h; exact .nothing call _ _ rfl
    | take h hq hk => cases h; cases hk; exact .message call _ _ _ hq
    | emplaceFail h => cases h
    | insert h => cases h
    | mayRead h => cases h

private theorem reads_of_draining {c : Channel LogMessage} {l : ChannelLocal LogMessage} (hat : WorkerStage.draining.At l)
    (stop z : Bool) : ReadPiece c .draining ((channel LogMessage 0).exec l c stop z) := by
  have hm := channel_moves 0 l c stop z
  generalize (channel LogMessage 0).exec l c stop z = r at hm ⊢
  obtain ⟨call, rfl⟩ := hat
  cases hm with
  | tryEmpty => exact .nothing call c _ rfl
  | tryTake _ _ message rest hq => exact .message call c message rest hq
  | emplaceFail h => cases h
  | insert h => cases h
  | readCancelled h => cases h
  | readEmpty h => cases h
  | take h => cases h
  | mayRead h => cases h

private theorem reads_of_at {g : Worker} {l : ChannelLocal LogMessage} (hat : g.stage.At l) (c : Channel LogMessage)
    (stop z : Bool) : ReadPiece c g.stage ((channel LogMessage 0).exec l c stop z) ∧ 2 ≤ l.rank := by
  cases hg : g.stage with
  | reading =>
    rw [hg] at hat
    refine ⟨reads_of_reading hat stop z, ?_⟩
    obtain ⟨call, rfl | rfl | rfl⟩ := hat <;> simp [ChannelLocal.rank]
  | draining =>
    rw [hg] at hat
    refine ⟨reads_of_draining hat stop z, ?_⟩
    obtain ⟨call, rfl⟩ := hat
    exact Nat.le_refl _
  | finished =>
    rw [hg] at hat
    exact hat.elim

private theorem after_of_goesOn {g : Worker} {r : ChannelPiece LogMessage} {l' : ChannelLocal LogMessage}
    (hn : r.next.local? = some l') (he : r.events = []) : (processMessages o hostname).after g r = g := by
  obtain ⟨c, events, next⟩ := r
  obtain rfl : events = [] := he
  cases next with
  | hold l => rfl
  | wait cv l => rfl
  | release ns k =>
    cases k with
    | again l => rfl
    | done evs => cases hn

/-- Without a message the worker ends, or sends its batch and reads again. -/
private theorem outside_of_nothing (price : Nat) (g : Worker) (call : Nat) (c : Channel LogMessage) (error : ChannelReadErrors) :
    ((processMessages o hostname).after g
      (⟨c, [], .release [] (.done [.readReturn call g.stage.strategy (.error error)])⟩ : ChannelPiece LogMessage)).outside
        price ≤ g.inside price + 1 := by
  obtain ⟨stage, body, n, sent⟩ := g
  cases stage with
  | reading => exact Nat.zero_le _
  | draining =>
    show 4 + price ≤ 3 + price + 1
    omega
  | finished => exact Nat.zero_le _

/-- The worker calls, goes on and pays as `outside` and `inside` say, where a message pays for six steps and two calls. -/
theorem worker_pays (o : OtelSinkOpts) (hostname : List Byte) (price : Nat) :
    (processMessages o hostname).Pays (channel LogMessage 0) (fun c => c.writerCompleted = true)
      (Channel.cost (6 + 2 * price)) ChannelLocal.rank (fun g l => g.stage.At l) price (Worker.outside price)
      (Worker.inside price) := by
  refine ⟨?_, ?_, ?_⟩
  · rintro ⟨stage, body, n, sent⟩ op call hcall
    cases stage with
    | reading => cases hcall; exact ⟨.readTop call .read none, rfl, ⟨call, .inl rfl⟩, Nat.le_refl _⟩
    | draining =>
      cases hcall
      refine ⟨.tryRead call, rfl, ⟨call, rfl⟩, ?_⟩
      show 2 + 1 + (3 + price) + price ≤ 6 + 2 * price
      omega
    | finished => cases hcall
  · intro g l c stop z l' hat hn
    obtain ⟨hR, -⟩ := reads_of_at hat c stop z
    generalize (channel LogMessage 0).exec l c stop z = r at hR hn ⊢
    cases hR with
    | goesOn _ l'' hn' hat' he =>
      rw [after_of_goesOn hn he]
      rw [hn] at hn'
      cases hn'
      exact hat'
    | message => cases hn
    | nothing => cases hn
  · intro g l c stop z hc hat
    have hlt := (channel_ranking LogMessage 0 (by omega : 5 ≤ 6 + 2 * price)).piece_lt hc l stop z
    obtain ⟨hR, hrank⟩ := reads_of_at hat c stop z
    generalize (channel LogMessage 0).exec l c stop z = r at hR hlt ⊢
    cases hR with
    | goesOn _ l' hn hat' he =>
      have hcredit : Client.credit (Worker.outside price) (Worker.inside price) r.next.local? g = g.inside price := by
        rw [hn]
        rfl
      rw [after_of_goesOn hn he, hcredit]
      omega
    | message call c' message rest hq =>
      obtain ⟨hcost', ns, hn, hlen⟩ :=
        cost_remove (6 + 2 * price) c' call message rest (.done [.readReturn call g.stage.strategy (.ok message)])
      have hcost : c.cost (6 + 2 * price) = (6 + 2 * price) * rest.length + (6 + 2 * price) := by
        rw [Channel.cost, hq, List.length_cons, Nat.mul_succ]
      generalize (c'.remove call message rest (.done [.readReturn call g.stage.strategy (.ok message)])) = r at *
      have hout := outside_le price ((processMessages o hostname).after g r)
      rw [hcost', hn]
      show (6 + 2 * price) * rest.length + (ns.length + 0) + ((processMessages o hostname).after g r).outside price < _
      omega
    | nothing call c' error hq =>
      have hout : ((processMessages o hostname).after g _).outside price ≤ _ := outside_of_nothing price g call c' error
      have hcost : c'.cost (6 + 2 * price) = c.cost (6 + 2 * price) := by rw [Channel.cost, Channel.cost, hq]
      show c'.cost (6 + 2 * price) + 0 + ((processMessages o hostname).after g _).outside price < _
      omega

/-! ### The end of a run -/

variable {τ : Type} [DecidableEq τ] [Fintype τ] {w : τ} {tr : List (ChannelEvent LogMessage)}
  {x x' : Worker × ChannelState τ LogMessage} {as : List (ChannelAction τ LogMessage)}

omit [DecidableEq τ] [Fintype τ] in
theorem SinkRun.of_only {a : ChannelAction τ LogMessage} (h : (processMessages o hostname).Only w x a) :
    SinkRun o hostname w x a := ⟨h.1, fun t op ha ht => absurd (h.2 t op ha) ht⟩

/-- What the messages left pay for, at any price of a call. -/
private theorem steps_le (ho : 0 < o.batchSize)
    (h : ((processMessages o hostname).machine (channel LogMessage 0) w).Exec (SinkRun o hostname w)
      (.new, State.init .new) tr x)
    (hc : x.2.shared.writerCompleted = true)
    (hp : ((processMessages o hostname).machine (channel LogMessage 0) w).Path ((processMessages o hostname).Only w)
      x as x') (price : Nat) :
    x'.2.shared.writerCompleted = true ∧ as.countP Action.goesOn + price * as.countP Action.isCall ≤
      6 * x.2.shared.queue.length + ∑ t, (x.2.phase t).steps ChannelLocal.rank + 6 +
        price * (2 * x.2.shared.queue.length + 2) := by
  have hH := holds_of_exec ho h
  have hahead : (processMessages o hostname).ahead w x = x.1 := Client.ahead_of_nil hH.quiet
  have hplaced : (processMessages o hostname).Placed (fun g l => g.stage.At l) w x := by
    intro l hl
    rw [hahead]
    exact hH.place l hl
  obtain ⟨hc', -, hle⟩ := (worker_pays o hostname price).path_length_le
    (channel_ranking LogMessage 0 (by omega : 5 ≤ 6 + 2 * price)) hc hplaced hp
  have hcredit : Client.credit (Worker.outside price) (Worker.inside price) (x.2.phase w).local?
      ((processMessages o hostname).ahead w x) ≤ 6 + 2 * price := by
    unfold Client.credit
    split
    · exact inside_le price _
    · exact outside_le price _
  have hprice : (6 + 2 * price) * x.2.shared.queue.length + 2 * price =
      6 * x.2.shared.queue.length + price * (2 * x.2.shared.queue.length + 2) := by ring
  unfold Client.workLeft Monitor.work Channel.cost at hle
  exact ⟨hc', by omega⟩

/-- The destructor loses nothing.  Once it has completed the writer, and when nothing is written any more, the worker calls
no more than twice for each message left and two times more, and it and the calls of `write` under way take no more steps
than the bound says, wherever the worker is in its loops; and when nobody has a step left the worker has ended, every call
has returned, and the batches sent are all the messages accepted. -/
theorem otel_sink_shutdown (ho : 0 < o.batchSize)
    (h : ((processMessages o hostname).machine (channel LogMessage 0) w).Exec (SinkRun o hostname w)
      (.new, State.init .new) tr x)
    (hc : x.2.shared.writerCompleted = true)
    (hp : ((processMessages o hostname).machine (channel LogMessage 0) w).Path ((processMessages o hostname).Only w)
      x as x') :
    as.countP Action.goesOn ≤ 6 * x.2.shared.queue.length + ∑ t, (x.2.phase t).steps ChannelLocal.rank + 6 ∧
    as.countP Action.isCall ≤ 2 * x.2.shared.queue.length + 2 ∧
    ((∀ t a, a.Own t ∨ (∃ op, a = .call t op) → (processMessages o hostname).Only w x' a →
        ((processMessages o hostname).machine (channel LogMessage 0) w).step x' a = none) →
      x'.1.stage = .finished ∧ (∀ t, x'.2.phase t = .outside) ∧
        ∃ batches : List (List LogMessage), x'.1.sent = batches.map (requestBody o hostname) ∧
          (∀ batch ∈ batches, 1 ≤ batch.length ∧ batch.length ≤ o.batchSize) ∧
          batches.flatten = insertedValues tr) := by
  have hpath := steps_le ho h hc hp
  refine ⟨by simpa using (hpath 0).2, Client.le_of_forall_price fun price => (hpath price).2, ?_⟩
  intro hstuck
  obtain ⟨tr', htr'⟩ := hp.exec
  have hrun := h.trans (htr'.mono fun _ _ hok => SinkRun.of_only hok)
  have hmon := Client.exec_monitor Machine.Any hrun (fun _ _ _ => trivial)
  obtain ⟨hout, hcall⟩ := Client.rests_of_stuck (M := channel LogMessage 0) (Monitor.exclusive_of_exec hmon)
    (fun v cv l hv => sendsAll_of_completed hmon (hpath 0).1 hv) hstuck
  have hfinished : x'.1.stage = .finished := by
    change x'.1.call = none at hcall
    unfold Worker.call at hcall
    cases hstage : x'.1.stage with
    | finished => rfl
    | _ => rw [hstage] at hcall; cases hcall
  have hsame : insertedValues tr' = [] :=
    (insertedValues_of_completed (Client.exec_monitor Machine.Any h (fun _ _ _ => trivial)) hc
      (Client.exec_monitor Machine.Any htr' (fun _ _ _ => trivial))).2
  obtain ⟨batches, hsent, -, hall⟩ := sent_of_exec ho hrun
  have hflat := hall hfinished
  rw [insertedValues_append, hsame, List.append_nil] at hflat
  exact ⟨hfinished, hout, batches, hsent.bodies, hsent.sizes, hflat⟩

/-- Thread `1` writes three warnings and completes the writer when the worker of thread `0` has begun a batch with the
first one. -/
def completeInBatch : List (ChannelAction (Fin 2) LogMessage) :=
  [.call 1 (.emplace .TRY (warningAt 1) none), .run 1 false, .run 1 false,
    .call 1 (.emplace .TRY (warningAt 2) none), .run 1 false, .run 1 false,
    .call 1 (.emplace .TRY (warningAt 3) none), .run 1 false, .run 1 false,
    .call 0 (.read .WAIT none), .run 0 false, .run 0 false, .run 0 false,
    .call 1 .completeWriter, .run 1 false, .run 1 false]

/-- The worker fills its batch, sends another one with the last message, and ends. -/
def sendTheRest : List (ChannelAction (Fin 2) LogMessage) :=
  [.notify 1 none, .notify 1 none, .call 0 (.read .TRY none), .run 0 false, .run 0 false,
    .call 0 (.read .WAIT none), .run 0 false, .run 0 false, .run 0 false, .call 0 (.read .TRY none), .run 0 false,
    .run 0 false, .call 0 (.read .WAIT none), .run 0 false, .run 0 false, .run 0 false]

private theorem only_of_keepsToCalls (x : Worker × ChannelState (Fin 2) LogMessage) (a : ChannelAction (Fin 2) LogMessage)
    (h : keepsToCalls false x a = true) : (processMessages pairOpts []).Only 0 x a := by
  refine ⟨(sinkRun_of_keepsToCalls x a h).1, ?_⟩
  rintro t op rfl
  by_contra ht
  simp [keepsToCalls, if_neg ht] at h

theorem otel_sink_shutdown_sendTheRest :
    ∃ tr, ∃ x x' : Worker × ChannelState (Fin 2) LogMessage,
      ((processMessages pairOpts []).machine (channel LogMessage 0) 0).Exec (SinkRun pairOpts [] 0)
        (.new, State.init .new) tr x ∧
      x.2.shared.writerCompleted = true ∧ (insertedValues tr).map LogMessage.timestamp = [1, 2, 3] ∧
      x.1.stage = .draining ∧
      ((processMessages pairOpts []).machine (channel LogMessage 0) 0).Path ((processMessages pairOpts []).Only 0)
        x sendTheRest x' ∧
      12 ≤ 6 * x.2.shared.queue.length + ∑ t, (x.2.phase t).steps ChannelLocal.rank + 6 ∧
      x'.1.stage = .finished ∧
      ∃ batches : List (List LogMessage), x'.1.sent = batches.map (requestBody pairOpts []) ∧
        batches.flatten = insertedValues tr := by
  obtain ⟨tr, x, h, hc⟩ := Machine.exists_exec_of_run
    ((processMessages pairOpts []).machine (channel LogMessage 0) (0 : Fin 2)) (SinkRun pairOpts [] 0)
    (.new, State.init .new) (keepsToCalls true) completeInBatch
    (fun tr x => decide (x.2.shared.writerCompleted = true ∧ (insertedValues tr).map LogMessage.timestamp = [1, 2, 3] ∧
      x.1.stage = .draining ∧
      (((processMessages pairOpts []).machine (channel LogMessage 0) (0 : Fin 2)).run (keepsToCalls false) x sendTheRest).any
        (fun y => decide (y.2.1.stage = .finished ∧
          ∀ t, (y.2.2.phase t).rests = true ∧ (y.2.2.phase t).local?.isNone)) = true))
    sinkRun_of_keepsToCalls (by decide)
  obtain ⟨hw, hvalues, hstage, hrun⟩ := of_decide_eq_true hc
  rw [Option.any_eq_true] at hrun
  obtain ⟨⟨tr', x'⟩, hr, hout⟩ := hrun
  obtain ⟨hfinished, hrests⟩ := of_decide_eq_true hout
  have hp : ((processMessages pairOpts []).machine (channel LogMessage 0) 0).Path ((processMessages pairOpts []).Only 0)
      x sendTheRest x' := Machine.path_of_run only_of_keepsToCalls hr
  have houtside : ∀ t, x'.2.phase t = .outside := fun t => Phase.eq_outside (hrests t).1 (hrests t).2
  obtain ⟨hle, -, hend⟩ := otel_sink_shutdown (by decide) h hw hp
  have hcall : (processMessages pairOpts []).call x'.1 = none := by
    show x'.1.call = none
    rw [Worker.call, hfinished]
  obtain ⟨-, -, batches, hsent, -, hflat⟩ := hend (fun t a => Client.stuck_of_rests houtside hcall t)
  exact ⟨tr, x, x', h, hw, hvalues, hstage, hp, hle, hfinished, batches, hsent, hflat⟩

end OtelSink

end Xtd
