import Xtd.Concurrency.Client
import Xtd.Channel.Fifo
import Xtd.Logging.SinksOpts

/-!
# The OTEL sink

`otel_sink.h`: `write` puts the messages of a sufficient level into a channel without a bound, and the worker takes them
out again in batches, one blocking read and then as many reads without blocking as the batch size allows and the channel
has values for.  The worker is a client of the channel; `send` is handed the body of each batch.
-/

namespace Xtd

open Concurrency

namespace OtelSink

/-- `request_header`, formatted with the options and the host name. -/
def requestHeader (o : OtelSinkOpts) (hostname : List Byte) : List Byte :=
  ascii "\x7b\"resourceLogs\":[\x7b\"resource\":\x7b\"attributes\":[" ++
    ascii "\x7b\"key\":\"service.namespace\",\"value\":\x7b\"stringValue\":\"" ++ o.serviceNamespace ++
    ascii "\"\x7d\x7d,\x7b\"key\":\"service.name\",\"value\":\x7b\"stringValue\":\"" ++ o.serviceName ++
    ascii "\"\x7d\x7d,\x7b\"key\":\"service.version\",\"value\":\x7b\"stringValue\":\"" ++ o.serviceVersion ++
    ascii "\"\x7d\x7d,\x7b\"key\":\"service.instance.id\",\"value\":\x7b\"stringValue\":\"" ++ o.serviceInstanceId ++
    ascii "\"\x7d\x7d,\x7b\"key\":\"host.name\",\"value\":\x7b\"stringValue\":\"" ++ hostname ++
    ascii "\"\x7d\x7d,\x7b\"key\":\"deployment.environment.name\",\"value\":\x7b\"stringValue\":\"" ++ o.environmentName ++
    ascii "\"\x7d\x7d,\x7b\"key\":\"telemetry.sdk.name\",\"value\":\x7b\"stringValue\":\"xtd.logging\"\x7d\x7d" ++
    ascii ",\x7b\"key\":\"telemetry.sdk.language\",\"value\":\x7b\"stringValue\":\"cpp\"\x7d\x7d]\x7d," ++
    ascii "\"scopeLogs\":[\x7b\"scope\":\x7b\"name\":\"xtd.logging\",\"version\":\"1.0.0\"\x7d,\"logRecords\":["

def requestFooter : List Byte := ascii "]\x7d]\x7d]\x7d"

/-- `write`: what it calls, if anything. -/
def write (o : OtelSinkOpts) (message : LogMessage) : Option (ChannelOp LogMessage) :=
  if message.level.lt o.minLogLevel then none else some (.emplace .TRY message none)

/-! ### The worker -/

/-- Where `process_messages` is: at `read`, at `try_read` in the inner loop, or at its end. -/
inductive WorkerStage
  | reading
  | draining
  | finished
  deriving DecidableEq

/-- `m_body`, `msg_count` and the bodies handed to `send`. -/
structure Worker where
  stage : WorkerStage
  body : List Byte
  msgCount : Nat
  sent : List (List Byte)

namespace Worker

def new : Worker := ⟨.reading, [], 0, []⟩

/-- The end of a batch. -/
def flush (g : Worker) : Worker := ⟨.reading, [], g.msgCount, g.sent ++ [g.body ++ requestFooter]⟩

/-- `while (msg_count < batch_size)`. -/
def drain (o : OtelSinkOpts) (g : Worker) : Worker :=
  if g.msgCount < o.batchSize then { g with stage := .draining } else g.flush

def see (o : OtelSinkOpts) (hostname : List Byte) (g : Worker) (e : ChannelEvent LogMessage) : Worker :=
  match g.stage, e with
  | .reading, .readReturn _ .WAIT (.ok message) =>
    ({ g with
      body := g.body ++ requestHeader o hostname ++ OtelSerializer.serializeRecord message
      msgCount := 1 } : Worker).drain o
  | .reading, .readReturn _ .WAIT (.error _) => { g with stage := .finished }
  | .draining, .readReturn _ .TRY (.ok message) =>
    ({ g with
      body := g.body ++ ascii "," ++ OtelSerializer.serializeRecord message
      msgCount := g.msgCount + 1 } : Worker).drain o
  | .draining, .readReturn _ .TRY (.error _) => g.flush
  | _, _ => g

def call (g : Worker) : Option (ChannelOp LogMessage) :=
  match g.stage with
  | .reading => some (.read .WAIT none)
  | .draining => some (.read .TRY none)
  | .finished => none

end Worker

/-- `process_messages`. -/
def processMessages (o : OtelSinkOpts) (hostname : List Byte) :
    Client Worker (ChannelOp LogMessage) (ChannelEvent LogMessage) :=
  ⟨Worker.call, Worker.see o hostname⟩

/-! ### Bodies -/

/-- The body of a batch before its footer. -/
def openBody (o : OtelSinkOpts) (hostname : List Byte) (batch : List LogMessage) : List Byte :=
  requestHeader o hostname ++ (ascii ",").intercalate (batch.map OtelSerializer.serializeRecord)

/-- The body with the records of a batch. -/
def requestBody (o : OtelSinkOpts) (hostname : List Byte) (batch : List LogMessage) : List Byte :=
  openBody o hostname batch ++ requestFooter

private theorem intercalate_concat (sep : List Byte) {l : List (List Byte)} (hl : l ≠ []) (x : List Byte) :
    sep.intercalate (l ++ [x]) = sep.intercalate l ++ sep ++ x := by
  induction l with
  | nil => exact absurd rfl hl
  | cons y l ih =>
    cases l with
    | nil => simp [List.intercalate_cons_cons, List.intercalate_singleton]
    | cons z l =>
      have := ih (List.cons_ne_nil _ _)
      simp only [List.cons_append] at this
      simp only [List.cons_append, List.intercalate_cons_cons, this, List.append_assoc]

theorem openBody_concat (o : OtelSinkOpts) (hostname : List Byte) {batch : List LogMessage} (hb : batch ≠ [])
    (message : LogMessage) :
    openBody o hostname (batch ++ [message]) =
      openBody o hostname batch ++ ascii "," ++ OtelSerializer.serializeRecord message := by
  unfold openBody
  rw [List.map_append, List.map_singleton, intercalate_concat _ (by simpa using hb)]
  simp [List.append_assoc]

/-- The batches sent so far: each has at least one record and no more than the batch size. -/
structure Sent (o : OtelSinkOpts) (hostname : List Byte) (sent : List (List Byte)) (batches : List (List LogMessage)) :
    Prop where
  bodies : sent = batches.map (requestBody o hostname)
  sizes : ∀ batch ∈ batches, 1 ≤ batch.length ∧ batch.length ≤ o.batchSize

/-- The worker has sent `batches` and has the records `current` in its body. -/
inductive Batching (o : OtelSinkOpts) (hostname : List Byte) (batches : List (List LogMessage)) :
    Worker → List LogMessage → Prop
  | reading (sent : List (List Byte)) (n : Nat) (hs : Sent o hostname sent batches) :
      Batching o hostname batches ⟨.reading, [], n, sent⟩ []
  | draining (sent : List (List Byte)) (current : List LogMessage) (hs : Sent o hostname sent batches)
      (hne : current ≠ []) (hlt : current.length < o.batchSize) :
      Batching o hostname batches ⟨.draining, openBody o hostname current, current.length, sent⟩ current
  | finished (sent : List (List Byte)) (n : Nat) (hs : Sent o hostname sent batches) :
      Batching o hostname batches ⟨.finished, [], n, sent⟩ []

variable {o : OtelSinkOpts} {hostname : List Byte} {batches : List (List LogMessage)} {g : Worker}
  {current : List LogMessage}

/-- A batch is sent: its records are now among those sent. -/
theorem batching_flush {sent : List (List Byte)} (hs : Sent o hostname sent batches) (hne : current ≠ [])
    (hle : current.length ≤ o.batchSize) (stage : WorkerStage) :
    Batching o hostname (batches ++ [current])
      (Worker.flush ⟨stage, openBody o hostname current, current.length, sent⟩) [] := by
  refine .reading _ _ ⟨?_, ?_⟩
  · rw [hs.bodies, List.map_append]
    rfl
  · intro batch hmem
    rcases List.mem_append.1 hmem with hmem | hmem
    · exact hs.sizes batch hmem
    · rw [List.mem_singleton.1 hmem]
      exact ⟨List.length_pos_of_ne_nil hne, hle⟩

/-- After a record was added, the batch goes on or is sent. -/
theorem batching_drain {sent : List (List Byte)} (hs : Sent o hostname sent batches) (hne : current ≠ [])
    (hle : current.length ≤ o.batchSize) (stage : WorkerStage) :
    ∃ batches' current', Batching o hostname batches'
        (Worker.drain o ⟨stage, openBody o hostname current, current.length, sent⟩) current' ∧
      batches'.flatten ++ current' = batches.flatten ++ current := by
  unfold Worker.drain
  split
  · rename_i hlt
    exact ⟨batches, current, .draining sent current hs hne hlt, rfl⟩
  · refine ⟨batches ++ [current], [], batching_flush hs hne hle stage, ?_⟩
    simp

/-- How the worker reads. -/
def WorkerStage.strategy : WorkerStage → BlockStrategy
  | reading => .WAIT
  | draining | finished => .TRY

private theorem drain_stage (g : Worker) : (g.drain o).stage ≠ .finished := by
  unfold Worker.drain
  split <;> exact nofun

/-- A message that the worker gets joins the records sent or in the body. -/
theorem Batching.message (ho : 0 < o.batchSize) (h : Batching o hostname batches g current)
    (hstage : g.stage ≠ .finished) (call : Nat) (message : LogMessage) :
    (g.see o hostname (.readReturn call g.stage.strategy (.ok message))).stage ≠ .finished ∧
    ∃ batches' current', Batching o hostname batches'
        (g.see o hostname (.readReturn call g.stage.strategy (.ok message))) current' ∧
      batches'.flatten ++ current' = batches.flatten ++ current ++ [message] := by
  cases h with
  | reading sent n hs =>
    have hbody : openBody o hostname [message] =
        [] ++ requestHeader o hostname ++ OtelSerializer.serializeRecord message := by
      simp [openBody, List.intercalate_singleton]
    have hne : [message] ≠ [] := by simp
    obtain ⟨batches', current', hB, hflat⟩ := batching_drain hs hne ho .reading
    rw [hbody] at hB
    exact ⟨drain_stage _, batches', current', hB, by rw [hflat, List.append_nil]⟩
  | draining sent _ hs hne hlt =>
    have hne' : current ++ [message] ≠ [] := by simp
    have hle : (current ++ [message]).length ≤ o.batchSize := by
      rw [List.length_append]
      exact hlt
    obtain ⟨batches', current', hB, hflat⟩ := batching_drain hs hne' hle .draining
    rw [openBody_concat o hostname hne, List.length_append] at hB
    exact ⟨drain_stage _, batches', current', hB, by rw [hflat, List.append_assoc]⟩
  | finished => exact absurd rfl hstage

/-- Without a message the worker sends its batch or, at its blocking read, ends. -/
theorem Batching.empty (h : Batching o hostname batches g current) (hstage : g.stage ≠ .finished) (call : Nat)
    (error : ChannelReadErrors) :
    ∃ batches', Batching o hostname batches' (g.see o hostname (.readReturn call g.stage.strategy (.error error))) [] ∧
      batches'.flatten = batches.flatten ++ current := by
  cases h with
  | reading sent n hs => exact ⟨batches, .finished sent n hs, by simp⟩
  | draining sent _ hs hne hlt => exact ⟨batches ++ [current], batching_flush hs hne (Nat.le_of_lt hlt) _, by simp⟩
  | finished => exact absurd rfl hstage

theorem Batching.sent (h : Batching o hostname batches g current) : Sent o hostname g.sent batches := by
  cases h <;> assumption

/-- Outside the inner loop there is no batch under way. -/
theorem Batching.closed (h : Batching o hostname batches g current) (hne : g.stage ≠ .draining) :
    g.body = [] ∧ current = [] := by
  cases h with
  | draining => exact absurd rfl hne
  | _ => exact ⟨rfl, rfl⟩

/-! ### Calls under way -/

variable {c : Channel LogMessage}

/-- The places of a call of the sink: `try_push` of a message of a sufficient level, or `complete`. -/
def OfSink (o : OtelSinkOpts) (l : ChannelLocal LogMessage) : Prop :=
  (∃ call message, l = .emplaceTop call .TRY message none ∧ message.level.lt o.minLogLevel = false) ∨
    ∃ call, l = .completeWriter call

/-- The places of a call of the worker at the given stage. -/
def WorkerStage.At : WorkerStage → ChannelLocal LogMessage → Prop
  | reading, l =>
    ∃ call, l = .readTop call .read none ∨ l = .readAfterWait call .read none ∨ l = .readCheck call .read none
  | draining, l => ∃ call, l = .tryRead call
  | finished, _ => False

/-- A call of the sink has one piece: it inserts its message unless the writer is completed, or completes the writer. -/
theorem sink_piece {l : ChannelLocal LogMessage} (hl : OfSink o l) (seen : Bool) :
    let r := (channel LogMessage 0).exec l c false seen
    r.shared.writeWaiters = c.writeWaiters ∧ r.next.local? = none ∧ removedValues r.events = [] ∧
      (∀ message ∈ insertedValues r.events, message.level.lt o.minLogLevel = false) ∧
      ∀ i, .emplaceReturn i false ∈ r.events ++ r.next.doneEvents → c.writerCompleted = true := by
  have hm := channel_moves 0 l c false seen
  dsimp only
  generalize (channel LogMessage 0).exec l c false seen = r at hm ⊢
  rcases hl with ⟨call, message, rfl, hlevel⟩ | ⟨call, rfl⟩
  · cases hm with
    | emplaceFail hl h =>
      cases hl
      refine ⟨rfl, rfl, rfl, List.forall_mem_nil _, ?_⟩
      rintro i -
      simpa [Channel.full] using h
    | insert hl hc hf =>
      cases hl
      refine ⟨rfl, rfl, rfl, ?_, ?_⟩
      · intro message' hmem
        rw [List.mem_singleton.1 hmem]
        exact hlevel
      · simp [Channel.insert, Next.doneEvents]
    | readEmpty hl => cases hl
    | take hl => cases hl
    | mayRead hl => cases hl
  · cases hm with
    | completeWriter => exact ⟨rfl, rfl, rfl, List.forall_mem_nil _, by simp [Channel.completeWriter, Next.doneEvents]⟩
    | emplaceFail hl h => cases hl
    | insert hl => cases hl
    | readEmpty hl => cases hl
    | take hl => cases hl
    | mayRead hl => cases hl

/-- Neither the worker nor the sink uses a stop token. -/
theorem OfSink.token {l : ChannelLocal LogMessage} (h : OfSink o l) : l.token = none := by
  rcases h with ⟨call, message, rfl, -⟩ | ⟨call, rfl⟩ <;> rfl

theorem WorkerStage.At.token {stage : WorkerStage} {l : ChannelLocal LogMessage} (h : stage.At l) : l.token = none := by
  cases stage with
  | reading => obtain ⟨call, rfl | rfl | rfl⟩ := h <;> rfl
  | draining => obtain ⟨call, rfl⟩ := h; rfl
  | finished => exact absurd h id

/-- What the worker makes of the events of a piece. -/
def Worker.after (o : OtelSinkOpts) (hostname : List Byte) (g : Worker) (r : ChannelPiece LogMessage) : Worker :=
  (r.events ++ r.next.doneEvents).foldl (Worker.see o hostname) g

/-- What holds after the piece `r` of a call of the worker at `l`. -/
structure WorkerAfter (o : OtelSinkOpts) (hostname : List Byte) (g : Worker) (records : List LogMessage)
    (c : Channel LogMessage) (l : ChannelLocal LogMessage) (r : ChannelPiece LogMessage) : Prop where
  waiters : r.shared.writeWaiters = 0
  quiet : ∀ n ns k, r.next ≠ .release (n :: ns) k
  place : ∀ l', r.next.local? = some l' → (g.after o hostname r).stage.At l'
  inserts : insertedValues r.events = []
  pushes : ∀ i b, .emplaceReturn i b ∉ r.events ++ r.next.doneEvents
  batching : ∃ batches current, Batching o hostname batches (g.after o hostname r) current ∧
    batches.flatten ++ current = records ++ removedValues r.events
  ends : (g.after o hostname r).stage = .finished → l.decides = true ∧ c.queue = [] ∧ r.shared.queue = [] ∧
    r.shared.writerCompleted = c.writerCompleted

private theorem see_removed (g : Worker) (call : Nat) (message : LogMessage) :
    g.see o hostname (.removed call message) = g := by
  obtain ⟨stage, body, n, sent⟩ := g
  cases stage <;> rfl

/-- The worker takes a message out of the queue. -/
private theorem worker_takes (ho : 0 < o.batchSize) (hB : Batching o hostname batches g current)
    (hstage : g.stage ≠ .finished) (hw : c.writeWaiters = 0) (l : ChannelLocal LogMessage) (call : Nat)
    (message : LogMessage) (rest : List LogMessage) {c' : Channel LogMessage} :
    WorkerAfter o hostname g (batches.flatten ++ current) c' l
      (c.remove call message rest (.done [.readReturn call g.stage.strategy (.ok message)])) := by
  have hnil : c.remove call message rest (.done [.readReturn call g.stage.strategy (.ok message)]) =
      ⟨{ c with queue := rest }, [.removed call message],
        .release [] (.done [.readReturn call g.stage.strategy (.ok message)])⟩ := by
    simp [Channel.remove, hw]
  have hafter : g.after o hostname
      (c.remove call message rest (.done [.readReturn call g.stage.strategy (.ok message)])) =
      g.see o hostname (.readReturn call g.stage.strategy (.ok message)) := by
    rw [hnil]
    show Worker.see o hostname (Worker.see o hostname g _) _ = _
    rw [see_removed]
  obtain ⟨hne, batches', current', hB', hflat⟩ := hB.message ho hstage call message
  refine ⟨hw, ?_, ?_, rfl, by simp [Channel.remove, Next.doneEvents],
    ⟨batches', current', by rw [hafter]; exact hB', hflat⟩, ?_⟩
  · intro n ns k hn
    rw [hnil] at hn
    cases hn
  · intro l' hn
    rw [hnil] at hn
    cases hn
  · rw [hafter]
    intro hf
    exact absurd hf hne

/-- The worker finds the queue empty. -/
private theorem worker_empty (hB : Batching o hostname batches g current) {l : ChannelLocal LogMessage}
    (hl : g.stage.At l) (hdec : g.stage = .reading → l.decides = true) (hw : c.writeWaiters = 0)
    (call : Nat) {c' : Channel LogMessage} (hq : c'.queue = []) (hcq : c.queue = c'.queue)
    (hcw : c.writerCompleted = c'.writerCompleted) :
    WorkerAfter o hostname g (batches.flatten ++ current) c' l
      ⟨c, [], .release [] (.done [.readReturn call g.stage.strategy (.error .channelEmpty)])⟩ := by
  have hstage : g.stage ≠ .finished := by
    intro hf
    rw [hf] at hl
    exact hl
  obtain ⟨batches', hB', hflat⟩ := hB.empty hstage call .channelEmpty
  refine ⟨hw, (fun _ _ _ hn => by cases hn), (fun _ hn => by cases hn), rfl, by simp [Next.doneEvents],
    ⟨batches', [], hB', by simpa [removedValues] using hflat⟩, ?_⟩
  intro hf
  refine ⟨hdec ?_, hq, hcq.trans hq, hcw⟩
  -- only the blocking read ends the loop
  cases hB with
  | reading => rfl
  | draining => cases hf
  | finished => exact absurd rfl hstage

/-- The worker goes on in its call, or waits for a message. -/
private theorem worker_goes (hB : Batching o hostname batches g current) (hstage : g.stage ≠ .finished)
    {l l' : ChannelLocal LogMessage} {c' : Channel LogMessage} (hw : c'.writeWaiters = 0)
    {next : Next (ChannelLocal LogMessage) ChannelCv (ChannelEvent LogMessage)}
    (hn : next = .hold l' ∨ next = .wait .notEmpty l') (hl' : g.stage.At l') :
    WorkerAfter o hostname g (batches.flatten ++ current) c l ⟨c', [], next⟩ := by
  have hafter : g.after o hostname ⟨c', [], next⟩ = g := by rcases hn with rfl | rfl <;> rfl
  have hlocal : next.local? = some l' := by rcases hn with rfl | rfl <;> rfl
  refine ⟨hw, ?_, ?_, rfl, ?_, ⟨batches, current, by rw [hafter]; exact hB, by simp [removedValues]⟩, ?_⟩
  · rintro _ _ _ rfl
    rcases hn with hn | hn <;> cases hn
  · intro l'' h
    rw [hafter]
    cases hlocal.symm.trans h
    exact hl'
  · rcases hn with rfl | rfl <;> simp [Next.doneEvents]
  · rw [hafter]
    exact fun hf => absurd hf hstage

/-- Every piece of a call of the worker. -/
theorem worker_piece (ho : 0 < o.batchSize) (hB : Batching o hostname batches g current)
    {l : ChannelLocal LogMessage} (hl : g.stage.At l) (hw : c.writeWaiters = 0) (seen : Bool) :
    WorkerAfter o hostname g (batches.flatten ++ current) c l ((channel LogMessage 0).exec l c false seen) := by
  have hm := channel_moves 0 l c false seen
  generalize (channel LogMessage 0).exec l c false seen = r at hm ⊢
  have hstage : g.stage ≠ .finished := by
    intro hf
    rw [hf] at hl
    exact hl
  cases hst : g.stage with
  | finished => exact absurd hst hstage
  | draining =>
    have hl' := hl
    rw [hst] at hl'
    obtain ⟨call, rfl⟩ := hl'
    have hTry : g.stage.strategy = .TRY := by rw [hst]; rfl
    cases hm with
    | emplaceFail hl' => cases hl'
    | insert hl' => cases hl'
    | readEmpty hl' => cases hl'
    | take hl' => cases hl'
    | mayRead hl' => cases hl'
    | tryEmpty _ _ hq =>
      rw [← hTry]
      exact worker_empty hB hl (by rw [hst]; intro h; cases h) hw call hq rfl rfl
    | tryTake _ _ message rest hq =>
      rw [← hTry]
      exact worker_takes ho hB hstage hw _ call message rest
  | reading =>
    have hl' := hl
    rw [hst] at hl'
    have hWait : g.stage.strategy = .WAIT := by rw [hst]; rfl
    obtain ⟨call, rfl | rfl | rfl⟩ := hl'
    · cases hm with
      | emplaceFail hl' => cases hl'
      | insert hl' => cases hl'
      | readEmpty hl' => cases hl'
      | take hl' => cases hl'
      | mayRead hl' => cases hl'
      | readWait => exact worker_goes hB hstage (by exact hw) (.inr rfl) (by rw [hst]; exact ⟨call, .inr (.inl rfl)⟩)
      | readGo => exact worker_goes hB hstage hw (.inl rfl) (by rw [hst]; exact ⟨call, .inr (.inr rfl)⟩)
    · cases hm with
      | emplaceFail hl' => cases hl'
      | insert hl' => cases hl'
      | mayRead hl' => cases hl'
      | readEmpty hl' hq =>
        cases hl'
        show WorkerAfter o hostname g _ c _ ⟨_, [], .release [] (.done [.readReturn call .WAIT _])⟩
        rw [← hWait]
        exact worker_empty (c := { c with readWaiters := c.readWaiters - 1 }) hB hl (fun _ => rfl) hw call hq rfl rfl
      | take hl' hq hk =>
        cases hl'
        cases hk
        rw [← hWait]
        exact worker_takes (c := { c with readWaiters := c.readWaiters - 1 }) ho hB hstage hw _ call _ _
    · cases hm with
      | emplaceFail hl' => cases hl'
      | insert hl' => cases hl'
      | mayRead hl' => cases hl'
      | readEmpty hl' hq =>
        cases hl'
        show WorkerAfter o hostname g _ c _ ⟨_, [], .release [] (.done [.readReturn call .WAIT _])⟩
        rw [← hWait]
        exact worker_empty hB hl (fun _ => rfl) hw call hq rfl rfl
      | take hl' hq hk =>
        cases hl'
        cases hk
        rw [← hWait]
        exact worker_takes ho hB hstage hw _ call _ _

/-! ### Runs -/

variable {τ : Type} [DecidableEq τ] [Fintype τ]

/-- The thread `w` runs `process_messages`; the others call `write`, and the destructor completes the writer. -/
def SinkRun (o : OtelSinkOpts) (hostname : List Byte) (w : τ) (x : Worker × ChannelState τ LogMessage)
    (a : ChannelAction τ LogMessage) : Prop :=
  (processMessages o hostname).Follows w x a ∧
    ∀ t op, a = .call t op → t ≠ w → (∃ message, write o message = some op) ∨ op = .completeWriter

/-- The state of the sink in a run: the records taken out of the channel are those sent or in the body. -/
structure Holds (o : OtelSinkOpts) (hostname : List Byte) (w : τ) (tr : List (ChannelEvent LogMessage))
    (x : Worker × ChannelState τ LogMessage) : Prop where
  waiters : x.2.shared.writeWaiters = 0
  sinks : ∀ t l, t ≠ w → (x.2.phase t).local? = some l → OfSink o l
  place : ∀ l, (x.2.phase w).local? = some l → x.1.stage.At l
  quiet : (x.2.phase w).doneEvents = []
  batching : ∃ batches current, Batching o hostname batches x.1 current ∧
    batches.flatten ++ current = removedValues tr
  levels : ∀ message ∈ insertedValues tr, message.level.lt o.minLogLevel = false
  drained : x.1.stage = .finished → x.2.shared.writerCompleted = true ∧ x.2.shared.queue = []

variable {w : τ} {tr : List (ChannelEvent LogMessage)} {x : Worker × ChannelState τ LogMessage}

/-- A call of the worker or of the sink comes to its place. -/
private theorem holds_enter {op : ChannelOp LogMessage} {n : Nat} {l : ChannelLocal LogMessage}
    (hl : op.enter n = l) :
    (∀ g : Worker, g.call = some op → g.stage.At l) ∧
      ((∃ message, write o message = some op) ∨ op = .completeWriter → OfSink o l) := by
  subst hl
  constructor
  · rintro ⟨stage, body, k, sent⟩ hcall
    cases stage with
    | reading => cases hcall; exact ⟨n, .inl rfl⟩
    | draining => cases hcall; exact ⟨n, rfl⟩
    | finished => cases hcall
  · rintro (⟨message, hwrite⟩ | rfl)
    · unfold write at hwrite
      split at hwrite
      · cases hwrite
      · rename_i hlevel
        cases hwrite
        exact .inl ⟨n, message, rfl, by simpa using hlevel⟩
    · exact .inr ⟨n, rfl⟩

omit [DecidableEq τ] [Fintype τ] in
private theorem piece_eq (s : ChannelState τ LogMessage) {l : ChannelLocal LogMessage} (h : l.token = none) (z : Bool) :
    (channel LogMessage 0).piece s l z = (channel LogMessage 0).exec l s.shared false z := by
  show (channel LogMessage 0).exec l s.shared (s.stop l.token) z = _
  rw [h]
  rfl

section Step

variable {x' : Worker × ChannelState τ LogMessage} {a : ChannelAction τ LogMessage}
  {evs : List (ChannelEvent LogMessage)}

omit [DecidableEq τ] [Fintype τ] in
/-- A piece of another thread than the worker's is one of the sink. -/
private theorem Holds.other (hH : Holds o hostname w tr x) {t : τ} {l : ChannelLocal LogMessage}
    (hl : x.2.phase t = .locked l) (ht : t ≠ w) (z : Bool) :
    let r := (channel LogMessage 0).piece x.2 l z
    r.shared.writeWaiters = 0 ∧ r.next.local? = none ∧ removedValues r.events = [] ∧
      (∀ message ∈ insertedValues r.events, message.level.lt o.minLogLevel = false) ∧
      ∀ i, .emplaceReturn i false ∈ r.events ++ r.next.doneEvents → x.2.shared.writerCompleted = true := by
  have hsink := hH.sinks t l ht (Monitor.local?_of_locked hl)
  obtain ⟨h1, h2⟩ := sink_piece (c := x.2.shared) hsink z
  dsimp only
  rw [piece_eq x.2 hsink.token]
  exact ⟨h1.trans hH.waiters, h2⟩

omit [DecidableEq τ] [Fintype τ] in
/-- A piece of the worker, in the state of the sink. -/
private theorem Holds.worker (ho : 0 < o.batchSize) (hH : Holds o hostname w tr x) {l : ChannelLocal LogMessage}
    (hl : x.2.phase w = .locked l) (z : Bool) :
    WorkerAfter o hostname x.1 (removedValues tr) x.2.shared l ((channel LogMessage 0).piece x.2 l z) := by
  have hat := hH.place l (Monitor.local?_of_locked hl)
  obtain ⟨batches, current, hB, hflat⟩ := hH.batching
  have hW := worker_piece ho hB hat hH.waiters z
  rw [← piece_eq x.2 hat.token, hflat] at hW
  exact hW

private theorem Holds.sinks_step (hH : Holds o hostname w tr x) (hok : SinkRun o hostname w x a)
    (hm : (channel LogMessage 0).Moves x.2 a x'.2 evs) {t : τ} {l : ChannelLocal LogMessage} (ht : t ≠ w)
    (hl : (x'.2.phase t).local? = some l) : OfSink o l := by
  rcases hm.local_eq hl with ⟨hl, -⟩ | ⟨op, rfl, he⟩ | ⟨z, l₀, -, hl₀, hn⟩
  · exact hH.sinks t l ht hl
  · exact (holds_enter (Option.some.inj he)).2 (hok.2 t op rfl ht)
  · rw [(hH.other hl₀ ht z).2.1] at hn
    cases hn

/-- A piece of the worker. -/
private theorem Holds.piece (ho : 0 < o.batchSize)
    (h : ((channel LogMessage 0).machine τ).Exec Machine.Any (State.init .new) tr x.2)
    (hH : Holds o hostname w tr x) (hok : SinkRun o hostname w x a)
    (hm : (channel LogMessage 0).Moves x.2 a x'.2 evs) {z : Bool} {l : ChannelLocal LogMessage} (ha : a = .run w z)
    (hl : x.2.phase w = .locked l) (hquiet : (x'.2.phase w).doneEvents = [])
    (hnext : x'.1 = x.1.after o hostname ((channel LogMessage 0).piece x.2 l z)) :
    Holds o hostname w (tr ++ evs) x' := by
  have hat := hH.place l (Monitor.local?_of_locked hl)
  have hW := hH.worker ho hl z
  have hsinks := fun t l ht hl => hH.sinks_step hok hm (t := t) (l := l) ht hl
  subst ha
  obtain ⟨hins, hrem⟩ := values_of_piece hm hl
  obtain ⟨hsh, hown, -⟩ := hm.of_piece hl
  refine ⟨by rw [hsh]; exact hW.waiters, hsinks, ?_, hquiet, ?_, ?_, ?_⟩
  · intro l' hl'
    rw [hnext]
    exact hW.place l' (hown.symm.trans hl')
  · rw [hnext, removedValues_append, hrem]
    exact hW.batching
  · intro message hmem
    rw [insertedValues_append, hins, hW.inserts, List.append_nil] at hmem
    exact hH.levels message hmem
  · intro hf
    rw [hnext] at hf
    obtain ⟨hdec, hempty, hq, hc⟩ := hW.ends hf
    refine ⟨?_, by rw [hsh]; exact hq⟩
    rw [hsh, hc]
    -- a blocking read passes its wait at an empty queue only when the writer is completed
    rcases canRead_of_decides h hl hdec with hs | hr
    · rw [hat.token] at hs
      cases hs
    · simpa [Channel.canRead, hempty] using hr

/-- Every other step. -/
private theorem Holds.rest (h : ((channel LogMessage 0).machine τ).Exec Machine.Any (State.init .new) tr x.2)
    (hH : Holds o hostname w tr x) (hok : SinkRun o hostname w x a)
    (hm : (channel LogMessage 0).Moves x.2 a x'.2 evs) (ha : ∀ z l, a = .run w z → x.2.phase w ≠ .locked l)
    (hquiet : (x'.2.phase w).doneEvents = []) (hnext : x'.1 = x.1) : Holds o hostname w (tr ++ evs) x' := by
  obtain ⟨hwait, hrem, hins⟩ : x'.2.shared.writeWaiters = 0 ∧ removedValues evs = [] ∧
      ∀ message ∈ insertedValues evs, message.level.lt o.minLogLevel = false := by
    rcases values_of_step h hm with ⟨he, h1, h2⟩ | ⟨t, z, l, ha', hl, he, h1, h2⟩
    · rw [he, h1, h2]
      exact ⟨hH.waiters, rfl, nofun⟩
    · have ht : t ≠ w := by
        rintro rfl
        exact ha z l ha' hl
      obtain ⟨h3, -, h4, h5, -⟩ := hH.other hl ht z
      rw [he, h1, h2]
      exact ⟨h3, h4, h5⟩
  refine ⟨hwait, fun t l ht hl => hH.sinks_step hok hm ht hl, ?_, hquiet, ?_, ?_, ?_⟩
  · intro l hl
    rw [hnext]
    rcases hm.local_eq hl with ⟨hl, -⟩ | ⟨op, rfl, he⟩ | ⟨z, l₀, ha', hl₀, -⟩
    · exact hH.place l hl
    · exact (holds_enter (o := o) (Option.some.inj he)).1 x.1 (hok.1 op rfl)
    · exact absurd hl₀ (ha z l₀ ha')
  · rw [hnext, removedValues_append, hrem, List.append_nil]
    exact hH.batching
  · intro message hmem
    rw [insertedValues_append] at hmem
    rcases List.mem_append.1 hmem with hmem | hmem
    · exact hH.levels message hmem
    · exact hins message hmem
  · intro hf
    rw [hnext] at hf
    -- the channel is completed and drained, and stays so
    obtain ⟨h1, h2⟩ := hH.drained hf
    obtain ⟨hfifo, -, hmono⟩ := step_fifo h hm
    obtain ⟨h3, h4⟩ := hmono h1
    rw [h2, h4, List.append_nil, List.append_eq_nil_iff] at hfifo
    exact ⟨h3, hfifo.2⟩

end Step

theorem holds_of_exec (ho : 0 < o.batchSize)
    (h : ((processMessages o hostname).machine (channel LogMessage 0) w).Exec (SinkRun o hostname w)
      (.new, State.init .new) tr x) : Holds o hostname w tr x := by
  induction h with
  | nil => exact ⟨rfl, nofun, nofun, rfl, ⟨[], [], .reading [] 0 ⟨rfl, nofun⟩, rfl⟩, nofun, nofun⟩
  | @snoc tr evs x x' a h hok hs ih =>
    obtain ⟨hm, -⟩ := Client.moves_of_step hs
    have hrun := Client.exec_monitor Machine.Any h (fun _ _ _ => trivial)
    obtain ⟨hquiet, hstep⟩ := Client.quiet_step hs ih.quiet
      (fun z l n ns k _ hl hn => absurd hn ((ih.worker ho hl z).quiet n ns k))
    rcases hstep with ⟨op, rfl, -, hnext⟩ | ⟨z, l, ha, hl, hnext⟩ | ⟨-, ha, hnext⟩
    · exact ih.rest hrun hok hm (fun _ _ h => nomatch h) hquiet hnext
    · exact ih.piece ho hrun hok hm ha hl hquiet hnext
    · exact ih.rest hrun hok hm ha hquiet hnext

/-- The batches sent are a beginning of the messages accepted, and all of them when the worker has ended. -/
theorem sent_of_exec (ho : 0 < o.batchSize)
    (h : ((processMessages o hostname).machine (channel LogMessage 0) w).Exec (SinkRun o hostname w)
      (.new, State.init .new) tr x) :
    ∃ batches, Sent o hostname x.1.sent batches ∧ batches.flatten <+: insertedValues tr ∧
      (x.1.stage = .finished → batches.flatten = insertedValues tr) := by
  have hH := holds_of_exec ho h
  have hfifo := (fifo_of_exec (Client.exec_monitor Machine.Any h (fun _ _ _ => trivial))).1
  obtain ⟨batches, current, hB, hflat⟩ := hH.batching
  refine ⟨batches, hB.sent, ?_, ?_⟩
  · rw [← hfifo, ← hflat, List.append_assoc]
    exact List.prefix_append _ _
  · intro hf
    have hstage : x.1.stage ≠ .draining := by
      rw [hf]
      intro he
      cases he
    rw [← hfifo, ← hflat, (hB.closed hstage).2, (hH.drained hf).2]
    simp

/-- A warning with the given time stamp. -/
def warningAt (timestamp : Int) : LogMessage := ⟨.warning, timestamp, [], [], [], [], 0, [], none⟩

/-- Options with batches of two messages. -/
def pairOpts : OtelSinkOpts := ⟨.information, [120], [], [120], [120], [120], [120], [120], 2⟩

/-- Thread `1` writes three warnings and completes the writer; the worker of thread `0` sends the first two, then the
third, and ends. -/
def writeThree : List (ChannelAction (Fin 2) LogMessage) :=
  [.call 1 (.emplace .TRY (warningAt 1) none), .run 1 false, .run 1 false,
    .call 1 (.emplace .TRY (warningAt 2) none), .run 1 false, .run 1 false,
    .call 0 (.read .WAIT none), .run 0 false, .run 0 false, .run 0 false,
    .call 0 (.read .TRY none), .run 0 false, .run 0 false,
    .call 1 (.emplace .TRY (warningAt 3) none), .run 1 false, .run 1 false,
    .call 0 (.read .WAIT none), .run 0 false, .run 0 false, .run 0 false,
    .call 0 (.read .TRY none), .run 0 false, .run 0 false,
    .call 0 (.read .WAIT none), .run 0 false, .run 0 false, .run 0 false,
    .call 1 .completeWriter, .run 1 false, .run 1 false, .notify 1 none, .notify 1 none,
    .run 0 false, .run 0 false, .run 0 false]

/-- The worker calls `op`, as a test. -/
private def WorkerStage.calls : WorkerStage → ChannelOp LogMessage → Bool
  | .reading, .read .WAIT none | .draining, .read .TRY none => true
  | _, _ => false

/-- The sink calls `op`, as a test. -/
private def sinkCalls (o : OtelSinkOpts) : ChannelOp LogMessage → Bool
  | .emplace .TRY message none => !message.level.lt o.minLogLevel
  | .completeWriter => true
  | _ => false

private theorem WorkerStage.call_eq {g : Worker} {op : ChannelOp LogMessage} (h : g.stage.calls op = true) :
    g.call = some op := by
  obtain ⟨stage, body, n, sent⟩ := g
  unfold WorkerStage.calls at h
  split at h
  · rename_i hstage
    obtain rfl : stage = _ := hstage
    rfl
  · rename_i hstage
    obtain rfl : stage = _ := hstage
    rfl
  · cases h

private theorem write_of_sinkCalls {op : ChannelOp LogMessage} (h : sinkCalls o op = true) :
    (∃ message, write o message = some op) ∨ op = .completeWriter := by
  unfold sinkCalls at h
  split at h
  · rename_i message
    rw [Bool.not_eq_true'] at h
    exact .inl ⟨message, by simp [write, h]⟩
  · exact .inr rfl
  · cases h

/-- The two threads keep to their calls, as a test; thread `1` calls only if `writes` is set. -/
def keepsToCalls (writes : Bool) (x : Worker × ChannelState (Fin 2) LogMessage) : ChannelAction (Fin 2) LogMessage → Bool
  | .call t op => if t = 0 then x.1.stage.calls op else writes && sinkCalls pairOpts op
  | _ => true

theorem sinkRun_of_keepsToCalls {writes : Bool} (x : Worker × ChannelState (Fin 2) LogMessage)
    (a : ChannelAction (Fin 2) LogMessage) (h : keepsToCalls writes x a = true) : SinkRun pairOpts [] 0 x a := by
  constructor
  · rintro op rfl
    exact WorkerStage.call_eq h
  · rintro t op rfl ht
    simp only [keepsToCalls, if_neg ht, Bool.and_eq_true] at h
    exact write_of_sinkCalls h.2

/-- The run of `writeThree` ends with the worker. -/
theorem exec_writeThree :
    ∃ tr, ∃ x : Worker × ChannelState (Fin 2) LogMessage,
      ((processMessages pairOpts []).machine (channel LogMessage 0) 0).Exec (SinkRun pairOpts [] 0)
        (.new, State.init .new) tr x ∧
      (insertedValues tr).map LogMessage.timestamp = [1, 2, 3] ∧ x.1.stage = .finished := by
  obtain ⟨tr, x, h, hc⟩ := Machine.exists_exec_of_run
    ((processMessages pairOpts []).machine (channel LogMessage 0) (0 : Fin 2)) (SinkRun pairOpts [] 0)
    (.new, State.init .new) (keepsToCalls true) writeThree
    (fun tr x => decide ((insertedValues tr).map LogMessage.timestamp = [1, 2, 3] ∧ x.1.stage = .finished))
    sinkRun_of_keepsToCalls (by decide)
  exact ⟨tr, x, h, of_decide_eq_true hc⟩

end OtelSink

end Xtd
