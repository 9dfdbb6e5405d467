import Xtd.Logging.NativeRequest
import Xtd.Logging.RequestBody

/-!
# From the sink to the collector

The sink with its native transport, seen from the other side: what a collector decodes that reads the requests of the
worker, one connection each.
-/

namespace Xtd

open Concurrency

namespace OtelSink

/-- What the collector makes of the bytes of a connection. -/
def collect (text : List Byte) : Option Json.Value := do
  let request ← Http.readRequest text
  Json.decode request.body

/-- The options and the host name stand for themselves in a JSON string, the path consists of visible characters, and what
goes into the fields of the request has no control byte but tabs. -/
structure Clean (o : OtelSinkOpts) (hostname : List Byte) (e : Endpoint) : Prop where
  strings : ∀ value ∈ headerStrings o hostname, ∀ b ∈ value, Json.Plain b
  path : ∀ b ∈ e.path, Http.isVisible b = true
  values : ∀ value ∈ [e.host, o.authToken, o.serviceNamespace], ∀ b ∈ value, Http.isText b = true

variable {o : OtelSinkOpts} {hostname : List Byte} {t : OtelNativeTransport}

/-- The collector decodes the request of a batch. -/
theorem collect_requestBody (ht : OtelNativeTransport.new o = .ok t) (hc : Clean o hostname t.endpoint)
    (batch : List LogMessage) :
    collect (t.request (requestBody o hostname batch)) = some (requestJson o hostname batch) := by
  have hread := OtelNativeTransport.readRequest_request ht (requestBody o hostname batch) hc.path hc.values
  have hdecode := (decode_requestBody_iff_writes o hostname batch).2
    ((writes_requestBody_iff o hostname batch).2 hc.strings)
  simp [collect, hread, hdecode]

variable {τ : Type} [DecidableEq τ] [Fintype τ] {w : τ} {tr : List (ChannelEvent LogMessage)}
  {x : Worker × ChannelState τ LogMessage}

/-- From `write` to the collector.  In every run of the sink, and for every run of `send` for each of its bodies, whatever
the system answers: the bytes of a connection on which `send` came to await an answer decode to the request of the batch
with that number; the batches are a beginning of the messages accepted into the channel, and all of them when the worker
has ended. -/
theorem collector_decodes (ho : 0 < o.batchSize) (ht : OtelNativeTransport.new o = .ok t)
    (hc : Clean o hostname t.endpoint)
    (h : ((processMessages o hostname).machine (channel LogMessage 0) w).Exec (SinkRun o hostname w)
      (.new, State.init .new) tr x) :
    ∃ batches : List (List LogMessage),
      List.Forall₂ (fun body batch => ∀ o₀ tr' g o',
        ((t.send body).against Posix.os).Exec Machine.Any (.resolving, o₀) tr' (g, o') →
        (∃ e ∈ tr', OtelNativeTransport.IsRecv e.1) →
        collect (Posix.output tr') = some (requestJson o hostname batch)) x.1.sent batches ∧
      batches.flatten <+: insertedValues tr ∧
      (x.1.stage = .finished → batches.flatten = insertedValues tr) := by
  obtain ⟨batches, hsent, hprefix, hall⟩ := sent_of_exec ho h
  refine ⟨batches, ?_, hprefix, hall⟩
  rw [hsent.bodies, List.forall₂_map_left_iff, List.forall₂_same]
  intro batch _ o₀ tr' g o' hsend hrecv
  rw [OtelNativeTransport.output_of_answered hsend hrecv]
  exact collect_requestBody ht hc batch

/-- The transport of the options with batches of two messages. -/
def pairTransport : OtelNativeTransport :=
  ⟨⟨[120], ascii "/", false, 80⟩, buildRequestPrefix ⟨[120], ascii "/", false, 80⟩ pairOpts⟩

theorem collector_decodes_writeThree :
    ∃ tr, ∃ x : Worker × ChannelState (Fin 2) LogMessage,
      ((processMessages pairOpts []).machine (channel LogMessage 0) 0).Exec (SinkRun pairOpts [] 0)
        (.new, State.init .new) tr x ∧
      (insertedValues tr).map LogMessage.timestamp = [1, 2, 3] ∧
      ∃ batches : List (List LogMessage),
        List.Forall₂ (fun body batch => ∀ o₀ tr' g o',
          ((pairTransport.send body).against Posix.os).Exec Machine.Any (.resolving, o₀) tr' (g, o') →
          (∃ e ∈ tr', OtelNativeTransport.IsRecv e.1) →
          collect (Posix.output tr') = some (requestJson pairOpts [] batch)) x.1.sent batches ∧
        batches.flatten = insertedValues tr := by
  obtain ⟨tr, x, h, hvalues, hf⟩ := exec_writeThree
  have hclean : Clean pairOpts [] pairTransport.endpoint := by
    have hplain : ((headerStrings pairOpts []).all fun value => value.all fun b => decide (Json.Plain b)) = true := rfl
    have hpath : pairTransport.endpoint.path.all Http.isVisible = true := rfl
    have hvalues : ([pairTransport.endpoint.host, pairOpts.authToken, pairOpts.serviceNamespace].all fun value =>
      value.all Http.isText) = true := rfl
    exact ⟨fun value hv => Json.plain_of_all (List.all_eq_true.1 hplain value hv), List.all_eq_true.1 hpath,
      fun value hv => List.all_eq_true.1 (List.all_eq_true.1 hvalues value hv)⟩
  obtain ⟨batches, hdecoded, -, hall⟩ := collector_decodes (by decide) (t := pairTransport) rfl hclean h
  exact ⟨tr, x, h, hvalues, batches, hdecoded, hall hf⟩

end OtelSink

end Xtd
