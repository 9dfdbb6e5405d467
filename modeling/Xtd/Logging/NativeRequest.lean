import Xtd.Http.Request
import Xtd.Logging.HostHeader
import Xtd.Logging.NativeDelivery

/-!
# The request as its receiver reads it

`build_request_prefix` and `send` put the path of the endpoint, its host, the authorization token and the service
namespace into the head of the request as they are, and nothing has looked for control bytes in them before.
-/

namespace Xtd

open Json (isDigit digits)

/-- The fields that `send` means to write. -/
def requestFields (e : Endpoint) (o : OtelSinkOpts) (n : Nat) : List (List Byte × List Byte) :=
  (ascii "Host", hostHeaderFor e.host e.ipv6 e.port) ::
    (if o.authToken.isEmpty then [] else [(ascii "Authorization", o.authToken)]) ++
    [(ascii "stream-name", o.serviceNamespace), (ascii "Content-Type", ascii "application/json"),
      (ascii "Connection", ascii "close"), (ascii "Content-Length", ascii (toString n))]

def requestHead (e : Endpoint) (o : OtelSinkOpts) (n : Nat) : Http.Head :=
  ⟨ascii "POST", e.path, ascii "HTTP/1.1", requestFields e o n⟩

namespace OtelNativeTransport

variable {o : OtelSinkOpts} {t : OtelNativeTransport} {e : Endpoint} {n : Nat}

theorem request_eq (h : OtelNativeTransport.new o = .ok t) (jsonBody : List Byte) :
    t.request jsonBody = (requestHead t.endpoint o jsonBody.length).write ++ jsonBody := by
  have hprefix : t.requestPrefix = buildRequestPrefix t.endpoint o := by
    simp only [OtelNativeTransport.new] at h
    cases hp : parseEndpoint o.endpoint with
    | error e => rw [hp] at h; cases h
    | ok e => rw [hp] at h; cases h; rfl
  have hcrlf : ascii "\r\n" = [13, 10] := rfl
  have hend : ascii "\r\n\r\n" = [13, 10, 13, 10] := rfl
  have hversion : ascii " HTTP/1.1\r\n" = 32 :: (ascii "HTTP/1.1" ++ [13, 10]) := rfl
  have hpost : ascii "POST " = ascii "POST" ++ [32] := rfl
  have hhost : ascii "Host: " = ascii "Host" ++ [58, 32] := rfl
  have hauth : ascii "Authorization: " = ascii "Authorization" ++ [58, 32] := rfl
  have hstream : ascii "stream-name: " = ascii "stream-name" ++ [58, 32] := rfl
  have htype : ascii "Content-Type: application/json\r\n" =
      ascii "Content-Type" ++ 58 :: 32 :: (ascii "application/json" ++ [13, 10]) := rfl
  have hconnection : ascii "Connection: close\r\n" = ascii "Connection" ++ 58 :: 32 :: (ascii "close" ++ [13, 10]) := rfl
  have hlength : ascii "Content-Length: " = ascii "Content-Length" ++ [58, 32] := rfl
  rw [request, parts, hprefix]
  by_cases ha : o.authToken.isEmpty
  all_goals
    simp only [buildRequestPrefix, contentLength, Http.Head.write, Http.Head.lines, Http.Head.requestLine, requestHead,
      requestFields, ha, hcrlf, hend, hversion, hpost, hhost, hauth, hstream, htype, hconnection, hlength]
    simp [Http.Head.fieldLine]

theorem sound_requestHead (e : Endpoint) (o : OtelSinkOpts) (n : Nat) : (requestHead e o n).Sound where
  method := by
    show Http.isToken (ascii "POST") = true
    decide
  version := rfl
  names := by
    have hnames : ∀ name ∈ [ascii "Host", ascii "Authorization", ascii "stream-name", ascii "Content-Type",
        ascii "Connection", ascii "Content-Length"], Http.isToken name = true := by decide
    intro field hf
    refine hnames field.1 ?_
    simp only [requestHead, requestFields] at hf
    split at hf <;> simp only [List.cons_append, List.nil_append, List.mem_cons, List.not_mem_nil, or_false] at hf ⊢
    · rcases hf with rfl | rfl | rfl | rfl | rfl <;> simp
    · rcases hf with rfl | rfl | rfl | rfl | rfl | rfl <;> simp

private theorem trim_digits {value : List Byte} (h : ∀ b ∈ value, isDigit b = true) : Http.trim value = value := by
  have hstops : ∀ l : List Byte, (∀ b ∈ l, isDigit b = true) → l.dropWhile Http.isBlank = l := by
    intro l hl
    cases l with
    | nil => rfl
    | cons b l =>
      have hb := not_isSpace_of_isDigit (hl b List.mem_cons_self)
      have hblank : Http.isBlank b = false := by
        simp only [isSpace, Http.isBlank, decide_eq_false_iff_not, not_or] at hb ⊢
        refine ⟨hb.1, ?_⟩
        rintro rfl
        exact hb.2 (by decide)
      rw [List.dropWhile_cons, hblank]
      rfl
  rw [Http.trim, hstops value h, hstops value.reverse (fun b hb => h b (List.mem_reverse.1 hb)), List.reverse_reverse]

/-- The names of the fields but `Host` and `Content-Length`, in small letters. -/
private theorem fieldsOf_requestHead (e : Endpoint) (o : OtelSinkOpts) (n : Nat) :
    Http.fieldsOf "transfer-encoding" (requestHead e o n).trimmed.fields = [] ∧
      Http.fieldsOf "host" (requestHead e o n).trimmed.fields =
        [(ascii "Host", Http.trim (hostHeaderFor e.host e.ipv6 e.port))] ∧
      Http.fieldsOf "content-length" (requestHead e o n).trimmed.fields =
        [(ascii "Content-Length", Http.trim (ascii (toString n)))] := by
  have hcoding : ∀ name ∈ [ascii "Host", ascii "Authorization", ascii "stream-name", ascii "Content-Type",
      ascii "Connection", ascii "Content-Length"], name.map Http.lower ≠ ascii "transfer-encoding" := by decide
  have hhost : ∀ name ∈ [ascii "Authorization", ascii "stream-name", ascii "Content-Type", ascii "Connection",
      ascii "Content-Length"], name.map Http.lower ≠ ascii "host" := by decide
  have hhost' : (ascii "Host").map Http.lower = ascii "host" := by decide
  have hlength : ∀ name ∈ [ascii "Host", ascii "Authorization", ascii "stream-name", ascii "Content-Type",
      ascii "Connection"], name.map Http.lower ≠ ascii "content-length" := by decide
  have hlength' : (ascii "Content-Length").map Http.lower = ascii "content-length" := by decide
  have hfields : (requestHead e o n).trimmed.fields =
      (requestFields e o n).map fun field => (field.1, Http.trim field.2) := rfl
  simp only [List.forall_mem_cons, List.not_mem_nil, false_implies, implies_true, and_true] at hcoding hhost hlength
  have hfieldsOf : ∀ name fields, Http.fieldsOf name fields =
      fields.filter fun field => field.1.map Http.lower = ascii name := fun name fields => rfl
  rw [hfields, hfieldsOf, hfieldsOf, hfieldsOf]
  unfold requestFields
  generalize hostHeaderFor e.host e.ipv6 e.port = header
  generalize ascii (toString n) = text
  refine ⟨?_, ?_, ?_⟩
  · by_cases ha : o.authToken.isEmpty <;> simp [ha, hcoding]
  · by_cases ha : o.authToken.isEmpty <;> simp [ha, hhost, hhost']
  · by_cases ha : o.authToken.isEmpty <;> simp [ha, hlength, hlength']

theorem bodyLength_requestHead (e : Endpoint) (o : OtelSinkOpts) (n : Nat) :
    Http.bodyLength (requestHead e o n).trimmed.fields = some n := by
  obtain ⟨hdigits, hne, hvalue⟩ := digits_toString n
  obtain ⟨hcoding, -, hlength⟩ := fieldsOf_requestHead e o n
  have hall : (ascii (toString n)).all isDigit = true := List.all_eq_true.2 hdigits
  rw [trim_digits hdigits] at hlength
  rw [Http.bodyLength, if_neg (not_not_intro hcoding), hlength]
  simp only [hvalue, hall, List.isEmpty_eq_false_iff.2 hne, Bool.not_true, Bool.or_self, Bool.false_eq_true, ↓reduceIte]

private theorem isText_digits {value : List Byte} (h : ∀ b ∈ value, isDigit b = true) :
    ∀ b ∈ value, Http.isText b = true := by
  intro b hb
  have hdigit := h b hb
  refine Http.isText_of_isVisible ?_
  simp only [isDigit, Http.isVisible, decide_eq_true_eq, UInt8.le_iff_toNat_le] at hdigit ⊢
  change 48 ≤ b.toNat ∧ b.toNat ≤ 57 at hdigit
  show 33 ≤ b.toNat ∧ b.toNat ≤ 126
  omega

private theorem isText_port (port : Int) : ∀ b ∈ ascii (toString port), Http.isText b = true := by
  cases port with
  | ofNat n => exact isText_digits (digits_toString n).1
  | negSucc n =>
    have hminus : ascii (toString (Int.negSucc n)) = 45 :: ascii (toString (n + 1)) := by
      unfold ascii
      rw [Int.toString_eq_repr, Int.repr, String.toList_append]
      rfl
    rw [hminus, List.forall_mem_cons]
    exact ⟨rfl, isText_digits (digits_toString (n + 1)).1⟩

/-- The host header consists of text if the host does. -/
theorem isText_hostHeaderFor (host : List Byte) (ipv6 : Bool) (port : Int) :
    (∀ b ∈ hostHeaderFor host ipv6 port, Http.isText b = true) ↔ ∀ b ∈ host, Http.isText b = true := by
  have hport := isText_port port
  have hopen : ∀ b ∈ ascii "[", Http.isText b = true := List.all_eq_true.1 rfl
  have hclose : ∀ b ∈ ascii "]:", Http.isText b = true := List.all_eq_true.1 rfl
  have hcolon : ∀ b ∈ ascii ":", Http.isText b = true := List.all_eq_true.1 rfl
  cases ipv6 with
  | true =>
    simp only [hostHeaderFor, if_true, List.forall_mem_append]
    exact ⟨fun h => h.1.1.2, fun h => ⟨⟨⟨hopen, h⟩, hclose⟩, hport⟩⟩
  | false =>
    simp only [hostHeaderFor, Bool.false_eq_true, if_false, List.forall_mem_append]
    exact ⟨fun h => h.1.1, fun h => ⟨⟨h, hcolon⟩, hport⟩⟩

/-- The path of an endpoint begins with a slash. -/
theorem path_of_parseEndpoint {text : List Byte} {e : Endpoint} (h : parseEndpoint text = .ok e) :
    ∃ rest, e.path = 47 :: rest := by
  rcases parseEndpoint_cases text with ⟨host, ipv6, port, path, hparts⟩ | ⟨what, herror⟩
  · obtain ⟨-, -, he⟩ := (parseEndpoint_eq_ok_iff hparts).1 h
    obtain ⟨-, -, hpath, -⟩ := hparts
    rw [he]
    exact hpath.spec.2
  · rw [herror] at h
    cases h

theorem path_ne_nil (h : OtelNativeTransport.new o = .ok t) : t.endpoint.path ≠ [] := by
  simp only [OtelNativeTransport.new] at h
  cases hp : parseEndpoint o.endpoint with
  | error e => rw [hp] at h; cases h
  | ok e =>
    rw [hp] at h
    cases h
    obtain ⟨rest, hpath⟩ := path_of_parseEndpoint hp
    rw [hpath]
    exact List.cons_ne_nil _ _

/-- The values that are written consist of text if those that come from outside do. -/
private theorem isText_requestFields (e : Endpoint) (o : OtelSinkOpts) (n : Nat) :
    (∀ field ∈ (requestHead e o n).fields, ∀ b ∈ field.2, Http.isText b = true) ↔
      ∀ value ∈ [e.host, o.authToken, o.serviceNamespace], ∀ b ∈ value, Http.isText b = true := by
  have hdigits := isText_digits (digits_toString n).1
  have htype : ∀ b ∈ ascii "application/json", Http.isText b = true := List.all_eq_true.1 rfl
  have hclose : ∀ b ∈ ascii "close", Http.isText b = true := List.all_eq_true.1 rfl
  have hlist : (requestHead e o n).fields = requestFields e o n := rfl
  simp only [List.forall_mem_cons, List.not_mem_nil, false_implies, implies_true, and_true]
  rw [hlist, requestFields, ← isText_hostHeaderFor e.host e.ipv6 e.port]
  by_cases ha : o.authToken.isEmpty
  · have htoken : ∀ b ∈ o.authToken, Http.isText b = true := by
      rw [List.isEmpty_iff.1 ha]
      exact List.forall_mem_nil _
    rw [if_pos ha, List.forall_mem_append]
    simp only [List.forall_mem_cons, List.not_mem_nil, false_implies, implies_true, and_true]
    exact ⟨fun h => ⟨h.1, htoken, h.2.1⟩, fun h => ⟨h.1, h.2.2, htype, hclose, hdigits⟩⟩
  · rw [if_neg ha, List.forall_mem_append]
    simp only [List.forall_mem_cons, List.not_mem_nil, false_implies, implies_true, and_true]
    exact ⟨fun h => ⟨h.1.1, h.1.2, h.2.1⟩, fun h => ⟨⟨h.1, h.2.1⟩, h.2.2, htype, hclose, hdigits⟩⟩

/-- When the request is read back, in terms of its fields. -/
private theorem readRequest_iff_fields (h : OtelNativeTransport.new o = .ok t) (jsonBody : List Byte) :
    Http.readRequest (t.request jsonBody) = some ⟨(requestHead t.endpoint o jsonBody.length).trimmed, jsonBody⟩ ↔
      (∀ b ∈ t.endpoint.path, Http.isVisible b = true) ∧
        ∀ field ∈ (requestHead t.endpoint o jsonBody.length).fields, ∀ b ∈ field.2, Http.isText b = true := by
  obtain ⟨-, hhost, -⟩ := fieldsOf_requestHead t.endpoint o jsonBody.length
  rw [request_eq h, Http.readRequest_write_iff (sound_requestHead t.endpoint o jsonBody.length)
    (congrArg List.length hhost) (bodyLength_requestHead t.endpoint o jsonBody.length)]
  exact and_congr_left fun _ => and_iff_right (path_ne_nil h)

/-- The request of clean parts is read. -/
theorem readRequest_request (h : OtelNativeTransport.new o = .ok t) (jsonBody : List Byte)
    (hpath : ∀ b ∈ t.endpoint.path, Http.isVisible b = true)
    (hvalues : ∀ value ∈ [t.endpoint.host, o.authToken, o.serviceNamespace], ∀ b ∈ value, Http.isText b = true) :
    Http.readRequest (t.request jsonBody) = some ⟨(requestHead t.endpoint o jsonBody.length).trimmed, jsonBody⟩ :=
  (readRequest_iff_fields h jsonBody).2 ⟨hpath, (isText_requestFields _ _ _).2 hvalues⟩

/-- The receiver of a request reads what `send` means to write, the values without the blanks around them, exactly if the
path of the endpoint consists of visible characters and its host, the authorization token and the service namespace have
no control bytes but tabs. -/
theorem native_request_reads_iff (h : OtelNativeTransport.new o = .ok t) (jsonBody : List Byte) :
    Http.readRequest (t.request jsonBody) = some ⟨(requestHead t.endpoint o jsonBody.length).trimmed, jsonBody⟩ ↔
      (∀ b ∈ t.endpoint.path, Http.isVisible b = true) ∧
        ∀ value ∈ [t.endpoint.host, o.authToken, o.serviceNamespace], ∀ b ∈ value, Http.isText b = true := by
  rw [readRequest_iff_fields h, isText_requestFields]

/-- Options with an authorization token. -/
def tokenOpts : OtelSinkOpts where
  endpoint := ascii "http://h:9/v1"
  authToken := ascii "t "
  serviceNamespace := ascii "n"
  serviceName := ascii "s"
  serviceVersion := ascii "1"
  serviceInstanceId := ascii "i"
  environmentName := ascii "e"

theorem native_request_reads_tokenOpts :
    ∃ t, OtelNativeTransport.new tokenOpts = .ok t ∧
      Http.readRequest (t.request [123, 125]) = some ⟨(requestHead t.endpoint tokenOpts 2).trimmed, [123, 125]⟩ := by
  have hnew : OtelNativeTransport.new tokenOpts = .ok ⟨⟨ascii "h", ascii "/v1", false, 9⟩,
      buildRequestPrefix ⟨ascii "h", ascii "/v1", false, 9⟩ tokenOpts⟩ := rfl
  have hpath : ∀ b ∈ ascii "/v1", Http.isVisible b = true := List.all_eq_true.1 rfl
  have hvalues : ∀ value ∈ [ascii "h", ascii "t ", ascii "n"], ∀ b ∈ value, Http.isText b = true := by
    simp only [List.forall_mem_cons, List.not_mem_nil, false_implies, implies_true, and_true]
    exact ⟨List.all_eq_true.1 rfl, List.all_eq_true.1 rfl, List.all_eq_true.1 rfl⟩
  exact ⟨_, hnew, (native_request_reads_iff hnew [123, 125]).2 ⟨hpath, hvalues⟩⟩

end OtelNativeTransport

end Xtd
