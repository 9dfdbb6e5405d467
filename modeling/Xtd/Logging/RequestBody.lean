import Xtd.Logging.OtelSink
import Xtd.Logging.RoundTrip

/-!
# The body of a request as JSON

`request_header` puts the options and the host name between quotes as they are, while the strings of the records are
escaped.  The body is the JSON text of the request exactly if each of the six strings is made of bytes that stand for
themselves in a JSON string.
-/

namespace Xtd

open Json

namespace OtelSink

open OtelSerializer

/-! ### The request -/

/-- The attributes of the resource. -/
def resourceJsons (o : OtelSinkOpts) (hostname : List Byte) : List Value :=
  [keyJson (ascii "service.namespace") (stringJson o.serviceNamespace),
    keyJson (ascii "service.name") (stringJson o.serviceName),
    keyJson (ascii "service.version") (stringJson o.serviceVersion),
    keyJson (ascii "service.instance.id") (stringJson o.serviceInstanceId),
    keyJson (ascii "host.name") (stringJson hostname),
    keyJson (ascii "deployment.environment.name") (stringJson o.environmentName),
    keyJson (ascii "telemetry.sdk.name") (stringJson (ascii "xtd.logging")),
    keyJson (ascii "telemetry.sdk.language") (stringJson (ascii "cpp"))]

/-- The request with the records of a batch. -/
def requestJson (o : OtelSinkOpts) (hostname : List Byte) (batch : List LogMessage) : Value :=
  .object [(ascii "resourceLogs", .array [.object [
    (ascii "resource", .object [(ascii "attributes", .array (resourceJsons o hostname))]),
    (ascii "scopeLogs", .array [.object [
      (ascii "scope", .object [(ascii "name", .string (ascii "xtd.logging")), (ascii "version", .string (ascii "1.0.0"))]),
      (ascii "logRecords", .array (batch.map recordJson))]])]])]

/-- The strings that `request_header` is formatted with. -/
def headerStrings (o : OtelSinkOpts) (hostname : List Byte) : List (List Byte) :=
  [o.serviceNamespace, o.serviceName, o.serviceVersion, o.serviceInstanceId, hostname, o.environmentName]

/-! ### The header in pieces -/

/-- A value of the header and the text up to the next one, which has the given key. -/
private def valueThen (value key rest : List Byte) : List Byte :=
  value ++ (ascii "\"\x7d\x7d,\x7b\"key\":\"" ++ key ++ ascii "\",\"value\":\x7b\"stringValue\":\"" ++ rest)

private def valueTokens (value key : List Byte) (ts : List Token) : List Token :=
  [.string value, .closeObject, .closeObject, .comma, .openObject, .string (ascii "key"), .colon, .string key, .comma,
    .string (ascii "value"), .colon, .openObject, .string (ascii "stringValue"), .colon] ++ ts

/-- A value of the header is read as it is exactly if it is plain, and then the next value is read. -/
private theorem reads_valueThen_iff {value key rest : List Byte} (hkey : ∀ b ∈ key, Plain b) {ts : List Token}
    {m : Mode} :
    Reads (.string []) (valueThen value key rest) (valueTokens value key ts) m ↔
      (∀ b ∈ value, Plain b) ∧ Reads (.string []) rest ts m := by
  have hplain : ∀ b ∈ ascii "\x7d\x7d,\x7b", Plain b := plain_of_all rfl
  have hsplit : valueThen value key rest = value ++ 34 :: (ascii "\x7d\x7d,\x7b" ++
      34 :: (ascii "key\":\"" ++ key ++ ascii "\",\"value\":\x7b\"stringValue\":\"" ++ rest)) := rfl
  obtain ⟨ps, hkey, rfl⟩ := spells_plain hkey
  have h1 : Reads .blank (ascii "\x7d\x7d,\x7b\"key\":\"")
      [.closeObject, .closeObject, .comma, .openObject, .string (ascii "key"), .colon] (.string []) := rfl
  have h2 : Reads (.string ps) (ascii "\",\"value\":\x7b\"stringValue\":\"")
      [.string (content ps), .comma, .string (ascii "value"), .colon, .openObject, .string (ascii "stringValue"), .colon]
      (.string []) := rfl
  rw [hsplit, valueTokens, List.cons_append, reads_string_iff hplain]
  exact and_congr_right fun _ => ((h1.append hkey).append h2).append_iff

/-- The header up to the first value. -/
private def beforeValues : List Byte :=
  ascii "\x7b\"resourceLogs\":[\x7b\"resource\":\x7b\"attributes\":[" ++
    ascii "\x7b\"key\":\"service.namespace\",\"value\":\x7b\"stringValue\":\""

private def beforeTokens : List Token :=
  [.openObject, .string (ascii "resourceLogs"), .colon, .openArray, .openObject, .string (ascii "resource"), .colon,
    .openObject, .string (ascii "attributes"), .colon, .openArray, .openObject, .string (ascii "key"), .colon,
    .string (ascii "service.namespace"), .comma, .string (ascii "value"), .colon, .openObject,
    .string (ascii "stringValue"), .colon]

/-- The header after the six values. -/
private def afterValues : List Byte :=
  ascii "xtd.logging\"\x7d\x7d" ++
    (ascii ",\x7b\"key\":\"telemetry.sdk.language\",\"value\":\x7b\"stringValue\":\"cpp\"\x7d\x7d]\x7d," ++
    ascii "\"scopeLogs\":[\x7b\"scope\":\x7b\"name\":\"xtd.logging\",\"version\":\"1.0.0\"\x7d,\"logRecords\":[")

private def afterTokens : List Token :=
  [.string (ascii "xtd.logging"), .closeObject, .closeObject, .comma, .openObject, .string (ascii "key"), .colon,
    .string (ascii "telemetry.sdk.language"), .comma, .string (ascii "value"), .colon, .openObject,
    .string (ascii "stringValue"), .colon, .string (ascii "cpp"), .closeObject, .closeObject, .closeArray, .closeObject,
    .comma, .string (ascii "scopeLogs"), .colon, .openArray, .openObject, .string (ascii "scope"), .colon, .openObject,
    .string (ascii "name"), .colon, .string (ascii "xtd.logging"), .comma, .string (ascii "version"), .colon,
    .string (ascii "1.0.0"), .closeObject, .comma, .string (ascii "logRecords"), .colon, .openArray]

private theorem reads_beforeValues : Reads .blank beforeValues beforeTokens (.string []) := by decide +kernel

private theorem reads_afterValues : Reads (.string []) afterValues afterTokens .blank := by decide +kernel

/-- The records and the end of the body. -/
private def recordsText (batch : List LogMessage) : List Byte :=
  (ascii ",").intercalate (batch.map serializeRecord) ++ requestFooter

private def recordsTokens (batch : List LogMessage) : List Token :=
  elementTokens (batch.map recordJson) ++
    [.closeArray, .closeObject, .closeArray, .closeObject, .closeArray, .closeObject]

private theorem reads_records (batch : List LogMessage) :
    Reads .blank (recordsText batch) (recordsTokens batch) .blank := by
  have hfooter : Reads .blank requestFooter
      [.closeArray, .closeObject, .closeArray, .closeObject, .closeArray, .closeObject] .blank := by decide +kernel
  have hrecords : List.Forall₂ Writes (batch.map serializeRecord) (batch.map recordJson) := by
    rw [List.forall₂_map_left_iff, List.forall₂_map_right_iff, List.forall₂_same]
    exact fun message _ => writes_record message
  exact (reads_elements hrecords).append hfooter

private theorem ascii_append (s t : String) : ascii (s ++ t) = ascii s ++ ascii t := by
  simp [ascii]

private theorem ascii_between (key after : String) :
    ascii ("\"\x7d\x7d,\x7b\"key\":\"" ++ key ++ "\",\"value\":\x7b\"stringValue\":\"" ++ after) =
      ascii "\"\x7d\x7d,\x7b\"key\":\"" ++ ascii key ++ ascii "\",\"value\":\x7b\"stringValue\":\"" ++
        ascii after := by
  rw [ascii_append, ascii_append, ascii_append]

private theorem requestBody_eq (o : OtelSinkOpts) (hostname : List Byte) (batch : List LogMessage) :
    requestBody o hostname batch = beforeValues ++
      valueThen o.serviceNamespace (ascii "service.name")
        (valueThen o.serviceName (ascii "service.version")
        (valueThen o.serviceVersion (ascii "service.instance.id")
        (valueThen o.serviceInstanceId (ascii "host.name")
        (valueThen hostname (ascii "deployment.environment.name")
        (valueThen o.environmentName (ascii "telemetry.sdk.name") (afterValues ++ recordsText batch)))))) := by
  have hname := ascii_between "service.name" ""
  have hversion := ascii_between "service.version" ""
  have hinstance := ascii_between "service.instance.id" ""
  have hhost := ascii_between "host.name" ""
  have henvironment := ascii_between "deployment.environment.name" ""
  have hsdk := ascii_between "telemetry.sdk.name" "xtd.logging\"\x7d\x7d"
  have hempty : ascii "" = [] := rfl
  simp only [String.reduceAppend, hempty, List.append_nil] at hname hversion hinstance hhost henvironment hsdk
  rw [requestBody, openBody, requestHeader, hname, hversion, hinstance, hhost, henvironment, hsdk]
  simp only [beforeValues, valueThen, afterValues, recordsText, List.append_assoc]

private theorem tokens_requestJson (o : OtelSinkOpts) (hostname : List Byte) (batch : List LogMessage) :
    tokens (requestJson o hostname batch) = beforeTokens ++
      valueTokens o.serviceNamespace (ascii "service.name")
        (valueTokens o.serviceName (ascii "service.version")
        (valueTokens o.serviceVersion (ascii "service.instance.id")
        (valueTokens o.serviceInstanceId (ascii "host.name")
        (valueTokens hostname (ascii "deployment.environment.name")
        (valueTokens o.environmentName (ascii "telemetry.sdk.name") (afterTokens ++ recordsTokens batch)))))) := by
  simp [requestJson, resourceJsons, keyJson, stringJson, tokens, elementTokens, memberTokens, beforeTokens, valueTokens,
    afterTokens, recordsTokens]

theorem writes_requestBody_iff (o : OtelSinkOpts) (hostname : List Byte) (batch : List LogMessage) :
    Writes (requestBody o hostname batch) (requestJson o hostname batch) ↔
      ∀ value ∈ headerStrings o hostname, ∀ b ∈ value, Plain b := by
  have hend : Reads (.string []) (afterValues ++ recordsText batch) (afterTokens ++ recordsTokens batch) .blank :=
    reads_afterValues.append (reads_records batch)
  rw [Writes, requestBody_eq, tokens_requestJson, reads_beforeValues.append_iff, reads_valueThen_iff (plain_of_all rfl),
    reads_valueThen_iff (plain_of_all rfl), reads_valueThen_iff (plain_of_all rfl), reads_valueThen_iff (plain_of_all rfl),
    reads_valueThen_iff (plain_of_all rfl), reads_valueThen_iff (plain_of_all rfl)]
  simp [headerStrings, hend]

theorem decode_requestBody_iff_writes (o : OtelSinkOpts) (hostname : List Byte) (batch : List LogMessage) :
    decode (requestBody o hostname batch) = some (requestJson o hostname batch) ↔
      Writes (requestBody o hostname batch) (requestJson o hostname batch) := by
  have hend : requestBody o hostname batch = openBody o hostname batch ++ ascii "]\x7d]\x7d]" ++ [125] := by
    rw [requestBody, List.append_assoc]
    rfl
  rw [hend]
  exact decode_eq_some_iff_writes

end OtelSink

/-- The body of a request, as the worker assembles it for a batch, is a JSON text that decodes to the request with the
options and the host name as its resource attributes and the records of the batch, exactly if none of the strings of its
header has a quote, a backslash or a control character. -/
theorem request_body_decodes_iff (o : OtelSinkOpts) (hostname : List Byte) (batch : List LogMessage) :
    Json.decode (OtelSink.requestBody o hostname batch) = some (OtelSink.requestJson o hostname batch) ↔
      ∀ value ∈ OtelSink.headerStrings o hostname, ∀ b ∈ value, b ≠ 34 ∧ b ≠ 92 ∧ ¬ b < 32 := by
  rw [OtelSink.decode_requestBody_iff_writes]
  exact OtelSink.writes_requestBody_iff o hostname batch

/-- Options with a quote in the name of the service. -/
def quotedOpts : OtelSinkOpts where
  endpoint := ascii "http://localhost"
  serviceNamespace := ascii "n"
  serviceName := ascii "a\"b"
  serviceVersion := ascii "1"
  serviceInstanceId := ascii "i"
  environmentName := ascii "e"

/-- The options are accepted, but a request with them is no JSON text. -/
theorem request_body_malformed_quotedOpts :
    quotedOpts.validate = .ok () ∧ [OtelSink.warningAt 1] ≠ [] ∧
      Json.decode (OtelSink.requestBody quotedOpts (ascii "h") [OtelSink.warningAt 1]) = none := by
  refine ⟨quotedOpts.validate_eq_ok_iff.2 (by decide), List.cons_ne_nil _ _, ?_⟩
  have hlex : lex (OtelSink.requestBody quotedOpts (ascii "h") [OtelSink.warningAt 1]) = none := by decide +kernel
  rw [decode, hlex]
  rfl

end Xtd
