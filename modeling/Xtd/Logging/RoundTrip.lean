import Xtd.Logging.Decimal
import Xtd.Logging.EscapeJson

/-!
# Log records as JSON

What a JSON decoder makes of the text of `serialize_record`.  Every string of a log message is escaped byte by byte, so
that the lexer reads it back; the rest of the text is the same for every message up to the number of attributes.
-/

namespace Xtd

open Json

namespace OtelSerializer

/-! ### Attributes -/

/-- `{"stringValue":…}`. -/
def stringJson (value : List Byte) : Value := .object [(ascii "stringValue", .string value)]

/-- `{"key":…,"value":…}`. -/
def keyJson (key : List Byte) (value : Value) : Value :=
  .object [(ascii "key", .string key), (ascii "value", value)]

theorem writes_stringValue {xs value : List Byte} (h : Spells xs value) :
    Writes (stringValue xs) (stringJson value) := by
  obtain ⟨ps, hxs, rfl⟩ := h
  have h1 : Reads .blank (ascii "\x7b\"stringValue\":\"")
      [.openObject, .string (ascii "stringValue"), .colon] (.string []) := rfl
  have h2 : Reads (.string ps) (ascii "\"\x7d") [.string (content ps), .closeObject] .blank := rfl
  exact (h1.append hxs).append h2

theorem writes_keyValue {xs ys key : List Byte} {value : Value} (hkey : Spells xs key) (hvalue : Writes ys value) :
    Writes (keyValue xs ys) (keyJson key value) := by
  obtain ⟨ps, hxs, rfl⟩ := hkey
  have h1 : Reads .blank (ascii "\x7b\"key\":\"") [.openObject, .string (ascii "key"), .colon] (.string []) := rfl
  have h2 : Reads (.string ps) (ascii "\",\"value\":")
      [.string (content ps), .comma, .string (ascii "value"), .colon] .blank := rfl
  have h3 : Reads .blank (ascii "\x7d") [.closeObject] .blank := rfl
  exact (((h1.append hxs).append h2).append hvalue).append h3

/-- The values of the attribute `log.args`: the arguments under `arg0`, `arg1` and so on. -/
def argJsons (args : List (List Byte)) : List Value :=
  args.mapIdx fun i arg => keyJson (ascii "arg" ++ ascii (toString i)) (stringJson arg)

/-- The attributes of a record. -/
def attributeJsons (message : LogMessage) : List Value :=
  [keyJson (ascii "log.format") (stringJson message.format)] ++
    (if message.formattedArgs.isEmpty then []
      else [keyJson (ascii "log.args")
        (.object [(ascii "kvlistValue", .object [(ascii "values", .array (argJsons message.formattedArgs))])])]) ++
    [keyJson (ascii "code.file.path") (stringJson (message.fileName ++ ascii ":" ++ ascii (toString message.line))),
      keyJson (ascii "code.function.name") (stringJson message.functionName)] ++
    match message.exception with
    | none => []
    | some ex =>
      [keyJson (ascii "exception.type") (stringJson ex.type),
        keyJson (ascii "exception.message") (stringJson ex.message)]

/-- The record of a log message. -/
def recordJson (message : LogMessage) : Value :=
  .object [
    (ascii "timeUnixNano", .string (ascii (toString message.timestamp))),
    (ascii "severityNumber", .number (1 + 4 * message.level.toNat) 0),
    (ascii "severityText", .string (severityTexts message.level)),
    (ascii "body", stringJson message.formattedMessage),
    (ascii "attributes", .array (attributeJsons message))]

private theorem writes_arg (i : Nat) (arg : List Byte) :
    Writes (keyValue (ascii "arg" ++ ascii (toString i)) (stringValue (escapeJson arg)))
      (keyJson (ascii "arg" ++ ascii (toString i)) (stringJson arg)) := by
  have hkey : ∀ b ∈ ascii "arg" ++ ascii (toString i), Plain b :=
    List.forall_mem_append.2 ⟨plain_of_all rfl, plain_nat i⟩
  exact writes_keyValue (spells_plain hkey) (writes_stringValue (spells_escapeJson arg))

theorem reads_argValues (args : List (List Byte)) :
    Reads .blank (argValues args) (elementTokens (argJsons args)) .blank := by
  rw [argValues_eq]
  refine reads_elements ?_
  unfold argJsons
  rw [List.mapIdx_eq_zipIdx_map, List.mapIdx_eq_zipIdx_map, List.forall₂_map_left_iff, List.forall₂_map_right_iff,
    List.forall₂_same]
  exact fun x _ => writes_arg x.2 x.1

/-- The attribute `log.args`. -/
theorem writes_args (args : List (List Byte)) :
    Writes (keyValue (ascii "log.args")
        (ascii "\x7b\"kvlistValue\":\x7b\"values\":[" ++ argValues args ++ ascii "]\x7d\x7d"))
      (keyJson (ascii "log.args")
        (.object [(ascii "kvlistValue", .object [(ascii "values", .array (argJsons args))])])) := by
  refine writes_keyValue (spells_plain (plain_of_all rfl)) ?_
  have h1 : Reads .blank (ascii "\x7b\"kvlistValue\":\x7b\"values\":[")
      [.openObject, .string (ascii "kvlistValue"), .colon, .openObject, .string (ascii "values"), .colon, .openArray]
      .blank := rfl
  have h2 : Reads .blank (ascii "]\x7d\x7d") [.closeArray, .closeObject, .closeObject] .blank := rfl
  have h := (h1.append (reads_argValues args)).append h2
  simpa [Writes, tokens, memberTokens] using h

/-- An attribute with an escaped string. -/
theorem writes_attribute {key : List Byte} (hkey : ∀ b ∈ key, Plain b) (value : List Byte) :
    Writes (keyValue key (stringValue (escapeJson value))) (keyJson key (stringJson value)) :=
  writes_keyValue (spells_plain hkey) (writes_stringValue (spells_escapeJson value))

theorem writes_attributes (message : LogMessage) :
    List.Forall₂ Writes ((attributes message).map fun a => keyValue a.1 a.2) (attributeJsons message) := by
  unfold attributes attributeJsons
  rw [List.map_append, List.map_append, List.map_append]
  refine List.rel_append (List.rel_append (List.rel_append ?_ ?_) ?_) ?_
  · exact .cons (writes_attribute (plain_of_all rfl) _) .nil
  · split
    · exact .nil
    · exact .cons (writes_args _) .nil
  · refine .cons ?_ (.cons (writes_attribute (plain_of_all rfl) _) .nil)
    refine writes_keyValue (spells_plain (plain_of_all rfl)) (writes_stringValue ?_)
    rw [List.append_assoc, List.append_assoc]
    exact spells_escapeJson_append _ (List.forall_mem_append.2 ⟨plain_of_all rfl, plain_nat _⟩)
  · cases message.exception with
    | none => exact .nil
    | some ex => exact .cons (writes_attribute (plain_of_all rfl) _) (.cons (writes_attribute (plain_of_all rfl) _) .nil)

/-! ### Records -/

private theorem reads_severity (level : LogLevel) : ∃ text,
    Reads .blank (ascii (toString (1 + level.toNat * 4))) [] (.number text) ∧
    Reads (.number text) (ascii ",\"severityText\":\"")
      [.number (1 + 4 * level.toNat) 0, .comma, .string (ascii "severityText"), .colon] (.string []) := by
  cases level <;> exact ⟨_, rfl, rfl⟩

private theorem plain_severityText (level : LogLevel) : ∀ b ∈ severityTexts level, Plain b := by
  cases level <;> exact plain_of_all rfl

theorem writes_record (message : LogMessage) : Writes (serializeRecord message) (recordJson message) := by
  obtain ⟨ps, htime, hps⟩ := spells_plain (plain_int message.timestamp)
  obtain ⟨text, hnumber, hdelimiter⟩ := reads_severity message.level
  obtain ⟨ps', htext, hps'⟩ := spells_plain (plain_severityText message.level)
  have hbody := writes_stringValue (spells_escapeJson message.formattedMessage)
  have hattributes := reads_elements (writes_attributes message)
  have h1 : Reads .blank (ascii "\x7b\"timeUnixNano\":\"")
      [.openObject, .string (ascii "timeUnixNano"), .colon] (.string []) := rfl
  have h2 : Reads (.string ps) (ascii "\",\"severityNumber\":")
      [.string (content ps), .comma, .string (ascii "severityNumber"), .colon] .blank := rfl
  have h3 : Reads (.string ps') (ascii "\",\"body\":")
      [.string (content ps'), .comma, .string (ascii "body"), .colon] .blank := rfl
  have h4 : Reads .blank (ascii ",\"attributes\":[") [.comma, .string (ascii "attributes"), .colon, .openArray]
      .blank := rfl
  have h5 : Reads .blank (ascii "]\x7d") [.closeArray, .closeObject] .blank := rfl
  have h := (((((((((h1.append htime).append h2).append hnumber).append hdelimiter).append htext).append h3).append
    hbody).append h4).append hattributes).append h5
  rw [hps, hps'] at h
  simpa [Writes, recordJson, serializeRecord, foldl_appendAttribute, tokens, memberTokens, show ascii "," = [44] from rfl] using h

end OtelSerializer

/-- `serialize_record` round-trips through JSON: for every log message its text is that of one JSON object, which a
decoder maps to the record of the message. -/
theorem serializeRecord_round_trips (message : LogMessage) :
    Json.decode (OtelSerializer.serializeRecord message) = some (OtelSerializer.recordJson message) :=
  decode_of_writes (OtelSerializer.writes_record message)

end Xtd
