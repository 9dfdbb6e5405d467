import Xtd.Pipeline.Segment

/-!
# Log records

Log messages (`log_message.h`) and their record in an OTLP request (`otel_serializer.h`).  Strings are their bytes.
-/

namespace Xtd

/-- `log_level`, in the order of its values. -/
inductive LogLevel
  | trace
  | debug
  | information
  | warning
  | error
  | critical
  deriving DecidableEq

def LogLevel.toNat : LogLevel → Nat
  | trace => 0
  | debug => 1
  | information => 2
  | warning => 3
  | error => 4
  | critical => 5

/-- `operator<` of the enumeration. -/
def LogLevel.lt (l l' : LogLevel) : Bool := decide (l.toNat < l'.toNat)

structure ExceptionInfo where
  type : List Byte
  message : List Byte

/-- A `log_message` as the serializer reads it, with its message and arguments formatted. -/
structure LogMessage where
  level : LogLevel
  timestamp : Int
  format : List Byte
  formattedMessage : List Byte
  formattedArgs : List (List Byte)
  fileName : List Byte
  line : Nat
  functionName : List Byte
  exception : Option ExceptionInfo

/-- The bytes of an ASCII literal. -/
def ascii (s : String) : List Byte := s.toList.map fun c => c.toNat.toUInt8

namespace OtelSerializer

def severityTexts : LogLevel → List Byte
  | .trace => ascii "TRACE"
  | .debug => ascii "DEBUG"
  | .information => ascii "INFO"
  | .warning => ascii "WARN"
  | .error => ascii "ERROR"
  | .critical => ascii "FATAL"

/-- A digit of `{:04x}`. -/
def hexDigit (n : Nat) : Byte := if n < 10 then (48 + n).toUInt8 else (87 + n).toUInt8

/-- One turn of the loop of `escape_json`. -/
def escapeByte (c : Byte) : List Byte :=
  if c = 34 then ascii "\\\""
  else if c = 92 then ascii "\\\\"
  else if c = 8 then ascii "\\b"
  else if c = 12 then ascii "\\f"
  else if c = 10 then ascii "\\n"
  else if c = 13 then ascii "\\r"
  else if c = 9 then ascii "\\t"
  else if c < 32 then ascii "\\u00" ++ [hexDigit (c.toNat / 16), hexDigit (c.toNat % 16)]
  else [c]

def escapeJson (value : List Byte) : List Byte := value.flatMap escapeByte

/-- `{"stringValue":"…"}`. -/
def stringValue (value : List Byte) : List Byte := ascii "\x7b\"stringValue\":\"" ++ value ++ ascii "\"\x7d"

/-- `{"key":"…","value":…}`. -/
def keyValue (key value : List Byte) : List Byte :=
  ascii "\x7b\"key\":\"" ++ key ++ ascii "\",\"value\":" ++ value ++ ascii "\x7d"

/-- A turn of the loop over the arguments, with `values` and `i`. -/
def appendArg (x : List Byte × Nat) (arg : List Byte) : List Byte × Nat :=
  ((if x.2 ≠ 0 then x.1 ++ ascii "," else x.1) ++
    keyValue (ascii "arg" ++ ascii (toString x.2)) (stringValue (escapeJson arg)), x.2 + 1)

/-- The values of the attribute `log.args`. -/
def argValues (args : List (List Byte)) : List Byte := (args.foldl appendArg ([], 0)).1

/-- The lambda `attribute`, with `json` and `first`. -/
def appendAttribute (x : List Byte × Bool) (a : List Byte × List Byte) : List Byte × Bool :=
  ((if !x.2 then x.1 ++ ascii "," else x.1) ++ keyValue a.1 a.2, false)

/-- The keys and values for which `attribute` is called, in order. -/
def attributes (message : LogMessage) : List (List Byte × List Byte) :=
  [(ascii "log.format", stringValue (escapeJson message.format))] ++
    (if message.formattedArgs.isEmpty then []
      else [(ascii "log.args",
        ascii "\x7b\"kvlistValue\":\x7b\"values\":[" ++ argValues message.formattedArgs ++ ascii "]\x7d\x7d")]) ++
    [(ascii "code.file.path", stringValue (escapeJson message.fileName ++ ascii ":" ++ ascii (toString message.line))),
      (ascii "code.function.name", stringValue (escapeJson message.functionName))] ++
    match message.exception with
    | none => []
    | some ex =>
      [(ascii "exception.type", stringValue (escapeJson ex.type)),
        (ascii "exception.message", stringValue (escapeJson ex.message))]

def serializeRecord (message : LogMessage) : List Byte :=
  let json := ascii "\x7b\"timeUnixNano\":\"" ++ ascii (toString message.timestamp) ++
    ascii "\",\"severityNumber\":" ++ ascii (toString (1 + message.level.toNat * 4)) ++
    ascii ",\"severityText\":\"" ++ severityTexts message.level ++
    ascii "\",\"body\":" ++ stringValue (escapeJson message.formattedMessage) ++
    ascii ",\"attributes\":["
  ((attributes message).foldl appendAttribute (json, true)).1 ++ ascii "]\x7d"

/-! ### Commas -/

private theorem intercalate_cons (sep x : List Byte) (l : List (List Byte)) :
    sep.intercalate (x :: l) = x ++ l.flatMap fun y => sep ++ y := by
  induction l generalizing x with
  | nil => simp
  | cons y l ih => rw [List.intercalate_cons_cons, ih, List.flatMap_cons, List.append_assoc, List.append_assoc]

private theorem foldl_appendAttribute_false (l : List (List Byte × List Byte)) (json : List Byte) :
    (l.foldl appendAttribute (json, false)).1 = json ++ l.flatMap fun a => ascii "," ++ keyValue a.1 a.2 := by
  induction l generalizing json with
  | nil => simp
  | cons a l ih =>
    have hstep : appendAttribute (json, false) a = (json ++ ascii "," ++ keyValue a.1 a.2, false) := rfl
    rw [List.foldl_cons, hstep, ih, List.flatMap_cons, List.append_assoc, List.append_assoc, List.append_assoc]

/-- The calls of `attribute` append the attributes with commas between them. -/
theorem foldl_appendAttribute (l : List (List Byte × List Byte)) (json : List Byte) :
    (l.foldl appendAttribute (json, true)).1 = json ++ (ascii ",").intercalate (l.map fun a => keyValue a.1 a.2) := by
  cases l with
  | nil => simp
  | cons a l =>
    have hstep : appendAttribute (json, true) a = (json ++ keyValue a.1 a.2, false) := rfl
    rw [List.foldl_cons, hstep, foldl_appendAttribute_false, List.map_cons, intercalate_cons, List.flatMap_map,
      List.append_assoc]

private theorem foldl_appendArg_succ (args : List (List Byte)) (values : List Byte) (i : Nat) :
    (args.foldl appendArg (values, i + 1)).1 = values ++ (args.mapIdx fun j arg =>
      keyValue (ascii "arg" ++ ascii (toString (j + (i + 1)))) (stringValue (escapeJson arg))).flatMap
        fun y => ascii "," ++ y := by
  induction args generalizing values i with
  | nil => simp
  | cons arg args ih =>
    have hstep : appendArg (values, i + 1) arg = (values ++ ascii "," ++
      keyValue (ascii "arg" ++ ascii (toString (i + 1))) (stringValue (escapeJson arg)), i + 1 + 1) := rfl
    have hnext : ∀ j, j + 1 + (i + 1) = j + (i + 1 + 1) := by omega
    rw [List.foldl_cons, hstep, ih, List.mapIdx_cons, List.flatMap_cons]
    simp only [hnext, Nat.zero_add, List.append_assoc]

/-- The loop over the arguments appends their values with commas between them. -/
theorem argValues_eq (args : List (List Byte)) :
    argValues args = (ascii ",").intercalate
      (args.mapIdx fun i arg => keyValue (ascii "arg" ++ ascii (toString i)) (stringValue (escapeJson arg))) := by
  cases args with
  | nil => rfl
  | cons arg args =>
    have hstep : appendArg ([], 0) arg =
      (keyValue (ascii "arg" ++ ascii (toString 0)) (stringValue (escapeJson arg)), 0 + 1) := rfl
    rw [argValues, List.foldl_cons, hstep, foldl_appendArg_succ, List.mapIdx_cons, intercalate_cons]

end OtelSerializer

end Xtd
