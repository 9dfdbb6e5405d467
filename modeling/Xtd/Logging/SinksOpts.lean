import Xtd.Logging.Serializer

/-!
# Options of the OTEL sink

`otel_sink_opts` and its validation (`sinks_opts.h`).  A string is accepted if one of its bytes is not white space;
nothing else is asked of its bytes.
-/

namespace Xtd

/-- `otel_sink_opts` without `use_local_time`, which neither the validation nor the worker reads. -/
structure OtelSinkOpts where
  minLogLevel : LogLevel := .information
  endpoint : List Byte
  authToken : List Byte := []
  serviceNamespace : List Byte
  serviceName : List Byte
  serviceVersion : List Byte
  serviceInstanceId : List Byte
  environmentName : List Byte
  batchSize : Nat := 100

/-- `std::isspace` in the classic locale. -/
def isSpace (ch : Byte) : Bool := decide (ch = 32 ∨ 9 ≤ ch ∧ ch ≤ 13)

def hasNonWhitespace (value : List Byte) : Bool := value.any fun ch => !isSpace ch

def validateRequiredString (name : String) (value : List Byte) : Except Exn Unit :=
  if value.isEmpty then .error (.invalidArgument (name ++ " cannot be empty"))
  else if hasNonWhitespace value then .ok ()
  else .error (.invalidArgument (name ++ " cannot be empty or whitespace"))

def validateOptionalNonWhitespaceString (name : String) (value : List Byte) : Except Exn Unit :=
  if value.isEmpty then .ok ()
  else if hasNonWhitespace value then .ok ()
  else .error (.invalidArgument (name ++ " cannot be empty or whitespace"))

def OtelSinkOpts.validate (o : OtelSinkOpts) : Except Exn Unit := do
  validateRequiredString "endpoint" o.endpoint
  validateRequiredString "service_namespace" o.serviceNamespace
  validateRequiredString "service_name" o.serviceName
  validateRequiredString "service_version" o.serviceVersion
  validateRequiredString "service_instance_id" o.serviceInstanceId
  validateRequiredString "environment_name" o.environmentName
  validateOptionalNonWhitespaceString "auth_token" o.authToken
  if o.batchSize = 0 then .error (.invalidArgument "batch_size must be greater than zero")
  else .ok ()

theorem validateRequiredString_eq_ok_iff {name : String} {value : List Byte} :
    validateRequiredString name value = .ok () ↔ hasNonWhitespace value = true := by
  unfold validateRequiredString
  cases value with
  | nil => simp [hasNonWhitespace]
  | cons ch value => simp

theorem validateOptionalNonWhitespaceString_eq_ok_iff {name : String} {value : List Byte} :
    validateOptionalNonWhitespaceString name value = .ok () ↔ value = [] ∨ hasNonWhitespace value = true := by
  unfold validateOptionalNonWhitespaceString
  cases value with
  | nil => simp
  | cons ch value => simp

private theorem bind_eq_ok_iff {x y : Except Exn Unit} : (x >>= fun _ => y) = .ok () ↔ x = .ok () ∧ y = .ok () := by
  cases x with
  | error e => simp [bind, Except.bind]
  | ok u => simp [bind, Except.bind]

/-- What `validate` accepts. -/
theorem OtelSinkOpts.validate_eq_ok_iff (o : OtelSinkOpts) : o.validate = .ok () ↔
    (∀ value ∈ [o.endpoint, o.serviceNamespace, o.serviceName, o.serviceVersion, o.serviceInstanceId,
      o.environmentName], hasNonWhitespace value = true) ∧
    (o.authToken = [] ∨ hasNonWhitespace o.authToken = true) ∧ 0 < o.batchSize := by
  unfold validate
  simp only [bind_eq_ok_iff, validateRequiredString_eq_ok_iff, validateOptionalNonWhitespaceString_eq_ok_iff,
    List.forall_mem_cons, List.not_mem_nil, false_implies, implies_true, and_true, and_assoc]
  have hbatch : (if o.batchSize = 0 then .error (.invalidArgument "batch_size must be greater than zero")
      else .ok () : Except Exn Unit) = .ok () ↔ 0 < o.batchSize := by
    split_ifs with h
    · simp [h]
    · simpa using Nat.pos_of_ne_zero h
  rw [hbatch]

end Xtd
