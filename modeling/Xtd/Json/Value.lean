import Mathlib

/-!
# JSON values and their tokens

The values of a JSON text over bytes (RFC 8259) and the tokens they are written with.  An object keeps its members in
the order of the text, and a number is `mantissa * 10 ^ exponent` as it is written.  `parse` reads the tokens of one
value; it accepts exactly the tokens of the value it returns.
-/

namespace Json

inductive Value
  | null
  | bool (b : Bool)
  | number (mantissa exponent : Int)
  | string (content : List UInt8)
  | array (elements : List Value)
  | object (members : List (List UInt8 × Value))

inductive Token
  | null
  | bool (b : Bool)
  | number (mantissa exponent : Int)
  | string (content : List UInt8)
  | openArray
  | closeArray
  | openObject
  | closeObject
  | comma
  | colon
  deriving DecidableEq

mutual

/-- The tokens of a value. -/
def tokens : Value → List Token
  | .null => [.null]
  | .bool b => [.bool b]
  | .number mantissa exponent => [.number mantissa exponent]
  | .string content => [.string content]
  | .array elements => .openArray :: (elementTokens elements ++ [.closeArray])
  | .object members => .openObject :: (memberTokens members ++ [.closeObject])

def elementTokens : List Value → List Token
  | [] => []
  | [v] => tokens v
  | v :: v' :: vs => tokens v ++ .comma :: elementTokens (v' :: vs)

def memberTokens : List (List UInt8 × Value) → List Token
  | [] => []
  | [(k, v)] => .string k :: .colon :: tokens v
  | (k, v) :: m :: ms => .string k :: .colon :: (tokens v ++ .comma :: memberTokens (m :: ms))

end

mutual

/-- Read one value; each call goes down by one in the first argument. -/
def parseValue : Nat → List Token → Option (Value × List Token)
  | 0, _ => none
  | n + 1, ts =>
    match ts with
    | .null :: rest => some (.null, rest)
    | .bool b :: rest => some (.bool b, rest)
    | .number mantissa exponent :: rest => some (.number mantissa exponent, rest)
    | .string content :: rest => some (.string content, rest)
    | .openArray :: .closeArray :: rest => some (.array [], rest)
    | .openArray :: rest => (parseElements n rest).map fun r => (.array r.1, r.2)
    | .openObject :: .closeObject :: rest => some (.object [], rest)
    | .openObject :: rest => (parseMembers n rest).map fun r => (.object r.1, r.2)
    | _ => none

/-- Read elements up to the end of their array. -/
def parseElements : Nat → List Token → Option (List Value × List Token)
  | 0, _ => none
  | n + 1, ts =>
    match parseValue n ts with
    | some (v, .closeArray :: rest) => some ([v], rest)
    | some (v, .comma :: rest) => (parseElements n rest).map fun r => (v :: r.1, r.2)
    | _ => none

/-- Read members up to the end of their object. -/
def parseMembers : Nat → List Token → Option (List (List UInt8 × Value) × List Token)
  | 0, _ => none
  | n + 1, ts =>
    match ts with
    | .string k :: .colon :: ts =>
      match parseValue n ts with
      | some (v, .closeObject :: rest) => some ([(k, v)], rest)
      | some (v, .comma :: rest) => (parseMembers n rest).map fun r => ((k, v) :: r.1, r.2)
      | _ => none
    | _ => none

end

/-- Read the tokens of one value and no more. -/
def parse (ts : List Token) : Option Value :=
  match parseValue ts.length ts with
  | some (v, []) => some v
  | _ => none

/-! ### What is accepted are the tokens of the value -/

theorem elementTokens_cons (v : Value) {vs : List Value} (h : vs ≠ []) :
    elementTokens (v :: vs) = tokens v ++ .comma :: elementTokens vs := by
  cases vs with
  | nil => exact absurd rfl h
  | cons v' vs => rw [elementTokens]

theorem memberTokens_cons (k : List UInt8) (v : Value) {ms : List (List UInt8 × Value)} (h : ms ≠ []) :
    memberTokens ((k, v) :: ms) = .string k :: .colon :: (tokens v ++ .comma :: memberTokens ms) := by
  cases ms with
  | nil => exact absurd rfl h
  | cons m ms => rw [memberTokens]

private theorem elements_of_parseElements {n : Nat}
    (ihv : ∀ ts v rest, parseValue n ts = some (v, rest) → ts = tokens v ++ rest)
    (ihe : ∀ ts vs rest, parseElements n ts = some (vs, rest) →
      vs ≠ [] ∧ ts = elementTokens vs ++ .closeArray :: rest) {ts rest : List Token} {vs : List Value}
    (h : parseElements (n + 1) ts = some (vs, rest)) : vs ≠ [] ∧ ts = elementTokens vs ++ .closeArray :: rest := by
  unfold parseElements at h
  split at h
  · rename_i v r hv
    cases h
    rw [elementTokens]
    exact ⟨List.cons_ne_nil _ _, ihv _ _ _ hv⟩
  · rename_i v r hv
    obtain ⟨⟨vs', rest'⟩, he, heq⟩ := Option.map_eq_some_iff.1 h
    cases heq
    obtain ⟨hne, hr⟩ := ihe _ _ _ he
    rw [elementTokens_cons v hne, ihv _ _ _ hv, hr]
    exact ⟨List.cons_ne_nil _ _, by simp⟩
  · cases h

private theorem members_of_parseMembers {n : Nat}
    (ihv : ∀ ts v rest, parseValue n ts = some (v, rest) → ts = tokens v ++ rest)
    (ihm : ∀ ts ms rest, parseMembers n ts = some (ms, rest) →
      ms ≠ [] ∧ ts = memberTokens ms ++ .closeObject :: rest) {ts rest : List Token} {ms : List (List UInt8 × Value)}
    (h : parseMembers (n + 1) ts = some (ms, rest)) : ms ≠ [] ∧ ts = memberTokens ms ++ .closeObject :: rest := by
  unfold parseMembers at h
  split at h
  · rename_i k ts
    split at h
    · rename_i v r hv
      cases h
      rw [memberTokens, ihv _ _ _ hv]
      exact ⟨List.cons_ne_nil _ _, rfl⟩
    · rename_i v r hv
      obtain ⟨⟨ms', rest'⟩, hm, heq⟩ := Option.map_eq_some_iff.1 h
      cases heq
      obtain ⟨hne, hr⟩ := ihm _ _ _ hm
      rw [memberTokens_cons k v hne, ihv _ _ _ hv, hr]
      exact ⟨List.cons_ne_nil _ _, by simp⟩
    · cases h
  · cases h

private theorem tokens_of_parseValue (n : Nat) :
    (∀ ts v rest, parseValue n ts = some (v, rest) → ts = tokens v ++ rest) ∧
    (∀ ts vs rest, parseElements n ts = some (vs, rest) →
      vs ≠ [] ∧ ts = elementTokens vs ++ .closeArray :: rest) ∧
    (∀ ts ms rest, parseMembers n ts = some (ms, rest) →
      ms ≠ [] ∧ ts = memberTokens ms ++ .closeObject :: rest) := by
  induction n with
  | zero => simp [parseValue, parseElements, parseMembers]
  | succ n ih =>
    obtain ⟨ihv, ihe, ihm⟩ := ih
    refine ⟨?_, fun _ _ _ => elements_of_parseElements ihv ihe, fun _ _ _ => members_of_parseMembers ihv ihm⟩
    intro ts v rest h
    unfold parseValue at h
    split at h
    case h_6 =>
      obtain ⟨⟨vs, rest'⟩, he, heq⟩ := Option.map_eq_some_iff.1 h
      cases heq
      rw [tokens, (ihe _ _ _ he).2]
      simp
    case h_8 =>
      obtain ⟨⟨ms, rest'⟩, hm, heq⟩ := Option.map_eq_some_iff.1 h
      cases heq
      rw [tokens, (ihm _ _ _ hm).2]
      simp
    case h_9 => cases h
    all_goals
      cases h
      simp [tokens, elementTokens, memberTokens]

/-! ### The tokens of a value are accepted -/

private theorem tokens_head (v : Value) : ∃ t ts, tokens v = t :: ts ∧ t ≠ .closeArray := by
  cases v <;> rw [tokens] <;> exact ⟨_, _, rfl, nofun⟩

theorem tokens_length_pos (v : Value) : 0 < (tokens v).length := by
  obtain ⟨t, ts, h, -⟩ := tokens_head v
  rw [h]
  exact Nat.succ_pos _

private theorem elementTokens_head (v : Value) (vs : List Value) :
    ∃ t ts, elementTokens (v :: vs) = t :: ts ∧ t ≠ .closeArray := by
  obtain ⟨t, ts, h, hclose⟩ := tokens_head v
  cases vs <;> rw [elementTokens, h] <;> exact ⟨t, _, rfl, hclose⟩

private theorem memberTokens_head (m : List UInt8 × Value) (ms : List (List UInt8 × Value)) :
    ∃ k ts, memberTokens (m :: ms) = .string k :: ts := by
  obtain ⟨k, v⟩ := m
  cases ms <;> rw [memberTokens] <;> exact ⟨k, _, rfl⟩

private theorem parseValue_openArray (n : Nat) {t : Token} (ts : List Token) (h : t ≠ .closeArray) :
    parseValue (n + 1) (.openArray :: t :: ts) = (parseElements n (t :: ts)).map fun r => (.array r.1, r.2) := by
  cases t <;> first | rfl | exact absurd rfl h

private theorem parseElements_of_elements {n : Nat}
    (ihv : ∀ v rest, (tokens v).length ≤ n → parseValue n (tokens v ++ rest) = some (v, rest))
    (ihe : ∀ vs rest, vs ≠ [] → (elementTokens vs).length < n →
      parseElements n (elementTokens vs ++ .closeArray :: rest) = some (vs, rest))
    {vs : List Value} (rest : List Token) (hne : vs ≠ []) (hn : (elementTokens vs).length < n + 1) :
    parseElements (n + 1) (elementTokens vs ++ .closeArray :: rest) = some (vs, rest) := by
  cases vs with
  | nil => exact absurd rfl hne
  | cons v vs =>
    unfold parseElements
    cases vs with
    | nil =>
      rw [elementTokens] at hn ⊢
      rw [ihv v _ (by omega)]
    | cons v' vs =>
      have hpos := tokens_length_pos v
      rw [elementTokens] at hn ⊢
      simp only [List.length_append, List.length_cons] at hn
      rw [List.append_assoc, ihv v _ (by omega)]
      simp only [List.cons_append]
      rw [ihe (v' :: vs) rest (List.cons_ne_nil _ _) (by omega)]
      rfl

private theorem parseMembers_of_members {n : Nat}
    (ihv : ∀ v rest, (tokens v).length ≤ n → parseValue n (tokens v ++ rest) = some (v, rest))
    (ihm : ∀ ms rest, ms ≠ [] → (memberTokens ms).length < n →
      parseMembers n (memberTokens ms ++ .closeObject :: rest) = some (ms, rest))
    {ms : List (List UInt8 × Value)} (rest : List Token) (hne : ms ≠ []) (hn : (memberTokens ms).length < n + 1) :
    parseMembers (n + 1) (memberTokens ms ++ .closeObject :: rest) = some (ms, rest) := by
  cases ms with
  | nil => exact absurd rfl hne
  | cons m ms =>
    obtain ⟨k, v⟩ := m
    unfold parseMembers
    cases ms with
    | nil =>
      rw [memberTokens] at hn ⊢
      simp only [List.length_cons] at hn
      simp only [List.cons_append]
      rw [ihv v _ (by omega)]
    | cons m ms =>
      rw [memberTokens] at hn ⊢
      simp only [List.length_append, List.length_cons] at hn
      simp only [List.cons_append, List.append_assoc]
      rw [ihv v _ (by omega)]
      simp only
      rw [ihm (m :: ms) rest (List.cons_ne_nil _ _) (by omega)]
      rfl

private theorem parseValue_of_tokens (n : Nat) :
    (∀ v rest, (tokens v).length ≤ n → parseValue n (tokens v ++ rest) = some (v, rest)) ∧
    (∀ vs rest, vs ≠ [] → (elementTokens vs).length < n →
      parseElements n (elementTokens vs ++ .closeArray :: rest) = some (vs, rest)) ∧
    (∀ ms rest, ms ≠ [] → (memberTokens ms).length < n →
      parseMembers n (memberTokens ms ++ .closeObject :: rest) = some (ms, rest)) := by
  induction n with
  | zero =>
    refine ⟨fun v rest h => ?_, by simp, by simp⟩
    have := tokens_length_pos v
    omega
  | succ n ih =>
    obtain ⟨ihv, ihe, ihm⟩ := ih
    refine ⟨?_, fun _ rest => parseElements_of_elements ihv ihe rest,
      fun _ rest => parseMembers_of_members ihv ihm rest⟩
    intro v rest hn
    cases v with
    | array elements =>
      cases elements with
      | nil => rfl
      | cons v vs =>
        rw [tokens] at hn ⊢
        simp only [List.length_append, List.length_cons, List.length_nil] at hn
        obtain ⟨t, ts, ht, hclose⟩ := elementTokens_head v vs
        have h := ihe (v :: vs) rest (List.cons_ne_nil _ _) (by omega)
        rw [ht] at h ⊢
        simp only [List.cons_append, List.append_assoc, List.nil_append] at h ⊢
        rw [parseValue_openArray n _ hclose, h]
        rfl
    | object members =>
      cases members with
      | nil => rfl
      | cons m ms =>
        rw [tokens] at hn ⊢
        simp only [List.length_append, List.length_cons, List.length_nil] at hn
        obtain ⟨k, ts, ht⟩ := memberTokens_head m ms
        have h := ihm (m :: ms) rest (List.cons_ne_nil _ _) (by omega)
        rw [ht] at h ⊢
        simp only [List.cons_append, List.append_assoc, List.nil_append] at h ⊢
        rw [parseValue, h]
        · rfl
        · exact nofun
    | _ => rfl

/-- The tokens that `parse` accepts are those of the value it returns. -/
theorem parse_eq_some_iff {ts : List Token} {v : Value} : parse ts = some v ↔ ts = tokens v := by
  constructor
  · intro h
    unfold parse at h
    split at h
    · rename_i v' hv
      cases h
      rw [(tokens_of_parseValue _).1 _ _ _ hv, List.append_nil]
    · cases h
  · rintro rfl
    have h := (parseValue_of_tokens (tokens v).length).1 v [] (Nat.le_refl _)
    rw [List.append_nil] at h
    rw [parse, h]

end Json
