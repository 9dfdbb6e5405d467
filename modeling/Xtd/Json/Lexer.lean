import Xtd.Json.Value

/-!
# Lexing JSON texts

The lexer takes the bytes of a text one at a time; what it is in the middle of is its mode.  A byte `0x80` or above is a
character like any other, so that the text need not be UTF-8.  An escape `\uXXXX` stands for a UTF-16 code unit, and the
content of a string has the UTF-8 of the code points that its code units are.

`decode` is the lexer followed by the parser of tokens.
-/

namespace Json

/-! ### Strings -/

/-- What a string is made of: bytes, and the code units of its escapes. -/
inductive Piece
  | byte (b : UInt8)
  | unit (u : Nat)
  deriving DecidableEq

def utf8 (n : Nat) : List UInt8 :=
  if n < 0x80 then [n.toUInt8]
  else if n < 0x800 then [(0xC0 + n / 64).toUInt8, (0x80 + n % 64).toUInt8]
  else if n < 0x10000 then [(0xE0 + n / 4096).toUInt8, (0x80 + n / 64 % 64).toUInt8, (0x80 + n % 64).toUInt8]
  else
    [(0xF0 + n / 262144).toUInt8, (0x80 + n / 4096 % 64).toUInt8, (0x80 + n / 64 % 64).toUInt8,
      (0x80 + n % 64).toUInt8]

def isHighSurrogate (u : Nat) : Bool := decide (0xD800 ≤ u ∧ u < 0xDC00)

def isLowSurrogate (u : Nat) : Bool := decide (0xDC00 ≤ u ∧ u < 0xE000)

/-- The code point of a code unit alone; half of a pair is replaced. -/
def scalar (u : Nat) : Nat := if isHighSurrogate u || isLowSurrogate u then 0xFFFD else u

def content : List Piece → List UInt8
  | [] => []
  | .byte b :: ps => b :: content ps
  | .unit u :: .unit l :: ps =>
    if isHighSurrogate u && isLowSurrogate l then utf8 (0x10000 + (u - 0xD800) * 1024 + (l - 0xDC00)) ++ content ps
    else utf8 (scalar u) ++ content (.unit l :: ps)
  | .unit u :: ps => utf8 (scalar u) ++ content ps

/-- The character of an escape of two bytes. -/
def escaped? (b : UInt8) : Option UInt8 :=
  if b = 34 ∨ b = 92 ∨ b = 47 then some b
  else if b = 98 then some 8
  else if b = 102 then some 12
  else if b = 110 then some 10
  else if b = 114 then some 13
  else if b = 116 then some 9
  else none

def hexValue? (b : UInt8) : Option Nat :=
  if 48 ≤ b ∧ b ≤ 57 then some (b.toNat - 48)
  else if 97 ≤ b ∧ b ≤ 102 then some (b.toNat - 87)
  else if 65 ≤ b ∧ b ≤ 70 then some (b.toNat - 55)
  else none

/-! ### Numbers and words -/

def isDigit (b : UInt8) : Bool := decide (48 ≤ b ∧ b ≤ 57)

/-- The value of a list of digits. -/
def digits (ds : List UInt8) : Nat := ds.foldl (fun n d => 10 * n + (d.toNat - 48)) 0

/-- The value of at least one digit and nothing else. -/
def digits? (ds : List UInt8) : Option Nat := if ds ≠ [] ∧ ds.all isDigit then some (digits ds) else none

/-- The exponent after a mantissa. -/
def exponent? : List UInt8 → Option Int
  | [] => some 0
  | e :: ds =>
    if e = 101 ∨ e = 69 then
      match ds with
      | 43 :: ds => (digits? ds).map Int.ofNat
      | 45 :: ds => (digits? ds).map fun n => -Int.ofNat n
      | ds => (digits? ds).map Int.ofNat
    else none

/-- The digits of the fraction, and what follows it. -/
def fraction? : List UInt8 → Option (List UInt8 × List UInt8)
  | 46 :: ds => if ds.takeWhile isDigit = [] then none else some (ds.takeWhile isDigit, ds.dropWhile isDigit)
  | text => some ([], text)

/-- A number without its sign: no leading zero, then a fraction and an exponent if there are any. -/
def unsigned? (text : List UInt8) : Option (Nat × Int) :=
  let integer := text.takeWhile isDigit
  if integer = [] ∨ (integer.head? = some 48 ∧ integer ≠ [48]) then none
  else
    (fraction? (text.dropWhile isDigit)).bind fun f =>
      (exponent? f.2).map fun e => (digits (integer ++ f.1), e - f.1.length)

def number? : List UInt8 → Option Token
  | 45 :: text => (unsigned? text).map fun n => .number (-Int.ofNat n.1) n.2
  | text => (unsigned? text).map fun n => .number (Int.ofNat n.1) n.2

def word? (text : List UInt8) : Option Token :=
  if text = [110, 117, 108, 108] then some .null
  else if text = [116, 114, 117, 101] then some (.bool true)
  else if text = [102, 97, 108, 115, 101] then some (.bool false)
  else none

/-- The bytes that a number can have. -/
def isNumberByte (b : UInt8) : Bool := isDigit b || decide (b = 45 ∨ b = 43 ∨ b = 46 ∨ b = 101 ∨ b = 69)

def isLetter (b : UInt8) : Bool := decide (97 ≤ b ∧ b ≤ 122)

/-! ### The lexer -/

/-- What the lexer is in the middle of; `unicode` has the number and the value of the digits read. -/
inductive Mode
  | blank
  | string (pieces : List Piece)
  | escape (pieces : List Piece)
  | unicode (pieces : List Piece) (count value : Nat)
  | number (text : List UInt8)
  | word (text : List UInt8)
  deriving DecidableEq

/-- A byte between two tokens. -/
def start (b : UInt8) : Option (Mode × List Token) :=
  if b = 32 ∨ b = 9 ∨ b = 10 ∨ b = 13 then some (.blank, [])
  else if b = 34 then some (.string [], [])
  else if b = 91 then some (.blank, [.openArray])
  else if b = 93 then some (.blank, [.closeArray])
  else if b = 123 then some (.blank, [.openObject])
  else if b = 125 then some (.blank, [.closeObject])
  else if b = 44 then some (.blank, [.comma])
  else if b = 58 then some (.blank, [.colon])
  else if isDigit b ∨ b = 45 then some (.number [b], [])
  else if isLetter b then some (.word [b], [])
  else none

/-- A byte in a string. -/
def stringStep (ps : List Piece) (b : UInt8) : Option (Mode × List Token) :=
  if b = 34 then some (.blank, [.string (content ps)])
  else if b = 92 then some (.escape ps, [])
  else if b < 32 then none
  else some (.string (ps ++ [.byte b]), [])

def step : Mode → UInt8 → Option (Mode × List Token)
  | .blank, b => start b
  | .string ps, b => stringStep ps b
  | .escape ps, b =>
    if b = 117 then some (.unicode ps 0 0, [])
    else (escaped? b).map fun c => (.string (ps ++ [.byte c]), [])
  | .unicode ps n u, b =>
    (hexValue? b).map fun d =>
      (if n = 3 then .string (ps ++ [.unit (16 * u + d)]) else .unicode ps (n + 1) (16 * u + d), [])
  | .number text, b =>
    if isNumberByte b then some (.number (text ++ [b]), [])
    else (number? text).bind fun t => (start b).map fun r => (r.1, t :: r.2)
  | .word text, b =>
    if isLetter b then some (.word (text ++ [b]), [])
    else (word? text).bind fun t => (start b).map fun r => (r.1, t :: r.2)

def run : Mode → List UInt8 → Option (Mode × List Token)
  | m, [] => some (m, [])
  | m, b :: bs => (step m b).bind fun r => (run r.1 bs).map fun r' => (r'.1, r.2 ++ r'.2)

/-- The tokens of what is left at the end of the text. -/
def finish : Mode → Option (List Token)
  | .blank => some []
  | .number text => (number? text).map fun t => [t]
  | .word text => (word? text).map fun t => [t]
  | .string _ | .escape _ | .unicode _ _ _ => none

def lex (bs : List UInt8) : Option (List Token) :=
  (run .blank bs).bind fun r => (finish r.1).map fun ts => r.2 ++ ts

/-- The value of a JSON text. -/
def decode (bs : List UInt8) : Option Value := (lex bs).bind parse

theorem decode_eq_some_iff {bs : List UInt8} {v : Value} : decode bs = some v ↔ lex bs = some (tokens v) := by
  unfold decode
  rw [Option.bind_eq_some_iff]
  constructor
  · rintro ⟨ts, h, hp⟩
    rw [h, parse_eq_some_iff.1 hp]
  · intro h
    exact ⟨_, h, parse_eq_some_iff.2 rfl⟩

-- the text `[-12,"\u00e9"]`, and `[01]`, whose number has a leading zero
example : decode [91, 45, 49, 50, 44, 34, 92, 117, 48, 48, 101, 57, 34, 93] =
    some (.array [.number (-12) 0, .string [195, 169]]) := rfl

example : decode [91, 48, 49, 93] = none := rfl

/-! ### Reading -/

variable {m m' m'' : Mode} {xs ys : List UInt8} {ts us : List Token}

/-- The bytes take the lexer from mode to mode and are read as the tokens. -/
def Reads (m : Mode) (xs : List UInt8) (ts : List Token) (m' : Mode) : Prop := run m xs = some (m', ts)

instance (m : Mode) (xs : List UInt8) (ts : List Token) (m' : Mode) : Decidable (Reads m xs ts m') :=
  inferInstanceAs (Decidable (_ = _))

theorem reads_cons_iff {b : UInt8} : Reads m (b :: xs) ts m' ↔
    ∃ m₁ us us', step m b = some (m₁, us) ∧ Reads m₁ xs us' m' ∧ ts = us ++ us' := by
  unfold Reads
  rw [run, Option.bind_eq_some_iff]
  constructor
  · rintro ⟨⟨m₁, us⟩, hs, h⟩
    obtain ⟨⟨m₂, us'⟩, hr, heq⟩ := Option.map_eq_some_iff.1 h
    cases heq
    exact ⟨m₁, us, us', hs, hr, rfl⟩
  · rintro ⟨m₁, us, us', hs, hr, rfl⟩
    exact ⟨_, hs, by simp only [hr, Option.map_some]⟩

/-- What is read first does not depend on what follows, and the rest is read from where it ended. -/
theorem Reads.append_iff (h : Reads m xs ts m') : Reads m (xs ++ ys) (ts ++ us) m'' ↔ Reads m' ys us m'' := by
  induction xs generalizing m ts with
  | nil =>
    cases h
    rfl
  | cons b xs ih =>
    obtain ⟨m₁, ts₁, ts₂, hs, hr, rfl⟩ := reads_cons_iff.1 h
    rw [← ih hr, List.cons_append, List.append_assoc, reads_cons_iff]
    constructor
    · rintro ⟨m₂, us₁, us₂, hs', hr', heq⟩
      rw [hs] at hs'
      cases hs'
      rwa [List.append_cancel_left heq]
    · intro hr'
      exact ⟨_, _, _, hs, hr', rfl⟩

theorem Reads.append (h : Reads m xs ts m') (h' : Reads m' ys us m'') : Reads m (xs ++ ys) (ts ++ us) m'' :=
  h.append_iff.2 h'

theorem reads_append_iff : Reads m (xs ++ ys) ts m'' ↔
    ∃ m' us us', Reads m xs us m' ∧ Reads m' ys us' m'' ∧ ts = us ++ us' := by
  constructor
  · intro h
    induction xs generalizing m ts with
    | nil => exact ⟨m, [], ts, rfl, h, rfl⟩
    | cons b xs ih =>
      obtain ⟨m₁, ts₁, ts₂, hs, hr, rfl⟩ := reads_cons_iff.1 h
      obtain ⟨m₂, us, us', h1, h2, rfl⟩ := ih hr
      exact ⟨m₂, ts₁ ++ us, us', reads_cons_iff.2 ⟨_, _, _, hs, h1, rfl⟩, h2, by rw [List.append_assoc]⟩
  · rintro ⟨m', us, us', h1, h2, rfl⟩
    exact h1.append h2

theorem lex_eq_some_iff {bs : List UInt8} : lex bs = some ts ↔
    ∃ m us us', Reads .blank bs us m ∧ finish m = some us' ∧ ts = us ++ us' := by
  unfold lex Reads
  rw [Option.bind_eq_some_iff]
  constructor
  · rintro ⟨⟨m, us⟩, hr, h⟩
    obtain ⟨us', hf, rfl⟩ := Option.map_eq_some_iff.1 h
    exact ⟨m, us, us', hr, hf, rfl⟩
  · rintro ⟨m, us, us', hr, hf, rfl⟩
    exact ⟨_, hr, by rw [hf]; rfl⟩

/-! ### Plain strings -/

/-- A byte that stands for itself in a string. -/
def Plain (b : UInt8) : Prop := b ≠ 34 ∧ b ≠ 92 ∧ ¬ b < 32

instance (b : UInt8) : Decidable (Plain b) := inferInstanceAs (Decidable (_ ∧ _ ∧ _))

theorem plain_of_all (h : (xs.all fun b => decide (Plain b)) = true) : ∀ b ∈ xs, Plain b := by
  intro b hb
  exact of_decide_eq_true (List.all_eq_true.1 h b hb)

theorem stringStep_plain (ps : List Piece) {b : UInt8} (h : Plain b) :
    stringStep ps b = some (.string (ps ++ [.byte b]), []) := by
  unfold stringStep
  rw [if_neg h.1, if_neg h.2.1, if_neg h.2.2]

/-- A byte in a string ends it, starts an escape or stands for itself. -/
theorem stringStep_cases {ps : List Piece} {b : UInt8} (h : stringStep ps b = some (m, ts)) :
    (b = 34 ∧ m = .blank ∧ ts = [.string (content ps)]) ∨ (b = 92 ∧ m = .escape ps ∧ ts = []) ∨
      (Plain b ∧ m = .string (ps ++ [.byte b]) ∧ ts = []) := by
  unfold stringStep at h
  split_ifs at h with h1 h2 h3
  · cases h
    exact .inl ⟨h1, rfl, rfl⟩
  · cases h
    exact .inr (.inl ⟨h2, rfl, rfl⟩)
  · cases h
    exact .inr (.inr ⟨⟨h1, h2, h3⟩, rfl, rfl⟩)

theorem reads_plain (ps : List Piece) (h : ∀ b ∈ xs, Plain b) :
    Reads (.string ps) xs [] (.string (ps ++ xs.map .byte)) := by
  induction xs generalizing ps with
  | nil =>
    rw [List.map_nil, List.append_nil]
    rfl
  | cons b xs ih =>
    have hr := ih (ps ++ [.byte b]) fun c hc => h c (List.mem_cons_of_mem _ hc)
    rw [List.append_assoc] at hr
    exact reads_cons_iff.2 ⟨_, _, _, stringStep_plain ps (h b List.mem_cons_self), hr, rfl⟩

theorem content_bytes (xs : List UInt8) (ps : List Piece) : content (xs.map .byte ++ ps) = xs ++ content ps := by
  induction xs with
  | nil => rfl
  | cons b xs ih =>
    rw [List.map_cons, List.cons_append, content, ih]
    rfl

theorem content_concat_byte (ps : List Piece) (b : UInt8) : content (ps ++ [.byte b]) = content ps ++ [b] := by
  fun_induction content ps with
  | case1 => rfl
  | case2 c ps ih => rw [List.cons_append, content, ih, List.cons_append]
  | case3 u l ps h ih => simp only [List.cons_append, content, h, if_true, ih, List.append_assoc]
  | case4 u l ps h ih =>
    simp only [List.cons_append] at ih ⊢
    rw [content, if_neg h, ih, List.append_assoc]
  | case5 u ps h ih =>
    cases ps with
    | nil => simp [content]
    | cons p ps =>
      cases p with
      | byte c =>
        show utf8 (scalar u) ++ content (.byte c :: ps ++ [.byte b]) = _
        rw [ih, List.append_assoc]
      | unit l => exact absurd rfl (h l ps)

theorem content_unit (ps : List Piece) {u : Nat} (h : isHighSurrogate u = false) :
    content (.unit u :: ps) = utf8 (scalar u) ++ content ps := by
  cases ps with
  | nil => rfl
  | cons p ps =>
    cases p with
    | byte b => rfl
    | unit l => rw [content, h]; rfl

/-- Between quotes the bytes `xs` are a string with the content `value`. -/
def Spells (xs value : List UInt8) : Prop := ∃ ps, Reads (.string []) xs [] (.string ps) ∧ content ps = value

theorem spells_plain (h : ∀ b ∈ xs, Plain b) : Spells xs xs := by
  refine ⟨_, reads_plain [] h, ?_⟩
  have hc := content_bytes xs []
  rw [List.append_nil] at hc
  rw [List.nil_append, hc, content, List.append_nil]

/-- The bytes are the text of a value that a delimiter ends. -/
def Writes (xs : List UInt8) (v : Value) : Prop := Reads .blank xs (tokens v) .blank

theorem decode_of_writes {v : Value} (h : Writes xs v) : decode xs = some v := by
  rw [decode_eq_some_iff, lex_eq_some_iff]
  exact ⟨.blank, tokens v, [], h, rfl, by rw [List.append_nil]⟩

/-- Texts of values with commas between them. -/
theorem reads_elements {texts : List (List UInt8)} {vs : List Value} (h : List.Forall₂ Writes texts vs) :
    Reads .blank (List.intercalate [44] texts) (elementTokens vs) .blank := by
  induction h with
  | nil =>
    rw [elementTokens]
    rfl
  | cons hx htail ih =>
    cases htail with
    | nil =>
      rw [List.intercalate_singleton, elementTokens]
      exact hx
    | cons hx' htail =>
      rw [List.intercalate_cons_cons, elementTokens, List.append_assoc]
      have hcomma : Reads .blank [44] [.comma] .blank := rfl
      exact hx.append (hcomma.append ih)

/-! ### Strings as they stand in a text -/

/-- A bound for the bytes of a piece. -/
def Piece.weight : Piece → Nat
  | byte _ => 1
  | unit _ => 4

def weight (ps : List Piece) : Nat := (ps.map Piece.weight).sum

theorem utf8_length_le (n : Nat) : (utf8 n).length ≤ 4 := by
  unfold utf8
  split_ifs <;> simp

theorem content_length_le (ps : List Piece) : (content ps).length ≤ weight ps := by
  unfold weight
  fun_induction content ps with
  | case1 => exact Nat.le_refl _
  | case2 b ps ih =>
    simp only [List.length_cons, List.map_cons, List.sum_cons, Piece.weight]
    omega
  | case3 u l ps h ih =>
    have := utf8_length_le (0x10000 + (u - 0xD800) * 1024 + (l - 0xDC00))
    simp only [List.length_append, List.map_cons, List.sum_cons, Piece.weight] at *
    omega
  | case4 u l ps h ih =>
    have := utf8_length_le (scalar u)
    simp only [List.length_append, List.map_cons, List.sum_cons, Piece.weight] at *
    omega
  | case5 u ps h ih =>
    have := utf8_length_le (scalar u)
    simp only [List.length_append, List.map_cons, List.sum_cons, Piece.weight] at *
    omega

@[simp] theorem weight_concat (ps : List Piece) (p : Piece) : weight (ps ++ [p]) = weight ps + p.weight := by
  simp [weight]

/-- The lexer in a string of which it has read the bytes `xs`: either each of them stands for itself, or the pieces weigh
less than the bytes. -/
inductive Within (xs : List UInt8) : Mode → Prop
  | plain (h : ∀ b ∈ xs, Plain b) : Within xs (.string (xs.map .byte))
  | shrunk (ps : List Piece) (h : weight ps < xs.length) : Within xs (.string ps)
  | escape (ps : List Piece) (h : weight ps < xs.length) (hlast : xs.getLast? = some 92) : Within xs (.escape ps)
  | unicode (ps : List Piece) (n u : Nat) (h : weight ps + n + 2 ≤ xs.length) : Within xs (.unicode ps n u)

theorem weight_bytes (xs : List UInt8) : weight (xs.map .byte) = xs.length := by
  induction xs with
  | nil => rfl
  | cons b xs ih =>
    show 1 + weight (xs.map .byte) = xs.length + 1
    omega

theorem Within.weight_le {ps : List Piece} (h : Within xs (.string ps)) : weight ps ≤ xs.length := by
  cases h with
  | plain => exact Nat.le_of_eq (weight_bytes xs)
  | shrunk _ h => exact Nat.le_of_lt h

/-- A byte goes on with the string or ends it. -/
theorem Within.step {b : UInt8} (h : Within xs m) (hs : step m b = some (m', ts)) :
    (ts = [] ∧ Within (xs ++ [b]) m') ∨
      ∃ ps, m = .string ps ∧ b = 34 ∧ m' = .blank ∧ ts = [.string (content ps)] := by
  have hlen : (xs ++ [b]).length = xs.length + 1 := by simp
  cases h with
  | plain h =>
    rcases stringStep_cases hs with ⟨rfl, rfl, rfl⟩ | ⟨rfl, rfl, rfl⟩ | ⟨hb, rfl, rfl⟩
    · exact .inr ⟨_, rfl, rfl, rfl, rfl⟩
    · exact .inl ⟨rfl, .escape _ (by rw [weight_bytes]; omega) (by simp)⟩
    · refine .inl ⟨rfl, ?_⟩
      have hmap : (xs ++ [b]).map Piece.byte = xs.map .byte ++ [.byte b] := by simp
      rw [← hmap]
      refine .plain fun c hc => ?_
      rcases List.mem_append.1 hc with hc | hc
      · exact h c hc
      · rwa [List.mem_singleton.1 hc]
  | shrunk ps h =>
    rcases stringStep_cases hs with ⟨rfl, rfl, rfl⟩ | ⟨rfl, rfl, rfl⟩ | ⟨hb, rfl, rfl⟩
    · exact .inr ⟨_, rfl, rfl, rfl, rfl⟩
    · exact .inl ⟨rfl, .escape _ (by omega) (by simp)⟩
    · refine .inl ⟨rfl, .shrunk _ ?_⟩
      rw [weight_concat, hlen]
      exact Nat.succ_lt_succ h
  | escape ps h =>
    simp only [Json.step] at hs
    split_ifs at hs with hu
    · cases hs
      exact .inl ⟨rfl, .unicode _ _ _ (by omega)⟩
    · obtain ⟨c, -, heq⟩ := Option.map_eq_some_iff.1 hs
      cases heq
      refine .inl ⟨rfl, .shrunk _ ?_⟩
      rw [weight_concat, hlen]
      exact Nat.succ_lt_succ h
  | unicode ps n u h =>
    obtain ⟨d, -, heq⟩ := Option.map_eq_some_iff.1 hs
    cases heq
    refine .inl ⟨rfl, ?_⟩
    split_ifs with hn
    · refine .shrunk _ ?_
      rw [weight_concat, hlen, Piece.weight]
      omega
    · exact .unicode _ _ _ (by omega)

/-- More bytes go on with the string, or one of them ends it. -/
theorem Within.reads (h : Within xs m) (hr : Reads m ys ts m') :
    (ts = [] ∧ Within (xs ++ ys) m') ∨
      ∃ zs ws ps us, ys = zs ++ 34 :: ws ∧ Within (xs ++ zs) (.string ps) ∧ ts = .string (content ps) :: us := by
  induction ys generalizing xs m ts with
  | nil =>
    cases hr
    rw [List.append_nil]
    exact .inl ⟨rfl, h⟩
  | cons b ys ih =>
    obtain ⟨m₁, ts₁, ts₂, hs, hrest, rfl⟩ := reads_cons_iff.1 hr
    rcases h.step hs with ⟨rfl, h₁⟩ | ⟨ps, rfl, rfl, rfl, rfl⟩
    · rw [List.nil_append]
      rcases ih h₁ hrest with ⟨rfl, h₂⟩ | ⟨zs, ws, ps, us, rfl, h₂, rfl⟩
      · exact .inl ⟨rfl, by simpa using h₂⟩
      · exact .inr ⟨b :: zs, ws, ps, us, rfl, by simpa using h₂, rfl⟩
    · exact .inr ⟨[], ys, ps, ts₂, rfl, by simpa using h, rfl⟩

/-- Plain bytes up to a quote end the string with them. -/
private theorem closes_of_reads {ps : List Piece} {zs : List UInt8} (hy : ∀ b ∈ ys, Plain b)
    (h : Reads (.string ps) (ys ++ 34 :: zs) ts m) : ∃ us, ts = .string (content (ps ++ ys.map .byte)) :: us := by
  obtain ⟨m₁, us₁, us₂, h1, h2, rfl⟩ := reads_append_iff.1 h
  have hplain := reads_plain ps hy
  rw [Reads, h1] at hplain
  cases hplain
  obtain ⟨m₂, us, us', hs, -, rfl⟩ := reads_cons_iff.1 h2
  cases hs
  exact ⟨us', rfl⟩

/-- The last byte of a string that ends with plain bytes after a quote. -/
private theorem content_getLast_ne (ps : List Piece) (hy : ∀ b ∈ ys, Plain b) :
    (content (ps ++ [.byte 34] ++ ys.map .byte)).getLast? ≠ some 92 := by
  rcases List.eq_nil_or_concat ys with rfl | ⟨init, b, rfl⟩
  · rw [List.map_nil, List.append_nil, content_concat_byte]
    simp
  · have hb := (hy b (by simp)).2.1
    rw [List.concat_eq_append, List.map_append, List.map_singleton, ← List.append_assoc, content_concat_byte]
    simpa using hb

/-- A string that stands in a text without escapes and is read back as it is has only bytes that stand for themselves,
if what follows it is another string's beginning after plain bytes. -/
theorem plain_of_reads (hz : ∀ b ∈ ys, Plain b) {zs : List UInt8}
    (h : Reads (.string []) (xs ++ 34 :: (ys ++ 34 :: zs)) (.string xs :: ts) m) : ∀ b ∈ xs, Plain b := by
  obtain ⟨m₁, us₁, us₂, h1, h2, heq⟩ := reads_append_iff.1 h
  have hwithin : Within [] (.string []) := .plain nofun
  rcases hwithin.reads h1 with ⟨rfl, hw⟩ | ⟨ws, ws', ps, us, rfl, hw, rfl⟩
  · obtain ⟨m₂, us₃, us₄, hs, hrest, rfl⟩ := reads_cons_iff.1 h2
    rw [List.nil_append] at hw
    cases hw with
    | plain hp => exact hp
    | shrunk ps hlt =>
      -- the closing quote: the content is shorter than the bytes read
      cases hs
      have hcontent := content_length_le ps
      rw [← (Token.string.inj (List.cons.inj heq).1)] at hcontent
      omega
    | escape ps hlt hlast =>
      -- the quote was escaped, and the content has a last byte that is not a backslash
      cases hs
      obtain ⟨us, rfl⟩ := closes_of_reads hz hrest
      have hxs := Token.string.inj (List.cons.inj heq).1
      exact absurd (hxs ▸ hlast) (content_getLast_ne ps hz)
    | unicode ps n u h => cases hs
  · have hle := content_length_le ps
    have hle' := hw.weight_le
    rw [← (Token.string.inj (List.cons.inj heq).1)] at hle
    simp only [List.length_append, List.length_cons, List.nil_append] at hle hle'
    omega

theorem reads_string_iff (hy : ∀ b ∈ ys, Plain b) {zs : List UInt8} :
    Reads (.string []) (xs ++ 34 :: (ys ++ 34 :: zs)) (.string xs :: ts) m ↔
      (∀ b ∈ xs, Plain b) ∧ Reads .blank (ys ++ 34 :: zs) ts m := by
  -- up to the closing quote
  have hread : (∀ b ∈ xs, Plain b) → Reads (.string []) (xs ++ [34]) [.string xs] .blank := by
    intro hx
    obtain ⟨ps, hr, rfl⟩ := spells_plain hx
    have hclose : Reads (.string ps) [34] [.string (content ps)] .blank := rfl
    exact hr.append hclose
  rw [← List.singleton_append, ← List.append_assoc, ← List.singleton_append (l := ts)]
  constructor
  · intro h
    have hx := plain_of_reads hy (by simpa using h)
    exact ⟨hx, (hread hx).append_iff.1 h⟩
  · rintro ⟨hx, h⟩
    exact (hread hx).append h

/-- A text that ends with a closing brace has nothing left at its end. -/
theorem finish_of_reads (h : Reads m (xs ++ [125]) ts m') {us : List Token} (hf : finish m' = some us) :
    m' = .blank ∧ us = [] := by
  obtain ⟨m₁, -, us₁, -, h, -⟩ := reads_append_iff.1 h
  obtain ⟨m₂, us₂, us₃, hs, h, -⟩ := reads_cons_iff.1 h
  cases h
  cases m₁ with
  | blank =>
    cases hs
    exact ⟨rfl, (Option.some.inj hf).symm⟩
  | string ps =>
    cases hs
    cases hf
  | escape ps => cases hs
  | unicode ps n u => cases hs
  | number text =>
    obtain ⟨t, -, hs⟩ := Option.bind_eq_some_iff.1 hs
    cases hs
    exact ⟨rfl, (Option.some.inj hf).symm⟩
  | word text =>
    obtain ⟨t, -, hs⟩ := Option.bind_eq_some_iff.1 hs
    cases hs
    exact ⟨rfl, (Option.some.inj hf).symm⟩

theorem decode_eq_some_iff_writes {v : Value} : decode (xs ++ [125]) = some v ↔ Writes (xs ++ [125]) v := by
  constructor
  · intro h
    obtain ⟨m, us, us', hr, hf, heq⟩ := lex_eq_some_iff.1 (decode_eq_some_iff.1 h)
    obtain ⟨rfl, rfl⟩ := finish_of_reads hr hf
    rw [List.append_nil] at heq
    rwa [Writes, heq]
  · exact decode_of_writes

end Json
