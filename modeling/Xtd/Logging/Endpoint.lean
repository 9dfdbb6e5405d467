import Xtd.Json.Lexer
import Xtd.Logging.SinksOpts
import Xtd.Sequence.Cut

/-!
# Endpoints of the native transport

The endpoint of `otel_native_transport` (`native.h`): how `parse_endpoint` takes it apart, and the host header that is
made of its parts.  The port is read with `std::stoi`, which also takes white space and a plus sign in front of the
digits, and which has an exception of its own for a number that is not an `int`.
-/

namespace Xtd

open Json (isDigit digits)
open Sequence

/-! ### Numbers -/

/-- The sign in front of a number, and what follows it. -/
def signOf : List Byte → List Byte × List Byte
  | 43 :: rest => ([43], rest)
  | 45 :: rest => ([45], rest)
  | rest => ([], rest)

/-- The value of digits behind a sign. -/
def signed (sign ds : List Byte) : Int := if sign = [45] then -(digits ds : Int) else digits ds

/-- A value of the type `int`. -/
def IsInt (value : Int) : Prop := -2 ^ 31 ≤ value ∧ value < 2 ^ 31

instance (value : Int) : Decidable (IsInt value) := inferInstanceAs (Decidable (_ ∧ _))

/-- `std::stoi` to the base ten in the classic locale: the value, and the number of bytes that were read. -/
def stoi (value : List Byte) : Except Exn (Int × Nat) :=
  let (sign, rest) := signOf (value.dropWhile isSpace)
  let ds := rest.takeWhile isDigit
  if ds.isEmpty then .error (.invalidArgument "stoi")
  else if IsInt (signed sign ds) then .ok (signed sign ds, value.length - (rest.dropWhile isDigit).length)
  else .error (.outOfRange "stoi")

def parsePort (value : List Byte) : Except Exn Int :=
  if value.isEmpty then .error (.invalidArgument "invalid endpoint port")
  else do
    let (port, parsed) ← stoi value
    if parsed ≠ value.length ∨ port ≤ 0 ∨ port > 65535 then .error (.invalidArgument "invalid endpoint port")
    else .ok port

/-! ### Endpoints -/

/-- The members of `otel_transport_base` that `parse_endpoint` sets. -/
structure Endpoint where
  host : List Byte
  path : List Byte
  ipv6 : Bool := false
  port : Int := 80
  deriving DecidableEq

def hostHeaderFor (host : List Byte) (isIpv6 : Bool) (port : Int) : List Byte :=
  if isIpv6 then ascii "[" ++ host ++ ascii "]:" ++ ascii (toString port)
  else host ++ ascii ":" ++ ascii (toString port)

def httpPrefix : List Byte := ascii "http://"

def httpsPrefix : List Byte := ascii "https://"

/-- The host and the port of an authority that is not empty. -/
def parseAuthority (path authority : List Byte) : Except Exn Endpoint :=
  if authority.head? = some 91 then
    match authority.idxOf? 93 with
    | none => .error (.invalidArgument "invalid endpoint host")
    | some closingBracket =>
      let host := (authority.drop 1).take (closingBracket - 1)
      if closingBracket + 1 < authority.length then
        if authority[closingBracket + 1]? ≠ some 58 then .error (.invalidArgument "invalid endpoint")
        else do
          let port ← parsePort (authority.drop (closingBracket + 2))
          return { host, path, ipv6 := true, port }
      else .ok { host, path, ipv6 := true }
  else
    match lastIdxOf? 58 authority with
    | none => .ok { host := authority, path }
    | some colon => do
      let port ← parsePort (authority.drop (colon + 1))
      return { host := authority.take colon, path, port }

def parseEndpoint (endpoint : List Byte) : Except Exn Endpoint :=
  if httpsPrefix.isPrefixOf endpoint then .error (.invalidArgument "https is not supported by this transport")
  else
    let endpoint := if httpPrefix.isPrefixOf endpoint then endpoint.drop httpPrefix.length else endpoint
    let slash := endpoint.idxOf? 47
    let authority := match slash with
      | none => endpoint
      | some slash => endpoint.take slash
    let path := match slash with
      | none => ascii "/"
      | some slash => endpoint.drop slash
    if authority.isEmpty then .error (.invalidArgument "invalid endpoint host")
    else do
      let parsed ← parseAuthority path authority
      if parsed.host.isEmpty then .error (.invalidArgument "invalid endpoint host") else .ok parsed

/-! ### The numbers that are read -/

/-- A number at the front of a text, behind white space and a sign: its digits, and what follows them. -/
structure NumberText (text spaces sign ds rest : List Byte) : Prop where
  text_eq : text = spaces ++ (sign ++ (ds ++ rest))
  spaces : ∀ b ∈ spaces, isSpace b = true
  sign : sign = [] ∨ sign = [43] ∨ sign = [45]
  digits : ∀ b ∈ ds, isDigit b = true
  nonempty : ds ≠ []
  rest : Stops isDigit rest

theorem not_isSpace_of_isDigit {b : Byte} (h : isDigit b = true) : isSpace b = false := by
  have hall : ∀ n < 58, 48 ≤ n → isSpace n.toUInt8 = false := by decide
  obtain ⟨h1, h2⟩ := of_decide_eq_true h
  have hb := hall b.toNat (Nat.lt_succ_of_le h2) h1
  rwa [Nat.toUInt8_eq, UInt8.ofNat_toNat] at hb

private theorem signOf_eq {sign rest : List Byte} (hsign : sign = [] ∨ sign = [43] ∨ sign = [45])
    (hrest : ∃ b ∈ rest.head?, isDigit b = true) : signOf (sign ++ rest) = (sign, rest) := by
  obtain ⟨b, hb, hdigit⟩ := hrest
  rcases hsign with rfl | rfl | rfl
  · cases rest with
    | nil => cases hb
    | cons c rest =>
      cases hb
      have hplus : b ≠ 43 := by
        rintro rfl
        cases hdigit
      have hminus : b ≠ 45 := by
        rintro rfl
        cases hdigit
      unfold signOf
      split
      · rename_i heq
        exact absurd (List.cons.inj heq).1 hplus
      · rename_i heq
        exact absurd (List.cons.inj heq).1 hminus
      · rfl
  · rfl
  · rfl

theorem stoi_of_number {text spaces sign ds rest : List Byte} (h : NumberText text spaces sign ds rest) :
    stoi text = if IsInt (signed sign ds) then .ok (signed sign ds, text.length - rest.length)
      else .error (.outOfRange "stoi") := by
  obtain ⟨d, ds', hds⟩ := List.exists_cons_of_ne_nil h.nonempty
  have hd : isDigit d = true := h.digits d (by rw [hds]; exact List.mem_cons_self)
  have hstop : Stops isSpace (sign ++ (ds ++ rest)) := by
    rw [hds]
    rcases h.sign with rfl | rfl | rfl
    · exact stops_cons (not_isSpace_of_isDigit hd)
    · exact stops_cons rfl
    · exact stops_cons rfl
  have hsign : signOf (sign ++ (ds ++ rest)) = (sign, ds ++ rest) :=
    signOf_eq h.sign ⟨d, by rw [hds]; rfl, hd⟩
  unfold stoi
  conv_lhs => rw [h.text_eq, dropWhile_cut h.spaces hstop, hsign]
  dsimp only
  rw [takeWhile_cut h.digits h.rest, dropWhile_cut h.digits h.rest, if_neg (by simp [h.nonempty]), ← h.text_eq]

private theorem signOf_cut (text : List Byte) : text = (signOf text).1 ++ (signOf text).2 ∧
    ((signOf text).1 = [] ∨ (signOf text).1 = [43] ∨ (signOf text).1 = [45]) := by
  unfold signOf
  split
  · exact ⟨rfl, .inr (.inl rfl)⟩
  · exact ⟨rfl, .inr (.inr rfl)⟩
  · exact ⟨rfl, .inl rfl⟩

theorem stoi_cases (text : List Byte) :
    stoi text = .error (.invalidArgument "stoi") ∨ ∃ spaces sign ds rest, NumberText text spaces sign ds rest := by
  obtain ⟨hcut, hform⟩ := signOf_cut (text.dropWhile isSpace)
  by_cases hds : (signOf (text.dropWhile isSpace)).2.takeWhile isDigit = []
  · left
    unfold stoi
    dsimp only
    rw [hds, if_pos List.isEmpty_nil]
  · right
    refine ⟨text.takeWhile isSpace, (signOf (text.dropWhile isSpace)).1,
      (signOf (text.dropWhile isSpace)).2.takeWhile isDigit, (signOf (text.dropWhile isSpace)).2.dropWhile isDigit,
      ?_, ?_, hform, ?_, hds, stops_dropWhile _ _⟩
    · rw [List.takeWhile_append_dropWhile, ← hcut, List.takeWhile_append_dropWhile]
    · exact fun b hb => List.mem_takeWhile_imp hb
    · exact fun b hb => List.mem_takeWhile_imp hb

/-! ### The ports that are read -/

/-- The decimal digits of a port. -/
structure PortText (text : List Byte) (port : Int) : Prop where
  digits : ∀ b ∈ text, isDigit b = true
  nonempty : text ≠ []
  value : port = Json.digits text
  pos : 1 ≤ port
  le : port ≤ 65535

/-- The digits of a port behind `front`, which is white space and then a plus sign or nothing. -/
def PortBehind (front text : List Byte) (port : Int) : Prop :=
  ∃ spaces sign ds, front = spaces ++ sign ∧ text = spaces ++ (sign ++ ds) ∧ (∀ b ∈ spaces, isSpace b = true) ∧
    (sign = [] ∨ sign = [43]) ∧ PortText ds port

/-- A number that is not an `int`, whatever follows it. -/
def Overflows (text : List Byte) : Prop :=
  ∃ spaces sign ds rest, NumberText text spaces sign ds rest ∧ ¬ IsInt (signed sign ds)

theorem portBehind_nil {text : List Byte} {port : Int} : PortBehind [] text port ↔ PortText text port := by
  constructor
  · rintro ⟨spaces, sign, ds, hfront, rfl, -, -, h⟩
    obtain ⟨rfl, rfl⟩ := List.append_eq_nil_iff.1 hfront.symm
    exact h
  · intro h
    exact ⟨[], [], text, rfl, rfl, List.forall_mem_nil _, .inl rfl, h⟩

/-- What is in front of the digits has a first byte that is not a digit. -/
theorem PortBehind.not_portText {front text : List Byte} {port port' : Int} (h : PortBehind front text port)
    (hfront : front ≠ []) : ¬ PortText text port' := by
  obtain ⟨spaces, sign, ds, rfl, rfl, hspaces, hsign, -⟩ := h
  intro htext
  cases spaces with
  | cons b spaces =>
    have hdigit := htext.digits b List.mem_cons_self
    have hspace := hspaces b List.mem_cons_self
    rw [not_isSpace_of_isDigit hdigit] at hspace
    cases hspace
  | nil =>
    rcases hsign with rfl | rfl
    · exact hfront rfl
    · have hdigit := htext.digits 43 List.mem_cons_self
      cases hdigit

theorem parsePort_of_number {text spaces sign ds rest : List Byte} (h : NumberText text spaces sign ds rest) :
    parsePort text = if IsInt (signed sign ds) then
      if rest = [] ∧ 1 ≤ signed sign ds ∧ signed sign ds ≤ 65535 then .ok (signed sign ds)
      else .error (.invalidArgument "invalid endpoint port")
    else .error (.outOfRange "stoi") := by
  have hds := List.length_pos_of_ne_nil h.nonempty
  have hlength : text.length = spaces.length + (sign.length + (ds.length + rest.length)) := by
    rw [h.text_eq]
    simp
  have hempty : text.isEmpty = false := by
    rw [List.isEmpty_eq_false_iff]
    exact List.ne_nil_of_length_pos (by omega)
  have hread : text.length - rest.length = text.length ↔ rest = [] := by
    rw [← List.length_eq_zero_iff]
    omega
  have hbad : (text.length - rest.length ≠ text.length ∨ signed sign ds ≤ 0 ∨ signed sign ds > 65535) ↔
      ¬ (rest = [] ∧ 1 ≤ signed sign ds ∧ signed sign ds ≤ 65535) := by
    rw [not_and_or, not_and_or, Ne, hread]
    exact or_congr Iff.rfl (or_congr (by omega) (by omega))
  unfold parsePort
  rw [hempty, if_neg Bool.false_ne_true, stoi_of_number h]
  by_cases hint : IsInt (signed sign ds)
  · rw [if_pos hint, if_pos hint]
    show (if _ then _ else _) = _
    by_cases hport : rest = [] ∧ 1 ≤ signed sign ds ∧ signed sign ds ≤ 65535
    · rw [if_pos hport, if_neg (fun h => hbad.1 h hport)]
    · rw [if_neg hport, if_pos (hbad.2 hport)]
  · rw [if_neg hint, if_neg hint]
    rfl

/-- What `parse_port` reads as a port. -/
theorem parsePort_eq_ok_iff {text : List Byte} {port : Int} :
    parsePort text = .ok port ↔ ∃ front, PortBehind front text port := by
  constructor
  · intro h
    rcases stoi_cases text with hstoi | ⟨spaces, sign, ds, rest, hnumber⟩
    · unfold parsePort at h
      rw [hstoi] at h
      split at h <;> cases h
    · rw [parsePort_of_number hnumber] at h
      split_ifs at h with hint hport
      cases h
      obtain ⟨rfl, hpos, hle⟩ := hport
      have hsign : sign = [] ∨ sign = [43] := by
        rcases hnumber.sign with hsign | hsign | hsign
        · exact .inl hsign
        · exact .inr hsign
        · rw [signed, if_pos hsign] at hpos
          omega
      have hvalue : signed sign ds = digits ds := by
        rw [signed, if_neg]
        rintro rfl
        rcases hsign with hsign | hsign <;> cases hsign
      refine ⟨spaces ++ sign, spaces, sign, ds, rfl, ?_, hnumber.spaces, hsign, hnumber.digits, hnumber.nonempty,
        hvalue, hpos, hle⟩
      rw [hnumber.text_eq, List.append_nil]
  · rintro ⟨front, spaces, sign, ds, -, rfl, hspaces, hsign, hport⟩
    have hvalue : signed sign ds = port := by
      rw [hport.value, signed, if_neg]
      rintro rfl
      rcases hsign with hsign | hsign <;> cases hsign
    have hnumber : NumberText (spaces ++ (sign ++ ds)) spaces sign ds [] := {
      text_eq := by rw [List.append_nil]
      spaces := hspaces
      sign := hsign.imp_right .inl
      digits := hport.digits
      nonempty := hport.nonempty
      rest := stops_nil }
    have hpos := hport.pos
    have hle := hport.le
    rw [parsePort_of_number hnumber, hvalue, if_pos (by unfold IsInt; omega), if_pos ⟨rfl, hpos, hle⟩]

/-- What `parse_port` leaves to the exception of `std::stoi`; of everything else that it does not read it says that it is
an invalid argument. -/
theorem parsePort_of_overflows {text : List Byte} (h : Overflows text) :
    parsePort text = .error (.outOfRange "stoi") := by
  obtain ⟨spaces, sign, ds, rest, hnumber, hint⟩ := h
  rw [parsePort_of_number hnumber, if_neg hint]

theorem parsePort_of_not_overflows {text : List Byte} (h : ¬ Overflows text) {e : Exn} (he : parsePort text = .error e) :
    ∃ what, e = .invalidArgument what := by
  rcases stoi_cases text with hstoi | ⟨spaces, sign, ds, rest, hnumber⟩
  · unfold parsePort at he
    rw [hstoi] at he
    split at he <;> exact ⟨_, (Except.error.inj he).symm⟩
  · have hint : IsInt (signed sign ds) := by
      by_contra hint
      exact h ⟨spaces, sign, ds, rest, hnumber, hint⟩
    rw [parsePort_of_number hnumber, if_pos hint] at he
    split_ifs at he
    exact ⟨_, (Except.error.inj he).symm⟩

end Xtd
