import Xtd.Json.Lexer
import Xtd.Sequence.Cut

/-!
# Requests as their receiver reads them

A strict receiver of requests in the version HTTP/1.1.  A line ends at CR LF and nowhere else, and holds no control byte
but tabs: a bare CR or LF or a NUL makes the request invalid.  The head is the request line, the fields and an empty line.
The method and the names are tokens, the target consists of visible ASCII characters and is not looked into any further,
blanks around a value do not belong to it, and there is one field `Host`.  The body has the length that one field
`Content-Length` says; there is no other way to delimit it here.

A head that was written is read back, with the blanks around its values gone, exactly if its target and values consist of
bytes that may stand there.
-/

namespace Http

open Json (isDigit digits)
open Sequence

/-! ### Bytes -/

/-- A byte of a line: anything but the control bytes, of which only the tab is allowed. -/
def isText (b : UInt8) : Bool := decide (b = 9 ∨ 32 ≤ b ∧ b ≠ 127)

def isVisible (b : UInt8) : Bool := decide (33 ≤ b ∧ b ≤ 126)

/-- The visible characters that cannot stand in a token. -/
def delimiters : List UInt8 := "\"(),/:;<=>?@[\\]\x7b\x7d".toList.map fun c => c.toNat.toUInt8

def isTokenByte (b : UInt8) : Bool := isVisible b && !delimiters.contains b

def isToken (text : List UInt8) : Bool := !text.isEmpty && text.all isTokenByte

def isBlank (b : UInt8) : Bool := decide (b = 32 ∨ b = 9)

def lower (b : UInt8) : UInt8 := if 65 ≤ b ∧ b ≤ 90 then b + 32 else b

/-! ### The receiver -/

/-- The number of line ends in a text. -/
def crlfs : List UInt8 → Nat
  | [] => 0
  | b :: rest => (if b = 13 ∧ rest.head? = some 10 then 1 else 0) + crlfs rest

/-- The lines up to the empty one, and what follows it; `acc` is the beginning of the first line.  What the lines consist
of is checked afterwards. -/
def readLines (acc : List UInt8) : List UInt8 → Option (List (List UInt8) × List UInt8)
  | [] => none
  | 13 :: 10 :: rest => if acc.isEmpty then some ([], rest) else (readLines [] rest).map fun x => (acc :: x.1, x.2)
  | b :: rest => readLines (acc ++ [b]) rest

/-- What is in front of the first separator and what is behind it. -/
def splitOnce (sep : UInt8) (l : List UInt8) : Option (List UInt8 × List UInt8) :=
  (l.idxOf? sep).map fun i => (l.take i, l.drop (i + 1))

/-- A value without the blanks around it. -/
def trim (value : List UInt8) : List UInt8 :=
  ((value.dropWhile isBlank).reverse.dropWhile isBlank).reverse

structure Head where
  method : List UInt8
  target : List UInt8
  version : List UInt8
  fields : List (List UInt8 × List UInt8)
  deriving DecidableEq

structure Request where
  head : Head
  body : List UInt8
  deriving DecidableEq

def supportedVersion : List UInt8 := "HTTP/1.1".toList.map fun c => c.toNat.toUInt8

/-- The method, the target and the version, with one blank between them. -/
def readRequestLine (line : List UInt8) : Option (List UInt8 × List UInt8 × List UInt8) := do
  let (method, rest) ← splitOnce 32 line
  let (target, version) ← splitOnce 32 rest
  if isToken method ∧ target ≠ [] ∧ target.all isVisible = true ∧ version = supportedVersion then
    return (method, target, version)
  else none

def readField (line : List UInt8) : Option (List UInt8 × List UInt8) := do
  let (name, value) ← splitOnce 58 line
  if isToken name then return (name, trim value) else none

/-- The fields of a name, which is given in small letters. -/
def fieldsOf (name : String) (fields : List (List UInt8 × List UInt8)) : List (List UInt8 × List UInt8) :=
  fields.filter fun field => field.1.map lower = name.toList.map fun c => c.toNat.toUInt8

/-- The length of the body, if exactly one field says it and nothing else does. -/
def bodyLength (fields : List (List UInt8 × List UInt8)) : Option Nat :=
  if fieldsOf "transfer-encoding" fields ≠ [] then none
  else
    match fieldsOf "content-length" fields with
    | [(_, value)] => if value.isEmpty || !value.all isDigit then none else some (digits value)
    | _ => none

/-- A text that is one request, up to its end. -/
def readRequest (text : List UInt8) : Option Request := do
  let (lines, rest) ← readLines [] text
  let line ← lines.head?
  let (method, target, version) ← readRequestLine line
  let fields ← lines.tail.mapM readField
  let length ← bodyLength fields
  if (lines.all fun line => line.all isText) = true ∧ (fieldsOf "host" fields).length = 1 ∧ rest.length = length then
    return ⟨⟨method, target, version, fields⟩, rest⟩
  else none

namespace Head

/-- The line of a field. -/
def fieldLine (field : List UInt8 × List UInt8) : List UInt8 := field.1 ++ 58 :: 32 :: field.2

def requestLine (h : Head) : List UInt8 := h.method ++ 32 :: (h.target ++ 32 :: h.version)

def lines (h : Head) : List (List UInt8) := h.requestLine :: h.fields.map fieldLine

/-- The text of the head. -/
def write (h : Head) : List UInt8 := (h.lines.flatMap fun line => line ++ [13, 10]) ++ [13, 10]

end Head

/-! ### Kinds of bytes -/

theorem isText_of_isVisible {b : UInt8} (h : isVisible b = true) : isText b = true := by
  simp only [isVisible, isText, decide_eq_true_eq, UInt8.le_iff_toNat_le, ne_eq, ← UInt8.toNat_inj] at h ⊢
  right
  change 33 ≤ b.toNat ∧ b.toNat ≤ 126 at h
  show 32 ≤ b.toNat ∧ ¬ b.toNat = 127
  omega

theorem ne_of_isText {b : UInt8} (h : isText b = true) : b ≠ 13 := by
  rintro rfl
  cases h

theorem ne_of_isVisible {b : UInt8} (h : isVisible b = true) : b ≠ 32 := by
  rintro rfl
  cases h

/-- The bytes of a token. -/
theorem isVisible_of_isToken {text : List UInt8} (h : isToken text = true) :
    text ≠ [] ∧ 58 ∉ text ∧ ∀ b ∈ text, isVisible b = true := by
  simp only [isToken, Bool.and_eq_true, Bool.not_eq_true', List.isEmpty_eq_false_iff, List.all_eq_true, isTokenByte] at h
  refine ⟨h.1, ?_, fun b hb => (h.2 b hb).1⟩
  intro hb
  have hcolon := (h.2 58 hb).2
  cases hcolon

/-! ### Line ends -/

theorem crlfs_append {a b : List UInt8} (h : a.getLast? ≠ some 13 ∨ b.head? ≠ some 10) :
    crlfs (a ++ b) = crlfs a + crlfs b := by
  induction a with
  | nil => simp [crlfs]
  | cons x a ih =>
    cases a with
    | nil =>
      have hx : ¬ (x = 13 ∧ b.head? = some 10) := by
        rintro ⟨rfl, hb⟩
        rcases h with h | h
        · exact h rfl
        · exact h hb
      simp [crlfs, hx]
    | cons y a =>
      have hlast : (y :: a).getLast? ≠ some 13 ∨ b.head? ≠ some 10 := by simpa using h
      have hrest := ih hlast
      rw [List.cons_append, crlfs, hrest, crlfs, ← Nat.add_assoc]
      rfl

theorem crlfs_eq_zero_of_forall {a : List UInt8} (h : ∀ b ∈ a, b ≠ 13) : crlfs a = 0 := by
  induction a with
  | nil => rfl
  | cons x a ih =>
    have hx : x ≠ 13 := h x List.mem_cons_self
    simp [crlfs, hx, ih (fun b hb => h b (List.mem_cons_of_mem _ hb))]

/-! ### Lines -/

private theorem readLines_cons {b : UInt8} {acc rest : List UInt8} (h : ¬ (b = 13 ∧ rest.head? = some 10)) :
    readLines acc (b :: rest) = readLines (acc ++ [b]) rest := by
  rw [readLines]
  rintro rest' rfl rfl
  exact h ⟨rfl, rfl⟩

/-- A line is read up to its end. -/
theorem readLines_line {line : List UInt8} (h : crlfs line = 0) (acc rest : List UInt8) :
    readLines acc (line ++ 13 :: 10 :: rest) = readLines (acc ++ line) (13 :: 10 :: rest) := by
  induction line generalizing acc with
  | nil => rw [List.nil_append, List.append_nil]
  | cons b line ih =>
    simp only [crlfs, Nat.add_eq_zero_iff] at h
    have hb : ¬ (b = 13 ∧ (line ++ 13 :: 10 :: rest).head? = some 10) := by
      rintro ⟨rfl, hhead⟩
      cases line with
      | nil => cases hhead
      | cons c line => simp_all
    rw [List.cons_append, readLines_cons hb, ih h.2]
    simp

/-- Lines are read up to the empty one. -/
theorem readLines_lines {lines : List (List UInt8)} (h : ∀ line ∈ lines, line ≠ [] ∧ crlfs line = 0)
    (rest : List UInt8) :
    readLines [] ((lines.flatMap fun line => line ++ [13, 10]) ++ 13 :: 10 :: rest) = some (lines, rest) := by
  induction lines with
  | nil => rfl
  | cons line lines ih =>
    obtain ⟨hne, hno⟩ := h line List.mem_cons_self
    have hrest := ih (fun l hl => h l (List.mem_cons_of_mem _ hl))
    have htext : ((line :: lines).flatMap fun line => line ++ [13, 10]) ++ 13 :: 10 :: rest =
        line ++ 13 :: 10 :: ((lines.flatMap fun line => line ++ [13, 10]) ++ 13 :: 10 :: rest) := by simp
    rw [htext, readLines_line hno, List.nil_append, readLines, if_neg (by simpa using hne), hrest]
    rfl

/-- What is read ends with the empty line, and has a line end for each line. -/
theorem crlfs_of_readLines {acc text rest : List UInt8} {lines : List (List UInt8)}
    (h : readLines acc text = some (lines, rest)) :
    crlfs text = lines.length + 1 + crlfs rest := by
  induction acc, text using readLines.induct generalizing lines with
  | case1 acc => cases h
  | case2 acc text hacc =>
    rw [readLines, if_pos hacc] at h
    cases h
    simp [crlfs]
  | case3 acc text hacc ih =>
    rw [readLines, if_neg hacc] at h
    obtain ⟨⟨lines', rest'⟩, hread, heq⟩ := Option.map_eq_some_iff.1 h
    cases heq
    have hcount : crlfs text = lines'.length + 1 + crlfs rest' := ih hread
    have hten : ¬ ((10 : UInt8) = 13 ∧ text.head? = some 10) := by simp
    have htext : crlfs (13 :: 10 :: text) = 1 + crlfs text := by
      rw [crlfs, if_pos ⟨rfl, rfl⟩, crlfs, if_neg hten, Nat.zero_add]
    rw [htext, hcount]
    simp only [List.length_cons]
    omega
  | case4 acc b text hne ih =>
    have hb : ¬ (b = 13 ∧ text.head? = some 10) := by
      rintro ⟨rfl, hhead⟩
      cases text with
      | nil => cases hhead
      | cons c text =>
        cases hhead
        exact hne text rfl rfl
    rw [readLines_cons hb] at h
    rw [crlfs, if_neg hb, ih h, Nat.zero_add]

/-! ### Parts of a line -/

theorem splitOnce_cut {sep : UInt8} {l : List UInt8} (h : sep ∉ l) (r : List UInt8) :
    splitOnce sep (l ++ sep :: r) = some (l, r) := by
  rw [splitOnce, idxOf?_cut h]
  simp

theorem trim_blank {b : UInt8} (hb : isBlank b = true) (value : List UInt8) : trim (b :: value) = trim value := by
  simp [trim, hb]

theorem readField_fieldLine {field : List UInt8 × List UInt8} (h : isToken field.1 = true) :
    readField (Head.fieldLine field) = some (field.1, trim field.2) := by
  have hblank : isBlank 32 = true := rfl
  rw [readField, Head.fieldLine, splitOnce_cut (isVisible_of_isToken h).2.1]
  simp [h, trim_blank hblank]

theorem readFields_fieldLines {fields : List (List UInt8 × List UInt8)} (h : ∀ field ∈ fields, isToken field.1 = true) :
    (fields.map Head.fieldLine).mapM readField = some (fields.map fun field => (field.1, trim field.2)) := by
  induction fields with
  | nil => rfl
  | cons field fields ih =>
    have hrest := ih (fun f hf => h f (List.mem_cons_of_mem _ hf))
    rw [List.map_cons, List.mapM_cons, readField_fieldLine (h field List.mem_cons_self), hrest]
    rfl

theorem length_of_mapM {α β : Type} {f : α → Option β} {l : List α} {l' : List β} (h : l.mapM f = some l') :
    l'.length = l.length := by
  induction l generalizing l' with
  | nil =>
    cases h
    rfl
  | cons a l ih =>
    rw [List.mapM_cons] at h
    cases hf : f a with
    | none => simp [hf] at h
    | some b =>
      cases hm : l.mapM f with
      | none => simp [hf, hm] at h
      | some bs =>
        simp only [hf, hm, Option.bind_eq_bind, Option.bind_some, Option.pure_def, Option.some.injEq] at h
        rw [← h, List.length_cons, List.length_cons, ih hm]

theorem readRequestLine_eq_some {line method target version : List UInt8}
    (h : readRequestLine line = some (method, target, version)) : target ≠ [] ∧ ∀ b ∈ target, isVisible b = true := by
  simp only [readRequestLine, Option.bind_eq_bind, Option.bind_eq_some_iff, Option.pure_def] at h
  obtain ⟨⟨m, rest⟩, -, ⟨t, v⟩, -, h⟩ := h
  split at h
  · rename_i hchecks
    cases h
    exact ⟨hchecks.2.1, List.all_eq_true.1 hchecks.2.2.1⟩
  · cases h

/-- What a request that was read is made of. -/
theorem readRequest_eq_some {text : List UInt8} {r : Request} (h : readRequest text = some r) :
    ∃ line fields, readLines [] text = some (line :: fields, r.body) ∧
      readRequestLine line = some (r.head.method, r.head.target, r.head.version) ∧
      fields.mapM readField = some r.head.fields ∧ ∀ l ∈ line :: fields, ∀ b ∈ l, isText b = true := by
  simp only [readRequest, Option.bind_eq_bind, Option.bind_eq_some_iff, Option.pure_def] at h
  obtain ⟨⟨lines, rest⟩, hlines, line, hline, ⟨method, target, version⟩, hparts, fields, hfields, length, -, h⟩ := h
  split at h
  · rename_i hchecks
    cases h
    cases lines with
    | nil => cases hline
    | cons l lines =>
      cases hline
      exact ⟨line, lines, hlines, hparts, hfields, fun l hl => List.all_eq_true.1 (List.all_eq_true.1 hchecks.1 l hl)⟩
  · cases h

/-! ### Heads -/

/-- The parts of a head that are known to be in order: what is written around the target and the values. -/
structure Head.Sound (h : Head) : Prop where
  method : isToken h.method = true
  version : h.version = supportedVersion
  names : ∀ field ∈ h.fields, isToken field.1 = true

/-- A head whose values have no blanks around them, as it is read. -/
def Head.trimmed (h : Head) : Head := { h with fields := h.fields.map fun field => (field.1, trim field.2) }

variable {h : Head} {body : List UInt8}

private theorem crlfs_of_isToken {text : List UInt8} (h : isToken text = true) : crlfs text = 0 :=
  crlfs_eq_zero_of_forall fun b hb => ne_of_isText (isText_of_isVisible ((isVisible_of_isToken h).2.2 b hb))

private theorem crlfs_requestLine (hs : h.Sound) : crlfs h.requestLine = crlfs h.target := by
  have hversion : crlfs (32 :: h.version) = 0 := by
    rw [hs.version]
    rfl
  have htarget : crlfs (32 :: (h.target ++ 32 :: h.version)) = crlfs h.target := by
    have hspace : crlfs (h.target ++ 32 :: h.version) = crlfs h.target := by
      rw [crlfs_append (.inr (by simp)), hversion, Nat.add_zero]
    simp [crlfs, hspace]
  rw [Head.requestLine, crlfs_append (.inr (by simp)), crlfs_of_isToken hs.method, htarget, Nat.zero_add]

private theorem crlfs_fieldLine {field : List UInt8 × List UInt8} (hf : isToken field.1 = true) :
    crlfs (Head.fieldLine field) = crlfs field.2 := by
  rw [Head.fieldLine, crlfs_append (.inr (by simp)), crlfs_of_isToken hf]
  simp [crlfs]

/-- The line ends of a head: one for each line and those that its parts bring with them. -/
private theorem crlfs_lines (lines : List (List UInt8)) :
    crlfs ((lines.flatMap fun line => line ++ [13, 10]) ++ [13, 10]) =
      (lines.map crlfs).sum + lines.length + 1 := by
  have hend : crlfs [13, 10] = 1 := rfl
  induction lines with
  | nil => rfl
  | cons line lines ih =>
    have htext : ((line :: lines).flatMap fun line => line ++ [13, 10]) ++ [13, 10] =
        line ++ ([13, 10] ++ ((lines.flatMap fun line => line ++ [13, 10]) ++ [13, 10])) := by simp
    rw [htext, crlfs_append (.inr (by simp)), crlfs_append (.inl (by simp)), ih, hend, List.map_cons, List.sum_cons,
      List.length_cons]
    omega

private theorem crlfs_write (hs : h.Sound) :
    crlfs h.write = crlfs h.target + (h.fields.map fun field => crlfs field.2).sum + (h.fields.length + 2) := by
  have hfields : (h.fields.map Head.fieldLine).map crlfs = h.fields.map fun field => crlfs field.2 := by
    rw [List.map_map]
    exact List.map_congr_left (fun field hf => crlfs_fieldLine (hs.names field hf))
  rw [Head.write, crlfs_lines, Head.lines, List.map_cons, List.sum_cons, crlfs_requestLine hs, hfields, List.length_cons,
    List.length_map]
  omega

/-- A head without stray line ends is taken apart into its lines. -/
private theorem readLines_write (hs : h.Sound) (ht : crlfs h.target = 0) (hv : ∀ field ∈ h.fields, crlfs field.2 = 0) :
    readLines [] (h.write ++ body) = some (h.lines, body) := by
  have htext : h.write ++ body = (h.lines.flatMap fun line => line ++ [13, 10]) ++ 13 :: 10 :: body := by
    simp [Head.write]
  rw [htext]
  refine readLines_lines ?_ body
  intro line hline
  rcases List.mem_cons.1 hline with rfl | hline
  · refine ⟨?_, by rw [crlfs_requestLine hs, ht]⟩
    simp [Head.requestLine]
  · obtain ⟨field, hf, rfl⟩ := List.mem_map.1 hline
    refine ⟨?_, by rw [crlfs_fieldLine (hs.names field hf), hv field hf]⟩
    simp [Head.fieldLine]

/-- The lines of a head consist of text if its target and values do. -/
private theorem isText_lines (hs : h.Sound) (ht : ∀ b ∈ h.target, isVisible b = true)
    (hv : ∀ field ∈ h.fields, ∀ b ∈ field.2, isText b = true) : ∀ line ∈ h.lines, ∀ b ∈ line, isText b = true := by
  have htoken : ∀ {text : List UInt8}, isToken text = true → ∀ b ∈ text, isText b = true :=
    fun h b hb => isText_of_isVisible ((isVisible_of_isToken h).2.2 b hb)
  have hversion : ∀ b ∈ h.version, isText b = true := by
    rw [hs.version]
    exact List.all_eq_true.1 rfl
  rw [Head.lines, List.forall_mem_cons, List.forall_mem_map]
  constructor
  · rw [Head.requestLine, List.forall_mem_append, List.forall_mem_cons, List.forall_mem_append, List.forall_mem_cons]
    exact ⟨htoken hs.method, rfl, fun b hb => isText_of_isVisible (ht b hb), rfl, hversion⟩
  · intro field hf
    rw [Head.fieldLine, List.forall_mem_append, List.forall_mem_cons, List.forall_mem_cons]
    exact ⟨htoken (hs.names field hf), rfl, rfl, hv field hf⟩

/-- What is written is read back, with the values trimmed, exactly if the target consists of visible characters and the
values of text. -/
theorem readRequest_write_iff (hs : h.Sound) (hhost : (fieldsOf "host" h.trimmed.fields).length = 1)
    (hlen : bodyLength h.trimmed.fields = some body.length) :
    readRequest (h.write ++ body) = some ⟨h.trimmed, body⟩ ↔
      (h.target ≠ [] ∧ ∀ b ∈ h.target, isVisible b = true) ∧ ∀ field ∈ h.fields, ∀ b ∈ field.2, isText b = true := by
  constructor
  · intro hread
    obtain ⟨line, fields, hlines, hline, hfields, htext⟩ := readRequest_eq_some hread
    refine ⟨readRequestLine_eq_some hline, ?_⟩
    -- the line ends of the text are those of the lines that were read, so none is left for the parts
    have hcount := crlfs_of_readLines hlines
    have hlast : h.write.getLast? ≠ some 13 := by simp [Head.write]
    have hfs : fields.length = h.fields.length := by
      rw [← length_of_mapM hfields]
      exact List.length_map ..
    rw [crlfs_append (.inl hlast), crlfs_write hs, List.length_cons, hfs] at hcount
    have hzero : crlfs h.target = 0 ∧ (h.fields.map fun field => crlfs field.2).sum = 0 := by
      dsimp only at hcount
      omega
    have hvalues : ∀ field ∈ h.fields, crlfs field.2 = 0 :=
      fun field hf => List.sum_eq_zero_iff.1 hzero.2 _ (List.mem_map_of_mem hf)
    -- so the lines that were read are those that were written
    rw [readLines_write hs hzero.1 hvalues, Option.some.injEq, Prod.mk.injEq] at hlines
    rw [← hlines.1] at htext
    intro field hf b hb
    refine htext (Head.fieldLine field) (List.mem_cons_of_mem _ (List.mem_map_of_mem hf)) b ?_
    exact List.mem_append_right _ (List.mem_cons_of_mem _ (List.mem_cons_of_mem _ hb))
  · rintro ⟨⟨hne, ht⟩, hv⟩
    have hblank : 32 ∉ h.target := fun hb => ne_of_isVisible (ht _ hb) rfl
    have hmethod : 32 ∉ h.method := fun hb => ne_of_isVisible ((isVisible_of_isToken hs.method).2.2 _ hb) rfl
    have hrequest : readRequestLine h.requestLine = some (h.method, h.target, h.version) := by
      rw [readRequestLine, Head.requestLine, splitOnce_cut hmethod]
      simpa [splitOnce_cut hblank, hs.method, hs.version, hne] using ht
    have hfields := readFields_fieldLines hs.names
    have hlines : readLines [] (h.write ++ body) = some (h.lines, body) :=
      readLines_write hs (crlfs_eq_zero_of_forall fun b hb => ne_of_isText (isText_of_isVisible (ht b hb)))
        (fun field hf => crlfs_eq_zero_of_forall fun b hb => ne_of_isText (hv field hf b hb))
    have htext : (h.lines.all fun line => line.all isText) = true :=
      List.all_eq_true.2 fun line hl => List.all_eq_true.2 (isText_lines hs ht hv line hl)
    rw [readRequest, hlines]
    simp only [Option.bind_eq_bind, Option.bind_some, htext]
    simp only [Head.lines, List.head?_cons, List.tail_cons, Option.bind_some, hrequest, hfields]
    have hhost' : (fieldsOf "host" (h.fields.map fun field => (field.1, trim field.2))).length = 1 := hhost
    have hlen' : bodyLength (h.fields.map fun field => (field.1, trim field.2)) = some body.length := hlen
    simp [hlen', hhost', Head.trimmed]

end Http
