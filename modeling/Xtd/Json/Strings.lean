import Xtd.Json.Lexer

/-!
# Texts of strings

What can stand between the quotes of a string: bytes that stand for themselves, escapes of two bytes, and escapes with four
hexadecimal digits.  A text is made of such items in at most one way, and between quotes it is one string.
-/

namespace Json

structure HexDigit where
  byte : UInt8
  value : Nat
  value_eq : hexValue? byte = some value

/-- What stands for one byte or code unit of a string. -/
inductive StringItem
  | plain (b : UInt8) (h : Plain b)
  | escape (b c : UInt8) (h : escaped? b = some c)
  | unicode (d₃ d₂ d₁ d₀ : HexDigit)

namespace StringItem

def text : StringItem → List UInt8
  | plain b _ => [b]
  | escape b _ _ => [92, b]
  | unicode d₃ d₂ d₁ d₀ => [92, 117, d₃.byte, d₂.byte, d₁.byte, d₀.byte]

def piece : StringItem → Piece
  | plain b _ => .byte b
  | escape _ c _ => .byte c
  | unicode d₃ d₂ d₁ d₀ => .unit (16 * (16 * (16 * d₃.value + d₂.value) + d₁.value) + d₀.value)

/-- The string that the items stand for. -/
def unescape (items : List StringItem) : List UInt8 := content (items.map piece)

end StringItem

open StringItem

variable {items items' : List StringItem} {xs xs' : List UInt8}

theorem HexDigit.eq_of_byte {d d' : HexDigit} (h : d.byte = d'.byte) : d = d' := by
  obtain ⟨b, n, hn⟩ := d
  obtain ⟨b', n', hn'⟩ := d'
  dsimp only at h
  subst h
  rw [hn] at hn'
  cases hn'
  rfl

/-- The first bytes of a text decide which item they are. -/
theorem StringItem.text_append_inj {item item' : StringItem} (h : item.text ++ xs = item'.text ++ xs') :
    item = item' ∧ xs = xs' := by
  cases item with
  | plain b hb =>
    cases item' with
    | plain b' hb' =>
      cases h
      exact ⟨rfl, rfl⟩
    | escape b' c' hc' => exact absurd (List.cons.inj h).1 hb.2.1
    | unicode d₃ d₂ d₁ d₀ => exact absurd (List.cons.inj h).1 hb.2.1
  | escape b c hc =>
    cases item' with
    | plain b' hb' => exact absurd (List.cons.inj h).1.symm hb'.2.1
    | escape b' c' hc' =>
      obtain ⟨rfl, rfl⟩ := List.cons.inj (List.cons.inj h).2
      rw [hc] at hc'
      cases hc'
      exact ⟨rfl, rfl⟩
    | unicode d₃ d₂ d₁ d₀ =>
      -- `u` is not the second byte of a short escape
      rw [(List.cons.inj (List.cons.inj h).2).1] at hc
      cases hc
  | unicode d₃ d₂ d₁ d₀ =>
    cases item' with
    | plain b' hb' => exact absurd (List.cons.inj h).1.symm hb'.2.1
    | escape b' c' hc' =>
      rw [← (List.cons.inj (List.cons.inj h).2).1] at hc'
      cases hc'
    | unicode e₃ e₂ e₁ e₀ =>
      simp only [text, List.cons_append, List.nil_append, List.cons.injEq, true_and] at h
      obtain ⟨h₃, h₂, h₁, h₀, htail⟩ := h
      rw [HexDigit.eq_of_byte h₃, HexDigit.eq_of_byte h₂, HexDigit.eq_of_byte h₁, HexDigit.eq_of_byte h₀]
      exact ⟨rfl, htail⟩

theorem StringItem.text_ne_nil (item : StringItem) : item.text ≠ [] := by
  cases item <;> exact List.cons_ne_nil _ _

/-- A text is made of items in at most one way. -/
theorem flatMap_text_injective (h : items.flatMap text = items'.flatMap text) : items = items' := by
  induction items generalizing items' with
  | nil =>
    cases items' with
    | nil => rfl
    | cons item' items' => exact absurd (List.append_eq_nil_iff.1 h.symm).1 item'.text_ne_nil
  | cons item items ih =>
    cases items' with
    | nil => exact absurd (List.append_eq_nil_iff.1 h).1 item.text_ne_nil
    | cons item' items' =>
      obtain ⟨rfl, htail⟩ := StringItem.text_append_inj h
      rw [ih htail]

/-! ### Reading the items -/

theorem reads_item (ps : List Piece) (item : StringItem) :
    Reads (.string ps) item.text [] (.string (ps ++ [item.piece])) := by
  cases item with
  | plain b hb =>
    have hplain : ∀ c ∈ [b], Plain c := by simpa using hb
    exact reads_plain ps hplain
  | escape b c hc =>
    have hu : b ≠ 117 := by
      rintro rfl
      cases hc
    have hback : stringStep ps 92 = some (.escape ps, []) := rfl
    simp [Reads, run, step, text, piece, hback, hu, hc]
  | unicode d₃ d₂ d₁ d₀ =>
    have hback : stringStep ps 92 = some (.escape ps, []) := rfl
    simp [Reads, run, step, text, piece, hback, d₃.value_eq, d₂.value_eq, d₁.value_eq, d₀.value_eq]

theorem reads_items (ps : List Piece) (items : List StringItem) :
    Reads (.string ps) (items.flatMap text) [] (.string (ps ++ items.map piece)) := by
  induction items generalizing ps with
  | nil =>
    rw [List.map_nil, List.append_nil]
    rfl
  | cons item items ih =>
    have hrest := ih (ps ++ [item.piece])
    rw [List.append_assoc] at hrest
    exact (reads_item ps item).append hrest

/-- Between quotes the items are one string. -/
theorem lex_items (items : List StringItem) :
    lex (34 :: (items.flatMap text ++ [34])) = some [.string (unescape items)] := by
  have hopen : Reads .blank [34] [] (.string []) := rfl
  have hclose : Reads (.string ([] ++ items.map piece)) [34] [.string (unescape items)] .blank := rfl
  exact lex_eq_some_iff.2 ⟨_, _, [], hopen.append ((reads_items [] items).append hclose), rfl, rfl⟩

end Json
