import Xtd.Json.Strings
import Xtd.Logging.Serializer

/-!
# Escaped strings

`escape_json` (`otel_serializer.h`) as an encoder of the strings of JSON: a byte becomes a byte that stands for itself or
one escape sequence, so that the text can be taken apart again.
-/

namespace Xtd

open Json

namespace OtelSerializer

/-- What the escape of a byte is read as. -/
def piece (c : Byte) : Piece :=
  if c < 32 ∧ c ≠ 8 ∧ c ≠ 9 ∧ c ≠ 10 ∧ c ≠ 12 ∧ c ≠ 13 then .unit c.toNat else .byte c

private theorem hexValue_hexDigit : ∀ n < 16, hexValue? (hexDigit n) = some n := by decide

/-- One turn of the loop appends a byte or one escape sequence. -/
theorem exists_item (c : Byte) : ∃ item : StringItem, item.text = escapeByte c ∧ item.piece = piece c := by
  unfold escapeByte
  split_ifs with h1 h2 h3 h4 h5 h6 h7 h8
  · subst h1; exact ⟨.escape 34 34 rfl, rfl, rfl⟩
  · subst h2; exact ⟨.escape 92 92 rfl, rfl, rfl⟩
  · subst h3; exact ⟨.escape 98 8 rfl, rfl, rfl⟩
  · subst h4; exact ⟨.escape 102 12 rfl, rfl, rfl⟩
  · subst h5; exact ⟨.escape 110 10 rfl, rfl, rfl⟩
  · subst h6; exact ⟨.escape 114 13 rfl, rfl, rfl⟩
  · subst h7; exact ⟨.escape 116 9 rfl, rfl, rfl⟩
  · have hlt : c.toNat < 32 := h8
    have hvalue : 16 * (16 * (16 * 0 + 0) + c.toNat / 16) + c.toNat % 16 = c.toNat := by omega
    refine ⟨.unicode ⟨48, 0, rfl⟩ ⟨48, 0, rfl⟩ ⟨hexDigit (c.toNat / 16), _, hexValue_hexDigit _ (by omega)⟩
      ⟨hexDigit (c.toNat % 16), _, hexValue_hexDigit _ (by omega)⟩, rfl, ?_⟩
    rw [piece, if_pos ⟨h8, h3, h7, h5, h4, h6⟩, StringItem.piece, hvalue]
  · refine ⟨.plain c ⟨h1, h2, h8⟩, rfl, ?_⟩
    rw [piece, if_neg (fun h => h8 h.1)]
    rfl

theorem exists_items (value : List Byte) : ∃ items : List StringItem,
    items.flatMap StringItem.text = escapeJson value ∧ items.map StringItem.piece = value.map piece := by
  induction value with
  | nil => exact ⟨[], rfl, rfl⟩
  | cons c value ih =>
    obtain ⟨item, htext, hpiece⟩ := exists_item c
    obtain ⟨items, htexts, hpieces⟩ := ih
    refine ⟨item :: items, ?_, ?_⟩
    · rw [List.flatMap_cons, htext, htexts]
      rfl
    · rw [List.map_cons, List.map_cons, hpiece, hpieces]

theorem reads_escapeJson (ps : List Piece) (value : List Byte) :
    Reads (.string ps) (escapeJson value) [] (.string (ps ++ value.map piece)) := by
  obtain ⟨items, htexts, hpieces⟩ := exists_items value
  rw [← htexts, ← hpieces]
  exact reads_items ps items

theorem content_pieces (value : List Byte) (ps : List Piece) : content (value.map piece ++ ps) = value ++ content ps := by
  induction value with
  | nil => rfl
  | cons c value ih =>
    rw [List.map_cons, List.cons_append, List.cons_append, ← ih, piece]
    split_ifs with h
    · have hlt : c.toNat < 32 := h.1
      have hhigh : isHighSurrogate c.toNat = false := by
        simp [isHighSurrogate]
        omega
      have hscalar : scalar c.toNat = c.toNat := by
        simp [scalar, hhigh, isLowSurrogate]
        omega
      rw [content_unit _ hhigh, hscalar, utf8, if_pos (by omega)]
      simp
    · rw [content]

theorem spells_escapeJson (value : List Byte) : Spells (escapeJson value) value := by
  refine ⟨_, reads_escapeJson [] value, ?_⟩
  have hc := content_pieces value []
  rw [List.append_nil] at hc
  rw [List.nil_append, hc, content, List.append_nil]

/-- The file name is escaped, and plain bytes follow it. -/
theorem spells_escapeJson_append (value : List Byte) {xs : List Byte} (h : ∀ b ∈ xs, Plain b) :
    Spells (escapeJson value ++ xs) (value ++ xs) := by
  refine ⟨_, (reads_escapeJson [] value).append (reads_plain _ h), ?_⟩
  have hc := content_bytes xs []
  rw [List.append_nil] at hc
  rw [List.nil_append, content_pieces, hc, content, List.append_nil]

/-- `escape_json` is an encoder of the strings of JSON.  What it makes of a string is a text of bytes that stand for
themselves and of escape sequences in one way, is one string between quotes, and gives the string back; distinct strings
have distinct texts, and a string in two pieces has the texts of the pieces. -/
theorem escape_json_encodes :
    (∀ value, (∃! items : List StringItem, items.flatMap StringItem.text = escapeJson value) ∧
      (∀ items : List StringItem, items.flatMap StringItem.text = escapeJson value →
        StringItem.unescape items = value) ∧
      lex (34 :: (escapeJson value ++ [34])) = some [.string value]) ∧
    Function.Injective escapeJson ∧
    ∀ value value', escapeJson (value ++ value') = escapeJson value ++ escapeJson value' := by
  have hitems : ∀ value, ∃ items : List StringItem, items.flatMap StringItem.text = escapeJson value ∧
      StringItem.unescape items = value := by
    intro value
    obtain ⟨items, htexts, hpieces⟩ := exists_items value
    have hc := content_pieces value []
    rw [List.append_nil, content, List.append_nil] at hc
    exact ⟨items, htexts, by rw [StringItem.unescape, hpieces, hc]⟩
  refine ⟨?_, ?_, ?_⟩
  · intro value
    obtain ⟨items, htexts, hvalue⟩ := hitems value
    refine ⟨⟨items, htexts, ?_⟩, ?_, ?_⟩
    · intro items' htexts'
      exact flatMap_text_injective (htexts'.trans htexts.symm)
    · intro items' htexts'
      rw [flatMap_text_injective (htexts'.trans htexts.symm), hvalue]
    · rw [← htexts, lex_items, hvalue]
  · intro value value' hsame
    obtain ⟨items, htexts, hvalue⟩ := hitems value
    obtain ⟨items', htexts', hvalue'⟩ := hitems value'
    rw [← hvalue, ← hvalue', flatMap_text_injective ((htexts.trans hsame).trans htexts'.symm)]
  · intro value value'
    exact List.flatMap_append

end OtelSerializer

end Xtd
