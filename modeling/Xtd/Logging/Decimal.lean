import Xtd.Json.Lexer
import Xtd.Logging.Serializer

/-!
# Printed numbers

The bytes of a number in decimal: they are digits, with the value of the number.
-/

namespace Xtd

open Json

private theorem digit_of_char {c : Char} (h : c.isDigit = true) :
    isDigit c.toNat.toUInt8 = true ∧ c.toNat.toUInt8.toNat = c.toNat := by
  have hall : ∀ n < 58, 48 ≤ n → isDigit n.toUInt8 = true ∧ n.toUInt8.toNat = n := by decide
  simp only [Char.isDigit, Bool.and_eq_true, decide_eq_true_eq] at h
  have hle : c.toNat ≤ 57 := h.2
  exact hall c.toNat (by omega) h.1

private theorem digits_of_chars {cs : List Char} (h : ∀ c ∈ cs, c.isDigit = true) (n : Nat) :
    (cs.map fun c => c.toNat.toUInt8).foldl (fun n d => 10 * n + (d.toNat - 48)) n = Nat.ofDigitChars 10 cs n := by
  induction cs generalizing n with
  | nil => rw [Nat.ofDigitChars_nil, List.map_nil, List.foldl_nil]
  | cons c cs ih =>
    have hc := (digit_of_char (h c List.mem_cons_self)).2
    rw [List.map_cons, List.foldl_cons, ih (fun c hc => h c (List.mem_cons_of_mem _ hc)), Nat.ofDigitChars_cons, hc]
    rfl

/-- A number that is printed is read back. -/
theorem digits_toString (n : Nat) : (∀ b ∈ ascii (toString n), isDigit b = true) ∧ ascii (toString n) ≠ [] ∧
    digits (ascii (toString n)) = n := by
  have hchars : ∀ c ∈ Nat.toDigits 10 n, c.isDigit = true :=
    fun c hc => Nat.isDigit_of_mem_toDigits (by decide) (by decide) hc
  unfold ascii
  rw [Nat.toString_eq_repr, Nat.toList_repr]
  refine ⟨?_, ?_, ?_⟩
  · intro b hb
    obtain ⟨c, hc, rfl⟩ := List.mem_map.1 hb
    exact (digit_of_char (hchars c hc)).1
  · rw [Ne, List.map_eq_nil_iff]
    exact Nat.toDigits_ne_nil
  · rw [digits, digits_of_chars hchars, Nat.ofDigitChars_ten_toDigits]

/-! ### In strings -/

theorem plain_of_isDigit {b : Byte} (h : isDigit b = true) : Plain b := by
  have hall : ∀ n < 58, 48 ≤ n → Plain n.toUInt8 := by decide
  obtain ⟨h1, h2⟩ := of_decide_eq_true h
  have hb := hall b.toNat (Nat.lt_succ_of_le h2) h1
  rwa [Nat.toUInt8_eq, UInt8.ofNat_toNat] at hb

theorem plain_nat (n : Nat) : ∀ b ∈ ascii (toString n), Plain b :=
  fun b hb => plain_of_isDigit ((digits_toString n).1 b hb)

theorem plain_int (i : Int) : ∀ b ∈ ascii (toString i), Plain b := by
  cases i with
  | ofNat n => exact plain_nat n
  | negSucc n =>
    have hminus : ascii (toString (Int.negSucc n)) = 45 :: ascii (toString (n + 1)) := by
      unfold ascii
      rw [Int.toString_eq_repr, Int.repr, String.toList_append]
      rfl
    intro b hb
    rw [hminus] at hb
    rcases List.mem_cons.1 hb with rfl | hb
    · decide
    · exact plain_nat (n + 1) b hb

end Xtd
