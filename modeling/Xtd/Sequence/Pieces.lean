import Mathlib

/-!
# Lists in pieces

A list that is kept as a list of pieces.  `dropPieces` and `takePieces` drop and take elements at the front and leave the
pieces in the middle as they are, so that the pieces that are cut are cut as `drop` and `take` cut them; they compose as
`drop` and `take` do, also in how the result is cut into pieces.
-/

namespace Sequence

variable {α : Type} {l : List (List α)} {m n : Nat}

/-- Drop `n` elements at the front. -/
def dropPieces : Nat → List (List α) → List (List α)
  | _, [] => []
  | n, s :: l => if s.length ≤ n then dropPieces (n - s.length) l else s.drop n :: l

/-- Take `n` elements at the front. -/
def takePieces : Nat → List (List α) → List (List α)
  | _, [] => []
  | n, s :: l => if n = 0 then [] else s.take n :: takePieces (n - s.length) l

@[simp] theorem takePieces_zero (l : List (List α)) : takePieces 0 l = [] := by cases l <;> rfl

theorem dropPieces_zero (h : ∀ s ∈ l, s ≠ []) : dropPieces 0 l = l := by
  cases l with
  | nil => rfl
  | cons s l =>
    have := List.length_pos_of_ne_nil (h s (by simp))
    rw [dropPieces, if_neg (by omega), List.drop_zero]

theorem flatten_dropPieces (n : Nat) (l : List (List α)) : (dropPieces n l).flatten = l.flatten.drop n := by
  induction l generalizing n with
  | nil => simp [dropPieces]
  | cons s l ih =>
    unfold dropPieces
    split
    · rename_i h
      rw [ih, List.flatten_cons, List.drop_append, List.drop_of_length_le h, List.nil_append]
    · rw [List.flatten_cons, List.flatten_cons, List.drop_append_of_le_length (by omega)]

theorem flatten_takePieces (n : Nat) (l : List (List α)) : (takePieces n l).flatten = l.flatten.take n := by
  induction l generalizing n with
  | nil => simp [takePieces]
  | cons s l ih =>
    unfold takePieces
    split
    · rename_i h
      simp [h]
    · rw [List.flatten_cons, List.flatten_cons, ih, List.take_append]

theorem dropPieces_ne_nil (h : ∀ s ∈ l, s ≠ []) (n : Nat) : ∀ s ∈ dropPieces n l, s ≠ [] := by
  induction l generalizing n with
  | nil => exact h
  | cons s l ih =>
    have ht : ∀ x ∈ l, x ≠ [] := fun x hx => h x (by simp [hx])
    unfold dropPieces
    split
    · exact ih ht _
    · rename_i hlt
      intro x hx
      rcases List.mem_cons.1 hx with rfl | hx
      · rw [Ne, List.drop_eq_nil_iff]
        exact hlt
      · exact ht x hx

theorem takePieces_ne_nil (h : ∀ s ∈ l, s ≠ []) (n : Nat) : ∀ s ∈ takePieces n l, s ≠ [] := by
  induction l generalizing n with
  | nil => exact h
  | cons s l ih =>
    unfold takePieces
    split
    · simp
    · rename_i hn
      intro x hx
      rcases List.mem_cons.1 hx with rfl | hx
      · rw [Ne, List.take_eq_nil_iff]
        rintro (h0 | h0)
        · exact hn h0
        · exact h s (by simp) h0
      · exact ih (fun x hx => h x (by simp [hx])) _ x hx

/-- Taking all elements takes all non-empty pieces. -/
theorem takePieces_of_length_le (h : ∀ s ∈ l, s ≠ []) (hn : l.flatten.length ≤ n) : takePieces n l = l := by
  induction l generalizing n with
  | nil => rfl
  | cons s l ih =>
    have hs := List.length_pos_of_ne_nil (h s (by simp))
    rw [List.flatten_cons, List.length_append] at hn
    rw [takePieces, if_neg (by omega), List.take_of_length_le (by omega),
      ih (fun x hx => h x (by simp [hx])) (by omega)]

theorem dropPieces_dropPieces (m n : Nat) (l : List (List α)) :
    dropPieces m (dropPieces n l) = dropPieces (n + m) l := by
  induction l generalizing n with
  | nil => rfl
  | cons s l ih =>
    by_cases hs : s.length ≤ n
    · rw [dropPieces, if_pos hs, ih, dropPieces, if_pos (by omega)]
      congr 1
      omega
    · rw [dropPieces, if_neg hs, dropPieces, dropPieces, List.length_drop]
      by_cases hs' : s.length ≤ n + m
      · rw [if_pos (by omega), if_pos hs']
        congr 1
        omega
      · rw [if_neg (by omega), if_neg hs', List.drop_drop]

theorem takePieces_takePieces (m n : Nat) (l : List (List α)) :
    takePieces m (takePieces n l) = takePieces (min m n) l := by
  induction l generalizing m n with
  | nil => rfl
  | cons s l ih =>
    by_cases hn : n = 0
    · simp [hn, takePieces]
    by_cases hm : m = 0
    · simp [hm]
    rw [takePieces, if_neg hn, takePieces, if_neg hm, takePieces, if_neg (by omega), ih, List.take_take,
      List.length_take]
    congr 2
    omega

/-- Elements are dropped from what is taken, or fewer are taken from what is left. -/
theorem dropPieces_takePieces (m n : Nat) (l : List (List α)) :
    dropPieces m (takePieces n l) = takePieces (n - m) (dropPieces m l) := by
  induction l generalizing m n with
  | nil => rfl
  | cons s l ih =>
    by_cases hn : n = 0
    · simp [hn, takePieces, dropPieces]
    rw [takePieces, if_neg hn, dropPieces, dropPieces, List.length_take]
    by_cases hs : s.length ≤ m
    · -- the piece is dropped as a whole
      rw [if_pos (by omega), if_pos hs, ih]
      by_cases hle : s.length ≤ n
      · rw [Nat.min_eq_right hle, Nat.sub_sub_sub_cancel_right hs]
      · rw [show n - s.length - (m - min n s.length) = 0 by omega, show n - m = 0 by omega, takePieces_zero,
          takePieces_zero]
    · rw [if_neg hs]
      by_cases hnm : n ≤ m
      · rw [if_pos (by omega), ih, show n - s.length - (m - min n s.length) = 0 by omega, show n - m = 0 by omega,
          takePieces_zero, takePieces_zero]
      · rw [if_neg (by omega), takePieces, if_neg (by omega), List.drop_take, List.length_drop]
        congr 2
        omega

end Sequence
