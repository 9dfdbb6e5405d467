import Mathlib

/-!
# Searching for a sequence

The first place at which a non-empty sequence occurs in a list (`std::search`), and how it is found by searching windows
of the list one after the other: once the sequence is known not to occur before a window, its first occurrence in the
window is the first of all, and if the window has none the places ruled out reach up to where a window of that size ends.
-/

namespace Sequence

variable {α : Type} [DecidableEq α] {p l : List α} {i k m : Nat}

/-- The sequence `p` occurs in `l` from the place `i` on. -/
def OccursAt (p l : List α) (i : Nat) : Prop := p <+: l.drop i

/-- The first place at which `p` occurs. -/
def search (p : List α) : List α → Option Nat
  | [] => if p.isEmpty then some 0 else none
  | x :: l => if p.isPrefixOf (x :: l) then some 0 else (search p l).map (· + 1)

/-- The sequence does not occur from a place before `k` on. -/
def NoneBefore (p l : List α) (k : Nat) : Prop := ∀ j, j < k → ¬ OccursAt p l j

omit [DecidableEq α] in
theorem noneBefore_zero (p l : List α) : NoneBefore p l 0 := fun _ hj => absurd hj (Nat.not_lt_zero _)

omit [DecidableEq α] in
theorem NoneBefore.mono (h : NoneBefore p l m) (hk : k ≤ m) : NoneBefore p l k :=
  fun j hj => h j (Nat.lt_of_lt_of_le hj hk)

omit [DecidableEq α] in
/-- An occurrence in a window is an occurrence in the list that ends within the window. -/
theorem occursAt_window : OccursAt p ((l.drop k).take m) i ↔ OccursAt p l (k + i) ∧ p.length ≤ m - i := by
  unfold OccursAt
  rw [List.drop_take, List.drop_drop, List.prefix_take_iff]

omit [DecidableEq α] in
private theorem not_occursAt_of_length (hp : p ≠ []) (hi : l.length ≤ i) : ¬ OccursAt p l i := by
  intro h
  have h1 := h.length_le
  have h2 := List.length_pos_of_ne_nil hp
  rw [List.length_drop] at h1
  omega

omit [DecidableEq α] in
private theorem occursAt_cons_succ (x : α) : OccursAt p (x :: l) (i + 1) ↔ OccursAt p l i := Iff.rfl

theorem search_spec (p l : List α) :
    (∀ i, search p l = some i → OccursAt p l i ∧ NoneBefore p l i) ∧
      (search p l = none → p ≠ [] ∧ ∀ i, ¬ OccursAt p l i) := by
  induction l with
  | nil =>
    unfold search
    by_cases hp : p = []
    · subst hp
      simp [OccursAt, noneBefore_zero]
    · simp [hp]
      exact fun i => not_occursAt_of_length hp (Nat.zero_le i)
  | cons x l ih =>
    obtain ⟨ih1, ih2⟩ := ih
    unfold search
    by_cases hx : p.isPrefixOf (x :: l) = true
    · rw [if_pos hx]
      refine ⟨?_, nofun⟩
      rintro i ⟨⟩
      exact ⟨List.isPrefixOf_iff_prefix.1 hx, noneBefore_zero p _⟩
    · rw [if_neg hx]
      have h0 : ¬ OccursAt p (x :: l) 0 := fun h => hx (List.isPrefixOf_iff_prefix.2 h)
      constructor
      · intro i hi
        obtain ⟨i, hi', rfl⟩ := Option.map_eq_some_iff.1 hi
        obtain ⟨h1, h2⟩ := ih1 i hi'
        refine ⟨(occursAt_cons_succ x).2 h1, ?_⟩
        intro j hj
        cases j with
        | zero => exact h0
        | succ j => exact fun h => h2 j (by omega) ((occursAt_cons_succ x).1 h)
      · intro hi
        obtain ⟨h1, h2⟩ := ih2 (Option.map_eq_none_iff.1 hi)
        refine ⟨h1, ?_⟩
        intro i
        cases i with
        | zero => exact h0
        | succ i => exact fun h => h2 i ((occursAt_cons_succ x).1 h)

theorem search_eq_some (h : OccursAt p l i) (hk : NoneBefore p l i) : search p l = some i := by
  obtain ⟨h1, h2⟩ := search_spec p l
  cases hs : search p l with
  | none => exact absurd h ((h2 hs).2 i)
  | some j =>
    obtain ⟨hj, hj'⟩ := h1 j hs
    rcases Nat.lt_trichotomy i j with hij | rfl | hij
    · exact absurd h (hj' i hij)
    · rfl
    · exact absurd hj (hk j hij)

theorem search_eq_none (hp : p ≠ []) (hk : NoneBefore p l l.length) : search p l = none := by
  cases hs : search p l with
  | none => rfl
  | some j =>
    obtain ⟨hj, -⟩ := (search_spec p l).1 j hs
    by_cases hlt : j < l.length
    · exact absurd hj (hk j hlt)
    · exact absurd hj (not_occursAt_of_length hp (by omega))

theorem search_eq_none_of_length (h : l.length < p.length) : search p l = none := by
  have hp : p ≠ [] := by
    rintro rfl
    exact absurd h (Nat.not_lt_zero _)
  refine search_eq_none hp ?_
  intro j _ hj
  have := hj.length_le
  rw [List.length_drop] at this
  omega

theorem search_singleton (x : α) (l : List α) : search [x] l = l.idxOf? x := by
  induction l with
  | nil => rfl
  | cons y l ih =>
    unfold search
    rw [List.idxOf?_cons, ih]
    by_cases h : x = y
    · simp [h]
    · simp [h, Ne.symm h]

/-- The first occurrence in a window before which there is none is the first occurrence. -/
theorem search_of_window (hk : NoneBefore p l k) (hs : search p ((l.drop k).take m) = some i) :
    search p l = some (k + i) := by
  obtain ⟨h1, h2⟩ := (search_spec _ _).1 i hs
  obtain ⟨h1, h3⟩ := occursAt_window.1 h1
  refine search_eq_some h1 ?_
  intro j hj h
  by_cases hjk : j < k
  · exact hk j hjk h
  · refine h2 (j - k) (by omega) (occursAt_window.2 ⟨?_, by omega⟩)
    rw [show k + (j - k) = j by omega]
    exact h

/-- A window without an occurrence rules out the places at which one would end within the window. -/
theorem noneBefore_of_window (hp : p ≠ []) (hk : NoneBefore p l k) (hs : search p ((l.drop k).take m) = none) :
    NoneBefore p l (k + m + 1 - p.length) := by
  intro j hj h
  have := List.length_pos_of_ne_nil hp
  by_cases hjk : j < k
  · exact hk j hjk h
  · refine ((search_spec _ _).2 hs).2 (j - k) (occursAt_window.2 ⟨?_, by omega⟩)
    rw [show k + (j - k) = j by omega]
    exact h

end Sequence
