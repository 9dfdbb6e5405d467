import Mathlib

/-!
# Cutting a list at an element

The first and the last place at which an element is in a list cut the list in two, in only one way, and
`List.takeWhile` and `List.dropWhile` cut it behind the longest piece with a property.
-/

namespace Sequence

variable {α : Type} {x : α} {l l' r r' : List α}

/-! ### The first and the last place -/

/-- A list is cut at the first place of an element in one way. -/
theorem cut_unique (hl : x ∉ l) (hl' : x ∉ l') (h : l ++ x :: r = l' ++ x :: r') : l = l' ∧ r = r' := by
  induction l generalizing l' with
  | nil =>
    cases l' with
    | nil => exact ⟨rfl, (List.cons.inj h).2⟩
    | cons y l' =>
      rw [(List.cons.inj h).1] at hl'
      exact absurd List.mem_cons_self hl'
  | cons y l ih =>
    cases l' with
    | nil =>
      rw [(List.cons.inj h).1] at hl
      exact absurd List.mem_cons_self hl
    | cons y' l' =>
      obtain ⟨rfl, htail⟩ := List.cons.inj h
      obtain ⟨rfl, rfl⟩ := ih (List.not_mem_of_not_mem_cons hl) (List.not_mem_of_not_mem_cons hl') htail
      exact ⟨rfl, rfl⟩

/-- A list is cut at the last place of an element in one way. -/
theorem lastCut_unique (hr : x ∉ r) (hr' : x ∉ r') (h : l ++ x :: r = l' ++ x :: r') : l = l' ∧ r = r' := by
  have hback := congrArg List.reverse h
  simp only [List.reverse_append, List.reverse_cons, List.append_assoc, List.singleton_append] at hback
  obtain ⟨h1, h2⟩ := cut_unique (by rwa [List.mem_reverse]) (by rwa [List.mem_reverse]) hback
  exact ⟨List.reverse_injective h2, List.reverse_injective h1⟩

theorem exists_lastCut (h : x ∈ l) : ∃ l₁ l₂, l = l₁ ++ x :: l₂ ∧ x ∉ l₂ := by
  obtain ⟨l₂, l₁, hl, hx⟩ := List.eq_append_cons_of_mem (List.mem_reverse.2 h)
  refine ⟨l₁.reverse, l₂.reverse, ?_, by rwa [List.mem_reverse]⟩
  rw [← List.reverse_reverse l, hl]
  simp

section Index

variable [DecidableEq α]

/-- The last place of an element. -/
def lastIdxOf? (x : α) (l : List α) : Option Nat := (l.reverse.idxOf? x).map fun i => l.length - 1 - i

theorem idxOf?_cut (h : x ∉ l) : (l ++ x :: r).idxOf? x = some l.length := by
  refine List.idxOf?_eq_some_iff.2 ⟨by simp, by simp, ?_⟩
  intro j hj heq
  rw [List.getElem_append_left hj] at heq
  exact h (heq ▸ List.getElem_mem hj)

theorem cut_of_idxOf? {i : Nat} (h : l.idxOf? x = some i) :
    i < l.length ∧ l = l.take i ++ x :: l.drop (i + 1) ∧ x ∉ l.take i := by
  obtain ⟨hi, hat, hbefore⟩ := List.idxOf?_eq_some_iff.1 h
  refine ⟨hi, ?_, ?_⟩
  · rw [← hat, List.getElem_cons_drop, List.take_append_drop]
  · intro hmem
    obtain ⟨j, hj, hval⟩ := List.getElem_of_mem hmem
    rw [List.getElem_take] at hval
    rw [List.length_take] at hj
    exact hbefore j (by omega) hval

theorem lastIdxOf?_eq_none (h : x ∉ l) : lastIdxOf? x l = none := by
  rw [lastIdxOf?, List.idxOf?_eq_none_iff.2 (by rwa [List.mem_reverse]), Option.map_none]

theorem lastIdxOf?_cut (h : x ∉ r) : lastIdxOf? x (l ++ x :: r) = some l.length := by
  have hback : (l ++ x :: r).reverse = r.reverse ++ x :: l.reverse := by simp
  rw [lastIdxOf?, hback, idxOf?_cut (by rwa [List.mem_reverse]), Option.map_some, List.length_reverse,
    List.length_append, List.length_cons]
  congr 1
  omega

end Index

/-! ### The longest piece -/

variable {p : α → Bool}

/-- The list does not begin with an element that has the property. -/
def Stops (p : α → Bool) (l : List α) : Prop := ∀ x ∈ l.head?, p x = false

theorem stops_nil : Stops p [] := by
  intro x hx
  cases hx

theorem stops_cons (h : p x = false) : Stops p (x :: l) := by
  intro y hy
  cases hy
  exact h

theorem stops_dropWhile (p : α → Bool) (l : List α) : Stops p (l.dropWhile p) := by
  intro x hx
  have := List.head?_dropWhile_not p l
  rw [hx] at this
  simpa using this

theorem takeWhile_cut (hl : ∀ x ∈ l, p x = true) (hr : Stops p r) : (l ++ r).takeWhile p = l := by
  rw [List.takeWhile_append_of_pos hl]
  cases r with
  | nil => exact List.append_nil l
  | cons x r => rw [List.takeWhile_cons_of_neg (by simp [hr x rfl]), List.append_nil]

theorem dropWhile_cut (hl : ∀ x ∈ l, p x = true) (hr : Stops p r) : (l ++ r).dropWhile p = r := by
  rw [List.dropWhile_append_of_pos hl]
  cases r with
  | nil => rfl
  | cons x r => exact List.dropWhile_cons_of_neg (by simp [hr x rfl])

end Sequence
