import Mathlib

/-!
# Machines that show what they do

A machine moves from state to state by actions and shows a list of events at every step.  A run is kept as its trace,
the events in the order in which they were shown, together with the state it ends in.  The actions of a run may be
restricted by a condition on the action and the state it is taken in, so that one machine serves for statements about
all runs and for statements about the runs that meet a condition.
-/

namespace Concurrency

/-! The threads of concrete runs are numbered. -/

instance neZero_one : NeZero 1 := ⟨by decide⟩

instance neZero_two : NeZero 2 := ⟨by decide⟩

instance neZero_three : NeZero 3 := ⟨by decide⟩

/-- A machine with states `σ`, actions `α` and events `ω`; an action that is not possible gives `none`. -/
structure Machine (σ α ω : Type) where
  step : σ → α → Option (σ × List ω)

namespace Machine

variable {σ α ω : Type} {M : Machine σ α ω} {ok ok' : σ → α → Prop} {s₀ s t : σ} {tr tr' evs : List ω} {a : α}

/-- `M.Exec ok s₀ tr s`: a run from `s₀` to `s` that shows `tr`, every action of which meets `ok` in the state it is
taken in. -/
inductive Exec (M : Machine σ α ω) (ok : σ → α → Prop) (s₀ : σ) : List ω → σ → Prop
  | nil : Exec M ok s₀ [] s₀
  | snoc {tr evs : List ω} {s t : σ} {a : α} (h : Exec M ok s₀ tr s) (ha : ok s a)
      (hs : M.step s a = some (t, evs)) : Exec M ok s₀ (tr ++ evs) t

/-- The condition that allows every action. -/
def Any (_ : σ) (_ : α) : Prop := True

theorem Exec.mono (h : M.Exec ok s₀ tr s) (hok : ∀ s a, ok s a → ok' s a) : M.Exec ok' s₀ tr s := by
  induction h with
  | nil => exact .nil
  | snoc _ ha hs ih => exact .snoc ih (hok _ _ ha) hs

theorem Exec.trans (h : M.Exec ok s₀ tr s) (h' : M.Exec ok s tr' t) : M.Exec ok s₀ (tr ++ tr') t := by
  induction h' with
  | nil => simpa using h
  | snoc _ ha hs ih => simpa [List.append_assoc] using Exec.snoc ih ha hs

theorem Exec.single (ha : ok s a) (hs : M.step s a = some (t, evs)) : M.Exec ok s evs t := by
  simpa using Exec.snoc .nil ha hs

/-- The invariant rule: what holds at the start and is kept by every step of a run holds at its end. -/
theorem Exec.invariant {I : List ω → σ → Prop} (h : M.Exec ok s₀ tr s) (h0 : I [] s₀)
    (hstep : ∀ tr s a t evs, I tr s → ok s a → M.step s a = some (t, evs) → I (tr ++ evs) t) : I tr s := by
  induction h with
  | nil => exact h0
  | snoc _ ha hs ih => exact hstep _ _ _ _ _ ih ha hs

/-- The invariant rule for properties of the state alone. -/
theorem Exec.state_invariant {I : σ → Prop} (h : M.Exec ok s₀ tr s) (h0 : I s₀)
    (hstep : ∀ s a t evs, I s → ok s a → M.step s a = some (t, evs) → I t) : I s :=
  h.invariant (I := fun _ => I) h0 (fun _ s a t evs => hstep s a t evs)

/-- The step of a run at which an event was shown, with the run before and the run after it. -/
theorem Exec.split {e : ω} {tr₁ tr₂ : List ω} (h : M.Exec ok s₀ tr s) (htr : tr = tr₁ ++ e :: tr₂) :
    ∃ tr₁' tr₂' before after u v a, M.Exec ok s₀ tr₁' u ∧ ok u a ∧ M.step u a = some (v, before ++ e :: after) ∧
      M.Exec ok v tr₂' s ∧ tr₁ = tr₁' ++ before ∧ tr₂ = after ++ tr₂' := by
  induction h generalizing tr₂ with
  | nil => simp at htr
  | @snoc tr evs s t a h ha hs ih =>
    rcases List.append_eq_append_iff.1 htr with ⟨c, rfl, rfl⟩ | ⟨c, rfl, hc⟩
    · exact ⟨tr, [], c, tr₂, s, t, a, h, ha, hs, .nil, rfl, by simp⟩
    · cases c with
      | nil =>
        obtain rfl : evs = e :: tr₂ := by simpa using hc.symm
        exact ⟨_, [], [], tr₂, s, t, a, h, ha, hs, .nil, by simp, by simp⟩
      | cons x c =>
        simp only [List.cons_append, List.cons.injEq] at hc
        obtain ⟨rfl, rfl⟩ := hc
        obtain ⟨tr₁', tr₂', before, after, u, v, a', h1, h2, h3, h4, h5, rfl⟩ := ih rfl
        exact ⟨tr₁', tr₂' ++ evs, before, after, u, v, a', h1, h2, h3, .snoc h4 ha hs, h5, by simp⟩

/-- The run that takes the given actions one after the other, as long as each is allowed and possible. -/
def run (M : Machine σ α ω) (allowed : σ → α → Bool) : σ → List α → Option (List ω × σ)
  | s, [] => some ([], s)
  | s, a :: as =>
    if allowed s a then
      match M.step s a with
      | none => none
      | some (t, evs) =>
        match run M allowed t as with
        | none => none
        | some (tr, u) => some (evs ++ tr, u)
    else none

theorem exec_of_run {allowed : σ → α → Bool} (hok : ∀ s a, allowed s a = true → ok s a) {as : List α}
    (h : M.run allowed s as = some (tr, t)) : M.Exec ok s tr t := by
  induction as generalizing s tr t with
  | nil =>
    simp only [run, Option.some.injEq, Prod.mk.injEq] at h
    obtain ⟨rfl, rfl⟩ := h
    exact .nil
  | cons a as ih =>
    unfold run at h
    split at h
    · rename_i ha
      split at h
      · cases h
      · rename_i t' evs hs
        split at h
        · cases h
        · rename_i tr' u hr
          simp only [Option.some.injEq, Prod.mk.injEq] at h
          obtain ⟨rfl, rfl⟩ := h
          exact (Exec.single (hok s a ha) hs).trans (ih hr)
    · cases h

/-- A run that was evaluated and passed a check. -/
theorem exists_exec_of_run (M : Machine σ α ω) (ok : σ → α → Prop) (s : σ) (allowed : σ → α → Bool) (as : List α)
    (check : List ω → σ → Bool) (hok : ∀ s a, allowed s a = true → ok s a)
    (h : (M.run allowed s as).any (fun x => check x.1 x.2) = true) :
    ∃ tr t, M.Exec ok s tr t ∧ check tr t = true := by
  rw [Option.any_eq_true] at h
  obtain ⟨⟨tr, t⟩, hr, hc⟩ := h
  exact ⟨tr, t, exec_of_run hok hr, hc⟩

/-- A run that was evaluated up to one more step, which was evaluated too. -/
theorem exists_step_of_run (M : Machine σ α ω) (ok : σ → α → Prop) (s : σ) (allowed : σ → α → Bool) (as : List α)
    (a : α) (check : List ω → σ → σ → List ω → Bool) (hok : ∀ s a, allowed s a = true → ok s a)
    (h : (M.run allowed s as).any (fun x => (M.step x.2 a).any (fun y => check x.1 x.2 y.1 y.2)) = true) :
    ∃ tr t t' evs, M.Exec ok s tr t ∧ M.step t a = some (t', evs) ∧ check tr t t' evs = true := by
  obtain ⟨tr, t, hr, hc⟩ := exists_exec_of_run M ok s allowed as
    (fun tr t => (M.step t a).any (fun y => check tr t y.1 y.2)) hok h
  rw [Option.any_eq_true] at hc
  obtain ⟨⟨t', evs⟩, hs, hc⟩ := hc
  exact ⟨tr, t, t', evs, hr, hs, hc⟩

end Machine

/-! ### Numbered calls -/

/-- The numbers of the calls under way are below the number of calls made, and different threads have different ones. -/
structure Numbered {τ : Type} (calls : Nat) (callOf : τ → Option Nat) : Prop where
  lt : ∀ t i, callOf t = some i → i < calls
  inj : ∀ t u i, callOf t = some i → callOf u = some i → t = u

/-- A step in which at most the thread `begins` begins a call, with the next number. -/
theorem Numbered.step {τ : Type} {n n' : Nat} {callOf callOf' : τ → Option Nat} (h : Numbered n callOf)
    (begins : Option τ) (hle : n ≤ n')
    (hfrom : ∀ t i, callOf' t = some i → callOf t = some i ∨ (begins = some t ∧ i = n ∧ n < n')) :
    Numbered n' callOf' := by
  constructor
  · intro t i hi
    rcases hfrom t i hi with hi | ⟨-, rfl, hn⟩
    · exact Nat.lt_of_lt_of_le (h.lt t i hi) hle
    · exact hn
  · intro t u i ht hu
    rcases hfrom t i ht with ht | ⟨hb, hi, -⟩ <;> rcases hfrom u i hu with hu | ⟨hb', hi', -⟩
    · exact h.inj t u i ht hu
    · exact absurd (h.lt t i ht) (Nat.not_lt_of_le (Nat.le_of_eq hi'.symm))
    · exact absurd (h.lt u i hu) (Nat.not_lt_of_le (Nat.le_of_eq hi.symm))
    · exact Option.some.inj (hb.symm.trans hb')

end Concurrency
