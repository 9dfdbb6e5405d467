import Xtd.Concurrency.Client
import Xtd.Concurrency.Termination

/-!
# Two clients of one monitor

Two threads run a client each.  What is known of a run with one of the clients holds of a run with both, since such a
run is one of each client with the monitor.  A run is stuck when no thread has a step left in its call and no client a
call to make; then everyone is outside or asleep.
-/

namespace Concurrency

namespace Client

variable {γ δ τ σ Op L cv χ ω : Type} [DecidableEq τ] [DecidableEq cv] [Fintype τ]

/-- The monitor with the thread `c` run by the client `C` and the thread `d` run by the client `D`. -/
def pair (C : Client γ Op ω) (D : Client δ Op ω) (M : Monitor σ Op L cv χ ω) (c d : τ) :
    Machine ((γ × δ) × State τ σ L cv ω) (Action τ Op χ) ω where
  step x a := (M.step x.2 a).map fun y =>
    (((if a.thread = some c then y.2.foldl C.see x.1.1 else x.1.1,
       if a.thread = some d then y.2.foldl D.see x.1.2 else x.1.2), y.1), y.2)

/-- The thread `c` calls what `C` says, the thread `d` what `D` says, and nobody else makes calls. -/
structure Both (C : Client γ Op ω) (D : Client δ Op ω) (c d : τ) (x : (γ × δ) × State τ σ L cv ω)
    (a : Action τ Op χ) : Prop where
  left : ∀ op, a = .call c op → C.call x.1.1 = some op
  right : ∀ op, a = .call d op → D.call x.1.2 = some op
  only : ∀ t op, a = .call t op → t = c ∨ t = d

/-- No thread has a step left in its call, and the clients have nothing to call. -/
def Stuck (C : Client γ Op ω) (D : Client δ Op ω) (M : Monitor σ Op L cv χ ω) (c d : τ)
    (x : (γ × δ) × State τ σ L cv ω) : Prop :=
  ∀ t a, a.Own t ∨ (∃ op, a = .call t op) → Both C D c d x a → (pair C D M c d).step x a = none

variable {C : Client γ Op ω} {D : Client δ Op ω} {M : Monitor σ Op L cv χ ω} {c d : τ}
  {x₀ x x' : (γ × δ) × State τ σ L cv ω} {a : Action τ Op χ} {tr evs : List ω}
  {ok : (γ × δ) × State τ σ L cv ω → Action τ Op χ → Prop}

/-! ### The two parts of a run -/

theorem pair_step (h : (pair C D M c d).step x a = some (x', evs)) :
    M.step x.2 a = some (x'.2, evs) ∧ (C.machine M c).step (x.1.1, x.2) a = some ((x'.1.1, x'.2), evs) ∧
      (D.machine M d).step (x.1.2, x.2) a = some ((x'.1.2, x'.2), evs) := by
  change (M.step x.2 a).map _ = _ at h
  rw [Option.map_eq_some_iff] at h
  obtain ⟨⟨s', evs'⟩, hs, he⟩ := h
  cases he
  refine ⟨hs, ?_, ?_⟩
  · show (M.step x.2 a).map _ = _
    rw [hs]
    rfl
  · show (M.step x.2 a).map _ = _
    rw [hs]
    rfl

/-- A run with both clients is a run of the monitor with the first one. -/
theorem exec_left {ok' : γ × State τ σ L cv ω → Action τ Op χ → Prop} (h : (pair C D M c d).Exec ok x₀ tr x)
    (hok : ∀ tr x a, (pair C D M c d).Exec ok x₀ tr x → ok x a → ok' (x.1.1, x.2) a) :
    (C.machine M c).Exec ok' (x₀.1.1, x₀.2) tr (x.1.1, x.2) := by
  induction h with
  | nil => exact .nil
  | snoc h ha hs ih => exact .snoc ih (hok _ _ _ h ha) (pair_step hs).2.1

/-- A run with both clients is a run of the monitor with the second one. -/
theorem exec_right {ok' : δ × State τ σ L cv ω → Action τ Op χ → Prop} (h : (pair C D M c d).Exec ok x₀ tr x)
    (hok : ∀ tr x a, (pair C D M c d).Exec ok x₀ tr x → ok x a → ok' (x.1.2, x.2) a) :
    (D.machine M d).Exec ok' (x₀.1.2, x₀.2) tr (x.1.2, x.2) := by
  induction h with
  | nil => exact .nil
  | snoc h ha hs ih => exact .snoc ih (hok _ _ _ h ha) (pair_step hs).2.2

/-- A run with both clients is a run of the monitor. -/
theorem exec_pair {ok' : State τ σ L cv ω → Action τ Op χ → Prop} (h : (pair C D M c d).Exec ok x₀ tr x)
    (hok : ∀ tr x a, (pair C D M c d).Exec ok x₀ tr x → ok x a → ok' x.2 a) :
    (M.machine τ).Exec ok' x₀.2 tr x.2 := by
  induction h with
  | nil => exact .nil
  | snoc h ha hs ih => exact .snoc ih (hok _ _ _ h ha) (pair_step hs).1

/-! ### Runs that are stuck -/

private theorem Stuck.not_moves (h : Stuck C D M c d x) {t : τ} (ha : a.Own t ∨ ∃ op, a = .call t op)
    (hok : Both C D c d x a) {s' : State τ σ L cv ω} : ¬ M.Moves x.2 a s' evs := by
  intro hm
  have hs : M.step x.2 a = some (s', evs) := Monitor.step_of_moves hm
  have hnone : (M.step x.2 a).map _ = none := h t a ha hok
  rw [hs] at hnone
  cases hnone

theorem Stuck.quiescent [Nonempty χ] (h : Stuck C D M c d x) (hx : Monitor.Exclusive x.2) : x.2.Quiescent := by
  rw [State.quiescent_iff]
  intro t
  by_contra ht
  rw [Bool.not_eq_true] at ht
  obtain ⟨u, a, ha, s', evs, hm⟩ := Monitor.exists_own_move_of_active (M := M) hx ht
  have hno : ∀ v op, a ≠ .call v op := by
    rintro v op rfl
    rcases ha with ⟨z, ha⟩ | ⟨target, ha⟩ <;> cases ha
  refine h.not_moves (.inl ha) ⟨?_, ?_, ?_⟩ hm
  · exact fun op he => absurd he (hno c op)
  · exact fun op he => absurd he (hno d op)
  · exact fun v op he => absurd he (hno v op)

theorem Stuck.call_left (h : Stuck C D M c d x) (hcd : c ≠ d) (hc : x.2.phase c = .outside) : C.call x.1.1 = none := by
  by_contra hcall
  obtain ⟨op, hop⟩ := Option.ne_none_iff_exists'.1 hcall
  obtain ⟨s', evs, hm⟩ := Monitor.exists_call (M := M) op hc
  refine h.not_moves (.inr ⟨op, rfl⟩) ⟨?_, ?_, ?_⟩ hm
  · rintro op' ⟨⟩
    exact hop
  · intro op' he
    cases he
    exact absurd rfl hcd
  · rintro t op' ⟨⟩
    exact .inl rfl

theorem Stuck.call_right (h : Stuck C D M c d x) (hcd : c ≠ d) (hd : x.2.phase d = .outside) : D.call x.1.2 = none := by
  by_contra hcall
  obtain ⟨op, hop⟩ := Option.ne_none_iff_exists'.1 hcall
  obtain ⟨s', evs, hm⟩ := Monitor.exists_call (M := M) op hd
  refine h.not_moves (.inr ⟨op, rfl⟩) ⟨?_, ?_, ?_⟩ hm
  · intro op' he
    cases he
    exact absurd rfl hcd
  · rintro op' ⟨⟩
    exact hop
  · rintro t op' ⟨⟩
    exact .inr rfl

/-- With everyone outside and nothing to call, a run is stuck. -/
theorem stuck_of_outside (hout : ∀ t, x.2.phase t = .outside) (hc : C.call x.1.1 = none) (hd : D.call x.1.2 = none) :
    Stuck C D M c d x := by
  rintro t a (ha | ⟨op, rfl⟩) hok
  · have hnone : M.step x.2 a = none := Monitor.step_own_of_outside (hout t) ha
    show (M.step x.2 a).map _ = none
    rw [hnone]
    rfl
  · rcases hok.only t op rfl with rfl | rfl
    · have hsome := hok.left op rfl
      rw [hc] at hsome
      cases hsome
    · have hsome := hok.right op rfl
      rw [hd] at hsome
      cases hsome

end Client

end Concurrency
