import Xtd.Concurrency.Machine

/-!
# Interleaved sections

Threads that share a state and work in sections: each section is one atomic step, as a critical section is for the
others.  A section may be impossible in the current state (a thread that waits for a future) and may end the call.  The
environment may change the shared state between any two sections (a clock).  The calls are numbered.
-/

namespace Concurrency

/-- A program of sections.  `enter` gives the first local state of a call from its number and the shared state, `exec` is
the section at a local state under the environment's choice `χ`, and `env` is what the environment does. -/
structure Sections (σ Op L χ δ ω : Type) where
  enter : Op → Nat → σ → L
  exec : L → σ → χ → Option (σ × Option L × List ω)
  env : δ → σ → σ

namespace Sections

/-- The shared state, the local state of each thread inside a call and the number of calls made so far. -/
structure State (τ σ L : Type) where
  shared : σ
  pc : τ → Option L
  calls : Nat

inductive Action (τ Op χ δ : Type)
  | call (t : τ) (op : Op)
  | run (t : τ) (z : χ)
  | env (d : δ)

/-- The thread that takes an action; the environment is none. -/
def Action.thread {τ Op χ δ : Type} : Action τ Op χ δ → Option τ
  | call t _ | run t _ => some t
  | env _ => none

variable {τ σ Op L χ δ ω : Type} [DecidableEq τ]

def State.init (x : σ) : State τ σ L := ⟨x, fun _ => none, 0⟩

/-- One step of the threads. -/
def step (M : Sections σ Op L χ δ ω) (s : State τ σ L) : Action τ Op χ δ → Option (State τ σ L × List ω)
  | .call t op =>
    match s.pc t with
    | none => some (⟨s.shared, Function.update s.pc t (some (M.enter op s.calls s.shared)), s.calls + 1⟩, [])
    | some _ => none
  | .run t z =>
    match s.pc t with
    | none => none
    | some l =>
      match M.exec l s.shared z with
      | none => none
      | some (x, l', evs) => some (⟨x, Function.update s.pc t l', s.calls⟩, evs)
  | .env d => some ({ s with shared := M.env d s.shared }, [])

/-- The machine of a program of sections run by the threads `τ`. -/
def machine (M : Sections σ Op L χ δ ω) (τ : Type) [DecidableEq τ] : Machine (State τ σ L) (Action τ Op χ δ) ω :=
  ⟨M.step⟩

/-- Everything one step can do. -/
inductive Moves (M : Sections σ Op L χ δ ω) (s : State τ σ L) : Action τ Op χ δ → State τ σ L → List ω → Prop
  | call (t : τ) (op : Op) (h : s.pc t = none) :
      Moves M s (.call t op)
        ⟨s.shared, Function.update s.pc t (some (M.enter op s.calls s.shared)), s.calls + 1⟩ []
  | run (t : τ) (z : χ) (l : L) (x : σ) (l' : Option L) (evs : List ω) (h : s.pc t = some l)
      (he : M.exec l s.shared z = some (x, l', evs)) :
      Moves M s (.run t z) ⟨x, Function.update s.pc t l', s.calls⟩ evs
  | env (d : δ) : Moves M s (.env d) { s with shared := M.env d s.shared } []

variable {M : Sections σ Op L χ δ ω} {s s' : State τ σ L} {a : Action τ Op χ δ} {evs : List ω}

theorem moves_of_step (h : (M.machine τ).step s a = some (s', evs)) : M.Moves s a s' evs := by
  change M.step s a = _ at h
  cases a with
  | call t op =>
    simp only [step] at h
    split at h
    · rename_i hp
      cases h
      exact .call t op hp
    · cases h
  | run t z =>
    simp only [step] at h
    split at h
    · cases h
    · rename_i l hp
      split at h
      · cases h
      · rename_i x l' evs he
        cases h
        exact .run t z l x l' evs hp he
  | env d =>
    cases h
    exact .env d

theorem step_of_moves (h : M.Moves s a s' evs) : (M.machine τ).step s a = some (s', evs) := by
  show M.step s a = _
  cases h with
  | call t op h => simp [step, h]
  | run t z l x l' evs h he => simp [step, h, he]
  | env d => rfl

/-- What a thread has after `t` has got `b`: it is `t`, or it had it before. -/
theorem update_cases {β γ : Type} {f : β → Option γ} {g : τ → β} {t u : τ} {b : β} {c : γ}
    (h : f (Function.update g t b u) = some c) : (u = t ∧ f b = some c) ∨ (u ≠ t ∧ f (g u) = some c) := by
  by_cases hu : u = t
  · subst hu
    rw [Function.update_self] at h
    exact .inl ⟨rfl, h⟩
  · rw [Function.update_of_ne hu] at h
    exact .inr ⟨hu, h⟩

theorem pc_cases {pc : τ → Option L} {t u : τ} {l' : Option L} {l : L} (h : Function.update pc t l' u = some l) :
    (u = t ∧ l' = some l) ∨ (u ≠ t ∧ pc u = some l) :=
  update_cases (f := id) h

/-- Where the local state of a thread after a step comes from. -/
theorem Moves.pc_eq (h : M.Moves s a s' evs) {u : τ} {l : L} (hu : s'.pc u = some l) :
    (s.pc u = some l ∧ ∀ z, a ≠ .run u z) ∨
    (∃ op, a = .call u op ∧ l = M.enter op s.calls s.shared ∧ s'.calls = s.calls + 1) ∨
    ∃ z l₀, a = .run u z ∧ s.pc u = some l₀ ∧ M.exec l₀ s.shared z = some (s'.shared, some l, evs) := by
  cases h with
  | call t op h =>
    rcases pc_cases hu with ⟨rfl, hl⟩ | ⟨-, hu⟩
    · cases hl
      exact .inr (.inl ⟨op, rfl, rfl, rfl⟩)
    · exact .inl ⟨hu, nofun⟩
  | run t z l₀ x l' evs h he =>
    rcases pc_cases hu with ⟨rfl, rfl⟩ | ⟨hut, hu⟩
    · exact .inr (.inr ⟨z, l₀, rfl, h, he⟩)
    · refine .inl ⟨hu, ?_⟩
      rintro z' ⟨⟩
      exact hut rfl
  | env d => exact .inl ⟨hu, nofun⟩

theorem Moves.calls_le (h : M.Moves s a s' evs) : s.calls ≤ s'.calls := by
  cases h <;> simp

/-- The rule for the numbers of the calls under way: they are different. -/
theorem call_invariant (callOf : L → Nat) {ok : State τ σ L → Action τ Op χ δ → Prop} {x : σ} {tr : List ω}
    (h : (M.machine τ).Exec ok (State.init x) tr s) (henter : ∀ op n y, callOf (M.enter op n y) = n)
    (hexec : ∀ l y z y' l' evs, M.exec l y z = some (y', some l', evs) → callOf l' = callOf l) :
    (∀ t l, s.pc t = some l → callOf l < s.calls) ∧
      ∀ t u l l', s.pc t = some l → s.pc u = some l' → callOf l = callOf l' → t = u := by
  have hN : Numbered s.calls (fun t => (s.pc t).map callOf) := by
    refine h.state_invariant (I := fun s => Numbered s.calls (fun t => (s.pc t).map callOf)) ⟨nofun, nofun⟩ ?_
    intro s a s' evs ih _ hs
    have hm := moves_of_step hs
    refine ih.step a.thread hm.calls_le ?_
    intro t i hi
    obtain ⟨l, hl, rfl⟩ := Option.map_eq_some_iff.1 hi
    rcases hm.pc_eq hl with ⟨hl, -⟩ | ⟨op, rfl, rfl, hc⟩ | ⟨z, l₀, -, h₀, he⟩
    · exact .inl (by simp only [hl, Option.map_some])
    · exact .inr ⟨rfl, henter _ _ _, by omega⟩
    · exact .inl (by simp only [h₀, Option.map_some, hexec _ _ _ _ _ _ he])
  constructor
  · intro t l hl
    exact hN.lt t (callOf l) (by simp only [hl, Option.map_some])
  · intro t u l l' ht hu he
    exact hN.inj t u (callOf l) (by simp only [ht, Option.map_some]) (by simp only [hu, Option.map_some, he])

end Sections

end Concurrency
