import Xtd.Concurrency.Rules

/-!
# A thread on its own

What a thread of a monitor does when no other thread takes a step: `Finishes t Q s` says that from `s` on the thread `t`
can go on and, however it goes on, its call ends after finitely many of its own steps, with the events shown on the way
meeting `Q`.  To show it one follows the thread from phase to phase; to refute it one gives an invariant of the thread's
own steps that keeps it inside.
-/

namespace Concurrency

/-- An action by which a thread goes on with its call. -/
def Action.Own {τ Op χ : Type} (t : τ) (a : Action τ Op χ) : Prop :=
  (∃ z, a = .run t z) ∨ ∃ target, a = .notify t target

namespace Monitor

variable {τ σ Op L cv χ ω : Type} [DecidableEq τ] [DecidableEq cv] [Fintype τ]

inductive Finishes (M : Monitor σ Op L cv χ ω) (t : τ) : (List ω → Prop) → State τ σ L cv ω → Prop
  | done {Q : List ω → Prop} {s : State τ σ L cv ω} (h : s.phase t = .outside) (hq : Q []) : Finishes M t Q s
  | step {Q : List ω → Prop} {s : State τ σ L cv ω} (hsome : ∃ a, a.Own t ∧ ∃ s' evs, M.Moves s a s' evs)
      (hall : ∀ a s' evs, a.Own t → M.Moves s a s' evs → Finishes M t (fun tr => Q (evs ++ tr)) s') : Finishes M t Q s

variable {M : Monitor σ Op L cv χ ω} {t : τ} {Q : List ω → Prop} {s : State τ σ L cv ω}

/-- What keeps a thread inside keeps it from finishing. -/
theorem Finishes.not_of_invariant {J : State τ σ L cv ω → Prop} (hin : ∀ s, J s → s.phase t ≠ .outside)
    (hstep : ∀ s a s' evs, J s → a.Own t → M.Moves s a s' evs → J s') (hJ : J s) : ¬ M.Finishes t Q s := by
  intro h
  induction h with
  | done h _ => exact hin _ hJ h
  | step hsome _ ih =>
    obtain ⟨a, ha, s', evs, hm⟩ := hsome
    exact ih a s' evs ha hm (hstep _ a s' evs hJ ha hm)

/-! ### From phase to phase -/

section

variable [Nonempty χ] {c : cv} {l : L}

/-- A thread that comes to the free lock takes it. -/
theorem finishes_of_ready (h : s.phase t = .ready l) (hl : s.lock = none)
    (hnext : ∀ s' : State τ σ L cv ω, s'.shared = s.shared → s'.stopped = s.stopped → s'.phase t = .locked l →
      M.Finishes t Q s') : M.Finishes t Q s := by
  obtain ⟨z⟩ := (inferInstance : Nonempty χ)
  refine .step ⟨.run t z, .inl ⟨z, rfl⟩, _, _, .acquire t z l h hl⟩ ?_
  rintro a s' evs (⟨z, rfl⟩ | ⟨target, rfl⟩) hm
  · cases hm with
    | acquire _ _ l' hp _ =>
      rw [h] at hp
      cases hp
      exact hnext _ rfl rfl (Function.update_self ..)
    | _ => simp_all
  · cases hm <;> simp_all

/-- A woken thread takes the free lock and is at its wait again. -/
theorem finishes_of_woken (h : s.phase t = .woken c l) (hl : s.lock = none)
    (hnext : ∀ s' : State τ σ L cv ω, s'.shared = s.shared → s'.stopped = s.stopped → s'.phase t = .waiting c l →
      M.Finishes t Q s') : M.Finishes t Q s := by
  obtain ⟨z⟩ := (inferInstance : Nonempty χ)
  refine .step ⟨.run t z, .inl ⟨z, rfl⟩, _, _, .reacquire t z c l h hl⟩ ?_
  rintro a s' evs (⟨z, rfl⟩ | ⟨target, rfl⟩) hm
  · cases hm with
    | reacquire _ _ c' l' hp _ =>
      rw [h] at hp
      cases hp
      exact hnext _ rfl rfl (Function.update_self ..)
    | _ => simp_all
  · cases hm <;> simp_all

/-- A stop lets a thread through its wait. -/
theorem finishes_of_waiting (h : s.phase t = .waiting c l) (hs : s.stop (M.token l) = true)
    (hnext : ∀ s' : State τ σ L cv ω, s'.shared = s.shared → s'.stopped = s.stopped → s'.phase t = .locked l →
      M.Finishes t Q s') : M.Finishes t Q s := by
  obtain ⟨z⟩ := (inferInstance : Nonempty χ)
  refine .step ⟨.run t z, .inl ⟨z, rfl⟩, _, _, .pass t z c l h (.inl hs)⟩ ?_
  rintro a s' evs (⟨z, rfl⟩ | ⟨target, rfl⟩) hm
  · cases hm with
    | pass _ _ c' l' hp _ =>
      rw [h] at hp
      cases hp
      exact hnext _ rfl rfl (Function.update_self ..)
    | _ => simp_all
  · cases hm <;> simp_all

end

/-- What a notification of the thread leads to. -/
private theorem of_notifying {n : Notification cv} {ns : List (Notification cv)} {k : After L ω} {a : Action τ Op χ}
    {s' : State τ σ L cv ω} {evs : List ω} (h : s.phase t = .notifying n ns k) (ha : a.Own t) (hm : M.Moves s a s' evs) :
    s'.shared = s.shared ∧ s'.lock = s.lock ∧ s'.stopped = s.stopped ∧ s'.phase t = (afterRelease ns k).1 ∧
      evs = (afterRelease ns k).2 := by
  rcases ha with ⟨z, rfl⟩ | ⟨target, rfl⟩
  · cases hm <;> simp_all
  · cases hm with
    | wakeOne _ u c l ns' k' hp _ =>
      rw [h] at hp
      cases hp
      exact ⟨rfl, rfl, rfl, Function.update_self .., rfl⟩
    | wakeNone _ c ns' k' hp _ =>
      rw [h] at hp
      cases hp
      exact ⟨rfl, rfl, rfl, Function.update_self .., rfl⟩
    | wakeAll _ _ c ns' k' hp =>
      rw [h] at hp
      cases hp
      exact ⟨rfl, rfl, rfl, Function.update_self .., rfl⟩

/-- A thread with a notification to send can send it. -/
theorem exists_notify {n : Notification cv} {ns : List (Notification cv)} {k : After L ω}
    (h : s.phase t = .notifying n ns k) :
    ∃ a : Action τ Op χ, a.Own t ∧ ∃ s' evs, M.Moves s a s' evs := by
  cases n with
  | all c => exact ⟨.notify t none, .inr ⟨_, rfl⟩, _, _, .wakeAll t none c ns k h⟩
  | one c =>
    by_cases hu : ∃ u l, s.phase u = .asleep c l
    · obtain ⟨u, l, hu⟩ := hu
      exact ⟨.notify t (some u), .inr ⟨_, rfl⟩, _, _, .wakeOne t u c l ns k h hu⟩
    · exact ⟨.notify t none, .inr ⟨_, rfl⟩, _, _, .wakeNone t c ns k h (fun u l hul => hu ⟨u, l, hul⟩)⟩

/-- A thread that has released the lock sends its notifications one after the other; then its call ends or it comes back
for the lock. -/
theorem finishes_of_afterRelease {ns : List (Notification cv)} {k : After L ω} (h : s.phase t = (afterRelease ns k).1)
    (hdone : ∀ evs, k = .done evs → Q evs)
    (hagain : ∀ l, k = .again l → ∀ s' : State τ σ L cv ω, s'.shared = s.shared → s'.lock = s.lock →
      s'.stopped = s.stopped → s'.phase t = .ready l → M.Finishes t Q s') :
    M.Finishes t (fun tr => Q ((afterRelease ns k).2 ++ tr)) s := by
  induction ns generalizing s with
  | nil =>
    cases k with
    | done evs => exact .done h (by simpa [afterRelease] using hdone evs rfl)
    | again l => exact hagain l rfl s rfl rfl rfl h
  | cons n ns ih =>
    refine .step (exists_notify h) ?_
    intro a s' evs ha hm
    obtain ⟨h1, h2, h3, h4, rfl⟩ := of_notifying h ha hm
    refine ih h4 ?_
    intro l hk s'' h1' h2' h3' h4'
    exact hagain l hk s'' (h1'.trans h1) (h2'.trans h2) (h3'.trans h3) h4'

section

variable [Nonempty χ] {l : L}

private theorem finishes_of_locked (h : s.phase t = .locked l)
    (hnext : ∀ z s' evs, M.Moves s (.run t z) s' evs → M.Finishes t (fun tr => Q (evs ++ tr)) s') :
    M.Finishes t Q s := by
  obtain ⟨z⟩ := (inferInstance : Nonempty χ)
  obtain ⟨s', evs, hs, -⟩ := exists_piece (M := M) z h
  refine .step ⟨.run t z, .inl ⟨z, rfl⟩, s', evs, moves_of_step hs⟩ ?_
  rintro a s' evs (⟨z, rfl⟩ | ⟨target, rfl⟩) hm
  · exact hnext z s' evs hm
  · cases hm <;> simp_all

/-- A thread at a piece that ends its call. -/
theorem finishes_of_end (h : s.phase t = .locked l)
    (hpiece : ∀ z, ∃ x ns evs, M.piece s l z = ⟨x, [], .release ns (.done evs)⟩ ∧ Q evs) : M.Finishes t Q s := by
  refine finishes_of_locked h ?_
  intro z s' evs hm
  obtain ⟨x, ns, evs', hp, hq⟩ := hpiece z
  cases hm with
  | release _ _ l' ns' k hl hn =>
    cases h.symm.trans hl
    rw [hp] at hn
    cases hn
    rw [hp]
    refine finishes_of_afterRelease (k := .done evs') (Function.update_self ..) ?_ nofun
    rintro _ ⟨⟩
    exact hq
  | hold _ _ l' l'' hl hn => cases h.symm.trans hl; rw [hp] at hn; cases hn
  | wait _ _ l' c l'' hl hn => cases h.symm.trans hl; rw [hp] at hn; cases hn
  | _ => simp_all

/-- A thread at a piece that leads to the head of a wait. -/
theorem finishes_of_wait {x : σ} {c : cv} {l' : L} (h : s.phase t = .locked l)
    (hpiece : ∀ z, M.piece s l z = ⟨x, [], .wait c l'⟩)
    (hnext : ∀ s' : State τ σ L cv ω, s'.shared = x → s'.stopped = s.stopped → s'.phase t = .waiting c l' →
      M.Finishes t Q s') : M.Finishes t Q s := by
  refine finishes_of_locked h ?_
  intro z s' evs hm
  have hp := hpiece z
  cases hm with
  | wait _ _ l₀ c' l'' hl hn =>
    cases h.symm.trans hl
    rw [hp] at hn
    cases hn
    rw [hp]
    exact hnext _ rfl rfl (Function.update_self ..)
  | hold _ _ l₀ l'' hl hn => cases h.symm.trans hl; rw [hp] at hn; cases hn
  | release _ _ l₀ ns k hl hn => cases h.symm.trans hl; rw [hp] at hn; cases hn
  | _ => simp_all

end

end Monitor

end Concurrency
