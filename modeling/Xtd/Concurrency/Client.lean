import Xtd.Concurrency.Rules

/-!
# Clients of a monitor

A client is the program of one thread that uses a monitor: its state says what it calls next, and it goes on from state
to state by the events of its own calls.  The machine of a monitor with a client keeps the state of the client beside
that of the monitor.  The events of the end of a call are shown after its notifications; `ahead` is the state the client
will then be in, which changes only when the client calls and when a piece of its call is executed.
-/

namespace Concurrency

/-- A program over the states `γ`: what it calls next, if anything, and what it makes of an event. -/
structure Client (γ Op ω : Type) where
  call : γ → Option Op
  see : γ → ω → γ

namespace Client

variable {γ τ σ Op L cv χ ω : Type} [DecidableEq τ] [DecidableEq cv] [Fintype τ]

/-- The monitor with the thread `c` run by the client. -/
def machine (C : Client γ Op ω) (M : Monitor σ Op L cv χ ω) (c : τ) :
    Machine (γ × State τ σ L cv ω) (Action τ Op χ) ω where
  step x a := (M.step x.2 a).map fun y => ((if a.thread = some c then y.2.foldl C.see x.1 else x.1, y.1), y.2)

/-- The thread `c` calls what the client says. -/
def Follows (C : Client γ Op ω) (c : τ) (x : γ × State τ σ L cv ω) (a : Action τ Op χ) : Prop :=
  ∀ op, a = .call c op → C.call x.1 = some op

/-- The state of the client when the notifications of its call are sent. -/
def ahead (C : Client γ Op ω) (c : τ) (x : γ × State τ σ L cv ω) : γ := (x.2.phase c).doneEvents.foldl C.see x.1

variable {C : Client γ Op ω} {M : Monitor σ Op L cv χ ω} {c : τ} {x₀ x x' : γ × State τ σ L cv ω}
  {a : Action τ Op χ} {tr evs : List ω} {ok : γ × State τ σ L cv ω → Action τ Op χ → Prop}
  {ok' : State τ σ L cv ω → Action τ Op χ → Prop}

theorem moves_of_step (h : (C.machine M c).step x a = some (x', evs)) :
    M.Moves x.2 a x'.2 evs ∧ x'.1 = if a.thread = some c then evs.foldl C.see x.1 else x.1 := by
  change (M.step x.2 a).map _ = _ at h
  rw [Option.map_eq_some_iff] at h
  obtain ⟨⟨s', evs'⟩, hs, he⟩ := h
  cases he
  exact ⟨Monitor.moves_of_step hs, rfl⟩

/-- A run with a client is a run of the monitor. -/
theorem exec_monitor (ok' : State τ σ L cv ω → Action τ Op χ → Prop) (h : (C.machine M c).Exec ok x₀ tr x)
    (hok : ∀ x a, ok x a → ok' x.2 a) :
    (M.machine τ).Exec ok' x₀.2 tr x.2 := by
  induction h with
  | nil => exact .nil
  | snoc _ ha hs ih => exact .snoc ih (hok _ _ ha) (Monitor.step_of_moves (moves_of_step hs).1)

omit [DecidableEq τ] [DecidableEq cv] [Fintype τ] in
theorem ahead_of_nil (h : (x.2.phase c).doneEvents = []) : C.ahead c x = x.1 := by
  rw [ahead, h]
  rfl

omit [DecidableEq τ] [DecidableEq cv] [Fintype τ] in
/-- A client at rest has seen all events of its calls. -/
theorem ahead_of_quiescent (h : x.2.Quiescent) : C.ahead c x = x.1 := by
  refine ahead_of_nil ?_
  rcases h c with hout | ⟨d, l, hasleep⟩
  · rw [hout]
    rfl
  · rw [hasleep]
    rfl

omit [DecidableEq τ] [DecidableEq cv] [Fintype τ] in
/-- The events shown when the lock is released followed by those still to come are the events of the end of the call. -/
private theorem afterRelease_events (ns : List (Notification cv)) (k : After L ω) :
    (afterRelease ns k).2 ++ (afterRelease ns k).1.doneEvents = (Next.release ns k : Next L cv ω).doneEvents := by
  cases ns <;> cases k <;> simp [afterRelease, Phase.doneEvents, Next.doneEvents]

section

variable {g : γ} {s s' : State τ σ L cv ω}

omit [DecidableEq τ] [DecidableEq cv] [Fintype τ] in
/-- Nothing is shown from and to a phase without events to come. -/
private theorem ahead_quiet (h : (s.phase c).doneEvents = []) (h' : (s'.phase c).doneEvents = []) :
    C.ahead c (g, s') = C.ahead c (g, s) := by
  rw [ahead_of_nil h', ahead_of_nil h]

omit [DecidableEq τ] [DecidableEq cv] [Fintype τ] in
/-- A notification shows events that were to come, or leaves them to come. -/
private theorem ahead_notified {n : Notification cv} {ns : List (Notification cv)} {k : After L ω}
    (h : s.phase c = .notifying n ns k) (h' : s'.phase c = (afterRelease ns k).1) :
    C.ahead c ((afterRelease ns k).2.foldl C.see g, s') = C.ahead c (g, s) := by
  rw [ahead, ahead, h, h', ← List.foldl_append, afterRelease_events]
  cases k <;> rfl

omit [DecidableEq τ] [DecidableEq cv] [Fintype τ] in
/-- The first events of a call are shown at once. -/
private theorem ahead_entered (h : s.phase c = .outside) (h' : (s'.phase c).doneEvents = []) :
    C.ahead c (g, s) = g ∧ C.ahead c (evs.foldl C.see g, s') = evs.foldl C.see (C.ahead c (g, s)) := by
  have hg : C.ahead c (g, s) = g := ahead_of_nil (by rw [h]; rfl)
  rw [hg, ahead_of_nil h']
  exact ⟨rfl, rfl⟩

end

/-- The state ahead of the client changes when the client calls and when a piece of its call is executed. -/
theorem ahead_eq (h : (C.machine M c).step x a = some (x', evs)) :
    (∃ op, a = .call c op ∧ x.2.phase c = .outside ∧ C.ahead c x = x.1 ∧
      C.ahead c x' = (M.enter op x.2.calls).1.foldl C.see (C.ahead c x)) ∨
    (∃ z l, a = .run c z ∧ x.2.phase c = .locked l ∧
      C.ahead c x' = ((M.piece x.2 l z).events ++ (M.piece x.2 l z).next.doneEvents).foldl C.see (C.ahead c x)) ∨
    ((∀ op, a ≠ .call c op) ∧ (∀ z l, a = .run c z → x.2.phase c ≠ .locked l) ∧ C.ahead c x' = C.ahead c x) := by
  obtain ⟨hm, hg⟩ := moves_of_step h
  obtain ⟨g, s⟩ := x
  obtain ⟨g', s'⟩ := x'
  dsimp only at hm hg
  by_cases ha : a.thread = some c
  · rw [if_pos ha] at hg
    subst hg
    cases hm with
    | enter t op l hp he =>
      cases ha
      exact .inl ⟨op, rfl, hp, ahead_entered hp (by simp [Phase.doneEvents])⟩
    | enterNot t op hp he =>
      cases ha
      exact .inl ⟨op, rfl, hp, ahead_entered hp (by simp [Phase.doneEvents])⟩
    | acquire t z l hp hl =>
      cases ha
      exact .inr (.inr ⟨nofun, by simp [hp], ahead_quiet (by rw [hp]; rfl) (by simp [Phase.doneEvents])⟩)
    | hold t z l l' hp hn =>
      cases ha
      refine .inr (.inl ⟨z, l, rfl, hp, ?_⟩)
      rw [ahead_of_nil (x := (g, s)) (by rw [hp]; rfl), ahead_of_nil (by simp [Phase.doneEvents]), hn]
      simp [Next.doneEvents]
    | wait t z l cv l' hp hn =>
      cases ha
      refine .inr (.inl ⟨z, l, rfl, hp, ?_⟩)
      rw [ahead_of_nil (x := (g, s)) (by rw [hp]; rfl), ahead_of_nil (by simp [Phase.doneEvents]), hn]
      simp [Next.doneEvents]
    | release t z l ns k hp hn =>
      cases ha
      refine .inr (.inl ⟨z, l, rfl, hp, ?_⟩)
      rw [ahead_of_nil (x := (g, s)) (by rw [hp]; rfl), hn, ← afterRelease_events, ahead]
      simp [List.foldl_append]
    | pass t z cv l hp hc =>
      cases ha
      exact .inr (.inr ⟨nofun, by simp [hp], ahead_quiet (by rw [hp]; rfl) (by simp [Phase.doneEvents])⟩)
    | sleep t z cv l hp hs hc =>
      cases ha
      exact .inr (.inr ⟨nofun, by simp [hp], ahead_quiet (by rw [hp]; rfl) (by simp [Phase.doneEvents])⟩)
    | reacquire t z cv l hp hl =>
      cases ha
      exact .inr (.inr ⟨nofun, by simp [hp], ahead_quiet (by rw [hp]; rfl) (by simp [Phase.doneEvents])⟩)
    | wakeOne t u cv l ns k hp hu =>
      cases ha
      exact .inr (.inr ⟨nofun, nofun, ahead_notified hp (by simp)⟩)
    | wakeNone t cv ns k hp hu =>
      cases ha
      exact .inr (.inr ⟨nofun, nofun, ahead_notified hp (by simp)⟩)
    | wakeAll t target cv ns k hp =>
      cases ha
      exact .inr (.inr ⟨nofun, nofun, ahead_notified hp (by simp)⟩)
    | spurious t cv l hp =>
      cases ha
      exact .inr (.inr ⟨nofun, nofun, ahead_quiet (by rw [hp]; rfl) (by simp [Phase.doneEvents])⟩)
    | stopAgain k hk => cases ha
    | stop k hk => cases ha
  · rw [if_neg ha] at hg
    subst hg
    refine .inr (.inr ⟨?_, ?_, ?_⟩)
    · rintro op rfl
      exact ha rfl
    · rintro z l rfl
      exact absurd rfl ha
    · rcases hm.other ha with he | ⟨cv, l, h1, h2⟩
      · rw [ahead, ahead, he]
      · rw [ahead, ahead, h1, h2]
        rfl

/-- A client whose pieces leave no events behind a notification: what it does at a step. -/
theorem quiet_step (h : (C.machine M c).step x a = some (x', evs)) (hnil : (x.2.phase c).doneEvents = [])
    (hpiece : ∀ z l n ns k, a = .run c z → x.2.phase c = .locked l → (M.piece x.2 l z).next = .release (n :: ns) k →
      (M.piece x.2 l z).next.doneEvents = []) :
    (x'.2.phase c).doneEvents = [] ∧
      ((∃ op, a = .call c op ∧ x.2.phase c = .outside ∧ x'.1 = (M.enter op x.2.calls).1.foldl C.see x.1) ∨
      (∃ z l, a = .run c z ∧ x.2.phase c = .locked l ∧
        x'.1 = ((M.piece x.2 l z).events ++ (M.piece x.2 l z).next.doneEvents).foldl C.see x.1) ∨
      ((∀ op, a ≠ .call c op) ∧ (∀ z l, a = .run c z → x.2.phase c ≠ .locked l) ∧ x'.1 = x.1)) := by
  have hnil' := (moves_of_step h).1.doneEvents_eq_nil hnil hpiece
  refine ⟨hnil', ?_⟩
  have hahead := ahead_eq h
  rw [ahead_of_nil hnil, ahead_of_nil hnil'] at hahead
  rcases hahead with ⟨op, ha, hout, -, hx⟩ | hrun | hrest
  · exact .inl ⟨op, ha, hout, hx⟩
  · exact .inr (.inl hrun)
  · exact .inr (.inr hrest)

end Client

end Concurrency
