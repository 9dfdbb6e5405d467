import Xtd.Concurrency.Monitor

/-!
# Rules for the runs of a monitor

What a step does to the shared state, to the thread that takes it, to the other threads and to what is shown, and from it
the invariant rules: for the shared state and the local states (`thread_invariant`), for the numbers of the calls
(`call_invariant`), for where threads wait and start a new turn (`wait_invariant`, `turn_invariant`), for what only the
holder of the lock knows (`held_invariant`) and for counters of the threads at certain places (`sum_invariant`).
-/

namespace Concurrency

namespace Monitor

variable {τ σ Op L cv χ ω : Type} [DecidableEq τ] [DecidableEq cv] [Fintype τ]
  {M : Monitor σ Op L cv χ ω} {s s' : State τ σ L cv ω} {a : Action τ Op χ} {evs : List ω}

/-! ### One step -/

omit [DecidableEq τ] [DecidableEq cv] [Fintype τ] in
/-- A thread is woken or stays what it is. -/
theorem wakeWhere_cases (p : cv → Bool) (phase : τ → Phase L cv ω) (u : τ) :
    (∃ c l, phase u = .asleep c l ∧ p c = true ∧ wakeWhere p phase u = .woken c l) ∨
      (wakeWhere p phase u = phase u ∧ ∀ c l, phase u = .asleep c l → p c = false) := by
  unfold wakeWhere
  cases h : phase u with
  | asleep c l =>
    by_cases hc : p c = true
    · exact .inl ⟨c, l, rfl, hc, by simp [hc]⟩
    · refine .inr ⟨by simp [hc], ?_⟩
      intro c' l' h'
      cases h'
      simpa using hc
  | _ => exact .inr ⟨rfl, fun c l h' => nomatch h'⟩

omit [DecidableEq cv] in
theorem local?_of_locked {ph : Phase L cv ω} {l : L} (h : ph = .locked l) : ph.local? = some l := by
  rw [h]
  rfl

omit [DecidableEq cv] in
theorem local?_afterRelease (ns : List (Notification cv)) (k : After L ω) :
    (afterRelease ns k).1.local? = (Next.release ns k).local? := by
  cases ns <;> cases k <;> rfl

omit [DecidableEq cv] in
theorem local?_of_mem_doneEvents {n : Next L cv ω} {e : ω} (h : e ∈ n.doneEvents) : n.local? = none := by
  cases n with
  | release ns k =>
    cases k with
    | again l => cases h
    | done evs => rfl
  | _ => cases h

omit [DecidableEq cv] in
theorem holds_afterRelease (ns : List (Notification cv)) (k : After L ω) :
    (afterRelease ns k).1.holds = false := by
  cases ns <;> cases k <;> rfl

omit [DecidableEq cv] in
theorem doneEvents_afterRelease {ns : List (Notification cv)} {k : After L ω} {e : ω}
    (h : e ∈ (afterRelease ns k).1.doneEvents ∨ e ∈ (afterRelease ns k).2) : e ∈ (Next.release ns k).doneEvents := by
  cases ns with
  | nil =>
    cases k with
    | again l => rcases h with h | h <;> cases h
    | done evs => exact h.resolve_left (List.not_mem_nil)
  | cons n ns =>
    cases k with
    | again l => rcases h with h | h <;> cases h
    | done evs => exact h.resolve_right (List.not_mem_nil)

/-- The lock is held by exactly the thread whose phase says so. -/
def Exclusive (s : State τ σ L cv ω) : Prop :=
  ∀ t, s.lock = some t ↔ (s.phase t).holds = true

omit [DecidableEq τ] [DecidableEq cv] [Fintype τ] in
theorem Exclusive.eq (h : Exclusive s) {t u : τ} (ht : (s.phase t).holds = true) (hu : (s.phase u).holds = true) :
    t = u := by
  have h1 := (h t).2 ht
  rw [(h u).2 hu] at h1
  exact (Option.some.inj h1).symm

/-- What a step does to a thread that does not take it: nothing, or a wake-up. -/
theorem Moves.other (h : M.Moves s a s' evs) {u : τ} (hu : a.thread ≠ some u) :
    s'.phase u = s.phase u ∨ ∃ c l, s.phase u = .asleep c l ∧ s'.phase u = .woken c l := by
  have wakes : ∀ p, wakeWhere p s.phase u = s.phase u ∨
      ∃ c l, s.phase u = .asleep c l ∧ wakeWhere p s.phase u = .woken c l := by
    intro p
    rcases wakeWhere_cases p s.phase u with ⟨c, l, h1, -, h2⟩ | ⟨h, -⟩
    · exact .inr ⟨c, l, h1, h2⟩
    · exact .inl h
  have ne : ∀ {t : τ}, some t ≠ some u → u ≠ t := fun h e => h (by rw [e])
  cases h with
  | wakeOne t v c l ns k hp hv =>
    show Function.update _ t _ u = _ ∨ _
    simp only [Function.update_of_ne (ne hu)]
    by_cases huv : u = v
    · subst huv
      exact .inr ⟨c, l, hv, Function.update_self ..⟩
    · exact .inl (Function.update_of_ne huv ..)
  | wakeAll t target c ns k hp =>
    simp only [Function.update_of_ne (ne hu)]
    exact wakes _
  | stop k _ => exact wakes _
  | stopAgain => exact .inl rfl
  | enter t => exact .inl (Function.update_of_ne (ne hu) ..)
  | enterNot t => exact .inl (Function.update_of_ne (ne hu) ..)
  | acquire t => exact .inl (Function.update_of_ne (ne hu) ..)
  | hold t => exact .inl (Function.update_of_ne (ne hu) ..)
  | wait t => exact .inl (Function.update_of_ne (ne hu) ..)
  | release t => exact .inl (Function.update_of_ne (ne hu) ..)
  | pass t => exact .inl (Function.update_of_ne (ne hu) ..)
  | sleep t => exact .inl (Function.update_of_ne (ne hu) ..)
  | reacquire t => exact .inl (Function.update_of_ne (ne hu) ..)
  | wakeNone t => exact .inl (Function.update_of_ne (ne hu) ..)
  | spurious t => exact .inl (Function.update_of_ne (ne hu) ..)

omit [DecidableEq τ] [DecidableEq cv] [Fintype τ] in
private theorem idle {t : τ} {z : χ} (h : ∀ l, s.phase t ≠ .locked l) (t' : τ) (z' : χ) (l : L)
    (he : Action.run t z = (.run t' z' : Action τ Op χ)) : s.phase t' ≠ .locked l := by
  cases he
  exact h l

/-- Where the shared state of a step comes from. -/
theorem Moves.shared_eq (h : M.Moves s a s' evs) :
    (s'.shared = s.shared ∧ ∀ t z l, a = .run t z → s.phase t ≠ .locked l) ∨
      ∃ t z l, a = .run t z ∧ s.phase t = .locked l ∧ s'.shared = (M.piece s l z).shared := by
  cases h with
  | hold t z l _ hp _ => exact .inr ⟨t, z, l, rfl, hp, rfl⟩
  | wait t z l _ _ hp _ => exact .inr ⟨t, z, l, rfl, hp, rfl⟩
  | release t z l _ _ hp _ => exact .inr ⟨t, z, l, rfl, hp, rfl⟩
  | acquire t z l hp _ => exact .inl ⟨rfl, idle (by simp [hp])⟩
  | pass t z c l hp _ => exact .inl ⟨rfl, idle (by simp [hp])⟩
  | sleep t z c l hp _ _ => exact .inl ⟨rfl, idle (by simp [hp])⟩
  | reacquire t z c l hp _ => exact .inl ⟨rfl, idle (by simp [hp])⟩
  | _ => exact .inl ⟨rfl, fun _ _ _ h => nomatch h⟩

/-- The local state of a thread after a step: it is kept by a step that is not a piece of the thread, or it is that of
a new call, or that after the piece. -/
theorem Moves.local?_eq (h : M.Moves s a s' evs) (u : τ) :
    ((s'.phase u).local? = (s.phase u).local? ∧ ∀ z l₀, a = .run u z → s.phase u ≠ .locked l₀) ∨
      (∃ op, a = .call u op ∧ s.phase u = .outside ∧ (s'.phase u).local? = (M.enter op s.calls).2) ∨
      ∃ z l₀, a = .run u z ∧ s.phase u = .locked l₀ ∧ (s'.phase u).local? = (M.piece s l₀ z).next.local? := by
  by_cases hu : a.thread = some u
  · -- the thread comes from a phase `ph` that is not `locked`, with the same local state
    have kept : ∀ {ph : Phase L cv ω}, s.phase u = ph → (∀ l, ph ≠ .locked l) → (s'.phase u).local? = ph.local? →
        (s'.phase u).local? = (s.phase u).local? ∧ ∀ z l₀, a = .run u z → s.phase u ≠ .locked l₀ := by
      intro ph hp hne he
      rw [hp]
      exact ⟨he, fun _ l₀ _ => hne l₀⟩
    cases h with
    | enter t op l hp he => cases hu; exact .inr (.inl ⟨op, rfl, hp, by simp [he, Phase.local?]⟩)
    | enterNot t op hp he => cases hu; exact .inr (.inl ⟨op, rfl, hp, by simp [he, Phase.local?]⟩)
    | hold t z l l' hp hn => cases hu; exact .inr (.inr ⟨z, l, rfl, hp, by simp [hn, Phase.local?, Next.local?]⟩)
    | wait t z l c l' hp hn => cases hu; exact .inr (.inr ⟨z, l, rfl, hp, by simp [hn, Phase.local?, Next.local?]⟩)
    | release t z l ns k hp hn =>
      cases hu
      exact .inr (.inr ⟨z, l, rfl, hp, by simp only [Function.update_self, local?_afterRelease, hn]⟩)
    | acquire t z l hp _ => cases hu; exact .inl (kept hp (by simp) (by simp [Phase.local?]))
    | pass t z c l hp _ => cases hu; exact .inl (kept hp (by simp) (by simp [Phase.local?]))
    | sleep t z c l hp _ _ => cases hu; exact .inl (kept hp (by simp) (by simp [Phase.local?]))
    | reacquire t z c l hp _ => cases hu; exact .inl (kept hp (by simp) (by simp [Phase.local?]))
    | spurious t c l hp => cases hu; exact .inl (kept hp (by simp) (by simp [Phase.local?]))
    | wakeOne t v c l ns k hp hv =>
      cases hu
      exact .inl (kept hp (by simp) (by simp only [Function.update_self, local?_afterRelease]; cases k <;> rfl))
    | wakeNone t c ns k hp _ =>
      cases hu
      exact .inl (kept hp (by simp) (by simp only [Function.update_self, local?_afterRelease]; cases k <;> rfl))
    | wakeAll t _ c ns k hp =>
      cases hu
      exact .inl (kept hp (by simp) (by simp only [Function.update_self, local?_afterRelease]; cases k <;> rfl))
    | stopAgain => cases hu
    | stop => cases hu
  · refine .inl ⟨?_, ?_⟩
    · rcases h.other hu with he | ⟨c, l', h1, h2⟩
      · rw [he]
      · rw [h1, h2]; rfl
    · intro z l₀ ha
      rw [ha] at hu
      exact absurd rfl hu

/-- Where the local state of a thread after a step comes from. -/
theorem Moves.local_eq (h : M.Moves s a s' evs) {u : τ} {l : L} (hl : (s'.phase u).local? = some l) :
    ((s.phase u).local? = some l ∧ ∀ z l₀, a = .run u z → s.phase u ≠ .locked l₀) ∨
      (∃ op, a = .call u op ∧ (M.enter op s.calls).2 = some l) ∨
      ∃ z l₀, a = .run u z ∧ s.phase u = .locked l₀ ∧ (M.piece s l₀ z).next.local? = some l := by
  rcases h.local?_eq u with ⟨he, hne⟩ | ⟨op, ha, -, he⟩ | ⟨z, l₀, ha, h₀, he⟩
  · exact .inl ⟨he.symm.trans hl, hne⟩
  · exact .inr (.inl ⟨op, ha, he.symm.trans hl⟩)
  · exact .inr (.inr ⟨z, l₀, ha, h₀, he.symm.trans hl⟩)

/-- A thread that neither calls nor executes a piece keeps its local state. -/
theorem Moves.local?_of_idle (h : M.Moves s a s' evs) {u : τ} (hcall : ∀ op, a ≠ .call u op)
    (hrun : ∀ z l, a = .run u z → s.phase u ≠ .locked l) : (s'.phase u).local? = (s.phase u).local? := by
  rcases h.local?_eq u with ⟨he, -⟩ | ⟨op, ha, -⟩ | ⟨z, l, ha, hl, -⟩
  · exact he
  · exact absurd ha (hcall op)
  · exact absurd hl (hrun z l ha)

/-- What a piece does. -/
theorem Moves.of_piece {t : τ} {z : χ} {l : L} (h : M.Moves s (.run t z) s' evs) (hl : s.phase t = .locked l) :
    s'.shared = (M.piece s l z).shared ∧ (s'.phase t).local? = (M.piece s l z).next.local? ∧
      ∀ u, u ≠ t → (s'.phase u).local? = (s.phase u).local? := by
  refine ⟨?_, ?_, ?_⟩
  · rcases h.shared_eq with ⟨-, hidle⟩ | ⟨t', z', l', ha, hl', he⟩
    · exact absurd hl (hidle t z l rfl)
    · cases ha
      rw [hl] at hl'
      cases hl'
      exact he
  · rcases h.local?_eq t with ⟨-, hidle⟩ | ⟨op, ha, -⟩ | ⟨z', l', ha, hl', he⟩
    · exact absurd hl (hidle z l rfl)
    · cases ha
    · cases ha
      rw [hl] at hl'
      cases hl'
      exact he
  · intro u hu
    refine h.local?_of_idle nofun ?_
    intro z' l' ha
    cases ha
    exact absurd rfl hu

/-- What a call does. -/
theorem Moves.of_call {t : τ} {op : Op} (h : M.Moves s (.call t op) s' evs) :
    s'.shared = s.shared ∧ (s'.phase t).local? = (M.enter op s.calls).2 ∧
      ∀ u, u ≠ t → (s'.phase u).local? = (s.phase u).local? := by
  cases h with
  | enter _ _ l hp he =>
    exact ⟨rfl, by simp [he, Phase.local?], fun u hu => by simp only [Function.update_of_ne hu]⟩
  | enterNot _ _ hp he =>
    exact ⟨rfl, by simp [he, Phase.local?], fun u hu => by simp only [Function.update_of_ne hu]⟩

omit [DecidableEq τ] in
/-- The stop request on a token wakes the condition variables with a wait on that token. -/
theorem stopWakes_of_wait {phase : τ → Phase L cv ω} {t : τ} {c : cv} {l : L} {k : Nat}
    (ht : (phase t).wait? = some (c, l)) (hk : M.token l = some k) : M.stopWakes k phase c = true := by
  unfold stopWakes
  exact decide_eq_true ⟨t, by simp [waitsWith, ht, hk]⟩

omit [DecidableEq cv] in
theorem afterRelease_ne_asleep (ns : List (Notification cv)) (k : After L ω) (c : cv) (l : L) :
    (afterRelease ns k).1 ≠ .asleep c l := by
  cases ns <;> cases k <;> simp [afterRelease]

omit [DecidableEq cv] in
theorem wait?_afterRelease (ns : List (Notification cv)) (k : After L ω) : (afterRelease ns k).1.wait? = none := by
  cases ns <;> cases k <;> rfl

omit [DecidableEq cv] in
theorem afterRelease_ne_locked (ns : List (Notification cv)) (k : After L ω) (l : L) :
    (afterRelease ns k).1 ≠ .locked l := by
  cases ns <;> cases k <;> simp [afterRelease]

/-- A thread that is asleep was asleep before, or has just found that it has to wait. -/
theorem Moves.asleep_eq (h : M.Moves s a s' evs) {t : τ} {c : cv} {l : L} (ht : s'.phase t = .asleep c l) :
    s.phase t = .asleep c l ∨
      ∃ z, a = .run t z ∧ s'.shared = s.shared ∧ s.phase t = .waiting c l ∧ s'.stop (M.token l) = false ∧
        M.pred c l s.shared = false := by
  by_cases ha : a.thread = some t
  · cases h with
    | sleep t' z c' l' hp hs hc =>
      cases ha
      simp only [Function.update_self, Phase.asleep.injEq] at ht
      obtain ⟨rfl, rfl⟩ := ht
      exact .inr ⟨z, rfl, rfl, hp, hs, hc⟩
    | release => cases ha; simp [afterRelease_ne_asleep] at ht
    | wakeOne => cases ha; simp [afterRelease_ne_asleep] at ht
    | wakeNone => cases ha; simp [afterRelease_ne_asleep] at ht
    | wakeAll => cases ha; simp [afterRelease_ne_asleep] at ht
    | stopAgain => cases ha
    | stop => cases ha
    | _ => cases ha; simp at ht
  · rcases h.other ha with he | ⟨_, _, -, he⟩
    · rw [← he]; exact .inl ht
    · rw [ht] at he; cases he

/-- A thread at a piece was there before, or has just come from the queue for the lock or out of its wait, or has gone on
from another piece. -/
theorem Moves.locked_eq (h : M.Moves s a s' evs) (hx : Exclusive s) {t : τ} {l : L} (ht : s'.phase t = .locked l) :
    (s.phase t = .locked l ∧ s'.shared = s.shared) ∨
      (s.phase t = .ready l ∧ s'.shared = s.shared) ∨
      (∃ c, s.phase t = .waiting c l ∧ s'.shared = s.shared ∧
        (s'.stop (M.token l) = true ∨ M.pred c l s.shared = true)) ∨
      ∃ z l₀, a = .run t z ∧ s.phase t = .locked l₀ ∧ (M.piece s l₀ z).next = .hold l ∧
        s'.shared = (M.piece s l₀ z).shared := by
  by_cases ha : a.thread = some t
  · cases h with
    | acquire t' z l' hp _ =>
      cases ha
      simp only [Function.update_self, Phase.locked.injEq] at ht
      exact .inr (.inl ⟨by rw [hp, ← ht], rfl⟩)
    | pass t' z c l' hp hc =>
      cases ha
      simp only [Function.update_self, Phase.locked.injEq] at ht
      subst ht
      exact .inr (.inr (.inl ⟨c, hp, rfl, hc⟩))
    | hold t' z l₀ l' hp hn =>
      cases ha
      simp only [Function.update_self, Phase.locked.injEq] at ht
      exact .inr (.inr (.inr ⟨z, l₀, rfl, hp, by rw [hn, ht], rfl⟩))
    | release => cases ha; simp [afterRelease_ne_locked] at ht
    | wakeOne => cases ha; simp [afterRelease_ne_locked] at ht
    | wakeNone => cases ha; simp [afterRelease_ne_locked] at ht
    | wakeAll => cases ha; simp [afterRelease_ne_locked] at ht
    | stopAgain => cases ha
    | stop => cases ha
    | _ => cases ha; simp at ht
  · have hp : s.phase t = .locked l := by
      rcases h.other ha with he | ⟨_, _, -, he⟩
      · rw [← he]; exact ht
      · rw [ht] at he; cases he
    -- a piece of another thread would need the lock
    rcases h.shared_eq with ⟨he, -⟩ | ⟨t', z, l', rfl, hp', -⟩
    · exact .inl ⟨hp, he⟩
    · have := hx.eq (t := t) (u := t') (by rw [hp]; rfl) (by rw [hp']; rfl)
      exact absurd (congrArg some this.symm) ha

/-- A stop that was requested stays requested. -/
theorem Moves.stop_mono (h : M.Moves s a s' evs) {k : Option Nat} (hk : s.stop k = true) : s'.stop k = true := by
  cases h with
  | stop j _ =>
    cases k with
    | none => cases hk
    | some i =>
      show Function.update s.stopped j true i = true
      by_cases hi : i = j
      · subst hi; simp
      · rw [Function.update_of_ne hi]; exact hk
  | _ => exact hk

/-- What a step shows, in order: what a call shows as it enters, or a piece and, if it ends the call at once, the end of
the call, or the end of a call whose notifications are sent. -/
theorem Moves.events_eq (h : M.Moves s a s' evs) :
    (∃ t op, a = .call t op ∧ s.phase t = .outside ∧ evs = (M.enter op s.calls).1 ∧ s'.calls = s.calls + 1) ∨
    (∃ t z l evs', a = .run t z ∧ s.phase t = .locked l ∧ evs = (M.piece s l z).events ++ evs' ∧
      (∀ e ∈ evs', e ∈ (M.piece s l z).next.doneEvents) ∧ s'.calls = s.calls) ∨
    ((∀ t op, a ≠ .call t op) ∧ (∀ t z l, a = .run t z → s.phase t ≠ .locked l) ∧
      (∀ e ∈ evs, ∃ t, e ∈ (s.phase t).doneEvents) ∧ s'.calls = s.calls) := by
  have notify : ∀ (t : τ) n ns k, s.phase t = .notifying n ns k → ∀ e ∈ (afterRelease ns k).2,
      ∃ t, e ∈ (s.phase t).doneEvents := by
    intro t n ns k hp e he
    have := doneEvents_afterRelease (.inr he)
    exact ⟨t, by rw [hp]; cases k <;> exact this⟩
  cases h with
  | enter t op l hp _ => exact .inl ⟨t, op, rfl, hp, rfl, rfl⟩
  | enterNot t op hp _ => exact .inl ⟨t, op, rfl, hp, rfl, rfl⟩
  | hold t z l _ hp _ => exact .inr (.inl ⟨t, z, l, [], rfl, hp, by simp, by simp, rfl⟩)
  | wait t z l _ _ hp _ => exact .inr (.inl ⟨t, z, l, [], rfl, hp, by simp, by simp, rfl⟩)
  | release t z l ns k hp hn =>
    refine .inr (.inl ⟨t, z, l, _, rfl, hp, rfl, ?_, rfl⟩)
    intro e he
    rw [hn]
    exact doneEvents_afterRelease (.inr he)
  | acquire t z l hp _ => exact .inr (.inr ⟨nofun, idle (by simp [hp]), by simp, rfl⟩)
  | pass t z c l hp _ => exact .inr (.inr ⟨nofun, idle (by simp [hp]), by simp, rfl⟩)
  | sleep t z c l hp _ _ => exact .inr (.inr ⟨nofun, idle (by simp [hp]), by simp, rfl⟩)
  | reacquire t z c l hp _ => exact .inr (.inr ⟨nofun, idle (by simp [hp]), by simp, rfl⟩)
  | wakeOne t v c l ns k hp _ => exact .inr (.inr ⟨nofun, nofun, notify t _ ns k hp, rfl⟩)
  | wakeNone t c ns k hp _ => exact .inr (.inr ⟨nofun, nofun, notify t _ ns k hp, rfl⟩)
  | wakeAll t _ c ns k hp => exact .inr (.inr ⟨nofun, nofun, notify t _ ns k hp, rfl⟩)
  | _ => exact .inr (.inr ⟨nofun, nofun, by simp, rfl⟩)

theorem Moves.events_of_piece {t : τ} {z : χ} {l : L} (h : M.Moves s (.run t z) s' evs) (hl : s.phase t = .locked l) :
    ∃ evs', evs = (M.piece s l z).events ++ evs' ∧ ∀ e ∈ evs', e ∈ (M.piece s l z).next.doneEvents := by
  rcases h.events_eq with ⟨t', op, ha, -⟩ | ⟨t', z', l', evs', ha, hl', he, hd, -⟩ | ⟨-, hrun, -⟩
  · cases ha
  · cases ha
    rw [hl] at hl'
    cases hl'
    exact ⟨evs', he, hd⟩
  · exact absurd hl (hrun t z l rfl)

/-- A piece that leaves no events to be shown later. -/
theorem Moves.events_of_quiet_piece {t : τ} {z : χ} {l : L} (h : M.Moves s (.run t z) s' evs)
    (hl : s.phase t = .locked l) (hnil : (M.piece s l z).next.doneEvents = []) : evs = (M.piece s l z).events := by
  obtain ⟨evs', rfl, hd⟩ := h.events_of_piece hl
  rw [hnil] at hd
  have hempty : evs' = [] := List.eq_nil_iff_forall_not_mem.2 fun e he => List.not_mem_nil (hd e he)
  rw [hempty, List.append_nil]

/-- Where the events of a step come from. -/
theorem Moves.mem_events (h : M.Moves s a s' evs) {e : ω} (he : e ∈ evs) :
    (∃ t op, a = .call t op ∧ e ∈ (M.enter op s.calls).1) ∨
    (∃ t z l, a = .run t z ∧ s.phase t = .locked l ∧
      (e ∈ (M.piece s l z).events ∨ e ∈ (M.piece s l z).next.doneEvents)) ∨
    ∃ t, e ∈ (s.phase t).doneEvents := by
  rcases h.events_eq with ⟨t, op, ha, -, rfl, -⟩ | ⟨t, z, l, evs', ha, hl, rfl, hd, -⟩ | ⟨-, -, hd, -⟩
  · exact .inl ⟨t, op, ha, he⟩
  · refine .inr (.inl ⟨t, z, l, ha, hl, ?_⟩)
    rcases List.mem_append.1 he with he | he
    · exact .inl he
    · exact .inr (hd e he)
  · exact .inr (.inr (hd e he))

/-- Where the events a thread has still to show come from. -/
theorem Moves.mem_doneEvents (h : M.Moves s a s' evs) {u : τ} {e : ω} (he : e ∈ (s'.phase u).doneEvents) :
    e ∈ (s.phase u).doneEvents ∨
      ∃ z l n ns k, a = .run u z ∧ s.phase u = .locked l ∧ (M.piece s l z).next = .release (n :: ns) k ∧
        e ∈ (M.piece s l z).next.doneEvents := by
  by_cases hu : a.thread = some u
  · have notify : ∀ n ns k, s.phase u = .notifying n ns k → e ∈ (afterRelease ns k).1.doneEvents →
        e ∈ (s.phase u).doneEvents := by
      intro n ns k hp he
      have := doneEvents_afterRelease (.inl he)
      rw [hp]
      cases k <;> exact this
    cases h with
    | release t z l ns k hp hn =>
      cases hu
      simp only [Function.update_self] at he
      cases ns with
      | nil => cases k <;> cases he
      | cons n ns => exact .inr ⟨z, l, n, ns, k, rfl, hp, hn, by rw [hn]; exact doneEvents_afterRelease (.inl he)⟩
    | wakeOne t v c l ns k hp hv =>
      cases hu
      simp only [Function.update_self] at he
      exact .inl (notify _ ns k hp he)
    | wakeNone t c ns k hp _ =>
      cases hu
      simp only [Function.update_self] at he
      exact .inl (notify _ ns k hp he)
    | wakeAll t _ c ns k hp =>
      cases hu
      simp only [Function.update_self] at he
      exact .inl (notify _ ns k hp he)
    | stopAgain => cases hu
    | stop => cases hu
    | _ =>
      cases hu
      simp only [Function.update_self] at he
      cases he
  · left
    rcases h.other hu with h | ⟨c, l, h1, h2⟩
    · rw [← h]; exact he
    · rw [h2] at he; cases he

/-- A thread has no events behind its notifications as long as no piece of its call leaves any. -/
theorem Moves.doneEvents_eq_nil (h : M.Moves s a s' evs) {u : τ} (hnil : (s.phase u).doneEvents = [])
    (hpiece : ∀ z l n ns k, a = .run u z → s.phase u = .locked l → (M.piece s l z).next = .release (n :: ns) k →
      (M.piece s l z).next.doneEvents = []) : (s'.phase u).doneEvents = [] := by
  rw [List.eq_nil_iff_forall_not_mem]
  intro e he
  rcases h.mem_doneEvents he with he | ⟨z, l, n, ns, k, ha, hl, hn, he⟩
  · rw [hnil] at he
    cases he
  · rw [hpiece z l n ns k ha hl hn] at he
    cases he

/-- Where the events shown or still to be shown after a step come from. -/
theorem Moves.shown (h : M.Moves s a s' evs) {tr : List ω} {e : ω} (he : Shown (tr ++ evs) s' e) :
    Shown tr s e ∨ (∃ t op, a = .call t op ∧ e ∈ (M.enter op s.calls).1) ∨
      ∃ t z l, a = .run t z ∧ s.phase t = .locked l ∧
        (e ∈ (M.piece s l z).events ∨ e ∈ (M.piece s l z).next.doneEvents) := by
  rcases he with he | ⟨u, he⟩
  · rcases List.mem_append.1 he with he | he
    · exact .inl (.inl he)
    · rcases h.mem_events he with he | he | he
      · exact .inr (.inl he)
      · exact .inr (.inr he)
      · exact .inl (.inr he)
  · rcases h.mem_doneEvents he with he | ⟨z, l, -, -, -, ha, hl, -, he⟩
    · exact .inl (.inr ⟨u, he⟩)
    · exact .inr (.inr ⟨u, z, l, ha, hl, .inr he⟩)

theorem Moves.exclusive (h : M.Moves s a s' evs) (hx : Exclusive s) : Exclusive s' := by
  have other : ∀ u, a.thread ≠ some u → (s'.phase u).holds = (s.phase u).holds := by
    intro u hu
    rcases h.other hu with h | ⟨c, l, h1, h2⟩
    · rw [h]
    · rw [h1, h2]; rfl
  -- the thread that moves takes the free lock, keeps what it has, or gives the lock up
  have take : ∀ t : τ, a.thread = some t → s.lock = none → s'.lock = some t → (s'.phase t).holds = true →
      Exclusive s' := by
    intro t ha hl hl' hh u
    rw [hl']
    by_cases hu : u = t
    · subst hu; simp [hh]
    · have := hx u
      rw [hl] at this
      rw [other u (by rw [ha]; exact fun h => hu (Option.some.inj h).symm), ← this]
      simpa using fun h => hu h.symm
  have keep : ∀ t : τ, a.thread = some t → s'.lock = s.lock → (s'.phase t).holds = (s.phase t).holds →
      Exclusive s' := by
    intro t ha hl hh u
    rw [hl]
    by_cases hu : u = t
    · subst hu; rw [hh]; exact hx u
    · rw [other u (by rw [ha]; exact fun h => hu (Option.some.inj h).symm)]; exact hx u
  have drop : ∀ t : τ, a.thread = some t → (s.phase t).holds = true → s'.lock = none →
      (s'.phase t).holds = false → Exclusive s' := by
    intro t ha ht hl hh u
    rw [hl]
    by_cases hu : u = t
    · subst hu; simp [hh]
    · rw [other u (by rw [ha]; exact fun h => hu (Option.some.inj h).symm), ← hx u, (hx t).2 ht]
      simpa using fun h => hu h.symm
  cases h with
  | enter t op l hp _ => exact keep t rfl rfl (by simp [hp, Phase.holds])
  | enterNot t op hp _ => exact keep t rfl rfl (by simp [hp])
  | acquire t z l hp hl => exact take t rfl hl rfl (by simp [Phase.holds])
  | hold t z l l' hp _ => exact keep t rfl rfl (by simp [hp, Phase.holds])
  | wait t z l c l' hp _ => exact keep t rfl rfl (by simp [hp, Phase.holds])
  | release t z l ns k hp _ => exact drop t rfl (by rw [hp]; rfl) rfl (by simp [holds_afterRelease])
  | pass t z c l hp _ => exact keep t rfl rfl (by simp [hp, Phase.holds])
  | sleep t z c l hp _ _ => exact drop t rfl (by rw [hp]; rfl) rfl (by simp [Phase.holds])
  | reacquire t z c l hp hl => exact take t rfl hl rfl (by simp [Phase.holds])
  | wakeOne t v c l ns k hp hv => exact keep t rfl rfl (by simp only [Function.update_self, holds_afterRelease, hp]; rfl)
  | wakeNone t c ns k hp _ => exact keep t rfl rfl (by simp only [Function.update_self, holds_afterRelease, hp]; rfl)
  | wakeAll t _ c ns k hp => exact keep t rfl rfl (by simp only [Function.update_self, holds_afterRelease, hp]; rfl)
  | spurious t c l hp => exact keep t rfl rfl (by simp [hp, Phase.holds])
  | stopAgain => exact hx
  | stop k _ => intro u; rw [other u (fun h => nomatch h)]; exact hx u

/-! ### Runs -/

variable {ok : State τ σ L cv ω → Action τ Op χ → Prop} {x : σ} {tr : List ω}

theorem exclusive_of_exec (h : (M.machine τ).Exec ok (State.init x) tr s) : Exclusive s := by
  refine h.state_invariant ?_ (fun _ _ _ _ hx _ hs => (moves_of_step hs).exclusive hx)
  intro t
  simp [State.init, Phase.holds]

/-- A thread that is asleep has no stop request. -/
theorem asleep_not_stopped (h : (M.machine τ).Exec ok (State.init x) tr s) {t : τ} {c : cv} {l : L}
    (ht : s.phase t = .asleep c l) : s.stop (M.token l) = false := by
  revert t c l
  refine h.state_invariant (I := fun s => ∀ {t c l}, s.phase t = .asleep c l → s.stop (M.token l) = false)
    (fun h => nomatch h) ?_
  intro s a s' evs ih _ hs t c l ht
  have hm := moves_of_step hs
  rcases hm.asleep_eq ht with hwas | ⟨z, -, -, -, hstop, -⟩
  · cases hm with
    | stop k _ =>
      have hold := ih hwas
      have hnot : M.stopWakes k s.phase c = false := by
        rcases wakeWhere_cases (M.stopWakes k s.phase) s.phase t with ⟨_, _, -, -, hw⟩ | ⟨-, hw⟩
        · cases hw.symm.trans ht
        · exact hw c l hwas
      cases hk : M.token l with
      | none => rfl
      | some k' =>
        rw [hk] at hold
        show Function.update s.stopped k true k' = false
        rw [Function.update_of_ne ?_]
        · exact hold
        · rintro rfl
          rw [stopWakes_of_wait (t := t) (l := l) (by rw [hwas]; rfl) hk] at hnot
          cases hnot
    | _ => exact ih hwas
  · exact hstop

/-- A property of all events that end a call after notifications holds of the events still to be shown. -/
theorem doneEvents_of_exec {ok : State τ σ L cv ω → Action τ Op χ → Prop} {D : ω → Prop} {x : σ} {tr : List ω}
    (h : (M.machine τ).Exec ok (State.init x) tr s)
    (hD : ∀ l y stop z n ns k, (M.exec l y stop z).next = .release (n :: ns) k →
      ∀ e ∈ (M.exec l y stop z).next.doneEvents, D e) : ∀ t, ∀ e ∈ (s.phase t).doneEvents, D e := by
  refine h.state_invariant (I := fun s => ∀ t, ∀ e ∈ (s.phase t).doneEvents, D e) ?_ ?_
  · intro t e he
    cases he
  · intro s a s' evs ih _ hs t e he
    rcases (moves_of_step hs).mem_doneEvents he with he | ⟨z, l, n, ns, k, -, -, hn, he⟩
    · exact ih t e he
    · exact hD _ _ _ _ n ns k hn e he

/-- A thread at a piece can run it. -/
theorem exists_piece {t : τ} {l : L} (z : χ) (h : s.phase t = .locked l) :
    ∃ s' evs, (M.machine τ).step s (.run t z) = some (s', evs) ∧ s'.shared = (M.piece s l z).shared ∧
      ∀ e ∈ (M.piece s l z).events, e ∈ evs := by
  cases hn : (M.piece s l z).next with
  | hold l' => exact ⟨_, _, step_of_moves (.hold t z l l' h hn), rfl, fun _ he => he⟩
  | wait c l' => exact ⟨_, _, step_of_moves (.wait t z l c l' h hn), rfl, fun _ he => he⟩
  | release ns k => exact ⟨_, _, step_of_moves (.release t z l ns k h hn), rfl, fun _ he => List.mem_append_left _ he⟩

/-- A thread outside can call an operation. -/
theorem exists_call {t : τ} (op : Op) (h : s.phase t = .outside) : ∃ s' evs, M.Moves s (.call t op) s' evs := by
  cases he : (M.enter op s.calls).2 with
  | some l => exact ⟨_, _, .enter t op l h he⟩
  | none => exact ⟨_, _, .enterNot t op h he⟩

/-- A thread outside can call an operation and take the free lock. -/
theorem exec_enter (t : τ) (op : Op) (l : L) (evs : List ω) (z : χ) (hp : s.phase t = .outside) (hl : s.lock = none)
    (he : M.enter op s.calls = (evs, some l)) :
    (M.machine τ).Exec Machine.Any s evs
      { s with lock := some t, phase := Function.update s.phase t (.locked l), calls := s.calls + 1 } := by
  have h1 := Moves.enter (M := M) t op l hp (by rw [he])
  rw [he] at h1
  have h2 := Moves.acquire (M := M)
    (s := { s with phase := Function.update s.phase t (.ready l), calls := s.calls + 1 }) t z l
    (Function.update_self ..) hl
  simpa using Machine.Exec.snoc (.snoc .nil trivial (step_of_moves h1)) trivial (step_of_moves h2)

/-- A thread at the head of a wait that has nothing to wait for goes through. -/
theorem exec_wait (t : τ) (c : cv) {l : L} (l' : L) (x : σ) (evs : List ω) (z : χ) (hp : s.phase t = .locked l)
    (hn : M.exec l s.shared (s.stop (M.token l)) z = ⟨x, evs, .wait c l'⟩) (hc : M.pred c l' x = true) :
    (M.machine τ).Exec Machine.Any s evs
      { s with shared := x, phase := Function.update s.phase t (.locked l') } := by
  have he : M.piece s l z = ⟨x, evs, .wait c l'⟩ := hn
  have h1 := Moves.wait (M := M) t z l c l' hp (by rw [he])
  rw [he] at h1
  have h2 := Moves.pass (M := M) (s := { s with shared := x, phase := Function.update s.phase t (.waiting c l') })
    t z c l' (Function.update_self ..) (.inr hc)
  simpa using Machine.Exec.snoc (.snoc .nil trivial (step_of_moves h1)) trivial (step_of_moves h2)

/-- A thread whose piece ends its call without notifications leaves. -/
theorem exec_leave (t : τ) {l : L} (x : σ) (evs evs' : List ω) (z : χ) (hp : s.phase t = .locked l)
    (hn : M.exec l s.shared (s.stop (M.token l)) z = ⟨x, evs, .release [] (.done evs')⟩) :
    (M.machine τ).Exec Machine.Any s (evs ++ evs')
      { s with shared := x, lock := none, phase := Function.update s.phase t .outside } := by
  have he : M.piece s l z = ⟨x, evs, .release [] (.done evs')⟩ := hn
  have h1 := Moves.release (M := M) t z l [] (.done evs') hp (by rw [he])
  rw [he] at h1
  simpa [afterRelease] using Machine.Exec.snoc .nil trivial (step_of_moves h1)

/-- The rule for a property `P` of the shared state and properties `A` of the local states of the threads, which may
speak of the shared state: calls allowed by `ok` enter at local states with `A`, and every piece keeps `P`, `A` for the
thread that runs it, and `A` for the others. -/
theorem thread_invariant {P : σ → Prop} {A : τ → L → σ → Prop} (h : (M.machine τ).Exec ok (State.init x) tr s)
    (h0 : P x)
    (henter : ∀ s t op l, ok s (.call t op) → P s.shared → (M.enter op s.calls).2 = some l → A t l s.shared)
    (hexec : ∀ t l y stop z, P y → A t l y → P (M.exec l y stop z).shared ∧
      (∀ l', (M.exec l y stop z).next.local? = some l' → A t l' (M.exec l y stop z).shared) ∧
      ∀ u l', u ≠ t → A u l' y → A u l' (M.exec l y stop z).shared) :
    P s.shared ∧ ∀ t l, (s.phase t).local? = some l → A t l s.shared := by
  refine h.state_invariant (I := fun s => P s.shared ∧ ∀ t l, (s.phase t).local? = some l → A t l s.shared) ⟨h0, ?_⟩ ?_
  · intro t l hl
    cases hl
  · intro s a s' evs ⟨hP, hA⟩ hok hs
    have hm := moves_of_step hs
    constructor
    · rcases hm.shared_eq with ⟨he, -⟩ | ⟨t, z, l, -, hl, he⟩
      · rw [he]; exact hP
      · rw [he]; exact (hexec t l _ _ z hP (hA t l (local?_of_locked hl))).1
    · intro u l' hu
      rcases hm.shared_eq with ⟨he, hidle⟩ | ⟨t, z, l, ha, hl, he⟩
      · rw [he]
        rcases hm.local_eq hu with ⟨hu, -⟩ | ⟨op, rfl, hn⟩ | ⟨z, l₀, ha, h₀, -⟩
        · exact hA u l' hu
        · exact henter s u op l' hok hP hn
        · exact absurd h₀ (hidle u z l₀ ha)
      · rw [he]
        obtain ⟨-, hown, hother⟩ := hexec t l _ _ z hP (hA t l (local?_of_locked hl))
        rcases hm.local_eq hu with ⟨hu, hne⟩ | ⟨op, rfl, -⟩ | ⟨z', l₀, ha', h₀, hn⟩
        · refine hother u l' ?_ (hA u l' hu)
          rintro rfl
          exact hne z l ha hl
        · cases ha
        · rw [ha] at ha'
          cases ha'
          rw [hl] at h₀
          cases h₀
          exact hown l' hn

/-- The rule for properties `P` of the shared state that rest on properties `Q` of the local states alone. -/
theorem shared_invariant {P : σ → Prop} {Q : L → Prop} (h : (M.machine τ).Exec ok (State.init x) tr s) (h0 : P x)
    (henter : ∀ s t op l, ok s (.call t op) → (M.enter op s.calls).2 = some l → Q l)
    (hexec : ∀ l y stop z, P y → Q l → P (M.exec l y stop z).shared ∧
      ∀ l', (M.exec l y stop z).next.local? = some l' → Q l') :
    P s.shared ∧ ∀ t l, (s.phase t).local? = some l → Q l := by
  refine thread_invariant (A := fun _ l _ => Q l) h h0 (fun s t op l hok _ he => henter s t op l hok he) ?_
  intro t l y stop z hP hQ
  obtain ⟨hP', hQ'⟩ := hexec l y stop z hP hQ
  exact ⟨hP', hQ', fun _ _ _ h => h⟩

omit [DecidableEq τ] in
/-- A sum over the threads changes with the summand of the one thread that changes. -/
theorem sum_move {g q : τ → Nat} {t : τ} (h : ∀ u, u ≠ t → q u = g u) :
    (∑ u, q u) + g t = (∑ u, g u) + q t := by
  classical
  have h1 : g t + ∑ u ∈ Finset.univ.erase t, g u = ∑ u, g u := Finset.add_sum_erase _ g (Finset.mem_univ t)
  have h2 : q t + ∑ u ∈ Finset.univ.erase t, q u = ∑ u, q u := Finset.add_sum_erase _ q (Finset.mem_univ t)
  have h3 : ∑ u ∈ Finset.univ.erase t, q u = ∑ u ∈ Finset.univ.erase t, g u :=
    Finset.sum_congr rfl (fun u hu => h u (Finset.ne_of_mem_erase hu))
  omega

omit [DecidableEq τ] in
/-- A sum over the threads in which the summands of the others grow by no more than `d`. -/
theorem sum_grow_le {g q d : τ → Nat} {t : τ} (h : ∀ u, u ≠ t → q u ≤ g u + d u) :
    (∑ u, q u) + g t ≤ (∑ u, g u) + q t + ∑ u, d u := by
  classical
  have h1 : g t + ∑ u ∈ Finset.univ.erase t, g u = ∑ u, g u := Finset.add_sum_erase _ g (Finset.mem_univ t)
  have h2 : q t + ∑ u ∈ Finset.univ.erase t, q u = ∑ u, q u := Finset.add_sum_erase _ q (Finset.mem_univ t)
  have h3 : d t + ∑ u ∈ Finset.univ.erase t, d u = ∑ u, d u := Finset.add_sum_erase _ d (Finset.mem_univ t)
  have h4 : ∑ u ∈ Finset.univ.erase t, q u ≤ ∑ u ∈ Finset.univ.erase t, (g u + d u) :=
    Finset.sum_le_sum (fun u hu => h u (Finset.ne_of_mem_erase hu))
  rw [Finset.sum_add_distrib] at h4
  omega

theorem Moves.calls_le (h : M.Moves s a s' evs) : s.calls ≤ s'.calls := by
  cases h <;> simp

/-- The rule for the numbers of the calls under way: they are different. -/
theorem call_invariant (callOf : L → Nat) (h : (M.machine τ).Exec ok (State.init x) tr s)
    (henter : ∀ op n l, (M.enter op n).2 = some l → callOf l = n)
    (hexec : ∀ l y stop z l', (M.exec l y stop z).next.local? = some l' → callOf l' = callOf l) :
    (∀ t l, (s.phase t).local? = some l → callOf l < s.calls) ∧
      ∀ t u l l', (s.phase t).local? = some l → (s.phase u).local? = some l' → callOf l = callOf l' → t = u := by
  have hN : Numbered s.calls (fun t => (s.phase t).local?.map callOf) := by
    refine h.state_invariant (I := fun s => Numbered s.calls (fun t => (s.phase t).local?.map callOf)) ⟨nofun, nofun⟩ ?_
    intro s a s' evs ih _ hs
    have hm := moves_of_step hs
    refine ih.step a.thread hm.calls_le ?_
    intro t i hi
    obtain ⟨l, hl, rfl⟩ := Option.map_eq_some_iff.1 hi
    rcases hm.local_eq hl with ⟨hl, -⟩ | ⟨op, rfl, he⟩ | ⟨z, l₀, -, h₀, hn⟩
    · exact .inl (by simp only [hl, Option.map_some])
    · refine .inr ⟨rfl, henter _ _ _ he, ?_⟩
      cases hm <;> exact Nat.lt_succ_self _
    · exact .inl (by simp only [h₀, Phase.local?, Option.map_some, hexec _ _ _ _ _ hn])
  constructor
  · intro t l hl
    exact hN.lt t (callOf l) (by simp only [hl, Option.map_some])
  · intro t u l l' ht hu he
    exact hN.inj t u (callOf l) (by simp only [ht, Option.map_some]) (by simp only [hu, Option.map_some, he])

/-- The rule for where threads wait. -/
theorem wait_invariant {W : cv → L → Prop} (h : (M.machine τ).Exec ok (State.init x) tr s)
    (hexec : ∀ l y stop z c l', (M.exec l y stop z).next = .wait c l' → W c l') {t : τ} {c : cv} {l : L}
    (ht : (s.phase t).wait? = some (c, l)) : W c l := by
  revert t c l
  refine h.state_invariant (I := fun s => ∀ {t c l}, (s.phase t).wait? = some (c, l) → W c l) (fun h => nomatch h) ?_
  intro s a s' evs ih _ hs t c l ht
  have hm := moves_of_step hs
  by_cases ha : a.thread = some t
  · cases hm with
    | wait t' z l₀ c' l' hp hn =>
      cases ha
      simp only [Function.update_self, Phase.wait?, Option.some.injEq, Prod.mk.injEq] at ht
      obtain ⟨rfl, rfl⟩ := ht
      exact hexec _ _ _ _ _ _ hn
    | sleep t' z c' l' hp =>
      cases ha
      simp only [Function.update_self] at ht
      exact ih (t := t) (by rw [hp]; exact ht)
    | reacquire t' z c' l' hp =>
      cases ha
      simp only [Function.update_self] at ht
      exact ih (t := t) (by rw [hp]; exact ht)
    | spurious t' c' l' hp =>
      cases ha
      simp only [Function.update_self] at ht
      exact ih (t := t) (by rw [hp]; exact ht)
    | release => cases ha; simp [wait?_afterRelease] at ht
    | wakeOne => cases ha; simp [wait?_afterRelease] at ht
    | wakeNone => cases ha; simp [wait?_afterRelease] at ht
    | wakeAll => cases ha; simp [wait?_afterRelease] at ht
    | stopAgain => cases ha
    | stop => cases ha
    | _ => cases ha; simp [Phase.wait?] at ht
  · rcases hm.other ha with he | ⟨c', l', h1, h2⟩
    · exact ih (t := t) (by rw [← he]; exact ht)
    · rw [h2] at ht
      exact ih (t := t) (by rw [h1]; exact ht)

omit [DecidableEq cv] in
theorem turn?_afterRelease (ns : List (Notification cv)) (k : After L ω) :
    (afterRelease ns k).1.turn? = (match k with | .again l => some l | .done _ => none) := by
  cases ns <;> cases k <;> rfl

/-- The rule for where threads start a new turn. -/
theorem turn_invariant {R : L → Prop} (h : (M.machine τ).Exec ok (State.init x) tr s)
    (henter : ∀ op n l, (M.enter op n).2 = some l → R l)
    (hexec : ∀ l y stop z ns l', (M.exec l y stop z).next = .release ns (.again l') → R l') {t : τ} {l : L}
    (ht : (s.phase t).turn? = some l) : R l := by
  revert t l
  refine h.state_invariant (I := fun s => ∀ {t l}, (s.phase t).turn? = some l → R l) (fun h => nomatch h) ?_
  intro s a s' evs ih _ hs t l ht
  have hm := moves_of_step hs
  have notify : ∀ n ns k, s.phase t = .notifying n ns k → (afterRelease ns k).1.turn? = some l → R l := by
    intro n ns k hp h
    rw [turn?_afterRelease] at h
    refine ih (t := t) ?_
    rw [hp]
    cases k with
    | again l' => exact h
    | done evs => cases h
  by_cases ha : a.thread = some t
  · cases hm with
    | enter t' op l' hp he =>
      cases ha
      simp only [Function.update_self] at ht
      cases ht
      exact henter _ _ _ he
    | release t' z l₀ ns k hp hn =>
      cases ha
      simp only [Function.update_self, turn?_afterRelease] at ht
      cases k with
      | again l' => cases ht; exact hexec _ _ _ _ _ _ hn
      | done evs => cases ht
    | wakeOne t' v c l' ns k hp => cases ha; simp only [Function.update_self] at ht; exact notify _ _ _ hp ht
    | wakeNone t' c ns k hp => cases ha; simp only [Function.update_self] at ht; exact notify _ _ _ hp ht
    | wakeAll t' _ c ns k hp => cases ha; simp only [Function.update_self] at ht; exact notify _ _ _ hp ht
    | stopAgain => cases ha
    | stop => cases ha
    | _ => cases ha; simp [Phase.turn?] at ht
  · rcases hm.other ha with he | ⟨c', l', h1, h2⟩
    · exact ih (t := t) (by rw [← he]; exact ht)
    · rw [h2] at ht; cases ht

/-- The rule for what the holder of the lock knows of the shared state and of the answer of its stop token.  A thread that
starts a new turn is at a local state with `R`, one in its wait with `W`; it knows what it has waited for. -/
theorem held_invariant {H : L → Bool → σ → Prop} {R : L → Prop} {W : cv → L → Prop}
    (h : (M.machine τ).Exec ok (State.init x) tr s) (hmono : ∀ l y, H l false y → H l true y)
    (hturn : ∀ l b y, R l → H l b y)
    (hpass : ∀ c l b y, W c l → b = true ∨ M.pred c l y = true → H l b y)
    (henter : ∀ op n l, (M.enter op n).2 = some l → R l)
    (hagain : ∀ l y b z ns l', (M.exec l y b z).next = .release ns (.again l') → R l')
    (hwait : ∀ l y b z c l', (M.exec l y b z).next = .wait c l' → W c l')
    (hhold : ∀ l y b z l', H l b y → (M.exec l y b z).next = .hold l' →
      M.token l' = M.token l ∧ H l' b (M.exec l y b z).shared) {t : τ} {l : L} (ht : s.phase t = .locked l) :
    H l (s.stop (M.token l)) s.shared := by
  induction h generalizing t l with
  | nil => cases ht
  | @snoc tr evs s s' a h ha hs ih =>
    have hm := moves_of_step hs
    rcases hm.locked_eq (exclusive_of_exec h) ht with ⟨hl, he⟩ | ⟨hl, he⟩ | ⟨c, hl, he, hc⟩ | ⟨z, l₀, rfl, hl, hn, he⟩
    · rw [he]
      have hH := ih hl
      cases hb : s.stop (M.token l) with
      | true =>
        rw [hm.stop_mono hb, ← hb]
        exact hH
      | false =>
        rw [hb] at hH
        cases s'.stop (M.token l) with
        | false => exact hH
        | true => exact hmono l _ hH
    · exact hturn l _ _ (turn_invariant h henter hagain (t := t) (by rw [hl]; rfl))
    · rw [he]
      exact hpass c l _ _ (wait_invariant h hwait (t := t) (by rw [hl]; rfl)) hc
    · obtain ⟨htok, hH⟩ := hhold l₀ _ _ z l (ih hl) hn
      have hst : s'.stop (M.token l) = s.stop (M.token l₀) := by
        rw [htok]
        cases M.token l₀ with
        | none => rfl
        | some k => cases hm <;> rfl
      rw [he, hst]
      exact hH

/-- The rule for a counter `f` of the threads at certain places, each counted with its weight. -/
theorem sum_invariant {f : σ → Nat} {w : L → Nat} (h : (M.machine τ).Exec ok (State.init x) tr s) (h0 : f x = 0)
    (henter : ∀ op n l, (M.enter op n).2 = some l → w l = 0)
    (hexec : ∀ l y stop z, w l ≤ f y →
      f (M.exec l y stop z).shared + w l = f y + (M.exec l y stop z).next.local?.elim 0 w) :
    f s.shared = ∑ t, (s.phase t).local?.elim 0 w := by
  refine h.state_invariant (I := fun s => f s.shared = ∑ t, (s.phase t).local?.elim 0 w) ?_ ?_
  · simpa [State.init, Phase.local?] using h0
  · intro s a s' evs ih hok hs
    have hm := moves_of_step hs
    rcases hm.shared_eq with ⟨he, hidle⟩ | ⟨t, z, l, ha, hl, he⟩
    · rw [he, ih]
      refine Finset.sum_congr rfl (fun u _ => ?_)
      rcases hm.local?_eq u with ⟨he, -⟩ | ⟨op, -, hout, he⟩ | ⟨z, l₀, ha, h₀, -⟩
      · rw [he]
      · rw [he, hout]
        cases hn : (M.enter op s.calls).2 with
        | none => rfl
        | some l => exact (henter op s.calls l hn).symm
      · exact absurd h₀ (hidle u z l₀ ha)
    · have hlt : (s.phase t).local? = some l := local?_of_locked hl
      have hle : w l ≤ f s.shared := by
        rw [ih]
        have := Finset.single_le_sum_of_canonicallyOrdered (f := fun u => (s.phase u).local?.elim 0 w) (Finset.mem_univ t)
        rwa [hlt] at this
      subst ha
      obtain ⟨-, hown, hother⟩ := hm.of_piece hl
      have hmove := sum_move (t := t) (g := fun u => (s.phase u).local?.elim 0 w)
        (q := fun u => (s'.phase u).local?.elim 0 w) (fun u hu => by simp only [hother u hu])
      have hpiece := hexec l s.shared (s.stop (M.token l)) z hle
      change f (M.piece s l z).shared + w l = f s.shared + (M.piece s l z).next.local?.elim 0 w at hpiece
      simp only [hlt, hown, Option.elim_some] at hmove
      rw [he]
      omega

end Monitor

end Concurrency
