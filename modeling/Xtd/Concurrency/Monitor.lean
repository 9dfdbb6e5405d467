import Xtd.Concurrency.Machine

/-!
# Monitors: one mutex, condition variables and stop tokens

The semantics of a class whose methods lock one mutex, wait on condition variables with a predicate and a stop token,
and notify after the lock is released.  A method is given by its local states; what it does between two points at which
another thread or a stop request can interfere is one *piece*, executed with the lock held.

* A thread waits with `while (!stop && !pred) sleep;`: the check is made with the lock held, going to sleep releases
  the lock, and a woken thread takes the lock again and repeats the check.  A thread may wake up spuriously.
* `notify_one` wakes one thread that is asleep on the condition variable if there is one, `notify_all` wakes all.
  Notifications are sent after the lock is released, each as a step of its own.
* A stop request may come between any two steps.  It wakes the threads asleep on a condition variable if a wait with
  that token is active there at that moment, and only then.
-/

namespace Concurrency

inductive Notification (cv : Type)
  | one (c : cv)
  | all (c : cv)
  deriving DecidableEq

/-- What a thread does after its notifications: it comes back for the lock, or its call ends showing `evs`. -/
inductive After (L ω : Type)
  | again (l : L)
  | done (evs : List ω)

/-- How a piece ends: keeping the lock, at the head of a wait, or by releasing the lock. -/
inductive Next (L cv ω : Type)
  | hold (l : L)
  | wait (c : cv) (l : L)
  | release (ns : List (Notification cv)) (k : After L ω)

/-- The outcome of a piece: the new shared state, the events shown and how the thread goes on. -/
structure Piece (σ L cv ω : Type) where
  shared : σ
  events : List ω
  next : Next L cv ω

/-- The program of a monitor.  `enter` is what a call does before it first locks; it is told the number of the call.
`exec l x stop z` is the piece at `l` in the shared state `x`, where `stop` is the answer of the stop token and `z` the
environment's choice. -/
structure Monitor (σ Op L cv χ ω : Type) where
  enter : Op → Nat → List ω × Option L
  token : L → Option Nat
  pred : cv → L → σ → Bool
  exec : L → σ → Bool → χ → Piece σ L cv ω

/-- Where a thread is.  It holds the lock when `locked` or `waiting` (at the head of the wait loop). -/
inductive Phase (L cv ω : Type)
  | outside
  | ready (l : L)
  | locked (l : L)
  | waiting (c : cv) (l : L)
  | asleep (c : cv) (l : L)
  | woken (c : cv) (l : L)
  | notifying (n : Notification cv) (ns : List (Notification cv)) (k : After L ω)

namespace Phase

variable {L cv ω : Type}

/-- The local state of a thread inside a call, if its call goes on with one. -/
def local? : Phase L cv ω → Option L
  | outside => none
  | ready l | locked l | waiting _ l | asleep _ l | woken _ l => some l
  | notifying _ _ (.again l) => some l
  | notifying _ _ (.done _) => none

/-- The events a thread shows when its notifications are sent and its call ends. -/
def doneEvents : Phase L cv ω → List ω
  | notifying _ _ (.done evs) => evs
  | _ => []

def holds : Phase L cv ω → Bool
  | locked _ | waiting _ _ => true
  | _ => false

/-- The condition variable and local state of a thread whose wait is active. -/
def wait? : Phase L cv ω → Option (cv × L)
  | waiting c l | asleep c l | woken c l => some (c, l)
  | _ => none

/-- The local state with which a thread comes to the lock, if it is to start a new turn. -/
def turn? : Phase L cv ω → Option L
  | ready l | notifying _ _ (.again l) => some l
  | _ => none

/-- The thread is outside or asleep. -/
def rests : Phase L cv ω → Bool
  | outside | asleep _ _ => true
  | _ => false

variable [DecidableEq cv]

def asleepOn (c : cv) : Phase L cv ω → Bool
  | asleep c' _ => decide (c' = c)
  | _ => false

/-- The effect of a wake-up on the phase of a thread. -/
def wake : Phase L cv ω → Phase L cv ω
  | asleep c l => woken c l
  | p => p

end Phase

def Next.local? {L cv ω : Type} : Next L cv ω → Option L
  | hold l | wait _ l => some l
  | release _ (.again l) => some l
  | release _ (.done _) => none

/-- The events of the end of the call, if the piece leads to it. -/
def Next.doneEvents {L cv ω : Type} : Next L cv ω → List ω
  | release _ (.done evs) => evs
  | _ => []

/-- The phase after the lock is released, and what is shown if the call ends there. -/
def afterRelease {L cv ω : Type} : List (Notification cv) → After L ω → Phase L cv ω × List ω
  | [], .again l => (.ready l, [])
  | [], .done evs => (.outside, evs)
  | n :: ns, k => (.notifying n ns k, [])

/-- The state of a monitor and its threads `τ`: the shared state, the holder of the lock, the phase of each thread, the
stop tokens on which a stop was requested and the number of calls made so far. -/
structure State (τ σ L cv ω : Type) where
  shared : σ
  lock : Option τ
  phase : τ → Phase L cv ω
  stopped : Nat → Bool
  calls : Nat

inductive Action (τ Op χ : Type)
  | call (t : τ) (op : Op)
  | run (t : τ) (z : χ)
  | notify (t : τ) (target : Option τ)
  | spurious (t : τ)
  | requestStop (k : Nat)

/-- The thread that takes an action; a stop request comes from outside. -/
def Action.thread {τ Op χ : Type} : Action τ Op χ → Option τ
  | call t _ | run t _ | notify t _ | spurious t => some t
  | requestStop _ => none

namespace State

variable {τ σ L cv ω : Type}

/-- A fresh monitor: nobody is inside. -/
def init (x : σ) : State τ σ L cv ω := ⟨x, none, fun _ => .outside, fun _ => false, 0⟩

/-- What a stop token answers; the default token never asks for a stop. -/
def stop (s : State τ σ L cv ω) : Option Nat → Bool
  | none => false
  | some k => s.stopped k

/-- No operation is running, no woken thread has yet to run and no notification is outstanding. -/
def Quiescent (s : State τ σ L cv ω) : Prop :=
  ∀ t, s.phase t = .outside ∨ ∃ c l, s.phase t = .asleep c l

theorem quiescent_iff (s : State τ σ L cv ω) : s.Quiescent ↔ ∀ t, (s.phase t).rests = true := by
  refine forall_congr' (fun t => ?_)
  cases s.phase t <;> simp [Phase.rests]

instance [Fintype τ] (s : State τ σ L cv ω) : Decidable s.Quiescent := decidable_of_iff _ s.quiescent_iff.symm

end State

/-- The event was shown, or will be when the notifications of its call are sent. -/
def Shown {τ σ L cv ω : Type} (tr : List ω) (s : State τ σ L cv ω) (e : ω) : Prop :=
  e ∈ tr ∨ ∃ t, e ∈ (s.phase t).doneEvents

namespace Monitor

variable {τ σ Op L cv χ ω : Type} [DecidableEq τ] [DecidableEq cv]

/-- The phases after everyone who is asleep on a condition variable satisfying `p` is woken. -/
def wakeWhere (p : cv → Bool) (phase : τ → Phase L cv ω) (u : τ) : Phase L cv ω :=
  match phase u with
  | .asleep c l => if p c then .woken c l else .asleep c l
  | ph => ph

/-- Thread `v` is in a wait on `c` with the stop token `k`. -/
def waitsWith (M : Monitor σ Op L cv χ ω) (k : Nat) (c : cv) (ph : Phase L cv ω) : Bool :=
  match ph.wait? with
  | some (c', l) => decide (c' = c) && decide (M.token l = some k)
  | none => false

variable [Fintype τ]

/-- What the stop request on `k` wakes: a condition variable on which a wait with that token is active. -/
def stopWakes (M : Monitor σ Op L cv χ ω) (k : Nat) (phase : τ → Phase L cv ω) (c : cv) : Bool :=
  decide (∃ v, M.waitsWith k c (phase v) = true)

/-- The piece that the thread at `l` executes next. -/
def piece (M : Monitor σ Op L cv χ ω) (s : State τ σ L cv ω) (l : L) (z : χ) : Piece σ L cv ω :=
  M.exec l s.shared (s.stop (M.token l)) z

/-- One step of the monitor. -/
def step (M : Monitor σ Op L cv χ ω) (s : State τ σ L cv ω) : Action τ Op χ → Option (State τ σ L cv ω × List ω)
  | .call t op =>
    match s.phase t with
    | .outside =>
      let ph := match (M.enter op s.calls).2 with
        | some l => .ready l
        | none => .outside
      some ({ s with phase := Function.update s.phase t ph, calls := s.calls + 1 }, (M.enter op s.calls).1)
    | _ => none
  | .run t z =>
    match s.phase t with
    | .ready l =>
      if s.lock.isNone then
        some ({ s with lock := some t, phase := Function.update s.phase t (.locked l) }, [])
      else none
    | .locked l =>
      let p := M.piece s l z
      match p.next with
      | .hold l' => some ({ s with shared := p.shared, phase := Function.update s.phase t (.locked l') }, p.events)
      | .wait c l' =>
        some ({ s with shared := p.shared, phase := Function.update s.phase t (.waiting c l') }, p.events)
      | .release ns k =>
        some ({ s with shared := p.shared, lock := none,
                       phase := Function.update s.phase t (afterRelease ns k).1 },
          p.events ++ (afterRelease ns k).2)
    | .waiting c l =>
      if s.stop (M.token l) || M.pred c l s.shared then
        some ({ s with phase := Function.update s.phase t (.locked l) }, [])
      else
        some ({ s with lock := none, phase := Function.update s.phase t (.asleep c l) }, [])
    | .woken c l =>
      if s.lock.isNone then
        some ({ s with lock := some t, phase := Function.update s.phase t (.waiting c l) }, [])
      else none
    | _ => none
  | .notify t target =>
    match s.phase t with
    | .notifying (.one c) ns k =>
      match target with
      | some u =>
        if (s.phase u).asleepOn c then
          some ({ s with phase := Function.update (Function.update s.phase u (s.phase u).wake) t
                           (afterRelease ns k).1 }, (afterRelease ns k).2)
        else none
      | none =>
        if ∀ u, (s.phase u).asleepOn c = false then
          some ({ s with phase := Function.update s.phase t (afterRelease ns k).1 }, (afterRelease ns k).2)
        else none
    | .notifying (.all c) ns k =>
      some ({ s with phase := Function.update (wakeWhere (fun c' => decide (c' = c)) s.phase) t
                       (afterRelease ns k).1 }, (afterRelease ns k).2)
    | _ => none
  | .spurious t =>
    match s.phase t with
    | .asleep c l => some ({ s with phase := Function.update s.phase t (.woken c l) }, [])
    | _ => none
  | .requestStop k =>
    if s.stopped k then some (s, [])
    else
      some ({ s with stopped := Function.update s.stopped k true,
                     phase := wakeWhere (M.stopWakes k s.phase) s.phase }, [])

/-- The machine of a monitor run by the threads `τ`. -/
def machine (M : Monitor σ Op L cv χ ω) (τ : Type) [DecidableEq τ] [Fintype τ] :
    Machine (State τ σ L cv ω) (Action τ Op χ) ω :=
  ⟨M.step⟩

/-- Everything one step can do. -/
inductive Moves (M : Monitor σ Op L cv χ ω) (s : State τ σ L cv ω) :
    Action τ Op χ → State τ σ L cv ω → List ω → Prop
  | enter (t : τ) (op : Op) (l : L) (h : s.phase t = .outside) (he : (M.enter op s.calls).2 = some l) :
      Moves M s (.call t op) { s with phase := Function.update s.phase t (.ready l), calls := s.calls + 1 }
        (M.enter op s.calls).1
  | enterNot (t : τ) (op : Op) (h : s.phase t = .outside) (he : (M.enter op s.calls).2 = none) :
      Moves M s (.call t op) { s with phase := Function.update s.phase t .outside, calls := s.calls + 1 }
        (M.enter op s.calls).1
  | acquire (t : τ) (z : χ) (l : L) (h : s.phase t = .ready l) (hl : s.lock = none) :
      Moves M s (.run t z) { s with lock := some t, phase := Function.update s.phase t (.locked l) } []
  | hold (t : τ) (z : χ) (l l' : L) (h : s.phase t = .locked l) (hn : (M.piece s l z).next = .hold l') :
      Moves M s (.run t z)
        { s with shared := (M.piece s l z).shared, phase := Function.update s.phase t (.locked l') }
        (M.piece s l z).events
  | wait (t : τ) (z : χ) (l : L) (c : cv) (l' : L) (h : s.phase t = .locked l)
      (hn : (M.piece s l z).next = .wait c l') :
      Moves M s (.run t z)
        { s with shared := (M.piece s l z).shared, phase := Function.update s.phase t (.waiting c l') }
        (M.piece s l z).events
  | release (t : τ) (z : χ) (l : L) (ns : List (Notification cv)) (k : After L ω) (h : s.phase t = .locked l)
      (hn : (M.piece s l z).next = .release ns k) :
      Moves M s (.run t z)
        { s with shared := (M.piece s l z).shared, lock := none,
                 phase := Function.update s.phase t (afterRelease ns k).1 }
        ((M.piece s l z).events ++ (afterRelease ns k).2)
  | pass (t : τ) (z : χ) (c : cv) (l : L) (h : s.phase t = .waiting c l)
      (hp : s.stop (M.token l) = true ∨ M.pred c l s.shared = true) :
      Moves M s (.run t z) { s with phase := Function.update s.phase t (.locked l) } []
  | sleep (t : τ) (z : χ) (c : cv) (l : L) (h : s.phase t = .waiting c l)
      (hs : s.stop (M.token l) = false) (hp : M.pred c l s.shared = false) :
      Moves M s (.run t z) { s with lock := none, phase := Function.update s.phase t (.asleep c l) } []
  | reacquire (t : τ) (z : χ) (c : cv) (l : L) (h : s.phase t = .woken c l) (hl : s.lock = none) :
      Moves M s (.run t z) { s with lock := some t, phase := Function.update s.phase t (.waiting c l) } []
  | wakeOne (t u : τ) (c : cv) (l : L) (ns : List (Notification cv)) (k : After L ω)
      (h : s.phase t = .notifying (.one c) ns k) (hu : s.phase u = .asleep c l) :
      Moves M s (.notify t (some u))
        { s with phase := Function.update (Function.update s.phase u (.woken c l)) t (afterRelease ns k).1 }
        (afterRelease ns k).2
  | wakeNone (t : τ) (c : cv) (ns : List (Notification cv)) (k : After L ω)
      (h : s.phase t = .notifying (.one c) ns k) (hu : ∀ u l, s.phase u ≠ .asleep c l) :
      Moves M s (.notify t none) { s with phase := Function.update s.phase t (afterRelease ns k).1 }
        (afterRelease ns k).2
  | wakeAll (t : τ) (target : Option τ) (c : cv) (ns : List (Notification cv)) (k : After L ω)
      (h : s.phase t = .notifying (.all c) ns k) :
      Moves M s (.notify t target)
        { s with phase := Function.update (wakeWhere (fun c' => decide (c' = c)) s.phase) t
                   (afterRelease ns k).1 }
        (afterRelease ns k).2
  | spurious (t : τ) (c : cv) (l : L) (h : s.phase t = .asleep c l) :
      Moves M s (.spurious t) { s with phase := Function.update s.phase t (.woken c l) } []
  | stopAgain (k : Nat) (h : s.stopped k = true) : Moves M s (.requestStop k) s []
  | stop (k : Nat) (h : s.stopped k = false) :
      Moves M s (.requestStop k)
        { s with stopped := Function.update s.stopped k true,
                 phase := wakeWhere (M.stopWakes k s.phase) s.phase } []

omit [DecidableEq τ] [Fintype τ] in
theorem asleepOn_eq_true {s : State τ σ L cv ω} {u : τ} {c : cv} (h : (s.phase u).asleepOn c = true) :
    ∃ l, s.phase u = .asleep c l := by
  cases hp : s.phase u with
  | asleep c' l =>
    rw [hp] at h
    simp only [Phase.asleepOn, decide_eq_true_eq] at h
    exact ⟨l, by rw [h]⟩
  | _ => rw [hp] at h; cases h

theorem moves_of_step {M : Monitor σ Op L cv χ ω} {s s' : State τ σ L cv ω} {a : Action τ Op χ} {evs : List ω}
    (h : (M.machine τ).step s a = some (s', evs)) : M.Moves s a s' evs := by
  change M.step s a = some (s', evs) at h
  cases a with
  | call t op =>
    cases hp : s.phase t with
    | outside =>
      cases he : (M.enter op s.calls).2 with
      | some l =>
        simp only [step, hp, he, Option.some.injEq, Prod.mk.injEq] at h
        obtain ⟨rfl, rfl⟩ := h
        exact .enter t op l hp he
      | none =>
        simp only [step, hp, he, Option.some.injEq, Prod.mk.injEq] at h
        obtain ⟨rfl, rfl⟩ := h
        exact .enterNot t op hp he
    | _ => simp [step, hp] at h
  | run t z =>
    cases hp : s.phase t with
    | ready l =>
      simp only [step, hp, Option.isNone_iff_eq_none] at h
      split at h
      · rename_i hl
        simp only [Option.some.injEq, Prod.mk.injEq] at h
        obtain ⟨rfl, rfl⟩ := h
        exact .acquire t z l hp hl
      · cases h
    | locked l =>
      simp only [step, hp] at h
      cases hn : (M.piece s l z).next with
      | hold l' =>
        simp only [hn, Option.some.injEq, Prod.mk.injEq] at h
        obtain ⟨rfl, rfl⟩ := h
        exact .hold t z l l' hp hn
      | wait c l' =>
        simp only [hn, Option.some.injEq, Prod.mk.injEq] at h
        obtain ⟨rfl, rfl⟩ := h
        exact .wait t z l c l' hp hn
      | release ns k =>
        simp only [hn, Option.some.injEq, Prod.mk.injEq] at h
        obtain ⟨rfl, rfl⟩ := h
        exact .release t z l ns k hp hn
    | waiting c l =>
      simp only [step, hp, Bool.or_eq_true] at h
      split at h
      · rename_i hc
        simp only [Option.some.injEq, Prod.mk.injEq] at h
        obtain ⟨rfl, rfl⟩ := h
        exact .pass t z c l hp hc
      · rename_i hc
        simp only [not_or, Bool.not_eq_true] at hc
        simp only [Option.some.injEq, Prod.mk.injEq] at h
        obtain ⟨rfl, rfl⟩ := h
        exact .sleep t z c l hp hc.1 hc.2
    | woken c l =>
      simp only [step, hp, Option.isNone_iff_eq_none] at h
      split at h
      · rename_i hl
        simp only [Option.some.injEq, Prod.mk.injEq] at h
        obtain ⟨rfl, rfl⟩ := h
        exact .reacquire t z c l hp hl
      · cases h
    | _ => simp [step, hp] at h
  | notify t target =>
    cases hp : s.phase t with
    | notifying n ns k =>
      cases n with
      | one c =>
        cases target with
        | some u =>
          simp only [step, hp] at h
          split at h
          · rename_i hu
            obtain ⟨l, hl⟩ := asleepOn_eq_true hu
            simp only [hl, Phase.wake, Option.some.injEq, Prod.mk.injEq] at h
            obtain ⟨rfl, rfl⟩ := h
            exact .wakeOne t u c l ns k hp hl
          · cases h
        | none =>
          simp only [step, hp] at h
          split at h
          · rename_i hu
            simp only [Option.some.injEq, Prod.mk.injEq] at h
            obtain ⟨rfl, rfl⟩ := h
            refine .wakeNone t c ns k hp ?_
            intro u l hl
            simpa [hl, Phase.asleepOn] using hu u
          · cases h
      | all c =>
        simp only [step, hp, Option.some.injEq, Prod.mk.injEq] at h
        obtain ⟨rfl, rfl⟩ := h
        exact .wakeAll t target c ns k hp
    | _ => simp [step, hp] at h
  | spurious t =>
    cases hp : s.phase t with
    | asleep c l =>
      simp only [step, hp, Option.some.injEq, Prod.mk.injEq] at h
      obtain ⟨rfl, rfl⟩ := h
      exact .spurious t c l hp
    | _ => simp [step, hp] at h
  | requestStop k =>
    simp only [step] at h
    split at h
    · rename_i hk
      simp only [Option.some.injEq, Prod.mk.injEq] at h
      obtain ⟨rfl, rfl⟩ := h
      exact .stopAgain k hk
    · rename_i hk
      simp only [Option.some.injEq, Prod.mk.injEq] at h
      obtain ⟨rfl, rfl⟩ := h
      exact .stop k (by simpa using hk)

theorem step_of_moves {M : Monitor σ Op L cv χ ω} {s s' : State τ σ L cv ω} {a : Action τ Op χ} {evs : List ω}
    (h : M.Moves s a s' evs) : (M.machine τ).step s a = some (s', evs) := by
  show M.step s a = some (s', evs)
  cases h with
  | enter t op l hp he => simp [step, hp, he]
  | enterNot t op hp he => simp [step, hp, he]
  | acquire t z l hp hl => simp [step, hp, hl]
  | hold t z l l' hp hn => simp [step, hp, hn]
  | wait t z l c l' hp hn => simp [step, hp, hn]
  | release t z l ns k hp hn => simp [step, hp, hn]
  | pass t z c l hp hc => rcases hc with hc | hc <;> simp [step, hp, hc]
  | sleep t z c l hp hs hc => simp [step, hp, hs, hc]
  | reacquire t z c l hp hl => simp [step, hp, hl]
  | wakeOne t u c l ns k hp hu => simp [step, hp, hu, Phase.asleepOn, Phase.wake]
  | wakeNone t c ns k hp hu =>
    have hu' : ∀ u, (s.phase u).asleepOn c = false := by
      intro u
      cases hc : (s.phase u).asleepOn c with
      | false => rfl
      | true =>
        obtain ⟨l, hl⟩ := asleepOn_eq_true hc
        exact absurd hl (hu u l)
    simp [step, hp, hu']
  | wakeAll t target c ns k hp => simp [step, hp]
  | spurious t c l hp => simp [step, hp]
  | stopAgain k hk => simp [step, hk]
  | stop k hk => simp [step, hk]

end Monitor

end Concurrency
