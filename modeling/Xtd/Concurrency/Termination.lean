import Xtd.Concurrency.Alone
import Xtd.Concurrency.WakeUp

/-!
# Runs that come to an end

When does a monitor come to rest if no new calls are made?  A ranking gives every local state a bound on the work a thread
still has to do there, and the shared state a value for the work that is waiting in it.  Under a condition that ends all
waits every step of a thread lowers the sum, so a run without calls has only so many of them; and a thread inside always
leaves some thread a step to take, so the runs that cannot be prolonged are those after which everyone is outside.
-/

namespace Concurrency

/-- `M.Path ok s as t`: the actions `as` can be taken one after the other from `s` and lead to `t`. -/
inductive Machine.Path {σ α ω : Type} (M : Machine σ α ω) (ok : σ → α → Prop) (s : σ) : List α → σ → Prop
  | nil : Path M ok s [] s
  | snoc {as : List α} {t u : σ} {a : α} {evs : List ω} (h : Path M ok s as t) (ha : ok t a)
      (hs : M.step t a = some (u, evs)) : Path M ok s (as ++ [a]) u

/-- A path is a run. -/
theorem Machine.Path.exec {σ α ω : Type} {M : Machine σ α ω} {ok : σ → α → Prop} {s t : σ} {as : List α}
    (h : M.Path ok s as t) : ∃ tr, M.Exec ok s tr t := by
  induction h with
  | nil => exact ⟨[], .nil⟩
  | snoc _ ha hs ih =>
    obtain ⟨tr, htr⟩ := ih
    exact ⟨_, htr.snoc ha hs⟩

private theorem Machine.Path.cons {σ α ω : Type} {M : Machine σ α ω} {ok : σ → α → Prop} {s t u : σ} {a : α}
    {as : List α} {evs : List ω} (ha : ok s a) (hs : M.step s a = some (t, evs)) (h : M.Path ok t as u) :
    M.Path ok s (a :: as) u := by
  induction h with
  | nil => exact .snoc .nil ha hs
  | snoc _ ha' hs' ih => exact .snoc ih ha' hs'

/-- The actions of a run that was evaluated are a path. -/
theorem Machine.path_of_run {σ α ω : Type} {M : Machine σ α ω} {ok : σ → α → Prop} {allowed : σ → α → Bool}
    (hok : ∀ s a, allowed s a = true → ok s a) {as : List α} {s t : σ} {tr : List ω}
    (h : M.run allowed s as = some (tr, t)) : M.Path ok s as t := by
  induction as generalizing s tr with
  | nil =>
    cases h
    exact .nil
  | cons a as ih =>
    unfold Machine.run at h
    split at h
    · rename_i ha
      cases hs : M.step s a with
      | none => simp [hs] at h
      | some x =>
        cases hr : M.run allowed x.1 as with
        | none => simp [hs, hr] at h
        | some y =>
          simp only [hs, hr, Option.some.injEq, Prod.mk.injEq] at h
          obtain ⟨-, rfl⟩ := h
          exact .cons (hok s a ha) hs (ih hr)
    · cases h

/-- A step of a thread inside a call, also one that wakes up for no reason. -/
def Action.goesOn {τ Op χ : Type} : Action τ Op χ → Bool
  | run _ _ | notify _ _ | spurious _ => true
  | call _ _ | requestStop _ => false

def Action.isCall {τ Op χ : Type} : Action τ Op χ → Bool
  | call _ _ => true
  | run _ _ | notify _ _ | spurious _ | requestStop _ => false

section Rank

variable {L cv ω : Type} (rank : L → Nat)

def After.steps : After L ω → Nat
  | again l => rank l + 1
  | done _ => 0

/-- The steps a thread has still to take, counting those on the way to the lock. -/
def Phase.steps : Phase L cv ω → Nat
  | outside => 0
  | locked l => rank l
  | ready l | waiting _ l => rank l + 1
  | woken _ l => rank l + 2
  | asleep _ l => rank l + 3
  | notifying _ ns k => ns.length + 1 + k.steps rank

/-- A thread at rest that is not on its way through a call is outside. -/
theorem Phase.eq_outside {ph : Phase L cv ω} (hrests : ph.rests = true) (hlocal : ph.local?.isNone = true) :
    ph = .outside := by
  cases ph with
  | outside => rfl
  | asleep => cases hlocal
  | _ => cases hrests

/-- The steps that a piece leaves to its thread. -/
def Next.steps : Next L cv ω → Nat
  | hold l => rank l
  | wait _ l => rank l + 1
  | release ns k => ns.length + k.steps rank

theorem steps_afterRelease (ns : List (Notification cv)) (k : After L ω) :
    (afterRelease ns k).1.steps rank = ns.length + k.steps rank := by
  cases ns <;> cases k <;> simp [afterRelease, Phase.steps, After.steps]

theorem steps_wakeWhere {τ : Type} (p : cv → Bool) (phase : τ → Phase L cv ω) (u : τ) :
    (Monitor.wakeWhere p phase u).steps rank ≤ (phase u).steps rank := by
  unfold Monitor.wakeWhere
  split
  · rename_i c l h
    rw [h]
    split <;> simp [Phase.steps]
  · exact Nat.le_refl _

end Rank

namespace Monitor

variable {τ σ Op L cv χ ω : Type} [DecidableEq τ] [DecidableEq cv] [Fintype τ]

/-- Under `I`, which pieces keep, nobody has to wait and every piece leaves less to do than there was. -/
structure Ranking (M : Monitor σ Op L cv χ ω) (I : σ → Prop) (value : σ → Nat) (rank : L → Nat) : Prop where
  pred : ∀ c l x, I x → M.pred c l x = true
  keeps : ∀ l x stop z, I x → I (M.exec l x stop z).shared
  hold : ∀ l x stop z l', I x → (M.exec l x stop z).next = .hold l' →
    value (M.exec l x stop z).shared + rank l' < value x + rank l
  wait : ∀ l x stop z c l', I x → (M.exec l x stop z).next = .wait c l' →
    value (M.exec l x stop z).shared + rank l' + 1 < value x + rank l
  release : ∀ l x stop z ns k, I x → (M.exec l x stop z).next = .release ns k →
    value (M.exec l x stop z).shared + (ns.length + k.steps rank) < value x + rank l

/-- All the work left: that of the threads and that in the shared state. -/
def work (value : σ → Nat) (rank : L → Nat) (s : State τ σ L cv ω) : Nat :=
  value s.shared + ∑ t, (s.phase t).steps rank

variable {M : Monitor σ Op L cv χ ω} {I : σ → Prop} {value : σ → Nat} {rank : L → Nat}
  {s s' : State τ σ L cv ω} {a : Action τ Op χ} {evs : List ω}

/-- A step of `t` adds no work but that of `t` and of the shared state. -/
theorem work_move_le {t : τ} (h : M.Moves s a s' evs) (ha : a.thread = some t) :
    work value rank s' + (value s.shared + (s.phase t).steps rank) ≤
      work value rank s + (value s'.shared + (s'.phase t).steps rank) := by
  have hsum := sum_grow_le (g := fun u => (s.phase u).steps rank) (q := fun u => (s'.phase u).steps rank)
    (d := fun _ => 0) (t := t) ?_
  · rw [Finset.sum_const_zero] at hsum
    unfold work
    omega
  · intro u hu
    have hne : a.thread ≠ some u := by
      rw [ha]
      exact fun e => hu (Option.some.inj e).symm
    rcases h.other hne with he | ⟨c, l, h1, h2⟩
    · rw [he]
      exact Nat.le_refl _
    · rw [h1, h2]
      simp [Phase.steps]

private theorem work_lt_of_thread {t : τ} (h : M.Moves s a s' evs) (ha : a.thread = some t)
    (hlt : value s'.shared + (s'.phase t).steps rank < value s.shared + (s.phase t).steps rank) :
    work value rank s' < work value rank s := by
  have hmove : work value rank s' + (value s.shared + (s.phase t).steps rank) ≤
      work value rank s + (value s'.shared + (s'.phase t).steps rank) := work_move_le h ha
  omega

namespace Ranking

/-- A step inside a call lowers the work. -/
theorem work_lt (hR : M.Ranking I value rank) (hI : I s.shared) (h : M.Moves s a s' evs) (ha : a.goesOn = true) :
    work value rank s' < work value rank s := by
  cases h with
  | enter => cases ha
  | enterNot => cases ha
  | stopAgain => cases ha
  | stop => cases ha
  | acquire t z l hp hl =>
    refine work_lt_of_thread (.acquire (M := M) t z l hp hl) rfl ?_
    simp [hp, Phase.steps]
  | hold t z l l' hp hn =>
    refine work_lt_of_thread (.hold (M := M) t z l l' hp hn) rfl ?_
    have hlt := hR.hold l s.shared _ z l' hI hn
    simp only [Function.update_self, hp, Phase.steps]
    exact hlt
  | wait t z l c l' hp hn =>
    refine work_lt_of_thread (.wait (M := M) t z l c l' hp hn) rfl ?_
    have hlt := hR.wait l s.shared _ z c l' hI hn
    simp only [Function.update_self, hp, Phase.steps]
    exact hlt
  | release t z l ns k hp hn =>
    refine work_lt_of_thread (.release (M := M) t z l ns k hp hn) rfl ?_
    have hlt := hR.release l s.shared _ z ns k hI hn
    simp only [Function.update_self, hp, steps_afterRelease]
    exact hlt
  | pass t z c l hp hc =>
    refine work_lt_of_thread (.pass (M := M) t z c l hp hc) rfl ?_
    simp [hp, Phase.steps]
  | sleep t z c l hp hs hc =>
    rw [hR.pred c l s.shared hI] at hc
    cases hc
  | reacquire t z c l hp hl =>
    refine work_lt_of_thread (.reacquire (M := M) t z c l hp hl) rfl ?_
    simp [hp, Phase.steps]
  | wakeOne t u c l ns k hp hu =>
    refine work_lt_of_thread (.wakeOne (M := M) t u c l ns k hp hu) rfl ?_
    simp only [Function.update_self, hp, steps_afterRelease]
    simp [Phase.steps]
  | wakeNone t c ns k hp hu =>
    refine work_lt_of_thread (.wakeNone (M := M) t c ns k hp hu) rfl ?_
    simp only [Function.update_self, hp, steps_afterRelease]
    simp [Phase.steps]
  | wakeAll t target c ns k hp =>
    refine work_lt_of_thread (.wakeAll (M := M) t target c ns k hp) rfl ?_
    simp only [Function.update_self, hp, steps_afterRelease]
    simp [Phase.steps]
  | spurious t c l hp =>
    refine work_lt_of_thread (.spurious (M := M) t c l hp) rfl ?_
    simp [hp, Phase.steps]

omit [DecidableEq τ] [DecidableEq cv] [Fintype τ] in
/-- A piece leaves less to do. -/
theorem piece_lt (hR : M.Ranking I value rank) {x : σ} (hI : I x) (l : L) (stop : Bool) (z : χ) :
    value (M.exec l x stop z).shared + (M.exec l x stop z).next.steps rank < value x + rank l := by
  cases hn : (M.exec l x stop z).next with
  | hold l' => exact hR.hold l x stop z l' hI hn
  | wait c l' => exact hR.wait l x stop z c l' hI hn
  | release ns k => exact hR.release l x stop z ns k hI hn

/-- A stop request adds no work. -/
theorem work_le_of_stop {k : Nat} (h : M.Moves s (.requestStop k) s' evs) : work value rank s' ≤ work value rank s := by
  cases h with
  | stopAgain => exact Nat.le_refl _
  | stop =>
    have := Finset.sum_le_sum (fun u (_ : u ∈ Finset.univ) => steps_wakeWhere rank (M.stopWakes k s.phase) s.phase u)
    exact Nat.add_le_add_left this _

/-- A call adds what there is to do in it. -/
theorem work_of_call {t : τ} {op : Op} (h : M.Moves s (.call t op) s' evs) :
    s'.shared = s.shared ∧
      work value rank s' = work value rank s + ((M.enter op s.calls).2.map fun l => rank l + 1).getD 0 := by
  have hsum : s'.shared = s.shared → s.phase t = .outside → (∀ u, u ≠ t → s'.phase u = s.phase u) →
      work value rank s' = work value rank s + (s'.phase t).steps rank := by
    intro hsh hout hother
    have := sum_move (g := fun u => (s.phase u).steps rank) (q := fun u => (s'.phase u).steps rank) (t := t)
      (fun u hu => by rw [hother u hu])
    have hzero : (s.phase t).steps rank = 0 := by
      rw [hout]
      rfl
    unfold work
    rw [hsh]
    omega
  cases h with
  | enter _ _ l hp he =>
    refine ⟨rfl, ?_⟩
    rw [hsum rfl hp (fun u hu => Function.update_of_ne hu ..), he]
    simp [Phase.steps]
  | enterNot _ _ hp he =>
    refine ⟨rfl, ?_⟩
    rw [hsum rfl hp (fun u hu => Function.update_of_ne hu ..), he]
    simp [Phase.steps]

theorem moves_keeps (hR : M.Ranking I value rank) (hI : I s.shared) (h : M.Moves s a s' evs) : I s'.shared := by
  rcases h.shared_eq with ⟨he, -⟩ | ⟨t, z, l, -, -, he⟩
  · rw [he]
    exact hI
  · rw [he]
    exact hR.keeps l _ _ z hI

/-- A run without calls has no more steps inside calls than there is work. -/
theorem path_length_le (hR : M.Ranking I value rank) (hI : I s.shared) {as : List (Action τ Op χ)}
    (h : (M.machine τ).Path (fun _ a => ∀ t op, a ≠ .call t op) s as s') :
    I s'.shared ∧ as.countP Action.goesOn + work value rank s' ≤ work value rank s := by
  induction h with
  | nil => exact ⟨hI, by simp⟩
  | @snoc as t u a evs _ ha hs ih =>
    obtain ⟨hIt, hle⟩ := ih
    have hm := moves_of_step hs
    refine ⟨hR.moves_keeps hIt hm, ?_⟩
    rw [List.countP_append, List.countP_singleton]
    by_cases hg : a.goesOn = true
    · have := hR.work_lt hIt hm hg
      rw [if_pos hg]
      omega
    · have hstop : work value rank u ≤ work value rank t := by
        cases a with
        | call t op => exact absurd rfl (ha t op)
        | requestStop k => exact work_le_of_stop hm
        | _ => exact absurd rfl hg
      rw [if_neg hg]
      omega

end Ranking

/-- The thread after a piece. -/
theorem Moves.steps_of_piece {t : τ} {z : χ} {l : L} (h : M.Moves s (.run t z) s' evs) (hl : s.phase t = .locked l) :
    (s'.phase t).steps rank = (M.piece s l z).next.steps rank := by
  have hlocked : ∀ {ph : Phase L cv ω}, s.phase t = ph → .locked l = ph := fun hp => hl.symm.trans hp
  cases h with
  | hold t z l' l'' hp hn => cases hlocked hp; rw [hn]; simp [Phase.steps, Next.steps]
  | wait t z l' c l'' hp hn => cases hlocked hp; rw [hn]; simp [Phase.steps, Next.steps]
  | release t z l' ns k hp hn => cases hlocked hp; rw [hn]; simp [steps_afterRelease, Next.steps]
  | acquire t z l' hp => cases hlocked hp
  | pass t z c l' hp => cases hlocked hp
  | sleep t z c l' hp => cases hlocked hp
  | reacquire t z c l' hp => cases hlocked hp

/-! ### Someone can go on -/

/-- A thread outside has no step of its own but a call. -/
theorem step_own_of_outside {t : τ} (ht : s.phase t = .outside) (ha : a.Own t) : M.step s a = none := by
  rcases ha with ⟨z, rfl⟩ | ⟨target, rfl⟩
  · simp [step, ht]
  · simp [step, ht]

/-- A thread that does not rest has a step to take, or the holder of the lock has. -/
theorem exists_own_move_of_active [Nonempty χ] (hx : Exclusive s) {t : τ} (ht : (s.phase t).rests = false) :
    ∃ u, ∃ a : Action τ Op χ, a.Own u ∧ ∃ s' evs, M.Moves s a s' evs := by
  obtain ⟨z⟩ := (inferInstance : Nonempty χ)
  cases hl : s.lock with
  | some u =>
    -- the holder of the lock can go on
    have hu := (hx u).1 hl
    refine ⟨u, .run u z, .inl ⟨z, rfl⟩, ?_⟩
    cases hp : s.phase u with
    | locked l =>
      obtain ⟨s', evs, hs, -⟩ := exists_piece (M := M) z hp
      exact ⟨s', evs, moves_of_step hs⟩
    | waiting c l =>
      by_cases hc : s.stop (M.token l) = true ∨ M.pred c l s.shared = true
      · exact ⟨_, _, .pass u z c l hp hc⟩
      · simp only [not_or, Bool.not_eq_true] at hc
        exact ⟨_, _, .sleep u z c l hp hc.1 hc.2⟩
    | _ => rw [hp] at hu; cases hu
  | none =>
    have hfree : (s.phase t).holds = false := by
      rw [← Bool.not_eq_true, ← hx t, hl]
      nofun
    cases hp : s.phase t with
    | outside => rw [hp] at ht; cases ht
    | ready l => exact ⟨t, .run t z, .inl ⟨z, rfl⟩, _, _, .acquire t z l hp hl⟩
    | locked l => rw [hp] at hfree; cases hfree
    | waiting c l => rw [hp] at hfree; cases hfree
    | woken c l => exact ⟨t, .run t z, .inl ⟨z, rfl⟩, _, _, .reacquire t z c l hp hl⟩
    | notifying n ns k =>
      obtain ⟨a, ha, hm⟩ := exists_notify (M := M) hp
      exact ⟨t, a, ha, hm⟩
    | asleep c l => rw [hp] at ht; cases ht

/-- A thread inside a call has a step to take, or another thread has, unless everyone inside is asleep and nobody is
about to wake them. -/
theorem exists_own_move [Nonempty χ] (hx : Exclusive s) {t : τ} (ht : s.phase t ≠ .outside)
    (hasleep : ∀ u c l, s.phase u = .asleep c l → ∃ v, (s.phase v).sendsAll c) :
    ∃ u, ∃ a : Action τ Op χ, a.Own u ∧ ∃ s' evs, M.Moves s a s' evs := by
  cases hp : s.phase t with
  | outside => exact absurd hp ht
  | asleep c l =>
    obtain ⟨v, hv⟩ := hasleep t c l hp
    have hactive : (s.phase v).rests = false := by
      cases hq : s.phase v with
      | notifying => rfl
      | _ => rw [hq] at hv; exact hv.elim
    exact exists_own_move_of_active hx hactive
  | _ => exact exists_own_move_of_active hx (t := t) (by rw [hp]; rfl)

end Monitor

end Concurrency
