import Xtd.Concurrency.ClientPair
import Xtd.Concurrency.Joining

/-!
# Paying for wake-ups

A thread that is woken may find that it has to wait again, so the work left does not fall with every step of a monitor.
Here a place of a call is charged for what its thread does until it is next asleep, and whoever sends a notification pays
for the wake-ups it causes.  Then only wake-ups for no reason and stop requests add to the sum of the charges.  If two
clients can pay for their calls and pieces, the length of a run is bounded, but for what these have caused.
-/

namespace Concurrency

variable {γ δ τ σ Op L cv χ ω : Type}

/-- How many steps an action can cause among `n` threads that nobody has paid for, its own included. -/
def Action.causes (n : Nat) : Action τ Op χ → Nat
  | spurious _ => 3
  | requestStop _ => 2 * n + 1
  | _ => 0

/-- What the places of a call are charged: on the way to the lock, in a wait, and with the lock held. -/
structure Charges (σ L : Type) where
  arriving : L → Nat
  waiting : L → Nat
  holding : L → σ → Nat

namespace Charges

variable (K : Charges σ L) (n : Nat)

/-- What a notification costs if there are `n` threads to wake. -/
def price : Notification cv → Nat
  | .one _ => 3
  | .all _ => 2 * n + 1

def prices (ns : List (Notification cv)) : Nat := (ns.map (price n)).sum

def enter (l? : Option L) : Nat := (l?.map fun l => K.arriving l + 1).getD 0

def after : After L ω → Nat
  | .again l => K.arriving l + 1
  | .done _ => 0

/-- The charge of a thread. -/
def phase (y : σ) : Phase L cv ω → Nat
  | .outside => 0
  | .ready l => K.arriving l + 1
  | .locked l => K.holding l y
  | .waiting _ l => K.waiting l + 1
  | .asleep _ l => K.waiting l
  | .woken _ l => K.waiting l + 2
  | .notifying m ns k => price n m + prices n ns + K.after k

/-- What a piece leaves its thread charged with. -/
def next (y : σ) : Next L cv ω → Nat
  | .hold l => K.holding l y
  | .wait _ l => K.waiting l + 1
  | .release ns k => prices n ns + K.after k

theorem phase_afterRelease (y : σ) (ns : List (Notification cv)) (k : After L ω) :
    K.phase n y (afterRelease ns k).1 = prices n ns + K.after k := by
  cases ns <;> cases k <;> simp [afterRelease, phase, after, prices]

/-- The charge of a thread that does not hold the lock does not depend on the shared state. -/
theorem phase_of_free {y y' : σ} {ph : Phase L cv ω} (h : ph.holds = false) : K.phase n y ph = K.phase n y' ph := by
  cases ph with
  | locked => cases h
  | _ => rfl

variable [DecidableEq τ] [DecidableEq cv] [Fintype τ]

/-- The sum of the charges. -/
def total (s : State τ σ L cv ω) : Nat := ∑ t, K.phase (Fintype.card τ) s.shared (s.phase t)

variable {K} {M : Monitor σ Op L cv χ ω} {s s' : State τ σ L cv ω} {a : Action τ Op χ} {evs : List ω}

omit [DecidableEq τ] [DecidableEq cv] [Fintype τ] in
/-- A wake-up is two steps more. -/
private theorem phase_wakeWhere (p : cv → Bool) (y : σ) (ph : τ → Phase L cv ω) (u : τ) (n : Nat) :
    K.phase n y (Monitor.wakeWhere p ph u) ≤ K.phase n y (ph u) + 2 := by
  rcases Monitor.wakeWhere_cases p ph u with ⟨c, l, h1, -, h2⟩ | ⟨he, -⟩
  · rw [h1, h2]
    exact Nat.le_refl _
  · rw [he]
    omega

omit [DecidableEq cv] in
/-- A step in which the phase of its thread alone changes, with the shared state as it was. -/
private theorem total_of_alone {t : τ} {ph : Phase L cv ω} (hshared : s'.shared = s.shared)
    (hphase : s'.phase = Function.update s.phase t ph) :
    K.total s' + K.phase (Fintype.card τ) s.shared (s.phase t) = K.total s + K.phase (Fintype.card τ) s.shared ph := by
  unfold total
  rw [hshared, hphase]
  have := Monitor.sum_move (g := fun u => K.phase (Fintype.card τ) s.shared (s.phase u))
    (q := fun u => K.phase (Fintype.card τ) s.shared (Function.update s.phase t ph u)) (t := t)
    (fun u hu => by rw [Function.update_of_ne hu])
  rwa [Function.update_self] at this

/-- A step that is neither a call nor a piece is paid for, but for what it causes from outside. -/
theorem total_of_idle (h : M.Moves s a s' evs) (hcall : ∀ t op, a ≠ .call t op)
    (hpiece : ∀ t z l, a = .run t z → s.phase t ≠ .locked l) (harrive : ∀ l y, K.holding l y ≤ K.arriving l)
    (hpass : ∀ t c l, s.phase t = .waiting c l → s.stop (M.token l) = true ∨ M.pred c l s.shared = true →
      K.holding l s.shared ≤ K.waiting l) :
    K.total s' + 1 ≤ K.total s + a.causes (Fintype.card τ) := by
  have halone : ∀ {t : τ} {ph : Phase L cv ω} (s' : State τ σ L cv ω), s'.shared = s.shared →
      s'.phase = Function.update s.phase t ph →
      K.phase (Fintype.card τ) s.shared ph + 1 ≤
        K.phase (Fintype.card τ) s.shared (s.phase t) + a.causes (Fintype.card τ) →
      K.total s' + 1 ≤ K.total s + a.causes (Fintype.card τ) := by
    intro t ph s' hshared hphase hle
    have hsum : K.total s' + K.phase (Fintype.card τ) s.shared (s.phase t) =
      K.total s + K.phase (Fintype.card τ) s.shared ph := total_of_alone hshared hphase
    omega
  cases h with
  | enter t op => exact absurd rfl (hcall t op)
  | enterNot t op => exact absurd rfl (hcall t op)
  | hold t z l l' hp => exact absurd hp (hpiece t z l rfl)
  | wait t z l c l' hp => exact absurd hp (hpiece t z l rfl)
  | release t z l ns k hp => exact absurd hp (hpiece t z l rfl)
  | acquire t z l hp hl =>
    refine halone _ rfl rfl ?_
    have := harrive l s.shared
    rw [hp]
    simp only [phase, Action.causes]
    omega
  | pass t z c l hp hc =>
    refine halone _ rfl rfl ?_
    have := hpass t c l hp hc
    rw [hp]
    simp only [phase, Action.causes]
    omega
  | sleep t z c l hp =>
    refine halone _ rfl rfl ?_
    rw [hp]
    simp only [phase, Action.causes]
    omega
  | reacquire t z c l hp =>
    refine halone _ rfl rfl ?_
    rw [hp]
    simp only [phase, Action.causes]
    omega
  | wakeNone t c ns k hp =>
    refine halone _ rfl rfl ?_
    rw [hp, phase_afterRelease]
    simp only [phase, price, Action.causes]
    omega
  | spurious t c l hp =>
    refine halone _ rfl rfl ?_
    rw [hp]
    simp only [phase, Action.causes]
    omega
  | wakeOne t u c l ns k hp hu =>
    have htu : t ≠ u := by
      rintro rfl
      rw [hp] at hu
      cases hu
    -- the one that is woken has two steps more
    have hsum := Monitor.sum_grow_le (g := fun v => K.phase (Fintype.card τ) s.shared (s.phase v))
      (q := fun v => K.phase (Fintype.card τ) s.shared
        (Function.update (Function.update s.phase u (.woken c l)) t (afterRelease ns k).1 v))
      (d := fun v => if v = u then 2 else 0) (t := t) ?_
    · rw [Function.update_self, phase_afterRelease, Finset.sum_ite_eq' Finset.univ u, if_pos (Finset.mem_univ u), hp] at hsum
      unfold total
      simp only [phase, price, Action.causes] at hsum ⊢
      omega
    · intro v hv
      rw [Function.update_of_ne hv]
      by_cases hvu : v = u
      · subst hvu
        rw [Function.update_self, hu, if_pos rfl]
        exact Nat.le_refl _
      · rw [Function.update_of_ne hvu, if_neg hvu]
        exact Nat.le_refl _
  | wakeAll t target c ns k hp =>
    have hsum := Monitor.sum_grow_le (g := fun v => K.phase (Fintype.card τ) s.shared (s.phase v))
      (q := fun v => K.phase (Fintype.card τ) s.shared
        (Function.update (Monitor.wakeWhere (fun c' => decide (c' = c)) s.phase) t (afterRelease ns k).1 v))
      (d := fun _ => 2) (t := t) ?_
    · rw [Function.update_self, phase_afterRelease, Finset.sum_const, Finset.card_univ, smul_eq_mul, hp] at hsum
      unfold total
      simp only [phase, price, Action.causes] at hsum ⊢
      omega
    · intro v hv
      rw [Function.update_of_ne hv]
      exact phase_wakeWhere _ _ _ _ _
  | stopAgain k hk =>
    simp only [Action.causes]
    omega
  | stop k hk =>
    have hsum : ∑ v, K.phase (Fintype.card τ) s.shared (Monitor.wakeWhere (M.stopWakes k s.phase) s.phase v) ≤
        ∑ v, (K.phase (Fintype.card τ) s.shared (s.phase v) + 2) :=
      Finset.sum_le_sum fun v _ => phase_wakeWhere _ _ _ _ _
    rw [Finset.sum_add_distrib, Finset.sum_const, Finset.card_univ, smul_eq_mul] at hsum
    unfold total
    simp only [Action.causes]
    omega

/-- A call is charged with its way to the lock. -/
theorem total_of_call {t : τ} {op : Op} (h : M.Moves s (.call t op) s' evs) :
    K.total s' = K.total s + K.enter (M.enter op s.calls).2 := by
  have hout : ∀ (ph : Phase L cv ω) (s' : State τ σ L cv ω), s.phase t = .outside → s'.shared = s.shared →
      s'.phase = Function.update s.phase t ph → K.total s' = K.total s + K.phase (Fintype.card τ) s.shared ph := by
    intro ph s' hp hshared hphase
    have hsum : K.total s' + K.phase (Fintype.card τ) s.shared (s.phase t) =
      K.total s + K.phase (Fintype.card τ) s.shared ph := total_of_alone hshared hphase
    rw [hp] at hsum
    exact hsum
  cases h with
  | enter _ _ l hp he =>
    rw [he]
    exact hout (.ready l) _ hp rfl rfl
  | enterNot _ _ hp he =>
    rw [he]
    exact hout .outside _ hp rfl rfl

/-- A piece changes the charge of its thread only, since no other holds the lock. -/
theorem total_of_piece (hx : Monitor.Exclusive s) {t : τ} {z : χ} {l : L} (h : M.Moves s (.run t z) s' evs)
    (hl : s.phase t = .locked l) :
    K.total s' + K.holding l s.shared =
      K.total s + K.next (Fintype.card τ) (M.piece s l z).shared (M.piece s l z).next := by
  have hmove : ∀ (ph : Phase L cv ω) (s' : State τ σ L cv ω), s'.shared = (M.piece s l z).shared →
      s'.phase = Function.update s.phase t ph →
      K.total s' + K.holding l s.shared = K.total s + K.phase (Fintype.card τ) (M.piece s l z).shared ph := by
    intro ph s' hshared hphase
    unfold total
    rw [hshared, hphase]
    have hsum := Monitor.sum_move (g := fun u => K.phase (Fintype.card τ) s.shared (s.phase u))
      (q := fun u => K.phase (Fintype.card τ) (M.piece s l z).shared (Function.update s.phase t ph u)) (t := t) ?_
    · rw [Function.update_self, hl] at hsum
      exact hsum
    · intro u hu
      rw [Function.update_of_ne hu]
      refine phase_of_free _ _ ?_
      rw [← Bool.not_eq_true]
      intro hholds
      exact hu (hx.eq hholds (by rw [hl]; rfl))
  have hlocked : ∀ {ph : Phase L cv ω}, s.phase t = ph → .locked l = ph := fun hp => hl.symm.trans hp
  cases h with
  | hold t z l' l'' hp hn =>
    cases hlocked hp
    rw [hn]
    exact hmove (.locked l'') _ rfl rfl
  | wait t z l' c l'' hp hn =>
    cases hlocked hp
    rw [hn]
    exact hmove (.waiting c l'') _ rfl rfl
  | release t z l' ns k hp hn =>
    cases hlocked hp
    rw [hn, next, ← phase_afterRelease]
    exact hmove (afterRelease ns k).1 _ rfl rfl
  | acquire t z l' hp => cases hlocked hp
  | pass t z c l' hp => cases hlocked hp
  | sleep t z c l' hp => cases hlocked hp
  | reacquire t z c l' hp => cases hlocked hp

end Charges

/-! ### Two clients that pay -/

namespace Client

variable [DecidableEq τ] [DecidableEq cv] [Fintype τ] {C : Client γ Op ω} {D : Client δ Op ω}
  {M : Monitor σ Op L cv χ ω} {K : Charges σ L} {value : σ → Nat} {outside inside : γ → Nat} {outside' inside' : δ → Nat}
  {c d : τ} {a : Action τ Op χ} {evs tr : List ω}

/-- What is left to do and to pay after a piece of the client. -/
def leftAfter (C : Client γ Op ω) (K : Charges σ L) (value : σ → Nat) (outside inside : γ → Nat) (n : Nat) (g : γ)
    (r : Piece σ L cv ω) : Nat :=
  value r.shared + K.next n r.shared r.next + credit outside inside r.next.local? (C.after g r)

/-- In the state `s` the client can pay for its next call and its next piece. -/
structure Affords (C : Client γ Op ω) (M : Monitor σ Op L cv χ ω) (K : Charges σ L) (value : σ → Nat)
    (outside inside : γ → Nat) (c : τ) (g : γ) (s : State τ σ L cv ω) : Prop where
  call : ∀ op, s.phase c = .outside → C.call g = some op →
    K.enter (M.enter op s.calls).2 +
      credit outside inside (M.enter op s.calls).2 ((M.enter op s.calls).1.foldl C.see g) < outside g
  piece : ∀ l z, s.phase c = .locked l →
    C.leftAfter K value outside inside (Fintype.card τ) g (M.piece s l z) <
      value s.shared + K.holding l s.shared + inside g

/-- What the client has left, counting what it will learn from the notified events of its call. -/
def creditLeft (C : Client γ Op ω) (outside inside : γ → Nat) (c : τ) (x : γ × State τ σ L cv ω) : Nat :=
  credit outside inside (x.2.phase c).local? (C.ahead c x)

section Single

variable {x x' : γ × State τ σ L cv ω}

theorem creditLeft_of_idle (hs : (C.machine M c).step x a = some (x', evs)) (hcall : ∀ op, a ≠ .call c op)
    (hpiece : ∀ z l, a = .run c z → x.2.phase c ≠ .locked l) :
    C.creditLeft outside inside c x' = C.creditLeft outside inside c x := by
  obtain ⟨hm, -⟩ := moves_of_step hs
  have hlocal := hm.local?_of_idle hcall hpiece
  rcases ahead_eq hs with ⟨op, ha, -⟩ | ⟨z, l, ha, hl, -⟩ | ⟨-, -, hnext⟩
  · exact absurd ha (hcall op)
  · exact absurd hl (hpiece z l ha)
  · rw [creditLeft, creditLeft, hlocal, hnext]

/-- A call or a piece of the client is paid for. -/
theorem Affords.step (hA : C.Affords M K value outside inside c (C.ahead c x) x.2) (hx : Monitor.Exclusive x.2)
    (hfollows : C.Follows c x a) (hs : (C.machine M c).step x a = some (x', evs))
    (hown : (∃ op, a = .call c op) ∨ ∃ z l, a = .run c z ∧ x.2.phase c = .locked l) :
    value x'.2.shared + K.total x'.2 + C.creditLeft outside inside c x' <
      value x.2.shared + K.total x.2 + C.creditLeft outside inside c x := by
  obtain ⟨hm, -⟩ := moves_of_step hs
  rcases ahead_eq hs with ⟨op, rfl, hout, hg, hnext⟩ | ⟨z, l, rfl, hl, hnext⟩ | ⟨hcall, hpiece, -⟩
  · have hpay := hA.call op hout (by rw [hg]; exact hfollows op rfl)
    obtain ⟨hshared, hlocal, -⟩ := hm.of_call
    have hbefore : C.creditLeft outside inside c x = outside (C.ahead c x) := by
      rw [creditLeft, hout]
      rfl
    rw [hbefore, creditLeft, hshared, hlocal, hnext, Charges.total_of_call hm]
    omega
  · have hpay := hA.piece l z hl
    unfold leftAfter at hpay
    obtain ⟨hshared, hlocal, -⟩ := hm.of_piece hl
    have htotal : K.total x'.2 + K.holding l x.2.shared = K.total x.2 +
      K.next (Fintype.card τ) (M.piece x.2 l z).shared (M.piece x.2 l z).next := Charges.total_of_piece hx hm hl
    have hbefore : C.creditLeft outside inside c x = inside (C.ahead c x) := by
      rw [creditLeft, hl]
      rfl
    rw [hbefore, creditLeft, hshared, hlocal, hnext]
    change value (M.piece x.2 l z).shared + K.total x'.2 +
      credit outside inside (M.piece x.2 l z).next.local? (C.after (C.ahead c x) (M.piece x.2 l z)) < _
    omega
  · rcases hown with ⟨op, ha⟩ | ⟨z, l, ha, hl⟩
    · exact absurd ha (hcall op)
    · exact absurd hl (hpiece z l ha)

end Single

variable {x₀ x x' : (γ × δ) × State τ σ L cv ω} {ok : (γ × δ) × State τ σ L cv ω → Action τ Op χ → Prop}

/-- The work of both clients. -/
def pairWork (C : Client γ Op ω) (D : Client δ Op ω) (K : Charges σ L) (value : σ → Nat) (outside inside : γ → Nat)
    (outside' inside' : δ → Nat) (c d : τ) (x : (γ × δ) × State τ σ L cv ω) : Nat :=
  value x.2.shared + K.total x.2 + C.creditLeft outside inside c (x.1.1, x.2) +
    D.creditLeft outside' inside' d (x.1.2, x.2)

/-- What is known where both clients can pay: who comes to the lock or passes a wait is charged enough. -/
structure BothAfford (C : Client γ Op ω) (D : Client δ Op ω) (M : Monitor σ Op L cv χ ω) (K : Charges σ L)
    (value : σ → Nat) (outside inside : γ → Nat) (outside' inside' : δ → Nat) (c d : τ)
    (x : (γ × δ) × State τ σ L cv ω) : Prop where
  left : C.Affords M K value outside inside c (C.ahead c (x.1.1, x.2)) x.2
  right : D.Affords M K value outside' inside' d (D.ahead d (x.1.2, x.2)) x.2
  arrive : ∀ l y, K.holding l y ≤ K.arriving l
  pass : ∀ t cv l, x.2.phase t = .waiting cv l → x.2.stop (M.token l) = true ∨ M.pred cv l x.2.shared = true →
    K.holding l x.2.shared ≤ K.waiting l

/-- Only the two clients are inside. -/
theorem locals_of_both {s₀ : σ} (hinit : x₀.2 = State.init s₀) (h : (pair C D M c d).Exec ok x₀ tr x)
    (hok : ∀ x a, ok x a → Both C D c d x a) {t : τ} {l : L} (hl : (x.2.phase t).local? = some l) : t = c ∨ t = d := by
  have h' : (M.machine τ).Exec (fun _ a => ∀ t op, a = .call t op → t = c ∨ t = d) x₀.2 tr x.2 :=
    exec_pair h fun _ x a _ ha => (hok x a ha).only
  rw [hinit] at h'
  refine (Monitor.thread_invariant (P := fun _ => True) (A := fun t _ _ => t = c ∨ t = d) h' trivial ?_ ?_).2 t l hl
  · intro s t op l ha _ _
    exact ha t op rfl
  · intro t l y stop z _ ht
    exact ⟨trivial, fun _ _ => ht, fun _ _ _ h => h⟩

/-- A step of the two clients is paid for, but for what it causes from outside. -/
theorem BothAfford.step (hB : BothAfford C D M K value outside inside outside' inside' c d x) (hcd : c ≠ d)
    (hx : Monitor.Exclusive x.2) (hlocals : ∀ t l, (x.2.phase t).local? = some l → t = c ∨ t = d)
    (hok : Both C D c d x a) (hs : (pair C D M c d).step x a = some (x', evs)) :
    pairWork C D K value outside inside outside' inside' c d x' + 1 ≤
      pairWork C D K value outside inside outside' inside' c d x + a.causes (Fintype.card τ) := by
  obtain ⟨hm, hleft, hright⟩ := pair_step hs
  have hmoves : M.Moves x.2 a x'.2 evs := Monitor.moves_of_step hm
  unfold pairWork
  by_cases hown : (∃ t op, a = .call t op) ∨ ∃ t z l, a = .run t z ∧ x.2.phase t = .locked l
  · -- a call or a piece of one of the clients
    have hzero : a.causes (Fintype.card τ) = 0 := by
      rcases hown with ⟨t, op, rfl⟩ | ⟨t, z, l, rfl, -⟩ <;> rfl
    have hthread : ∃ t, (t = c ∨ t = d) ∧ a.thread = some t ∧
        ((∃ op, a = .call t op) ∨ ∃ z l, a = .run t z ∧ x.2.phase t = .locked l) := by
      rcases hown with ⟨t, op, rfl⟩ | ⟨t, z, l, rfl, hl⟩
      · exact ⟨t, hok.only t op rfl, rfl, .inl ⟨op, rfl⟩⟩
      · exact ⟨t, hlocals t l (Monitor.local?_of_locked hl), rfl, .inr ⟨z, l, rfl, hl⟩⟩
    obtain ⟨t, ht, ha, hown⟩ := hthread
    have hother : ∀ u, t ≠ u → (∀ op, a ≠ .call u op) ∧ ∀ z l, a = .run u z → x.2.phase u ≠ .locked l := by
      intro u htu
      constructor
      · rintro op rfl
        exact htu (Option.some.inj ha).symm
      · rintro z l rfl
        exact absurd (Option.some.inj ha).symm htu
    rcases ht with rfl | rfl
    · have hlt := hB.left.step hx hok.left hleft hown
      have hsame : D.creditLeft outside' inside' d (x'.1.2, x'.2) = D.creditLeft outside' inside' d (x.1.2, x.2) :=
        creditLeft_of_idle hright (hother d hcd).1 (hother d hcd).2
      dsimp only at hlt
      omega
    · have hlt := hB.right.step hx hok.right hright hown
      have hsame : C.creditLeft outside inside c (x'.1.1, x'.2) = C.creditLeft outside inside c (x.1.1, x.2) :=
        creditLeft_of_idle hleft (hother c (Ne.symm hcd)).1 (hother c (Ne.symm hcd)).2
      dsimp only at hlt
      omega
  · simp only [not_or, not_exists, not_and] at hown
    obtain ⟨hcall, hpiece⟩ := hown
    have hle : K.total x'.2 + 1 ≤ K.total x.2 + a.causes (Fintype.card τ) :=
      Charges.total_of_idle hmoves hcall hpiece hB.arrive hB.pass
    have hshared : x'.2.shared = x.2.shared := by
      rcases hmoves.shared_eq with ⟨he, -⟩ | ⟨t, z, l, ha, hl, -⟩
      · exact he
      · exact absurd hl (hpiece t z l ha)
    have hC : C.creditLeft outside inside c (x'.1.1, x'.2) = C.creditLeft outside inside c (x.1.1, x.2) :=
      creditLeft_of_idle hleft (hcall c) (hpiece c)
    have hD : D.creditLeft outside' inside' d (x'.1.2, x'.2) = D.creditLeft outside' inside' d (x.1.2, x.2) :=
      creditLeft_of_idle hright (hcall d) (hpiece d)
    rw [hshared, hC, hD]
    omega

/-- A run in which both clients always can pay is not longer than their work at its start, but for what is caused from
outside. -/
theorem pair_length_le (hcd : c ≠ d) {s₀ : σ} (hinit : x₀.2 = State.init s₀)
    (hok : ∀ x a, ok x a → Both C D c d x a)
    (hB : ∀ tr x, (pair C D M c d).Exec ok x₀ tr x → BothAfford C D M K value outside inside outside' inside' c d x)
    {as : List (Action τ Op χ)} (h : (pair C D M c d).Path ok x₀ as x) :
    as.length + pairWork C D K value outside inside outside' inside' c d x ≤
      pairWork C D K value outside inside outside' inside' c d x₀ + (as.map (Action.causes (Fintype.card τ))).sum := by
  induction h with
  | nil => simp
  | @snoc as y y' a evs h ha hs ih =>
    obtain ⟨tr, hrun⟩ := h.exec
    have hmonitor : (M.machine τ).Exec Machine.Any x₀.2 tr y.2 := exec_pair hrun fun _ _ _ _ _ => trivial
    rw [hinit] at hmonitor
    have hstep := (hB tr y hrun).step hcd (Monitor.exclusive_of_exec hmonitor)
      (fun t l => locals_of_both hinit hrun hok) (hok y a ha) hs
    rw [List.length_append, List.map_append, List.sum_append, List.length_singleton, List.map_singleton,
      List.sum_singleton]
    omega

end Client

end Concurrency
