import Xtd.Concurrency.Rules

/-!
# No lost wake-ups

A notification wakes one thread, and the thread it wakes may not be the one that needs it.  The rule of this file counts:
`need c l x` says how many more wake-ups on the condition variable `c` the shared state `x` calls for, as seen by a thread
that sleeps at the local state `l`, and `worth c l stop` how many of them a thread at `l` answers for, because it looks
at the condition again before it sleeps or because it will still notify.  If every piece pays for what it makes
necessary, then in a state without activity nobody is asleep who should not be.
-/

namespace Concurrency

variable {τ σ Op L cv χ ω : Type} [DecidableEq τ] [DecidableEq cv] [Fintype τ]

section Credit

variable (worth : cv → L → Bool → Nat) (stop : L → Bool) (c : cv)

def After.credit : After L ω → Nat
  | again l => worth c l (stop l)
  | done _ => 0

/-- What a thread answers for: its local state, unless it is asleep, and the notifications it has still to send. -/
def Phase.credit : Phase L cv ω → Nat
  | outside | asleep _ _ => 0
  | ready l | locked l | waiting _ l | woken _ l => worth c l (stop l)
  | notifying n ns k => (n :: ns).count (.one c) + k.credit worth stop c

/-- What a thread answers for when the piece has ended. -/
def Next.credit : Next L cv ω → Nat
  | hold l | wait _ l => worth c l (stop l)
  | release ns k => ns.count (.one c) + k.credit worth stop c

/-- A notification of all threads on `c` is outstanding. -/
def Phase.sendsAll (c : cv) : Phase L cv ω → Prop
  | notifying n ns _ => .all c ∈ n :: ns
  | _ => False

def Next.sendsAll (c : cv) : Next L cv ω → Prop
  | release ns _ => .all c ∈ ns
  | _ => False

omit [DecidableEq τ] [Fintype τ] in
theorem credit_afterRelease (ns : List (Notification cv)) (k : After L ω) :
    (afterRelease ns k).1.credit worth stop c = (Next.release ns k).credit worth stop c := by
  cases ns <;> cases k <;> simp [afterRelease, Phase.credit, Next.credit, After.credit]

omit [DecidableEq cv] in
theorem sendsAll_afterRelease {ns : List (Notification cv)} {k : After L ω} (h : .all c ∈ ns) :
    (afterRelease ns k).1.sendsAll c := by
  cases ns with
  | nil => cases h
  | cons n ns => exact h

omit [DecidableEq cv] in
/-- A notification of all threads on `c` that is outstanding stays so when another notification is sent. -/
theorem sendsAll_notified {c : cv} {n : Notification cv} {ns : List (Notification cv)} {k : After L ω}
    (hn : n ≠ .all c) (h : (Phase.notifying n ns k : Phase L cv ω).sendsAll c) : (afterRelease ns k).1.sendsAll c := by
  rcases List.mem_cons.1 h with h | h
  · exact absurd h.symm hn
  · exact sendsAll_afterRelease c h

/-- Sending a notification that is not for one thread on `c` costs nothing. -/
theorem credit_notified {n : Notification cv} {ns : List (Notification cv)} {k : After L ω} (hn : n ≠ .one c) :
    (Phase.notifying n ns k : Phase L cv ω).credit worth stop c = (afterRelease ns k).1.credit worth stop c := by
  rw [credit_afterRelease]
  show List.count _ (n :: ns) + _ = List.count _ ns + _
  rw [List.count_cons_of_ne hn]

theorem credit_notified_one {ns : List (Notification cv)} {k : After L ω} :
    (Phase.notifying (.one c) ns k : Phase L cv ω).credit worth stop c =
      (afterRelease ns k).1.credit worth stop c + 1 := by
  rw [credit_afterRelease]
  show List.count _ (_ :: ns) + _ = List.count _ ns + _ + 1
  rw [List.count_cons_self]
  omega

end Credit

namespace Monitor

variable {M : Monitor σ Op L cv χ ω} {s s' : State τ σ L cv ω} {a : Action τ Op χ} {evs : List ω}
  {ok : State τ σ L cv ω → Action τ Op χ → Prop} {x : σ} {tr : List ω}
  {need : cv → L → σ → Nat} {worth : cv → L → Bool → Nat}

/-! ### Outstanding notifications of all -/

/-- A notification of all threads on `c` that is outstanding stays so as long as a thread is asleep on `c`. -/
theorem Moves.sendsAll (h : M.Moves s a s' evs) {t u : τ} {c : cv} {l : L} (hu : (s.phase u).sendsAll c)
    (ht : s.phase t = .asleep c l) (ht' : s'.phase t = .asleep c l) : (s'.phase u).sendsAll c := by
  by_cases ha : a.thread = some u
  · have other : ∀ {ph : Phase L cv ω}, s.phase u = ph → ¬ ph.sendsAll c → (s'.phase u).sendsAll c := by
      intro ph hp hno
      rw [hp] at hu
      exact absurd hu hno
    have htu : t ≠ u := by
      rintro rfl
      rw [ht] at hu
      exact hu
    cases h with
    | enter _ _ _ hp => cases ha; exact other hp id
    | enterNot _ _ hp => cases ha; exact other hp id
    | acquire _ _ _ hp => cases ha; exact other hp id
    | hold _ _ _ _ hp => cases ha; exact other hp id
    | wait _ _ _ _ _ hp => cases ha; exact other hp id
    | release _ _ _ _ _ hp => cases ha; exact other hp id
    | pass _ _ _ _ hp => cases ha; exact other hp id
    | sleep _ _ _ _ hp => cases ha; exact other hp id
    | reacquire _ _ _ _ hp => cases ha; exact other hp id
    | spurious _ _ _ hp => cases ha; exact other hp id
    | wakeOne _ v c' l' ns k hp =>
      cases ha
      simp only [Function.update_self]
      rw [hp] at hu
      exact sendsAll_notified (by simp) hu
    | wakeNone _ c' ns k hp =>
      cases ha
      simp only [Function.update_self]
      rw [hp] at hu
      exact sendsAll_notified (by simp) hu
    | wakeAll _ _ c' ns k hp =>
      cases ha
      simp only [Function.update_self]
      rw [hp] at hu
      refine sendsAll_notified ?_ hu
      -- otherwise the thread would not be asleep any more
      rintro hc
      cases hc
      simp only [Function.update_of_ne htu] at ht'
      rcases wakeWhere_cases (fun c' => decide (c' = c)) s.phase t with ⟨_, _, -, -, hw⟩ | ⟨-, hw⟩
      · cases hw.symm.trans ht'
      · have := hw c l ht
        simp at this
    | stopAgain => cases ha
    | stop => cases ha
  · rcases h.other ha with he | ⟨_, _, hp, -⟩
    · rw [he]; exact hu
    · rw [hp] at hu; cases hu

theorem Moves.sendsAll_of_piece {t : τ} {z : χ} {l : L} {c : cv} (h : M.Moves s (.run t z) s' evs)
    (hl : s.phase t = .locked l) (hall : (M.piece s l z).next.sendsAll c) : (s'.phase t).sendsAll c := by
  cases h with
  | release _ _ l' ns k hp hn =>
    rw [hl] at hp
    cases hp
    rw [hn] at hall
    simp only [Function.update_self]
    exact sendsAll_afterRelease c hall
  | hold _ _ _ _ hp hn => rw [hl] at hp; cases hp; rw [hn] at hall; cases hall
  | wait _ _ _ _ _ hp hn => rw [hl] at hp; cases hp; rw [hn] at hall; cases hall
  | acquire _ _ _ hp => rw [hl] at hp; cases hp
  | pass _ _ _ _ hp => rw [hl] at hp; cases hp
  | sleep _ _ _ _ hp => rw [hl] at hp; cases hp
  | reacquire _ _ _ _ hp => rw [hl] at hp; cases hp

/-! ### Counting -/

/-- What a thread at `l` is told by its stop token. -/
def asked (M : Monitor σ Op L cv χ ω) (s : State τ σ L cv ω) (l : L) : Bool := s.stop (M.token l)

/-- What a thread asleep on `c` at `l` needs is answered for by the threads that are not. -/
def Answered (M : Monitor σ Op L cv χ ω) (need : cv → L → σ → Nat) (worth : cv → L → Bool → Nat)
    (s : State τ σ L cv ω) (c : cv) (l : L) : Prop :=
  need c l s.shared ≤ ∑ u, (s.phase u).credit worth (M.asked s) c

/-- Every piece pays for the wake-ups it makes necessary, in all states of the runs allowed by `ok`. -/
structure Pays (M : Monitor σ Op L cv χ ω) (ok : State τ σ L cv ω → Action τ Op χ → Prop) (x : σ)
    (need : cv → L → σ → Nat) (worth : cv → L → Bool → Nat) : Prop where
  /-- A piece notifies all, or answers for what is needed now, or for what is needed more than before. -/
  piece : ∀ tr s, (M.machine τ).Exec ok (State.init x) tr s → ∀ t z l, ok s (.run t z) → s.phase t = .locked l →
    ∀ u c l', s.phase u = .asleep c l' →
      (M.piece s l z).next.sendsAll c ∨
      need c l' (M.piece s l z).shared ≤ (M.piece s l z).next.credit worth (M.asked s) c ∨
      need c l' (M.piece s l z).shared + worth c l (M.asked s l) ≤
        need c l' s.shared + (M.piece s l z).next.credit worth (M.asked s) c
  /-- A thread that goes to sleep is not needed. -/
  sleep : ∀ tr s, (M.machine τ).Exec ok (State.init x) tr s → ∀ t c l, s.phase t = .waiting c l →
    M.pred c l s.shared = false →
      need c l s.shared = 0 ∧
      ∀ u c' l', s.phase u = .asleep c' l' → need c' l' s.shared = 0 ∨ worth c' l false = 0
  /-- A thread that is woken answers for its wake-up. -/
  wake : ∀ tr s, (M.machine τ).Exec ok (State.init x) tr s → ∀ t c l, s.phase t = .asleep c l → 1 ≤ worth c l false
  /-- A stop request to a thread that is not in its wait takes nothing away from those asleep. -/
  stop : ∀ tr s, (M.machine τ).Exec ok (State.init x) tr s → ∀ k, ok s (.requestStop k) → s.stopped k = false →
    ∀ u c l', s.phase u = .asleep c l' → need c l' s.shared ≠ 0 →
    ∀ t l, (s.phase t).local? = some l → M.token l = some k → M.waitsWith k c (s.phase t) = false →
      worth c l false ≤ worth c l true

omit [DecidableEq cv] [Fintype τ] [DecidableEq τ] in
private theorem asked_eq (h : s'.stopped = s.stopped) : M.asked s' = M.asked s := by
  funext l
  unfold asked
  cases M.token l with
  | none => rfl
  | some k => exact congrFun h k

omit [DecidableEq cv] [Fintype τ] [DecidableEq τ] in
private theorem asked_phase (s : State τ σ L cv ω) (f : τ → Phase L cv ω) :
    M.asked { s with phase := f } = M.asked s := asked_eq rfl

omit [DecidableEq τ] in
private theorem Answered.mono {c : cv} {l : L} (h : M.Answered need worth s c l) (hs : s'.shared = s.shared)
    (hle : ∀ u, (s.phase u).credit worth (M.asked s) c ≤ (s'.phase u).credit worth (M.asked s') c) :
    M.Answered need worth s' c l := by
  unfold Answered
  rw [hs]
  exact Nat.le_trans h (Finset.sum_le_sum (fun u _ => hle u))

/-- A step of one thread that runs no piece. -/
private theorem Answered.own {t : τ} {ph : Phase L cv ω} {c : cv} {l : L} (h : M.Answered need worth s c l)
    (hs : s'.shared = s.shared) (hst : s'.stopped = s.stopped) (hph : s'.phase = Function.update s.phase t ph)
    (hle : (s.phase t).credit worth (M.asked s) c ≤ ph.credit worth (M.asked s) c) :
    M.Answered need worth s' c l := by
  refine h.mono hs ?_
  intro u
  rw [hph, asked_eq hst]
  by_cases hut : u = t
  · subst hut; rw [Function.update_self]; exact hle
  · rw [Function.update_of_ne hut]

/-- A piece that pays for the wake-ups it makes necessary. -/
private theorem Answered.piece {t : τ} {z : χ} {l₀ : L} {ph : Phase L cv ω} {c : cv} {l : L}
    (h : M.Answered need worth s c l) (hl : s.phase t = .locked l₀) (hs : s'.shared = (M.piece s l₀ z).shared)
    (hst : s'.stopped = s.stopped) (hph : s'.phase = Function.update s.phase t ph)
    (hcr : ph.credit worth (M.asked s) c = (M.piece s l₀ z).next.credit worth (M.asked s) c)
    (hpay : need c l (M.piece s l₀ z).shared ≤ (M.piece s l₀ z).next.credit worth (M.asked s) c ∨
      need c l (M.piece s l₀ z).shared + worth c l₀ (M.asked s l₀) ≤
        need c l s.shared + (M.piece s l₀ z).next.credit worth (M.asked s) c) :
    M.Answered need worth s' c l := by
  have hown : s'.phase t = ph := by rw [hph, Function.update_self]
  have hother : ∀ u, u ≠ t → s'.phase u = s.phase u := by
    intro u hu
    rw [hph, Function.update_of_ne hu]
  unfold Answered at h ⊢
  rw [hs, asked_eq hst]
  rcases hpay with hpay | hpay
  · have hle := Finset.single_le_sum_of_canonicallyOrdered (f := fun u => (s'.phase u).credit worth (M.asked s) c)
      (Finset.mem_univ t)
    rw [hown, hcr] at hle
    exact Nat.le_trans hpay hle
  · have hmove := sum_move (t := t) (g := fun u => (s.phase u).credit worth (M.asked s) c)
      (q := fun u => (s'.phase u).credit worth (M.asked s) c) (fun u hu => by simp only [hother u hu])
    have hlc : (s.phase t).credit worth (M.asked s) c = worth c l₀ (M.asked s l₀) := by rw [hl]; rfl
    simp only [hown, hlc, hcr] at hmove
    omega

omit [DecidableEq τ] in
/-- A stop request that wakes nobody on `c`. -/
private theorem Answered.stop {k : Nat} {c : cv} {l : L} (h : M.Answered need worth s c l)
    (hk : s.stopped k = false) (hw : M.stopWakes k s.phase c = false)
    (hle : ∀ t l, (s.phase t).local? = some l → M.token l = some k → M.waitsWith k c (s.phase t) = false →
      worth c l false ≤ worth c l true) :
    M.Answered need worth
      { s with stopped := Function.update s.stopped k true, phase := wakeWhere (M.stopWakes k s.phase) s.phase } c l := by
  generalize hs' : ({ s with
    stopped := Function.update s.stopped k true
    phase := wakeWhere (M.stopWakes k s.phase) s.phase } : State τ σ L cv ω) = s'
  have hphase : s'.phase = wakeWhere (M.stopWakes k s.phase) s.phase := by rw [← hs']
  have hasked : ∀ u l, (s.phase u).local? = some l → worth c l (M.asked s l) ≤ worth c l (M.asked s' l) := by
    intro u l hl
    unfold asked
    cases ht : M.token l with
    | none => exact Nat.le_refl _
    | some k' =>
      subst hs'
      show worth c l (s.stopped k') ≤ worth c l (Function.update s.stopped k true k')
      by_cases hkk : k' = k
      · subst hkk
        rw [hk, Function.update_self]
        refine hle u l hl ht ?_
        unfold stopWakes at hw
        simp only [decide_eq_false_iff_not, not_exists, Bool.not_eq_true] at hw
        exact hw u
      · rw [Function.update_of_ne hkk]
  refine h.mono (by rw [← hs']) ?_
  intro u
  rw [hphase]
  rcases wakeWhere_cases (M.stopWakes k s.phase) s.phase u with ⟨_, _, hp, -, -⟩ | ⟨he, -⟩
  · rw [hp]; exact Nat.zero_le _
  · rw [he]
    have hl := hasked u
    cases hp : s.phase u with
    | outside => exact Nat.le_refl _
    | asleep c' l' => exact Nat.le_refl _
    | ready l' => exact hl l' (by rw [hp]; rfl)
    | locked l' => exact hl l' (by rw [hp]; rfl)
    | waiting c' l' => exact hl l' (by rw [hp]; rfl)
    | woken c' l' => exact hl l' (by rw [hp]; rfl)
    | notifying n ns k' =>
      cases k' with
      | done evs => exact Nat.le_refl _
      | again l' => exact Nat.add_le_add_left (hl l' (by rw [hp]; rfl)) _

/-- A notification that wakes `v`, who answers for the wake-up from now on. -/
private theorem Answered.wakeOne {t v : τ} {c c' : cv} {l l' : L} {ns : List (Notification cv)} {k : After L ω}
    (h : M.Answered need worth s c l) (ht : s.phase t = .notifying (.one c') ns k) (hv : s.phase v = .asleep c' l')
    (hw : c' = c → 1 ≤ worth c l' (M.asked s l')) :
    M.Answered need worth
      { s with phase := Function.update (Function.update s.phase v (.woken c' l')) t (afterRelease ns k).1 } c l := by
  have hvt : v ≠ t := by
    rintro rfl
    rw [ht] at hv
    cases hv
  -- first `v` is woken, then the notification is crossed off
  generalize hf : Function.update s.phase v (.woken c' l') = f
  have hft : f t = .notifying (.one c') ns k := by rw [← hf, Function.update_of_ne hvt.symm, ht]
  have hsum : ∑ u, (f u).credit worth (M.asked s) c =
      (∑ u, (s.phase u).credit worth (M.asked s) c) + worth c l' (M.asked s l') := by
    have := sum_move (t := v) (g := fun u => (s.phase u).credit worth (M.asked s) c)
      (q := fun u => (f u).credit worth (M.asked s) c) (fun u hu => by rw [← hf]; simp only [Function.update_of_ne hu])
    have h0 : (s.phase v).credit worth (M.asked s) c = 0 := by rw [hv]; rfl
    have h1 : (f v).credit worth (M.asked s) c = worth c l' (M.asked s l') := by rw [← hf, Function.update_self]; rfl
    simp only [h0, h1] at this
    omega
  have hmove := sum_move (t := t) (g := fun u => (f u).credit worth (M.asked s) c)
    (q := fun u => (Function.update f t (afterRelease ns k).1 u).credit worth (M.asked s) c)
    (fun u hu => by simp only [Function.update_of_ne hu])
  simp only [Function.update_self, hft] at hmove
  unfold Answered at h ⊢
  rw [asked_phase s (Function.update f t (afterRelease ns k).1)]
  simp only
  by_cases hc : c' = c
  · subst hc
    have hw' := hw rfl
    rw [credit_notified_one] at hmove
    omega
  · rw [credit_notified worth _ c (by simpa using hc)] at hmove
    omega

/-- A notification of all threads on a condition variable. -/
private theorem Answered.wakeAll {t : τ} {c c' : cv} {l : L} {ns : List (Notification cv)} {k : After L ω}
    (h : M.Answered need worth s c l) (ht : s.phase t = .notifying (.all c') ns k) :
    M.Answered need worth
      { s with phase := Function.update (wakeWhere (fun c'' => decide (c'' = c')) s.phase) t (afterRelease ns k).1 }
      c l := by
  refine h.mono rfl ?_
  intro u
  rw [asked_phase s (Function.update (wakeWhere (fun c'' => decide (c'' = c')) s.phase) t (afterRelease ns k).1)]
  by_cases hut : u = t
  · subst hut
    simp only [Function.update_self]
    rw [ht, credit_notified worth _ c (by simp)]
  · simp only [Function.update_of_ne hut]
    rcases wakeWhere_cases (fun c'' => decide (c'' = c')) s.phase u with ⟨_, _, hp, -, -⟩ | ⟨he, -⟩
    · rw [hp]; exact Nat.zero_le _
    · rw [he]

/-- In all states of the runs what the threads asleep need is answered for, or a notification of all is outstanding. -/
theorem Pays.answered (hp : M.Pays ok x need worth) (h : (M.machine τ).Exec ok (State.init x) tr s) {t : τ} {c : cv}
    {l : L} (ht : s.phase t = .asleep c l) :
    (∃ u, (s.phase u).sendsAll c) ∨ M.Answered need worth s c l := by
  induction h generalizing t c l with
  | nil => cases ht
  | @snoc tr evs s s' a h ha hs ih =>
    have hm := moves_of_step hs
    have zero : need c l s'.shared = 0 → M.Answered need worth s' c l := by
      intro h0
      unfold Answered
      rw [h0]
      exact Nat.zero_le _
    rcases hm.asleep_eq ht with hwas | ⟨z, -, he, hwait, -, hpred⟩
    · rcases ih hwas with ⟨u, hu⟩ | hA
      · exact .inl ⟨u, hm.sendsAll hu hwas ht⟩
      cases hm with
      | enter t' op l' hl he => exact .inr (hA.own rfl rfl rfl (by rw [hl]; exact Nat.zero_le _))
      | enterNot t' op hl he => exact .inr (hA.own rfl rfl rfl (by rw [hl]))
      | acquire t' z l' hl _ => exact .inr (hA.own rfl rfl rfl (by rw [hl]; exact Nat.le_refl _))
      | hold t' z l₀ l' hl hn =>
        rcases hp.piece _ _ h t' z l₀ ha hl t c l hwas with hall | hpay
        · rw [hn] at hall; cases hall
        · exact .inr (hA.piece hl rfl rfl rfl (by rw [hn]; rfl) hpay)
      | wait t' z l₀ c' l' hl hn =>
        rcases hp.piece _ _ h t' z l₀ ha hl t c l hwas with hall | hpay
        · rw [hn] at hall; cases hall
        · exact .inr (hA.piece hl rfl rfl rfl (by rw [hn]; rfl) hpay)
      | release t' z l₀ ns k hl hn =>
        rcases hp.piece _ _ h t' z l₀ ha hl t c l hwas with hall | hpay
        · exact .inl ⟨t', (moves_of_step hs).sendsAll_of_piece hl hall⟩
        · exact .inr (hA.piece hl rfl rfl rfl (by rw [hn]; exact credit_afterRelease ..) hpay)
      | pass t' z c' l' hl _ => exact .inr (hA.own rfl rfl rfl (by rw [hl]; exact Nat.le_refl _))
      | sleep t' z c' l' hl hstop hpred =>
        right
        rcases (hp.sleep _ _ h t' c' l' hl hpred).2 t c l hwas with h0 | h0
        · exact zero h0
        · refine hA.own rfl rfl rfl ?_
          rw [hl]
          show worth c l' (M.asked s l') ≤ _
          rw [show M.asked s l' = false from hstop, h0]
          exact Nat.zero_le _
      | reacquire t' z c' l' hl _ => exact .inr (hA.own rfl rfl rfl (by rw [hl]; exact Nat.le_refl _))
      | wakeOne t' v c' l' ns k hl hv =>
        right
        refine hA.wakeOne hl hv ?_
        rintro rfl
        rw [show M.asked s l' = false from asleep_not_stopped h hv]
        exact hp.wake _ _ h v c' l' hv
      | wakeNone t' c' ns k hl hv =>
        have hne : c' ≠ c := by
          rintro rfl
          exact hv t l hwas
        exact .inr (hA.own rfl rfl rfl (by rw [hl, credit_notified worth _ c (by simpa using hne)]))
      | wakeAll t' target c' ns k hl => exact .inr (hA.wakeAll hl)
      | spurious t' c' l' hl => exact .inr (hA.own rfl rfl rfl (by rw [hl]; exact Nat.zero_le _))
      | stopAgain k _ => exact .inr hA
      | stop k hk =>
        right
        have hw : M.stopWakes k s.phase c = false := by
          rcases wakeWhere_cases (M.stopWakes k s.phase) s.phase t with ⟨_, _, -, -, hw⟩ | ⟨-, hw⟩
          · cases hw.symm.trans ht
          · exact hw c l hwas
        by_cases h0 : need c l s.shared = 0
        · exact zero h0
        · exact hA.stop hk hw (hp.stop _ _ h k ha hk t c l hwas h0)
    · right
      refine zero ?_
      rw [he]
      exact (hp.sleep _ _ h t c l hwait hpred).1

/-- If every piece pays for the wake-ups it makes necessary, then nobody is asleep who is needed once there is no more
activity. -/
theorem Pays.need_eq_zero (hp : M.Pays ok x need worth) (h : (M.machine τ).Exec ok (State.init x) tr s)
    (hq : s.Quiescent) {t : τ} {c : cv} {l : L} (ht : s.phase t = .asleep c l) : need c l s.shared = 0 := by
  rcases hp.answered h ht with ⟨u, hu⟩ | hle
  · rcases hq u with hp | ⟨c', l', hp⟩ <;> rw [hp] at hu <;> cases hu
  · have hzero : ∑ u, (s.phase u).credit worth (M.asked s) c = 0 := by
      refine Finset.sum_eq_zero (fun u _ => ?_)
      rcases hq u with hp | ⟨c', l', hp⟩ <;> rw [hp] <;> rfl
    unfold Answered at hle
    omega

/-- The rule for conditions `F` that end all waits: if whoever brings `F` about notifies all, then a thread is asleep
under `F` only as long as a notification of all is outstanding.  The waits have to end only under the invariant `J`. -/
theorem sendsAll_invariant_under {F J : σ → Prop} (h : (M.machine τ).Exec ok (State.init x) tr s) (h0 : ¬ F x)
    (hJ : ∀ tr s, (M.machine τ).Exec ok (State.init x) tr s → J s.shared)
    (hpred : ∀ c l y, J y → F y → M.pred c l y = true)
    (hexec : ∀ l y stop z, F (M.exec l y stop z).shared → F y ∨ ∀ c, (M.exec l y stop z).next.sendsAll c)
    {t : τ} {c : cv} {l : L} (hF : F s.shared) (ht : s.phase t = .asleep c l) : ∃ u, (s.phase u).sendsAll c := by
  induction h generalizing t c l with
  | nil => exact absurd hF h0
  | @snoc tr evs s s' a h _ hs ih =>
  have hm := moves_of_step hs
  rcases hm.asleep_eq ht with hwas | ⟨z, -, he, -, -, hpr⟩
  · have hold : F s.shared ∨ ∃ t z l₀, a = .run t z ∧ s.phase t = .locked l₀ ∧ ∀ c, (M.piece s l₀ z).next.sendsAll c := by
      rcases hm.shared_eq with ⟨he, -⟩ | ⟨t', z, l₀, ha, hl, he⟩
      · rw [← he]; exact .inl hF
      · rw [he] at hF
        rcases hexec l₀ _ _ z hF with h | h
        · exact .inl h
        · exact .inr ⟨t', z, l₀, ha, hl, h⟩
    rcases hold with hF | ⟨t', z, l₀, rfl, hl, hall⟩
    · obtain ⟨u, hu⟩ := ih hF hwas
      exact ⟨u, hm.sendsAll hu hwas ht⟩
    · exact ⟨t', hm.sendsAll_of_piece hl (hall c)⟩
  · rw [he] at hF
    rw [hpred c l _ (hJ _ _ h) hF] at hpr
    cases hpr

theorem sendsAll_invariant {F : σ → Prop} (h : (M.machine τ).Exec ok (State.init x) tr s) (h0 : ¬ F x)
    (hpred : ∀ c l y, F y → M.pred c l y = true)
    (hexec : ∀ l y stop z, F (M.exec l y stop z).shared → F y ∨ ∀ c, (M.exec l y stop z).next.sendsAll c)
    {t : τ} {c : cv} {l : L} (hF : F s.shared) (ht : s.phase t = .asleep c l) : ∃ u, (s.phase u).sendsAll c :=
  sendsAll_invariant_under (J := fun _ => True) h h0 (fun _ _ _ => trivial) (fun c l y _ => hpred c l y) hexec hF ht

end Monitor

end Concurrency
