import Xtd.Concurrency.Client
import Xtd.Concurrency.Termination

/-!
# Waiting for a client to end

A thread runs a client while the others only finish the calls they are in.  If the client has a potential that pays for
its calls, the run comes to an end; the potential counts differently inside a call and outside, since what the client
learns from a call may make it call again.  A call itself has any price, which bounds the calls apart from the steps
inside them.  When nobody has a step left, the client has nothing more to call.
-/

namespace Concurrency

variable {γ τ σ Op L cv χ ω : Type}

namespace Client

/-- The client after the events of a piece. -/
def after (C : Client γ Op ω) (g : γ) (r : Piece σ L cv ω) : γ := (r.events ++ r.next.doneEvents).foldl C.see g

/-- The potential of a client: `inside` while it is in a call, `outside` before the next one. -/
def credit (outside inside : γ → Nat) (l? : Option L) (g : γ) : Nat := if l?.isSome then inside g else outside g

/-- The potential pays for the calls of the client, each with its price, and what it does after each piece, where `At` says
at which places of a call the client can be. -/
structure Pays (C : Client γ Op ω) (M : Monitor σ Op L cv χ ω) (I : σ → Prop) (value : σ → Nat) (rank : L → Nat)
    (At : γ → L → Prop) (price : Nat) (outside inside : γ → Nat) : Prop where
  enter : ∀ g op n, C.call g = some op →
    ∃ l, M.enter op n = ([], some l) ∧ At g l ∧ rank l + 1 + inside g + price ≤ outside g
  stays : ∀ g l x stop z l', At g l → (M.exec l x stop z).next.local? = some l' →
    At (C.after g (M.exec l x stop z)) l'
  piece : ∀ g l x stop z, I x → At g l →
    value (M.exec l x stop z).shared + (M.exec l x stop z).next.steps rank +
      credit outside inside (M.exec l x stop z).next.local? (C.after g (M.exec l x stop z)) <
        value x + rank l + inside g

/-- Only the thread of the client makes calls. -/
def Only (C : Client γ Op ω) (c : τ) (x : γ × State τ σ L cv ω) (a : Action τ Op χ) : Prop :=
  C.Follows c x a ∧ ∀ t op, a = .call t op → t = c

variable [DecidableEq τ] [DecidableEq cv] [Fintype τ] {C : Client γ Op ω} {M : Monitor σ Op L cv χ ω} {I : σ → Prop}
  {value : σ → Nat} {rank : L → Nat} {At : γ → L → Prop} {price : Nat} {outside inside : γ → Nat} {c : τ}
  {x x' : γ × State τ σ L cv ω} {a : Action τ Op χ} {evs : List ω}

/-- The client is at a place of its call. -/
def Placed (C : Client γ Op ω) (At : γ → L → Prop) (c : τ) (x : γ × State τ σ L cv ω) : Prop :=
  ∀ l, (x.2.phase c).local? = some l → At (C.ahead c x) l

/-- The work left, with what the client will still call. -/
def workLeft (C : Client γ Op ω) (value : σ → Nat) (rank : L → Nat) (outside inside : γ → Nat) (c : τ)
    (x : γ × State τ σ L cv ω) : Nat :=
  Monitor.work value rank x.2 + credit outside inside (x.2.phase c).local? (C.ahead c x)

namespace Pays

omit [DecidableEq τ] [DecidableEq cv] in
/-- A step that lets the client be changes only the work of the monitor. -/
private theorem workLeft_of_idle (hwork : Monitor.work value rank x'.2 ≤ Monitor.work value rank x.2)
    (hlocal : (x'.2.phase c).local? = (x.2.phase c).local?) (hahead : C.ahead c x' = C.ahead c x) :
    C.workLeft value rank outside inside c x' ≤ C.workLeft value rank outside inside c x ∧
      (Monitor.work value rank x'.2 < Monitor.work value rank x.2 →
        C.workLeft value rank outside inside c x' < C.workLeft value rank outside inside c x) := by
  unfold workLeft
  rw [hlocal, hahead]
  omega

/-- The call of the client brings its price. -/
private theorem workLeft_of_call (hP : Pays C M I value rank At price outside inside) {op : Op}
    (hcall : C.call x.1 = some op) (hm : M.Moves x.2 (.call c op) x'.2 evs) (hout : x.2.phase c = .outside)
    (hg : C.ahead c x = x.1) (hnext : C.ahead c x' = (M.enter op x.2.calls).1.foldl C.see (C.ahead c x)) :
    C.Placed At c x' ∧
      price + C.workLeft value rank outside inside c x' ≤ C.workLeft value rank outside inside c x := by
  obtain ⟨l, henter, hat, hpay⟩ := hP.enter x.1 op x.2.calls hcall
  have hahead : C.ahead c x' = x.1 := by
    rw [hnext, henter, hg]
    rfl
  have hlocal : (x'.2.phase c).local? = some l := by rw [hm.of_call.2.1, henter]
  have hbefore : (x.2.phase c).local? = none := by
    rw [hout]
    rfl
  have hwork : Monitor.work value rank x'.2 = Monitor.work value rank x.2 + (rank l + 1) := by
    rw [(Monitor.Ranking.work_of_call hm).2, henter]
    rfl
  constructor
  · intro l' hl'
    rw [hlocal] at hl'
    cases hl'
    rw [hahead]
    exact hat
  · unfold workLeft credit
    rw [hlocal, hbefore, hahead, hg, hwork]
    simp only [Option.isSome_some, Option.isSome_none, if_true, Bool.false_eq_true, if_false]
    omega

/-- A piece of the client. -/
private theorem workLeft_of_piece (hP : Pays C M I value rank At price outside inside) (hI : I x.2.shared)
    (hat : C.Placed At c x) {z : χ} {l : L} (hm : M.Moves x.2 (.run c z) x'.2 evs) (hl : x.2.phase c = .locked l)
    (hnext : C.ahead c x' = C.after (C.ahead c x) (M.piece x.2 l z)) :
    C.Placed At c x' ∧ C.workLeft value rank outside inside c x' < C.workLeft value rank outside inside c x := by
  have hlocal := Monitor.local?_of_locked hl
  obtain ⟨hshared, hlocal', -⟩ := hm.of_piece hl
  constructor
  · intro l' hl'
    rw [hnext]
    exact hP.stays _ _ _ _ _ _ (hat l hlocal) (hlocal'.symm.trans hl')
  · have hpay := hP.piece (C.ahead c x) l x.2.shared (x.2.stop (M.token l)) z hI (hat l hlocal)
    have hmove : Monitor.work value rank x'.2 + (value x.2.shared + (x.2.phase c).steps rank) ≤
        Monitor.work value rank x.2 + (value x'.2.shared + (x'.2.phase c).steps rank) := Monitor.work_move_le hm rfl
    have hsteps : (x.2.phase c).steps rank = rank l := by
      rw [hl]
      rfl
    have hinside : credit outside inside (x.2.phase c).local? (C.ahead c x) = inside (C.ahead c x) := by
      rw [hlocal]
      rfl
    rw [hm.steps_of_piece hl, hshared, hsteps] at hmove
    unfold workLeft
    rw [hlocal', hnext, hinside]
    change value (M.piece x.2 l z).shared + (M.piece x.2 l z).next.steps rank +
      credit outside inside (M.piece x.2 l z).next.local? (C.after (C.ahead c x) (M.piece x.2 l z)) < _ at hpay
    omega

/-- A step in a run in which only the client calls: the work left never grows, becomes less inside calls, and a call brings
its price. -/
theorem workLeft_step (hR : M.Ranking I value rank) (hP : Pays C M I value rank At price outside inside) (hI : I x.2.shared)
    (hat : C.Placed At c x) (hok : C.Only c x a) (hs : (C.machine M c).step x a = some (x', evs)) :
    C.Placed At c x' ∧
      (if a.goesOn then 1 else 0) + price * (if a.isCall then 1 else 0) + C.workLeft value rank outside inside c x' ≤
        C.workLeft value rank outside inside c x := by
  obtain ⟨hm, -⟩ := Client.moves_of_step hs
  rcases Client.ahead_eq hs with ⟨op, rfl, hout, hg, hnext⟩ | ⟨z, l, rfl, hl, hnext⟩ | ⟨hcall, hpiece, hnext⟩
  · obtain ⟨hat', hle⟩ := hP.workLeft_of_call (hok.1 op rfl) hm hout hg hnext
    refine ⟨hat', ?_⟩
    show 0 + price * 1 + _ ≤ _
    omega
  · obtain ⟨hat', hlt⟩ := hP.workLeft_of_piece hI hat hm hl hnext
    refine ⟨hat', ?_⟩
    show 1 + price * 0 + _ ≤ _
    omega
  · have hlocal := hm.local?_of_idle hcall hpiece
    have hfree : a.isCall = false := by
      cases a with
      | call t op =>
        obtain rfl := hok.2 t op rfl
        exact absurd rfl (hcall op)
      | _ => rfl
    have hlt : a.goesOn = true → Monitor.work value rank x'.2 < Monitor.work value rank x.2 := hR.work_lt hI hm
    have hle : Monitor.work value rank x'.2 ≤ Monitor.work value rank x.2 := by
      cases a with
      | call t op => cases hfree
      | requestStop k => exact Monitor.Ranking.work_le_of_stop hm
      | _ => exact Nat.le_of_lt (hlt rfl)
    have hidle : C.workLeft value rank outside inside c x' ≤ C.workLeft value rank outside inside c x ∧
        (Monitor.work value rank x'.2 < Monitor.work value rank x.2 →
          C.workLeft value rank outside inside c x' < C.workLeft value rank outside inside c x) :=
      workLeft_of_idle hle hlocal hnext
    constructor
    · intro l hl
      rw [hnext]
      exact hat l (hlocal.symm.trans hl)
    · rw [hfree]
      by_cases hg : a.goesOn = true
      · have := hidle.2 (hlt hg)
        rw [if_pos hg]
        show 1 + price * 0 + _ ≤ _
        omega
      · have := hidle.1
        rw [if_neg hg]
        show 0 + price * 0 + _ ≤ _
        omega

/-- A run in which only the client calls has no more steps inside calls, and calls at their price, than there is work
left. -/
theorem path_length_le (hR : M.Ranking I value rank) (hP : Pays C M I value rank At price outside inside)
    (hI : I x.2.shared) (hat : C.Placed At c x) {as : List (Action τ Op χ)}
    (h : (C.machine M c).Path (C.Only c) x as x') :
    I x'.2.shared ∧ C.Placed At c x' ∧
      as.countP Action.goesOn + price * as.countP Action.isCall + C.workLeft value rank outside inside c x' ≤
        C.workLeft value rank outside inside c x := by
  induction h with
  | nil => exact ⟨hI, hat, by simp⟩
  | @snoc as y y' a evs _ ha hs ih =>
    obtain ⟨hIy, haty, hle⟩ := ih
    obtain ⟨hm, -⟩ := Client.moves_of_step hs
    obtain ⟨hat', hstep⟩ := hP.workLeft_step hR hIy haty ha hs
    refine ⟨hR.moves_keeps hIy hm, hat', ?_⟩
    rw [List.countP_append, List.countP_singleton, List.countP_append, List.countP_singleton, Nat.mul_add]
    omega

end Pays

/-- A bound that holds at every price bounds what is paid for. -/
theorem le_of_forall_price {a b m n : Nat} (h : ∀ price, a + price * m ≤ b + price * n) : m ≤ n := by
  by_contra hlt
  have hmul : (b + 1) * (n + 1) ≤ (b + 1) * m := Nat.mul_le_mul_left _ (by omega)
  have hprice := h (b + 1)
  rw [Nat.mul_succ] at hmul
  omega

/-- When nobody has a step left, everyone is outside and the client has nothing to call. -/
theorem rests_of_stuck [Nonempty χ] (hx : Monitor.Exclusive x.2)
    (hasleep : ∀ u d l, x.2.phase u = .asleep d l → ∃ v, (x.2.phase v).sendsAll d)
    (hstuck : ∀ t a, a.Own t ∨ (∃ op, a = .call t op) → C.Only c x a → (C.machine M c).step x a = none) :
    (∀ t, x.2.phase t = .outside) ∧ C.call x.1 = none := by
  have hnone : ∀ a : Action τ Op χ, (C.machine M c).step x a = none → ∀ s' evs, ¬ M.Moves x.2 a s' evs := by
    intro a ha s' evs hm
    have hs : M.step x.2 a = some (s', evs) := Monitor.step_of_moves hm
    change (M.step x.2 a).map _ = none at ha
    rw [hs] at ha
    cases ha
  have hout : ∀ t, x.2.phase t = .outside := by
    intro t
    by_contra ht
    obtain ⟨u, a, ha, s', evs, hm⟩ := Monitor.exists_own_move (M := M) hx ht hasleep
    have hok : C.Only c x a := by
      constructor
      · rintro op rfl
        rcases ha with ⟨z, ha⟩ | ⟨target, ha⟩ <;> cases ha
      · rintro t op rfl
        rcases ha with ⟨z, ha⟩ | ⟨target, ha⟩ <;> cases ha
    exact hnone a (hstuck u a (.inl ha) hok) s' evs hm
  refine ⟨hout, ?_⟩
  by_contra hcall
  obtain ⟨op, hop⟩ := Option.ne_none_iff_exists'.1 hcall
  have hok : C.Only c x (.call c op : Action τ Op χ) := by
    constructor
    · rintro op' ⟨⟩
      exact hop
    · rintro t op' ⟨⟩
      rfl
  obtain ⟨s', evs, hm⟩ := Monitor.exists_call (M := M) op (hout c)
  exact hnone _ (hstuck c _ (.inr ⟨op, rfl⟩) hok) s' evs hm

/-- With everyone outside and nothing to call, nobody has a step left. -/
theorem stuck_of_rests (hout : ∀ t, x.2.phase t = .outside) (hcall : C.call x.1 = none) (t : τ)
    (ha : a.Own t ∨ ∃ op, a = .call t op) (hok : C.Only c x a) : (C.machine M c).step x a = none := by
  rcases ha with ha | ⟨op, rfl⟩
  · have hnone : M.step x.2 a = none := Monitor.step_own_of_outside (hout t) ha
    show (M.step x.2 a).map _ = none
    rw [hnone]
    rfl
  · obtain rfl := hok.2 t op rfl
    have hsome := hok.1 op rfl
    rw [hcall] at hsome
    cases hsome

end Client

end Concurrency
