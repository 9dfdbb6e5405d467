import Xtd.Cache.Flight

/-!
# Waiters agree with the owner

The history of a factory state: it is registered by one call, its promise is satisfied once and by that call, and every
call attached to it, as its owner or as one that joined it, ends with what the promise was satisfied with.  A call whose
factory throws stores and extracts nothing, and when it has ended its state is out of flight.
-/

namespace Xtd

open Concurrency

variable {κ ν ε τ : Type} [DecidableEq κ] [DecidableEq τ] {cfg : CacheConfig κ}

/-! ### Factory states in traces -/

namespace CacheEvent

/-- The call that is attached to a factory state from now on, and the state. -/
def attaches? : CacheEvent κ ν ε → Option (Nat × Nat)
  | registered call _ state | joined call state => some (call, state)
  | _ => none

/-- The call that satisfies the promise of `state`, and what it satisfies it with. -/
def satisfies? (state : Nat) : CacheEvent κ ν ε → Option (Nat × Outcome ν ε)
  | satisfied call state' outcome => if state' = state then some (call, outcome) else none
  | _ => none

/-- The call that changed the stored entries. -/
def changes? : CacheEvent κ ν ε → Option Nat
  | stored call _ _ | extracted call _ => some call
  | _ => none

end CacheEvent

/-- Who has satisfied the promise of `state`, and with what. -/
def satisfactions (tr : List (CacheEvent κ ν ε)) (state : Nat) : List (Nat × Outcome ν ε) :=
  tr.filterMap (CacheEvent.satisfies? state)

omit [DecidableEq κ] in
theorem satisfactions_append (tr evs : List (CacheEvent κ ν ε)) (state : Nat) :
    satisfactions (tr ++ evs) state = satisfactions tr state ++ satisfactions evs state := by
  simp [satisfactions]

omit [DecidableEq κ] in
theorem mem_satisfactions {tr : List (CacheEvent κ ν ε)} {state call : Nat} {outcome : Outcome ν ε} :
    (call, outcome) ∈ satisfactions tr state ↔ .satisfied call state outcome ∈ tr := by
  simp only [satisfactions, List.mem_filterMap]
  constructor
  · rintro ⟨e, he, hs⟩
    cases e with
    | satisfied call' state' outcome' =>
      simp only [CacheEvent.satisfies?] at hs
      split at hs
      · rename_i h
        cases hs
        rw [← h]
        exact he
      · cases hs
    | _ => cases hs
  · intro h
    exact ⟨_, h, by simp [CacheEvent.satisfies?]⟩

/-- The factory state that a call is attached to. -/
def CreateRole.attached? : CreateRole κ ν ε → Option Nat
  | waiting state | owner _ state | published state | failed _ state _ | settled state _ => some state
  | free => none

/-! ### One section -/

namespace RoleMove

variable {x x' : CacheShared cfg ν ε} {call : Nat} {r r' : CreateRole κ ν ε} {evs : List (CacheEvent κ ν ε)}

/-- A call gets attached to a factory state once. -/
theorem attaches (hm : RoleMove x call r x' r' evs) (hno : ∀ state, r.owes? = some state → x.promise state = none)
    {e : CacheEvent κ ν ε} {call' state : Nat} (he : e ∈ evs) (ha : e.attaches? = some (call', state)) :
    call' = call ∧ r.attached? = none ∧ r'.attached? = some state := by
  cases hm with
  | free _ _ _ _ _ hplain =>
    have := hplain e he
    cases e <;> first | (cases ha; done) | cases this
  | register =>
    rw [List.mem_singleton.1 he] at ha
    cases ha
    exact ⟨rfl, rfl, rfl⟩
  | join =>
    rw [List.mem_singleton.1 he] at ha
    cases ha
    exact ⟨rfl, rfl, rfl⟩
  | get => rw [List.mem_singleton.1 he] at ha; cases ha
  | work _ _ _ _ _ _ _ hthrew => obtain ⟨e', rfl⟩ := hthrew e he; cases ha
  | publish _ _ _ _ _ _ _ hstored => obtain ⟨entry, rfl⟩ := hstored e he; cases ha
  | setValue => rw [List.mem_singleton.1 he] at ha; cases ha
  | setException => rw [List.mem_singleton.1 he] at ha; cases ha
  | again _ _ state' _ ho hp => exact absurd (hno state' ho) hp
  | remove => cases he
  | leave => rw [List.mem_singleton.1 he] at ha; cases ha

/-- The promises after a section, with what it shows. -/
theorem promise_eq (hm : RoleMove x call r x' r' evs) (hno : ∀ state, r.owes? = some state → x.promise state = none)
    (state : Nat) :
    (x'.promise state).toList = (x.promise state).toList ++ (satisfactions evs state).map Prod.snd := by
  have plain : x'.promise = x.promise → satisfactions evs state = [] →
      (x'.promise state).toList = (x.promise state).toList ++ (satisfactions evs state).map Prod.snd := by
    intro h1 h2
    rw [h1, h2]
    simp
  have none_of : (∀ e ∈ evs, e.satisfies? state = none) → satisfactions evs state = [] := by
    intro h
    simpa [satisfactions, List.filterMap_eq_nil_iff] using h
  have satisfied : ∀ (state' : Nat) (outcome : Outcome ν ε), x.promise state' = none →
      (Function.update x.promise state' (some outcome) state).toList = (x.promise state).toList ++
        (satisfactions ([.satisfied call state' outcome] : List (CacheEvent κ ν ε)) state).map Prod.snd := by
    intro state' outcome hp
    by_cases hs : state' = state
    · subst hs
      simp [hp, satisfactions, CacheEvent.satisfies?]
    · simp [Function.update_of_ne (Ne.symm hs), satisfactions, CacheEvent.satisfies?, hs]
  cases hm with
  | free _ _ _ hp _ hplain =>
    refine plain hp (none_of (fun e he => ?_))
    have := hplain e he
    cases e <;> first | rfl | cases this
  | register _ _ _ _ hp => exact plain hp (by simp [satisfactions, CacheEvent.satisfies?])
  | join => exact plain rfl (by simp [satisfactions, CacheEvent.satisfies?])
  | get => exact plain rfl (by simp [satisfactions, CacheEvent.satisfies?])
  | work _ _ _ _ _ hp _ hthrew =>
    refine plain hp (none_of (fun e he => ?_))
    obtain ⟨e', rfl⟩ := hthrew e he
    rfl
  | publish _ _ _ _ _ hp _ hstored =>
    refine plain hp (none_of (fun e he => ?_))
    obtain ⟨entry, rfl⟩ := hstored e he
    rfl
  | setValue state' outcome hp => exact satisfied state' outcome hp
  | setException key state' outcome hp => exact satisfied state' outcome hp
  | again _ _ state' _ ho hp => exact absurd (hno state' ho) hp
  | remove _ _ _ _ _ hp => exact plain hp rfl
  | leave => exact plain rfl (by simp [satisfactions, CacheEvent.satisfies?])

/-- A promise is satisfied by the call that owes it, and never for a second time. -/
theorem satisfied (hm : RoleMove x call r x' r' evs) (hno : ∀ state, r.owes? = some state → x.promise state = none)
    {e : CacheEvent κ ν ε} (he : e ∈ evs) :
    (∀ call' state outcome, e = .satisfied call' state outcome → call' = call ∧ r.owns? = some state) ∧
      ∀ call' state, e ≠ .alreadySatisfied call' state := by
  cases hm with
  | free _ _ _ _ _ hplain =>
    have := hplain e he
    cases e <;> first | (cases this; done) | exact ⟨nofun, nofun⟩
  | work _ _ _ _ _ _ _ hthrew => obtain ⟨e', rfl⟩ := hthrew e he; exact ⟨nofun, nofun⟩
  | publish _ _ _ _ _ _ _ hstored => obtain ⟨entry, rfl⟩ := hstored e he; exact ⟨nofun, nofun⟩
  | setValue =>
    rw [List.mem_singleton.1 he]
    refine ⟨?_, nofun⟩
    rintro call' state outcome ⟨⟩
    exact ⟨rfl, rfl⟩
  | setException =>
    rw [List.mem_singleton.1 he]
    refine ⟨?_, nofun⟩
    rintro call' state outcome ⟨⟩
    exact ⟨rfl, rfl⟩
  | again _ _ state' _ ho hp => exact absurd (hno state' ho) hp
  | remove => cases he
  | _ => rw [List.mem_singleton.1 he]; exact ⟨nofun, nofun⟩

/-- What a call owns or has in flight, it did before or registers now. -/
theorem owns (hm : RoleMove x call r x' r' evs) :
    (∀ state, r'.owns? = some state → r.owns? = some state ∨ ∃ key, evs = [.registered call key state]) ∧
      ∀ key state, r'.inFlight? = some (key, state) →
        r.inFlight? = some (key, state) ∨ evs = [.registered call key state] := by
  cases hm with
  | free => exact ⟨nofun, nofun⟩
  | register _ key =>
    constructor
    · rintro state ⟨⟩
      exact .inr ⟨key, rfl⟩
    · rintro key state ⟨⟩
      exact .inr rfl
  | join => exact ⟨nofun, nofun⟩
  | get => exact ⟨nofun, nofun⟩
  | work => exact ⟨fun _ h => .inl h, fun _ _ h => .inl h⟩
  | publish => exact ⟨fun _ h => .inl h, nofun⟩
  | setValue => exact ⟨fun _ h => .inl h, nofun⟩
  | setException => exact ⟨fun _ h => .inl h, fun _ _ h => .inl h⟩
  | again => exact ⟨nofun, nofun⟩
  | remove => exact ⟨fun _ h => .inl h, nofun⟩
  | leave => exact ⟨nofun, nofun⟩

/-- A registration takes a new address; what is joined is in flight. -/
theorem registers (hm : RoleMove x call r x' r' evs) (hno : ∀ state, r.owes? = some state → x.promise state = none)
    {e : CacheEvent κ ν ε} (he : e ∈ evs) :
    (∀ call' key state, e = .registered call' key state → call' = call ∧ state = x.fresh ∧ x'.fresh = x.fresh + 1 ∧
      evs = [.registered call key state]) ∧
    ∀ call' state, e = .joined call' state →
      ∃ key, (x.shards (cfg.shardFor key)).inFlight.lookup key = some state := by
  cases hm with
  | free _ _ _ _ _ hplain =>
    have := hplain e he
    cases e <;> first | (cases this; done) | exact ⟨nofun, nofun⟩
  | register _ key _ _ _ hfresh =>
    rw [List.mem_singleton.1 he]
    refine ⟨?_, nofun⟩
    rintro call' key' state ⟨⟩
    exact ⟨rfl, rfl, hfresh, rfl⟩
  | join key state hf =>
    rw [List.mem_singleton.1 he]
    refine ⟨nofun, ?_⟩
    rintro call' state ⟨⟩
    exact ⟨key, hf⟩
  | work _ _ _ _ _ _ _ hthrew => obtain ⟨e', rfl⟩ := hthrew e he; exact ⟨nofun, nofun⟩
  | publish _ _ _ _ _ _ _ hstored => obtain ⟨entry, rfl⟩ := hstored e he; exact ⟨nofun, nofun⟩
  | again _ _ state' _ ho hp => exact absurd (hno state' ho) hp
  | remove => cases he
  | _ => rw [List.mem_singleton.1 he]; exact ⟨nofun, nofun⟩

theorem fresh_le (hm : RoleMove x call r x' r' evs) (hno : ∀ state, r.owes? = some state → x.promise state = none) :
    x.fresh ≤ x'.fresh := by
  cases hm with
  | free _ _ _ _ hfresh => exact hfresh
  | register _ _ _ _ _ hfresh => omega
  | work _ _ _ _ _ _ hfresh => exact hfresh
  | publish _ _ _ _ _ _ hfresh => omega
  | again _ _ state' _ ho hp => exact absurd (hno state' ho) hp
  | remove _ _ _ _ _ _ hfresh => omega
  | _ => exact Nat.le_refl _

/-- An attached call that returns, returns what its promise is satisfied with. -/
theorem returned (hm : RoleMove x call r x' r' evs) (hno : ∀ state, r.owes? = some state → x.promise state = none)
    (hset : ∀ state outcome, r.settled? = some (state, outcome) → x.promise state = some outcome)
    {call' state : Nat} {result : CacheResult ν ε} (he : .returned call' result ∈ evs) (ha : r.attached? = some state) :
    ∃ outcome, x.promise state = some outcome ∧ result = outcome.result := by
  cases hm with
  | free => cases ha
  | get _ outcome hp =>
    cases ha
    cases List.mem_singleton.1 he
    exact ⟨outcome, hp, rfl⟩
  | work _ _ _ _ _ _ _ hthrew => obtain ⟨e', h⟩ := hthrew _ he; cases h
  | publish _ _ _ _ _ _ _ hstored => obtain ⟨entry, h⟩ := hstored _ he; cases h
  | again _ _ state' _ ho hp => exact absurd (hno state' ho) hp
  | remove => cases he
  | leave _ outcome =>
    cases ha
    cases List.mem_singleton.1 he
    exact ⟨outcome, hset _ _ rfl, rfl⟩
  | _ => cases List.mem_singleton.1 he

end RoleMove

namespace CacheMoves

variable {x : CacheShared cfg ν ε} {l l' : CacheLocal κ ν ε} {r : CacheTurn cfg ν ε}

/-- A call that returns has ended. -/
theorem returned_ends (hm : CacheMoves x l r) {call : Nat} {result : CacheResult ν ε}
    (he : .returned call result ∈ r.2.2) : call = l.call ∧ r.2.1 = none := by
  cases hm with
  | purge =>
    obtain ⟨key, -, hk⟩ := List.mem_map.1 he
    cases hk
  | _ => simp_all [CacheLocal.call]

/-- A call stays attached as long as it goes on. -/
theorem attached (hm : CacheMoves x l r) (h : r.2.1 = some l') {state : Nat}
    (ha : l.role.attached? = some state) : l'.role.attached? = some state := by
  cases hm <;> first | (cases h; done) | (cases h; exact ha) | cases ha

end CacheMoves

/-! ### Whole runs -/

variable {tr : List (CacheEvent κ ν ε)} {s : CacheState τ cfg ν ε} {now : Int}
  {ok : CacheState τ cfg ν ε → CacheAction τ κ ν ε → Prop}

private theorem calls_of_exec
    (h : ((concurrentCache cfg ν ε).machine τ).Exec ok (Sections.State.init (.new cfg now)) tr s) :
    (∀ t l, s.pc t = some l → l.call < s.calls) ∧
      ∀ t u l l', s.pc t = some l → s.pc u = some l' → l.call = l'.call → t = u :=
  Sections.call_invariant CacheLocal.call h (fun op n y => (role_enter op n y.now).2)
    (fun _ _ _ _ _ _ he => call_move (cache_moves he) rfl)

/-- A call under way owes an unsatisfied promise, or has satisfied it. -/
private theorem promise_of_pc
    (h : ((concurrentCache cfg ν ε).machine τ).Exec ok (Sections.State.init (.new cfg now)) tr s) {t : τ}
    {l : CacheLocal κ ν ε} (hp : s.pc t = some l) :
    (∀ state, l.role.owes? = some state → s.shared.promise state = none) ∧
      ∀ state outcome, l.role.settled? = some (state, outcome) → s.shared.promise state = some outcome := by
  have hF := flights_of_exec h
  constructor
  · intro state ho
    exact hF.owes t state (by rw [roles_of_pc hp]; exact ho)
  · intro state outcome ho
    exact hF.settled t state outcome (by rw [roles_of_pc hp]; exact ho)

/-- What the trace says about the calls attached to factory states: a call under way is attached to what it was attached
to, and one that has ended has returned what the promise is satisfied with. -/
structure Attached (tr : List (CacheEvent κ ν ε)) (s : CacheState τ cfg ν ε) : Prop where
  made : ∀ e ∈ tr, ∀ call state, e.attaches? = some (call, state) → call < s.calls
  active : ∀ t l, s.pc t = some l → ∀ e ∈ tr, ∀ state, e.attaches? = some (l.call, state) →
    l.role.attached? = some state
  ended : ∀ call result, .returned call result ∈ tr → call < s.calls ∧ (∀ t l, s.pc t = some l → l.call ≠ call) ∧
    ∀ e ∈ tr, ∀ state, e.attaches? = some (call, state) →
      ∃ outcome, s.shared.promise state = some outcome ∧ result = outcome.result

/-- A satisfied promise keeps its outcome. -/
private theorem promise_mono {x x' : CacheShared cfg ν ε} {call : Nat} {r r' : CreateRole κ ν ε}
    {evs : List (CacheEvent κ ν ε)} (hm : RoleMove x call r x' r' evs)
    (hno : ∀ state, r.owes? = some state → x.promise state = none) {state : Nat} {outcome : Outcome ν ε}
    (h : x.promise state = some outcome) : x'.promise state = some outcome := by
  have := hm.promise_eq hno state
  rw [h] at this
  cases hx : x'.promise state with
  | none => rw [hx] at this; cases this
  | some outcome' =>
    rw [hx] at this
    simp only [Option.toList_some, List.cons_append, List.nil_append, List.cons.injEq] at this
    rw [this.1]

/-- A new call is attached to nothing. -/
private theorem Attached.call (hA : Attached tr s) (t : τ) (op : CacheOp κ ν) :
    Attached tr ⟨s.shared, Function.update s.pc t (some ((concurrentCache cfg ν ε).enter op s.calls s.shared)),
      s.calls + 1⟩ := by
  have hnew : ((concurrentCache cfg ν ε).enter op s.calls s.shared).call = s.calls := (role_enter op _ _).2
  refine ⟨?_, ?_, ?_⟩
  · intro e he call state ha
    exact Nat.lt_succ_of_lt (hA.made e he call state ha)
  · intro u l hu e he state ha
    rcases Sections.pc_cases hu with ⟨-, hl⟩ | ⟨-, hu⟩
    · cases hl
      have := hA.made e he _ state ha
      omega
    · exact hA.active u l hu e he state ha
  · intro call result he
    obtain ⟨h1, h2, h3⟩ := hA.ended call result he
    refine ⟨Nat.lt_succ_of_lt h1, ?_, h3⟩
    intro u l hu
    rcases Sections.pc_cases hu with ⟨-, hl⟩ | ⟨-, hu⟩
    · cases hl
      omega
    · exact h2 u l hu

/-- What a section does to the calls attached to factory states. -/
private theorem Attached.turn (hA : Attached tr s)
    (h : ((concurrentCache cfg ν ε).machine τ).Exec ok (Sections.State.init (.new cfg now)) tr s)
    {t : τ} {z : CacheChoice ν ε} {l : CacheLocal κ ν ε} {x : CacheShared cfg ν ε} {l' : Option (CacheLocal κ ν ε)}
    {evs : List (CacheEvent κ ν ε)} (hp : s.pc t = some l)
    (hx : (concurrentCache cfg ν ε).exec l s.shared z = some (x, l', evs)) :
    Attached (tr ++ evs) ⟨x, Function.update s.pc t l', s.calls⟩ := by
  obtain ⟨hlt, hne⟩ := calls_of_exec h
  have hc := cache_moves hx
  have hr := role_move hc
  obtain ⟨hno, hset⟩ := promise_of_pc h hp
  -- the events of the section are those of the call of `t`
  have hnew : ∀ e ∈ evs, ∀ call state, e.attaches? = some (call, state) →
      call = l.call ∧ (roleOf l').attached? = some state := by
    intro e he call state ha
    obtain ⟨h1, -, h2⟩ := hr.attaches hno he ha
    exact ⟨h1, h2⟩
  refine ⟨?_, ?_, ?_⟩
  · intro e he call state ha
    rcases List.mem_append.1 he with he | he
    · exact hA.made e he call state ha
    · rw [(hnew e he call state ha).1]
      exact hlt t l hp
  · intro u l₁ hu e he state ha
    rcases Sections.pc_cases hu with ⟨rfl, rfl⟩ | ⟨hut, hu⟩
    · rcases List.mem_append.1 he with he | he
      · rw [call_move hc rfl] at ha
        exact hc.attached rfl (hA.active u l hp e he state ha)
      · exact (hnew e he _ state ha).2
    · rcases List.mem_append.1 he with he | he
      · exact hA.active u l₁ hu e he state ha
      · exact absurd (hne u t l₁ l hu hp (hnew e he _ state ha).1) hut
  · intro call result he
    have hkeep : ∀ {state : Nat}, (∃ outcome, s.shared.promise state = some outcome ∧ result = outcome.result) →
        ∃ outcome, x.promise state = some outcome ∧ result = outcome.result := by
      rintro state ⟨outcome, ho, hres⟩
      exact ⟨outcome, promise_mono hr hno ho, hres⟩
    rcases List.mem_append.1 he with he | he
    · obtain ⟨h1, h2, h3⟩ := hA.ended call result he
      refine ⟨h1, ?_, ?_⟩
      · intro u l₁ hu
        rcases Sections.pc_cases hu with ⟨rfl, rfl⟩ | ⟨-, hu⟩
        · rw [call_move hc rfl]
          exact h2 u l hp
        · exact h2 u l₁ hu
      · intro e he' state ha
        rcases List.mem_append.1 he' with he' | he'
        · exact hkeep (h3 e he' state ha)
        · exact absurd (hnew e he' call state ha).1.symm (h2 t l hp)
    · obtain ⟨rfl, hend⟩ := hc.returned_ends he
      refine ⟨hlt t l hp, ?_, ?_⟩
      · intro u l₁ hu hcall
        rcases Sections.pc_cases hu with ⟨-, hl⟩ | ⟨hut, hu⟩
        · cases hend.symm.trans hl
        · exact hut (hne u t l₁ l hu hp hcall)
      · intro e he' state ha
        rcases List.mem_append.1 he' with he' | he'
        · exact hkeep (hr.returned hno hset he (hA.active t l hp e he' state ha))
        · have := (hnew e he' l.call state ha).2
          rw [show l' = none from hend] at this
          cases this

private theorem attached_of_exec
    (h : ((concurrentCache cfg ν ε).machine τ).Exec ok (Sections.State.init (.new cfg now)) tr s) : Attached tr s := by
  induction h with
  | nil => exact ⟨nofun, nofun, nofun⟩
  | snoc h _ hs ih =>
    cases Sections.moves_of_step hs with
    | call t op hp =>
      rw [List.append_nil]
      exact ih.call t op
    | env d =>
      rw [List.append_nil]
      exact ⟨ih.made, ih.active, ih.ended⟩
    | run t z l x l' evs hp hx => exact ih.turn h hp hx

/-- What the trace says about the promises: each is satisfied as the trace shows it, by the call that registered its
state; states are registered once, and what is joined is registered. -/
structure Promised (tr : List (CacheEvent κ ν ε)) (s : CacheState τ cfg ν ε) : Prop where
  outcome : ∀ state, (satisfactions tr state).map Prod.snd = (s.shared.promise state).toList
  owner : ∀ call state outcome, .satisfied call state outcome ∈ tr → ∃ key, .registered call key state ∈ tr
  once : ∀ call state, .alreadySatisfied call state ∉ tr
  owns : ∀ t l state, s.pc t = some l → l.role.owns? = some state → ∃ key, .registered l.call key state ∈ tr
  flight : ∀ t l key state, s.pc t = some l → l.role.inFlight? = some (key, state) → .registered l.call key state ∈ tr
  old : ∀ call key state, .registered call key state ∈ tr → state < s.shared.fresh
  unique : ∀ call call' key key' state, .registered call key state ∈ tr → .registered call' key' state ∈ tr →
    call = call' ∧ key = key'
  joined : ∀ call state, .joined call state ∈ tr → ∃ owner key, .registered owner key state ∈ tr

/-- A new call owns no factory state. -/
private theorem Promised.call (hP : Promised tr s) (t : τ) (op : CacheOp κ ν) :
    Promised tr ⟨s.shared, Function.update s.pc t (some ((concurrentCache cfg ν ε).enter op s.calls s.shared)),
      s.calls + 1⟩ := by
  have hfree : ∀ u l, Function.update s.pc t (some ((concurrentCache cfg ν ε).enter op s.calls s.shared)) u = some l →
      s.pc u = some l ∨ l.role = .free := by
    intro u l hu
    rcases Sections.pc_cases hu with ⟨-, hl⟩ | ⟨-, hu⟩
    · cases hl
      exact .inr (role_enter op _ _).1
    · exact .inl hu
  refine ⟨hP.outcome, hP.owner, hP.once, ?_, ?_, hP.old, hP.unique, hP.joined⟩
  · intro u l state hu ho
    rcases hfree u l hu with hu | hu
    · exact hP.owns u l state hu ho
    · rw [hu] at ho
      cases ho
  · intro u l key state hu ho
    rcases hfree u l hu with hu | hu
    · exact hP.flight u l key state hu ho
    · rw [hu] at ho
      cases ho

/-- What a section does to the promises. -/
private theorem Promised.turn (hP : Promised tr s)
    (h : ((concurrentCache cfg ν ε).machine τ).Exec ok (Sections.State.init (.new cfg now)) tr s)
    {t : τ} {z : CacheChoice ν ε} {l : CacheLocal κ ν ε} {x : CacheShared cfg ν ε} {l' : Option (CacheLocal κ ν ε)}
    {evs : List (CacheEvent κ ν ε)} (hp : s.pc t = some l)
    (hx : (concurrentCache cfg ν ε).exec l s.shared z = some (x, l', evs)) :
    Promised (tr ++ evs) ⟨x, Function.update s.pc t l', s.calls⟩ := by
  have hc := cache_moves hx
  have hr := role_move hc
  obtain ⟨hno, -⟩ := promise_of_pc h hp
  have left : ∀ {e : CacheEvent κ ν ε}, e ∈ tr → e ∈ tr ++ evs := fun he => List.mem_append_left _ he
  have right : ∀ {e : CacheEvent κ ν ε}, e ∈ evs → e ∈ tr ++ evs := fun he => List.mem_append_right _ he
  refine ⟨?_, ?_, ?_, ?_, ?_, ?_, ?_, ?_⟩
  · intro state
    rw [satisfactions_append, List.map_append, hP.outcome]
    exact (hr.promise_eq hno state).symm
  · intro call state outcome he
    rcases List.mem_append.1 he with he | he
    · obtain ⟨key, hk⟩ := hP.owner call state outcome he
      exact ⟨key, left hk⟩
    · obtain ⟨rfl, ho⟩ := (hr.satisfied hno he).1 call state outcome rfl
      obtain ⟨key, hk⟩ := hP.owns t l state hp ho
      exact ⟨key, left hk⟩
  · intro call state he
    rcases List.mem_append.1 he with he | he
    · exact hP.once call state he
    · exact (hr.satisfied hno he).2 call state rfl
  · intro u l₁ state hu ho
    rcases Sections.pc_cases hu with ⟨rfl, rfl⟩ | ⟨-, hu⟩
    · rw [call_move hc rfl]
      rcases hr.owns.1 state ho with ho | ⟨key, hk⟩
      · obtain ⟨key, hk⟩ := hP.owns u l state hp ho
        exact ⟨key, left hk⟩
      · exact ⟨key, right (by rw [show evs = _ from hk]; exact List.mem_singleton_self _)⟩
    · obtain ⟨key, hk⟩ := hP.owns u l₁ state hu ho
      exact ⟨key, left hk⟩
  · intro u l₁ key state hu ho
    rcases Sections.pc_cases hu with ⟨rfl, rfl⟩ | ⟨-, hu⟩
    · rw [call_move hc rfl]
      rcases hr.owns.2 key state ho with ho | hk
      · exact left (hP.flight u l key state hp ho)
      · exact right (by rw [show evs = _ from hk]; exact List.mem_singleton_self _)
    · exact left (hP.flight u l₁ key state hu ho)
  · intro call key state he
    rcases List.mem_append.1 he with he | he
    · exact Nat.lt_of_lt_of_le (hP.old call key state he) (hr.fresh_le hno)
    · obtain ⟨-, rfl, hfresh, -⟩ := (hr.registers hno he).1 call key state rfl
      show s.shared.fresh < x.fresh
      rw [show x.fresh = s.shared.fresh + 1 from hfresh]
      exact Nat.lt_succ_self _
  · intro call call' key key' state he he'
    rcases List.mem_append.1 he with he | he <;> rcases List.mem_append.1 he' with he' | he'
    · exact hP.unique call call' key key' state he he'
    · obtain ⟨-, rfl, -⟩ := (hr.registers hno he').1 call' key' state rfl
      exact absurd (hP.old call key _ he) (Nat.lt_irrefl _)
    · obtain ⟨-, rfl, -⟩ := (hr.registers hno he).1 call key state rfl
      exact absurd (hP.old call' key' _ he') (Nat.lt_irrefl _)
    · obtain ⟨rfl, -, -, hone⟩ := (hr.registers hno he).1 call key state rfl
      rw [show evs = _ from hone] at he'
      cases List.mem_singleton.1 he'
      exact ⟨rfl, rfl⟩
  · intro call state he
    rcases List.mem_append.1 he with he | he
    · obtain ⟨owner, key, hk⟩ := hP.joined call state he
      exact ⟨owner, key, left hk⟩
    · obtain ⟨key, hf⟩ := (hr.registers hno he).2 call state rfl
      obtain ⟨-, u, l₁, hu, hl⟩ := (lookup_iff h _ key state).1 hf
      rw [l₁.registered?_eq] at hl
      exact ⟨l₁.call, key, left (hP.flight u l₁ key state hu hl)⟩

theorem promised_of_exec
    (h : ((concurrentCache cfg ν ε).machine τ).Exec ok (Sections.State.init (.new cfg now)) tr s) : Promised tr s := by
  induction h with
  | nil => exact ⟨fun _ => rfl, nofun, nofun, nofun, nofun, nofun, nofun, nofun⟩
  | snoc h _ hs ih =>
    cases Sections.moves_of_step hs with
    | call t op hp =>
      rw [List.append_nil]
      exact ih.call t op
    | env d =>
      rw [List.append_nil]
      exact ⟨ih.outcome, ih.owner, ih.once, ih.owns, ih.flight, ih.old, ih.unique, ih.joined⟩
    | run t z l x l' evs hp hx => exact ih.turn h hp hx

/-! ### A factory that throws -/

namespace CacheLocal

/-- The places of `get_or_create` at which it has stored nothing. -/
def clean : CacheLocal κ ν ε → Bool
  | createLookup _ _ _ | createRegister _ _ _ | createJoined _ _ | createFactory _ _ _ _ => true
  | createPublish _ _ _ _ | createSetException _ _ _ _ | createRemove _ _ _ _ => true
  | _ => false

/-- The places behind a failure. -/
def fails : CacheLocal κ ν ε → Bool
  | createSetException _ _ _ _ | createRemove _ _ _ _ | createReturn _ _ _ => true
  | _ => false

end CacheLocal

private theorem purgeLoop_removed {clock : ClockType} {now : Int} {es : List (Sigma fun _ : κ => Entry ν)}
    {values : AList (fun _ : κ => Entry ν)} {removed : List κ} (h : (Shard.purgeLoop clock now es values removed).2 = []) :
    removed = [] ∧ (Shard.purgeLoop clock now es values removed).1 = values := by
  induction es generalizing values removed with
  | nil => exact ⟨h, rfl⟩
  | cons e es ih =>
    unfold Shard.purgeLoop at h ⊢
    split at h
    · rename_i hexp
      rw [if_pos hexp]
      exact ih h
    · have := (ih h).1
      simp at this

namespace CacheMoves

variable {x : CacheShared cfg ν ε} {l l' : CacheLocal κ ν ε} {r : CacheTurn cfg ν ε}

/-- A section that changes the stored entries shows it, under the number of its call. -/
theorem changes (hm : CacheMoves x l r) :
    (∀ e ∈ r.2.2, ∀ call, e.changes? = some call → l.call = call ∧ l.fails = false) ∧
      ((∀ e ∈ r.2.2, e.changes? = none) → ∀ i, (r.1.shards i).values = (x.shards i).values) := by
  have same : ∀ {i : Fin cfg.shardCount} {s : Shard κ ν}, s.values = (x.shards i).values →
      ∀ j, ((x.setShard i s).shards j).values = (x.shards j).values := by
    intro i s hs j
    by_cases hj : j = i
    · subst hj
      simpa [CacheShared.setShard] using hs
    · simp [CacheShared.setShard, hj]
  cases hm with
  | extract => exact ⟨by simp [CacheEvent.changes?, CacheLocal.call, CacheLocal.fails], by simp [CacheEvent.changes?]⟩
  | store => exact ⟨by simp [CacheEvent.changes?, CacheLocal.call, CacheLocal.fails], by simp [CacheEvent.changes?]⟩
  | erase => exact ⟨by simp [CacheEvent.changes?, CacheLocal.call, CacheLocal.fails], by simp [CacheEvent.changes?]⟩
  | publishStore =>
    exact ⟨by simp [CacheEvent.changes?, CacheLocal.call, CacheLocal.fails], by simp [CacheEvent.changes?]⟩
  | register => exact ⟨by simp [CacheEvent.changes?], fun _ => same rfl⟩
  | publishKeep => exact ⟨by simp, fun _ => same rfl⟩
  | remove call key state error =>
    refine ⟨by simp, fun _ => same ?_⟩
    unfold Shard.removeInFlight
    split
    · rfl
    · split <;> rfl
  | purge call now shard result hs =>
    constructor
    · simp [CacheEvent.changes?, CacheLocal.call, CacheLocal.fails]
    · intro hno
      refine same (purgeLoop_removed ?_).2
      show ((x.shards ⟨shard, hs⟩).purgeExpired cfg.clock now).2 = []
      rw [List.eq_nil_iff_forall_not_mem]
      intro key hk
      cases hno _ (List.mem_map_of_mem hk)
  | _ => exact ⟨by simp [CacheEvent.changes?], fun _ _ => rfl⟩

/-- A call that has stored nothing after a section had stored nothing before. -/
theorem clean (hm : CacheMoves x l r) (h : r.2.1 = some l') (hc : l'.clean = true) :
    l.clean = true ∧ ∀ e ∈ r.2.2, e.changes? = none := by
  cases hm <;> first | (cases h; done) | (cases h; cases hc; done) | (cases h; simp [CacheLocal.clean, CacheEvent.changes?])

theorem fails (hm : CacheMoves x l r) (h : r.2.1 = some l') (hl : l.fails = true) : l'.fails = true := by
  cases hm <;> first | (cases h; done) | (cases hl; done) | (cases h; rfl)

theorem threw (hm : CacheMoves x l r) {call : Nat} {e : ε} (he : .factoryThrew call e ∈ r.2.2) :
    l.call = call ∧ l.clean = true ∧ (∀ e' ∈ r.2.2, e'.changes? = none) ∧ ∀ l', r.2.1 = some l' → l'.fails = true := by
  cases hm with
  | factoryThrows call key options state e =>
    cases List.mem_singleton.1 he
    refine ⟨rfl, rfl, by simp [CacheEvent.changes?], ?_⟩
    rintro l' ⟨⟩
    rfl
  | purge =>
    obtain ⟨key, -, hk⟩ := List.mem_map.1 he
    cases hk
  | _ => simp at he

end CacheMoves

/-- What the trace says about changes of the stored entries: a call of `get_or_create` has made none before it has
stored, and one whose factory has thrown has made none and will make none. -/
structure Unchanged (tr : List (CacheEvent κ ν ε)) (s : CacheState τ cfg ν ε) : Prop where
  made : ∀ e ∈ tr, ∀ call, e.changes? = some call → call < s.calls
  active : ∀ t l, s.pc t = some l → l.clean = true → ∀ e ∈ tr, e.changes? ≠ some l.call
  thrown : ∀ call e, .factoryThrew call e ∈ tr → call < s.calls ∧ (∀ e' ∈ tr, e'.changes? ≠ some call) ∧
    ∀ t l, s.pc t = some l → l.call = call → l.fails = true

/-- A new call has changed nothing. -/
private theorem Unchanged.call (hU : Unchanged tr s) (t : τ) (op : CacheOp κ ν) :
    Unchanged tr ⟨s.shared, Function.update s.pc t (some ((concurrentCache cfg ν ε).enter op s.calls s.shared)),
      s.calls + 1⟩ := by
  have henter : ((concurrentCache cfg ν ε).enter op s.calls s.shared).call = s.calls := (role_enter op _ _).2
  refine ⟨?_, ?_, ?_⟩
  · intro e he call hc
    exact Nat.lt_succ_of_lt (hU.made e he call hc)
  · intro u l hu hl e he hc
    rcases Sections.pc_cases hu with ⟨-, hl⟩ | ⟨-, hu⟩
    · cases hl
      have := hU.made e he _ hc
      omega
    · exact hU.active u l hu hl e he hc
  · intro call e he
    obtain ⟨h1, h2, h3⟩ := hU.thrown call e he
    refine ⟨Nat.lt_succ_of_lt h1, h2, ?_⟩
    intro u l hu hc
    rcases Sections.pc_cases hu with ⟨-, hl⟩ | ⟨-, hu⟩
    · cases hl
      omega
    · exact h3 u l hu hc

/-- What a section does to the stored entries. -/
private theorem Unchanged.turn (hU : Unchanged tr s)
    (h : ((concurrentCache cfg ν ε).machine τ).Exec ok (Sections.State.init (.new cfg now)) tr s)
    {t : τ} {z : CacheChoice ν ε} {l : CacheLocal κ ν ε} {x : CacheShared cfg ν ε} {l' : Option (CacheLocal κ ν ε)}
    {evs : List (CacheEvent κ ν ε)} (hp : s.pc t = some l)
    (hx : (concurrentCache cfg ν ε).exec l s.shared z = some (x, l', evs)) :
    Unchanged (tr ++ evs) ⟨x, Function.update s.pc t l', s.calls⟩ := by
  obtain ⟨hlt, hne⟩ := calls_of_exec h
  have hm := cache_moves hx
  have hnew := hm.changes.1
  refine ⟨?_, ?_, ?_⟩
  · intro e he call hc
    rcases List.mem_append.1 he with he | he
    · exact hU.made e he call hc
    · rw [← (hnew e he call hc).1]
      exact hlt t l hp
  · intro u l₁ hu hl e he hc
    rcases Sections.pc_cases hu with ⟨rfl, rfl⟩ | ⟨hut, hu⟩
    · obtain ⟨hl₀, hno⟩ := hm.clean rfl hl
      rcases List.mem_append.1 he with he | he
      · exact hU.active u l hp hl₀ e he (by rw [← call_move hm rfl]; exact hc)
      · rw [hno e he] at hc
        cases hc
    · rcases List.mem_append.1 he with he | he
      · exact hU.active u l₁ hu hl e he hc
      · exact hut (hne u t l₁ l hu hp (hnew e he _ hc).1.symm)
  · intro call e he
    rcases List.mem_append.1 he with he | he
    · obtain ⟨h1, h2, h3⟩ := hU.thrown call e he
      refine ⟨h1, ?_, ?_⟩
      · intro e' he' hc
        rcases List.mem_append.1 he' with he' | he'
        · exact h2 e' he' hc
        · obtain ⟨hcall, hfails⟩ := hnew e' he' call hc
          rw [h3 t l hp hcall] at hfails
          cases hfails
      · intro u l₁ hu hc
        rcases Sections.pc_cases hu with ⟨rfl, rfl⟩ | ⟨-, hu⟩
        · exact hm.fails rfl (h3 u l hp (by rw [← call_move hm rfl]; exact hc))
        · exact h3 u l₁ hu hc
    · obtain ⟨rfl, hclean, hno, hfails⟩ := hm.threw he
      refine ⟨hlt t l hp, ?_, ?_⟩
      · intro e' he' hc
        rcases List.mem_append.1 he' with he' | he'
        · exact hU.active t l hp hclean e' he' hc
        · rw [hno e' he'] at hc
          cases hc
      · intro u l₁ hu hc
        rcases Sections.pc_cases hu with ⟨-, hl⟩ | ⟨hut, hu⟩
        · exact hfails l₁ hl
        · exact absurd (hne u t l₁ l hu hp hc) hut

private theorem unchanged_of_exec
    (h : ((concurrentCache cfg ν ε).machine τ).Exec ok (Sections.State.init (.new cfg now)) tr s) : Unchanged tr s := by
  induction h with
  | nil => exact ⟨nofun, nofun, nofun⟩
  | snoc h _ hs ih =>
    cases Sections.moves_of_step hs with
    | call t op hp =>
      rw [List.append_nil]
      exact ih.call t op
    | env d =>
      rw [List.append_nil]
      exact ⟨ih.made, ih.active, ih.thrown⟩
    | run t z l x l' evs hp hx => exact ih.turn h hp hx

/-! ### Agreement -/

/-- A call whose key has no entry that is not expired and nothing in flight can register. -/
private theorem exec_register (s : CacheState τ cfg ν ε) {t : τ} {key : κ} (options : CacheEntryOpts)
    (ht : s.pc t = none) (hlive : (s.shared.shards (cfg.shardFor key)).live? cfg.clock key s.shared.now = none)
    (hf : (s.shared.shards (cfg.shardFor key)).inFlight.lookup key = none) :
    ∃ s', ((concurrentCache cfg ν ε).machine τ).Exec Machine.Any s [.registered s.calls key s.shared.fresh] s' ∧
      s'.pc t = some (.createFactory s.calls key options s.shared.fresh) := by
  have hmiss : s.shared.createLookup s.calls key options =
      (s.shared, some (.createRegister s.calls key options), []) := by
    unfold CacheShared.createLookup
    split
    · rename_i v hv
      unfold Shard.internalFastGet at hv
      split at hv
      · cases hv
      · rename_i e he
        rw [Shard.live?_eq_none.1 hlive e he] at hv
        cases hv
    · rfl
  have hreg : s.shared.createRegister s.calls key options .proceed =
      ({ s.shared.setShard (cfg.shardFor key)
          { s.shared.shards (cfg.shardFor key) with
            inFlight := (s.shared.shards (cfg.shardFor key)).inFlight.insert key s.shared.fresh } with
          fresh := s.shared.fresh + 1 },
        some (.createFactory s.calls key options s.shared.fresh), [.registered s.calls key s.shared.fresh]) := by
    simp [CacheShared.createRegister, Shard.register, hlive, hf]
  have h1 := Sections.Moves.call (M := concurrentCache cfg ν ε) t (.getOrCreate key options) ht
  have h2 := Sections.Moves.run (M := concurrentCache cfg ν ε)
    (s := ⟨s.shared, Function.update s.pc t (some (.createLookup s.calls key options)), s.calls + 1⟩) t .proceed _ _ _ _
    (Function.update_self ..) (congrArg some hmiss)
  have h3 := Sections.Moves.run (M := concurrentCache cfg ν ε)
    (s := ⟨s.shared, Function.update (Function.update s.pc t (some (.createLookup s.calls key options))) t
      (some (.createRegister s.calls key options)), s.calls + 1⟩) t .proceed _ _ _ _
    (Function.update_self ..) (congrArg some hreg)
  have hexec : ((concurrentCache cfg ν ε).machine τ).Exec Machine.Any s _ _ :=
    .snoc (.snoc (.snoc .nil trivial (Sections.step_of_moves h1)) trivial (Sections.step_of_moves h2)) trivial
      (Sections.step_of_moves h3)
  exact ⟨_, hexec, Function.update_self ..⟩

/-- The promise of a registered state is satisfied as long as it is by its owner, and at most once. -/
private theorem satisfactions_of_exec
    (h : ((concurrentCache cfg ν ε).machine τ).Exec ok (Sections.State.init (.new cfg now)) tr s) {call state : Nat}
    {key : κ} (hreg : .registered call key state ∈ tr) :
    satisfactions tr state = ((s.shared.promise state).map (fun outcome => (call, outcome))).toList := by
  have hP := promised_of_exec h
  have hout := hP.outcome state
  cases hp : s.shared.promise state with
  | none =>
    rw [hp] at hout
    simpa using hout
  | some outcome =>
    rw [hp] at hout
    obtain ⟨⟨call', outcome'⟩, hsat, rfl⟩ := List.map_eq_singleton_iff.1 hout
    obtain ⟨key', hk⟩ := hP.owner call' state outcome'
      (mem_satisfactions.1 (by rw [hsat]; exact List.mem_singleton_self _))
    obtain ⟨rfl, -⟩ := hP.unique call call' key key' state hreg hk
    simpa using hsat

/-- In every run of any number of threads, for every registered factory state: its promise is satisfied at most once, by
the call that registered it, and never for a second time; when that call has ended it is satisfied, and the call has
returned or thrown what it was satisfied with; and so has every call that joined the state and has ended.  A call whose
factory has thrown has changed no entry, where every step that changes entries shows it under the number of its call.
Once the owner has ended its state is not in flight, so that the next `get_or_create` can register a new one. -/
theorem waiters_agree
    (h : ((concurrentCache cfg ν ε).machine τ).Exec Machine.Any (Sections.State.init (.new cfg now)) tr s) :
    (∀ call key state, .registered call key state ∈ tr →
      (satisfactions tr state = [] ∨ ∃ outcome, satisfactions tr state = [(call, outcome)]) ∧
      (∀ result, .returned call result ∈ tr →
        ∃ outcome, satisfactions tr state = [(call, outcome)] ∧ result = outcome.result) ∧
      ∀ call' result, .joined call' state ∈ tr → .returned call' result ∈ tr →
        ∃ outcome, satisfactions tr state = [(call, outcome)] ∧ result = outcome.result) ∧
    (∀ call state outcome, .satisfied call state outcome ∈ tr → ∃ key, .registered call key state ∈ tr) ∧
    (∀ call state, .joined call state ∈ tr → ∃ owner key, .registered owner key state ∈ tr) ∧
    (∀ call state, .alreadySatisfied call state ∉ tr) ∧
    (∀ call e, .factoryThrew call e ∈ tr → ∀ e' ∈ tr, e'.changes? ≠ some call) ∧
    (∀ a s' evs, ((concurrentCache cfg ν ε).machine τ).step s a = some (s', evs) →
      (∀ i, (s'.shared.shards i).values = (s.shared.shards i).values) ∨
        ∃ t z l, a = .run t z ∧ s.pc t = some l ∧ ∃ e ∈ evs, e.changes? = some l.call) ∧
    (∀ call key state result t options, .registered call key state ∈ tr → .returned call result ∈ tr → s.pc t = none →
      (s.shared.shards (cfg.shardFor key)).live? cfg.clock key s.shared.now = none →
      (∃ state', state' ≠ state ∧ (s.shared.shards (cfg.shardFor key)).inFlight.lookup key = some state') ∨
        ∃ s', ((concurrentCache cfg ν ε).machine τ).Exec Machine.Any s [.registered s.calls key s.shared.fresh] s' ∧
          s'.pc t = some (.createFactory s.calls key options s.shared.fresh)) := by
  have hA := attached_of_exec h
  have hP := promised_of_exec h
  refine ⟨?_, hP.owner, hP.joined, hP.once, ?_, ?_, ?_⟩
  · intro call key state hreg
    have hsat := satisfactions_of_exec h hreg
    have ended : ∀ {call' : Nat} {result : CacheResult ν ε} {e : CacheEvent κ ν ε}, e ∈ tr →
        e.attaches? = some (call', state) → .returned call' result ∈ tr →
        ∃ outcome, satisfactions tr state = [(call, outcome)] ∧ result = outcome.result := by
      intro call' result e he ha hret
      obtain ⟨outcome, hp, hres⟩ := (hA.ended call' result hret).2.2 e he state ha
      exact ⟨outcome, by rw [hsat, hp]; rfl, hres⟩
    refine ⟨?_, fun result hret => ended hreg rfl hret, fun call' result hj hret => ended hj rfl hret⟩
    rw [hsat]
    cases s.shared.promise state with
    | none => exact .inl rfl
    | some outcome => exact .inr ⟨outcome, rfl⟩
  · intro call e he
    exact ((unchanged_of_exec h).thrown call e he).2.1
  · intro a s' evs hs
    cases Sections.moves_of_step hs with
    | call => exact .inl (fun _ => rfl)
    | env => exact .inl (fun _ => rfl)
    | run t z l x l' evs hp hx =>
      obtain ⟨hown, hsame⟩ := (cache_moves hx).changes
      by_cases hno : ∀ e ∈ evs, e.changes? = none
      · exact .inl (hsame hno)
      · push Not at hno
        obtain ⟨e, he, hc⟩ := hno
        obtain ⟨call, hc⟩ := Option.ne_none_iff_exists'.1 hc
        exact .inr ⟨t, z, l, rfl, hp, e, he, by rw [(hown e he call hc).1]; exact hc⟩
  · intro call key state result t options hreg hret ht hlive
    cases hf : (s.shared.shards (cfg.shardFor key)).inFlight.lookup key with
    | none => exact .inr (exec_register s options ht hlive hf)
    | some state' =>
      refine .inl ⟨state', ?_, rfl⟩
      rintro rfl
      -- the call in flight would be the owner, which has ended
      obtain ⟨-, u, l, hu, hl⟩ := (lookup_iff h _ key state').1 hf
      rw [l.registered?_eq] at hl
      have hcall := (hP.unique _ _ _ _ _ hreg (hP.flight u l key state' hu hl)).1
      exact (hA.ended call result hret).2.1 u l hu hcall.symm

/-- Thread `0` registers a factory for the key `3`, thread `1` joins it, the factory throws and both calls end. -/
def joinedFailure : List (CacheAction (Fin 2) Nat Nat Nat) :=
  [.call 0 (.getOrCreate 3 .default), .run 0 .proceed, .run 0 .proceed,
    .call 1 (.getOrCreate 3 .default), .run 1 .proceed, .run 1 .proceed,
    .run 0 (.throws 9), .run 0 .proceed, .run 1 .proceed, .run 0 .proceed, .run 0 .proceed]

theorem waiters_agree_joinedFailure :
    ∃ tr, ∃ s : CacheState (Fin 2) CacheConfig.single Nat Nat,
      ((concurrentCache CacheConfig.single Nat Nat).machine (Fin 2)).Exec Machine.Any
        (Sections.State.init (.new .single 0)) tr s ∧
      .returned 0 (.threw ⟨1, .user 9⟩) ∈ tr ∧ .returned 1 (.threw ⟨1, .user 9⟩) ∈ tr ∧
      ∃ outcome, satisfactions tr 0 = [(0, outcome)] ∧ .threw ⟨1, .user 9⟩ = outcome.result := by
  obtain ⟨tr, s, h, hc⟩ := Machine.exists_exec_of_run ((concurrentCache CacheConfig.single Nat Nat).machine (Fin 2))
    Machine.Any (Sections.State.init (.new .single 0)) (fun _ _ => true) joinedFailure
    (fun tr _ => decide (.registered 0 3 0 ∈ tr ∧ .joined 1 0 ∈ tr ∧ .returned 0 (.threw ⟨1, .user 9⟩) ∈ tr ∧
      .returned 1 (.threw ⟨1, .user 9⟩) ∈ tr))
    (fun _ _ _ => trivial) (by decide)
  obtain ⟨hreg, hjoin, h0, h1⟩ := of_decide_eq_true hc
  exact ⟨tr, s, h, h0, h1, ((waiters_agree h).1 0 3 0 hreg).2.2 1 _ hjoin h1⟩

end Xtd
