import Xtd.Cache.Sections

/-!
# One flight per key

The protocol of `get_or_create`: registering a factory state, joining it, publishing or failing, satisfying the promise
and taking the state out of flight.  `RoleMove` says what a section does to the in-flight maps and the promises in terms
of the role of its call, and `Flights` is the invariant that ties the roles of the calls to the in-flight maps.
-/

namespace Xtd

open Concurrency

variable {κ ν ε τ : Type} [DecidableEq κ] [DecidableEq τ] {cfg : CacheConfig κ}

/-! ### The protocol -/

namespace CreateRole

/-- The key and the factory state that a call has in flight. -/
def inFlight? : CreateRole κ ν ε → Option (κ × Nat)
  | owner key state | failed key state _ => some (key, state)
  | _ => none

/-- The factory state that a call has registered. -/
def owns? : CreateRole κ ν ε → Option Nat
  | owner _ state | published state | failed _ state _ | settled state _ => some state
  | _ => none

/-- The factory state whose promise a call has still to satisfy. -/
def owes? : CreateRole κ ν ε → Option Nat
  | owner _ state | published state => some state
  | _ => none

/-- What a call has satisfied its promise with. -/
def settled? : CreateRole κ ν ε → Option (Nat × Outcome ν ε)
  | failed _ state outcome | settled state outcome => some (state, outcome)
  | _ => none

end CreateRole

/-- A call that has ended is free. -/
def roleOf : Option (CacheLocal κ ν ε) → CreateRole κ ν ε
  | some l => l.role
  | none => .free

/-- An event that has nothing to do with factory states. -/
def CacheEvent.Plain (call : Nat) : CacheEvent κ ν ε → Prop
  | stored call' _ _ | extracted call' _ | returned call' _ => call' = call
  | _ => False

/-- The in-flight maps stay as they are. -/
def FlightSame (x x' : CacheShared cfg ν ε) : Prop := ∀ i, (x'.shards i).inFlight = (x.shards i).inFlight

/-- What is in flight changes for `key` only, to `state?`. -/
def FlightSet (x x' : CacheShared cfg ν ε) (key : κ) (state? : Option Nat) : Prop :=
  ∀ i key', (x'.shards i).inFlight.lookup key' =
    if i = cfg.shardFor key ∧ key' = key then state? else (x.shards i).inFlight.lookup key'

/-- What a section of a call does to the in-flight maps and the promises, by the role of the call before and after. -/
inductive RoleMove (x : CacheShared cfg ν ε) (call : Nat) :
    CreateRole κ ν ε → CacheShared cfg ν ε → CreateRole κ ν ε → List (CacheEvent κ ν ε) → Prop
  | free (x' : CacheShared cfg ν ε) (evs : List (CacheEvent κ ν ε)) (hf : FlightSame x x')
      (hp : x'.promise = x.promise) (hfresh : x.fresh ≤ x'.fresh) (he : ∀ e ∈ evs, e.Plain call) :
      RoleMove x call .free x' .free evs
  | register (x' : CacheShared cfg ν ε) (key : κ)
      (hnone : (x.shards (cfg.shardFor key)).inFlight.lookup key = none) (hf : FlightSet x x' key (some x.fresh))
      (hp : x'.promise = x.promise) (hfresh : x'.fresh = x.fresh + 1) :
      RoleMove x call .free x' (.owner key x.fresh) [.registered call key x.fresh]
  | join (key : κ) (state : Nat) (hf : (x.shards (cfg.shardFor key)).inFlight.lookup key = some state) :
      RoleMove x call .free x (.waiting state) [.joined call state]
  | get (state : Nat) (outcome : Outcome ν ε) (hp : x.promise state = some outcome) :
      RoleMove x call (.waiting state) x .free [.returned call outcome.result]
  | work (x' : CacheShared cfg ν ε) (key : κ) (state : Nat) (evs : List (CacheEvent κ ν ε)) (hf : FlightSame x x')
      (hp : x'.promise = x.promise) (hfresh : x.fresh ≤ x'.fresh) (he : ∀ e ∈ evs, ∃ e', e = .factoryThrew call e') :
      RoleMove x call (.owner key state) x' (.owner key state) evs
  | publish (x' : CacheShared cfg ν ε) (key : κ) (state : Nat) (evs : List (CacheEvent κ ν ε))
      (hf : FlightSet x x' key none) (hp : x'.promise = x.promise) (hfresh : x'.fresh = x.fresh)
      (he : ∀ e ∈ evs, ∃ entry, e = .stored call key entry) :
      RoleMove x call (.owner key state) x' (.published state) evs
  | setValue (state : Nat) (outcome : Outcome ν ε) (hp : x.promise state = none) :
      RoleMove x call (.published state) { x with promise := Function.update x.promise state (some outcome) }
        (.settled state outcome) [.satisfied call state outcome]
  | setException (key : κ) (state : Nat) (outcome : Outcome ν ε) (hp : x.promise state = none) :
      RoleMove x call (.owner key state) { x with promise := Function.update x.promise state (some outcome) }
        (.failed key state outcome) [.satisfied call state outcome]
  | again (role : CreateRole κ ν ε) (x' : CacheShared cfg ν ε) (state : Nat) (evs : List (CacheEvent κ ν ε))
      (ho : role.owes? = some state) (hp : x.promise state ≠ none) : RoleMove x call role x' .free evs
  | remove (x' : CacheShared cfg ν ε) (key : κ) (state : Nat) (outcome : Outcome ν ε)
      (hf : (x.shards (cfg.shardFor key)).inFlight.lookup key = some state → FlightSet x x' key none)
      (hp : x'.promise = x.promise) (hfresh : x'.fresh = x.fresh) :
      RoleMove x call (.failed key state outcome) x' (.settled state outcome) []
  | leave (state : Nat) (outcome : Outcome ν ε) :
      RoleMove x call (.settled state outcome) x .free [.returned call outcome.result]

omit [DecidableEq κ] in
private theorem flightSame_setShard {x : CacheShared cfg ν ε} {i : Fin cfg.shardCount} {s : Shard κ ν}
    (h : s.inFlight = (x.shards i).inFlight) : FlightSame x (x.setShard i s) := by
  intro j
  by_cases hj : j = i
  · subst hj
    simpa [CacheShared.setShard] using h
  · simp [CacheShared.setShard, hj]

private theorem flightSet_setShard {x : CacheShared cfg ν ε} {key : κ} {s : Shard κ ν} {state? : Option Nat}
    (h : s.inFlight.lookup key = state?)
    (hne : ∀ key', key' ≠ key → s.inFlight.lookup key' = (x.shards (cfg.shardFor key)).inFlight.lookup key') :
    FlightSet x (x.setShard (cfg.shardFor key) s) key state? := by
  intro i key'
  by_cases hi : i = cfg.shardFor key
  · subst hi
    by_cases hk : key' = key
    · subst hk
      simpa [CacheShared.setShard] using h
    · simpa [CacheShared.setShard, hk] using hne key' hk
  · simp [CacheShared.setShard, hi]

private theorem flightSet_erase {x : CacheShared cfg ν ε} {key : κ} {s : Shard κ ν}
    (h : s.inFlight = (x.shards (cfg.shardFor key)).inFlight.erase key) :
    FlightSet x (x.setShard (cfg.shardFor key) s) key none :=
  flightSet_setShard (by rw [h]; exact AList.lookup_erase _ _) (fun key' hk => by rw [h]; exact AList.lookup_erase_ne hk)

/-- Every section is a move of the protocol. -/
theorem role_move {x : CacheShared cfg ν ε} {l : CacheLocal κ ν ε} {r : CacheTurn cfg ν ε} (hm : CacheMoves x l r) :
    RoleMove x l.call l.role r.1 (roleOf r.2.1) r.2.2 := by
  cases hm with
  | ends l result hl =>
    rw [hl]
    exact .free x _ (fun _ => rfl) rfl (Nat.le_refl _) (by simp [CacheEvent.Plain])
  | throws l what hl =>
    rw [hl]
    exact .free _ _ (fun _ => rfl) rfl (Nat.le_succ _) (by simp [CacheEvent.Plain])
  | upgrade => exact .free x [] (fun _ => rfl) rfl (Nat.le_refl _) nofun
  | miss => exact .free x [] (fun _ => rfl) rfl (Nat.le_refl _) nofun
  | sizeNext => exact .free x [] (fun _ => rfl) rfl (Nat.le_refl _) nofun
  | emptyNext => exact .free x [] (fun _ => rfl) rfl (Nat.le_refl _) nofun
  | extract call key e hlive =>
    exact .free _ _ (flightSame_setShard rfl) rfl (Nat.le_refl _) (by simp [CacheEvent.Plain, CacheLocal.call])
  | prepare => exact .free _ [] (fun _ => rfl) rfl (Nat.le_succ _) nofun
  | store call key entry =>
    exact .free _ _ (flightSame_setShard rfl) rfl (Nat.le_refl _) (by simp [CacheEvent.Plain, CacheLocal.call])
  | erase call key e he =>
    exact .free _ _ (flightSame_setShard rfl) rfl (Nat.le_refl _) (by simp [CacheEvent.Plain, CacheLocal.call])
  | register call key options hlive hf =>
    refine .register _ key hf ?_ rfl rfl
    exact flightSet_setShard (AList.lookup_insert _) (fun key' hk => AList.lookup_insert_ne hk)
  | join call key options state hf => exact .join key state hf
  | joinedReturn call state outcome hp => exact .get state outcome hp
  | factoryReturns call key options state => exact .work _ key state [] (fun _ => rfl) rfl (Nat.le_succ _) nofun
  | factoryThrows call key options state e =>
    exact .work _ key state _ (fun _ => rfl) rfl (Nat.le_succ _) (by simp [CacheLocal.call])
  | factoryFails call key options state => exact .work _ key state [] (fun _ => rfl) rfl (Nat.le_succ _) nofun
  | publishFails call key state entry => exact .work _ key state [] (fun _ => rfl) rfl (Nat.le_succ _) nofun
  | publishKeep call key state entry e hlive => exact .publish _ key state [] (flightSet_erase rfl) rfl rfl nofun
  | publishStore call key state entry hlive =>
    exact .publish _ key state _ (flightSet_erase rfl) rfl rfl (by simp [CacheLocal.call])
  | setValue call state published hp => exact .setValue state _ hp
  | setException call key state error hp => exact .setException key state _ hp
  | setValueAgain call state published outcome hp => exact .again _ _ state _ rfl (by simp [hp])
  | setExceptionAgain call key state error outcome hp => exact .again _ _ state _ rfl (by simp [hp])
  | remove call key state error =>
    refine .remove _ key state _ ?_ rfl rfl
    intro hf
    refine flightSet_erase ?_
    simp [Shard.removeInFlight, hf]
  | createReturn call state outcome => exact .leave state outcome
  | purge call now shard result h =>
    exact .free _ _ (flightSame_setShard rfl) rfl (Nat.le_refl _) (by simp [CacheEvent.Plain, CacheLocal.call])

theorem call_move {x : CacheShared cfg ν ε} {l l' : CacheLocal κ ν ε} {r : CacheTurn cfg ν ε} (hm : CacheMoves x l r)
    (h : r.2.1 = some l') : l'.call = l.call := by
  cases hm <;> cases h <;> rfl

omit [DecidableEq κ] in
theorem role_enter (op : CacheOp κ ν) (call : Nat) (now : Int) :
    (op.enter call now : CacheLocal κ ν ε).role = .free ∧ (op.enter call now : CacheLocal κ ν ε).call = call := by
  cases op <;> exact ⟨rfl, rfl⟩

/-! ### The invariant -/

/-- What is in flight is what the calls have registered and not yet taken out of flight; different calls own different
factory states; a promise is unsatisfied as long as its owner owes it, and then has the outcome of its owner. -/
structure Flights (x : CacheShared cfg ν ε) (role : τ → CreateRole κ ν ε) : Prop where
  flight : ∀ t key state, (role t).inFlight? = some (key, state) →
    (x.shards (cfg.shardFor key)).inFlight.lookup key = some state
  owned : ∀ i key state, (x.shards i).inFlight.lookup key = some state →
    i = cfg.shardFor key ∧ ∃ t, (role t).inFlight? = some (key, state)
  distinct : ∀ t u state, (role t).owns? = some state → (role u).owns? = some state → t = u
  old : ∀ t state, (role t).owns? = some state → state < x.fresh
  owes : ∀ t state, (role t).owes? = some state → x.promise state = none
  settled : ∀ t state outcome, (role t).settled? = some (state, outcome) → x.promise state = some outcome
  unused : ∀ state, x.fresh ≤ state → x.promise state = none

namespace CreateRole

variable {r : CreateRole κ ν ε} {state : Nat}

omit [DecidableEq κ] in
theorem owns_of_inFlight {key : κ} (h : r.inFlight? = some (key, state)) : r.owns? = some state := by
  cases r <;> cases h <;> rfl

omit [DecidableEq κ] in
theorem owns_of_owes (h : r.owes? = some state) : r.owns? = some state := by
  cases r <;> first | exact h | cases h

omit [DecidableEq κ] in
theorem owns_of_settled {outcome : Outcome ν ε} (h : r.settled? = some (state, outcome)) : r.owns? = some state := by
  cases r <;> cases h <;> rfl

end CreateRole

namespace Flights

variable {x x' : CacheShared cfg ν ε} {role : τ → CreateRole κ ν ε} {t : τ} {r : CreateRole κ ν ε}

omit [DecidableEq κ] in
/-- What a thread has after the role of `t` has changed to `r`, it had before, if that holds of `r`. -/
private theorem of_update {β : Type} {f : CreateRole κ ν ε → Option β} {b : β} {u : τ}
    (h : f (Function.update role t r u) = some b) (hr : f r = some b → f (role t) = some b) : f (role u) = some b := by
  rcases Sections.update_cases h with ⟨rfl, hu⟩ | ⟨-, hu⟩
  · exact hr hu
  · exact hu

omit [DecidableEq κ] in
private theorem inFlight_update (h : r.inFlight? = (role t).inFlight?) (u : τ) :
    (Function.update role t r u).inFlight? = (role u).inFlight? := by
  by_cases hu : u = t
  · subst hu
    rw [Function.update_self, h]
  · rw [Function.update_of_ne hu]

/-- A move that leaves the in-flight maps and the promises. -/
private theorem quiet (h : Flights x role) (hf : FlightSame x x') (hp : x'.promise = x.promise)
    (hfresh : x.fresh ≤ x'.fresh) (hflight : r.inFlight? = (role t).inFlight?)
    (howns : ∀ b, r.owns? = some b → (role t).owns? = some b)
    (howes : ∀ b, r.owes? = some b → (role t).owes? = some b)
    (hsettled : ∀ b, r.settled? = some b → (role t).settled? = some b) :
    Flights x' (Function.update role t r) := by
  refine ⟨?_, ?_, ?_, ?_, ?_, ?_, ?_⟩
  · intro u key state hu
    rw [inFlight_update hflight] at hu
    rw [hf]
    exact h.flight u key state hu
  · intro i key state hi
    rw [hf] at hi
    obtain ⟨h1, u, hu⟩ := h.owned i key state hi
    exact ⟨h1, u, by rw [inFlight_update hflight]; exact hu⟩
  · intro u v state hu hv
    exact h.distinct u v state (of_update hu (howns _)) (of_update hv (howns _))
  · intro u state hu
    exact Nat.lt_of_lt_of_le (h.old u state (of_update hu (howns _))) hfresh
  · intro u state hu
    rw [hp]
    exact h.owes u state (of_update hu (howes _))
  · intro u state outcome hu
    rw [hp]
    exact h.settled u state outcome (of_update hu (hsettled _))
  · intro state hs
    rw [hp]
    exact h.unused state (Nat.le_trans hfresh hs)

/-- A move that takes the state of `t` out of flight. -/
private theorem land (h : Flights x role) {key : κ} {state : Nat} (ht : (role t).inFlight? = some (key, state))
    (hf : FlightSet x x' key none) (hp : x'.promise = x.promise) (hfresh : x'.fresh = x.fresh)
    (hflight : r.inFlight? = none) (howns : ∀ b, r.owns? = some b → (role t).owns? = some b)
    (howes : ∀ b, r.owes? = some b → (role t).owes? = some b)
    (hsettled : ∀ b, r.settled? = some b → (role t).settled? = some b) :
    Flights x' (Function.update role t r) := by
  have hkey := h.flight t key state ht
  refine ⟨?_, ?_, ?_, ?_, ?_, ?_, ?_⟩
  · intro u key' state' hu
    rcases Sections.update_cases hu with ⟨-, hu⟩ | ⟨hut, hu⟩
    · rw [hflight] at hu
      cases hu
    have hlook := h.flight u key' state' hu
    have hne : key' ≠ key := by
      -- the other call would own the state of `t`
      rintro rfl
      rw [hkey] at hlook
      cases hlook
      exact hut (h.distinct u t state (CreateRole.owns_of_inFlight hu) (CreateRole.owns_of_inFlight ht))
    rw [hf]
    simpa [hne] using hlook
  · intro i key' state' hi
    rw [hf] at hi
    split at hi
    · cases hi
    · rename_i hne
      obtain ⟨rfl, u, hu⟩ := h.owned i key' state' hi
      refine ⟨rfl, u, ?_⟩
      have hut : u ≠ t := by
        rintro rfl
        rw [ht] at hu
        cases hu
        exact hne ⟨rfl, rfl⟩
      rwa [Function.update_of_ne hut]
  · intro u v state hu hv
    exact h.distinct u v state (of_update hu (howns _)) (of_update hv (howns _))
  · intro u state hu
    rw [hfresh]
    exact h.old u state (of_update hu (howns _))
  · intro u state hu
    rw [hp]
    exact h.owes u state (of_update hu (howes _))
  · intro u state outcome hu
    rw [hp]
    exact h.settled u state outcome (of_update hu (hsettled _))
  · intro state hs
    rw [hp]
    exact h.unused state (hfresh ▸ hs)

/-- A free call registers a new state. -/
private theorem register (h : Flights x role) {key : κ} (ht : (role t).inFlight? = none)
    (hnone : (x.shards (cfg.shardFor key)).inFlight.lookup key = none) (hf : FlightSet x x' key (some x.fresh))
    (hp : x'.promise = x.promise) (hfresh : x'.fresh = x.fresh + 1) :
    Flights x' (Function.update role t (.owner key x.fresh)) := by
  have hnew : ∀ u, (role u).owns? ≠ some x.fresh := fun u hu => Nat.lt_irrefl _ (h.old u x.fresh hu)
  refine ⟨?_, ?_, ?_, ?_, ?_, ?_, ?_⟩
  · intro u key' state' hu
    rw [hf]
    rcases Sections.update_cases hu with ⟨-, hu⟩ | ⟨-, hu⟩
    · cases hu
      simp
    · have hlook := h.flight u key' state' hu
      have hne : key' ≠ key := by
        rintro rfl
        rw [hnone] at hlook
        cases hlook
      simpa [hne] using hlook
  · intro i key' state' hi
    rw [hf] at hi
    split at hi
    · rename_i hk
      obtain ⟨rfl, rfl⟩ := hk
      cases hi
      exact ⟨rfl, t, by rw [Function.update_self]; rfl⟩
    · obtain ⟨rfl, u, hu⟩ := h.owned i key' state' hi
      refine ⟨rfl, u, ?_⟩
      have hut : u ≠ t := by
        rintro rfl
        rw [ht] at hu
        cases hu
      rwa [Function.update_of_ne hut]
  · intro u v state hu hv
    rcases Sections.update_cases hu with ⟨hut, hu⟩ | ⟨hut, hu⟩ <;>
      rcases Sections.update_cases hv with ⟨hvt, hv⟩ | ⟨hvt, hv⟩
    · rw [hut, hvt]
    · cases hu
      exact absurd hv (hnew v)
    · cases hv
      exact absurd hu (hnew u)
    · exact h.distinct u v state hu hv
  · intro u state hu
    rcases Sections.update_cases hu with ⟨-, hu⟩ | ⟨-, hu⟩
    · cases hu
      omega
    · have := h.old u state hu
      omega
  · intro u state hu
    rw [hp]
    rcases Sections.update_cases hu with ⟨-, hu⟩ | ⟨-, hu⟩
    · cases hu
      exact h.unused _ (Nat.le_refl _)
    · exact h.owes u state hu
  · intro u state outcome hu
    rw [hp]
    exact h.settled u state outcome (of_update hu (fun hr => nomatch hr))
  · intro state hs
    rw [hp]
    exact h.unused state (by omega)

/-- The owner of a state satisfies its promise. -/
private theorem satisfy (h : Flights x role) {state : Nat} {outcome : Outcome ν ε}
    (ht : (role t).owes? = some state) (hflight : r.inFlight? = (role t).inFlight?) (howns : r.owns? = some state)
    (howes : r.owes? = none) (hsettled : r.settled? = some (state, outcome)) :
    Flights { x with promise := Function.update x.promise state (some outcome) } (Function.update role t r) := by
  have hown := CreateRole.owns_of_owes ht
  have hr : ∀ b, r.owns? = some b → (role t).owns? = some b := by
    intro b hb
    rw [hown, ← howns, hb]
  have hother : ∀ u state', u ≠ t → (role u).owns? = some state' → state' ≠ state := by
    rintro u state' hut hu rfl
    exact hut (h.distinct u t state' hu hown)
  refine ⟨?_, ?_, ?_, ?_, ?_, ?_, ?_⟩
  · intro u key state' hu
    rw [inFlight_update hflight] at hu
    exact h.flight u key state' hu
  · intro i key state' hi
    obtain ⟨h1, u, hu⟩ := h.owned i key state' hi
    exact ⟨h1, u, by rw [inFlight_update hflight]; exact hu⟩
  · intro u v state' hu hv
    exact h.distinct u v state' (of_update hu (hr _)) (of_update hv (hr _))
  · intro u state' hu
    exact h.old u state' (of_update hu (hr _))
  · intro u state' hu
    rcases Sections.update_cases hu with ⟨-, hu⟩ | ⟨hut, hu⟩
    · rw [howes] at hu
      cases hu
    · have hne := hother u state' hut (CreateRole.owns_of_owes hu)
      simpa [Function.update_of_ne hne] using h.owes u state' hu
  · intro u state' outcome' hu
    rcases Sections.update_cases hu with ⟨-, hu⟩ | ⟨hut, hu⟩
    · rw [hsettled] at hu
      cases hu
      simp
    · have hne := hother u state' hut (CreateRole.owns_of_settled hu)
      simpa [Function.update_of_ne hne] using h.settled u state' outcome' hu
  · intro state' hs
    have hne : state' ≠ state := by
      rintro rfl
      exact Nat.lt_irrefl _ (Nat.lt_of_lt_of_le (h.old t state' hown) hs)
    simpa [Function.update_of_ne hne] using h.unused state' hs

/-- A section keeps the invariant. -/
theorem move (h : Flights x role) {call : Nat} {r₀ : CreateRole κ ν ε} {evs : List (CacheEvent κ ν ε)}
    (ht : role t = r₀) (hm : RoleMove x call r₀ x' r evs) : Flights x' (Function.update role t r) := by
  cases hm with
  | free _ evs hf hp hfresh he =>
    exact h.quiet hf hp hfresh (by rw [ht]) (by simp [ht]) (by simp [ht]) (by simp [ht])
  | register _ key hnone hf hp hfresh => exact h.register (by rw [ht]; rfl) hnone hf hp hfresh
  | join key state hf => exact h.quiet (fun _ => rfl) rfl (Nat.le_refl _) (by rw [ht]; rfl) nofun nofun nofun
  | get state outcome hp => exact h.quiet (fun _ => rfl) rfl (Nat.le_refl _) (by rw [ht]; rfl) nofun nofun nofun
  | work _ key state evs hf hp hfresh he =>
    exact h.quiet hf hp hfresh (by rw [ht]) (by simp [ht]) (by simp [ht]) (by simp [ht])
  | publish _ key state evs hf hp hfresh he =>
    have hin : (role t).inFlight? = some (key, state) := by rw [ht]; rfl
    exact h.land hin hf hp hfresh rfl (by rw [ht]; exact fun _ h => h) (by rw [ht]; exact fun _ h => h) nofun
  | setValue state outcome hp => exact h.satisfy (by rw [ht]; rfl) (by rw [ht]; rfl) rfl rfl rfl
  | setException key state outcome hp => exact h.satisfy (by rw [ht]; rfl) (by rw [ht]; rfl) rfl rfl rfl
  | again _ _ state evs ho hp => exact absurd (h.owes t state (by rw [ht]; exact ho)) hp
  | remove _ key state outcome hf hp hfresh =>
    have hin : (role t).inFlight? = some (key, state) := by rw [ht]; rfl
    exact h.land hin (hf (h.flight t key state hin)) hp hfresh rfl (by rw [ht]; exact fun _ h => h) nofun
      (by rw [ht]; exact fun _ h => h)
  | leave state outcome => exact h.quiet (fun _ => rfl) rfl (Nat.le_refl _) (by rw [ht]; rfl) nofun nofun nofun

end Flights

/-! ### Whole runs -/

/-- The role of each thread. -/
def roles (s : CacheState τ cfg ν ε) (t : τ) : CreateRole κ ν ε := roleOf (s.pc t)

omit [DecidableEq κ] in
theorem roles_update (s : CacheState τ cfg ν ε) (x : CacheShared cfg ν ε) (t : τ) (l : Option (CacheLocal κ ν ε))
    (calls : Nat) :
    roles (⟨x, Function.update s.pc t l, calls⟩ : CacheState τ cfg ν ε) = Function.update (roles s) t (roleOf l) :=
  Function.comp_update roleOf s.pc t l

variable {tr evs : List (CacheEvent κ ν ε)} {s s' : CacheState τ cfg ν ε} {a : CacheAction τ κ ν ε} {now : Int}
  {ok : CacheState τ cfg ν ε → CacheAction τ κ ν ε → Prop}

omit [DecidableEq κ] [DecidableEq τ] in
theorem roles_of_pc {t : τ} {l : CacheLocal κ ν ε} (h : s.pc t = some l) : roles s t = l.role := by
  simp [roles, h, roleOf]

theorem flights_of_exec
    (h : ((concurrentCache cfg ν ε).machine τ).Exec ok (Sections.State.init (.new cfg now)) tr s) :
    Flights s.shared (roles s) := by
  refine h.state_invariant (I := fun s => Flights s.shared (roles s)) ?_ ?_
  · exact ⟨nofun, nofun, nofun, nofun, nofun, nofun, fun _ _ => rfl⟩
  · intro s a s' evs ih _ hs
    cases Sections.moves_of_step hs with
    | call t op hp =>
      rw [roles_update]
      rw [show roleOf (some ((concurrentCache cfg ν ε).enter op s.calls s.shared)) = .free from (role_enter op _ _).1]
      have hmove : RoleMove s.shared s.calls .free s.shared .free [] :=
        .free s.shared [] (fun _ => rfl) rfl (Nat.le_refl _) nofun
      exact ih.move (by simp [roles, hp, roleOf]) hmove
    | run t z l x l' evs hp he =>
      rw [roles_update]
      exact ih.move (roles_of_pc hp) (role_move (cache_moves he))
    | env d => exact ⟨ih.flight, ih.owned, ih.distinct, ih.old, ih.owes, ih.settled, ih.unused⟩

namespace CacheLocal

/-- The key and the factory state of a call of `get_or_create` between its registration and its removal from
`in_flight`. -/
def registered? : CacheLocal κ ν ε → Option (κ × Nat)
  | createFactory _ key _ state | createPublish _ key state _ => some (key, state)
  | createSetException _ key state _ | createRemove _ key state _ => some (key, state)
  | _ => none

def isGetOrCreate : CacheLocal κ ν ε → Bool
  | createLookup _ _ _ | createRegister _ _ _ | createJoined _ _ | createFactory _ _ _ _ => true
  | createPublish _ _ _ _ | createSetValue _ _ _ | createSetException _ _ _ _ => true
  | createRemove _ _ _ _ | createReturn _ _ _ => true
  | _ => false

omit [DecidableEq κ] in
theorem registered?_eq (l : CacheLocal κ ν ε) : l.registered? = l.role.inFlight? := by
  cases l <;> rfl

end CacheLocal

private theorem eq_empty_of_lookup {β : Type} {m : AList (fun _ : κ => β)} (h : ∀ key, m.lookup key = none) :
    m = ∅ := by
  refine AList.ext (List.eq_nil_iff_forall_not_mem.2 ?_)
  rintro ⟨key, b⟩ hb
  have hl : b ∈ m.lookup key := AList.mem_lookup_iff.2 hb
  rw [h key] at hl
  cases hl

/-- What is in flight is registered by a call under way, and only that call takes it out of flight. -/
theorem lookup_iff
    (h : ((concurrentCache cfg ν ε).machine τ).Exec ok (Sections.State.init (.new cfg now)) tr s)
    (i : Fin cfg.shardCount) (key : κ) (state : Nat) :
    (s.shared.shards i).inFlight.lookup key = some state ↔
      i = cfg.shardFor key ∧ ∃ t l, s.pc t = some l ∧ l.registered? = some (key, state) := by
  have hF := flights_of_exec h
  constructor
  · intro hi
    obtain ⟨h1, t, ht⟩ := hF.owned i key state hi
    refine ⟨h1, t, ?_⟩
    cases hp : s.pc t with
    | none => simp [roles, hp, roleOf, CreateRole.inFlight?] at ht
    | some l => exact ⟨l, rfl, by rw [l.registered?_eq, ← roles_of_pc hp]; exact ht⟩
  · rintro ⟨rfl, t, l, hp, hl⟩
    exact hF.flight t key state (by rw [roles_of_pc hp, ← l.registered?_eq]; exact hl)

private theorem registered_unique
    (h : ((concurrentCache cfg ν ε).machine τ).Exec ok (Sections.State.init (.new cfg now)) tr s)
    {t u : τ} {l l' : CacheLocal κ ν ε} {key : κ} {state state' : Nat} (ht : s.pc t = some l) (hu : s.pc u = some l')
    (hl : l.registered? = some (key, state)) (hl' : l'.registered? = some (key, state')) : t = u := by
  have h1 := (lookup_iff h (cfg.shardFor key) key state).2 ⟨rfl, t, l, ht, hl⟩
  have h2 := (lookup_iff h (cfg.shardFor key) key state').2 ⟨rfl, u, l', hu, hl'⟩
  rw [h1] at h2
  cases h2
  rw [l.registered?_eq] at hl
  rw [l'.registered?_eq] at hl'
  refine (flights_of_exec h).distinct t u state ?_ ?_
  · rw [roles_of_pc ht]
    exact CreateRole.owns_of_inFlight hl
  · rw [roles_of_pc hu]
    exact CreateRole.owns_of_inFlight hl'

/-- A step keeps what is in flight, or it is the section in which the call that registered it takes it out. -/
private theorem lookup_step
    (h : ((concurrentCache cfg ν ε).machine τ).Exec ok (Sections.State.init (.new cfg now)) tr s)
    (hm : (concurrentCache cfg ν ε).Moves s a s' evs) {i : Fin cfg.shardCount} {key : κ} {state : Nat}
    (hi : (s.shared.shards i).inFlight.lookup key = some state) :
    (s'.shared.shards i).inFlight.lookup key = some state ∨
      (s'.shared.shards i).inFlight.lookup key = none ∧
        ∃ t z l, a = .run t z ∧ s.pc t = some l ∧ l.registered? = some (key, state) := by
  have hF := flights_of_exec h
  cases hm with
  | call t op hp => exact .inl hi
  | env d => exact .inl hi
  | run t z l x l' evs hp he =>
    have hrole := role_move (cache_moves he)
    have htr := roles_of_pc hp
    -- a call that takes `key'` out of flight has registered what is in flight for it
    have lands : ∀ {key' : κ} {state' : Nat}, l.role.inFlight? = some (key', state') →
        FlightSet s.shared x key' none → (x.shards i).inFlight.lookup key = some state ∨
          (x.shards i).inFlight.lookup key = none ∧
            ∃ t' z' l', Sections.Action.run t z = (.run t' z' : CacheAction τ κ ν ε) ∧ s.pc t' = some l' ∧
              l'.registered? = some (key, state) := by
      intro key' state' hin hf
      rw [hf]
      split
      · rename_i hk
        obtain ⟨rfl, rfl⟩ := hk
        have hlook := hF.flight t key state' (by rw [htr]; exact hin)
        rw [hi] at hlook
        cases hlook
        exact .inr ⟨rfl, t, z, l, rfl, hp, by rw [l.registered?_eq]; exact hin⟩
      · exact .inl hi
    generalize hr : l.role = r at hrole lands htr
    generalize roleOf l' = r' at hrole
    dsimp only at hrole ⊢
    cases hrole with
    | free _ _ hf => rw [hf]; exact .inl hi
    | register _ key' hnone hf =>
      rw [hf]
      split
      · rename_i hk
        obtain ⟨rfl, rfl⟩ := hk
        rw [hnone] at hi
        cases hi
      · exact .inl hi
    | join => exact .inl hi
    | get => exact .inl hi
    | work _ _ _ _ hf => rw [hf]; exact .inl hi
    | publish _ key' state' _ hf => exact lands rfl hf
    | setValue => exact .inl hi
    | setException => exact .inl hi
    | again _ _ state' _ ho hp' => exact absurd (hF.owes t state' (by rw [htr]; exact ho)) hp'
    | remove _ key' state' _ hf => exact lands rfl (hf (hF.flight t key' state' (by rw [htr]; rfl)))
    | leave => exact .inl hi

/-- In every run of any number of threads: at most one call per key is between its registration and its removal from
`in_flight`; what is in flight for a key is the state of that call; a step that takes a state out of flight is a section
of the call that registered it; at most one factory per key is running; and when no `get_or_create` is under way, every
in-flight map is empty. -/
theorem single_flight
    (h : ((concurrentCache cfg ν ε).machine τ).Exec Machine.Any (Sections.State.init (.new cfg now)) tr s) :
    (∀ t u l l' key state state', s.pc t = some l → s.pc u = some l' → l.registered? = some (key, state) →
      l'.registered? = some (key, state') → t = u) ∧
    (∀ i key state, (s.shared.shards i).inFlight.lookup key = some state ↔
      i = cfg.shardFor key ∧ ∃ t l, s.pc t = some l ∧ l.registered? = some (key, state)) ∧
    (∀ a s' evs i key state, ((concurrentCache cfg ν ε).machine τ).step s a = some (s', evs) →
      (s.shared.shards i).inFlight.lookup key = some state →
      (s'.shared.shards i).inFlight.lookup key = some state ∨
        (s'.shared.shards i).inFlight.lookup key = none ∧
          ∃ t z l, a = .run t z ∧ s.pc t = some l ∧ l.registered? = some (key, state)) ∧
    (∀ t u call call' key options options' state state',
      s.pc t = some (.createFactory call key options state) →
      s.pc u = some (.createFactory call' key options' state') → t = u) ∧
    ((∀ t l, s.pc t = some l → l.isGetOrCreate = false) → ∀ i, (s.shared.shards i).inFlight = ∅) := by
  refine ⟨?_, lookup_iff h, ?_, ?_, ?_⟩
  · intro t u l l' key state state' ht hu hl hl'
    exact registered_unique h ht hu hl hl'
  · intro a s' evs i key state hs hi
    exact lookup_step h (Sections.moves_of_step hs) hi
  · intro t u call call' key options options' state state' ht hu
    exact registered_unique h ht hu rfl rfl
  · intro hno i
    refine eq_empty_of_lookup (fun key => ?_)
    cases hi : (s.shared.shards i).inFlight.lookup key with
    | none => rfl
    | some state =>
      obtain ⟨-, t, l, hp, hl⟩ := (lookup_iff h i key state).1 hi
      have := hno t l hp
      cases l <;> first | (cases hl; done) | cases this

/-- Thread `0` registers a factory for the key `3` and thread `1` joins it. -/
def joinedFlight : List (CacheAction (Fin 2) Nat Nat Nat) :=
  [.call 0 (.getOrCreate 3 .default), .run 0 .proceed, .run 0 .proceed,
    .call 1 (.getOrCreate 3 .default), .run 1 .proceed, .run 1 .proceed]

theorem single_flight_joinedFlight :
    ∃ tr, ∃ s : CacheState (Fin 2) CacheConfig.single Nat Nat,
      ((concurrentCache CacheConfig.single Nat Nat).machine (Fin 2)).Exec Machine.Any
        (Sections.State.init (.new .single 0)) tr s ∧
      (s.shared.shards (CacheConfig.single.shardFor 3)).inFlight.lookup 3 = some 0 ∧
      ∃ t l, s.pc t = some l ∧ l.registered? = some (3, 0) := by
  obtain ⟨tr, s, h, hc⟩ := Machine.exists_exec_of_run ((concurrentCache CacheConfig.single Nat Nat).machine (Fin 2))
    Machine.Any (Sections.State.init (.new .single 0)) (fun _ _ => true) joinedFlight
    (fun _ s => decide ((s.shared.shards (CacheConfig.single.shardFor 3)).inFlight.lookup 3 = some 0))
    (fun _ _ _ => trivial) (by decide)
  have hf := of_decide_eq_true hc
  exact ⟨tr, s, h, hf, (((single_flight h).2.1 _ 3 0).1 hf).2⟩

end Xtd
