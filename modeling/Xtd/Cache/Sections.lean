import Xtd.Cache.Impl

/-!
# The sections of the cache

What a section does to the stored entries (`ValuesMove`).
-/

namespace Xtd

open Concurrency

variable {κ ν ε : Type} [DecidableEq κ] {cfg : CacheConfig κ}

theorem Entry.expired_mono {clock : ClockType} {e : Entry ν} {now now' : Int} (h : e.expired clock now = true)
    (hn : now ≤ now') : e.expired clock now' = true := by
  simp only [Entry.expired, Bool.and_eq_true, decide_eq_true_eq] at h ⊢
  exact ⟨h.1, by omega⟩

/-! ### Shards -/

namespace Shard

variable {clock : ClockType} {s : Shard κ ν} {key : κ} {now : Int} {e : Entry ν}

theorem live?_eq_some : s.live? clock key now = some e ↔ s.values.lookup key = some e ∧ e.expired clock now = false := by
  simp [live?, Option.filter_eq_some_iff]

theorem live?_eq_none : s.live? clock key now = none ↔ ∀ e, s.values.lookup key = some e → e.expired clock now = true := by
  simp [live?, Option.filter_eq_none_iff]

theorem getUpgrade_of_live (h : s.live? clock key now = some e) :
    s.getUpgrade clock key now = ({ s with values := s.values.erase key }, true) := by
  obtain ⟨h1, h2⟩ := live?_eq_some.1 h
  simp [getUpgrade, h1, h2]

theorem getUpgrade_of_not_live (h : s.live? clock key now = none) : s.getUpgrade clock key now = (s, false) := by
  unfold getUpgrade
  split
  · rfl
  · rename_i e he
    simp [live?_eq_none.1 h e he]

private theorem lookup_purgeLoop {es : List (Sigma fun _ : κ => Entry ν)} {values : AList (fun _ : κ => Entry ν)}
    {removed : List κ} :
    (purgeLoop clock now es values removed).1.lookup key =
      if ∃ e' ∈ es, e'.1 = key ∧ e'.2.expired clock now = true then none else values.lookup key := by
  induction es generalizing values removed with
  | nil => simp [purgeLoop]
  | cons e' es ih =>
    unfold purgeLoop
    by_cases hexp : e'.2.expired clock now = true
    · by_cases hk : e'.1 = key
      · subst hk
        simp [hexp, ih]
      · simp only [hexp, Bool.not_true, Bool.false_eq_true, if_false, ih, AList.lookup_erase_ne (Ne.symm hk),
          List.exists_mem_cons_iff, hk, false_and, false_or]
    · simp only [hexp, Bool.not_false, if_true, ih, List.exists_mem_cons_iff, Bool.false_eq_true, and_false, false_or]

/-- `purge_expired` keeps exactly the entries that are not expired. -/
theorem lookup_purgeExpired_eq : (s.purgeExpired clock now).1.values.lookup key = s.live? clock key now := by
  show (purgeLoop clock now s.values.entries s.values []).1.lookup key = _
  rw [lookup_purgeLoop]
  split
  · rename_i h
    obtain ⟨⟨key', e'⟩, he', rfl, hexp⟩ := h
    have hl : s.values.lookup key' = some e' := AList.mem_lookup_iff.2 he'
    exact (live?_eq_none.2 (fun e he => by rw [hl] at he; cases he; exact hexp)).symm
  · rename_i h
    cases hl : s.values.lookup key with
    | none => exact (live?_eq_none.2 (fun e he => by rw [hl] at he; cases he)).symm
    | some e =>
      refine (live?_eq_some.2 ⟨hl, ?_⟩).symm
      by_contra hexp
      exact h ⟨⟨key, e⟩, AList.mem_lookup_iff.1 hl, rfl, by simpa using hexp⟩

private theorem length_purgeLoop {es : List (Sigma fun _ : κ => Entry ν)} {values : AList (fun _ : κ => Entry ν)}
    {removed : List κ} :
    (purgeLoop clock now es values removed).2.length =
      removed.length + es.countP (fun e => e.2.expired clock now) := by
  induction es generalizing values removed with
  | nil => rfl
  | cons e' es ih =>
    unfold purgeLoop
    by_cases hexp : e'.2.expired clock now = true
    · simp [hexp, ih]
      omega
    · simp [hexp, ih]

/-- `purge_expired` counts the entries that it extracts. -/
theorem length_purgeExpired :
    (s.purgeExpired clock now).2.length = s.values.entries.countP (fun e => e.2.expired clock now) := by
  show (purgeLoop clock now s.values.entries s.values []).2.length = _
  rw [length_purgeLoop]
  simp

end Shard

/-! ### Everything a section can do -/

/-- What a call of `get_or_create` has to do with a factory state: it waits for it, owns it in flight, owns it when it is
not in flight any more, or has satisfied it, before or after it was taken out of flight.  Other calls are free. -/
inductive CreateRole (κ ν ε : Type)
  | free
  | waiting (state : Nat)
  | owner (key : κ) (state : Nat)
  | published (state : Nat)
  | failed (key : κ) (state : Nat) (outcome : Outcome ν ε)
  | settled (state : Nat) (outcome : Outcome ν ε)

namespace CacheLocal

/-- The number of a call. -/
def call : CacheLocal κ ν ε → Nat
  | getLookup call _ | getUpgrade call _ | contains call _ | insertPrepare call _ _ _ | insertPublish call _ _ => call
  | erase call _ | createLookup call _ _ | createRegister call _ _ | createJoined call _ => call
  | createFactory call _ _ _ | createPublish call _ _ _ | createSetValue call _ _ => call
  | createSetException call _ _ _ | createRemove call _ _ _ | createReturn call _ _ => call
  | purge call _ _ _ | size call _ _ _ | empty call _ _ => call

def role : CacheLocal κ ν ε → CreateRole κ ν ε
  | createJoined _ state => .waiting state
  | createFactory _ key _ state | createPublish _ key state _ | createSetException _ key state _ => .owner key state
  | createSetValue _ state _ => .published state
  | createRemove _ key state error => .failed key state (.exception error)
  | createReturn _ state outcome => .settled state outcome
  | _ => .free

end CacheLocal

/-- Everything a section can do. -/
inductive CacheMoves (x : CacheShared cfg ν ε) : CacheLocal κ ν ε → CacheTurn cfg ν ε → Prop
  | ends (l : CacheLocal κ ν ε) (result : CacheResult ν ε) (hl : l.role = .free) :
      CacheMoves x l (x, none, [.returned l.call result])
  | throws (l : CacheLocal κ ν ε) (what : Thrown ε) (hl : l.role = .free) :
      CacheMoves x l ({ x with fresh := x.fresh + 1 }, none, [.returned l.call (.threw ⟨x.fresh, what⟩)])
  | upgrade (call : Nat) (key : κ) : CacheMoves x (.getLookup call key) (x, some (.getUpgrade call key), [])
  | miss (call : Nat) (key : κ) (options : CacheEntryOpts) :
      CacheMoves x (.createLookup call key options) (x, some (.createRegister call key options), [])
  | sizeNext (call : Nat) (now : Int) (shard result n : Nat) :
      CacheMoves x (.size call now shard result) (x, some (.size call now (shard + 1) (result + n)), [])
  | emptyNext (call : Nat) (now : Int) (shard : Nat) :
      CacheMoves x (.empty call now shard) (x, some (.empty call now (shard + 1)), [])
  | extract (call : Nat) (key : κ) (e : Entry ν)
      (hlive : (x.shards (cfg.shardFor key)).live? cfg.clock key x.now = some e) :
      CacheMoves x (.getUpgrade call key)
        (x.setShard (cfg.shardFor key)
            { x.shards (cfg.shardFor key) with values := (x.shards (cfg.shardFor key)).values.erase key },
          none, [.extracted call key, .returned call (.pointer none)])
  | prepare (call : Nat) (key : κ) (options : CacheEntryOpts) (value : ν) (entry : Entry ν) :
      CacheMoves x (.insertPrepare call key options value)
        ({ x with fresh := x.fresh + 1 }, some (.insertPublish call key entry), [])
  | store (call : Nat) (key : κ) (entry : Entry ν) :
      CacheMoves x (.insertPublish call key entry)
        (x.setShard (cfg.shardFor key) ((x.shards (cfg.shardFor key)).insertOrAssign key entry), none,
          [.stored call key entry, .returned call (.pointer (some entry.value))])
  | erase (call : Nat) (key : κ) (e : Entry ν) (he : (x.shards (cfg.shardFor key)).values.lookup key = some e) :
      CacheMoves x (.erase call key)
        (x.setShard (cfg.shardFor key)
            { x.shards (cfg.shardFor key) with values := (x.shards (cfg.shardFor key)).values.erase key },
          none, [.extracted call key, .returned call (.bool true)])
  | register (call : Nat) (key : κ) (options : CacheEntryOpts)
      (hlive : (x.shards (cfg.shardFor key)).live? cfg.clock key x.now = none)
      (hf : (x.shards (cfg.shardFor key)).inFlight.lookup key = none) :
      CacheMoves x (.createRegister call key options)
        ({ x.setShard (cfg.shardFor key)
            { x.shards (cfg.shardFor key) with
              inFlight := (x.shards (cfg.shardFor key)).inFlight.insert key x.fresh } with fresh := x.fresh + 1 },
          some (.createFactory call key options x.fresh), [.registered call key x.fresh])
  | join (call : Nat) (key : κ) (options : CacheEntryOpts) (state : Nat)
      (hf : (x.shards (cfg.shardFor key)).inFlight.lookup key = some state) :
      CacheMoves x (.createRegister call key options) (x, some (.createJoined call state), [.joined call state])
  | joinedReturn (call state : Nat) (outcome : Outcome ν ε) (hp : x.promise state = some outcome) :
      CacheMoves x (.createJoined call state) (x, none, [.returned call outcome.result])
  | factoryReturns (call : Nat) (key : κ) (options : CacheEntryOpts) (state : Nat) (entry : Entry ν) :
      CacheMoves x (.createFactory call key options state)
        ({ x with fresh := x.fresh + 1 }, some (.createPublish call key state entry), [])
  | factoryThrows (call : Nat) (key : κ) (options : CacheEntryOpts) (state : Nat) (e : ε) :
      CacheMoves x (.createFactory call key options state)
        ({ x with fresh := x.fresh + 1 }, some (.createSetException call key state ⟨x.fresh, .user e⟩),
          [.factoryThrew call e])
  | factoryFails (call : Nat) (key : κ) (options : CacheEntryOpts) (state : Nat) :
      CacheMoves x (.createFactory call key options state)
        ({ x with fresh := x.fresh + 1 }, some (.createSetException call key state ⟨x.fresh, .badAlloc⟩), [])
  | publishFails (call : Nat) (key : κ) (state : Nat) (entry : Entry ν) :
      CacheMoves x (.createPublish call key state entry)
        ({ x with fresh := x.fresh + 1 }, some (.createSetException call key state ⟨x.fresh, .badAlloc⟩), [])
  | publishKeep (call : Nat) (key : κ) (state : Nat) (entry e : Entry ν)
      (hlive : (x.shards (cfg.shardFor key)).live? cfg.clock key x.now = some e) :
      CacheMoves x (.createPublish call key state entry)
        (x.setShard (cfg.shardFor key)
            { x.shards (cfg.shardFor key) with inFlight := (x.shards (cfg.shardFor key)).inFlight.erase key },
          some (.createSetValue call state e.value), [])
  | publishStore (call : Nat) (key : κ) (state : Nat) (entry : Entry ν)
      (hlive : (x.shards (cfg.shardFor key)).live? cfg.clock key x.now = none) :
      CacheMoves x (.createPublish call key state entry)
        (x.setShard (cfg.shardFor key)
            { (x.shards (cfg.shardFor key)).insertOrAssign key entry with
              inFlight := (x.shards (cfg.shardFor key)).inFlight.erase key },
          some (.createSetValue call state entry.value), [.stored call key entry])
  | setValue (call state : Nat) (published : CacheValue ν) (hp : x.promise state = none) :
      CacheMoves x (.createSetValue call state published)
        ({ x with promise := Function.update x.promise state (some (.value published)) },
          some (.createReturn call state (.value published)), [.satisfied call state (.value published)])
  | setException (call : Nat) (key : κ) (state : Nat) (error : ExceptionPtr ε) (hp : x.promise state = none) :
      CacheMoves x (.createSetException call key state error)
        ({ x with promise := Function.update x.promise state (some (.exception error)) },
          some (.createRemove call key state error), [.satisfied call state (.exception error)])
  | setValueAgain (call state : Nat) (published : CacheValue ν) (outcome : Outcome ν ε)
      (hp : x.promise state = some outcome) :
      CacheMoves x (.createSetValue call state published)
        ({ x with fresh := x.fresh + 1 }, none,
          [.alreadySatisfied call state, .returned call (.threw ⟨x.fresh, .futureError⟩)])
  | setExceptionAgain (call : Nat) (key : κ) (state : Nat) (error : ExceptionPtr ε) (outcome : Outcome ν ε)
      (hp : x.promise state = some outcome) :
      CacheMoves x (.createSetException call key state error)
        ({ x with fresh := x.fresh + 1 }, none,
          [.alreadySatisfied call state, .returned call (.threw ⟨x.fresh, .futureError⟩)])
  | remove (call : Nat) (key : κ) (state : Nat) (error : ExceptionPtr ε) :
      CacheMoves x (.createRemove call key state error)
        (x.setShard (cfg.shardFor key) ((x.shards (cfg.shardFor key)).removeInFlight key state),
          some (.createReturn call state (.exception error)), [])
  | createReturn (call state : Nat) (outcome : Outcome ν ε) :
      CacheMoves x (.createReturn call state outcome) (x, none, [.returned call outcome.result])
  | purge (call : Nat) (now : Int) (shard result : Nat) (h : shard < cfg.shardCount) :
      CacheMoves x (.purge call now shard result)
        (x.setShard ⟨shard, h⟩ ((x.shards ⟨shard, h⟩).purgeExpired cfg.clock now).1,
          some (.purge call now (shard + 1)
            (result + ((x.shards ⟨shard, h⟩).purgeExpired cfg.clock now).2.length)),
          ((x.shards ⟨shard, h⟩).purgeExpired cfg.clock now).2.map (.extracted call))

omit [DecidableEq κ] in
theorem CacheShared.setShard_self (x : CacheShared cfg ν ε) (i : Fin cfg.shardCount) :
    x.setShard i (x.shards i) = x := by
  simp [CacheShared.setShard]

private theorem getUpgrade_moves (x : CacheShared cfg ν ε) (call : Nat) (key : κ) :
    CacheMoves x (.getUpgrade call key) (x.getUpgrade call key) := by
  unfold CacheShared.getUpgrade
  cases hlive : (x.shards (cfg.shardFor key)).live? cfg.clock key x.now with
  | none =>
    rw [Shard.getUpgrade_of_not_live hlive]
    dsimp only
    rw [CacheShared.setShard_self]
    exact .ends (.getUpgrade call key) (.pointer none) rfl
  | some e =>
    rw [Shard.getUpgrade_of_live hlive]
    exact .extract call key e hlive

private theorem insertPublish_moves (x : CacheShared cfg ν ε) (call : Nat) (key : κ) (entry : Entry ν)
    (z : CacheChoice ν ε) : CacheMoves x (.insertPublish call key entry) (x.insertPublish call key entry z) := by
  unfold CacheShared.insertPublish
  dsimp only
  split
  · exact .throws (.insertPublish call key entry) .badAlloc rfl
  · exact .store call key entry

private theorem erase_moves (x : CacheShared cfg ν ε) (call : Nat) (key : κ) :
    CacheMoves x (.erase call key) (x.erase call key) := by
  unfold CacheShared.erase Shard.erase
  cases he : (x.shards (cfg.shardFor key)).values.lookup key with
  | none =>
    dsimp only
    rw [CacheShared.setShard_self]
    exact .ends (.erase call key) (.bool false) rfl
  | some e => exact .erase call key e he

private theorem createRegister_moves (x : CacheShared cfg ν ε) (call : Nat) (key : κ) (options : CacheEntryOpts)
    (z : CacheChoice ν ε) : CacheMoves x (.createRegister call key options) (x.createRegister call key options z) := by
  unfold CacheShared.createRegister Shard.register
  cases hlive : (x.shards (cfg.shardFor key)).live? cfg.clock key x.now with
  | some e => exact .ends (.createRegister call key options) _ rfl
  | none =>
    cases hf : (x.shards (cfg.shardFor key)).inFlight.lookup key with
    | some state => exact .join call key options state hf
    | none =>
      cases z with
      | badAlloc => exact .throws (.createRegister call key options) .badAlloc rfl
      | _ => exact .register call key options hlive hf

private theorem createPublish_moves (x : CacheShared cfg ν ε) (call : Nat) (key : κ) (state : Nat) (entry : Entry ν)
    (z : CacheChoice ν ε) :
    CacheMoves x (.createPublish call key state entry) (x.createPublish call key state entry z) := by
  unfold CacheShared.createPublish
  dsimp only
  split
  · exact .publishFails call key state entry
  · unfold Shard.publish
    cases hlive : (x.shards (cfg.shardFor key)).live? cfg.clock key x.now with
    | some e => exact .publishKeep call key state entry e hlive
    | none => exact .publishStore call key state entry hlive

private theorem purge_moves (x : CacheShared cfg ν ε) (call : Nat) (now : Int) (shard result : Nat)
    (z : CacheChoice ν ε) : CacheMoves x (.purge call now shard result) (x.purge call now shard result z) := by
  unfold CacheShared.purge
  split
  · rename_i h
    cases z with
    | badAlloc => exact .throws (.purge call now shard result) .badAlloc rfl
    | _ => exact .purge call now shard result h
  · exact .ends (.purge call now shard result) _ rfl

/-- Every section is one of the cases. -/
theorem cache_moves {x : CacheShared cfg ν ε} {l : CacheLocal κ ν ε} {z : CacheChoice ν ε} {r : CacheTurn cfg ν ε}
    (h : (concurrentCache cfg ν ε).exec l x z = some r) : CacheMoves x l r := by
  cases l with
  | getLookup call key =>
    cases h
    show CacheMoves x _ (x.getLookup call key)
    unfold CacheShared.getLookup
    split
    · exact .ends (.getLookup call key) _ rfl
    · exact .upgrade call key
    · exact .ends (.getLookup call key) _ rfl
  | getUpgrade call key => cases h; exact getUpgrade_moves x call key
  | contains call key => cases h; exact .ends (.contains call key) _ rfl
  | insertPrepare call key options value =>
    cases h
    cases z with
    | throws e => exact .throws (.insertPrepare call key options value) (.user e) rfl
    | badAlloc => exact .throws (.insertPrepare call key options value) .badAlloc rfl
    | _ => exact .prepare call key options value _
  | insertPublish call key entry => cases h; exact insertPublish_moves x call key entry z
  | erase call key => cases h; exact erase_moves x call key
  | createLookup call key options =>
    cases h
    show CacheMoves x _ (x.createLookup call key options)
    unfold CacheShared.createLookup
    split
    · exact .ends (.createLookup call key options) _ rfl
    · exact .miss call key options
  | createRegister call key options => cases h; exact createRegister_moves x call key options z
  | createJoined call state =>
    change x.createJoined call state = some r at h
    simp only [CacheShared.createJoined, Option.map_eq_some_iff] at h
    obtain ⟨outcome, hp, rfl⟩ := h
    exact .joinedReturn call state outcome hp
  | createFactory call key options state =>
    cases z with
    | proceed => cases h
    | returns v => cases h; exact .factoryReturns call key options state _
    | throws e => cases h; exact .factoryThrows call key options state e
    | badAlloc => cases h; exact .factoryFails call key options state
  | createPublish call key state entry => cases h; exact createPublish_moves x call key state entry z
  | createSetValue call state published =>
    cases h
    show CacheMoves x _ (x.satisfy call state _ _)
    unfold CacheShared.satisfy
    split
    · rename_i hp
      exact .setValue call state published hp
    · rename_i outcome hp
      exact .setValueAgain call state published outcome hp
  | createSetException call key state error =>
    cases h
    show CacheMoves x _ (x.satisfy call state _ _)
    unfold CacheShared.satisfy
    split
    · rename_i hp
      exact .setException call key state error hp
    · rename_i outcome hp
      exact .setExceptionAgain call key state error outcome hp
  | createRemove call key state error => cases h; exact .remove call key state error
  | createReturn call state outcome => cases h; exact .createReturn call state outcome
  | purge call now shard result => cases h; exact purge_moves x call now shard result z
  | size call now shard result =>
    cases h
    show CacheMoves x _ (x.size call now shard result)
    unfold CacheShared.size
    split
    · exact .sizeNext call now shard result _
    · exact .ends (.size call now shard result) _ rfl
  | empty call now shard =>
    cases h
    show CacheMoves x _ (x.empty call now shard)
    unfold CacheShared.empty
    split
    · split
      · exact .ends (.empty call now shard) _ rfl
      · exact .emptyNext call now shard
    · exact .ends (.empty call now shard) _ rfl

end Xtd
