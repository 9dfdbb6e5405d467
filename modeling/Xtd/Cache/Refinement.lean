import Xtd.Cache.Sections
import Xtd.Cache.TtlMap

/-!
# The sharded cache is one map

A single thread that makes its calls one after the other, with the clock going on only between two calls, cannot tell
the cache from `TtlMap`: every stored key lies in the shard its hash selects (`Placed`), what is stored over all shards
is what the map stores, and every call answers what the map answers.  The map has no shards, hence neither the results
nor what is stored depend on their number or on the hash.
-/

namespace Xtd

open Concurrency

variable {κ ν ε : Type} [DecidableEq κ] {cfg : CacheConfig κ}

namespace CacheShared

variable (x : CacheShared cfg ν ε)

/-- The entry stored for a key, looked for in all shards. -/
def stored (key : κ) : Option (Entry ν) :=
  (List.finRange cfg.shardCount).findSome? (fun i => (x.shards i).values.lookup key)

def toTtlMap : TtlMap κ ν := ⟨x.stored, x.fresh, x.now⟩

/-- Every stored key lies in the shard that its hash selects. -/
def Placed : Prop := ∀ i key, key ∈ (x.shards i).values → (i : Nat) = cfg.hash key % cfg.shardCount

/-- What holds between two calls: every key lies in its shard, no factory is in flight, and no promise at an address
that is free is satisfied. -/
structure Idle : Prop where
  placed : x.Placed
  notInFlight : ∀ i key, (x.shards i).inFlight.lookup key = none
  unsatisfied : ∀ a, x.fresh ≤ a → x.promise a = none

end CacheShared

/-- The result that the events of a call show. -/
def CacheEvent.result? : List (CacheEvent κ ν ε) → Option (CacheResult ν ε)
  | [] => none
  | .returned _ result :: _ => some result
  | _ :: evs => result? evs

/-! ### Where the keys lie -/

namespace CacheShared

variable {x : CacheShared cfg ν ε} {key : κ}

theorem Placed.eq_shardFor (h : x.Placed) {i : Fin cfg.shardCount} {e : Entry ν}
    (he : (x.shards i).values.lookup key = some e) : i = cfg.shardFor key := by
  have hmem : key ∈ (x.shards i).values := AList.lookup_isSome.1 (by rw [he]; rfl)
  exact Fin.ext (h i key hmem)

/-- The shard of a key decides what is stored for it. -/
theorem Placed.stored_eq (h : x.Placed) (key : κ) :
    x.stored key = (x.shards (cfg.shardFor key)).values.lookup key := by
  unfold stored
  cases hs : (List.finRange cfg.shardCount).findSome? (fun i => (x.shards i).values.lookup key) with
  | some e =>
    obtain ⟨i, -, hi⟩ := List.exists_of_findSome?_eq_some hs
    rw [← h.eq_shardFor hi, hi]
  | none => exact (List.findSome?_eq_none_iff.1 hs _ (List.mem_finRange _)).symm

theorem Placed.live_eq (h : x.Placed) (key : κ) :
    x.toTtlMap.live cfg.clock key = (x.shards (cfg.shardFor key)).live? cfg.clock key x.now := by
  show (x.stored key).filter _ = _
  rw [h.stored_eq]
  rfl

/-- A stored key lies in its shard and in no other. -/
theorem Placed.mem_iff (h : x.Placed) {e : Entry ν} (he : x.stored key = some e) (i : Fin cfg.shardCount) :
    key ∈ (x.shards i).values ↔ (i : Nat) = cfg.hash key % cfg.shardCount := by
  constructor
  · exact h i key
  · intro hi
    have hshard : i = cfg.shardFor key := Fin.ext hi
    rw [hshard, ← AList.lookup_isSome, ← h.stored_eq, he]
    rfl

/-- A section that changes the entry for a key in the shard of that key and no other entry. -/
theorem Placed.setShard (h : x.Placed) {s : Shard κ ν}
    (hs : ∀ key', key' ≠ key → s.values.lookup key' = (x.shards (cfg.shardFor key)).values.lookup key') :
    (x.setShard (cfg.shardFor key) s).Placed ∧
      (x.setShard (cfg.shardFor key) s).stored = Function.update x.stored key (s.values.lookup key) := by
  have hplaced : (x.setShard (cfg.shardFor key) s).Placed := by
    intro i key' hmem
    by_cases hi : i = cfg.shardFor key
    · subst hi
      by_cases hk : key' = key
      · rw [hk]
        rfl
      · refine h _ key' ?_
        rw [← AList.lookup_isSome, ← hs key' hk, AList.lookup_isSome]
        simpa [CacheShared.setShard] using hmem
    · exact h i key' (by simpa [CacheShared.setShard, Function.update_of_ne hi] using hmem)
  refine ⟨hplaced, ?_⟩
  funext key'
  rw [hplaced.stored_eq]
  by_cases hk : key' = key
  · subst hk
    simp [CacheShared.setShard]
  · rw [Function.update_of_ne hk, h.stored_eq]
    by_cases hi : cfg.shardFor key' = cfg.shardFor key
    · rw [hi]
      simp [CacheShared.setShard, hs key' hk]
    · simp [CacheShared.setShard, Function.update_of_ne hi]

theorem Idle.setShard (h : x.Idle) {s : Shard κ ν}
    (hs : ∀ key', key' ≠ key → s.values.lookup key' = (x.shards (cfg.shardFor key)).values.lookup key')
    (hf : ∀ key', s.inFlight.lookup key' = none) : (x.setShard (cfg.shardFor key) s).Idle := by
  refine ⟨(h.placed.setShard hs).1, ?_, h.unsatisfied⟩
  intro i key'
  by_cases hi : i = cfg.shardFor key
  · subst hi
    simpa [CacheShared.setShard] using hf key'
  · simpa [CacheShared.setShard, Function.update_of_ne hi] using h.notInFlight i key'

theorem Idle.allocate (h : x.Idle) (n : Nat) : ({ x with fresh := x.fresh + n } : CacheShared cfg ν ε).Idle :=
  ⟨h.placed, h.notInFlight, fun a ha => h.unsatisfied a (Nat.le_of_add_right_le ha)⟩

private theorem toTtlMap_eq {stored : κ → Option (Entry ν)} {fresh : Nat} {now : Int} (h1 : x.stored = stored)
    (h2 : x.fresh = fresh) (h3 : x.now = now) : x.toTtlMap = ⟨stored, fresh, now⟩ := by
  subst h1 h2 h3
  rfl

/-! ### The calls for a key -/

/-- From `x` a call of `op` ends, and it does what the map does. -/
def CallRefines (x : CacheShared cfg ν ε) (call : Nat) (op : CacheOp κ ν) (userCode : Except ε ν) : Prop :=
  ∃ evs y, (concurrentCache cfg ν ε).Completes (.ofUserCode userCode) (op.enter call x.now) x evs y ∧ y.Idle ∧
    y.toTtlMap = (x.toTtlMap.call cfg.clock op userCode).1 ∧
    CacheEvent.result? evs = some (x.toTtlMap.call cfg.clock op userCode).2

variable {call : Nat} {userCode : Except ε ν}

/-- `get` at a constant clock leaves everything as it is: its second section finds the entry expired again, and does not
extract it. -/
theorem completes_get (x : CacheShared cfg ν ε) (call : Nat) (key : κ) (z : CacheChoice ν ε) :
    (concurrentCache cfg ν ε).Completes z (.getLookup call key) x
      [.returned call (.pointer (((x.shards (cfg.shardFor key)).live? cfg.clock key x.now).map Entry.value))] x := by
  cases hl : (x.shards (cfg.shardFor key)).live? cfg.clock key x.now with
  | some e =>
    obtain ⟨he, hexp⟩ := Shard.live?_eq_some.1 hl
    have hx : x.getLookup call key = x.done call [] (.pointer (some e.value)) := by
      simp [getLookup, Shard.internalFastGet, he, hexp]
    exact .last (congrArg some hx)
  | none =>
    cases he : (x.shards (cfg.shardFor key)).values.lookup key with
    | none =>
      have hx : x.getLookup call key = x.done call [] (.pointer none) := by
        simp [getLookup, Shard.internalFastGet, he]
      exact .last (congrArg some hx)
    | some e =>
      have hx : x.getLookup call key = (x, some (.getUpgrade call key), []) := by
        simp [getLookup, Shard.internalFastGet, he, Shard.live?_eq_none.1 hl e he]
      have hupgrade : x.getUpgrade call key = x.done call [] (.pointer none) := by
        simp [CacheShared.getUpgrade, Shard.getUpgrade_of_not_live hl, setShard_self]
      exact .silent (congrArg some hx) (.last (congrArg some hupgrade))

private theorem get_refines (h : x.Idle) : x.CallRefines call (.get key) userCode := by
  refine ⟨_, x, completes_get x call key _, h, rfl, ?_⟩
  simp [CacheEvent.result?, TtlMap.call, h.placed.live_eq]

private theorem contains_refines (h : x.Idle) : x.CallRefines call (.contains key) userCode := by
  refine ⟨_, x, .last rfl, h, rfl, ?_⟩
  simp [CacheEvent.result?, TtlMap.call, h.placed.live_eq, Shard.contains]

private theorem insertOrAssign_refines (h : x.Idle) (options : CacheEntryOpts) (value : ν) :
    x.CallRefines call (.insertOrAssign key options value) userCode := by
  cases userCode with
  | error e => exact ⟨_, _, .last rfl, h.allocate 1, rfl, rfl⟩
  | ok v =>
    have h₁ := h.allocate 1
    have hs : ∀ key', key' ≠ key →
        ((x.shards (cfg.shardFor key)).insertOrAssign key
          (x.toTtlMap.newEntry cfg.clock x.fresh options value)).values.lookup key' =
        (x.shards (cfg.shardFor key)).values.lookup key' := fun key' hk => AList.lookup_insert_ne hk
    refine ⟨_, _, .next rfl (.last rfl), h₁.setShard hs (h₁.notInFlight _), ?_, rfl⟩
    refine toTtlMap_eq ((h₁.placed.setShard hs).2.trans ?_) rfl rfl
    simp [Shard.insertOrAssign]
    rfl

private theorem erase_refines (h : x.Idle) : x.CallRefines call (.erase key) userCode := by
  have hstored := h.placed.stored_eq key
  cases he : (x.shards (cfg.shardFor key)).values.lookup key with
  | none =>
    have hx : x.erase call key = x.done call [] (.bool false) := by
      simp [CacheShared.erase, Shard.erase, he, setShard_self]
    refine ⟨_, x, .last (congrArg some hx), h, toTtlMap_eq ?_ rfl rfl, ?_⟩
    · exact (Function.update_eq_self_iff.2 (hstored.trans he).symm).symm
    · simp [CacheEvent.result?, TtlMap.call, toTtlMap, hstored, he]
  | some e =>
    let s : Shard κ ν :=
      { x.shards (cfg.shardFor key) with values := (x.shards (cfg.shardFor key)).values.erase key }
    have hx : x.erase call key = (x.setShard (cfg.shardFor key) s).done call [.extracted call key] (.bool true) := by
      simp [CacheShared.erase, Shard.erase, he, s]
    have hs : ∀ key', key' ≠ key → s.values.lookup key' = (x.shards (cfg.shardFor key)).values.lookup key' :=
      fun key' hk => AList.lookup_erase_ne hk
    refine ⟨_, _, .last (congrArg some hx), h.setShard hs (h.notInFlight _), ?_, ?_⟩
    · refine toTtlMap_eq ((h.placed.setShard hs).2.trans ?_) rfl rfl
      simp [s, toTtlMap]
    · simp [CacheEvent.result?, TtlMap.call, toTtlMap, hstored, he]

/-- The state after `get_or_create` has registered a factory state. -/
private def registered (x : CacheShared cfg ν ε) (key : κ) : CacheShared cfg ν ε :=
  { x.setShard (cfg.shardFor key)
      { x.shards (cfg.shardFor key) with inFlight := (x.shards (cfg.shardFor key)).inFlight.insert key x.fresh } with
    fresh := x.fresh + 1 }

/-- A call of `get_or_create` that does not find an entry goes on with its factory. -/
private theorem completes_of_factory (h : x.Idle) {options : CacheEntryOpts} {evs : List (CacheEvent κ ν ε)}
    {y : CacheShared cfg ν ε} (hl : (x.shards (cfg.shardFor key)).live? cfg.clock key x.now = none)
    (hc : (concurrentCache cfg ν ε).Completes (.ofUserCode userCode) (.createFactory call key options x.fresh)
      (x.registered key) evs y) :
    (concurrentCache cfg ν ε).Completes (.ofUserCode userCode) (.createLookup call key options) x
      ([.registered call key x.fresh] ++ evs) y := by
  have h1 : x.createLookup call key options = (x, some (.createRegister call key options), []) := by
    cases he : (x.shards (cfg.shardFor key)).values.lookup key with
    | none => simp [createLookup, Shard.internalFastGet, he]
    | some e => simp [createLookup, Shard.internalFastGet, he, Shard.live?_eq_none.1 hl e he]
  have h2 : x.createRegister call key options (.ofUserCode userCode) =
      (x.registered key, some (.createFactory call key options x.fresh), [.registered call key x.fresh]) := by
    cases userCode <;>
      simp [createRegister, Shard.register, hl, h.notInFlight, CacheChoice.ofUserCode, registered]
  have hc₁ : (concurrentCache cfg ν ε).Completes (.ofUserCode userCode) (.createRegister call key options) x
      ([.registered call key x.fresh] ++ evs) y := .next (congrArg some h2) hc
  exact .silent (congrArg some h1) hc₁

/-- `get_or_create` between its factory and its end, seen from the state before the call: its shard becomes `s`, its
promise is satisfied, and two addresses are taken. -/
private def created (x : CacheShared cfg ν ε) (key : κ) (s : Shard κ ν) (outcome : Outcome ν ε) :
    CacheShared cfg ν ε :=
  { x.setShard (cfg.shardFor key) s with
    promise := Function.update x.promise x.fresh (some outcome), fresh := x.fresh + 2 }

private theorem Idle.created (h : x.Idle) {s : Shard κ ν} {outcome : Outcome ν ε}
    (hs : ∀ key', key' ≠ key → s.values.lookup key' = (x.shards (cfg.shardFor key)).values.lookup key')
    (hf : ∀ key', s.inFlight.lookup key' = none) : (x.created key s outcome).Idle := by
  have h₁ := h.setShard hs hf
  refine ⟨h₁.placed, h₁.notInFlight, ?_⟩
  intro a ha
  have hle : x.fresh + 2 ≤ a := ha
  have hne : a ≠ x.fresh := by omega
  show Function.update x.promise x.fresh (some outcome) a = none
  rw [Function.update_of_ne hne]
  exact h.unsatisfied a (by omega)

/-- A factory state that is registered and taken out of flight again leaves none in flight. -/
private theorem lookup_erase_insert {m : AList (fun _ : κ => Nat)} (hm : ∀ key', m.lookup key' = none) (state : Nat)
    (key' : κ) : ((m.insert key state).erase key).lookup key' = none := by
  by_cases hk : key' = key
  · subst hk
    exact AList.lookup_erase _ _
  · rw [AList.lookup_erase_ne hk, AList.lookup_insert_ne hk, hm]

private theorem getOrCreate_returns (h : x.Idle) (options : CacheEntryOpts) (v : ν)
    (hl : (x.shards (cfg.shardFor key)).live? cfg.clock key x.now = none) :
    x.CallRefines call (.getOrCreate key options) (.ok v) := by
  let entry := x.toTtlMap.newEntry cfg.clock (x.fresh + 1) options v
  let s : Shard κ ν :=
    { (x.shards (cfg.shardFor key)).insertOrAssign key entry with
      inFlight := ((x.shards (cfg.shardFor key)).inFlight.insert key x.fresh).erase key }
  have hs : ∀ key', key' ≠ key → s.values.lookup key' = (x.shards (cfg.shardFor key)).values.lookup key' :=
    fun key' hk => AList.lookup_insert_ne hk
  have hf : ∀ key', s.inFlight.lookup key' = none := lookup_erase_insert (h.notInFlight _) x.fresh
  let x₁ : CacheShared cfg ν ε := { x.registered key with fresh := x.fresh + 2 }
  have hl₁ : (x₁.shards (cfg.shardFor key)).live? cfg.clock key x₁.now = none := by
    simpa [x₁, registered, CacheShared.setShard, Shard.live?] using hl
  have hpublish : x₁.createPublish call key x.fresh entry (.returns v) =
      (x₁.setShard (cfg.shardFor key) s, some (.createSetValue call x.fresh entry.value),
        [.stored call key entry]) := by
    simp only [createPublish, Shard.publish, hl₁]
    simp [x₁, registered, CacheShared.setShard, s, Shard.insertOrAssign]
  have hsatisfy : (x₁.setShard (cfg.shardFor key) s).satisfy call x.fresh (.value entry.value)
      (.createReturn call x.fresh (.value entry.value)) =
      (x.created key s (.value entry.value), some (.createReturn call x.fresh (.value entry.value)),
        [.satisfied call x.fresh (.value entry.value)]) := by
    have hp : (x₁.setShard (cfg.shardFor key) s).promise x.fresh = none := h.unsatisfied _ (Nat.le_refl _)
    simp only [satisfy, hp]
    simp [x₁, registered, CacheShared.setShard, CacheShared.created]
  refine ⟨_, x.created key s (.value entry.value), completes_of_factory h hl (.silent rfl
    (.next (congrArg some hpublish) (.next (congrArg some hsatisfy) (.last rfl)))), h.created hs hf, ?_, ?_⟩
  · rw [TtlMap.call_of_returns ((h.placed.live_eq key).trans hl)]
    refine toTtlMap_eq ((h.placed.setShard hs).2.trans ?_) rfl rfl
    simp [s, Shard.insertOrAssign]
    rfl
  · rw [TtlMap.call_of_returns ((h.placed.live_eq key).trans hl)]
    rfl

private theorem getOrCreate_throws (h : x.Idle) (options : CacheEntryOpts) (e : ε)
    (hl : (x.shards (cfg.shardFor key)).live? cfg.clock key x.now = none) :
    x.CallRefines call (.getOrCreate key options) (.error e) := by
  let error : ExceptionPtr ε := ⟨x.fresh + 1, .user e⟩
  let s : Shard κ ν :=
    { x.shards (cfg.shardFor key) with
      inFlight := ((x.shards (cfg.shardFor key)).inFlight.insert key x.fresh).erase key }
  have hs : ∀ key', key' ≠ key → s.values.lookup key' = (x.shards (cfg.shardFor key)).values.lookup key' :=
    fun key' _ => rfl
  have hf : ∀ key', s.inFlight.lookup key' = none := lookup_erase_insert (h.notInFlight _) x.fresh
  let x₁ : CacheShared cfg ν ε := { x.registered key with fresh := x.fresh + 2 }
  let x₂ : CacheShared cfg ν ε :=
    { x₁ with promise := Function.update x.promise x.fresh (some (.exception error)) }
  have hsatisfy : x₁.satisfy call x.fresh (.exception error) (.createRemove call key x.fresh error) =
      (x₂, some (.createRemove call key x.fresh error), [.satisfied call x.fresh (.exception error)]) := by
    have hp : x₁.promise x.fresh = none := h.unsatisfied _ (Nat.le_refl _)
    simp only [satisfy, hp]
    rfl
  have hremove : x₂.createRemove call key x.fresh error =
      (x.created key s (.exception error), some (.createReturn call x.fresh (.exception error)), []) := by
    simp [createRemove, Shard.removeInFlight, x₂, x₁, registered, CacheShared.setShard, CacheShared.created, s]
  refine ⟨_, x.created key s (.exception error), completes_of_factory h hl (.next rfl
    (.next (congrArg some hsatisfy) (.silent (congrArg some hremove) (.last rfl)))), h.created hs hf, ?_, ?_⟩
  · rw [TtlMap.call_of_throws ((h.placed.live_eq key).trans hl)]
    refine toTtlMap_eq ((h.placed.setShard hs).2.trans ?_) rfl rfl
    exact Function.update_eq_self_iff.2 (h.placed.stored_eq key).symm
  · rw [TtlMap.call_of_throws ((h.placed.live_eq key).trans hl)]
    rfl

private theorem getOrCreate_refines (h : x.Idle) (options : CacheEntryOpts) :
    x.CallRefines call (.getOrCreate key options) userCode := by
  cases hl : (x.shards (cfg.shardFor key)).live? cfg.clock key x.now with
  | some e =>
    obtain ⟨he, hexp⟩ := Shard.live?_eq_some.1 hl
    have hx : x.createLookup call key options = x.done call [] (.pointer (some e.value)) := by
      simp [createLookup, Shard.internalFastGet, he, hexp]
    refine ⟨_, x, .last (congrArg some hx), h, ?_, ?_⟩ <;>
      rw [TtlMap.call_of_live ((h.placed.live_eq key).trans hl)]
    rfl
  | none =>
    cases userCode with
    | ok v => exact getOrCreate_returns h options v hl
    | error e => exact getOrCreate_throws h options e hl

/-! ### The loops over all shards -/

/-- The sum of a number for each shard, from the shard `shard` on. -/
private def sumFrom (f : Fin cfg.shardCount → Nat) (shard : Nat) : Nat :=
  (((List.finRange cfg.shardCount).drop shard).map f).sum

omit [DecidableEq κ] in
private theorem sumFrom_of_lt (f : Fin cfg.shardCount → Nat) {shard : Nat} (h : shard < cfg.shardCount) :
    sumFrom f shard = f ⟨shard, h⟩ + sumFrom f (shard + 1) := by
  unfold sumFrom
  rw [List.drop_eq_getElem_cons (by simpa using h)]
  simp

omit [DecidableEq κ] in
private theorem sumFrom_of_le (f : Fin cfg.shardCount → Nat) {shard : Nat} (h : cfg.shardCount ≤ shard) :
    sumFrom f shard = 0 := by
  unfold sumFrom
  rw [List.drop_eq_nil_of_le (by simpa using h)]
  rfl

omit [DecidableEq κ] in
private theorem sumFrom_congr {f g : Fin cfg.shardCount → Nat} {shard : Nat}
    (h : ∀ i : Fin cfg.shardCount, shard ≤ i → f i = g i) : sumFrom f shard = sumFrom g shard := by
  induction hk : cfg.shardCount - shard generalizing shard with
  | zero => rw [sumFrom_of_le f (by omega), sumFrom_of_le g (by omega)]
  | succ k ih =>
    have hlt : shard < cfg.shardCount := by omega
    rw [sumFrom_of_lt f hlt, sumFrom_of_lt g hlt, h ⟨shard, hlt⟩ (Nat.le_refl _)]
    rw [ih (fun i hi => h i (by omega)) (by omega)]

variable {z : CacheChoice ν ε} {now : Int}

private theorem size_completes (shard result : Nat) :
    (concurrentCache cfg ν ε).Completes z (.size call now shard result) x
      [.returned call (.count (result + sumFrom (fun i => (x.shards i).size cfg.clock now) shard))] x := by
  induction hk : cfg.shardCount - shard generalizing shard result with
  | zero =>
    have hx : x.size call now shard result = x.done call [] (.count result) := by
      simp [CacheShared.size, show ¬ shard < cfg.shardCount by omega]
    rw [sumFrom_of_le _ (by omega)]
    exact .last (congrArg some hx)
  | succ k ih =>
    have hlt : shard < cfg.shardCount := by omega
    have hx : x.size call now shard result =
        (x, some (.size call now (shard + 1) (result + (x.shards ⟨shard, hlt⟩).size cfg.clock now)), []) := by
      simp [CacheShared.size, hlt]
    rw [sumFrom_of_lt _ hlt, ← Nat.add_assoc]
    exact .silent (congrArg some hx) (ih _ _ (by omega))

omit [DecidableEq κ] in
private theorem hasLive_iff (s : Shard κ ν) (clock : ClockType) : s.hasLive clock now = true ↔ s.size clock now ≠ 0 := by
  rw [Shard.hasLive, Shard.size, List.any_eq_true, ← Nat.pos_iff_ne_zero, List.countP_pos_iff]

private theorem empty_completes (shard : Nat) :
    (concurrentCache cfg ν ε).Completes z (.empty call now shard) x
      [.returned call (.bool (decide (sumFrom (fun i => (x.shards i).size cfg.clock now) shard = 0)))] x := by
  induction hk : cfg.shardCount - shard generalizing shard with
  | zero =>
    have hx : x.empty call now shard = x.done call [] (.bool true) := by
      simp [CacheShared.empty, show ¬ shard < cfg.shardCount by omega]
    rw [sumFrom_of_le _ (by omega)]
    exact .last (congrArg some hx)
  | succ k ih =>
    have hlt : shard < cfg.shardCount := by omega
    rw [sumFrom_of_lt _ hlt]
    by_cases hsize : (x.shards ⟨shard, hlt⟩).size cfg.clock now = 0
    · have hx : x.empty call now shard = (x, some (.empty call now (shard + 1)), []) := by
        simp [CacheShared.empty, hlt, hasLive_iff, hsize]
      rw [hsize, Nat.zero_add]
      exact .silent (congrArg some hx) (ih _ (by omega))
    · have hx : x.empty call now shard = x.done call [] (.bool false) := by
        simp [CacheShared.empty, hlt, hasLive_iff, hsize]
      rw [decide_eq_false (by omega)]
      exact .last (congrArg some hx)

/-- The cache with the shards from `shard` on purged. -/
private def purgedFrom (x : CacheShared cfg ν ε) (now : Int) (shard : Nat) : CacheShared cfg ν ε :=
  { x with
    shards := fun i => if shard ≤ i then ((x.shards i).purgeExpired cfg.clock now).1 else x.shards i }

private theorem purgedFrom_of_lt {shard : Nat} (h : shard < cfg.shardCount) :
    (x.setShard ⟨shard, h⟩ ((x.shards ⟨shard, h⟩).purgeExpired cfg.clock now).1).purgedFrom now (shard + 1) =
      x.purgedFrom now shard := by
  unfold purgedFrom CacheShared.setShard
  congr 1
  funext i
  by_cases hi : i = ⟨shard, h⟩
  · subst hi
    simp
  · have hne : (i : Nat) ≠ shard := fun he => hi (Fin.ext he)
    by_cases hle : shard ≤ i
    · have hle' : shard + 1 ≤ i := by omega
      simp [Function.update_of_ne hi, hle, hle']
    · have hle' : ¬ shard + 1 ≤ i := by omega
      simp [Function.update_of_ne hi, hle, hle']

private theorem purgedFrom_of_le {shard : Nat} (h : cfg.shardCount ≤ shard) : x.purgedFrom now shard = x := by
  unfold purgedFrom
  have hle : ∀ i : Fin cfg.shardCount, ¬ shard ≤ i := fun i => by omega
  simp [hle]

omit [DecidableEq κ] in
private theorem result?_extracted (keys : List κ) (evs : List (CacheEvent κ ν ε)) :
    CacheEvent.result? (keys.map (.extracted call) ++ evs) = CacheEvent.result? evs := by
  induction keys with
  | nil => rfl
  | cons key keys ih => exact ih

/-- How many entries of a shard are expired. -/
private def expiredCount (x : CacheShared cfg ν ε) (now : Int) (i : Fin cfg.shardCount) : Nat :=
  (x.shards i).values.entries.countP (fun e => e.2.expired cfg.clock now)

private theorem purge_completes (call : Nat) (userCode : Except ε ν) (now : Int) (x : CacheShared cfg ν ε)
    (shard result : Nat) :
    ∃ evs, (concurrentCache cfg ν ε).Completes (.ofUserCode userCode) (.purge call now shard result) x evs
      (x.purgedFrom now shard) ∧
      CacheEvent.result? evs = some (.count (result + sumFrom (x.expiredCount now) shard)) := by
  induction hk : cfg.shardCount - shard generalizing shard result x with
  | zero =>
    have hx : x.purge call now shard result (.ofUserCode userCode) = x.done call [] (.count result) := by
      simp [CacheShared.purge, show ¬ shard < cfg.shardCount by omega]
    rw [sumFrom_of_le _ (by omega), purgedFrom_of_le (by omega)]
    exact ⟨_, .last (congrArg some hx), rfl⟩
  | succ k ih =>
    have hlt : shard < cfg.shardCount := by omega
    let r := (x.shards ⟨shard, hlt⟩).purgeExpired cfg.clock now
    have hx : x.purge call now shard result (.ofUserCode userCode) =
        (x.setShard ⟨shard, hlt⟩ r.1, some (.purge call now (shard + 1) (result + r.2.length)),
          r.2.map (.extracted call)) := by
      cases userCode <;> simp [CacheShared.purge, hlt, CacheChoice.ofUserCode, r]
    obtain ⟨evs, hc, hres⟩ := ih (x.setShard ⟨shard, hlt⟩ r.1) (shard + 1) (result + r.2.length) (by omega)
    rw [purgedFrom_of_lt hlt] at hc
    refine ⟨_, .next (congrArg some hx) hc, ?_⟩
    have hsum : sumFrom ((x.setShard ⟨shard, hlt⟩ r.1).expiredCount now) (shard + 1) =
        sumFrom (x.expiredCount now) (shard + 1) := by
      refine sumFrom_congr (fun i hi => ?_)
      have hne : i ≠ ⟨shard, hlt⟩ := by
        rintro rfl
        exact absurd hi (Nat.not_succ_le_self shard)
      simp [expiredCount, CacheShared.setShard, Function.update_of_ne hne]
    rw [result?_extracted, hres, hsum, sumFrom_of_lt _ hlt, ← Nat.add_assoc]
    rw [show r.2.length = x.expiredCount now ⟨shard, hlt⟩ from Shard.length_purgeExpired]

/-! ### How many entries there are -/

/-- The entries of all shards. -/
private def entries (x : CacheShared cfg ν ε) : List (Sigma fun _ : κ => Entry ν) :=
  (List.finRange cfg.shardCount).flatMap (fun i => (x.shards i).values.entries)

private theorem Placed.mem_entries (h : x.Placed) {e : Entry ν} : ⟨key, e⟩ ∈ x.entries ↔ x.stored key = some e := by
  rw [h.stored_eq, entries, List.mem_flatMap]
  constructor
  · rintro ⟨i, -, hi⟩
    have he : (x.shards i).values.lookup key = some e := AList.mem_lookup_iff.2 hi
    rw [← h.eq_shardFor he, he]
  · intro he
    exact ⟨cfg.shardFor key, List.mem_finRange _, AList.mem_lookup_iff.1 he⟩

omit [DecidableEq κ] in
/-- No key is stored twice: not in a shard, and not in two shards. -/
private theorem Placed.nodup_keys (h : x.Placed) : (x.entries.map Sigma.fst).Nodup := by
  rw [entries, List.map_flatMap, List.nodup_flatMap]
  refine ⟨fun i _ => (x.shards i).values.nodupKeys, ?_⟩
  refine (List.nodup_finRange cfg.shardCount).imp ?_
  intro i j hij key hi hj
  have hi' := h i key (AList.mem_keys.1 hi)
  have hj' := h j key (AList.mem_keys.1 hj)
  exact hij (Fin.ext (hi'.trans hj'.symm))

private theorem Placed.ncard_eq (h : x.Placed) (p : Entry ν → Bool) :
    {key | ∃ e, x.stored key = some e ∧ p e = true}.ncard =
      sumFrom (fun i => (x.shards i).values.entries.countP (fun e => p e.2)) 0 := by
  -- the keys that count are listed once each by the entries of all shards
  have hset : {key | ∃ e, x.stored key = some e ∧ p e = true} =
      (((x.entries.filter (fun e => p e.2)).map Sigma.fst).toFinset : Set κ) := by
    ext key
    simp [h.mem_entries]
  have hnodup : ((x.entries.filter (fun e => p e.2)).map Sigma.fst).Nodup :=
    h.nodup_keys.sublist (List.filter_sublist.map _)
  rw [hset, Set.ncard_coe_finset, List.toFinset_card_of_nodup hnodup, List.length_map, ← List.countP_eq_length_filter,
    entries, List.countP_flatMap]
  rfl

theorem Placed.finite_stored (h : x.Placed) : {key | (x.stored key).isSome}.Finite := by
  refine (List.finite_toSet (x.entries.map Sigma.fst)).subset ?_
  intro key hkey
  obtain ⟨e, he⟩ := Option.isSome_iff_exists.1 hkey
  exact List.mem_map.2 ⟨⟨key, e⟩, h.mem_entries.2 he, rfl⟩

private theorem Placed.card_eq (h : x.Placed) :
    x.toTtlMap.card cfg.clock = sumFrom (fun i => (x.shards i).size cfg.clock x.now) 0 := by
  have hset : {key | (x.toTtlMap.live cfg.clock key).isSome} =
      {key | ∃ e, x.stored key = some e ∧ (!e.expired cfg.clock x.now) = true} := by
    ext key
    simp [TtlMap.live, toTtlMap, Option.any_eq_true]
  rw [TtlMap.card, hset, h.ncard_eq]
  rfl

private theorem Placed.expiredCard_eq (h : x.Placed) :
    x.toTtlMap.expiredCard cfg.clock = sumFrom (x.expiredCount x.now) 0 := by
  have hset : {key | (x.toTtlMap.stored key).isSome ∧ x.toTtlMap.live cfg.clock key = none} =
      {key | ∃ e, x.stored key = some e ∧ e.expired cfg.clock x.now = true} := by
    ext key
    simp only [TtlMap.live, toTtlMap, Set.mem_ofPred_eq]
    cases x.stored key <;> simp [Option.filter]
  rw [TtlMap.expiredCard, hset, h.ncard_eq]
  rfl

private theorem size_refines (h : x.Idle) : x.CallRefines call .size userCode := by
  refine ⟨_, x, size_completes 0 0, h, rfl, ?_⟩
  simp [CacheEvent.result?, TtlMap.call, h.placed.card_eq]

private theorem empty_refines (h : x.Idle) : x.CallRefines call .empty userCode := by
  refine ⟨_, x, empty_completes 0, h, rfl, ?_⟩
  simp [CacheEvent.result?, TtlMap.call, h.placed.card_eq]

private theorem purgeExpired_refines (h : x.Idle) : x.CallRefines call .purgeExpired userCode := by
  obtain ⟨evs, hc, hres⟩ := purge_completes call userCode x.now x 0 0
  have hlookup : ∀ i key, ((x.purgedFrom x.now 0).shards i).values.lookup key =
      (x.shards i).live? cfg.clock key x.now := by
    intro i key
    simp [purgedFrom, Shard.lookup_purgeExpired_eq]
  have hplaced : (x.purgedFrom x.now 0).Placed := by
    intro i key hmem
    obtain ⟨e, he⟩ := Option.isSome_iff_exists.1 (AList.lookup_isSome.2 hmem)
    rw [hlookup, Shard.live?_eq_some] at he
    exact h.placed i key (AList.lookup_isSome.1 (by rw [he.1]; rfl))
  refine ⟨evs, _, hc, ⟨hplaced, ?_, h.unsatisfied⟩, toTtlMap_eq ?_ rfl rfl, ?_⟩
  · intro i key
    simpa [purgedFrom, Shard.purgeExpired] using h.notInFlight i key
  · funext key
    rw [hplaced.stored_eq, hlookup, h.placed.live_eq]
  · rw [hres, Nat.zero_add, ← h.placed.expiredCard_eq]
    rfl

/-! ### Every call does what the map does -/

private theorem call_refines (h : x.Idle) (call : Nat) (op : CacheOp κ ν) (userCode : Except ε ν) :
    x.CallRefines call op userCode := by
  cases op with
  | get key => exact get_refines h
  | contains key => exact contains_refines h
  | insertOrAssign key options value => exact insertOrAssign_refines h options value
  | erase key => exact erase_refines h
  | getOrCreate key options => exact getOrCreate_refines h options
  | purgeExpired => exact purgeExpired_refines h
  | size => exact size_refines h
  | empty => exact empty_refines h

private theorem idle_new (now : Int) : (CacheShared.new cfg now : CacheShared cfg ν ε).Idle := by
  refine ⟨?_, fun _ _ => rfl, fun _ _ => rfl⟩
  intro i key hmem
  exact absurd hmem (AList.notMem_empty key)

private theorem stored_new (now : Int) : (CacheShared.new cfg now : CacheShared cfg ν ε).stored = fun _ => none := by
  funext key
  exact (idle_new now).placed.stored_eq key

end CacheShared

/-- `Sequential cfg start calls evss x`: a new cache, made when the clock is at `start`, has served the calls of a single
thread one after the other; they have shown `evss` and left `x`. -/
def Sequential (cfg : CacheConfig κ) (start : Int) (calls : List (CacheCall κ ν ε))
    (evss : List (List (CacheEvent κ ν ε))) (x : CacheShared cfg ν ε) : Prop :=
  (concurrentCache cfg ν ε).Serial CacheCall.invocation (.new cfg start) calls evss x

/-- The cache refines the map. -/
theorem cache_refines (cfg : CacheConfig κ) :
    (concurrentCache cfg ν ε).Refines CacheCall.invocation CacheShared.Idle CacheShared.toTtlMap CacheEvent.result?
      (TtlMap.step cfg.clock) := by
  intro n x c h
  let x₁ : CacheShared cfg ν ε := { x with now := x.now + c.elapsed }
  have h₁ : x₁.Idle := ⟨h.placed, h.notInFlight, h.unsatisfied⟩
  obtain ⟨evs, y, hc, hy, hmap, hres⟩ := CacheShared.call_refines h₁ n c.op c.userCode
  refine ⟨evs, y, hc, hy, ?_⟩
  show (_, _) = (_, _)
  rw [hmap, hres]
  rfl

variable {start : Int} {calls : List (CacheCall κ ν ε)} {evss : List (List (CacheEvent κ ν ε))}
  {x : CacheShared cfg ν ε}

/-- What a sequence of calls shows and leaves is what the map, which is empty at first, shows and leaves. -/
theorem Sequential.eq_abstractRun (h : Sequential cfg start calls evss x) :
    x.Idle ∧ Sections.abstractRun (TtlMap.step cfg.clock) ⟨fun _ => none, 0, start⟩ calls =
      (x.toTtlMap, evss.map CacheEvent.result?) := by
  have hrun := (cache_refines cfg).serial (CacheShared.idle_new start) h
  rw [CacheShared.toTtlMap, CacheShared.stored_new] at hrun
  exact hrun

/-- A call that follows a sequence of calls. -/
theorem Sequential.meets (h : Sequential cfg start calls evss x) {c : CacheCall κ ν ε}
    {evs : List (CacheEvent κ ν ε)} {y : CacheShared cfg ν ε}
    (hc : Sequential cfg start (calls ++ [c]) (evss ++ [evs]) y) :
    ∃ result, CacheEvent.result? evs = some result ∧
      TtlMap.Meets cfg.clock (x.toTtlMap.advance c.elapsed) y.toTtlMap c.op c.userCode result := by
  obtain ⟨evss', x', evs', he, h', hlast⟩ := Sections.Serial.last hc
  obtain ⟨rfl, hevs⟩ := List.append_inj' he rfl
  cases hevs
  obtain ⟨-, rfl⟩ := Sections.Serial.unique h h'
  obtain ⟨-, hstep⟩ := (cache_refines cfg).completes h.eq_abstractRun.1 hlast
  obtain ⟨hmap, hres⟩ := Prod.mk.inj hstep
  refine ⟨_, hres.symm, ?_⟩
  rw [← hmap]
  exact TtlMap.meets_call c.op c.userCode

/-- **The sharded cache is one map with expiration times.**  Every sequence of calls of a single thread can be run to
its end.  After it every stored key lies in the shard that its hash selects and in no other; whatever call comes next
answers and changes what is stored as `TtlMap.Meets` says; and the results and what is stored are the same for every
other hash and number of shards. -/
theorem sharded_cache_is_ttl_map (cfg : CacheConfig κ) (start : Int) (calls : List (CacheCall κ ν ε)) :
    (∃ evss x, Sequential cfg start calls evss x ∧
      ((concurrentCache cfg ν ε).machine Unit).Exec Machine.Any (Sections.State.init (.new cfg start)) evss.flatten
        ⟨x, fun _ => none, calls.length⟩) ∧
    ∀ evss x, Sequential cfg start calls evss x →
      (∀ key e, x.stored key = some e → ∀ i, key ∈ (x.shards i).values ↔ (i : Nat) = cfg.hash key % cfg.shardCount) ∧
      {key | (x.stored key).isSome}.Finite ∧
      (∀ c evs y, Sequential cfg start (calls ++ [c]) (evss ++ [evs]) y →
        ∃ result, CacheEvent.result? evs = some result ∧
          TtlMap.Meets cfg.clock (x.toTtlMap.advance c.elapsed) y.toTtlMap c.op c.userCode result) ∧
      ∀ cfg' : CacheConfig κ, cfg'.clock = cfg.clock → ∀ evss' x', Sequential cfg' start calls evss' x' →
        evss'.map CacheEvent.result? = evss.map CacheEvent.result? ∧ x'.toTtlMap = x.toTtlMap := by
  refine ⟨?_, ?_⟩
  · obtain ⟨evss, x, h, -⟩ := (cache_refines cfg).total (CacheShared.idle_new start) calls
    exact ⟨evss, x, h, (Sections.Serial.exec h ()).mono (fun _ _ _ => trivial)⟩
  · intro evss x h
    obtain ⟨hidle, hrun⟩ := h.eq_abstractRun
    refine ⟨fun key e he => hidle.placed.mem_iff he, hidle.placed.finite_stored, fun c evs y hc => h.meets hc, ?_⟩
    intro cfg' hclock evss' x' h'
    have hrun' := h'.eq_abstractRun.2
    rw [hclock, hrun] at hrun'
    obtain ⟨hmap, hres⟩ := Prod.mk.inj hrun'
    exact ⟨hres.symm, hmap.symm⟩

end Xtd
