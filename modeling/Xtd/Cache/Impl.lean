import Xtd.Concurrency.Interleaving
import Xtd.Cache.Shard

/-!
# The concurrent cache

`concurrent_cache.h` as a program of sections.  A section is what an operation does under the mutex of a shard, or what it
does on its own between two of them: running the factory, asking the clock, satisfying or waiting for a promise.  The
outcome of a factory, of a constructor and of an allocation is a choice of the environment, and so is how far the clock
goes on between two sections.
-/

namespace Xtd

open Concurrency

/-- The constants of a cache.  The hash is a function of the key, hence consistent with key equality. -/
structure CacheConfig (κ : Type) where
  clock : ClockType
  hash : κ → Nat
  shardCount : Nat
  shardCount_pos : 0 < shardCount

def CacheConfig.shardFor {κ : Type} (cfg : CacheConfig κ) (key : κ) : Fin cfg.shardCount :=
  ⟨cfg.hash key % cfg.shardCount, Nat.mod_lt _ cfg.shardCount_pos⟩

/-- A cache of one shard with the keys hashed to themselves. -/
def CacheConfig.single : CacheConfig Nat := ⟨.steady, id, 1, by decide⟩

/-- What is thrown: an exception of the user's code, a failed allocation, or a promise satisfied for a second time. -/
inductive Thrown (ε : Type)
  | user (e : ε)
  | badAlloc
  | futureError
  deriving DecidableEq

/-- A `std::exception_ptr`. -/
structure ExceptionPtr (ε : Type) where
  address : Nat
  what : Thrown ε
  deriving DecidableEq

/-- What a promise is satisfied with: by `set_value` or by `set_exception`. -/
inductive Outcome (ν ε : Type)
  | value (v : CacheValue ν)
  | exception (e : ExceptionPtr ε)
  deriving DecidableEq

/-- How a call ends.  The null pointer that `get` returns is `pointer none`. -/
inductive CacheResult (ν ε : Type)
  | pointer (v : Option (CacheValue ν))
  | threw (e : ExceptionPtr ε)
  | bool (b : Bool)
  | count (n : Nat)
  deriving DecidableEq

def Outcome.result {ν ε : Type} : Outcome ν ε → CacheResult ν ε
  | value v => .pointer (some v)
  | exception e => .threw e

/-- The shards, the promises of the factory states by address, the next address that is free and the clock. -/
structure CacheShared {κ : Type} (cfg : CacheConfig κ) (ν ε : Type) where
  shards : Fin cfg.shardCount → Shard κ ν
  promise : Nat → Option (Outcome ν ε)
  fresh : Nat
  now : Int

inductive CacheOp (κ ν : Type)
  | get (key : κ)
  | contains (key : κ)
  | insertOrAssign (key : κ) (options : CacheEntryOpts) (value : ν)
  | erase (key : κ)
  | getOrCreate (key : κ) (options : CacheEntryOpts)
  | purgeExpired
  | size
  | empty

/-- Where a call is, with its number and its local variables. -/
inductive CacheLocal (κ ν ε : Type)
  | getLookup (call : Nat) (key : κ)
  | getUpgrade (call : Nat) (key : κ)
  | contains (call : Nat) (key : κ)
  | insertPrepare (call : Nat) (key : κ) (options : CacheEntryOpts) (value : ν)
  | insertPublish (call : Nat) (key : κ) (entry : Entry ν)
  | erase (call : Nat) (key : κ)
  | createLookup (call : Nat) (key : κ) (options : CacheEntryOpts)
  | createRegister (call : Nat) (key : κ) (options : CacheEntryOpts)
  | createJoined (call : Nat) (state : Nat)
  | createFactory (call : Nat) (key : κ) (options : CacheEntryOpts) (state : Nat)
  | createPublish (call : Nat) (key : κ) (state : Nat) (entry : Entry ν)
  | createSetValue (call : Nat) (state : Nat) (published : CacheValue ν)
  | createSetException (call : Nat) (key : κ) (state : Nat) (error : ExceptionPtr ε)
  | createRemove (call : Nat) (key : κ) (state : Nat) (error : ExceptionPtr ε)
  | createReturn (call : Nat) (state : Nat) (outcome : Outcome ν ε)
  | purge (call : Nat) (now : Int) (shard result : Nat)
  | size (call : Nat) (now : Int) (shard result : Nat)
  | empty (call : Nat) (now : Int) (shard : Nat)

/-- What the environment decides: nothing, what the factory returns, what the user's code throws, or that an allocation
fails. -/
inductive CacheChoice (ν ε : Type)
  | proceed
  | returns (v : ν)
  | throws (e : ε)
  | badAlloc

/-- What the calls of the cache show: what they store and extract, how they register, join and satisfy factory states,
and how they end. -/
inductive CacheEvent (κ ν ε : Type)
  | stored (call : Nat) (key : κ) (entry : Entry ν)
  | extracted (call : Nat) (key : κ)
  | registered (call : Nat) (key : κ) (state : Nat)
  | joined (call : Nat) (state : Nat)
  | factoryThrew (call : Nat) (e : ε)
  | satisfied (call : Nat) (state : Nat) (outcome : Outcome ν ε)
  | alreadySatisfied (call : Nat) (state : Nat)
  | returned (call : Nat) (result : CacheResult ν ε)
  deriving DecidableEq

/-- What a section leaves: the shared state, where the call goes on unless it has ended, and the events shown. -/
abbrev CacheTurn {κ : Type} (cfg : CacheConfig κ) (ν ε : Type) :=
  CacheShared cfg ν ε × Option (CacheLocal κ ν ε) × List (CacheEvent κ ν ε)

namespace CacheShared

variable {κ ν ε : Type} [DecidableEq κ] {cfg : CacheConfig κ} (x : CacheShared cfg ν ε)

def new (cfg : CacheConfig κ) (now : Int) : CacheShared cfg ν ε := ⟨fun _ => Shard.empty, fun _ => none, 0, now⟩

def setShard (i : Fin cfg.shardCount) (s : Shard κ ν) : CacheShared cfg ν ε :=
  { x with shards := Function.update x.shards i s }

/-- The call ends. -/
def done (call : Nat) (evs : List (CacheEvent κ ν ε)) (result : CacheResult ν ε) : CacheTurn cfg ν ε :=
  (x, none, evs ++ [.returned call result])

/-- The call ends by an exception. -/
def throw (call : Nat) (what : Thrown ε) : CacheTurn cfg ν ε :=
  ({ x with fresh := x.fresh + 1 } : CacheShared cfg ν ε).done call [] (.threw ⟨x.fresh, what⟩)

/-! ### `get`, `contains`, `insert_or_assign` and `erase` -/

def getLookup (call : Nat) (key : κ) : CacheTurn cfg ν ε :=
  match (x.shards (cfg.shardFor key)).internalFastGet cfg.clock key x.now with
  | .found v => x.done call [] (.pointer (some v))
  | .expired => (x, some (.getUpgrade call key), [])
  | .missing => x.done call [] (.pointer none)

def getUpgrade (call : Nat) (key : κ) : CacheTurn cfg ν ε :=
  let r := (x.shards (cfg.shardFor key)).getUpgrade cfg.clock key x.now
  (x.setShard (cfg.shardFor key) r.1).done call (if r.2 then [.extracted call key] else []) (.pointer none)

def contains (call : Nat) (key : κ) : CacheTurn cfg ν ε :=
  x.done call [] (.bool ((x.shards (cfg.shardFor key)).contains cfg.clock key x.now))

/-- `insert_or_assign` before it locks: the value is constructed and the clock is asked. -/
def insertPrepare (call : Nat) (key : κ) (options : CacheEntryOpts) (value : ν) :
    CacheChoice ν ε → CacheTurn cfg ν ε
  | .throws e => x.throw call (.user e)
  | .badAlloc => x.throw call .badAlloc
  | _ =>
    ({ x with fresh := x.fresh + 1 },
      some (.insertPublish call key ⟨⟨x.fresh, value⟩, expirationTime cfg.clock x.now options⟩), [])

/-- `insert_or_assign` under the lock; only a new key allocates. -/
def insertPublish (call : Nat) (key : κ) (entry : Entry ν) (z : CacheChoice ν ε) : CacheTurn cfg ν ε :=
  let shard := x.shards (cfg.shardFor key)
  match z, shard.values.lookup key with
  | .badAlloc, none => x.throw call .badAlloc
  | _, _ =>
    (x.setShard (cfg.shardFor key) (shard.insertOrAssign key entry)).done call [.stored call key entry]
      (.pointer (some entry.value))

def erase (call : Nat) (key : κ) : CacheTurn cfg ν ε :=
  let r := (x.shards (cfg.shardFor key)).erase key
  (x.setShard (cfg.shardFor key) r.1).done call (if r.2 then [.extracted call key] else []) (.bool r.2)

/-! ### `get_or_create` -/

def createLookup (call : Nat) (key : κ) (options : CacheEntryOpts) : CacheTurn cfg ν ε :=
  match (x.shards (cfg.shardFor key)).internalFastGet cfg.clock key x.now with
  | .found v => x.done call [] (.pointer (some v))
  | _ => (x, some (.createRegister call key options), [])

/-- The recheck with exclusive access: a hit, a state to join, or a new state, whose allocation may fail. -/
def createRegister (call : Nat) (key : κ) (options : CacheEntryOpts) (z : CacheChoice ν ε) : CacheTurn cfg ν ε :=
  let r := (x.shards (cfg.shardFor key)).register cfg.clock key x.now x.fresh
  match r.2, z with
  | .hit v, _ => x.done call [] (.pointer (some v))
  | .join state, _ => (x, some (.createJoined call state), [.joined call state])
  | .owner, .badAlloc => x.throw call .badAlloc
  | .owner, _ =>
    ({ x.setShard (cfg.shardFor key) r.1 with fresh := x.fresh + 1 },
      some (.createFactory call key options x.fresh), [.registered call key x.fresh])

/-- `existing_state->future.get()`: it returns when the promise is satisfied. -/
def createJoined (call : Nat) (state : Nat) : Option (CacheTurn cfg ν ε) :=
  (x.promise state).map (fun outcome => x.done call [] outcome.result)

/-- The factory ends; the value moves into a new allocation and the clock is asked. -/
def createFactory (call : Nat) (key : κ) (options : CacheEntryOpts) (state : Nat) :
    CacheChoice ν ε → Option (CacheTurn cfg ν ε)
  | .proceed => none
  | .returns v =>
    some ({ x with fresh := x.fresh + 1 },
      some (.createPublish call key state ⟨⟨x.fresh, v⟩, expirationTime cfg.clock x.now options⟩), [])
  | .throws e =>
    some ({ x with fresh := x.fresh + 1 }, some (.createSetException call key state ⟨x.fresh, .user e⟩),
      [.factoryThrew call e])
  | .badAlloc =>
    some ({ x with fresh := x.fresh + 1 }, some (.createSetException call key state ⟨x.fresh, .badAlloc⟩), [])

/-- The publication with exclusive access; only a new key allocates. -/
def createPublish (call : Nat) (key : κ) (state : Nat) (entry : Entry ν) (z : CacheChoice ν ε) : CacheTurn cfg ν ε :=
  let shard := x.shards (cfg.shardFor key)
  match z, shard.values.lookup key with
  | .badAlloc, none =>
    ({ x with fresh := x.fresh + 1 }, some (.createSetException call key state ⟨x.fresh, .badAlloc⟩), [])
  | _, _ =>
    let r := shard.publish cfg.clock key x.now entry
    (x.setShard (cfg.shardFor key) r.1, some (.createSetValue call state r.2),
      if (shard.live? cfg.clock key x.now).isSome then [] else [.stored call key entry])

/-- `set_value` or `set_exception` of a promise, which throws if the promise is satisfied already. -/
def satisfy (call : Nat) (state : Nat) (outcome : Outcome ν ε) (l : CacheLocal κ ν ε) : CacheTurn cfg ν ε :=
  match x.promise state with
  | none =>
    ({ x with promise := Function.update x.promise state (some outcome) }, some l, [.satisfied call state outcome])
  | some _ =>
    ({ x with fresh := x.fresh + 1 } : CacheShared cfg ν ε).done call [.alreadySatisfied call state]
      (.threw ⟨x.fresh, .futureError⟩)

/-- `remove_in_flight` of the failure path. -/
def createRemove (call : Nat) (key : κ) (state : Nat) (error : ExceptionPtr ε) : CacheTurn cfg ν ε :=
  (x.setShard (cfg.shardFor key) ((x.shards (cfg.shardFor key)).removeInFlight key state),
    some (.createReturn call state (.exception error)), [])

/-! ### The loops over all shards -/

/-- `purge_expired` at a shard, with the clock as it was at the start of the call; its buffer may fail to allocate. -/
def purge (call : Nat) (now : Int) (shard result : Nat) (z : CacheChoice ν ε) : CacheTurn cfg ν ε :=
  if h : shard < cfg.shardCount then
    match z with
    | .badAlloc => x.throw call .badAlloc
    | _ =>
      let r := (x.shards ⟨shard, h⟩).purgeExpired cfg.clock now
      (x.setShard ⟨shard, h⟩ r.1, some (.purge call now (shard + 1) (result + r.2.length)),
        r.2.map (.extracted call))
  else x.done call [] (.count result)

def size (call : Nat) (now : Int) (shard result : Nat) : CacheTurn cfg ν ε :=
  if h : shard < cfg.shardCount then
    (x, some (.size call now (shard + 1) (result + (x.shards ⟨shard, h⟩).size cfg.clock now)), [])
  else x.done call [] (.count result)

def empty (call : Nat) (now : Int) (shard : Nat) : CacheTurn cfg ν ε :=
  if h : shard < cfg.shardCount then
    if (x.shards ⟨shard, h⟩).hasLive cfg.clock now then x.done call [] (.bool false)
    else (x, some (.empty call now (shard + 1)), [])
  else x.done call [] (.bool true)

end CacheShared

/-! ### The program -/

def CacheOp.enter {κ ν ε : Type} : CacheOp κ ν → Nat → Int → CacheLocal κ ν ε
  | get key, call, _ => .getLookup call key
  | contains key, call, _ => .contains call key
  | insertOrAssign key options value, call, _ => .insertPrepare call key options value
  | erase key, call, _ => .erase call key
  | getOrCreate key options, call, _ => .createLookup call key options
  | purgeExpired, call, now => .purge call now 0 0
  | size, call, now => .size call now 0 0
  | empty, call, now => .empty call now 0

/-- The cache; the environment lets the clock go on by any amount. -/
def concurrentCache {κ : Type} [DecidableEq κ] (cfg : CacheConfig κ) (ν ε : Type) :
    Sections (CacheShared cfg ν ε) (CacheOp κ ν) (CacheLocal κ ν ε) (CacheChoice ν ε) Nat (CacheEvent κ ν ε) where
  enter op call x := op.enter call x.now
  exec
    | .getLookup call key, x, _ => some (x.getLookup call key)
    | .getUpgrade call key, x, _ => some (x.getUpgrade call key)
    | .contains call key, x, _ => some (x.contains call key)
    | .insertPrepare call key options value, x, z => some (x.insertPrepare call key options value z)
    | .insertPublish call key entry, x, z => some (x.insertPublish call key entry z)
    | .erase call key, x, _ => some (x.erase call key)
    | .createLookup call key options, x, _ => some (x.createLookup call key options)
    | .createRegister call key options, x, z => some (x.createRegister call key options z)
    | .createJoined call state, x, _ => x.createJoined call state
    | .createFactory call key options state, x, z => x.createFactory call key options state z
    | .createPublish call key state entry, x, z => some (x.createPublish call key state entry z)
    | .createSetValue call state published, x, _ =>
      some (x.satisfy call state (.value published) (.createReturn call state (.value published)))
    | .createSetException call key state error, x, _ =>
      some (x.satisfy call state (.exception error) (.createRemove call key state error))
    | .createRemove call key state error, x, _ => some (x.createRemove call key state error)
    | .createReturn call _ outcome, x, _ => some (x.done call [] outcome.result)
    | .purge call now shard result, x, z => some (x.purge call now shard result z)
    | .size call now shard result, x, _ => some (x.size call now shard result)
    | .empty call now shard, x, _ => some (x.empty call now shard)
  env d x := { x with now := x.now + d }

abbrev CacheState (τ : Type) {κ : Type} (cfg : CacheConfig κ) (ν ε : Type) :=
  Sections.State τ (CacheShared cfg ν ε) (CacheLocal κ ν ε)

abbrev CacheAction (τ κ ν ε : Type) := Sections.Action τ (CacheOp κ ν) (CacheChoice ν ε) Nat

end Xtd
