import Mathlib

/-!
# A shard of the concurrent cache

`concurrent_cache.h`: entries with an expiration time, the two maps of a shard, and what each operation does to a shard
while it holds the shard's mutex.  An `unordered_map` is an `AList`, keys being equal up to `key_equal_t`.  A pointer is
its address together with the value it points to.
-/

namespace Xtd

/-- What the cache uses of `clock_t`: the nanoseconds of a tick and `time_point::min()`. -/
structure ClockType where
  period : Nat
  min : Int

/-- `std::chrono::steady_clock`, which counts nanoseconds in 64 bits. -/
def ClockType.steady : ClockType := ⟨1, -2 ^ 63⟩

/-- `cache_entry_opts::max_supported_ttl` in nanoseconds. -/
def maxSupportedTtl : Int := 24 * 365 * 292 * 3600 * 1000000000

/-- `cache_entry_opts`, with what its constructor asserts. -/
structure CacheEntryOpts where
  ttl : Int
  nonneg : 0 ≤ ttl
  le_max : ttl ≤ maxSupportedTtl

/-- The default options: no expiration. -/
def CacheEntryOpts.default : CacheEntryOpts := ⟨0, by decide, by decide⟩

/-- A TTL of one tick of the clock. -/
def CacheEntryOpts.tick : CacheEntryOpts := ⟨1, by decide, by decide⟩

/-- A `std::shared_ptr<const value_t>`. -/
structure CacheValue (ν : Type) where
  address : Nat
  value : ν
  deriving DecidableEq

structure Entry (ν : Type) where
  value : CacheValue ν
  expiresAt : Int
  deriving DecidableEq

def Entry.expired {ν : Type} (clock : ClockType) (e : Entry ν) (now : Int) : Bool :=
  decide (e.expiresAt ≠ clock.min) && decide (now ≥ e.expiresAt)

/-- `expiration_time` with the clock at `now`. -/
def expirationTime (clock : ClockType) (now : Int) (options : CacheEntryOpts) : Int :=
  if options.ttl = 0 then clock.min else now + options.ttl.tdiv clock.period

/-- The maps of `shard_t`; a `factory_state` in flight is given by its address. -/
structure Shard (κ ν : Type) where
  values : AList (fun _ : κ => Entry ν)
  inFlight : AList (fun _ : κ => Nat)

inductive LookupResult (ν : Type)
  | missing
  | expired
  | found (value : CacheValue ν)

/-- What `get_or_create` finds when it has upgraded to exclusive access. -/
inductive Registration (ν : Type)
  | hit (value : CacheValue ν)
  | join (state : Nat)
  | owner

namespace Shard

variable {κ ν : Type} [DecidableEq κ] (clock : ClockType) (s : Shard κ ν) (key : κ) (now : Int)

def empty : Shard κ ν := ⟨∅, ∅⟩

/-- The stored entry, unless it is expired. -/
def live? : Option (Entry ν) := (s.values.lookup key).filter (fun e => !e.expired clock now)

def internalFastGet : LookupResult ν :=
  match s.values.lookup key with
  | none => .missing
  | some e => if e.expired clock now then .expired else .found e.value

/-- The second section of `get`, with exclusive access: the entry is extracted if it is there and *not* expired. -/
def getUpgrade : Shard κ ν × Bool :=
  match s.values.lookup key with
  | none => (s, false)
  | some e => if !e.expired clock now then ({ s with values := s.values.erase key }, true) else (s, false)

def contains : Bool := (s.live? clock key now).isSome

/-- `try_emplace` and, if the key was there, `std::exchange`. -/
def insertOrAssign (e : Entry ν) : Shard κ ν := { s with values := s.values.insert key e }

def erase : Shard κ ν × Bool :=
  match s.values.lookup key with
  | none => (s, false)
  | some _ => ({ s with values := s.values.erase key }, true)

/-- The second section of `get_or_create`, where `state` is the address of a new `factory_state`. -/
def register (state : Nat) : Shard κ ν × Registration ν :=
  match s.live? clock key now with
  | some e => (s, .hit e.value)
  | none =>
    match s.inFlight.lookup key with
    | some existing => (s, .join existing)
    | none => ({ s with inFlight := s.inFlight.insert key state }, .owner)

/-- The third section of `get_or_create`: the new entry is stored unless there is one that is not expired. -/
def publish (e : Entry ν) : Shard κ ν × CacheValue ν :=
  match s.live? clock key now with
  | some e' => ({ s with inFlight := s.inFlight.erase key }, e'.value)
  | none => ({ s.insertOrAssign key e with inFlight := s.inFlight.erase key }, e.value)

def removeInFlight (expectedState : Nat) : Shard κ ν :=
  match s.inFlight.lookup key with
  | none => s
  | some state => if state = expectedState then { s with inFlight := s.inFlight.erase key } else s

/-- The loop of `purge_expired` over the entries of a shard, with the keys of the extracted ones. -/
def purgeLoop : List (Sigma fun _ : κ => Entry ν) → AList (fun _ : κ => Entry ν) → List κ →
    AList (fun _ : κ => Entry ν) × List κ
  | [], values, removed => (values, removed)
  | e :: es, values, removed =>
    if !e.2.expired clock now then purgeLoop es values removed
    else purgeLoop es (values.erase e.1) (removed ++ [e.1])

def purgeExpired : Shard κ ν × List κ :=
  let r := purgeLoop clock now s.values.entries s.values []
  ({ s with values := r.1 }, r.2)

/-- How many entries `size` counts in a shard. -/
def size : Nat := s.values.entries.countP (fun e => !e.2.expired clock now)

/-- Whether `empty` finds an entry in a shard. -/
def hasLive : Bool := s.values.entries.any (fun e => !e.2.expired clock now)

end Shard

end Xtd
