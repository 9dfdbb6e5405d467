import Xtd.Concurrency.Serial
import Xtd.Cache.Impl

/-!
# One map with expiration times

What the cache is for, without shards, locks and factory states: a map from keys to entries, of which only those that
are not expired count.  A call does to it what `TtlMap.call` says; `TtlMap.Meets` spells this out operation by operation.
-/

namespace Xtd

open Concurrency

variable {κ ν ε : Type} [DecidableEq κ]

/-- A call of a single thread: how far the clock has gone on since the last call, the operation, and what the user's
code does if the call runs it: the factory of `get_or_create`, or the constructor of the value of `insert_or_assign`. -/
structure CacheCall (κ ν ε : Type) where
  elapsed : Nat
  op : CacheOp κ ν
  userCode : Except ε ν

/-- The choice under which the sections of a call run when the user's code does this. -/
def CacheChoice.ofUserCode : Except ε ν → CacheChoice ν ε
  | .ok v => .returns v
  | .error e => .throws e

def CacheCall.invocation (c : CacheCall κ ν ε) : Sections.Invocation (CacheOp κ ν) (CacheChoice ν ε) Nat :=
  ⟨c.elapsed, c.op, .ofUserCode c.userCode⟩

/-- The key an operation is about. -/
def CacheOp.key? : CacheOp κ ν → Option κ
  | get key | contains key | insertOrAssign key _ _ | erase key | getOrCreate key _ => some key
  | purgeExpired | size | empty => none

/-- The map, with the next address that is free and the clock. -/
structure TtlMap (κ ν : Type) where
  stored : κ → Option (Entry ν)
  fresh : Nat
  now : Int

namespace TtlMap

variable (clock : ClockType) (m : TtlMap κ ν)

def advance (elapsed : Nat) : TtlMap κ ν := { m with now := m.now + elapsed }

/-- The entries that count. -/
def live (key : κ) : Option (Entry ν) := (m.stored key).filter (fun e => !e.expired clock m.now)

/-- The number of entries that count. -/
noncomputable def card : Nat := {key | (m.live clock key).isSome}.ncard

/-- The number of entries that are stored and do not count. -/
noncomputable def expiredCard : Nat := {key | (m.stored key).isSome ∧ m.live clock key = none}.ncard

/-- The entry for a value that is stored now, at the given address. -/
def newEntry (address : Nat) (options : CacheEntryOpts) (value : ν) : Entry ν :=
  ⟨⟨address, value⟩, expirationTime clock m.now options⟩

/-- `get_or_create` for a key without an entry takes an address for its factory state before it takes one for the value
or the exception. -/
noncomputable def call (op : CacheOp κ ν) (userCode : Except ε ν) : TtlMap κ ν × CacheResult ν ε :=
  match op, userCode with
  | .get key, _ => (m, .pointer ((m.live clock key).map Entry.value))
  | .contains key, _ => (m, .bool (m.live clock key).isSome)
  | .insertOrAssign key options value, .ok _ =>
    ({ m with stored := Function.update m.stored key (some (m.newEntry clock m.fresh options value)),
              fresh := m.fresh + 1 }, .pointer (some ⟨m.fresh, value⟩))
  | .insertOrAssign _ _ _, .error e => ({ m with fresh := m.fresh + 1 }, .threw ⟨m.fresh, .user e⟩)
  | .erase key, _ => ({ m with stored := Function.update m.stored key none }, .bool (m.stored key).isSome)
  | .getOrCreate key options, userCode =>
    match m.live clock key, userCode with
    | some e, _ => (m, .pointer (some e.value))
    | none, .ok v =>
      ({ m with stored := Function.update m.stored key (some (m.newEntry clock (m.fresh + 1) options v)),
                fresh := m.fresh + 2 }, .pointer (some ⟨m.fresh + 1, v⟩))
    | none, .error e => ({ m with fresh := m.fresh + 2 }, .threw ⟨m.fresh + 1, .user e⟩)
  | .purgeExpired, _ => ({ m with stored := m.live clock }, .count (m.expiredCard clock))
  | .size, _ => (m, .count (m.card clock))
  | .empty, _ => (m, .bool (decide (m.card clock = 0)))

/-- The step of a sequence of calls. -/
noncomputable def step (c : CacheCall κ ν ε) : TtlMap κ ν × Option (CacheResult ν ε) :=
  (((m.advance c.elapsed).call clock c.op c.userCode).1, some ((m.advance c.elapsed).call clock c.op c.userCode).2)

/-- How a call answers, with the map `m` before it and the map `m'` after it, and what it does to the entry for its own
key. -/
def Answers (m m' : TtlMap κ ν) (result : CacheResult ν ε) : CacheOp κ ν → Except ε ν → Prop
  | .get key, _ => result = .pointer ((m.live clock key).map Entry.value) ∧ m'.live clock = m.live clock
  | .contains key, _ => result = .bool (m.live clock key).isSome ∧ m'.live clock = m.live clock
  | .insertOrAssign key options value, .ok _ =>
    ∃ address, m'.stored key = some ⟨⟨address, value⟩, expirationTime clock m.now options⟩ ∧
      result = .pointer (some ⟨address, value⟩)
  | .insertOrAssign _ _ _, .error e =>
    (∃ address, result = .threw ⟨address, .user e⟩) ∧ m'.live clock = m.live clock
  | .erase key, _ => m'.stored key = none ∧ m'.live clock key = none
  | .getOrCreate key options, userCode =>
    match m.live clock key, userCode with
    | some e, _ => result = .pointer (some e.value) ∧ m'.live clock = m.live clock
    | none, .ok v =>
      ∃ address, m'.stored key = some ⟨⟨address, v⟩, expirationTime clock m.now options⟩ ∧
        result = .pointer (some ⟨address, v⟩)
    | none, .error e => (∃ address, result = .threw ⟨address, .user e⟩) ∧ m'.live clock = m.live clock
  | .purgeExpired, _ =>
    result = .count (m.expiredCard clock) ∧ m'.live clock = m.live clock ∧ m'.stored = m'.live clock
  | .size, _ => result = .count (m.card clock) ∧ m'.live clock = m.live clock
  | .empty, _ => (∃ b, result = .bool b ∧ (b = true ↔ m.card clock = 0)) ∧ m'.live clock = m.live clock

/-- What a call that is made at the time `m.now` has to do with the map `m` before it and the map `m'` after it. -/
structure Meets (m m' : TtlMap κ ν) (op : CacheOp κ ν) (userCode : Except ε ν) (result : CacheResult ν ε) : Prop where
  now : m'.now = m.now
  other_keys : ∀ key, op.key? ≠ some key → m'.live clock key = m.live clock key
  answers : Answers clock m m' result op userCode

variable {clock : ClockType} {m : TtlMap κ ν}

private theorem live_update (key : κ) (o : Option (Entry ν)) (fresh : Nat) {key' : κ} (h : some key ≠ some key') :
    (⟨Function.update m.stored key o, fresh, m.now⟩ : TtlMap κ ν).live clock key' = m.live clock key' := by
  have hne : key' ≠ key := fun he => h (by rw [he])
  simp only [live, Function.update_of_ne hne]

omit [DecidableEq κ] in
private theorem live_live : (⟨m.live clock, m.fresh, m.now⟩ : TtlMap κ ν).live clock = m.live clock := by
  funext key
  simp [live, Option.filter_filter]

/-! ### `get_or_create`, by what is there and by what the factory does -/

section

variable {key : κ} {options : CacheEntryOpts}

theorem call_of_live {e : Entry ν} (h : m.live clock key = some e) (userCode : Except ε ν) :
    m.call clock (.getOrCreate key options) userCode = (m, .pointer (some e.value)) := by
  simp only [call, h]

theorem call_of_returns (h : m.live clock key = none) (v : ν) :
    m.call clock (.getOrCreate key options) (.ok v : Except ε ν) =
      (⟨Function.update m.stored key (some (m.newEntry clock (m.fresh + 1) options v)), m.fresh + 2, m.now⟩,
        .pointer (some ⟨m.fresh + 1, v⟩)) := by
  simp only [call, h]

theorem call_of_throws (h : m.live clock key = none) (e : ε) :
    m.call clock (.getOrCreate key options) (.error e) =
      (⟨m.stored, m.fresh + 2, m.now⟩, .threw ⟨m.fresh + 1, .user e⟩) := by
  simp only [call, h]

private theorem meets_getOrCreate (userCode : Except ε ν) :
    Meets clock m (m.call clock (.getOrCreate key options) userCode).1 (.getOrCreate key options) userCode
      (m.call clock (.getOrCreate key options) userCode).2 := by
  cases hlive : m.live clock key with
  | some e =>
    rw [call_of_live hlive]
    refine ⟨rfl, fun _ _ => rfl, ?_⟩
    simp only [Answers, hlive, and_self]
  | none =>
    cases userCode with
    | ok v =>
      rw [call_of_returns hlive]
      refine ⟨rfl, fun _ => live_update key _ _, ?_⟩
      simp only [Answers, hlive]
      exact ⟨_, Function.update_self .., rfl⟩
    | error e =>
      rw [call_of_throws hlive]
      refine ⟨rfl, fun _ _ => rfl, ?_⟩
      simp only [Answers, hlive]
      exact ⟨⟨_, rfl⟩, rfl⟩

end

/-- What the map does meets the description of every operation. -/
theorem meets_call (op : CacheOp κ ν) (userCode : Except ε ν) :
    Meets clock m (m.call clock op userCode).1 op userCode (m.call clock op userCode).2 := by
  cases op with
  | get key => exact ⟨rfl, fun _ _ => rfl, rfl, rfl⟩
  | contains key => exact ⟨rfl, fun _ _ => rfl, rfl, rfl⟩
  | insertOrAssign key options value =>
    cases userCode with
    | ok v => exact ⟨rfl, fun _ => live_update key _ _, m.fresh, Function.update_self .., rfl⟩
    | error e => exact ⟨rfl, fun _ _ => rfl, ⟨m.fresh, rfl⟩, rfl⟩
  | erase key =>
    refine ⟨rfl, fun _ => live_update key none m.fresh, Function.update_self .., ?_⟩
    simp [call, live]
  | getOrCreate key options => exact meets_getOrCreate userCode
  | purgeExpired => exact ⟨rfl, fun key _ => congrFun live_live key, rfl, live_live, live_live.symm⟩
  | size => exact ⟨rfl, fun _ _ => rfl, rfl, rfl⟩
  | empty => exact ⟨rfl, fun _ _ => rfl, ⟨_, rfl, decide_eq_true_iff⟩, rfl⟩

end TtlMap

end Xtd
