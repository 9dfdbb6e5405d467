import Xtd.Cache.Refinement

/-!
# Expired entries

What becomes of an entry that is expired, and when an entry expires.  `get` is meant to reclaim the expired entry it
meets, but its second section extracts the entry only if it is *not* expired; at a constant clock the two sections agree
and nothing is ever reclaimed.  The expiration time of `std::chrono::steady_clock` is a sum of 64-bit numbers, and the
bound on the TTL does not take the time of the insertion into account.
-/

namespace Xtd

open Concurrency

/-! ### What `get` reclaims -/

section

variable {κ ν ε : Type} [DecidableEq κ] {cfg : CacheConfig κ}

namespace Shard

variable {clock : ClockType} {s : Shard κ ν} {key : κ} {now : Int}

/-- The values of a shard without the entry for the key if that one is expired. -/
def reclaimed (clock : ClockType) (s : Shard κ ν) (key : κ) (now : Int) : AList (fun _ : κ => Entry ν) :=
  match s.values.lookup key with
  | none => s.values
  | some e => if e.expired clock now then s.values.erase key else s.values

theorem reclaimed_of_not_expired (h : ∀ e, s.values.lookup key = some e → e.expired clock now = false) :
    s.reclaimed clock key now = s.values := by
  unfold reclaimed
  split
  · rfl
  · rename_i e he
    simp [h e he]

/-- An expired entry makes a difference. -/
theorem reclaimed_of_expired {e : Entry ν} (he : s.values.lookup key = some e) (hexp : e.expired clock now = true) :
    s.reclaimed clock key now ≠ s.values := by
  intro h
  have hnone : (s.reclaimed clock key now).lookup key = none := by
    simp [reclaimed, he, hexp]
  rw [h, he] at hnone
  cases hnone

/-- `purge_expired` takes out keys that are stored. -/
private theorem mem_of_mem_purgeLoop {es : List (Sigma fun _ : κ => Entry ν)} {values : AList (fun _ : κ => Entry ν)}
    {removed : List κ} (h : key ∈ (purgeLoop clock now es values removed).2) :
    key ∈ removed ∨ ∃ e ∈ es, e.1 = key := by
  induction es generalizing values removed with
  | nil => exact .inl h
  | cons e es ih =>
    unfold purgeLoop at h
    split at h
    · rcases ih h with h | ⟨e', he', hk⟩
      · exact .inl h
      · exact .inr ⟨e', by simp [he'], hk⟩
    · rcases ih h with h | ⟨e', he', hk⟩
      · rcases List.mem_append.1 h with h | h
        · exact .inl h
        · exact .inr ⟨e, by simp, (List.mem_singleton.1 h).symm⟩
      · exact .inr ⟨e', by simp [he'], hk⟩

theorem not_mem_purgeExpired (h : s.values.lookup key = none) : key ∉ (s.purgeExpired clock now).2 := by
  intro hm
  rcases mem_of_mem_purgeLoop hm with hm | ⟨e, he, rfl⟩
  · cases hm
  · rw [AList.lookup_eq_none] at h
    exact h (AList.mem_keys.2 (List.mem_map_of_mem he))

end Shard

/-- What a call of `get` is meant to leave: the shards without the entry for the key if that one is expired; and if it
returns null, then no entry for the key, so that `erase` finds none and `purge_expired` has none to take out of the
shard. -/
structure Reclaims (x y : CacheShared cfg ν ε) (key : κ) (result : CacheResult ν ε) : Prop where
  values : ∀ i, (y.shards i).values =
    if i = cfg.shardFor key then (x.shards i).reclaimed cfg.clock key x.now else (x.shards i).values
  missing : result = .pointer none → (y.shards (cfg.shardFor key)).values.lookup key = none
  erase : result = .pointer none → ∀ call z,
    (concurrentCache cfg ν ε).Completes z (.erase call key) y [.returned call (.bool false)] y
  purge : result = .pointer none → key ∉ ((y.shards (cfg.shardFor key)).purgeExpired cfg.clock y.now).2

/-- An expired entry stays where it is. -/
private theorem not_reclaims_of_expired {x y : CacheShared cfg ν ε} {call : Nat} {key : κ} {z : CacheChoice ν ε}
    {evs : List (CacheEvent κ ν ε)} {result : CacheResult ν ε} {e : Entry ν}
    (he : (x.shards (cfg.shardFor key)).values.lookup key = some e) (hexp : e.expired cfg.clock x.now = true)
    (hc : (concurrentCache cfg ν ε).Completes z ((CacheOp.get key).enter call x.now) x evs y) :
    ¬ Reclaims x y key result := by
  intro hr
  obtain ⟨-, rfl⟩ := (CacheShared.completes_get x call key z).unique hc
  refine Shard.reclaimed_of_expired he hexp ?_
  have hv := hr.values (cfg.shardFor key)
  rw [if_pos rfl] at hv
  exact hv.symm

/-- In every state of a cache, a `get` during which the clock stands still reclaims what it is meant to exactly if there
is nothing to reclaim: no entry for the key is stored, or it is not expired. -/
theorem get_reclaims_iff (x : CacheShared cfg ν ε) (call : Nat) (key : κ) (z : CacheChoice ν ε) :
    (∃ evs y result, (concurrentCache cfg ν ε).Completes z ((CacheOp.get key).enter call x.now) x evs y ∧
      CacheEvent.result? evs = some result ∧ Reclaims x y key result) ↔
    ∀ e, (x.shards (cfg.shardFor key)).values.lookup key = some e → e.expired cfg.clock x.now = false := by
  have hget := CacheShared.completes_get x call key z
  constructor
  · rintro ⟨evs, y, result, hc, -, hr⟩ e he
    by_contra hexp
    rw [Bool.not_eq_false] at hexp
    exact not_reclaims_of_expired he hexp hc hr
  · intro h
    refine ⟨_, x, _, hget, rfl, ?_⟩
    have hnone : CacheResult.pointer (((x.shards (cfg.shardFor key)).live? cfg.clock key x.now).map Entry.value) =
        (.pointer none : CacheResult ν ε) → (x.shards (cfg.shardFor key)).values.lookup key = none := by
      intro hres
      simp only [CacheResult.pointer.injEq, Option.map_eq_none_iff] at hres
      rw [Option.eq_none_iff_forall_not_mem]
      intro e he
      have h1 := Shard.live?_eq_none.1 hres e he
      rw [h e he] at h1
      cases h1
    refine ⟨?_, hnone, ?_, fun hres => Shard.not_mem_purgeExpired (hnone hres)⟩
    · intro i
      split
      · rename_i hi
        subst hi
        exact (Shard.reclaimed_of_not_expired h).symm
      · rfl
    · intro hres call' z'
      have hx : x.erase call' key = x.done call' [] (.bool false) := by
        simp [CacheShared.erase, Shard.erase, hnone hres, CacheShared.setShard_self]
      exact .last (congrArg some hx)

end

/-- A thread stores an entry with a TTL of one tick, and the clock goes on by five. -/
def insertAndExpire : List (CacheAction (Fin 1) Nat Nat Nat) :=
  [.call 0 (.insertOrAssign 3 .tick 10), .run 0 .proceed, .run 0 .proceed, .env 5]

/-- The expired entry is still stored after `get`, and `erase` finds it. -/
theorem get_keeps_expired_insertAndExpire :
    ∃ tr, ∃ s : CacheState (Fin 1) CacheConfig.single Nat Nat,
      ((concurrentCache CacheConfig.single Nat Nat).machine (Fin 1)).Exec Machine.Any
        (Sections.State.init (.new .single 0)) tr s ∧
      (¬ ∃ evs y result, (concurrentCache CacheConfig.single Nat Nat).Completes .proceed
        ((CacheOp.get 3).enter 1 s.shared.now) s.shared evs y ∧
        CacheEvent.result? evs = some result ∧ Reclaims s.shared y 3 result) ∧
      (concurrentCache CacheConfig.single Nat Nat).Completes .proceed ((CacheOp.get 3).enter 1 s.shared.now) s.shared
        [.returned 1 (.pointer none)] s.shared ∧
      (s.shared.erase 2 3).2.2 = [.extracted 2 3, .returned 2 (.bool true)] := by
  obtain ⟨tr, s, h, hc⟩ := Machine.exists_exec_of_run ((concurrentCache CacheConfig.single Nat Nat).machine (Fin 1))
    Machine.Any (Sections.State.init (.new .single 0)) (fun _ _ => true) insertAndExpire
    (fun _ s => ((s.shared.shards (CacheConfig.single.shardFor 3)).values.lookup 3).any
      (fun e => e.expired CacheConfig.single.clock s.shared.now)) (fun _ _ _ => trivial) (by decide)
  rw [Option.any_eq_true] at hc
  obtain ⟨e, he, hexp⟩ := hc
  refine ⟨tr, s, h, ?_, ?_, ?_⟩
  · rintro ⟨evs, y, result, hc, -, hr⟩
    exact not_reclaims_of_expired he hexp hc hr
  · have hget := CacheShared.completes_get s.shared 1 3 .proceed
    have hlive : (s.shared.shards (CacheConfig.single.shardFor 3)).live? CacheConfig.single.clock 3 s.shared.now =
        none := by
      refine Shard.live?_eq_none.2 ?_
      intro e' he'
      rw [he] at he'
      cases he'
      exact hexp
    rw [hlive] at hget
    exact hget
  · simp [CacheShared.erase, Shard.erase, he, CacheShared.done]

/-! ### When an entry expires -/

/-- The sum of two signed 64-bit numbers; the behaviour is undefined if it is not representable. -/
def addInt64 (a b : Int) : Option Int := if -2 ^ 63 ≤ a + b ∧ a + b < 2 ^ 63 then some (a + b) else none

/-- `expiration_time` with `std::chrono::steady_clock` at `now`, in 64 bits. -/
def expirationTime64 (now : Int) (options : CacheEntryOpts) : Option Int :=
  if options.ttl = 0 then some ClockType.steady.min
  else addInt64 now (options.ttl.tdiv ClockType.steady.period)

/-- In 64 bits the expiration time is the exact one, or it is not representable. -/
theorem expirationTime64_eq (now : Int) (options : CacheEntryOpts) :
    expirationTime64 now options =
      if options.ttl = 0 ∨ -2 ^ 63 ≤ now + options.ttl ∧ now + options.ttl < 2 ^ 63 then
        some (expirationTime .steady now options)
      else none := by
  unfold expirationTime64 expirationTime addInt64
  rw [show options.ttl.tdiv ClockType.steady.period = options.ttl from Int.tdiv_one _]
  by_cases h0 : options.ttl = 0
  · rw [if_pos h0, if_pos h0, if_pos (.inl h0)]
  · rw [if_neg h0, if_neg h0]
    by_cases hr : -2 ^ 63 ≤ now + options.ttl ∧ now + options.ttl < 2 ^ 63
    · rw [if_pos hr, if_pos (.inr hr)]
    · rw [if_neg hr, if_neg (not_or.2 ⟨h0, hr⟩)]

/-- The expiration time of an entry that is stored at `now` is defined, and the entry is expired from `now + ttl` on, or
never if the TTL is zero. -/
def TtlExact (ν : Type) (now : Int) (options : CacheEntryOpts) : Prop :=
  ∃ expiresAt, expirationTime64 now options = some expiresAt ∧
    (0 < options.ttl → expiresAt ≠ ClockType.steady.min ∧
      ∀ (value : CacheValue ν) (t : Int), now ≤ t →
        ((⟨value, expiresAt⟩ : Entry ν).expired .steady t = true ↔ now + options.ttl ≤ t)) ∧
    (options.ttl = 0 → ∀ (value : CacheValue ν) (t : Int), (⟨value, expiresAt⟩ : Entry ν).expired .steady t = false)

/-- For every TTL that the options admit and every clock value from zero on, the arithmetic is exact exactly if the TTL
is zero or the sum of the two is representable. -/
theorem ttl_exact_iff (ν : Type) {now : Int} (h0 : 0 ≤ now) (options : CacheEntryOpts) :
    TtlExact ν now options ↔ options.ttl = 0 ∨ now + options.ttl < 2 ^ 63 := by
  have hnn := options.nonneg
  constructor
  · rintro ⟨expiresAt, he, -⟩
    rw [expirationTime64_eq] at he
    by_contra hn
    rw [not_or] at hn
    rw [if_neg (by rintro (h | h); exacts [hn.1 h, hn.2 h.2])] at he
    cases he
  · intro h
    have hdef : options.ttl = 0 ∨ -2 ^ 63 ≤ now + options.ttl ∧ now + options.ttl < 2 ^ 63 := by
      rcases h with h | h
      · exact .inl h
      · exact .inr ⟨by omega, h⟩
    refine ⟨_, by rw [expirationTime64_eq, if_pos hdef], ?_, ?_⟩
    · intro hpos
      have he : expirationTime .steady now options = now + options.ttl := by
        rw [expirationTime, if_neg (by omega)]
        show now + options.ttl.tdiv 1 = _
        rw [Int.tdiv_one]
      have hne : now + options.ttl ≠ ClockType.steady.min := by
        show _ ≠ (-2 ^ 63 : Int)
        omega
      rw [he]
      refine ⟨hne, ?_⟩
      intro value t _
      simp [Entry.expired, hne]
    · intro hz value t
      simp [Entry.expired, expirationTime, hz]

/-- Twenty days after the clock has started, and a TTL of a year. -/
theorem ttl_exact_year : TtlExact Nat (20 * 86400 * 10 ^ 9) ⟨365 * 86400 * 10 ^ 9, by decide, by decide⟩ :=
  (ttl_exact_iff Nat (by decide) _).2 (.inr (by decide))

/-- Two hundred and fifty days after the clock has started, and the largest TTL that is supported. -/
theorem ttl_overflows_maxSupportedTtl :
    0 ≤ (250 * 86400 * 10 ^ 9 : Int) ∧ (250 * 86400 * 10 ^ 9 : Int) < 2 ^ 63 ∧
      ¬ TtlExact Nat (250 * 86400 * 10 ^ 9) ⟨maxSupportedTtl, by decide, by decide⟩ := by
  refine ⟨by decide, by decide, ?_⟩
  rintro ⟨expiresAt, he, -⟩
  have hnone : expirationTime64 (250 * 86400 * 10 ^ 9) ⟨maxSupportedTtl, by decide, by decide⟩ = none := by decide
  rw [hnone] at he
  cases he

end Xtd
