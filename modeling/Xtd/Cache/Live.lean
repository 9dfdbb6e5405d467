import Xtd.Cache.Sections

/-!
# Live entries

An entry that is not expired is removed or replaced only by `erase` and `insert_or_assign` of its key, except that the
second section of `get` extracts the entry of its key when it is *not* expired.
-/

namespace Xtd

open Concurrency

variable {κ ν ε τ : Type} [DecidableEq κ] [DecidableEq τ] {cfg : CacheConfig κ}

/-- The exclusive sections of `erase(key)` and `insert_or_assign(key, ...)`. -/
def CacheLocal.Overwrites (key : κ) : CacheLocal κ ν ε → Prop
  | erase _ key' | insertPublish _ key' _ => key' = key
  | _ => False

/-- The step removes or replaces an entry that is not expired only if it is the exclusive section of `erase` or
`insert_or_assign` of its key. -/
def KeepsLive (s : CacheState τ cfg ν ε) (a : CacheAction τ κ ν ε) : Prop :=
  ∀ s' evs, ((concurrentCache cfg ν ε).machine τ).step s a = some (s', evs) → ∀ i key e,
    (s.shared.shards i).values.lookup key = some e → e.expired cfg.clock s.shared.now = false →
    (s'.shared.shards i).values.lookup key = some e ∨
      ∃ t z l, a = .run t z ∧ s.pc t = some l ∧ l.Overwrites key

/-- The step is not the second section of a `get` that finds an entry that is not expired. -/
def FindsNoLive (s : CacheState τ cfg ν ε) (a : CacheAction τ κ ν ε) : Prop :=
  ∀ t z call key, a = .run t z → s.pc t = some (.getUpgrade call key) →
    (s.shared.shards (cfg.shardFor key)).live? cfg.clock key s.shared.now = none

/-! ### One section -/

private theorem lookup_setShard {x : CacheShared cfg ν ε} {i j : Fin cfg.shardCount} {s : Shard κ ν} {key : κ}
    (h : i = j → s.values.lookup key = (x.shards j).values.lookup key) :
    ((x.setShard j s).shards i).values.lookup key = (x.shards i).values.lookup key := by
  by_cases hij : i = j
  · subst hij
    simpa [CacheShared.setShard] using h rfl
  · simp [CacheShared.setShard, hij]

private theorem lookup_insertOrAssign_ne {s : Shard κ ν} {key key' : κ} {entry : Entry ν} (h : key ≠ key') :
    (s.insertOrAssign key' entry).values.lookup key = s.values.lookup key :=
  AList.lookup_insert_ne h

/-- A section keeps an entry that is not expired, or it is one that may overwrite it, or `get` extracts it. -/
private theorem lookup_of_moves {x : CacheShared cfg ν ε} {l : CacheLocal κ ν ε} {r : CacheTurn cfg ν ε}
    (hm : CacheMoves x l r) (hpurge : ∀ call now shard result, l = .purge call now shard result → now ≤ x.now)
    {i : Fin cfg.shardCount} {key : κ} {e : Entry ν} (he : (x.shards i).values.lookup key = some e)
    (hlive : e.expired cfg.clock x.now = false) :
    (r.1.shards i).values.lookup key = some e ∨ l.Overwrites key ∨
      ∃ call, l = .getUpgrade call key ∧ (x.shards (cfg.shardFor key)).live? cfg.clock key x.now ≠ none := by
  cases hm with
  | extract call key' e' hl =>
    by_cases hk : key = key'
    · subst hk
      exact .inr (.inr ⟨call, rfl, by simp [hl]⟩)
    · exact .inl ((lookup_setShard (fun _ => AList.lookup_erase_ne hk)).trans he)
  | store call key' entry =>
    by_cases hk : key' = key
    · exact .inr (.inl hk)
    · exact .inl ((lookup_setShard (fun _ => lookup_insertOrAssign_ne (Ne.symm hk))).trans he)
  | erase call key' e' _ =>
    by_cases hk : key' = key
    · exact .inr (.inl hk)
    · exact .inl ((lookup_setShard (fun _ => AList.lookup_erase_ne (Ne.symm hk))).trans he)
  | register call key' options hl hf =>
    refine .inl (Eq.trans ?_ he)
    refine lookup_setShard (j := cfg.shardFor key') ?_
    exact fun _ => rfl
  | publishKeep call key' state entry e' hl =>
    refine .inl ((lookup_setShard ?_).trans he)
    exact fun _ => rfl
  | publishStore call key' state entry hl =>
    refine .inl ((lookup_setShard ?_).trans he)
    rintro rfl
    refine lookup_insertOrAssign_ne ?_
    rintro rfl
    have := Shard.live?_eq_none.1 hl e he
    rw [hlive] at this
    cases this
  | remove call key' state error =>
    refine .inl ((lookup_setShard ?_).trans he)
    intro _
    unfold Shard.removeInFlight
    split
    · rfl
    · split <;> rfl
  | purge call now shard result h =>
    refine .inl ((lookup_setShard ?_).trans he)
    rintro rfl
    rw [he, Shard.lookup_purgeExpired_eq, Shard.live?_eq_some]
    refine ⟨he, ?_⟩
    cases hexp : e.expired cfg.clock now with
    | false => rfl
    | true =>
      have := Entry.expired_mono hexp (hpurge call now shard result rfl)
      rw [hlive] at this
      cases this
  | _ => exact .inl he

/-- The second section of `get` removes what it finds if it is not expired. -/
private theorem lookup_getUpgrade {x : CacheShared cfg ν ε} (call : Nat) {key : κ} {e : Entry ν}
    (h : (x.shards (cfg.shardFor key)).live? cfg.clock key x.now = some e) :
    ((x.getUpgrade call key).1.shards (cfg.shardFor key)).values.lookup key = none := by
  simp only [CacheShared.getUpgrade, Shard.getUpgrade_of_live h, CacheShared.done, CacheShared.setShard,
    Function.update_self]
  exact AList.lookup_erase _ _

/-! ### Whole runs -/

variable {tr : List (CacheEvent κ ν ε)} {s : CacheState τ cfg ν ε} {a : CacheAction τ κ ν ε} {now : Int}
  {ok : CacheState τ cfg ν ε → CacheAction τ κ ν ε → Prop}

/-- The clock reading of a `purge_expired` under way is not in the future. -/
private theorem purge_le_now
    (h : ((concurrentCache cfg ν ε).machine τ).Exec ok (Sections.State.init (.new cfg now)) tr s) :
    ∀ t call now shard result, s.pc t = some (.purge call now shard result) → now ≤ s.shared.now := by
  refine h.state_invariant (I := fun s => ∀ t call now shard result,
    s.pc t = some (.purge call now shard result) → now ≤ s.shared.now) nofun ?_
  intro s a s' evs ih _ hs t call now shard result ht
  cases Sections.moves_of_step hs with
  | call t' op hp =>
    by_cases htt : t = t'
    · subst htt
      simp only [Function.update_self, Option.some.injEq] at ht
      cases op with
      | purgeExpired => cases ht; exact Int.le_refl _
      | _ => cases ht
    · simp only [Function.update_of_ne htt] at ht
      exact ih t call now shard result ht
  | run t' z l x l' evs hp he =>
    have hm := cache_moves he
    have hnow : x.now = s.shared.now := by cases hm <;> rfl
    simp only [hnow]
    by_cases htt : t = t'
    · subst htt
      simp only [Function.update_self] at ht
      subst ht
      cases hm with
      | purge => exact ih t _ _ _ _ hp
    · simp only [Function.update_of_ne htt] at ht
      exact ih t call now shard result ht
  | env d =>
    have := ih t call now shard result ht
    show now ≤ s.shared.now + d
    omega

private theorem keepsLive_iff
    (h : ((concurrentCache cfg ν ε).machine τ).Exec ok (Sections.State.init (.new cfg now)) tr s) :
    KeepsLive s a ↔ FindsNoLive s a := by
  constructor
  · rintro hk t z call key rfl hp
    cases hlive : (s.shared.shards (cfg.shardFor key)).live? cfg.clock key s.shared.now with
    | none => rfl
    | some e =>
      have hstep := Sections.step_of_moves (Sections.Moves.run (M := concurrentCache cfg ν ε) t z _ _ _ _ hp rfl)
      obtain ⟨he, hexp⟩ := Shard.live?_eq_some.1 hlive
      rcases hk _ _ hstep _ key e he hexp with hkept | ⟨t', z', l, ha, hp', hl⟩
      · cases (lookup_getUpgrade call hlive).symm.trans hkept
      · cases ha
        rw [hp] at hp'
        cases hp'
        cases hl
  · intro hf s' evs hs i key e he hexp
    cases Sections.moves_of_step hs with
    | call t op hp => exact .inl he
    | env d => exact .inl he
    | run t z l x l' evs hp hx =>
      rcases lookup_of_moves (cache_moves hx) (fun call now shard result hl => purge_le_now h t call now shard result
        (by rw [hp, hl])) he hexp with h1 | h1 | ⟨call, rfl, h1⟩
      · exact .inl h1
      · exact .inr ⟨t, z, l, rfl, hp, h1⟩
      · exact absurd (hf t z call key rfl hp) h1

/-- The runs in which no step removes or replaces an entry that is not expired, unless it is the exclusive section of
`erase` or `insert_or_assign` of its key, are exactly the runs in which the second section of `get` never finds an entry
that is not expired. -/
theorem live_entries_kept_iff (cfg : CacheConfig κ) (now : Int) (tr : List (CacheEvent κ ν ε))
    (s : CacheState τ cfg ν ε) :
    ((concurrentCache cfg ν ε).machine τ).Exec KeepsLive (Sections.State.init (.new cfg now)) tr s ↔
      ((concurrentCache cfg ν ε).machine τ).Exec FindsNoLive (Sections.State.init (.new cfg now)) tr s := by
  constructor
  · intro h
    induction h with
    | nil => exact .nil
    | snoc h ha hs ih => exact .snoc ih ((keepsLive_iff h).1 ha) hs
  · intro h
    induction h with
    | nil => exact .nil
    | snoc h ha hs ih => exact .snoc ih ((keepsLive_iff h).2 ha) hs

/-- Thread `0` stores an entry that expires; thread `1` looks it up, and before its second section thread `0` stores one
that does not expire. -/
def refreshedBetweenSections : List (CacheAction (Fin 2) Nat Nat Nat) :=
  [.call 0 (.insertOrAssign 3 .tick 10), .run 0 .proceed, .run 0 .proceed, .env 5,
    .call 1 (.get 3), .run 1 .proceed,
    .call 0 (.insertOrAssign 3 .default 20), .run 0 .proceed, .run 0 .proceed]

/-- The second section of `get` removes the entry that was stored in the meantime. -/
theorem live_entry_lost_refreshedBetweenSections :
    ∃ tr, ∃ s : CacheState (Fin 2) CacheConfig.single Nat Nat,
      ((concurrentCache CacheConfig.single Nat Nat).machine (Fin 2)).Exec Machine.Any
        (Sections.State.init (.new .single 0)) tr s ∧
      s.pc 1 = some (.getUpgrade 1 3) ∧ ¬ KeepsLive s (.run 1 .proceed) := by
  obtain ⟨tr, s, h, hc⟩ := Machine.exists_exec_of_run ((concurrentCache CacheConfig.single Nat Nat).machine (Fin 2))
    Machine.Any (Sections.State.init (.new .single 0)) (fun _ _ => true) refreshedBetweenSections
    (fun _ s => match s.pc 1 with
      | some (.getUpgrade call key) => decide (call = 1 ∧ key = 3) &&
          ((s.shared.shards (CacheConfig.single.shardFor 3)).live? CacheConfig.single.clock 3 s.shared.now).isSome
      | _ => false)
    (fun _ _ _ => trivial) (by decide)
  split at hc
  · rename_i call key hp
    simp only [Bool.and_eq_true, decide_eq_true_eq] at hc
    obtain ⟨⟨rfl, rfl⟩, hlive⟩ := hc
    refine ⟨tr, s, h, hp, ?_⟩
    intro hk
    have hnone := (keepsLive_iff h).1 hk 1 .proceed 1 3 rfl hp
    rw [hnone] at hlive
    cases hlive
  · cases hc

end Xtd
