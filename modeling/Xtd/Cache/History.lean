import Xtd.Cache.Promise
import Xtd.Cache.TtlMap

/-!
# Where the values come from

The cache shows every change of its entries.  Replaying what it has shown gives the entries it holds, in whatever way the
sections of the calls were interleaved; and a pointer that a call returns was stored for the very key of that call, by a
call that was given the value or whose factory has made it.  So no value gets from one key to another, also not through a
factory state that several calls wait for.
-/

namespace Xtd

open Concurrency

variable {κ ν ε τ : Type} [DecidableEq κ] [DecidableEq τ] {cfg : CacheConfig κ}

/-! ### Replaying a trace -/

/-- What an event makes of the entry of a key. -/
def CacheEvent.change (key : κ) (old? : Option (Entry ν)) : CacheEvent κ ν ε → Option (Entry ν)
  | stored _ key' entry => if key' = key then some entry else old?
  | extracted _ key' => if key' = key then none else old?
  | _ => old?

/-- The entry of a key after everything shown. -/
def replay (tr : List (CacheEvent κ ν ε)) (key : κ) : Option (Entry ν) := tr.foldl (CacheEvent.change key) none

/-- The value was stored for the key. -/
def StoredAs (tr : List (CacheEvent κ ν ε)) (key : κ) (v : CacheValue ν) : Prop :=
  ∃ call entry, .stored call key entry ∈ tr ∧ entry.value = v

variable {tr evs : List (CacheEvent κ ν ε)} {key : κ} {v : CacheValue ν}

omit [DecidableEq κ] in
theorem StoredAs.mono (h : StoredAs tr key v) (evs : List (CacheEvent κ ν ε)) : StoredAs (tr ++ evs) key v := by
  obtain ⟨call, entry, he, hv⟩ := h
  exact ⟨call, entry, List.mem_append_left _ he, hv⟩

theorem replay_append (tr evs : List (CacheEvent κ ν ε)) (key : κ) :
    replay (tr ++ evs) key = evs.foldl (CacheEvent.change key) (replay tr key) := List.foldl_append

/-- An entry that is replayed was stored. -/
theorem storedAs_of_replay {e : Entry ν} (h : replay tr key = some e) : StoredAs tr key e.value := by
  suffices ∃ call, .stored call key e ∈ tr by
    obtain ⟨call, he⟩ := this
    exact ⟨call, e, he, rfl⟩
  induction tr using List.reverseRecOn with
  | nil => cases h
  | append_singleton tr event ih =>
    rw [replay_append, List.foldl_cons, List.foldl_nil] at h
    have hold : replay tr key = some e → ∃ call, .stored call key e ∈ tr ++ [event] := by
      intro hr
      obtain ⟨call, he⟩ := ih hr
      exact ⟨call, List.mem_append_left _ he⟩
    cases event with
    | stored call key' entry =>
      simp only [CacheEvent.change] at h
      split at h
      · rename_i hk
        cases h
        subst hk
        exact ⟨call, by simp⟩
      · exact hold h
    | extracted call key' =>
      simp only [CacheEvent.change] at h
      split at h
      · cases h
      · exact hold h
    | _ => exact hold h

theorem change_of_quiet {e : CacheEvent κ ν ε} (h : e.changes? = none) (key : κ) (old? : Option (Entry ν)) :
    e.change key old? = old? := by
  cases e <;> first | rfl | cases h

theorem foldl_change_of_quiet (h : ∀ e ∈ evs, e.changes? = none) (key : κ) (old? : Option (Entry ν)) :
    evs.foldl (CacheEvent.change key) old? = old? := by
  induction evs with
  | nil => rfl
  | cons e evs ih =>
    rw [List.foldl_cons, change_of_quiet (h e (by simp))]
    exact ih fun e he => h e (by simp [he])

theorem foldl_change_extracted (call : Nat) (keys : List κ) (key : κ) (old? : Option (Entry ν)) :
    (keys.map (CacheEvent.extracted (ν := ν) (ε := ε) call)).foldl (CacheEvent.change key) old? =
      if key ∈ keys then none else old? := by
  induction keys generalizing old? with
  | nil => rfl
  | cons key' keys ih =>
    rw [List.map_cons, List.foldl_cons, ih]
    by_cases hk : key' = key
    · simp [CacheEvent.change, hk]
    · simp [CacheEvent.change, hk, Ne.symm hk]

/-! ### The entries after a section -/

namespace Shard

variable {clock : ClockType} {s : Shard κ ν} {now : Int}

private theorem mem_purgeLoop {es : List (Sigma fun _ : κ => Entry ν)} {values : AList (fun _ : κ => Entry ν)}
    {removed : List κ} :
    key ∈ (purgeLoop clock now es values removed).2 ↔
      key ∈ removed ∨ ∃ e ∈ es, e.1 = key ∧ e.2.expired clock now = true := by
  induction es generalizing values removed with
  | nil => simp [purgeLoop]
  | cons e es ih =>
    unfold purgeLoop
    by_cases hexp : e.2.expired clock now = true
    · simp only [hexp, Bool.not_true, Bool.false_eq_true, if_false, ih, List.mem_append, List.mem_singleton,
        List.exists_mem_cons_iff, and_true]
      rw [or_assoc, eq_comm (a := key)]
    · simp only [hexp, Bool.not_false, if_true, ih, List.exists_mem_cons_iff, Bool.false_eq_true, and_false, false_or]

/-- `purge_expired` extracts the keys of the expired entries. -/
theorem mem_purgeExpired :
    key ∈ (s.purgeExpired clock now).2 ↔ ∃ e, s.values.lookup key = some e ∧ e.expired clock now = true := by
  have hmem : key ∈ (s.purgeExpired clock now).2 ↔
      key ∈ ([] : List κ) ∨ ∃ e ∈ s.values.entries, e.1 = key ∧ e.2.expired clock now = true := mem_purgeLoop
  rw [hmem]
  constructor
  · rintro (h | ⟨⟨key', e⟩, he, rfl, hexp⟩)
    · cases h
    · exact ⟨e, AList.mem_lookup_iff.2 he, hexp⟩
  · rintro ⟨e, he, hexp⟩
    exact .inr ⟨⟨key, e⟩, AList.mem_lookup_iff.1 he, rfl, hexp⟩

/-- What `purge_expired` leaves of an entry, in terms of what it has extracted. -/
theorem lookup_purgeExpired_ite :
    (s.purgeExpired clock now).1.values.lookup key =
      if key ∈ (s.purgeExpired clock now).2 then none else s.values.lookup key := by
  rw [lookup_purgeExpired_eq]
  split
  · rename_i hmem
    obtain ⟨e, he, hexp⟩ := mem_purgeExpired.1 hmem
    exact live?_eq_none.2 fun e' he' => by rw [he] at he'; cases he'; exact hexp
  · rename_i hmem
    cases he : s.values.lookup key with
    | none => exact live?_eq_none.2 fun e' he' => by rw [he] at he'; cases he'
    | some e =>
      refine live?_eq_some.2 ⟨he, ?_⟩
      rw [← Bool.not_eq_true]
      exact fun hexp => hmem (mem_purgeExpired.2 ⟨e, he, hexp⟩)

end Shard

section Sections

variable {x : CacheShared cfg ν ε} {l : CacheLocal κ ν ε} {r : CacheTurn cfg ν ε}

/-- A key is looked up in its own shard only. -/
def OwnShards (x : CacheShared cfg ν ε) : Prop :=
  ∀ i key, i ≠ cfg.shardFor key → (x.shards i).values.lookup key = none

/-- The entries after a change of the entry of one key. -/
private theorem lookup_changed (hown : OwnShards x) {key' : κ} {sh : Shard κ ν} {old? : Option (Entry ν)}
    (hsh : ∀ key, sh.values.lookup key =
      if key' = key then old? else (x.shards (cfg.shardFor key')).values.lookup key)
    (i : Fin cfg.shardCount) (key : κ) :
    ((x.setShard (cfg.shardFor key') sh).shards i).values.lookup key =
      if i = cfg.shardFor key then if key' = key then old? else (x.shards i).values.lookup key else none := by
  by_cases hi : i = cfg.shardFor key'
  · subst hi
    simp only [CacheShared.setShard, Function.update_self, hsh]
    by_cases hk : key' = key
    · subst hk
      simp
    · rw [if_neg hk]
      by_cases hs : cfg.shardFor key' = cfg.shardFor key
      · simp [hs]
      · rw [if_neg hs]
        exact hown _ _ hs
  · simp only [CacheShared.setShard, Function.update_of_ne hi]
    by_cases hs : i = cfg.shardFor key
    · have hk : key' ≠ key := by
        rintro rfl
        exact hi hs
      rw [if_pos hs, if_neg hk]
    · rw [if_neg hs]
      exact hown _ _ hs

/-- The events of a section say what it makes of the entries. -/
theorem lookup_section (hm : CacheMoves x l r) (hown : OwnShards x) (i : Fin cfg.shardCount) (key : κ) :
    (r.1.shards i).values.lookup key =
      if i = cfg.shardFor key then r.2.2.foldl (CacheEvent.change key) ((x.shards i).values.lookup key) else none := by
  have herase : ∀ key' key, ((x.shards (cfg.shardFor key')).values.erase key').lookup key =
      if key' = key then none else (x.shards (cfg.shardFor key')).values.lookup key := by
    intro key' key
    split
    · rename_i hk
      rw [hk]
      exact AList.lookup_erase _ _
    · rename_i hk
      exact AList.lookup_erase_ne (Ne.symm hk)
  have hinsert : ∀ key' (entry : Entry ν) key, ((x.shards (cfg.shardFor key')).values.insert key' entry).lookup key =
      if key' = key then some entry else (x.shards (cfg.shardFor key')).values.lookup key := by
    intro key' entry key
    split
    · rename_i hk
      rw [hk]
      exact AList.lookup_insert _
    · rename_i hk
      exact AList.lookup_insert_ne (Ne.symm hk)
  by_cases hno : ∀ e ∈ r.2.2, e.changes? = none
  · rw [hm.changes.2 hno i, foldl_change_of_quiet hno]
    split
    · rfl
    · rename_i hs
      exact hown i key hs
  cases hm with
  | extract call key' e hlive => exact lookup_changed hown (herase key') i key
  | erase call key' e he => exact lookup_changed hown (herase key') i key
  | store call key' entry => exact lookup_changed hown (hinsert key' entry) i key
  | publishStore call key' state entry hlive => exact lookup_changed hown (hinsert key' entry) i key
  | purge call now shard result hs =>
    rw [foldl_change_extracted]
    by_cases hi : i = ⟨shard, hs⟩
    · subst hi
      simp only [CacheShared.setShard, Function.update_self, Shard.lookup_purgeExpired_ite]
      by_cases hkey : (⟨shard, hs⟩ : Fin cfg.shardCount) = cfg.shardFor key
      · rw [if_pos hkey]
      · rw [if_neg hkey, hown _ _ hkey]
        split <;> rfl
    · simp only [CacheShared.setShard, Function.update_of_ne hi]
      by_cases hkey : i = cfg.shardFor key
      · have hmem : key ∉ ((x.shards ⟨shard, hs⟩).purgeExpired cfg.clock now).2 := by
          intro hmem
          obtain ⟨e, he, -⟩ := Shard.mem_purgeExpired.1 hmem
          have hnone := hown ⟨shard, hs⟩ key (by rw [← hkey]; exact Ne.symm hi)
          rw [he] at hnone
          cases hnone
        rw [if_pos hkey, if_neg hmem]
      · rw [if_neg hkey]
        exact hown i key hkey
  | _ => exact absurd (by simp [CacheEvent.changes?]) hno

end Sections

/-! ### What a section returns -/

namespace CacheLocal

/-- The key that a call looks up in its section. -/
def looksUp? : CacheLocal κ ν ε → Option κ
  | getLookup _ key | createLookup _ key _ | createRegister _ key _ => some key
  | _ => none

end CacheLocal

/-- Where a pointer comes from that a section returns. -/
inductive Returns (x : CacheShared cfg ν ε) (v : CacheValue ν) : CacheLocal κ ν ε → Prop
  | hit (l : CacheLocal κ ν ε) (key : κ) (e : Entry ν) (hl : l.looksUp? = some key)
      (hlive : (x.shards (cfg.shardFor key)).live? cfg.clock key x.now = some e) (hv : e.value = v) : Returns x v l
  | inserted (call : Nat) (key : κ) (entry : Entry ν) (hv : entry.value = v) : Returns x v (.insertPublish call key entry)
  | joined (call state : Nat) (hp : x.promise state = some (.value v)) : Returns x v (.createJoined call state)
  | created (call state : Nat) : Returns x v (.createReturn call state (.value v))

section Pointers

variable {x : CacheShared cfg ν ε} {l : CacheLocal κ ν ε} {r : CacheTurn cfg ν ε} {z : CacheChoice ν ε} {call : Nat}

private theorem live?_of_found {s : Shard κ ν} {clock : ClockType} {now : Int}
    (h : s.internalFastGet clock key now = .found v) : ∃ e, s.live? clock key now = some e ∧ e.value = v := by
  unfold Shard.internalFastGet at h
  split at h
  · cases h
  · rename_i e he
    split at h
    · cases h
    · rename_i hexp
      cases h
      exact ⟨e, Shard.live?_eq_some.2 ⟨he, by simpa using hexp⟩, rfl⟩

private theorem live?_of_hit {s : Shard κ ν} {clock : ClockType} {now : Int} {state : Nat}
    (h : (s.register clock key now state).2 = .hit v) : ∃ e, s.live? clock key now = some e ∧ e.value = v := by
  unfold Shard.register at h
  split at h
  · rename_i e he
    cases h
    exact ⟨e, he, rfl⟩
  · split at h <;> cases h

omit [DecidableEq κ] in
private theorem outcome_eq {outcome : Outcome ν ε} (h : .pointer (some v) = outcome.result) : outcome = .value v := by
  cases outcome with
  | value v' =>
    cases h
    rfl
  | exception => cases h

/-- The pointers that a section returns. -/
theorem returns_of_exec (h : (concurrentCache cfg ν ε).exec l x z = some r)
    (he : .returned call (.pointer (some v)) ∈ r.2.2) : l.call = call ∧ Returns x v l := by
  cases l with
  | getLookup call' key =>
    cases h
    change _ ∈ (x.getLookup call' key).2.2 at he
    unfold CacheShared.getLookup at he
    split at he
    · rename_i v' hfound
      obtain ⟨e, hlive, hv⟩ := live?_of_found hfound
      simp only [CacheShared.done, List.nil_append, List.mem_singleton, CacheEvent.returned.injEq,
        CacheResult.pointer.injEq, Option.some.injEq] at he
      exact ⟨he.1.symm, .hit _ key e rfl hlive (hv.trans he.2.symm)⟩
    · cases he
    · simp [CacheShared.done] at he
  | createLookup call' key options =>
    cases h
    change _ ∈ (x.createLookup call' key options).2.2 at he
    unfold CacheShared.createLookup at he
    split at he
    · rename_i v' hfound
      obtain ⟨e, hlive, hv⟩ := live?_of_found hfound
      simp only [CacheShared.done, List.nil_append, List.mem_singleton, CacheEvent.returned.injEq,
        CacheResult.pointer.injEq, Option.some.injEq] at he
      exact ⟨he.1.symm, .hit _ key e rfl hlive (hv.trans he.2.symm)⟩
    · cases he
  | createRegister call' key options =>
    cases h
    change _ ∈ (x.createRegister call' key options z).2.2 at he
    unfold CacheShared.createRegister at he
    dsimp only at he
    split at he
    · rename_i v' _ hhit
      obtain ⟨e, hlive, hv⟩ := live?_of_hit hhit
      simp only [CacheShared.done, List.nil_append, List.mem_singleton, CacheEvent.returned.injEq,
        CacheResult.pointer.injEq, Option.some.injEq] at he
      exact ⟨he.1.symm, .hit _ key e rfl hlive (hv.trans he.2.symm)⟩
    · simp at he
    · simp [CacheShared.throw, CacheShared.done] at he
    · simp at he
  | insertPublish call' key entry =>
    cases h
    change _ ∈ (x.insertPublish call' key entry z).2.2 at he
    unfold CacheShared.insertPublish at he
    dsimp only at he
    split at he
    · simp [CacheShared.throw, CacheShared.done] at he
    · simp only [CacheShared.done, List.cons_append, List.nil_append, List.mem_cons, List.not_mem_nil, or_false,
        CacheEvent.returned.injEq, CacheResult.pointer.injEq, Option.some.injEq, reduceCtorEq, false_or] at he
      exact ⟨he.1.symm, .inserted call' key entry he.2.symm⟩
  | createJoined call' state =>
    change x.createJoined call' state = some r at h
    obtain ⟨outcome, hp, rfl⟩ := Option.map_eq_some_iff.1 h
    simp only [CacheShared.done, List.nil_append, List.mem_singleton, CacheEvent.returned.injEq] at he
    rw [outcome_eq he.2] at hp
    exact ⟨he.1.symm, .joined call' state hp⟩
  | createReturn call' state outcome =>
    cases h
    change _ ∈ (x.done call' [] outcome.result).2.2 at he
    simp only [CacheShared.done, List.nil_append, List.mem_singleton, CacheEvent.returned.injEq] at he
    obtain rfl := outcome_eq he.2
    exact ⟨he.1.symm, .created call' state⟩
  | getUpgrade call' key =>
    cases h
    change _ ∈ (x.getUpgrade call' key).2.2 at he
    unfold CacheShared.getUpgrade at he
    dsimp only at he
    split at he <;> simp [CacheShared.done] at he
  | contains call' key =>
    cases h
    simp [CacheShared.contains, CacheShared.done] at he
  | erase call' key =>
    cases h
    change _ ∈ (x.erase call' key).2.2 at he
    unfold CacheShared.erase at he
    dsimp only at he
    split at he <;> simp [CacheShared.done] at he
  | insertPrepare call' key options value =>
    cases h
    cases z <;> simp [CacheShared.insertPrepare, CacheShared.throw, CacheShared.done] at he
  | purge call' now shard result =>
    cases h
    change _ ∈ (x.purge call' now shard result z).2.2 at he
    unfold CacheShared.purge at he
    split at he
    · split at he <;> simp [CacheShared.throw, CacheShared.done] at he
    · simp [CacheShared.done] at he
  | size call' now shard result =>
    cases h
    change _ ∈ (x.size call' now shard result).2.2 at he
    unfold CacheShared.size at he
    split at he <;> simp [CacheShared.done] at he
  | empty call' now shard =>
    cases h
    change _ ∈ (x.empty call' now shard).2.2 at he
    unfold CacheShared.empty at he
    split at he
    · split at he <;> simp [CacheShared.done] at he
    · simp [CacheShared.done] at he
  | _ =>
    -- a call that works on its factory state returns nothing
    have hm := cache_moves h
    cases hm <;> simp at he
    rename_i hl
    cases hl

/-- `insert_or_assign` returns what it has stored. -/
private theorem stored_of_inserted {call' : Nat} {entry : Entry ν}
    (h : (concurrentCache cfg ν ε).exec (.insertPublish call' key entry) x z = some r)
    (he : .returned call (.pointer (some v)) ∈ r.2.2) : .stored call' key entry ∈ r.2.2 := by
  cases h
  change _ ∈ (x.insertPublish call' key entry z).2.2 at he
  show _ ∈ (x.insertPublish call' key entry z).2.2
  unfold CacheShared.insertPublish at he ⊢
  dsimp only at he ⊢
  split at he
  · simp [CacheShared.throw, CacheShared.done] at he
  · simp [CacheShared.done]

/-- What `insert_or_assign` is going to store is the value it was given. -/
private theorem value_of_prepare {x' : CacheShared cfg ν ε} {options : CacheEntryOpts} {value : ν} {entry : Entry ν}
    (h : (concurrentCache cfg ν ε).exec (.insertPrepare call key options value) x z =
      some (x', some (.insertPublish call key entry), evs)) : entry.value.value = value := by
  change some (x.insertPrepare call key options value z) = _ at h
  cases z <;> cases h <;> rfl

/-- What `get_or_create` is going to publish is the value its factory has returned. -/
private theorem value_of_factory {x' : CacheShared cfg ν ε} {options : CacheEntryOpts} {state : Nat} {entry : Entry ν}
    (h : (concurrentCache cfg ν ε).exec (.createFactory call key options state) x z =
      some (x', some (.createPublish call key state entry), evs)) : z = .returns entry.value.value := by
  change x.createFactory call key options state z = _ at h
  cases z <;> cases h
  rfl

end Pointers

/-! ### Whole runs -/

/-- The value that a call is given. -/
def CacheOp.value? : CacheOp κ ν → Option ν
  | insertOrAssign _ _ value => some value
  | _ => none

/-- `asked` has the keys of the calls by their numbers, and `made` the values that they are given or that their factories
return. -/
structure Records (asked : Nat → Option κ) (made : Nat → ν → Prop) (s : CacheState τ cfg ν ε)
    (a : CacheAction τ κ ν ε) : Prop where
  call : ∀ t op, a = .call t op → asked s.calls = op.key? ∧ ∀ value, op.value? = some value → made s.calls value
  factory : ∀ t value call key options state, a = .run t (.returns value) →
    s.pc t = some (.createFactory call key options state) → made call value

/-- What is known of a call where it is. -/
def CacheLocal.Recorded (asked : Nat → Option κ) (made : Nat → ν → Prop) (tr : List (CacheEvent κ ν ε)) :
    CacheLocal κ ν ε → Prop
  | getLookup call key | createLookup call key _ | createRegister call key _ => asked call = some key
  | insertPrepare call key _ value => asked call = some key ∧ made call value
  | insertPublish call key entry => asked call = some key ∧ made call entry.value.value
  | createJoined call state => ∃ key owner, asked call = some key ∧ .registered owner key state ∈ tr
  | createFactory call key _ state => asked call = some key ∧ .registered call key state ∈ tr
  | createPublish call key state entry =>
    asked call = some key ∧ .registered call key state ∈ tr ∧ made call entry.value.value
  | createSetValue call state published =>
    ∃ key, asked call = some key ∧ .registered call key state ∈ tr ∧ StoredAs tr key published
  | createReturn call _ (.value v) => ∃ key, asked call = some key ∧ StoredAs tr key v
  | _ => True

/-- What the trace says about the entries, the promises and the pointers returned. -/
structure History (asked : Nat → Option κ) (made : Nat → ν → Prop) (tr : List (CacheEvent κ ν ε))
    (s : CacheState τ cfg ν ε) : Prop where
  entries : ∀ i key, (s.shared.shards i).values.lookup key = if i = cfg.shardFor key then replay tr key else none
  place : ∀ t l, s.pc t = some l → l.Recorded asked made tr
  promise : ∀ state v, s.shared.promise state = some (.value v) →
    ∃ owner key, .registered owner key state ∈ tr ∧ StoredAs tr key v
  stored : ∀ call key entry, .stored call key entry ∈ tr → asked call = some key ∧ made call entry.value.value
  returned : ∀ call v, .returned call (.pointer (some v)) ∈ tr → ∃ key, asked call = some key ∧ StoredAs tr key v

section Runs

variable {asked : Nat → Option κ} {made : Nat → ν → Prop} {s : CacheState τ cfg ν ε} {a : CacheAction τ κ ν ε} {now : Int}

omit [DecidableEq κ] in
theorem CacheLocal.Recorded.mono {l : CacheLocal κ ν ε} (h : l.Recorded asked made tr)
    (evs : List (CacheEvent κ ν ε)) : l.Recorded asked made (tr ++ evs) := by
  cases l with
  | createJoined call state =>
    obtain ⟨key, owner, hk, hreg⟩ := h
    exact ⟨key, owner, hk, List.mem_append_left _ hreg⟩
  | createFactory call key options state => exact ⟨h.1, List.mem_append_left _ h.2⟩
  | createPublish call key state entry => exact ⟨h.1, List.mem_append_left _ h.2.1, h.2.2⟩
  | createSetValue call state published =>
    obtain ⟨key, hk, hreg, hst⟩ := h
    exact ⟨key, hk, List.mem_append_left _ hreg, hst.mono evs⟩
  | createReturn call state outcome =>
    cases outcome with
    | value v =>
      obtain ⟨key, hk, hst⟩ := h
      exact ⟨key, hk, hst.mono evs⟩
    | exception => trivial
  | _ => exact h

omit [DecidableEq τ] in
/-- A live entry was stored for its key. -/
private theorem History.live (hH : History asked made tr s) {e : Entry ν}
    (h : (s.shared.shards (cfg.shardFor key)).live? cfg.clock key s.shared.now = some e) : replay tr key = some e := by
  have he := hH.entries (cfg.shardFor key) key
  rw [(Shard.live?_eq_some.1 h).1, if_pos rfl] at he
  exact he.symm

omit [DecidableEq τ] in
private theorem History.ownShards (hH : History asked made tr s) : OwnShards s.shared := by
  intro i key hi
  rw [hH.entries, if_neg hi]

omit [DecidableEq κ] [DecidableEq τ] in
private theorem recorded_enter {op : CacheOp κ ν} {n : Nat} {now : Int} (hkey : asked n = op.key?)
    (hvalue : ∀ value, op.value? = some value → made n value) :
    (op.enter n now : CacheLocal κ ν ε).Recorded asked made tr := by
  cases op with
  | get key => exact hkey
  | getOrCreate key options => exact hkey
  | insertOrAssign key options value => exact ⟨hkey, hvalue value rfl⟩
  | _ => trivial

/-- Where a section leads to. -/
private theorem History.place_turn (hH : History asked made tr s)
    (h : ((concurrentCache cfg ν ε).machine τ).Exec (Records asked made) (Sections.State.init (.new cfg now)) tr s)
    {t : τ} {z : CacheChoice ν ε} {l l' : CacheLocal κ ν ε} {x : CacheShared cfg ν ε} (hp : s.pc t = some l)
    (hok : Records asked made s (.run t z))
    (hx : (concurrentCache cfg ν ε).exec l s.shared z = some (x, some l', evs)) :
    l'.Recorded asked made (tr ++ evs) := by
  have hl := hH.place t l hp
  cases cache_moves hx with
  | upgrade => trivial
  | miss => exact hl
  | sizeNext => trivial
  | emptyNext => trivial
  | prepare call key options value entry => exact ⟨hl.1, by rw [value_of_prepare hx]; exact hl.2⟩
  | register call key options hlive hf => exact ⟨hl, List.mem_append_right _ (List.mem_singleton_self _)⟩
  | join call key options state hf =>
    obtain ⟨-, u, l₀, hu, hreg⟩ := (lookup_iff h _ key state).1 hf
    rw [l₀.registered?_eq] at hreg
    exact ⟨key, l₀.call, hl, List.mem_append_left _ ((promised_of_exec h).flight u l₀ key state hu hreg)⟩
  | factoryReturns call key options state entry =>
    obtain rfl := value_of_factory hx
    exact ⟨hl.1, List.mem_append_left _ hl.2, hok.factory t _ call key options state rfl hp⟩
  | factoryThrows => trivial
  | factoryFails => trivial
  | publishFails => trivial
  | publishKeep call key state entry e hlive =>
    exact ⟨key, hl.1, List.mem_append_left _ hl.2.1, (storedAs_of_replay (hH.live hlive)).mono _⟩
  | publishStore call key state entry hlive =>
    refine ⟨key, hl.1, List.mem_append_left _ hl.2.1, call, entry, ?_, rfl⟩
    exact List.mem_append_right _ (List.mem_singleton_self _)
  | setValue call state published hpr =>
    obtain ⟨key, hk, -, hst⟩ := hl
    exact ⟨key, hk, hst.mono _⟩
  | setException => trivial
  | remove => trivial
  | purge => trivial

omit [DecidableEq τ] in
/-- What a section stores. -/
private theorem History.stored_turn (hH : History asked made tr s) {t : τ} {l : CacheLocal κ ν ε}
    {r : CacheTurn cfg ν ε} (hp : s.pc t = some l) (hm : CacheMoves s.shared l r) {call : Nat} {entry : Entry ν}
    (he : .stored call key entry ∈ r.2.2) : asked call = some key ∧ made call entry.value.value := by
  have hl := hH.place t l hp
  cases hm with
  | store call' key' entry' =>
    simp only [List.mem_cons, CacheEvent.stored.injEq, List.not_mem_nil, or_false, reduceCtorEq] at he
    obtain ⟨rfl, rfl, rfl⟩ := he
    exact hl
  | publishStore call' key' state entry' hlive =>
    simp only [List.mem_singleton, CacheEvent.stored.injEq] at he
    obtain ⟨rfl, rfl, rfl⟩ := he
    exact ⟨hl.1, hl.2.2⟩
  | purge call' now shard result hs =>
    obtain ⟨key', -, hk⟩ := List.mem_map.1 he
    cases hk
  | _ => simp at he

omit [DecidableEq τ] in
/-- What a section makes of the promises. -/
private theorem History.promise_turn (hH : History asked made tr s) {t : τ} {l : CacheLocal κ ν ε}
    {r : CacheTurn cfg ν ε} (hp : s.pc t = some l) (hm : CacheMoves s.shared l r) {state : Nat}
    (h : r.1.promise state = some (.value v)) :
    ∃ owner key, .registered owner key state ∈ tr ++ r.2.2 ∧ StoredAs (tr ++ r.2.2) key v := by
  have hold : s.shared.promise state = some (.value v) →
      ∃ owner key, .registered owner key state ∈ tr ++ r.2.2 ∧ StoredAs (tr ++ r.2.2) key v := by
    intro h
    obtain ⟨owner, key, hreg, hst⟩ := hH.promise state v h
    exact ⟨owner, key, List.mem_append_left _ hreg, hst.mono _⟩
  have hl := hH.place t l hp
  cases hm with
  | setValue call state' published hpr =>
    by_cases hs : state = state'
    · subst hs
      obtain ⟨key, -, hreg, hst⟩ := hl
      simp only [Function.update_self, Option.some.injEq, Outcome.value.injEq] at h
      subst h
      exact ⟨call, key, List.mem_append_left _ hreg, hst.mono _⟩
    · simp only [Function.update_of_ne hs] at h
      exact hold h
  | setException call key state' error hpr =>
    by_cases hs : state = state'
    · subst hs
      simp at h
    · simp only [Function.update_of_ne hs] at h
      exact hold h
  | _ => exact hold h

/-- The pointer that a section returns was stored for the key of its call. -/
private theorem History.returned_turn (hH : History asked made tr s)
    (h : ((concurrentCache cfg ν ε).machine τ).Exec (Records asked made) (Sections.State.init (.new cfg now)) tr s)
    {t : τ} {z : CacheChoice ν ε} {l : CacheLocal κ ν ε} {r : CacheTurn cfg ν ε} (hp : s.pc t = some l)
    (hx : (concurrentCache cfg ν ε).exec l s.shared z = some r) {call : Nat}
    (he : .returned call (.pointer (some v)) ∈ r.2.2) : ∃ key, asked call = some key ∧ StoredAs (tr ++ r.2.2) key v := by
  obtain ⟨rfl, hret⟩ := returns_of_exec hx he
  have hl := hH.place t l hp
  cases hret with
  | hit l key e hlook hlive hv =>
    refine ⟨key, ?_, ?_⟩
    · cases l <;> first | (cases hlook; done) | (cases hlook; exact hl)
    · rw [← hv]
      exact (storedAs_of_replay (hH.live hlive)).mono _
  | inserted call key entry hv =>
    refine ⟨key, hl.1, call, entry, ?_, hv⟩
    exact List.mem_append_right _ (stored_of_inserted hx he)
  | joined call state hpr =>
    obtain ⟨key, owner, hk, hreg⟩ := hl
    obtain ⟨owner', key', hreg', hst⟩ := hH.promise state v hpr
    obtain ⟨-, rfl⟩ := (promised_of_exec h).unique _ _ _ _ _ hreg hreg'
    exact ⟨key, hk, hst.mono _⟩
  | created call state =>
    obtain ⟨key, hk, hst⟩ := hl
    exact ⟨key, hk, hst.mono _⟩

theorem history_of_exec
    (h : ((concurrentCache cfg ν ε).machine τ).Exec (Records asked made) (Sections.State.init (.new cfg now)) tr s) :
    History asked made tr s := by
  induction h with
  | nil =>
    refine ⟨?_, nofun, nofun, nofun, nofun⟩
    intro i key
    show (Shard.empty : Shard κ ν).values.lookup key = _
    split <;> rfl
  | @snoc tr evs s s' a h hok hs ih =>
    cases Sections.moves_of_step hs with
    | call t op hp =>
      rw [List.append_nil]
      obtain ⟨hkey, hvalue⟩ := hok.call t op rfl
      refine ⟨ih.entries, ?_, ih.promise, ih.stored, ih.returned⟩
      intro u l hu
      rcases Sections.pc_cases hu with ⟨-, hl⟩ | ⟨-, hu⟩
      · cases hl
        exact recorded_enter hkey hvalue
      · exact ih.place u l hu
    | env d =>
      rw [List.append_nil]
      exact ⟨ih.entries, ih.place, ih.promise, ih.stored, ih.returned⟩
    | run t z l x l' evs hp hx =>
      have hm := cache_moves hx
      refine ⟨?_, ?_, ?_, ?_, ?_⟩
      · intro i key
        rw [replay_append]
        refine (lookup_section hm ih.ownShards i key).trans ?_
        by_cases hi : i = cfg.shardFor key
        · rw [if_pos hi, if_pos hi, ih.entries, if_pos hi]
        · rw [if_neg hi, if_neg hi]
      · intro u l₁ hu
        rcases Sections.pc_cases hu with ⟨rfl, rfl⟩ | ⟨-, hu⟩
        · exact ih.place_turn h hp hok hx
        · exact (ih.place u l₁ hu).mono evs
      · exact fun state v hv => ih.promise_turn hp hm hv
      · intro call key entry he
        rcases List.mem_append.1 he with he | he
        · exact ih.stored call key entry he
        · exact ih.stored_turn hp hm he
      · intro call v he
        rcases List.mem_append.1 he with he | he
        · obtain ⟨key, hk, hst⟩ := ih.returned call v he
          exact ⟨key, hk, hst.mono evs⟩
        · exact ih.returned_turn h hp hx he

/-- In every run of any number of threads, where `asked` has the keys of the calls and `made` the values that they are given
or that their factories return: a pointer that a call returns was stored for the key of this call, by a call for the same
key that was given the value or made it, also if it comes from a factory state that the call has joined; the entries are
in every state what replaying the events gives, each in the shard of its key; and a call that finds an entry returns the
one stored last for its key, which was not extracted since and is not expired. -/
theorem cached_values_traced
    (h : ((concurrentCache cfg ν ε).machine τ).Exec (Records asked made) (Sections.State.init (.new cfg now)) tr s) :
    (∀ call v, .returned call (.pointer (some v)) ∈ tr → ∃ key maker entry, asked call = some key ∧
      .stored maker key entry ∈ tr ∧ entry.value = v ∧ asked maker = some key ∧ made maker v.value) ∧
    (∀ i key, (s.shared.shards i).values.lookup key = if i = cfg.shardFor key then replay tr key else none) ∧
    ∀ t z l key s' evs call v, s.pc t = some l → l.looksUp? = some key →
      ((concurrentCache cfg ν ε).machine τ).step s (.run t z) = some (s', evs) →
      .returned call (.pointer (some v)) ∈ evs →
        ∃ e, replay tr key = some e ∧ e.expired cfg.clock s.shared.now = false ∧ e.value = v := by
  have hH := history_of_exec h
  refine ⟨?_, hH.entries, ?_⟩
  · intro call v hret
    obtain ⟨key, hk, maker, entry, hst, rfl⟩ := hH.returned call v hret
    obtain ⟨hasked, hmade⟩ := hH.stored maker key entry hst
    exact ⟨key, maker, entry, hk, hst, rfl, hasked, hmade⟩
  · intro t z l key s' evs call v hp hlook hs hret
    cases Sections.moves_of_step hs with
    | run _ _ l₀ x l' evs hp₀ hx =>
      obtain rfl := Option.some.inj (hp₀.symm.trans hp)
      obtain ⟨-, hreturns⟩ := returns_of_exec hx hret
      cases hreturns with
      | hit l key' e hlook' hlive hv =>
        obtain rfl := Option.some.inj (hlook'.symm.trans hlook)
        exact ⟨e, hH.live hlive, (Shard.live?_eq_some.1 hlive).2, hv⟩
      | inserted => cases hlook
      | joined => cases hlook
      | created => cases hlook

end Runs

/-- Thread `0` runs a factory for the key `3`, thread `1` joins it; thread `1` stores another value for the key `4`, which
is in the same shard, and thread `0` looks up the key `3`. -/
def joinedThenOther : List (CacheAction (Fin 2) Nat Nat Nat) :=
  [.call 0 (.getOrCreate 3 .default), .run 0 .proceed, .run 0 .proceed,
    .call 1 (.getOrCreate 3 .default), .run 1 .proceed, .run 1 .proceed,
    .run 0 (.returns 30), .run 0 .proceed, .run 0 .proceed, .run 1 .proceed, .run 0 .proceed,
    .call 1 (.insertOrAssign 4 .default 40), .run 1 .proceed, .run 1 .proceed,
    .call 0 (.get 3), .run 0 .proceed]

private def askedFour : Nat → Option Nat
  | 2 => some 4
  | _ => some 3

private def madeFour (call value : Nat) : Prop := if call = 2 then value = 40 else value = 30

private def recordsFour (s : CacheState (Fin 2) CacheConfig.single Nat Nat) : CacheAction (Fin 2) Nat Nat Nat → Bool
  | .call _ (.get key) => askedFour s.calls == some key
  | .call _ (.getOrCreate key _) => askedFour s.calls == some key
  | .call _ (.insertOrAssign key _ value) => askedFour s.calls == some key && (s.calls == 2 && value == 40)
  | .call _ _ => false
  | .run t (.returns value) =>
    value == 30 && (s.pc t).all fun l => l.call != 2
  | _ => true

private theorem records_of_recordsFour (s : CacheState (Fin 2) CacheConfig.single Nat Nat)
    (a : CacheAction (Fin 2) Nat Nat Nat) (h : recordsFour s a = true) : Records askedFour madeFour s a := by
  constructor
  · rintro t op rfl
    cases op with
    | get key => exact ⟨eq_of_beq h, nofun⟩
    | getOrCreate key options => exact ⟨eq_of_beq h, nofun⟩
    | insertOrAssign key options value =>
      simp only [recordsFour, Bool.and_eq_true, beq_iff_eq] at h
      obtain ⟨hkey, hcalls, rfl⟩ := h
      refine ⟨hkey, ?_⟩
      rintro value ⟨⟩
      simp [madeFour, hcalls]
    | _ => cases h
  · rintro t value call key options state rfl hp
    simp only [recordsFour, hp, Option.all_some, Bool.and_eq_true, beq_iff_eq, bne_iff_ne, ne_eq] at h
    obtain ⟨rfl, hcall⟩ := h
    have hne : call ≠ 2 := hcall
    simp [madeFour, hne]

theorem cached_values_traced_joinedThenOther :
    ∃ tr, ∃ s : CacheState (Fin 2) CacheConfig.single Nat Nat,
      ((concurrentCache CacheConfig.single Nat Nat).machine (Fin 2)).Exec (Records askedFour madeFour)
        (Sections.State.init (.new .single 0)) tr s ∧
      .returned 1 (.pointer (some ⟨1, 30⟩)) ∈ tr ∧ .returned 3 (.pointer (some ⟨1, 30⟩)) ∈ tr ∧
      (∃ maker entry, .stored maker 3 entry ∈ tr ∧ entry.value = ⟨1, 30⟩ ∧ askedFour maker = some 3) ∧
      (s.shared.shards (CacheConfig.single.shardFor 4)).values.lookup 4 = replay tr 4 := by
  obtain ⟨tr, s, h, hc⟩ := Machine.exists_exec_of_run ((concurrentCache CacheConfig.single Nat Nat).machine (Fin 2))
    (Records askedFour madeFour) (Sections.State.init (.new .single 0)) recordsFour joinedThenOther
    (fun tr _ => decide (.returned 1 (.pointer (some ⟨1, 30⟩)) ∈ tr ∧ .returned 3 (.pointer (some ⟨1, 30⟩)) ∈ tr))
    records_of_recordsFour (by decide)
  obtain ⟨h1, h3⟩ := of_decide_eq_true hc
  obtain ⟨hret, hentries, -⟩ := cached_values_traced h
  obtain ⟨key, maker, entry, hk, hst, hv, hasked, -⟩ := hret 1 _ h1
  cases hk
  refine ⟨tr, s, h, h1, h3, ⟨maker, entry, hst, hv, hasked⟩, ?_⟩
  rw [hentries, if_pos rfl]

end Xtd
