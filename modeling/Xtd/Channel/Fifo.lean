import Xtd.Channel.Pieces

/-!
# The channel is a queue

What has been removed followed by what is in the queue is what has been inserted, in every run.  The queue stays within
its capacity, nothing is inserted after the writer is completed, a blocking read reports an empty channel only when it is
drained for good, and a call that fails has not changed the queue.
-/

namespace Xtd

open Concurrency

variable {α τ : Type} [DecidableEq τ] [Fintype τ] {capacity : Nat} {c : Channel α}

/-! ### What a trace says about the queue -/

namespace ChannelEvent

def insertedValues : ChannelEvent α → List α
  | inserted _ value => [value]
  | _ => []

def removedValues : ChannelEvent α → List α
  | removed _ value => [value]
  | _ => []

/-- What the call inserted. -/
def insertedBy (call : Nat) : ChannelEvent α → List α
  | inserted call' value => if call' = call then [value] else []
  | _ => []

/-- The call that changed the queue. -/
def changes? : ChannelEvent α → Option Nat
  | inserted call _ | removed call _ => some call
  | _ => none

/-- The call that failed, because it was cancelled or the channel was full, completed or empty. -/
def failed? : ChannelEvent α → Option Nat
  | emplaceReturn call false | readReturn call _ (.error _) | waitReturn call false => some call
  | _ => none

/-- The report of an empty channel to a blocking read, be it one of `read_all`. -/
def reportsEmpty : ChannelEvent α → Bool
  | readReturn _ .WAIT (.error .channelEmpty) | readAllReturn _ (some .channelEmpty) => true
  | _ => false

/-- The end of a call or of a read of `read_all` without a value. -/
def endsWithout : ChannelEvent α → Bool
  | emplaceReturn _ false | readReturn _ _ (.error _) | waitReturn _ false | readAllReturn _ _ => true
  | _ => false

end ChannelEvent

/-- The values inserted, in order. -/
def insertedValues (tr : List (ChannelEvent α)) : List α := tr.flatMap ChannelEvent.insertedValues

/-- The values removed, in order. -/
def removedValues (tr : List (ChannelEvent α)) : List α := tr.flatMap ChannelEvent.removedValues

/-- The values that a call inserted. -/
def insertedBy (call : Nat) (tr : List (ChannelEvent α)) : List α := tr.flatMap (ChannelEvent.insertedBy call)

@[simp] theorem insertedValues_append (tr evs : List (ChannelEvent α)) :
    insertedValues (tr ++ evs) = insertedValues tr ++ insertedValues evs := by
  simp [insertedValues]

@[simp] theorem removedValues_append (tr evs : List (ChannelEvent α)) :
    removedValues (tr ++ evs) = removedValues tr ++ removedValues evs := by
  simp [removedValues]

theorem insertedBy_append (call : Nat) (tr evs : List (ChannelEvent α)) :
    insertedBy call (tr ++ evs) = insertedBy call tr ++ insertedBy call evs := by
  simp [insertedBy]

theorem mem_insertedBy {call : Nat} {tr : List (ChannelEvent α)} {value : α} :
    value ∈ insertedBy call tr ↔ .inserted call value ∈ tr := by
  rw [insertedBy, List.mem_flatMap]
  constructor
  · rintro ⟨e, he, hv⟩
    cases e with
    | inserted call' value' =>
      simp only [ChannelEvent.insertedBy] at hv
      split at hv
      · rename_i hc
        rw [← hc, List.mem_singleton.1 hv]
        exact he
      · cases hv
    | _ => cases hv
  · exact fun h => ⟨_, h, by simp [ChannelEvent.insertedBy]⟩

private theorem insertedBy_of_no_changes {call : Nat} {evs : List (ChannelEvent α)}
    (h : ∀ e ∈ evs, e.changes? ≠ some call) : insertedBy call evs = [] := by
  rw [List.eq_nil_iff_forall_not_mem]
  intro value hv
  exact h _ (mem_insertedBy.1 hv) rfl

private theorem values_of_no_changes {evs : List (ChannelEvent α)} (h : ∀ e ∈ evs, e.changes? = none) :
    insertedValues evs = [] ∧ removedValues evs = [] := by
  simp only [insertedValues, removedValues, List.flatMap_eq_nil_iff]
  constructor <;>
  · intro e he
    have := h e he
    cases e <;> first | rfl | cases this

/-! ### One piece -/

/-- The places after the wait of `internal_wait_to_read`. -/
def ChannelLocal.decides : ChannelLocal α → Bool
  | readAfterWait _ _ _ | readCheck _ _ _ => true
  | _ => false

/-- The value that the call at this place is to insert. -/
def ChannelLocal.value? : ChannelLocal α → Option α
  | emplaceTop _ _ value _ | emplaceAfterWait _ value _ | emplaceCheck _ value _ => some value
  | _ => none

/-- A call keeps the value that it is to insert. -/
theorem channel_value (l : ChannelLocal α) (stop seen : Bool) (l' : ChannelLocal α)
    (h : ((channel α capacity).exec l c stop seen).next.local? = some l') : l'.value? = l.value? := by
  have hm := channel_moves capacity l c stop seen
  generalize (channel α capacity).exec l c stop seen = r at hm h
  cases hm with
  | emplaceWait => cases h; rfl
  | emplaceGo => cases h; rfl
  | readAllGo => cases h; rfl
  | readWait => cases h; rfl
  | readGo => cases h; rfl
  | readCancelled hl => obtain ⟨e, he, -⟩ := readFails_cases _ _ _ _; rw [he] at h; cases h
  | readEmpty hl hq => obtain ⟨e, he, -⟩ := readFails_cases _ _ _ _; rw [he] at h; cases h
  | take hl hq hk =>
    cases hk with
    | read => cases h
    | readAll => cases h; cases hl <;> rfl
  | _ => cases h

/-- How a call at `l` ends in a piece that does not change the queue. -/
inductive EndsQuietly (c : Channel α) (l : ChannelLocal α) (stop : Bool) : ChannelEvent α → Prop
  | fails (e : ChannelEvent α) (h : e.failed? = some l.call) (hl : l.isReadAll = false)
      (he : e.reportsEmpty = true → c.queue = [] ∧ stop = false ∧ l.decides = true) : EndsQuietly c l stop e
  | readAll (error : Option ChannelReadErrors)
      (he : error = some .channelEmpty → c.queue = [] ∧ stop = false ∧ l.decides = true) :
      EndsQuietly c l stop (.readAllReturn l.call error)
  | mayRead : EndsQuietly c l stop (.waitReturn l.call true)
  | size (n : Nat) : EndsQuietly c l stop (.sizeReturn l.call n)

/-- What a piece does to the queue and what it shows. -/
inductive Shows (capacity : Nat) (c : Channel α) (l : ChannelLocal α) (stop : Bool) (r : ChannelPiece α) : Prop
  | inserted (value : α) (hc : c.writerCompleted = false) (hf : c.full capacity = false) (hl : l.isReadAll = false)
      (he : r.events = [.inserted l.call value]) (hd : r.next.doneEvents = [.emplaceReturn l.call true])
      (hq : r.shared.queue = c.queue ++ [value]) (hw : r.shared.writerCompleted = c.writerCompleted)
      (hv : l.value? = some value)
  | removed (value : α) (he : r.events = [.removed l.call value]) (hq : c.queue = value :: r.shared.queue)
      (hw : r.shared.writerCompleted = c.writerCompleted)
      (hd : l.isReadAll = true ∧ r.next.doneEvents = [] ∨
        ∃ strategy, r.next.doneEvents = [.readReturn l.call strategy (.ok value)])
  | completed (he : r.events = [.writerCompleted l.call]) (hd : r.next.doneEvents = [])
      (hq : r.shared.queue = c.queue) (hw : r.shared.writerCompleted = true)
  | nothing (he : r.events = []) (hd : ∀ e ∈ r.next.doneEvents, EndsQuietly c l stop e)
      (hn : ∀ n ns k, r.next ≠ .release (n :: ns) k) (hq : r.shared.queue = c.queue)
      (hw : r.shared.writerCompleted = c.writerCompleted)

private theorem shows_insert {l : ChannelLocal α} {call : Nat} {value : α} {c' : Channel α} {stop : Bool}
    (hl : EmplaceAt c l call value c') (hc : c.writerCompleted = false) (hf : c.full capacity = false) :
    Shows capacity c l stop (c'.insert call value) := by
  have hv : l.value? = some value := by cases hl <;> rfl
  obtain ⟨rfl, h2, h3, h4⟩ := hl.call_eq
  exact .inserted value hc hf h2 rfl rfl (by simp [Channel.insert, h3]) h4 hv

private theorem shows_fails {l : ChannelLocal α} {call : Nat} {kind : Reading} {token : Option Nat} {c' : Channel α}
    {stop : Bool} {error : ChannelReadErrors} (hl : ReadAt c l call kind token c')
    (h : error = .channelEmpty → c.queue = [] ∧ stop = false) :
    Shows capacity c l stop (c'.readFails call kind error) := by
  have hdec : l.decides = true := by cases hl <;> rfl
  obtain ⟨rfl, h2, h3, h4⟩ := hl.call_eq
  obtain ⟨e, he, hk⟩ := readFails_cases c' l.call kind error
  rw [he]
  refine .nothing rfl ?_ nofun h3 h4
  intro e' he'
  rw [List.mem_singleton.1 he']
  rcases hk with ⟨rfl, rfl⟩ | ⟨rfl, rfl⟩ | ⟨rfl, rfl⟩
  · refine .fails _ rfl h2 ?_
    cases error with
    | requestCancelled => nofun
    | channelEmpty => exact fun _ => ⟨(h rfl).1, (h rfl).2, hdec⟩
  · refine .readAll _ ?_
    rintro ⟨⟩
    exact ⟨(h rfl).1, (h rfl).2, hdec⟩
  · exact .fails _ rfl h2 nofun

theorem channel_shows (capacity : Nat) (l : ChannelLocal α) (c : Channel α) (stop seen : Bool) :
    Shows capacity c l stop ((channel α capacity).exec l c stop seen) := by
  have hm := channel_moves capacity l c stop seen
  generalize (channel α capacity).exec l c stop seen = r at hm
  cases hm with
  | emplaceWait => exact .nothing rfl nofun nofun rfl rfl
  | emplaceGo => exact .nothing rfl nofun nofun rfl rfl
  | emplaceFail hl h =>
    obtain ⟨rfl, h2, h3, h4⟩ := hl.call_eq
    refine .nothing rfl ?_ nofun h3 h4
    intro e he
    rw [List.mem_singleton.1 he]
    exact .fails _ rfl h2 nofun
  | insert hl hc hf => exact shows_insert hl hc hf
  | readAllEnd call token =>
    refine .nothing rfl ?_ nofun rfl rfl
    intro e he
    rw [List.mem_singleton.1 he]
    exact .readAll none nofun
  | readAllGo => exact .nothing rfl nofun nofun rfl rfl
  | readWait => exact .nothing rfl nofun nofun rfl rfl
  | readGo => exact .nothing rfl nofun nofun rfl rfl
  | readCancelled hl => exact shows_fails hl nofun
  | readEmpty hl hq => exact shows_fails hl (fun _ => ⟨hq, rfl⟩)
  | take hl hq hk =>
    obtain ⟨rfl, h2, h3, h4⟩ := hl.call_eq
    refine .removed _ rfl hq h4 ?_
    cases hk with
    | read => exact .inr ⟨_, rfl⟩
    | readAll => exact .inl ⟨h2, rfl⟩
  | mayRead hl =>
    obtain ⟨rfl, h2, h3, h4⟩ := hl.call_eq
    refine .nothing rfl ?_ nofun h3 h4
    intro e he
    rw [List.mem_singleton.1 he]
    exact .mayRead
  | tryEmpty call stop hq =>
    refine .nothing rfl ?_ nofun rfl rfl
    intro e he
    rw [List.mem_singleton.1 he]
    exact .fails _ rfl rfl nofun
  | tryTake call stop value rest hq => exact .removed _ rfl hq rfl (.inr ⟨_, rfl⟩)
  | completeWriter => exact .completed rfl rfl rfl rfl
  | size call =>
    refine .nothing rfl ?_ nofun rfl rfl
    intro e he
    rw [List.mem_singleton.1 he]
    exact .size _

/-- The event of a call that succeeded. -/
def ChannelEvent.Succeeds (e : ChannelEvent α) : Prop :=
  (∃ call, e = .emplaceReturn call true) ∨ ∃ call strategy value, e = .readReturn call strategy (.ok value)

namespace Shows

variable {l : ChannelLocal α} {stop : Bool} {r : ChannelPiece α} {e : ChannelEvent α}

theorem change_or_completion (h : Shows capacity c l stop r) (he : e ∈ r.events) :
    e.changes? = some l.call ∨ e = .writerCompleted l.call := by
  cases h with
  | inserted value hc hf hl he' =>
    rw [he', List.mem_singleton] at he
    exact .inl (by rw [he]; rfl)
  | removed value he' =>
    rw [he', List.mem_singleton] at he
    exact .inl (by rw [he]; rfl)
  | completed he' =>
    rw [he', List.mem_singleton] at he
    exact .inr he
  | nothing he' =>
    rw [he'] at he
    cases he

theorem success_or_quiet (h : Shows capacity c l stop r) (he : e ∈ r.next.doneEvents) :
    e.Succeeds ∨ (EndsQuietly c l stop e ∧ r.events = [] ∧ r.shared.queue = c.queue) := by
  cases h with
  | inserted value hc hf hl he' hd =>
    rw [hd, List.mem_singleton] at he
    exact .inl (.inl ⟨_, he⟩)
  | removed value he' hq hw hd =>
    rcases hd with ⟨-, hd⟩ | ⟨strategy, hd⟩
    · rw [hd] at he
      cases he
    · rw [hd, List.mem_singleton] at he
      exact .inl (.inr ⟨_, _, _, he⟩)
  | completed he' hd =>
    rw [hd] at he
    cases he
  | nothing he' hd hn hq hw => exact .inr ⟨hd e he, he', hq⟩

/-- What has still to be shown after notifications is a success. -/
theorem succeeds (h : Shows capacity c l stop r) {n : Notification ChannelCv} {ns : List (Notification ChannelCv)}
    {k : After (ChannelLocal α) (ChannelEvent α)} (hr : r.next = .release (n :: ns) k) (he : e ∈ r.next.doneEvents) :
    e.Succeeds := by
  rcases h.success_or_quiet he with he | ⟨-, hnil, -⟩
  · exact he
  · cases h with
    | nothing he' hd hn => exact absurd hr (hn n ns k)
    | inserted value hc hf hl he' => rw [he'] at hnil; cases hnil
    | removed value he' => rw [he'] at hnil; cases hnil
    | completed he' => rw [he'] at hnil; cases hnil

theorem changes_eq (h : Shows capacity c l stop r) {i : Nat} (he : e ∈ r.events) (hi : e.changes? = some i) :
    l.call = i ∧ (l.isReadAll = true ∨ r.next.local? = none) := by
  cases h with
  | inserted value hc hf hl he' hd =>
    rw [he', List.mem_singleton] at he
    subst he
    exact ⟨Option.some.inj hi, .inr (Monitor.local?_of_mem_doneEvents (e := .emplaceReturn l.call true) (by simp [hd]))⟩
  | removed value he' hq hw hd =>
    rw [he', List.mem_singleton] at he
    subst he
    refine ⟨Option.some.inj hi, ?_⟩
    rcases hd with ⟨hl, -⟩ | ⟨strategy, hd⟩
    · exact .inl hl
    · exact .inr (Monitor.local?_of_mem_doneEvents (e := .readReturn l.call strategy (.ok value)) (by simp [hd]))
  | completed he' =>
    rw [he', List.mem_singleton] at he
    subst he
    cases hi
  | nothing he' =>
    rw [he'] at he
    cases he

/-- What a piece inserts is the value of its call, which ends. -/
theorem inserts (h : Shows capacity c l stop r) (call : Nat) :
    insertedBy call r.events = [] ∨
      ∃ value, l.call = call ∧ l.value? = some value ∧ insertedBy call r.events = [value] ∧ r.next.local? = none := by
  cases h with
  | inserted value hc hf hl he hd hq hw hv =>
    have hend := Monitor.local?_of_mem_doneEvents (e := .emplaceReturn l.call true) (n := r.next) (by simp [hd])
    by_cases hcall : l.call = call
    · exact .inr ⟨value, hcall, hv, by simp [he, insertedBy, ChannelEvent.insertedBy, hcall], hend⟩
    · exact .inl (by simp [he, insertedBy, ChannelEvent.insertedBy, hcall])
  | removed value he => exact .inl (by simp [he, insertedBy, ChannelEvent.insertedBy])
  | completed he => exact .inl (by simp [he, insertedBy, ChannelEvent.insertedBy])
  | nothing he => exact .inl (by rw [he]; rfl)

/-- The queue after a piece, with what it shows. -/
theorem fifo (h : Shows capacity c l stop r) :
    removedValues r.events ++ r.shared.queue = c.queue ++ insertedValues r.events := by
  cases h with
  | inserted value hc hf hl he hd hq => simp [he, hq, removedValues, insertedValues, ChannelEvent.removedValues,
      ChannelEvent.insertedValues]
  | removed value he hq => simp [he, hq, removedValues, insertedValues, ChannelEvent.removedValues,
      ChannelEvent.insertedValues]
  | completed he hd hq => simp [he, hq, removedValues, insertedValues, ChannelEvent.removedValues,
      ChannelEvent.insertedValues]
  | nothing he hd hn hq => simp [he, hq, removedValues, insertedValues]

theorem length_le (h : Shows capacity c l stop r) (hcap : 0 < capacity) (hc : c.queue.length ≤ capacity) :
    r.shared.queue.length ≤ capacity := by
  cases h with
  | inserted value _ hf hl he hd hq =>
    simp only [Channel.full, Bool.and_eq_false_iff, decide_eq_false_iff_not] at hf
    rw [hq, List.length_append, List.length_singleton]
    omega
  | removed value he hq =>
    rw [hq, List.length_cons] at hc
    omega
  | completed he hd hq => rw [hq]; exact hc
  | nothing he hd hn hq => rw [hq]; exact hc

/-- Once the writer is completed it stays so and nothing is inserted. -/
theorem completed_mono (h : Shows capacity c l stop r) (hc : c.writerCompleted = true) :
    r.shared.writerCompleted = true ∧ insertedValues r.events = [] := by
  cases h with
  | inserted value hc' => rw [hc] at hc'; cases hc'
  | removed value he hq hw => exact ⟨hw.trans hc, by simp [he, insertedValues, ChannelEvent.insertedValues]⟩
  | completed he hd hq hw => exact ⟨hw, by simp [he, insertedValues, ChannelEvent.insertedValues]⟩
  | nothing he hd hn hq hw => exact ⟨hw.trans hc, by simp [he, insertedValues]⟩

theorem completes (h : Shows capacity c l stop r) {i : Nat}
    (he : .writerCompleted i ∈ r.events ∨ .writerCompleted i ∈ r.next.doneEvents) :
    r.shared.writerCompleted = true := by
  rcases he with he | he
  · cases h with
    | completed he' hd hq hw => exact hw
    | inserted value hc hf hl he' => simp [he'] at he
    | removed value he' => simp [he'] at he
    | nothing he' => simp [he'] at he
  · rcases h.success_or_quiet he with (⟨_, h⟩ | ⟨_, _, _, h⟩) | ⟨h, -⟩
    · cases h
    · cases h
    · cases h with
      | fails e h => cases h

/-- A call that succeeds has inserted its value, or removed the value it returns. -/
theorem delivers (h : Shows capacity c l stop r) (he : e ∈ r.next.doneEvents) :
    (∀ i, e = .emplaceReturn i true → ∃ value, .inserted i value ∈ r.events) ∧
      ∀ i strategy value, e = .readReturn i strategy (.ok value) → .removed i value ∈ r.events := by
  cases h with
  | inserted value hc hf hl he' hd =>
    rw [hd, List.mem_singleton] at he
    subst he
    refine ⟨?_, nofun⟩
    rintro i ⟨⟩
    exact ⟨value, by simp [he']⟩
  | removed value he' hq hw hd =>
    rcases hd with ⟨-, hd⟩ | ⟨strategy, hd⟩ <;> rw [hd] at he
    · cases he
    · rw [List.mem_singleton.1 he]
      refine ⟨nofun, ?_⟩
      rintro i strategy value ⟨⟩
      simp [he']
  | completed he' hd =>
    rw [hd] at he
    cases he
  | nothing he' hd =>
    constructor
    · rintro i rfl
      cases hd _ he with
      | fails e h => cases h
    · rintro i strategy value rfl
      cases hd _ he with
      | fails e h => cases h

end Shows

/-! ### Whole runs -/

variable {tr evs : List (ChannelEvent α)} {s s' : ChannelState τ α} {a : ChannelAction τ α}

private theorem no_changes_of_succeeds {e : ChannelEvent α} (h : e.Succeeds) :
    e.changes? = none ∧ e.endsWithout = false := by
  rcases h with ⟨_, rfl⟩ | ⟨_, _, _, rfl⟩ <;> exact ⟨rfl, rfl⟩

private theorem no_changes_of_endsWithout {e : ChannelEvent α} (h : e.endsWithout = true) : e.changes? = none := by
  cases e <;> first | rfl | cases h

private theorem no_changes_of_endsQuietly {l : ChannelLocal α} {stop : Bool} {e : ChannelEvent α}
    (h : EndsQuietly c l stop e) : e.changes? = none := by
  cases h with
  | fails e h => cases e <;> first | rfl | cases h
  | _ => rfl

private theorem no_changes_of_done {l : ChannelLocal α} {stop : Bool} {r : ChannelPiece α} {e : ChannelEvent α}
    (h : Shows capacity c l stop r) (he : e ∈ r.next.doneEvents) : e.changes? = none := by
  rcases h.success_or_quiet he with he | ⟨he, -⟩
  · exact (no_changes_of_succeeds he).1
  · exact no_changes_of_endsQuietly he

/-- A step is a piece, or it leaves the channel and shows nothing but calls that succeeded before. -/
private theorem channel_step (h : ((channel α capacity).machine τ).Exec Machine.Any (State.init .new) tr s)
    (hm : (channel α capacity).Moves s a s' evs) :
    (s'.shared = s.shared ∧ ∀ e ∈ evs, e.Succeeds) ∨
    ∃ t z l evs', a = .run t z ∧ s.phase t = .locked l ∧ s'.shared = ((channel α capacity).piece s l z).shared ∧
      evs = ((channel α capacity).piece s l z).events ++ evs' ∧
      ∀ e ∈ evs', e ∈ ((channel α capacity).piece s l z).next.doneEvents := by
  rcases hm.events_eq with ⟨t, op, ha, -, rfl, -⟩ | ⟨t, z, l, evs', ha, hl, he, hd, -⟩ | ⟨-, hrun, hd, -⟩
  · left
    rcases hm.shared_eq with ⟨he, -⟩ | ⟨t', z, l, ha', -⟩
    · exact ⟨he, nofun⟩
    · rw [ha] at ha'
      cases ha'
  · subst ha
    exact .inr ⟨t, z, l, evs', rfl, hl, (hm.of_piece hl).1, he, hd⟩
  · left
    rcases hm.shared_eq with ⟨he, -⟩ | ⟨t', z, l, ha', hl, -⟩
    · refine ⟨he, ?_⟩
      intro e he
      obtain ⟨t, ht⟩ := hd e he
      exact Monitor.doneEvents_of_exec h
        (fun l y stop z n ns k hn e he => (channel_shows capacity l y stop z).succeeds hn he) t e ht
    · exact absurd hl (hrun t' z l ha')

/-- What a piece inserts and removes is shown with it. -/
theorem values_of_piece {t : τ} {z : Bool} {l : ChannelLocal α} (hm : (channel α capacity).Moves s (.run t z) s' evs)
    (hl : s.phase t = .locked l) :
    insertedValues evs = insertedValues ((channel α capacity).piece s l z).events ∧
      removedValues evs = removedValues ((channel α capacity).piece s l z).events := by
  obtain ⟨evs', rfl, hd⟩ := hm.events_of_piece hl
  have hsh := channel_shows capacity l s.shared (s.stop ((channel α capacity).token l)) z
  obtain ⟨h1, h2⟩ := values_of_no_changes (fun e he => no_changes_of_done hsh (hd e he))
  constructor
  · rw [insertedValues_append, h1, List.append_nil]
  · rw [removedValues_append, h2, List.append_nil]

/-- A step that inserts or removes a value is a piece. -/
theorem values_of_step (h : ((channel α capacity).machine τ).Exec Machine.Any (State.init .new) tr s)
    (hm : (channel α capacity).Moves s a s' evs) :
    (s'.shared = s.shared ∧ insertedValues evs = [] ∧ removedValues evs = []) ∨
    ∃ t z l, a = .run t z ∧ s.phase t = .locked l ∧ s'.shared = ((channel α capacity).piece s l z).shared ∧
      insertedValues evs = insertedValues ((channel α capacity).piece s l z).events ∧
      removedValues evs = removedValues ((channel α capacity).piece s l z).events := by
  rcases channel_step h hm with ⟨he, hs⟩ | ⟨t, z, l, evs', rfl, hl, he, -⟩
  · exact .inl ⟨he, values_of_no_changes (fun e he => (no_changes_of_succeeds (hs e he)).1)⟩
  · exact .inr ⟨t, z, l, rfl, hl, he, values_of_piece hm hl⟩

/-- What a step does to the queue, with what it shows. -/
theorem step_fifo (h : ((channel α capacity).machine τ).Exec Machine.Any (State.init .new) tr s)
    (hm : (channel α capacity).Moves s a s' evs) :
    removedValues evs ++ s'.shared.queue = s.shared.queue ++ insertedValues evs ∧
    (0 < capacity → s.shared.queue.length ≤ capacity → s'.shared.queue.length ≤ capacity) ∧
    (s.shared.writerCompleted = true → s'.shared.writerCompleted = true ∧ insertedValues evs = []) := by
  rcases values_of_step h hm with ⟨he, h1, h2⟩ | ⟨t, z, l, -, -, he, h1, h2⟩
  · rw [he, h1, h2]
    exact ⟨by simp, fun _ h => h, fun h => ⟨h, rfl⟩⟩
  · have hsh := channel_shows capacity l s.shared (s.stop ((channel α capacity).token l)) z
    change Shows capacity s.shared l _ ((channel α capacity).piece s l z) at hsh
    rw [he, h1, h2]
    exact ⟨hsh.fifo, hsh.length_le, hsh.completed_mono⟩

/-- The events of a step that fail or end without a value. -/
private theorem quiet_of_step (h : ((channel α capacity).machine τ).Exec Machine.Any (State.init .new) tr s)
    (hm : (channel α capacity).Moves s a s' evs) {e : ChannelEvent α} (he : e ∈ evs) (hq : e.endsWithout = true) :
    ∃ t z l, a = .run t z ∧ s.phase t = .locked l ∧ EndsQuietly s.shared l (s.stop l.token) e ∧
      ((channel α capacity).piece s l z).next.local? = none ∧ (∀ e' ∈ evs, e'.changes? = none) ∧
      s'.shared.queue = s.shared.queue := by
  rcases channel_step h hm with ⟨-, hs⟩ | ⟨t, z, l, evs', rfl, hl, hs, rfl, hd⟩
  · rw [(no_changes_of_succeeds (hs e he)).2] at hq
    cases hq
  · have hsh := channel_shows capacity l s.shared (s.stop l.token) z
    change Shows capacity s.shared l _ ((channel α capacity).piece s l z) at hsh
    rcases List.mem_append.1 he with he | he
    · rcases hsh.change_or_completion he with he | he
      · rw [no_changes_of_endsWithout hq] at he
        cases he
      · rw [he] at hq
        cases hq
    · have hnone := Monitor.local?_of_mem_doneEvents (hd e he)
      rcases hsh.success_or_quiet (hd e he) with he | ⟨he, hnil, hqueue⟩
      · rw [(no_changes_of_succeeds he).2] at hq
        cases hq
      · refine ⟨t, z, l, rfl, hl, he, hnone, ?_, by rw [hs, hqueue]⟩
        intro e' he'
        rw [hnil, List.nil_append] at he'
        exact no_changes_of_done hsh (hd e' he')

/-- A change of the queue is made by a call under way, and ends it unless it is one of `read_all`. -/
private theorem change_of_step (h : ((channel α capacity).machine τ).Exec Machine.Any (State.init .new) tr s)
    (hm : (channel α capacity).Moves s a s' evs) {e : ChannelEvent α} {i : Nat} (he : e ∈ evs)
    (hi : e.changes? = some i) :
    ∃ t z l, a = .run t z ∧ s.phase t = .locked l ∧ l.call = i ∧
      (l.isReadAll = true ∨ ((channel α capacity).piece s l z).next.local? = none) := by
  rcases channel_step h hm with ⟨-, hs⟩ | ⟨t, z, l, evs', rfl, hl, hs, rfl, hd⟩
  · rw [(no_changes_of_succeeds (hs e he)).1] at hi
    cases hi
  · have hsh := channel_shows capacity l s.shared (s.stop l.token) z
    change Shows capacity s.shared l _ ((channel α capacity).piece s l z) at hsh
    rcases List.mem_append.1 he with he | he
    · exact ⟨t, z, l, rfl, hl, hsh.changes_eq he hi⟩
    · rw [no_changes_of_done hsh (hd e he)] at hi
      cases hi

/-- The changes of the queue that a run has shown belong to calls that were made; a call under way has made none unless
it is one of `read_all`, and a call that failed has made none and is over. -/
private structure ChangesRecorded (tr : List (ChannelEvent α)) (s : ChannelState τ α) : Prop where
  made : ∀ e ∈ tr, ∀ i, e.changes? = some i → i < s.calls
  active : ∀ t l, (s.phase t).local? = some l → l.isReadAll = false → ∀ e ∈ tr, e.changes? ≠ some l.call
  failed : ∀ e ∈ tr, ∀ i, e.failed? = some i →
    i < s.calls ∧ (∀ e' ∈ tr, e'.changes? ≠ some i) ∧ ∀ t l, (s.phase t).local? = some l → l.call ≠ i

private theorem endsWithout_of_failed {e : ChannelEvent α} {i : Nat} (h : e.failed? = some i) :
    e.endsWithout = true := by
  unfold ChannelEvent.failed? at h
  split at h <;> first | rfl | cases h

private theorem failed_of_endsQuietly {l : ChannelLocal α} {stop : Bool} {e : ChannelEvent α} {i : Nat}
    (h : EndsQuietly c l stop e) (hi : e.failed? = some i) : l.call = i ∧ l.isReadAll = false := by
  cases h with
  | fails e h hl => exact ⟨Option.some.inj (h.symm.trans hi), hl⟩
  | _ => cases hi

private theorem channelCalls_of_exec (h : ((channel α capacity).machine τ).Exec Machine.Any (State.init .new) tr s) :
    (∀ t l, (s.phase t).local? = some l → l.call < s.calls) ∧
      ∀ t u l l', (s.phase t).local? = some l → (s.phase u).local? = some l' → l.call = l'.call → t = u :=
  Monitor.call_invariant ChannelLocal.call h (fun op n l hl => (channel_enter op n l hl).2)
    (fun l _ stop z l' hn => (channel_call l stop z l' hn).1)

private theorem ChangesRecorded.made_step (hC : ChangesRecorded tr s)
    (h : ((channel α capacity).machine τ).Exec Machine.Any (State.init .new) tr s)
    (hm : (channel α capacity).Moves s a s' evs) : ∀ e ∈ tr ++ evs, ∀ i, e.changes? = some i → i < s'.calls := by
  have hcalls := hm.calls_le
  obtain ⟨hlt, -⟩ := channelCalls_of_exec h
  intro e he i hi
  rcases List.mem_append.1 he with he | he
  · have := hC.made e he i hi
    omega
  · obtain ⟨t, z, l, -, hl, rfl, -⟩ := change_of_step h hm he hi
    have := hlt t l (Monitor.local?_of_locked hl)
    omega

/-- A call under way that was not one of `read_all` still has made no change. -/
private theorem ChangesRecorded.active_step (hC : ChangesRecorded tr s)
    (h : ((channel α capacity).machine τ).Exec Machine.Any (State.init .new) tr s)
    (hm : (channel α capacity).Moves s a s' evs) :
    ∀ t l, (s'.phase t).local? = some l → l.isReadAll = false → ∀ e ∈ tr ++ evs, e.changes? ≠ some l.call := by
  obtain ⟨-, hne⟩ := channelCalls_of_exec h
  intro t l hl hr e he hi
  rcases hm.local_eq hl with ⟨hl, hidle⟩ | ⟨op, rfl, hen⟩ | ⟨z, l₀, rfl, hl₀, hn⟩
  · rcases List.mem_append.1 he with he | he
    · exact hC.active t l hl hr e he hi
    · obtain ⟨u, z, l₀, ha, hl₀, hc, -⟩ := change_of_step h hm he hi
      obtain rfl := hne u t l₀ l (by rw [hl₀]; rfl) hl hc
      exact hidle z l₀ ha hl₀
  · rcases List.mem_append.1 he with he | he
    · have := hC.made e he _ hi
      rw [(channel_enter op _ l hen).2] at this
      omega
    · obtain ⟨u, z, l₀, ha, -⟩ := change_of_step h hm he hi
      cases ha
  · obtain ⟨h1, h2⟩ := channel_call l₀ _ z l hn
    rcases List.mem_append.1 he with he | he
    · exact hC.active t l₀ (by rw [hl₀]; rfl) (h2.symm.trans hr) e he (by rw [← h1]; exact hi)
    · obtain ⟨u, z', l₁, ha, hl₁, -, hend⟩ := change_of_step h hm he hi
      cases ha
      rw [hl₀] at hl₁
      cases hl₁
      rcases hend with hend | hend
      · rw [← h2, hr] at hend
        cases hend
      · rw [hend] at hn
        cases hn

/-- A call that failed, now or before, has made no change and is over. -/
private theorem ChangesRecorded.failed_step (hC : ChangesRecorded tr s)
    (h : ((channel α capacity).machine τ).Exec Machine.Any (State.init .new) tr s)
    (hm : (channel α capacity).Moves s a s' evs) :
    ∀ e ∈ tr ++ evs, ∀ i, e.failed? = some i → i < s'.calls ∧ (∀ e' ∈ tr ++ evs, e'.changes? ≠ some i) ∧
      ∀ t l, (s'.phase t).local? = some l → l.call ≠ i := by
  obtain ⟨hlt, hne⟩ := channelCalls_of_exec h
  have hcalls := hm.calls_le
  intro e he i hi
  rcases List.mem_append.1 he with he | he
  · obtain ⟨h1, h2, h3⟩ := hC.failed e he i hi
    refine ⟨by omega, ?_, ?_⟩
    · intro e' he' hi'
      rcases List.mem_append.1 he' with he' | he'
      · exact h2 e' he' hi'
      · obtain ⟨t, z, l, -, hl, hc, -⟩ := change_of_step h hm he' hi'
        exact h3 t l (Monitor.local?_of_locked hl) hc
    · intro t l hl hc
      rcases hm.local_eq hl with ⟨hl, -⟩ | ⟨op, -, hen⟩ | ⟨z, l₀, -, hl₀, hn⟩
      · exact h3 t l hl hc
      · rw [(channel_enter op _ l hen).2] at hc
        omega
      · exact h3 t l₀ (by rw [hl₀]; rfl) ((channel_call l₀ _ z l hn).1.symm.trans hc)
  · obtain ⟨t, z, l, rfl, hl, hquiet, hnone, hno, -⟩ := quiet_of_step h hm he (endsWithout_of_failed hi)
    obtain ⟨rfl, hr⟩ := failed_of_endsQuietly hquiet hi
    have hlt' : (s.phase t).local? = some l := Monitor.local?_of_locked hl
    obtain ⟨-, hown, hother⟩ := hm.of_piece hl
    refine ⟨by have := hlt t l hlt'; omega, ?_, ?_⟩
    · intro e' he' hi'
      rcases List.mem_append.1 he' with he' | he'
      · exact hC.active t l hlt' hr e' he' hi'
      · rw [hno e' he'] at hi'
        cases hi'
    · intro u l' hu hc
      by_cases hut : u = t
      · subst hut
        rw [hown, hnone] at hu
        cases hu
      · rw [hother u hut] at hu
        exact hut (hne u t l' l hu hlt' hc)

private theorem changesRecorded_of_exec
    (h : ((channel α capacity).machine τ).Exec Machine.Any (State.init .new) tr s) : ChangesRecorded tr s := by
  induction h with
  | nil => exact ⟨nofun, nofun, nofun⟩
  | snoc h _ hs ih =>
    have hm := Monitor.moves_of_step hs
    exact ⟨ih.made_step h hm, ih.active_step h hm, ih.failed_step h hm⟩

/-- Whoever has passed the wait of `internal_wait_to_read` may read, unless a stop was requested. -/
theorem canRead_of_decides (h : ((channel α capacity).machine τ).Exec Machine.Any (State.init .new) tr s)
    {t : τ} {l : ChannelLocal α} (hl : s.phase t = .locked l) (hd : l.decides = true) :
    s.stop l.token = true ∨ s.shared.canRead = true := by
  refine Monitor.held_invariant (H := fun l b y => l.decides = true → b = true ∨ y.canRead = true)
    (R := ChannelLocal.Starts) (W := ChannelLocal.Waits) h (fun _ _ _ _ => .inl rfl) ?_ ?_
    (fun op n l hl => (channel_enter op n l hl).1) (fun l y b z => channel_again l b z)
    (fun l y b z => channel_wait l b z) ?_ hl hd
  · intro l b y hs hd
    cases hs <;> cases hd
  · intro cv l b y hw hp hd
    cases hw with
    | notFull => cases hd
    | notEmpty => exact hp
  · intro l y b z l' hH hn
    have hm := channel_moves capacity l y b z
    generalize (channel α capacity).exec l y b z = r at hm hn ⊢
    cases hm with
    | emplaceGo => cases hn; exact ⟨rfl, nofun⟩
    | readAllGo => cases hn; exact ⟨rfl, nofun⟩
    | readGo call kind token stop h => cases hn; exact ⟨rfl, fun _ => h⟩
    | readCancelled => obtain ⟨e, he, -⟩ := readFails_cases _ _ _ _; rw [he] at hn; cases hn
    | readEmpty => obtain ⟨e, he, -⟩ := readFails_cases _ _ _ _; rw [he] at hn; cases hn
    | _ => cases hn

/-- A blocking read that reports an empty channel has found it completed and drained. -/
private theorem empty_of_report (h : ((channel α capacity).machine τ).Exec Machine.Any (State.init .new) tr s)
    (hm : (channel α capacity).Moves s a s' evs) {e : ChannelEvent α} (he : e ∈ evs) (hr : e.reportsEmpty = true) :
    s.shared.writerCompleted = true ∧ s.shared.queue = [] ∧ s'.shared.queue = [] := by
  have hend : e.endsWithout = true := by
    unfold ChannelEvent.reportsEmpty at hr
    split at hr <;> first | rfl | cases hr
  obtain ⟨t, z, l, -, hl, hquiet, -, -, hq⟩ := quiet_of_step h hm he hend
  have hdec : s.shared.queue = [] ∧ s.stop l.token = false ∧ l.decides = true := by
    cases hquiet with
    | fails e h hl hempty => exact hempty hr
    | readAll error hempty =>
      refine hempty ?_
      match error, hr with
      | some .channelEmpty, _ => rfl
    | _ => cases hr
  obtain ⟨h1, h2, h3⟩ := hdec
  refine ⟨?_, h1, by rw [hq, h1]⟩
  rcases canRead_of_decides h hl h3 with h4 | h4
  · rw [h2] at h4
    cases h4
  · simpa [Channel.canRead, h1] using h4

/-- A completed and drained channel stays so. -/
private theorem drained_of_exec (h : ((channel α capacity).machine τ).Exec Machine.Any (State.init .new) tr s)
    (hc : s.shared.writerCompleted = true) (hq : s.shared.queue = [])
    (h' : ((channel α capacity).machine τ).Exec Machine.Any s evs s') :
    s'.shared.writerCompleted = true ∧ s'.shared.queue = [] ∧ insertedValues evs = [] := by
  induction h' with
  | nil => exact ⟨hc, hq, rfl⟩
  | @snoc tr' evs s₁ s₂ a h' _ hs ih =>
    obtain ⟨h1, h2, h3⟩ := ih
    obtain ⟨hf, -, hw⟩ := step_fifo (h.trans h') (Monitor.moves_of_step hs)
    obtain ⟨hw, hi⟩ := hw h1
    rw [h2, hi, List.append_nil, List.append_eq_nil_iff] at hf
    exact ⟨hw, hf.2, by rw [insertedValues_append, h3, hi]; rfl⟩

theorem fifo_of_exec (h : ((channel α capacity).machine τ).Exec Machine.Any (State.init .new) tr s) :
    removedValues tr ++ s.shared.queue = insertedValues tr ∧ (0 < capacity → s.shared.queue.length ≤ capacity) := by
  induction h with
  | nil => exact ⟨rfl, fun _ => Nat.zero_le _⟩
  | @snoc tr evs s s' a h _ hs ih =>
    obtain ⟨h1, h2⟩ := ih
    obtain ⟨hf, hl, -⟩ := step_fifo h (Monitor.moves_of_step hs)
    refine ⟨?_, fun hcap => hl hcap (h2 hcap)⟩
    rw [removedValues_append, insertedValues_append, List.append_assoc, hf, ← List.append_assoc, h1]

private theorem completed_of_exec (h : ((channel α capacity).machine τ).Exec Machine.Any (State.init .new) tr s)
    {i : Nat} (hi : .writerCompleted i ∈ tr) : s.shared.writerCompleted = true := by
  induction h with
  | nil => cases hi
  | @snoc tr evs s s' a h _ hs ih =>
    have hm := Monitor.moves_of_step hs
    rcases List.mem_append.1 hi with hi | hi
    · exact ((step_fifo h hm).2.2 (ih hi)).1
    · rcases channel_step h hm with ⟨-, hs⟩ | ⟨t, z, l, evs', rfl, hl, he, rfl, hd⟩
      · rcases hs _ hi with ⟨_, hi⟩ | ⟨_, _, _, hi⟩ <;> cases hi
      · rw [he]
        have hsh := channel_shows capacity l s.shared (s.stop l.token) z
        change Shows capacity s.shared l _ ((channel α capacity).piece s l z) at hsh
        rcases List.mem_append.1 hi with hi | hi
        · exact hsh.completes (.inl hi)
        · exact hsh.completes (.inr (hd _ hi))

/-- A call that returns with success, or will when its notification is sent, has changed the queue. -/
private theorem delivered_of_exec (h : ((channel α capacity).machine τ).Exec Machine.Any (State.init .new) tr s)
    {e : ChannelEvent α} (he : Shown tr s e) :
    (∀ i, e = .emplaceReturn i true → ∃ value, .inserted i value ∈ tr) ∧
      ∀ i strategy value, e = .readReturn i strategy (.ok value) → .removed i value ∈ tr := by
  induction h with
  | nil => rcases he with he | ⟨t, he⟩ <;> cases he
  | @snoc tr evs s s' a h _ hs ih =>
    have hm := Monitor.moves_of_step hs
    rcases hm.shown he with hold | ⟨t, op, -, hnew⟩ | ⟨t, z, l, rfl, hl, hnew⟩
    · obtain ⟨h1, h2⟩ := ih hold
      refine ⟨fun i hi => ?_, fun i strategy value hi => List.mem_append_left _ (h2 i strategy value hi)⟩
      obtain ⟨value, hv⟩ := h1 i hi
      exact ⟨value, List.mem_append_left _ hv⟩
    · cases hnew
    · have hsh := channel_shows capacity l s.shared (s.stop l.token) z
      change Shows capacity s.shared l _ ((channel α capacity).piece s l z) at hsh
      obtain ⟨evs', rfl, -⟩ := hm.events_of_piece hl
      have hsub : ∀ e ∈ ((channel α capacity).piece s l z).events,
          e ∈ tr ++ (((channel α capacity).piece s l z).events ++ evs') :=
        fun e he => List.mem_append_right _ (List.mem_append_left _ he)
      rcases hnew with hnew | hnew
      · rcases hsh.change_or_completion hnew with he | he
        · constructor
          · rintro i rfl
            cases he
          · rintro i strategy value rfl
            cases he
        · rw [he]
          exact ⟨nofun, nofun⟩
      · obtain ⟨h1, h2⟩ := hsh.delivers hnew
        refine ⟨fun i hi => ?_, fun i strategy value hi => hsub _ (h2 i strategy value hi)⟩
        obtain ⟨value, hv⟩ := h1 i hi
        exact ⟨value, hsub _ hv⟩

/-! ### What a call inserts -/

/-- A step in which a call inserts is the piece that ends it, and its value is inserted. -/
private theorem insertedBy_of_step (h : ((channel α capacity).machine τ).Exec Machine.Any (State.init .new) tr s)
    (hm : (channel α capacity).Moves s a s' evs) (call : Nat) :
    insertedBy call evs = [] ∨
      ∃ t z l value, a = .run t z ∧ s.phase t = .locked l ∧ l.call = call ∧ l.value? = some value ∧
        insertedBy call evs = [value] ∧ (s'.phase t).local? = none := by
  rcases channel_step h hm with ⟨-, hs⟩ | ⟨t, z, l, evs', rfl, hl, -, rfl, hd⟩
  · refine .inl (insertedBy_of_no_changes fun e he => ?_)
    rw [(no_changes_of_succeeds (hs e he)).1]
    nofun
  · have hsh := channel_shows capacity l s.shared (s.stop l.token) z
    change Shows capacity s.shared l _ ((channel α capacity).piece s l z) at hsh
    have hnone : insertedBy call evs' = [] := by
      refine insertedBy_of_no_changes fun e he => ?_
      rw [no_changes_of_done hsh (hd e he)]
      nofun
    rw [insertedBy_append, hnone, List.append_nil]
    rcases hsh.inserts call with hnil | ⟨value, hcall, hv, hins, hend⟩
    · exact .inl hnil
    · exact .inr ⟨t, z, l, value, rfl, hl, hcall, hv, hins, (hm.of_piece hl).2.1.trans hend⟩

/-- What holds behind a call of `emplace`: while it is under way it has its value and has inserted nothing. -/
private structure Inserting (call : Nat) (value : α) (tr : List (ChannelEvent α)) (s : ChannelState τ α) : Prop where
  made : call < s.calls
  active : ∀ t l, (s.phase t).local? = some l → l.call = call → l.value? = some value ∧ insertedBy call tr = []
  once : insertedBy call tr = [] ∨ insertedBy call tr = [value]

private theorem Inserting.step {tr' : List (ChannelEvent α)} {call : Nat} {value : α} (hI : Inserting call value tr' s)
    (h : ((channel α capacity).machine τ).Exec Machine.Any (State.init .new) tr s)
    (hm : (channel α capacity).Moves s a s' evs) : Inserting call value (tr' ++ evs) s' := by
  obtain ⟨-, hne⟩ := channelCalls_of_exec h
  have hins := insertedBy_of_step h hm call
  refine ⟨Nat.lt_of_lt_of_le hI.made hm.calls_le, ?_, ?_⟩
  · intro t l hl hcall
    -- the local state before the step belongs to the same call
    have hbefore : ∃ l₀, (s.phase t).local? = some l₀ ∧ l₀.call = call ∧ l.value? = l₀.value? := by
      rcases hm.local_eq hl with ⟨hl, -⟩ | ⟨op, -, hen⟩ | ⟨z, l₀, -, hl₀, hn⟩
      · exact ⟨l, hl, hcall, rfl⟩
      · have hmade := hI.made
        rw [(channel_enter op _ l hen).2] at hcall
        omega
      · exact ⟨l₀, Monitor.local?_of_locked hl₀, (channel_call l₀ _ z l hn).1.symm.trans hcall, channel_value l₀ _ z l hn⟩
    obtain ⟨l₀, hl₀, hcall₀, hvalue⟩ := hbefore
    obtain ⟨hv, hnil⟩ := hI.active t l₀ hl₀ hcall₀
    refine ⟨hvalue.trans hv, ?_⟩
    rw [insertedBy_append, hnil, List.nil_append]
    rcases hins with hins | ⟨u, z, l₁, value', -, hl₁, hcall₁, -, -, hend⟩
    · exact hins
    · obtain rfl := hne u t l₁ l₀ (Monitor.local?_of_locked hl₁) hl₀ (hcall₁.trans hcall₀.symm)
      rw [hl] at hend
      cases hend
  · rw [insertedBy_append]
    rcases hins with hins | ⟨u, z, l₁, value', -, hl₁, hcall₁, hv₁, hins, -⟩
    · rw [hins, List.append_nil]
      exact hI.once
    · obtain ⟨hv, hnil⟩ := hI.active u l₁ (Monitor.local?_of_locked hl₁) hcall₁
      rw [hv] at hv₁
      cases hv₁
      exact .inr (by rw [hnil, hins, List.nil_append])

/-- What a call of `emplace` inserts in any run behind it. -/
private theorem inserting_of_exec (h : ((channel α capacity).machine τ).Exec Machine.Any (State.init .new) tr s)
    {t : τ} {strategy : BlockStrategy} {value : α} {token : Option Nat}
    (hs : ((channel α capacity).machine τ).step s (.call t (.emplace strategy value token)) = some (s', evs))
    {tr' : List (ChannelEvent α)} {s'' : ChannelState τ α}
    (h' : ((channel α capacity).machine τ).Exec Machine.Any s' tr' s'') : Inserting s.calls value tr' s'' := by
  have hm := Monitor.moves_of_step hs
  induction h' with
  | nil =>
    have hmade : s.calls < s'.calls := by
      rcases hm.events_eq with ⟨t, op, -, -, -, hcalls⟩ | ⟨t, z, l, evs', ha, -⟩ | ⟨hcall, -⟩
      · omega
      · cases ha
      · exact absurd rfl (hcall _ _)
    refine ⟨hmade, ?_, .inl rfl⟩
    intro u l hl hcall
    rcases hm.local_eq hl with ⟨hl, -⟩ | ⟨op, ha, hen⟩ | ⟨z, l₀, ha, -⟩
    · have := (channelCalls_of_exec h).1 u l hl
      omega
    · cases ha
      cases hen
      exact ⟨rfl, rfl⟩
    · cases ha
  | snoc h' _ hs' ih =>
    exact ih.step ((h.snoc trivial hs).trans h') (Monitor.moves_of_step hs')

/-! ### FIFO delivery and shutdown -/

/-- In every run of any number of threads, with stop requests at any point: what was removed followed by the queue is what
was inserted, in order, and the queue is within its capacity; after `complete_writer` nothing is inserted; a blocking
read reports an empty channel only when the writer is completed and everything inserted was removed, and then the channel
stays drained; the step in which an operation fails leaves the queue and a call that failed has never changed it; a call
of `emplace` inserts nothing but its value, once at most, and if it succeeds it has inserted it; and a read that succeeds
has removed the value it returned. -/
theorem channel_fifo (h : ((channel α capacity).machine τ).Exec Machine.Any (State.init .new) tr s) :
    removedValues tr ++ s.shared.queue = insertedValues tr ∧
    (0 < capacity → s.shared.queue.length ≤ capacity) ∧
    (∀ i a s' evs, .writerCompleted i ∈ tr → ((channel α capacity).machine τ).step s a = some (s', evs) →
      insertedValues evs = []) ∧
    (∀ a s' evs e, ((channel α capacity).machine τ).step s a = some (s', evs) → e ∈ evs → e.reportsEmpty = true →
      s.shared.writerCompleted = true ∧ removedValues tr = insertedValues tr ∧
      ∀ tr' s'', ((channel α capacity).machine τ).Exec Machine.Any s' tr' s'' →
        s''.shared.queue = [] ∧ insertedValues tr' = []) ∧
    (∀ a s' evs e, ((channel α capacity).machine τ).step s a = some (s', evs) → e ∈ evs → e.endsWithout = true →
      s'.shared.queue = s.shared.queue) ∧
    (∀ i, ∀ e ∈ tr, e.failed? = some i → ∀ e' ∈ tr, e'.changes? ≠ some i) ∧
    (∀ i, .emplaceReturn i true ∈ tr → ∃ value, .inserted i value ∈ tr) ∧
    (∀ t strategy value token s' evs tr' s'',
      ((channel α capacity).machine τ).step s (.call t (.emplace strategy value token)) = some (s', evs) →
      ((channel α capacity).machine τ).Exec Machine.Any s' tr' s'' →
      (insertedBy s.calls tr' = [] ∨ insertedBy s.calls tr' = [value]) ∧
        (.emplaceReturn s.calls true ∈ tr' → insertedBy s.calls tr' = [value])) ∧
    ∀ i strategy value, .readReturn i strategy (.ok value) ∈ tr → .removed i value ∈ tr := by
  obtain ⟨hfifo, hcap⟩ := fifo_of_exec h
  refine ⟨hfifo, hcap, ?_, ?_, ?_, ?_, ?_, ?_, ?_⟩
  · intro i a s' evs hi hs
    exact ((step_fifo h (Monitor.moves_of_step hs)).2.2 (completed_of_exec h hi)).2
  · intro a s' evs e hs he hr
    have hm := Monitor.moves_of_step hs
    obtain ⟨hc, hq, hq'⟩ := empty_of_report h hm he hr
    refine ⟨hc, by rw [← hfifo, hq, List.append_nil], ?_⟩
    intro tr' s'' h'
    have hc' := ((step_fifo h hm).2.2 hc).1
    exact (drained_of_exec (h.snoc trivial hs) hc' hq' h').2
  · intro a s' evs e hs he hend
    obtain ⟨t, z, l, -, -, -, -, -, hq⟩ := quiet_of_step h (Monitor.moves_of_step hs) he hend
    exact hq
  · intro i e he hi
    exact ((changesRecorded_of_exec h).failed e he i hi).2.1
  · intro i hi
    exact (delivered_of_exec h (.inl hi)).1 i rfl
  · intro t strategy value token s' evs tr' s'' hs h'
    have hI := inserting_of_exec h hs h'
    refine ⟨hI.once, ?_⟩
    intro hret
    have hrun := (h.snoc trivial hs).trans h'
    obtain ⟨value', hmem⟩ := (delivered_of_exec hrun (.inl (List.mem_append_right _ hret))).1 _ rfl
    -- nothing was inserted under this number before the call
    have hbehind : .inserted s.calls value' ∈ tr' := by
      refine (List.mem_append.1 hmem).resolve_left ?_
      intro hbefore
      have hnone : evs = [] := by
        cases Monitor.moves_of_step hs <;> rfl
      rw [hnone, List.append_nil] at hbefore
      exact absurd ((changesRecorded_of_exec h).made _ hbefore s.calls rfl) (Nat.lt_irrefl _)
    rcases hI.once with hnil | hvalue
    · rw [← mem_insertedBy, hnil] at hbehind
      cases hbehind
    · exact hvalue
  · intro i strategy value hi
    exact (delivered_of_exec h (.inl hi)).2 i strategy value rfl

/-- Thread `0` puts a value into a channel of capacity `2`. -/
def pushFive : List (ChannelAction (Fin 2) Nat) := [.call 0 (.emplace .WAIT 5 none), .run 0 false, .run 0 false, .run 0 false]

/-- In its call thread `1` puts a second value in and then completes the writer; thread `0` takes both values and finds
nothing more. -/
def drainAfterCompletion : List (ChannelAction (Fin 2) Nat) :=
  [.run 1 false, .run 1 false, .run 1 false,
    .call 0 (.read .WAIT none), .run 0 false, .run 0 false, .run 0 false,
    .call 1 .completeWriter, .run 1 false, .run 1 false, .notify 1 none, .notify 1 none,
    .call 0 (.read .WAIT none), .run 0 false, .run 0 false, .run 0 false,
    .call 0 (.read .WAIT none), .run 0 false, .run 0 false, .run 0 false]

theorem channel_fifo_drainAfterCompletion :
    ∃ tr tr' evs, ∃ s s' s'' : ChannelState (Fin 2) Nat,
      ((channel Nat 2).machine (Fin 2)).Exec Machine.Any (State.init .new) tr s ∧
      ((channel Nat 2).machine (Fin 2)).step s (.call 1 (.emplace .WAIT 7 none)) = some (s', evs) ∧
      ((channel Nat 2).machine (Fin 2)).Exec Machine.Any s' tr' s'' ∧
      removedValues tr' = [5, 7] ∧ tr'.any ChannelEvent.reportsEmpty = true ∧ insertedBy s.calls tr' = [7] ∧
      removedValues (tr ++ evs ++ tr') ++ s''.shared.queue = insertedValues (tr ++ evs ++ tr') := by
  obtain ⟨tr, s, s', evs, h, hs, hc⟩ := Machine.exists_step_of_run ((channel Nat 2).machine (Fin 2)) Machine.Any
    (State.init .new) (fun _ _ => true) pushFive (.call 1 (.emplace .WAIT 7 none))
    (fun _ s s' _ => (((channel Nat 2).machine (Fin 2)).run (fun _ _ => true) s' drainAfterCompletion).any
      fun (x : List (ChannelEvent Nat) × ChannelState (Fin 2) Nat) => decide (removedValues x.1 = [5, 7] ∧
        x.1.any ChannelEvent.reportsEmpty = true ∧ insertedBy s.calls x.1 ≠ []))
    (fun _ _ _ => trivial) (by decide)
  rw [Option.any_eq_true] at hc
  obtain ⟨⟨tr', s''⟩, hr, hc⟩ := hc
  obtain ⟨hvalues, hempty, hne⟩ := of_decide_eq_true hc
  have h' : ((channel Nat 2).machine (Fin 2)).Exec Machine.Any s' tr' s'' := Machine.exec_of_run (fun _ _ _ => trivial) hr
  obtain ⟨hinserted, -⟩ := (channel_fifo h).2.2.2.2.2.2.2.1 1 .WAIT 7 none s' evs tr' s'' hs h'
  exact ⟨tr, tr', evs, s, s', s'', h, hs, h', hvalues, hempty, hinserted.resolve_left hne,
    (channel_fifo ((h.snoc trivial hs).trans h')).1⟩

end Xtd
