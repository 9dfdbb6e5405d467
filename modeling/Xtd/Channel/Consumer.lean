import Xtd.Channel.Shutdown
import Xtd.Concurrency.Joining

/-!
# The only reader of a channel

A thread that goes through `read_all` and does something with every value, while no other thread reads: what it has done
in any state of any run, and how it ends once the writer is completed.
-/

namespace Xtd

open Concurrency

variable {α β τ : Type} {capacity : Nat}

/-- The thread of a loop over `read_all`: whether it has ended, and what it has made of the values. -/
structure ForEach (β : Type) where
  ended : Bool
  result : β

/-- `for (value : reader.read_all(token)) f(value)`, where `f` changes a state. -/
def forEach (f : β → α → β) (token : Option Nat) : Client (ForEach β) (ChannelOp α) (ChannelEvent α) where
  call g := if g.ended then none else some (.readAll token)
  see
    | g, .removed _ value => { g with result := f g.result value }
    | g, .readAllReturn _ _ => { g with ended := true }
    | g, _ => g

def ChannelOp.reads : ChannelOp α → Bool
  | read _ _ | readAll _ | waitToRead _ => true
  | _ => false

def ChannelLocal.reads : ChannelLocal α → Bool
  | readAllTop _ _ | readTop _ _ _ | readAfterWait _ _ _ | readCheck _ _ _ | tryRead _ => true
  | _ => false

/-! ### Pieces -/

section Pieces

variable {c : Channel α} {l : ChannelLocal α} {stop seen : Bool}

/-- A call that does not read takes no value, and goes on without reading. -/
theorem removedValues_of_not_reads (capacity : Nat) (hl : l.reads = false) :
    removedValues ((channel α capacity).exec l c stop seen).events = [] ∧
      ∀ l', ((channel α capacity).exec l c stop seen).next.local? = some l' → l'.reads = false := by
  have hm := channel_moves capacity l c stop seen
  generalize (channel α capacity).exec l c stop seen = r at hm
  cases hm with
  | emplaceWait => exact ⟨rfl, fun l' h => by cases h; rfl⟩
  | emplaceGo => exact ⟨rfl, fun l' h => by cases h; rfl⟩
  | emplaceFail => exact ⟨rfl, fun l' h => by cases h⟩
  | insert => exact ⟨rfl, fun l' h => by cases h⟩
  | completeWriter => exact ⟨rfl, fun l' h => by cases h⟩
  | size => exact ⟨rfl, fun l' h => by cases h⟩
  | readCancelled hat => cases hat <;> cases hl
  | readEmpty hat => cases hat <;> cases hl
  | take hat => cases hat <;> cases hl
  | mayRead hat => cases hat <;> cases hl
  | _ => cases hl

/-- How a piece of `read_all` goes on: with the same token, or it returns. -/
theorem next_of_isReadAll (capacity : Nat) (hl : l.isReadAll = true) :
    (∃ l', ((channel α capacity).exec l c stop seen).next.local? = some l' ∧ l'.isReadAll = true ∧ l'.token = l.token) ∨
      ∃ error, ((channel α capacity).exec l c stop seen).next = .release [] (.done [.readAllReturn l.call error]) ∧
        (stop = true ∨ c.queue = [] ∧ l.decides = true) := by
  have hm := channel_moves capacity l c stop seen
  generalize (channel α capacity).exec l c stop seen = r at hm
  cases hm with
  | readAllEnd call token => exact .inr ⟨none, rfl, .inl rfl⟩
  | readAllGo => exact .inl ⟨_, rfl, rfl, rfl⟩
  | readWait call kind => cases kind <;> cases hl; exact .inl ⟨_, rfl, rfl, rfl⟩
  | readGo call kind => cases kind <;> cases hl; exact .inl ⟨_, rfl, rfl, rfl⟩
  | @readCancelled _ call kind token c' hat =>
    obtain ⟨hcall, hkind, -⟩ := hat.call_eq
    rw [hl] at hkind
    obtain rfl : kind = .readAll := of_decide_eq_true hkind.symm
    exact .inr ⟨some .requestCancelled, by rw [hcall]; rfl, .inl rfl⟩
  | @readEmpty _ call kind token c' hat hq =>
    obtain ⟨hcall, hkind, -⟩ := hat.call_eq
    rw [hl] at hkind
    obtain rfl : kind = .readAll := of_decide_eq_true hkind.symm
    exact .inr ⟨some .channelEmpty, by rw [hcall]; rfl, .inr ⟨hq, by cases hat <;> rfl⟩⟩
  | take hat hq hk =>
    obtain ⟨hcall, hkind, -⟩ := hat.call_eq
    rw [hl] at hkind
    cases hk with
    | read => cases hkind
    | readAll => exact .inl ⟨_, rfl, rfl, by cases hat <;> rfl⟩
  | mayRead hat => cases hat <;> cases hl
  | emplaceFail hat => cases hat <;> cases hl
  | insert hat => cases hat <;> cases hl
  | _ => cases hl

/-- A piece of `read_all` inserts nothing. -/
theorem pushes_of_isReadAll (capacity : Nat) (hl : l.isReadAll = true) :
    insertedValues ((channel α capacity).exec l c stop seen).events = [] ∧
      ∀ i ok, .emplaceReturn i ok ∉ ((channel α capacity).exec l c stop seen).events ++
        ((channel α capacity).exec l c stop seen).next.doneEvents := by
  have hsh := channel_shows capacity l c stop seen
  generalize (channel α capacity).exec l c stop seen = r at hsh
  cases hsh with
  | inserted value _ _ hnot => rw [hl] at hnot; cases hnot
  | removed value he _ _ hd =>
    rw [he]
    refine ⟨rfl, ?_⟩
    rcases hd with ⟨-, hd⟩ | ⟨strategy, hd⟩ <;> simp [hd]
  | completed he hd => simp [he, hd, insertedValues, ChannelEvent.insertedValues]
  | nothing he hd =>
    rw [he]
    refine ⟨rfl, ?_⟩
    intro i ok hmem
    cases hd _ hmem with
    | fails e h hnot => rw [hl] at hnot; cases hnot

end Pieces

/-! ### Runs -/

variable [DecidableEq τ] [Fintype τ]

/-- The thread `w` runs the loop; no other thread reads. -/
def Consuming (f : β → α → β) (token : Option Nat) (w : τ) (x : ForEach β × ChannelState τ α)
    (a : ChannelAction τ α) : Prop :=
  (forEach f token).Follows w x a ∧ ∀ t op, a = .call t op → t ≠ w → op.reads = false

/-- What holds in a run with a loop over `read_all`. -/
structure Looped (f : β → α → β) (token : Option Nat) (b : β) (w : τ) (tr : List (ChannelEvent α))
    (x : ForEach β × ChannelState τ α) : Prop where
  others : ∀ t l, t ≠ w → (x.2.phase t).local? = some l → l.reads = false
  place : ∀ l, (x.2.phase w).local? = some l → l.isReadAll = true ∧ l.token = token
  result : x.1.result = (removedValues tr).foldl f b
  ended : x.1.ended = true → x.2.stop token = true ∨ x.2.shared.writerCompleted = true ∧ x.2.shared.queue = []

variable {f : β → α → β} {token : Option Nat} {b : β} {w : τ} {tr evs : List (ChannelEvent α)}
  {x x' : ForEach β × ChannelState τ α} {a : ChannelAction τ α}

omit [DecidableEq τ] [Fintype τ] in
private theorem result_foldl (g : ForEach β) (evs : List (ChannelEvent α)) :
    (evs.foldl (forEach f token).see g).result = (removedValues evs).foldl f g.result := by
  induction evs generalizing g with
  | nil => rfl
  | cons e evs ih =>
    have hcons : removedValues (e :: evs) = removedValues [e] ++ removedValues evs := by
      rw [← removedValues_append, List.singleton_append]
    rw [List.foldl_cons, ih, hcons, List.foldl_append]
    cases e <;> rfl

omit [DecidableEq τ] [Fintype τ] in
private theorem ended_foldl {g : ForEach β} {evs : List (ChannelEvent α)}
    (h : (evs.foldl (forEach f token).see g).ended = true) :
    g.ended = true ∨ ∃ i error, .readAllReturn i error ∈ evs := by
  induction evs generalizing g with
  | nil => exact .inl h
  | cons e evs ih =>
    rcases ih h with h | ⟨i, error, hmem⟩
    · cases e with
      | readAllReturn i error => exact .inr ⟨i, error, List.mem_cons_self ..⟩
      | _ => exact .inl h
    · exact .inr ⟨i, error, List.mem_cons_of_mem _ hmem⟩

omit [DecidableEq τ] [Fintype τ] in
private theorem ended_of_mem {g : ForEach β} {evs : List (ChannelEvent α)} {i : Nat} {error : Option ChannelReadErrors}
    (h : .readAllReturn i error ∈ evs) : (evs.foldl (forEach f token).see g).ended = true := by
  have hmono : ∀ (evs : List (ChannelEvent α)) (g : ForEach β), g.ended = true →
      (evs.foldl (forEach f token).see g).ended = true := by
    intro evs
    induction evs with
    | nil => exact fun g hg => hg
    | cons e evs ih =>
      intro g hg
      refine ih _ ?_
      cases e <;> first | exact hg | rfl
  obtain ⟨l₁, l₂, rfl⟩ := List.append_of_mem h
  rw [List.foldl_append, List.foldl_cons]
  exact hmono l₂ _ rfl

private theorem reads_enter {op : ChannelOp α} (h : op.reads = false) (n : Nat) : (op.enter n).reads = false := by
  cases op with
  | read => cases h
  | readAll => cases h
  | waitToRead => cases h
  | _ => rfl

/-- Where `read_all` returns. -/
private theorem return_of_step (h : ((channel α capacity).machine τ).Exec Machine.Any (State.init .new) tr x.2)
    (hm : (channel α capacity).Moves x.2 a x'.2 evs) {i : Nat} {error : Option ChannelReadErrors}
    (he : .readAllReturn i error ∈ evs) :
    ∃ t z l, a = .run t z ∧ x.2.phase t = .locked l ∧
      .readAllReturn i error ∈ ((channel α capacity).piece x.2 l z).next.doneEvents := by
  rcases hm.mem_events he with ⟨t, op, -, he⟩ | ⟨t, z, l, ha, hl, he⟩ | ⟨t, he⟩
  · cases he
  · refine ⟨t, z, l, ha, hl, ?_⟩
    rcases he with he | he
    · -- a piece itself shows only changes of the queue and the completion
      have hsh := channel_shows capacity l x.2.shared (x.2.stop ((channel α capacity).token l)) z
      change Shows capacity x.2.shared l _ ((channel α capacity).piece x.2 l z) at hsh
      cases hsh with
      | inserted value _ _ _ hev => rw [hev] at he; cases List.mem_singleton.1 he
      | removed value hev => rw [hev] at he; cases List.mem_singleton.1 he
      | completed hev => rw [hev] at he; cases List.mem_singleton.1 he
      | nothing hev => rw [hev] at he; cases he
    · exact he
  · rcases Monitor.doneEvents_of_exec h
      (fun l y stop z n ns k hn e he => (channel_shows capacity l y stop z).succeeds hn he) t _ he with
      ⟨_, he⟩ | ⟨_, _, _, he⟩ <;> cases he

private theorem Looped.others_step (hC : Looped f token b w tr x) (hok : Consuming f token w x a)
    (hm : (channel α capacity).Moves x.2 a x'.2 evs) {t : τ} {l : ChannelLocal α} (ht : t ≠ w)
    (hl : (x'.2.phase t).local? = some l) : l.reads = false := by
  rcases hm.local_eq hl with ⟨hl, -⟩ | ⟨op, rfl, he⟩ | ⟨z, l₀, -, hl₀, hn⟩
  · exact hC.others t l ht hl
  · rw [← Option.some.inj he]
    exact reads_enter (hok.2 t op rfl ht) _
  · exact (removedValues_of_not_reads capacity (hC.others t l₀ ht (Monitor.local?_of_locked hl₀))).2 l hn

omit [DecidableEq τ] [Fintype τ] in
private theorem call_eq_readAll {op : ChannelOp α} (hok : Consuming f token w x (.call w op)) : op = .readAll token := by
  have hcall : (forEach f token).call x.1 = some op := hok.1 op rfl
  simp only [forEach] at hcall
  split at hcall
  · cases hcall
  · exact (Option.some.inj hcall).symm

private theorem Looped.place_step (hC : Looped f token b w tr x) (hok : Consuming f token w x a)
    (hm : (channel α capacity).Moves x.2 a x'.2 evs) {l : ChannelLocal α} (hl : (x'.2.phase w).local? = some l) :
    l.isReadAll = true ∧ l.token = token := by
  rcases hm.local_eq hl with ⟨hl, -⟩ | ⟨op, rfl, he⟩ | ⟨z, l₀, -, hl₀, hn⟩
  · exact hC.place l hl
  · obtain rfl := call_eq_readAll hok
    rw [← Option.some.inj he]
    exact ⟨rfl, rfl⟩
  · obtain ⟨hall, htoken⟩ := hC.place l₀ (Monitor.local?_of_locked hl₀)
    rcases next_of_isReadAll capacity hall with ⟨l', hn', hall', htoken'⟩ | ⟨error, hn', -⟩
    · have hll : some l = some l' := hn.symm.trans hn'
      rw [Option.some.inj hll]
      exact ⟨hall', htoken'.trans htoken⟩
    · have hnone : ((channel α capacity).piece x.2 l₀ z).next.local? = none := congrArg Next.local? hn'
      rw [hn] at hnone
      cases hnone

/-- The step of the loop that ends it. -/
private theorem Looped.ended_step (h : ((channel α capacity).machine τ).Exec Machine.Any (State.init .new) tr x.2)
    (hC : Looped f token b w tr x) (hm : (channel α capacity).Moves x.2 a x'.2 evs) {i : Nat}
    {error : Option ChannelReadErrors} (ha : a.thread = some w) (he : .readAllReturn i error ∈ evs) :
    x'.2.stop token = true ∨ x'.2.shared.writerCompleted = true ∧ x'.2.shared.queue = [] := by
  obtain ⟨t, z, l, rfl, hl, hdone⟩ := return_of_step h hm he
  obtain rfl : t = w := Option.some.inj ha
  obtain ⟨hall, htoken⟩ := hC.place l (Monitor.local?_of_locked hl)
  rcases next_of_isReadAll capacity hall with ⟨l', hn, -⟩ | ⟨error', hn, hend⟩
  · have hnone := Monitor.local?_of_mem_doneEvents hdone
    exact absurd (hnone.symm.trans hn) (by simp)
  · rcases hend with hstop | ⟨hq, hdec⟩
    · left
      rw [← htoken]
      exact hm.stop_mono hstop
    · rcases canRead_of_decides h hl hdec with hstop | hread
      · left
        rw [← htoken]
        exact hm.stop_mono hstop
      · -- the queue is empty, so the writer is completed
        have hc : x.2.shared.writerCompleted = true := by simpa [Channel.canRead, hq] using hread
        obtain ⟨hfifo, -, hmono⟩ := step_fifo h hm
        obtain ⟨hc', hins⟩ := hmono hc
        rw [hq, hins, List.append_nil, List.append_eq_nil_iff] at hfifo
        exact .inr ⟨hc', hfifo.2⟩

theorem looped_of_exec (h : ((forEach f token).machine (channel α capacity) w).Exec (Consuming f token w)
    (⟨false, b⟩, State.init .new) tr x) : Looped f token b w tr x := by
  induction h with
  | nil => exact ⟨nofun, nofun, rfl, nofun⟩
  | @snoc tr evs x x' a h hok hs ih =>
    obtain ⟨hm, hnext⟩ := Client.moves_of_step hs
    have hrun := Client.exec_monitor Machine.Any h (fun _ _ _ => trivial)
    refine ⟨fun t l ht hl => ih.others_step hok hm ht hl, fun l hl => ih.place_step hok hm hl, ?_, ?_⟩
    · rw [removedValues_append, List.foldl_append, ← ih.result, hnext]
      by_cases ha : a.thread = some w
      · rw [if_pos ha, result_foldl]
      · have hnone : removedValues evs = [] := by
          rcases values_of_step hrun hm with ⟨-, -, hr⟩ | ⟨t, z, l, rfl, hl, -, -, hr⟩
          · exact hr
          · have ht : t ≠ w := fun e => ha (congrArg some e)
            rw [hr]
            exact (removedValues_of_not_reads capacity (ih.others t l ht (Monitor.local?_of_locked hl))).1
        rw [if_neg ha, hnone]
        rfl
    · intro hend
      have hkept : x.1.ended = true → x'.2.stop token = true ∨
          x'.2.shared.writerCompleted = true ∧ x'.2.shared.queue = [] := by
        intro hend
        rcases ih.ended hend with hstop | ⟨hc, hq⟩
        · exact .inl (hm.stop_mono hstop)
        · obtain ⟨hfifo, -, hmono⟩ := step_fifo hrun hm
          obtain ⟨hc', hins⟩ := hmono hc
          rw [hq, hins, List.append_nil, List.append_eq_nil_iff] at hfifo
          exact .inr ⟨hc', hfifo.2⟩
      rw [hnext] at hend
      by_cases ha : a.thread = some w
      · rw [if_pos ha] at hend
        rcases ended_foldl hend with hend | ⟨i, error, hmem⟩
        · exact hkept hend
        · exact ih.ended_step hrun hm ha hmem
      · rw [if_neg ha] at hend
        exact hkept hend

/-- What the loop has done with the values inserted: a beginning of them, and all when it has ended without a stop
request. -/
theorem consumed_inserted (h : ((forEach f token).machine (channel α capacity) w).Exec (Consuming f token w)
    (⟨false, b⟩, State.init .new) tr x) :
    ∃ values, values <+: insertedValues tr ∧ x.1.result = values.foldl f b ∧
      (x.1.ended = true → x.2.stop token = false → x.2.shared.writerCompleted = true ∧ values = insertedValues tr) := by
  have hC := looped_of_exec h
  have hrun := Client.exec_monitor Machine.Any h (fun _ _ _ => trivial)
  have hfifo := (fifo_of_exec hrun).1
  refine ⟨removedValues tr, ⟨x.2.shared.queue, hfifo⟩, hC.result, ?_⟩
  intro hend hstop
  rcases hC.ended hend with hstop' | ⟨hc, hq⟩
  · rw [hstop] at hstop'
    cases hstop'
  · rw [hq, List.append_nil] at hfifo
    exact ⟨hc, hfifo⟩

/-! ### The end of the loop -/

/-- Nothing is inserted behind the completion of the writer. -/
theorem insertedValues_of_completed {s s' : ChannelState τ α} {tr' : List (ChannelEvent α)}
    (h : ((channel α capacity).machine τ).Exec Machine.Any (State.init .new) tr s)
    (hc : s.shared.writerCompleted = true) (h' : ((channel α capacity).machine τ).Exec Machine.Any s tr' s') :
    s'.shared.writerCompleted = true ∧ insertedValues tr' = [] := by
  induction h' with
  | nil => exact ⟨hc, rfl⟩
  | snoc h' _ hs ih =>
    obtain ⟨hc', hnil⟩ := ih
    obtain ⟨-, -, hmono⟩ := step_fifo (h.trans h') (Monitor.moves_of_step hs)
    obtain ⟨hc'', hevs⟩ := hmono hc'
    exact ⟨hc'', by rw [insertedValues_append, hnil, hevs]; rfl⟩

omit [DecidableEq τ] [Fintype τ] in
theorem Consuming.of_only (h : (forEach f token).Only w x a) : Consuming f token w x a :=
  ⟨h.1, fun t op ha ht => absurd (h.2 t op ha) ht⟩

/-- The loop calls once. -/
theorem forEach_pays (capacity : Nat) (f : β → α → β) (token : Option Nat) (price : Nat) :
    (forEach f token).Pays (channel α capacity) (fun c => c.writerCompleted = true) (Channel.cost 5) ChannelLocal.rank
      (fun _ l => l.isReadAll = true) price (fun g => if g.ended then 0 else 5 + price) (fun _ => 0) where
  enter g op n hcall := by
    simp only [forEach] at hcall
    split at hcall
    · cases hcall
    · rename_i hrunning
      cases hcall
      refine ⟨.readAllTop n token, rfl, rfl, ?_⟩
      rw [if_neg hrunning]
      exact Nat.le_refl _
  stays g l c stop z l' hall hn := (channel_call l stop z l' hn).2.trans hall
  piece g l c stop z hc hall := by
    have hlt := (channel_ranking α capacity (Nat.le_refl 5)).piece_lt hc l stop z
    rcases next_of_isReadAll capacity hall with ⟨l', hn, -⟩ | ⟨error, hn, -⟩
    · rw [hn]
      exact hlt
    · have hended : ((forEach f token).after g ((channel α capacity).exec l c stop z)).ended = true := by
        have hmem : .readAllReturn l.call error ∈ ((channel α capacity).exec l c stop z).next.doneEvents := by
          rw [hn]
          exact List.mem_singleton.2 rfl
        exact ended_of_mem (List.mem_append_right _ hmem)
      have hcredit : Client.credit (fun g : ForEach β => if g.ended then 0 else 5 + price) (fun _ => 0)
          ((channel α capacity).exec l c stop z).next.local?
          ((forEach f token).after g ((channel α capacity).exec l c stop z)) = 0 := by
        rw [hn]
        exact if_pos hended
      rw [hcredit]
      exact hlt

/-- How the loop ends.  Once the writer is completed, in every run in which no thread but that of the loop makes another
call, the loop makes one call at most, and the calls take no more steps than the bound says; and when nobody has a step
left the loop has ended, every call has returned, and without a stop request everything inserted has been dealt with. -/
theorem consumer_shutdown {as : List (ChannelAction τ α)}
    (h : ((forEach f token).machine (channel α capacity) w).Exec (Consuming f token w) (⟨false, b⟩, State.init .new) tr x)
    (hc : x.2.shared.writerCompleted = true)
    (hp : ((forEach f token).machine (channel α capacity) w).Path ((forEach f token).Only w) x as x') :
    as.countP Action.goesOn ≤ 5 * x.2.shared.queue.length + ∑ t, (x.2.phase t).steps ChannelLocal.rank + 5 ∧
    as.countP Action.isCall ≤ 1 ∧
    ((∀ t a, a.Own t ∨ (∃ op, a = .call t op) → (forEach f token).Only w x' a →
        ((forEach f token).machine (channel α capacity) w).step x' a = none) →
      x'.1.ended = true ∧ (∀ t, x'.2.phase t = .outside) ∧
        (x'.2.stop token = false → x'.1.result = (insertedValues tr).foldl f b)) := by
  have hC := looped_of_exec h
  have hpath := fun price => (forEach_pays capacity f token price).path_length_le
    (channel_ranking α capacity (Nat.le_refl 5)) hc (fun l hl => (hC.place l hl).1) hp
  have hc' : x'.2.shared.writerCompleted = true := (hpath 0).1
  have hbound : ∀ price, as.countP Action.goesOn + price * as.countP Action.isCall ≤
      5 * x.2.shared.queue.length + ∑ t, (x.2.phase t).steps ChannelLocal.rank + 5 + price * 1 := by
    intro price
    obtain ⟨-, -, hle⟩ := hpath price
    have hcredit : Client.credit (fun g : ForEach β => if g.ended then 0 else 5 + price) (fun _ => 0)
        (x.2.phase w).local? ((forEach f token).ahead w x) ≤ 5 + price := by
      unfold Client.credit
      split
      · exact Nat.zero_le _
      · dsimp only
        split <;> omega
    unfold Client.workLeft Monitor.work Channel.cost at hle
    omega
  refine ⟨by simpa using hbound 0, Client.le_of_forall_price hbound, ?_⟩
  intro hstuck
  obtain ⟨tr', htr'⟩ := hp.exec
  have hrun := h.trans (htr'.mono fun _ _ hok => Consuming.of_only hok)
  have hmon := Client.exec_monitor Machine.Any hrun (fun _ _ _ => trivial)
  obtain ⟨hout, hcall⟩ := Client.rests_of_stuck (M := channel α capacity) (Monitor.exclusive_of_exec hmon)
    (fun v cv l hv => sendsAll_of_completed hmon hc' hv) hstuck
  have hend : x'.1.ended = true := by
    by_contra hrunning
    have hsome : (forEach f token).call x'.1 = some (.readAll token) := if_neg hrunning
    rw [hcall] at hsome
    cases hsome
  refine ⟨hend, hout, ?_⟩
  intro hstop
  obtain ⟨values, -, hresult, hall⟩ := consumed_inserted hrun
  have hsame : insertedValues tr' = [] :=
    (insertedValues_of_completed (Client.exec_monitor Machine.Any h (fun _ _ _ => trivial)) hc
      (Client.exec_monitor Machine.Any htr' (fun _ _ _ => trivial))).2
  rw [hresult, (hall hend hstop).2, insertedValues_append, hsame, List.append_nil]

end Xtd
