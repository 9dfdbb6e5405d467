import Xtd.Concurrency.Termination
import Xtd.Channel.Fifo

/-!
# Shutdown of the channel

Once the writer is completed nobody waits any more.  Every step of a call then brings the calls under way closer to their
end, also when `read_all` goes on to take what is left in the queue, and none of them gets stuck.
-/

namespace Xtd

open Concurrency

variable {α τ : Type} [DecidableEq τ] [Fintype τ] {capacity : Nat}

/-- The pieces a call has still to execute once the writer is completed, with room for its notifications. -/
def ChannelLocal.rank : ChannelLocal α → Nat
  | emplaceTop _ .WAIT _ _ => 3
  | emplaceTop _ .TRY _ _ | emplaceAfterWait _ _ _ | emplaceCheck _ _ _ => 2
  | readAllTop _ _ => 4
  | readTop _ _ _ => 3
  | readAfterWait _ _ _ | readCheck _ _ _ | tryRead _ => 2
  | completeWriter _ => 3
  | size _ => 1

/-- What the queue costs, if every value brings a turn of so many steps. -/
def Channel.cost (turn : Nat) (c : Channel α) : Nat := turn * c.queue.length

private theorem rank_of_emplaceAt {c c' : Channel α} {l : ChannelLocal α} {call : Nat} {value : α} (turn : Nat)
    (h : EmplaceAt c l call value c') : l.rank = 2 ∧ c'.cost turn = c.cost turn := by
  cases h <;> exact ⟨rfl, rfl⟩

private theorem rank_of_readAt {c c' : Channel α} {l : ChannelLocal α} {call : Nat} {kind : Reading}
    {token : Option Nat} (turn : Nat) (h : ReadAt c l call kind token c') :
    l.rank = 2 ∧ c'.cost turn = c.cost turn := by
  cases h <;> exact ⟨rfl, rfl⟩

/-- What a piece costs that takes a value. -/
theorem cost_remove (turn : Nat) (c : Channel α) (call : Nat) (value : α) (rest : List α)
    (k : After (ChannelLocal α) (ChannelEvent α)) :
    (c.remove call value rest k).shared.cost turn = turn * rest.length ∧
      ∃ ns, (c.remove call value rest k).next = .release ns k ∧ ns.length ≤ 1 := by
  refine ⟨rfl, _, rfl, ?_⟩
  split <;> simp

/-- What a piece leaves to do, in a channel whose writer is completed. -/
private theorem piece_cost {turn : Nat} (hturn : 5 ≤ turn) (l : ChannelLocal α) (c : Channel α) (stop seen : Bool)
    (hc : c.writerCompleted = true) :
    let r := (channel α capacity).exec l c stop seen
    (∃ l', r.next = .hold l' ∧ r.shared.cost turn + l'.rank < c.cost turn + l.rank) ∨
      ∃ ns k, r.next = .release ns k ∧ r.shared.cost turn + (ns.length + k.steps ChannelLocal.rank) < c.cost turn + l.rank := by
  have hm := channel_moves capacity l c stop seen
  dsimp only
  generalize (channel α capacity).exec l c stop seen = r at hm ⊢
  cases hm with
  | emplaceWait call value token hc' => rw [hc] at hc'; cases hc'
  | readWait call kind token hc' => rw [hc] at hc'; cases hc'
  | insert hl hc' => rw [hc] at hc'; cases hc'
  | emplaceGo => exact .inl ⟨_, rfl, by simp [ChannelLocal.rank]⟩
  | readAllGo => exact .inl ⟨_, rfl, by simp [ChannelLocal.rank]⟩
  | readGo => exact .inl ⟨_, rfl, by simp [ChannelLocal.rank]⟩
  | emplaceFail hl =>
    obtain ⟨hr, hcost⟩ := rank_of_emplaceAt turn hl
    exact .inr ⟨_, _, rfl, by simp [hr, hcost, After.steps]⟩
  | readAllEnd => exact .inr ⟨_, _, rfl, by simp [ChannelLocal.rank, After.steps]⟩
  | readCancelled hl =>
    obtain ⟨hr, hcost⟩ := rank_of_readAt turn hl
    obtain ⟨e, he, -⟩ := readFails_cases _ _ _ _
    rw [he]
    exact .inr ⟨_, _, rfl, by simp [hr, hcost, After.steps]⟩
  | readEmpty hl hq =>
    obtain ⟨hr, hcost⟩ := rank_of_readAt turn hl
    obtain ⟨e, he, -⟩ := readFails_cases _ _ _ _
    rw [he]
    exact .inr ⟨_, _, rfl, by simp [hr, hcost, After.steps]⟩
  | @take _ call kind token c' value rest k hl hq hk =>
    obtain ⟨hr, -⟩ := rank_of_readAt turn hl
    obtain ⟨hcost, ns, hn, hlen⟩ := cost_remove turn c' call value rest k
    have hold : c.cost turn = turn * rest.length + turn := by rw [Channel.cost, hq, List.length_cons, Nat.mul_succ]
    refine .inr ⟨ns, k, hn, ?_⟩
    rw [hcost, hold, hr]
    -- the next turn of `read_all` is paid for by the value that was taken
    have hk' : k.steps ChannelLocal.rank ≤ 5 := by cases hk <;> simp [After.steps, ChannelLocal.rank]
    omega
  | mayRead hl =>
    obtain ⟨hr, hcost⟩ := rank_of_readAt turn hl
    exact .inr ⟨_, _, rfl, by simp [hr, hcost, After.steps]⟩
  | tryEmpty => exact .inr ⟨_, _, rfl, by simp [ChannelLocal.rank, After.steps]⟩
  | tryTake call stop value rest hq =>
    obtain ⟨hcost, ns, hn, hlen⟩ := cost_remove turn c call value rest (.done [.readReturn call .TRY (.ok value)])
    have hold : c.cost turn = turn * rest.length + turn := by rw [Channel.cost, hq, List.length_cons, Nat.mul_succ]
    refine .inr ⟨ns, _, hn, ?_⟩
    rw [hcost, hold]
    simp only [After.steps, ChannelLocal.rank]
    omega
  | completeWriter => exact .inr ⟨_, _, rfl, by simp [Channel.completeWriter, Channel.cost, ChannelLocal.rank, After.steps]⟩
  | size => exact .inr ⟨_, _, rfl, by simp [Channel.size, ChannelLocal.rank, After.steps]⟩

theorem channel_ranking (α : Type) (capacity : Nat) {turn : Nat} (hturn : 5 ≤ turn) :
    (channel α capacity).Ranking (fun c => c.writerCompleted = true) (Channel.cost turn) ChannelLocal.rank where
  pred cv l c hc := by
    cases cv with
    | notEmpty =>
      show c.canRead = true
      simp [Channel.canRead, hc]
    | notFull =>
      show c.canWrite capacity = true
      simp [Channel.canWrite, hc]
  keeps l c stop seen hc := ((channel_shows capacity l c stop seen).completed_mono hc).1
  hold l c stop seen l' hc hn := by
    rcases piece_cost hturn l c stop seen hc with ⟨l'', hn', hlt⟩ | ⟨ns, k, hn', -⟩ <;>
      rw [hn] at hn' <;> cases hn'
    exact hlt
  wait l c stop seen cv l' hc hn := by
    rcases piece_cost hturn l c stop seen hc with ⟨l'', hn', -⟩ | ⟨ns, k, hn', -⟩ <;>
      rw [hn] at hn' <;> cases hn'
  release l c stop seen ns k hc hn := by
    rcases piece_cost hturn l c stop seen hc with ⟨l'', hn', -⟩ | ⟨ns', k', hn', hlt⟩ <;>
      rw [hn] at hn' <;> cases hn'
    exact hlt

variable {tr : List (ChannelEvent α)} {s s' : ChannelState τ α} {as : List (ChannelAction τ α)}

/-- Under a completed writer a thread is asleep only until `complete_writer` has sent its notifications. -/
theorem sendsAll_of_completed (h : ((channel α capacity).machine τ).Exec Machine.Any (State.init .new) tr s)
    (hc : s.shared.writerCompleted = true) {t : τ} {cv : ChannelCv} {l : ChannelLocal α}
    (ht : s.phase t = .asleep cv l) : ∃ u, (s.phase u).sendsAll cv := by
  refine Monitor.sendsAll_invariant (F := fun c => c.writerCompleted = true) h nofun
    (fun cv l c hc => (channel_ranking α capacity (Nat.le_refl 5)).pred cv l c hc) ?_ hc ht
  intro l c stop seen hF
  have hsh := channel_shows capacity l c stop seen
  have hm := channel_moves capacity l c stop seen
  generalize (channel α capacity).exec l c stop seen = r at hF hsh hm ⊢
  cases hsh with
  | inserted value _ _ _ _ _ _ hw => exact .inl (hw ▸ hF)
  | removed value _ _ hw => exact .inl (hw ▸ hF)
  | nothing _ _ _ _ hw => exact .inl (hw ▸ hF)
  | completed he =>
    right
    intro cv
    cases hm with
    | completeWriter =>
      cases cv with
      | notEmpty => exact List.mem_cons_self ..
      | notFull => exact List.mem_cons_of_mem _ (List.mem_cons_self ..)
    | readCancelled => obtain ⟨e, he', -⟩ := readFails_cases _ _ _ _; rw [he'] at he; cases he
    | readEmpty => obtain ⟨e, he', -⟩ := readFails_cases _ _ _ _; rw [he'] at he; cases he
    | _ => cases he

/-- No thread makes another call. -/
def NoCalls (_ : ChannelState τ α) (a : ChannelAction τ α) : Prop := ∀ t op, a ≠ .call t op

/-- The channel shuts down.  From every reachable state in which the writer is completed, whatever the schedule, the
wake-ups for no reason and the stop requests: without new calls the calls under way take no more steps than the bound
says, and when none of them has a step left every call has returned. -/
theorem channel_shutdown (h : ((channel α capacity).machine τ).Exec Machine.Any (State.init .new) tr s)
    (hc : s.shared.writerCompleted = true) (hp : ((channel α capacity).machine τ).Path NoCalls s as s') :
    as.countP Action.goesOn ≤ 5 * s.shared.queue.length + ∑ t, (s.phase t).steps ChannelLocal.rank ∧
    ((∀ t a, a.Own t → ((channel α capacity).machine τ).step s' a = none) → ∀ t, s'.phase t = .outside) := by
  obtain ⟨hc', hle⟩ := (channel_ranking α capacity (Nat.le_refl 5)).path_length_le hc hp
  refine ⟨Nat.le_trans (Nat.le_add_right _ _) hle, ?_⟩
  intro hstuck t
  obtain ⟨tr', h'⟩ := hp.exec
  have hrun := h.trans (h'.mono (fun _ _ _ => trivial))
  by_contra ht
  obtain ⟨u, a, ha, s'', evs, hm⟩ := Monitor.exists_own_move (M := channel α capacity) (Monitor.exclusive_of_exec hrun) ht
    (fun v cv l hv => sendsAll_of_completed hrun hc' hv)
  have hnone := hstuck u a ha
  rw [Monitor.step_of_moves hm] at hnone
  cases hnone

/-- Thread `0` sleeps in `read_all`; thread `1` inserts a value, wakes it and completes the writer. -/
def completeBehindReadAll : List (ChannelAction (Fin 2) Nat) :=
  [.call 0 (.readAll none), .run 0 false, .run 0 false, .run 0 false, .run 0 false,
    .call 1 (.emplace .TRY 7 none), .run 1 false, .run 1 false, .notify 1 (some 0),
    .call 1 .completeWriter, .run 1 false, .run 1 false]

/-- Thread `1` sends its notifications, thread `0` takes the value and finds the channel drained. -/
def drainAndReturn : List (ChannelAction (Fin 2) Nat) :=
  [.notify 1 none, .notify 1 none, .run 0 false, .run 0 false, .run 0 false, .run 0 false, .run 0 false, .run 0 false,
    .run 0 false]

private theorem noCalls_of_goesOn (s : ChannelState (Fin 2) Nat) (a : ChannelAction (Fin 2) Nat)
    (h : a.goesOn = true) : NoCalls s a := by
  rintro t op rfl
  cases h

theorem channel_shutdown_drainAndReturn :
    ∃ tr, ∃ s s' : ChannelState (Fin 2) Nat,
      ((channel Nat 0).machine (Fin 2)).Exec Machine.Any (State.init .new) tr s ∧
      s.shared.writerCompleted = true ∧ s.shared.queue = [7] ∧
      ((channel Nat 0).machine (Fin 2)).Path NoCalls s drainAndReturn s' ∧
      9 ≤ 5 * s.shared.queue.length + ∑ t, (s.phase t).steps ChannelLocal.rank ∧ ∀ t, s'.phase t = .outside := by
  obtain ⟨tr, s, h, hc⟩ := Machine.exists_exec_of_run ((channel Nat 0).machine (Fin 2)) Machine.Any (State.init .new)
    (fun _ _ => true) completeBehindReadAll
    (fun _ s => decide (s.shared.writerCompleted = true ∧ s.shared.queue = [7] ∧
      (((channel Nat 0).machine (Fin 2)).run (fun _ a => a.goesOn) s drainAndReturn).any
        (fun x => decide (∀ t, (x.2.phase t).rests = true ∧ (x.2.phase t).local?.isNone)) = true))
    (fun _ _ _ => trivial) (by decide)
  obtain ⟨hw, hq, hrun⟩ := of_decide_eq_true hc
  rw [Option.any_eq_true] at hrun
  obtain ⟨⟨tr', s'⟩, hr, hout⟩ := hrun
  have hp : ((channel Nat 0).machine (Fin 2)).Path NoCalls s drainAndReturn s' := Machine.path_of_run noCalls_of_goesOn hr
  obtain ⟨hle, hend⟩ := channel_shutdown h hw hp
  have houtside : ∀ t, s'.phase t = .outside := fun t =>
    Phase.eq_outside (of_decide_eq_true hout t).1 (of_decide_eq_true hout t).2
  have hstuck : ∀ t a, a.Own t → (channel Nat 0).step s' a = none :=
    fun t a ha => Monitor.step_own_of_outside (houtside t) ha
  exact ⟨tr, s, s', h, hw, hq, hp, hle, hend hstuck⟩

end Xtd
