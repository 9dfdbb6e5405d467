import Xtd.Concurrency.Rules
import Xtd.Channel.Impl

/-!
# The pieces of the channel

Everything a piece of the channel can do, as one case distinction (`ChannelMoves`), and the facts about calls, waits and
waiter counts that follow from it.
-/

namespace Xtd

open Concurrency

variable {α : Type} {capacity : Nat} {c : Channel α}

/-- The places at which `emplace` decides, and the state it decides in. -/
inductive EmplaceAt (c : Channel α) : ChannelLocal α → Nat → α → Channel α → Prop
  | attempt (call : Nat) (value : α) (token : Option Nat) : EmplaceAt c (.emplaceTop call .TRY value token) call value c
  | check (call : Nat) (value : α) (token : Option Nat) : EmplaceAt c (.emplaceCheck call value token) call value c
  | afterWait (call : Nat) (value : α) (token : Option Nat) :
      EmplaceAt c (.emplaceAfterWait call value token) call value { c with writeWaiters := c.writeWaiters - 1 }

/-- The places at which `internal_wait_to_read` decides, and the state it decides in. -/
inductive ReadAt (c : Channel α) : ChannelLocal α → Nat → Reading → Option Nat → Channel α → Prop
  | check (call : Nat) (kind : Reading) (token : Option Nat) : ReadAt c (.readCheck call kind token) call kind token c
  | afterWait (call : Nat) (kind : Reading) (token : Option Nat) :
      ReadAt c (.readAfterWait call kind token) call kind token { c with readWaiters := c.readWaiters - 1 }

/-- What a caller of `internal_wait_to_read` does with a value. -/
inductive TakesOn (call : Nat) (token : Option Nat) (value : α) :
    Reading → After (ChannelLocal α) (ChannelEvent α) → Prop
  | read : TakesOn call token value .read (.done [.readReturn call .WAIT (.ok value)])
  | readAll : TakesOn call token value .readAll (.again (.readAllTop call token))

/-- Everything a piece can do. -/
inductive ChannelMoves (capacity : Nat) (c : Channel α) : ChannelLocal α → Bool → ChannelPiece α → Prop
  | emplaceWait (call : Nat) (value : α) (token : Option Nat) (hc : c.writerCompleted = false)
      (hf : c.full capacity = true) :
      ChannelMoves capacity c (.emplaceTop call .WAIT value token) false
        ⟨{ c with writeWaiters := c.writeWaiters + 1 }, [], .wait .notFull (.emplaceAfterWait call value token)⟩
  | emplaceGo (call : Nat) (value : α) (token : Option Nat) (stop : Bool) :
      ChannelMoves capacity c (.emplaceTop call .WAIT value token) stop
        ⟨c, [], .hold (.emplaceCheck call value token)⟩
  | emplaceFail {l : ChannelLocal α} {call : Nat} {value : α} {c' : Channel α} {stop : Bool}
      (hl : EmplaceAt c l call value c') (h : stop = true ∨ c.writerCompleted = true ∨ c.full capacity = true) :
      ChannelMoves capacity c l stop ⟨c', [], .release [] (.done [.emplaceReturn call false])⟩
  | insert {l : ChannelLocal α} {call : Nat} {value : α} {c' : Channel α} {stop : Bool}
      (hl : EmplaceAt c l call value c') (hc : c.writerCompleted = false) (hf : c.full capacity = false) :
      ChannelMoves capacity c l stop (c'.insert call value)
  | readAllEnd (call : Nat) (token : Option Nat) :
      ChannelMoves capacity c (.readAllTop call token) true ⟨c, [], .release [] (.done [.readAllReturn call none])⟩
  | readAllGo (call : Nat) (token : Option Nat) (stop : Bool) :
      ChannelMoves capacity c (.readAllTop call token) stop ⟨c, [], .hold (.readTop call .readAll token)⟩
  | readWait (call : Nat) (kind : Reading) (token : Option Nat) (hc : c.writerCompleted = false) (hq : c.queue = []) :
      ChannelMoves capacity c (.readTop call kind token) false
        ⟨{ c with readWaiters := c.readWaiters + 1 }, [], .wait .notEmpty (.readAfterWait call kind token)⟩
  | readGo (call : Nat) (kind : Reading) (token : Option Nat) (stop : Bool) (h : stop = true ∨ c.canRead = true) :
      ChannelMoves capacity c (.readTop call kind token) stop ⟨c, [], .hold (.readCheck call kind token)⟩
  | readCancelled {l : ChannelLocal α} {call : Nat} {kind : Reading} {token : Option Nat} {c' : Channel α}
      (hl : ReadAt c l call kind token c') :
      ChannelMoves capacity c l true (c'.readFails call kind .requestCancelled)
  | readEmpty {l : ChannelLocal α} {call : Nat} {kind : Reading} {token : Option Nat} {c' : Channel α}
      (hl : ReadAt c l call kind token c') (hq : c.queue = []) :
      ChannelMoves capacity c l false (c'.readFails call kind .channelEmpty)
  | take {l : ChannelLocal α} {call : Nat} {kind : Reading} {token : Option Nat} {c' : Channel α} {value : α}
      {rest : List α} {k : After (ChannelLocal α) (ChannelEvent α)} (hl : ReadAt c l call kind token c')
      (hq : c.queue = value :: rest) (hk : TakesOn call token value kind k) :
      ChannelMoves capacity c l false (c'.remove call value rest k)
  | mayRead {l : ChannelLocal α} {call : Nat} {token : Option Nat} {c' : Channel α}
      (hl : ReadAt c l call .waitToRead token c') :
      ChannelMoves capacity c l false ⟨c', [], .release [] (.done [.waitReturn call true])⟩
  | tryEmpty (call : Nat) (stop : Bool) (hq : c.queue = []) :
      ChannelMoves capacity c (.tryRead call) stop
        ⟨c, [], .release [] (.done [.readReturn call .TRY (.error .channelEmpty)])⟩
  | tryTake (call : Nat) (stop : Bool) (value : α) (rest : List α) (hq : c.queue = value :: rest) :
      ChannelMoves capacity c (.tryRead call) stop (c.remove call value rest (.done [.readReturn call .TRY (.ok value)]))
  | completeWriter (call : Nat) (stop : Bool) : ChannelMoves capacity c (.completeWriter call) stop (c.completeWriter call)
  | size (call : Nat) (stop : Bool) : ChannelMoves capacity c (.size call) stop (c.size call)

private theorem emplaceCheck_moves {l : ChannelLocal α} {call : Nat} {value : α} {c' : Channel α} (stop : Bool)
    (hl : EmplaceAt c l call value c') (hc : c'.writerCompleted = c.writerCompleted) (hq : c'.queue = c.queue) :
    ChannelMoves capacity c l stop (c'.emplaceCheck capacity call value stop) := by
  have hf : c'.full capacity = c.full capacity := by simp [Channel.full, hq]
  unfold Channel.emplaceCheck
  rw [hc, hf]
  split
  · rename_i h
    simp only [Bool.and_eq_true, Bool.not_eq_true'] at h
    exact .insert hl h.1.2 h.2
  · rename_i h
    refine .emplaceFail hl ?_
    cases stop with
    | true => exact .inl rfl
    | false =>
      right
      cases hcc : c.writerCompleted with
      | true => exact .inl rfl
      | false => right; simpa [hcc] using h

private theorem readCheck_moves {l : ChannelLocal α} {call : Nat} {kind : Reading} {token : Option Nat}
    {c' : Channel α} (stop : Bool) (hl : ReadAt c l call kind token c') (hq : c'.queue = c.queue) :
    ChannelMoves capacity c l stop (c'.readCheck call kind token stop) := by
  unfold Channel.readCheck
  rw [hq]
  cases stop with
  | true => exact .readCancelled hl
  | false =>
    simp only [Bool.false_eq_true, ↓reduceIte]
    cases hcq : c.queue with
    | nil => exact .readEmpty hl hcq
    | cons value rest =>
      cases kind with
      | read => exact .take hl hcq .read
      | readAll => exact .take hl hcq .readAll
      | waitToRead => exact .mayRead hl

/-- Every piece is one of the cases. -/
theorem channel_moves (capacity : Nat) (l : ChannelLocal α) (c : Channel α) (stop seen : Bool) :
    ChannelMoves capacity c l stop ((channel α capacity).exec l c stop seen) := by
  cases l with
  | emplaceTop call strategy value token =>
    show ChannelMoves capacity c _ stop (c.emplaceTop capacity call strategy value token stop)
    unfold Channel.emplaceTop
    cases strategy with
    | WAIT =>
      dsimp only
      split
      · rename_i h
        simp only [Bool.and_eq_true, Bool.not_eq_true'] at h
        obtain ⟨⟨rfl, hc⟩, hf⟩ := h
        exact .emplaceWait call value token hc hf
      · exact .emplaceGo call value token stop
    | TRY =>
      dsimp only
      split
      · rename_i h
        exact .emplaceFail (.attempt call value token) (.inr (by simpa using h))
      · rename_i h
        simp only [Bool.or_eq_true, not_or, Bool.not_eq_true] at h
        exact .insert (.attempt call value token) h.1 h.2
  | emplaceAfterWait call value token => exact emplaceCheck_moves stop (.afterWait call value token) rfl rfl
  | emplaceCheck call value token => exact emplaceCheck_moves stop (.check call value token) rfl rfl
  | readAllTop call token =>
    show ChannelMoves capacity c _ stop (c.readAllTop call token stop seen)
    unfold Channel.readAllTop
    split
    · rename_i h
      simp only [Bool.and_eq_true] at h
      rw [h.1]
      exact .readAllEnd call token
    · exact .readAllGo call token stop
  | readTop call kind token =>
    show ChannelMoves capacity c _ stop (c.readTop call kind token stop)
    unfold Channel.readTop
    split
    · rename_i h
      simp only [Bool.and_eq_true, Bool.not_eq_true', List.isEmpty_iff] at h
      obtain ⟨⟨rfl, hc⟩, hq⟩ := h
      exact .readWait call kind token hc hq
    · rename_i h
      refine .readGo call kind token stop ?_
      cases stop with
      | true => exact .inl rfl
      | false =>
        right
        simp only [Channel.canRead, Bool.or_eq_true]
        cases hcc : c.writerCompleted with
        | true => exact .inl rfl
        | false => right; simpa [hcc] using h
  | readAfterWait call kind token => exact readCheck_moves stop (.afterWait call kind token) rfl
  | readCheck call kind token => exact readCheck_moves stop (.check call kind token) rfl
  | tryRead call =>
    show ChannelMoves capacity c _ stop (c.tryRead call)
    unfold Channel.tryRead
    split
    · rename_i hq
      exact .tryEmpty call stop hq
    · rename_i value rest hq
      exact .tryTake call stop value rest hq
  | completeWriter call => exact .completeWriter call stop
  | size call => exact .size call stop

/-! ### Where the calls are -/

/-- The number of a call under way. -/
def ChannelLocal.call : ChannelLocal α → Nat
  | emplaceTop call _ _ _ | emplaceAfterWait call _ _ | emplaceCheck call _ _ => call
  | readAllTop call _ | readTop call _ _ | readAfterWait call _ _ | readCheck call _ _ => call
  | tryRead call | completeWriter call | size call => call

/-- The call is one of `read_all`, which reads again and again. -/
def ChannelLocal.isReadAll : ChannelLocal α → Bool
  | readAllTop _ _ | readTop _ .readAll _ | readAfterWait _ .readAll _ | readCheck _ .readAll _ => true
  | _ => false

/-- The places at which a call comes to the lock. -/
inductive ChannelLocal.Starts : ChannelLocal α → Prop
  | emplace (call : Nat) (strategy : BlockStrategy) (value : α) (token : Option Nat) :
      Starts (.emplaceTop call strategy value token)
  | readAll (call : Nat) (token : Option Nat) : Starts (.readAllTop call token)
  | read (call : Nat) (kind : Reading) (token : Option Nat) : Starts (.readTop call kind token)
  | tryRead (call : Nat) : Starts (.tryRead call)
  | completeWriter (call : Nat) : Starts (.completeWriter call)
  | size (call : Nat) : Starts (.size call)

/-- The places at which a call waits, and for what. -/
inductive ChannelLocal.Waits : ChannelCv → ChannelLocal α → Prop
  | notFull (call : Nat) (value : α) (token : Option Nat) : Waits .notFull (.emplaceAfterWait call value token)
  | notEmpty (call : Nat) (kind : Reading) (token : Option Nat) : Waits .notEmpty (.readAfterWait call kind token)

theorem channel_enter (op : ChannelOp α) (call : Nat) (l : ChannelLocal α)
    (h : ((channel α capacity).enter op call).2 = some l) : l.Starts ∧ l.call = call := by
  cases h
  cases op with
  | read strategy token =>
    cases strategy with
    | WAIT => exact ⟨.read _ _ _, rfl⟩
    | TRY => exact ⟨.tryRead _, rfl⟩
  | emplace => exact ⟨.emplace _ _ _ _, rfl⟩
  | readAll => exact ⟨.readAll _ _, rfl⟩
  | waitToRead => exact ⟨.read _ _ _, rfl⟩
  | completeWriter => exact ⟨.completeWriter _, rfl⟩
  | size => exact ⟨.size _, rfl⟩

theorem EmplaceAt.call_eq {l : ChannelLocal α} {call : Nat} {value : α} {c' : Channel α}
    (h : EmplaceAt c l call value c') :
    l.call = call ∧ l.isReadAll = false ∧ c'.queue = c.queue ∧ c'.writerCompleted = c.writerCompleted := by
  cases h <;> exact ⟨rfl, rfl, rfl, rfl⟩

theorem ReadAt.call_eq {l : ChannelLocal α} {call : Nat} {kind : Reading} {token : Option Nat} {c' : Channel α}
    (h : ReadAt c l call kind token c') :
    l.call = call ∧ l.isReadAll = decide (kind = .readAll) ∧ c'.queue = c.queue ∧
      c'.writerCompleted = c.writerCompleted := by
  cases h <;> cases kind <;> exact ⟨rfl, rfl, rfl, rfl⟩

/-- A failed wait leaves the channel and shows nothing but the end of its call. -/
theorem readFails_cases (c : Channel α) (call : Nat) (kind : Reading) (error : ChannelReadErrors) :
    ∃ e, c.readFails call kind error = ⟨c, [], .release [] (.done [e])⟩ ∧
      (kind = .read ∧ e = .readReturn call .WAIT (.error error) ∨
        kind = .readAll ∧ e = .readAllReturn call (some error) ∨ kind = .waitToRead ∧ e = .waitReturn call false) := by
  cases kind with
  | read => exact ⟨_, rfl, .inl ⟨rfl, rfl⟩⟩
  | readAll => exact ⟨_, rfl, .inr (.inl ⟨rfl, rfl⟩)⟩
  | waitToRead => exact ⟨_, rfl, .inr (.inr ⟨rfl, rfl⟩)⟩

/-- A piece that goes on stays in its call. -/
theorem channel_call (l : ChannelLocal α) (stop seen : Bool) (l' : ChannelLocal α)
    (h : ((channel α capacity).exec l c stop seen).next.local? = some l') :
    l'.call = l.call ∧ l'.isReadAll = l.isReadAll := by
  have hm := channel_moves capacity l c stop seen
  generalize (channel α capacity).exec l c stop seen = r at hm h
  cases hm with
  | emplaceWait => cases h; exact ⟨rfl, rfl⟩
  | emplaceGo => cases h; exact ⟨rfl, rfl⟩
  | readAllGo => cases h; exact ⟨rfl, rfl⟩
  | readWait call kind => cases h; cases kind <;> exact ⟨rfl, rfl⟩
  | readGo call kind => cases h; cases kind <;> exact ⟨rfl, rfl⟩
  | readCancelled hl => obtain ⟨e, he, -⟩ := readFails_cases _ _ _ _; rw [he] at h; cases h
  | readEmpty hl hq => obtain ⟨e, he, -⟩ := readFails_cases _ _ _ _; rw [he] at h; cases h
  | take hl hq hk =>
    cases hk with
    | read => cases h
    | readAll =>
      cases h
      obtain ⟨h1, h2, -⟩ := hl.call_eq
      exact ⟨h1.symm, h2.symm⟩
  | _ => cases h

theorem channel_again (l : ChannelLocal α) (stop seen : Bool) (ns : List (Notification ChannelCv))
    (l' : ChannelLocal α) (h : ((channel α capacity).exec l c stop seen).next = .release ns (.again l')) :
    l'.Starts := by
  have hm := channel_moves capacity l c stop seen
  generalize (channel α capacity).exec l c stop seen = r at hm h
  cases hm with
  | readCancelled hl => obtain ⟨e, he, -⟩ := readFails_cases _ _ _ _; rw [he] at h; cases h
  | readEmpty hl hq => obtain ⟨e, he, -⟩ := readFails_cases _ _ _ _; rw [he] at h; cases h
  | take hl hq hk =>
    cases hk with
    | read => cases h
    | readAll => cases h; exact .readAll _ _
  | _ => cases h

theorem channel_wait (l : ChannelLocal α) (stop seen : Bool) (cv : ChannelCv) (l' : ChannelLocal α)
    (h : ((channel α capacity).exec l c stop seen).next = .wait cv l') : l'.Waits cv := by
  have hm := channel_moves capacity l c stop seen
  generalize (channel α capacity).exec l c stop seen = r at hm h
  cases hm with
  | emplaceWait => cases h; exact .notFull _ _ _
  | readWait => cases h; exact .notEmpty _ _ _
  | readCancelled hl => obtain ⟨e, he, -⟩ := readFails_cases _ _ _ _; rw [he] at h; cases h
  | readEmpty hl hq => obtain ⟨e, he, -⟩ := readFails_cases _ _ _ _; rw [he] at h; cases h
  | _ => cases h

end Xtd
