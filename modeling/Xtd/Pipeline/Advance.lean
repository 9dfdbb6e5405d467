import Xtd.Pipeline.Accounting

/-!
# `advance`

What a call of `advance` does to the pipeline, from any state that a run can reach.  The checks come first: one before
the lock is taken and three with the lock held, and a call that fails one of them has changed nothing.  After them the
loop cannot run out of segments or bytes, since a read is never larger than what is buffered and no byte is dropped
while the read is pending.
-/

namespace Xtd

open Concurrency

variable {ρ π : Type}

/-! ### The segments the loop leaves -/

/-- What `segs` becomes when its first `consumed` readable bytes are consumed: the segments with no unread byte left are
popped, and the first of the others is read on. -/
def Consumed (consumed : Nat) (segs left : List (DataSegment π)) : Prop :=
  ∃ popped rest, segs = popped ++ rest ∧
    (∀ i, i < segs.length → (i < popped.length ↔ readableSize (segs.take (i + 1)) ≤ consumed)) ∧
    (rest = [] ∧ left = [] ∨ ∃ head head' tail, rest = head :: tail ∧
      head.advanceRead (consumed - readableSize popped) = .ok head' ∧ left = head' :: tail)

theorem readableSize_take_le (l : List (DataSegment π)) (i : Nat) : readableSize (l.take i) ≤ readableSize l := by
  have h := congrArg readableSize (List.take_append_drop i l)
  rw [readableSize_append] at h
  omega

/-- The segments of `popped` are consumed and the one after them is not. -/
private theorem popped_iff {consumed : Nat} {popped rest : List (DataSegment π)}
    (hle : readableSize popped ≤ consumed)
    (hlt : ∀ head ∈ rest.head?, consumed < readableSize popped + head.readableSize) {i : Nat}
    (hi : i < (popped ++ rest).length) :
    i < popped.length ↔ readableSize ((popped ++ rest).take (i + 1)) ≤ consumed := by
  constructor
  · intro h
    rw [List.take_append_of_le_length (by omega)]
    exact Nat.le_trans (readableSize_take_le popped (i + 1)) hle
  · intro h
    by_contra hge
    rw [Nat.not_lt] at hge
    cases rest with
    | nil => simp at hi; omega
    | cons head tail =>
      have := hlt head rfl
      rw [List.take_append, List.take_of_length_le (by omega), readableSize_append,
        show i + 1 - popped.length = i - popped.length + 1 by omega, List.take_succ_cons, readableSize_cons] at h
      omega

theorem Consumed.of_split {consumed : Nat} {popped rest left : List (DataSegment π)}
    (hle : readableSize popped ≤ consumed)
    (hleft : rest = [] ∧ left = [] ∨ ∃ head head' tail, rest = head :: tail ∧
      consumed < readableSize popped + head.readableSize ∧
      head.advanceRead (consumed - readableSize popped) = .ok head' ∧ left = head' :: tail) :
    Consumed consumed (popped ++ rest) left := by
  refine ⟨popped, rest, rfl, ?_, ?_⟩
  · intro i hi
    refine popped_iff hle ?_ hi
    intro head hh
    rcases hleft with ⟨rfl, -⟩ | ⟨head', -, tail, rfl, hlt, -⟩
    · cases hh
    · cases hh
      exact hlt
  · rcases hleft with h | ⟨head, head', tail, h1, -, h2, h3⟩
    · exact .inl h
    · exact .inr ⟨head, head', tail, h1, h2, h3⟩

section

variable [MemoryResource ρ π]

private theorem advanceLoop_split {n : Nat} {segs : List (DataSegment π)} (r : ρ) (remaining b a : Nat)
    (hpos : ∀ s ∈ segs, 1 ≤ s.readableSize) (hr : remaining ≤ readableSize segs) (hlt : remaining < SizeT.modulus) :
    ∃ popped rest, segs = popped ++ rest ∧ readableSize popped ≤ remaining ∧
      (rest = [] ∧ (Pipe.advanceLoop n segs r remaining b a).segments = [] ∨ ∃ head head' tail, rest = head :: tail ∧
        remaining < readableSize popped + head.readableSize ∧
        head.advanceRead (remaining - readableSize popped) = .ok head' ∧
        (Pipe.advanceLoop n segs r remaining b a).segments = head' :: tail) := by
  induction segs generalizing r remaining b a with
  | nil => exact ⟨[], [], rfl, Nat.zero_le _, .inl ⟨rfl, rfl⟩⟩
  | cons s l ih =>
    have hs := hpos s (by simp)
    rw [readableSize_cons] at hr
    unfold Pipe.advanceLoop
    split
    · dsimp only
      split
      · rename_i hshort
        obtain ⟨s', hs', -⟩ := DataSegment.advanceRead_eq_ok (Nat.le_of_lt hshort)
        rw [hs']
        exact ⟨[], s :: l, rfl, Nat.zero_le _, .inr ⟨s, s', l, rfl, by simpa using hshort, by simpa using hs', rfl⟩⟩
      · rename_i hlong
        have hsub : SizeT.sub remaining s.readableSize = remaining - s.readableSize :=
          SizeT.sub_eq (by omega) hlt
        rw [hsub]
        obtain ⟨popped, rest, rfl, hle, hleft⟩ := ih (MemoryResource.deallocate r s.buffer s.capacity)
          (remaining - s.readableSize) (SizeT.sub b s.readableSize) (SizeT.sub a n)
          (fun x hx => hpos x (by simp [hx])) (by omega) (by omega)
        refine ⟨s :: popped, rest, rfl, by rw [readableSize_cons]; omega, ?_⟩
        rcases hleft with h | ⟨head, head', tail, h1, h2, h3, h4⟩
        · exact .inl h
        · refine .inr ⟨head, head', tail, h1, by rw [readableSize_cons]; omega, ?_, h4⟩
          rw [readableSize_cons, Nat.sub_add_eq]
          exact h3
    · rename_i h0
      obtain rfl : remaining = 0 := by omega
      refine ⟨[], s :: l, rfl, Nat.le_refl _, .inr ⟨s, s, l, rfl, by simp; omega, ?_, rfl⟩⟩
      simp [DataSegment.advanceRead]

variable {o : ValidatedOptions} {p q : Pipe ρ π}

theorem consumed_consume (h : Accounted o p) {consumed : Nat} (hc : consumed ≤ p.bufferedSize) :
    Consumed consumed p.segments (p.consume o consumed).segments := by
  have := h.buffered_lt
  have := h.buffered
  obtain ⟨popped, rest, he, hle, hleft⟩ := advanceLoop_split (n := o.bufferSize) p.allocator consumed
    p.bufferedSize p.actualBufferedSize h.row.readable (by omega) (by omega)
  have hsplit := Consumed.of_split hle hleft
  rw [← he] at hsplit
  exact hsplit

/-! ### The call -/

/-- The body of `advance`: the check before the lock and the rest with the lock held. -/
def Pipe.advanceCall (o : ValidatedOptions) (p : Pipe ρ π) (consumed examined : Position) : PipePiece ρ π :=
  if consumed.sequenceOffset > examined.sequenceOffset then
    ⟨p, [], .release [] (.done [.advanceThrow (.invalidArgument "consumed must be <= examined")])⟩
  else p.advance o consumed.sequenceOffset examined.sequenceOffset

/-- What the checks of `advance` reject in `p`. -/
def Pipe.AdvanceRejects (p : Pipe ρ π) (consumed examined : Position) : Prop :=
  consumed.sequenceOffset > examined.sequenceOffset ∨ p.readerCompleted = true ∨ p.hasPendingRead = false ∨
    examined.sequenceOffset > p.pendingReadSize

/-- A successful `advance` takes `p` to `q`. -/
structure Advanced (o : ValidatedOptions) (p q : Pipe ρ π) (consumed examined : Nat) : Prop where
  consumed_le : consumed ≤ (readableBytes p.segments).length
  bytes : readableBytes q.segments = (readableBytes p.segments).drop consumed
  segments : Consumed consumed p.segments q.segments
  examined : q.examinedSize = examined - consumed
  pending : q.hasPendingRead = false ∧ q.pendingReadSize = 0
  completed : q.writerCompleted = p.writerCompleted ∧ q.readerCompleted = p.readerCompleted
  accounted : Accounted o q

/-- A call that is rejected throws and changes nothing. -/
theorem advanceCall_of_rejects {consumed examined : Position} (h : p.AdvanceRejects consumed examined) :
    ∃ e, p.advanceCall o consumed examined = ⟨p, [], .release [] (.done [.advanceThrow e])⟩ := by
  unfold Pipe.advanceCall
  split
  · exact ⟨_, rfl⟩
  · rename_i hle
    have h' := h.resolve_left hle
    have hm := pipe_moves o (.advance consumed.sequenceOffset examined.sequenceOffset) p false false
    change PipeMoves o p _ _ _ (p.advance o consumed.sequenceOffset examined.sequenceOffset) at hm
    generalize p.advance o consumed.sequenceOffset examined.sequenceOffset = r at hm ⊢
    cases hm with
    | advanceThrow e => exact ⟨e, rfl⟩
    | advanceFault evs hr hp he => exact absurd h' (not_advanceThrow hr hp he)
    | advance q paused hr hp he => exact absurd h' (not_advanceThrow hr hp he)

/-- A call that is not rejected drops exactly the consumed bytes. -/
theorem advanceCall_of_accepts (hA : Accounted o p) {consumed examined : Position}
    (h : ¬ p.AdvanceRejects consumed examined) :
    Advanced o p (p.advanceCall o consumed examined).shared consumed.sequenceOffset examined.sequenceOffset ∧
      (p.advanceCall o consumed examined).events =
        [.advanced ((readableBytes p.segments).take consumed.sequenceOffset)] ∧
      (p.advanceCall o consumed examined).next.doneEvents = [] := by
  simp only [Pipe.AdvanceRejects, not_or, Nat.not_lt, Bool.not_eq_true, Bool.not_eq_false, gt_iff_lt] at h
  obtain ⟨hce, hr, hp, he⟩ := h
  have hpend := hA.pending
  have hlt := hA.buffered_lt
  have hc : consumed.sequenceOffset ≤ p.bufferedSize := by omega
  obtain ⟨-, -, hdrop, hbytes, -⟩ := consume_spec hA hc
  have hA' := accounted_piece hA (l := .advance consumed.sequenceOffset examined.sequenceOffset) hce nofun false false
  have hm := pipe_moves o (.advance consumed.sequenceOffset examined.sequenceOffset) p false false
  have hcall : p.advanceCall o consumed examined =
      (pipeline ρ o).exec (.advance consumed.sequenceOffset examined.sequenceOffset) p false false :=
    if_neg (by omega)
  rw [hcall]
  generalize (pipeline ρ o).exec (.advance consumed.sequenceOffset examined.sequenceOffset) p false false = r
    at hm hA' ⊢
  cases hm with
  | advanceThrow e h' => exact absurd h' (not_advanceThrow hr hp he)
  | advanceFault evs _ _ _ hx => exact absurd (consume_spec hA hc).1 hx
  | advance q paused _ _ _ hx hq hpa =>
    subst hq
    refine ⟨⟨?_, hbytes, consumed_consume hA hc, SizeT.sub_eq hce (by omega), ⟨rfl, rfl⟩, ⟨rfl, rfl⟩, hA'⟩, ?_, rfl⟩
    · rw [length_readableBytes, ← hA.buffered]
      exact hc
    · rw [← hdrop]

/-! ### Runs -/

variable {τ : Type} [DecidableEq τ] [Fintype τ] {s : PipeState τ ρ π}

/-- The step of a thread at the piece of `advance`. -/
private theorem advance_step (consumed examined : Position) (hce : consumed.sequenceOffset ≤ examined.sequenceOffset)
    {t : τ} {z : Bool} {s' : PipeState τ ρ π} {evs : List PipeEvent}
    (ht : s.phase t = .locked (.advance consumed.sequenceOffset examined.sequenceOffset))
    (hs : ((pipeline ρ o).machine τ).step s (.run t z) = some (s', evs))
    (hend : (s.shared.advanceCall o consumed examined).next.doneEvents = [] ∨
      ∃ e, s.shared.advanceCall o consumed examined = ⟨s.shared, [], .release [] (.done [e])⟩) :
    s'.shared = (s.shared.advanceCall o consumed examined).shared ∧
      evs = (s.shared.advanceCall o consumed examined).events ++
        (s.shared.advanceCall o consumed examined).next.doneEvents := by
  have hm := Monitor.moves_of_step hs
  have hpiece : (pipeline ρ o).piece s (.advance consumed.sequenceOffset examined.sequenceOffset) z =
      s.shared.advanceCall o consumed examined := (if_neg (by omega)).symm
  have hsh := (hm.of_piece ht).1
  rw [hpiece] at hsh
  refine ⟨hsh, ?_⟩
  rcases hend with hnil | ⟨e, he⟩
  · have hevs := hm.events_of_quiet_piece ht (by rw [hpiece]; exact hnil)
    rw [hevs, hpiece, hnil, List.append_nil]
  · have hrel := Monitor.step_of_moves (M := pipeline ρ o) (.release t z _ [] (.done [e]) ht (by rw [hpiece, he]))
    rw [hs, hpiece] at hrel
    rw [(Prod.mk.inj (Option.some.inj hrel)).2, he]
    rfl

/-- The step of a successful `advance`. -/
theorem advanced_step {ok : PipeState τ ρ π → PipeAction τ → Prop} {r : ρ} {tr : List PipeEvent}
    (h : ((pipeline ρ o).machine τ).Exec ok (State.init (Pipe.new r)) tr s) (hr : s.shared.readerCompleted = false)
    {t : τ} {consumed examined : Nat} {z : Bool} {s' : PipeState τ ρ π} {evs : List PipeEvent} {bytes : List Byte}
    (ht : s.phase t = .locked (.advance consumed examined))
    (hs : ((pipeline ρ o).machine τ).step s (.run t z) = some (s', evs)) (hb : .advanced bytes ∈ evs) :
    Advanced o s.shared s'.shared consumed examined := by
  have hce : consumed ≤ examined := (accounted_of_exec h).2 t _ (Monitor.local?_of_locked ht)
  by_cases hrej : s.shared.AdvanceRejects ⟨consumed, true⟩ ⟨examined, true⟩
  · obtain ⟨e, he⟩ := advanceCall_of_rejects (o := o) hrej
    obtain ⟨-, rfl⟩ := advance_step ⟨consumed, true⟩ ⟨examined, true⟩ hce ht hs (.inr ⟨_, he⟩)
    rw [he] at hb
    simp [Next.doneEvents] at hb
  · obtain ⟨hadv, -, hdone⟩ := advanceCall_of_accepts (accounted_of_open h hr) hrej
    obtain ⟨hsh, -⟩ := advance_step ⟨consumed, true⟩ ⟨examined, true⟩ hce ht hs (.inl hdone)
    rw [hsh]
    exact hadv

/-- In every state of every run: `advance` throws exactly if one of its checks fails, and then the pipeline is as it was;
otherwise it drops the first `consumed` bytes, pops the segments it has consumed as a whole, sets the examined size and
ends the pending read.  The check of the positions is made when the call comes and needs no lock; the rest is one step
of the thread that has the lock. -/
theorem advance_exact {r : ρ} {tr : List PipeEvent}
    (h : ((pipeline ρ o).machine τ).Exec Machine.Any (State.init (Pipe.new r)) tr s) (consumed examined : Position) :
    let body := s.shared.advanceCall o consumed examined
    let shown := body.events ++ body.next.doneEvents
    ((∃ e, .advanceThrow e ∈ shown) ↔ s.shared.AdvanceRejects consumed examined) ∧
    (s.shared.AdvanceRejects consumed examined → body.shared = s.shared ∧ ∃ e, shown = [.advanceThrow e]) ∧
    (¬ s.shared.AdvanceRejects consumed examined →
      Advanced o s.shared body.shared consumed.sequenceOffset examined.sequenceOffset ∧
      shown = [.advanced ((readableBytes s.shared.segments).take consumed.sequenceOffset)]) ∧
    (∀ t s' evs, ((pipeline ρ o).machine τ).step s (.call t (.advance consumed examined)) = some (s', evs) →
      s'.shared = s.shared ∧
      evs = if consumed.sequenceOffset > examined.sequenceOffset then shown else []) ∧
    ∀ t z s' evs, s.phase t = .locked (.advance consumed.sequenceOffset examined.sequenceOffset) →
      ((pipeline ρ o).machine τ).step s (.run t z) = some (s', evs) → s'.shared = body.shared ∧ evs = shown := by
  intro body shown
  have haccept : ¬ s.shared.AdvanceRejects consumed examined →
      Advanced o s.shared body.shared consumed.sequenceOffset examined.sequenceOffset ∧
        body.events = [.advanced ((readableBytes s.shared.segments).take consumed.sequenceOffset)] ∧
        body.next.doneEvents = [] := by
    intro hn
    refine advanceCall_of_accepts (accounted_of_open h ?_) hn
    rw [← Bool.not_eq_true]
    exact fun hr => hn (.inr (.inl hr))
  refine ⟨?_, ?_, ?_, ?_, ?_⟩
  · constructor
    · rintro ⟨e, he⟩
      by_contra hn
      obtain ⟨-, hev, hdone⟩ := haccept hn
      rw [show shown = _ from congrArg₂ (· ++ ·) hev hdone] at he
      simp at he
    · intro hrej
      obtain ⟨e, he⟩ := advanceCall_of_rejects (o := o) hrej
      exact ⟨e, by rw [show shown = [.advanceThrow e] by simp [shown, body, he, Next.doneEvents]]; simp⟩
  · intro hrej
    obtain ⟨e, he⟩ := advanceCall_of_rejects (o := o) hrej
    exact ⟨by simp [body, he], e, by simp [shown, body, he, Next.doneEvents]⟩
  · intro hn
    obtain ⟨hadv, hev, hdone⟩ := haccept hn
    exact ⟨hadv, by simp [shown, hev, hdone]⟩
  · intro t s' evs hs
    have hm := Monitor.moves_of_step hs
    have hevs : evs = ((pipeline ρ o).enter (.advance consumed examined) s.calls).1 := by cases hm <;> rfl
    refine ⟨hm.of_call.1, ?_⟩
    rw [hevs]
    by_cases hgt : consumed.sequenceOffset > examined.sequenceOffset
    · simp [pipeline, PipeOp.enter, shown, body, Pipe.advanceCall, hgt, Next.doneEvents]
    · simp [pipeline, PipeOp.enter, hgt]
  · intro t z s' evs ht hs
    have hce : consumed.sequenceOffset ≤ examined.sequenceOffset :=
      (accounted_of_exec h).2 t _ (Monitor.local?_of_locked ht)
    refine advance_step consumed examined hce ht hs ?_
    by_cases hrej : s.shared.AdvanceRejects consumed examined
    · obtain ⟨e, he⟩ := advanceCall_of_rejects (o := o) hrej
      exact .inr ⟨_, he⟩
    · exact .inl (haccept hrej).2.2

end

/-- Thread `0` writes five bytes into segments of two; thread `1` reads four of them and holds the lock to consume
three. -/
def writeReadAdvance : List (PipeAction (Fin 2)) :=
  writeAndRead ++ [.call 1 (.advance ⟨3, true⟩ ⟨4, true⟩), .run 1 false]

theorem advance_exact_writeReadAdvance :
    ∃ tr, ∃ s : PipeState (Fin 2) FixedPoolResource Nat,
      ((pipeline FixedPoolResource .small).machine (Fin 2)).Exec Machine.Any (State.init (Pipe.new (.make .small))) tr s ∧
      ¬ s.shared.AdvanceRejects ⟨3, true⟩ ⟨4, true⟩ ∧
      Advanced .small s.shared (s.shared.advanceCall .small ⟨3, true⟩ ⟨4, true⟩).shared 3 4 ∧
      (s.shared.advanceCall .small ⟨5, true⟩ ⟨4, true⟩).shared = s.shared := by
  obtain ⟨tr, s, h, hc⟩ := Machine.exists_exec_of_run ((pipeline FixedPoolResource .small).machine (Fin 2))
    Machine.Any (State.init (Pipe.new (.make .small))) (fun _ _ => true) writeReadAdvance
    (fun _ s => decide (s.shared.readerCompleted = false ∧ s.shared.hasPendingRead = true ∧
      s.shared.pendingReadSize = 4)) (fun _ _ _ => trivial) (by decide)
  obtain ⟨hr, hp, hs⟩ := of_decide_eq_true hc
  have hacc : ¬ s.shared.AdvanceRejects ⟨3, true⟩ ⟨4, true⟩ := by
    simp [Pipe.AdvanceRejects, Position.sequenceOffset, hr, hp, hs]
  exact ⟨tr, s, h, hacc, ((advance_exact h ⟨3, true⟩ ⟨4, true⟩).2.2.1 hacc).1,
    ((advance_exact h ⟨5, true⟩ ⟨4, true⟩).2.1 (.inl (by decide))).1⟩

end Xtd
