import Xtd.Pipeline.Advance
import Xtd.Pipeline.EndOfStream
import Xtd.Pipeline.WakeUp

/-!
# Progress of the reads

`advance` leaves in `m_examined_size` how many of the remaining bytes the reader has seen, and the wait of
`read_at_least` goes on until there are more.  Between an `advance` and the next successful read no other `advance` can
succeed, so the bytes only grow and the examined size stays; the read then knows the predicate of its wait, unless it was
cancelled or the writer is completed.
-/

namespace Xtd

open Concurrency

variable {ρ π τ : Type} [MemoryResource ρ π] [DecidableEq τ] [Fintype τ] {o : ValidatedOptions} {p : Pipe ρ π}
  {ok : PipeState τ ρ π → PipeAction τ → Prop} {m : ρ} {tr tr' evs : List PipeEvent} {s s' : PipeState τ ρ π}
  {a : PipeAction τ}

/-! ### Between a read and its `advance` -/

private theorem dropped_of_no_advance (h : ∀ bytes, .advanced bytes ∉ tr) : dropped tr = [] := by
  refine List.flatMap_eq_nil_iff.2 ?_
  intro e he
  cases e with
  | advanced bytes => exact absurd he (h bytes)
  | _ => rfl

/-- A piece that is no successful `advance` only adds bytes and leaves the examined size. -/
theorem kept_piece (hA : Accounted o p) {l : PipeLocal} (hl : l.Ordered) (hne : l ≠ .completeReader) (stop oom : Bool)
    (hno : ∀ bytes, .advanced bytes ∉ ((pipeline ρ o).exec l p stop oom).events) :
    readableBytes p.segments <+: readableBytes ((pipeline ρ o).exec l p stop oom).shared.segments ∧
      ((pipeline ρ o).exec l p stop oom).shared.examinedSize = p.examinedSize := by
  constructor
  · rcases stream_piece hA hl hne stop oom with ⟨i, rest, copied, n, hc⟩ | hc
    · rw [hc.bytes]
      exact List.prefix_append _ _
    · have hb := hc.bytes
      rw [dropped_of_no_advance hno, List.nil_append] at hb
      rw [hb]
  · have hm := pipe_moves o l p stop oom
    generalize (pipeline ρ o).exec l p stop oom = r at hm hno ⊢
    cases hm with
    | chunk q n _ _ _ _ hq =>
      obtain ⟨_, _, _, _, rfl⟩ := copyChunk_frame hq
      rfl
    | readNow => rcases readTail_cases p stop with ⟨-, he⟩ | ⟨-, he⟩ <;> rw [he]
    | readAfter =>
      rcases readTail_cases { p with readerWaiting := false } stop with ⟨-, he⟩ | ⟨-, he⟩ <;> rw [he]
    | advanceFault => rfl
    | advance => exact absurd (List.mem_singleton.2 rfl) (hno _)
    | completeReader => exact absurd rfl hne
    | _ => rfl

theorem kept_of_exec (h : ((pipeline ρ o).machine τ).Exec ok (State.init (Pipe.new m)) tr s)
    (h' : ((pipeline ρ o).machine τ).Exec ok s tr' s') (hr : s'.shared.readerCompleted = false)
    (hno : ∀ bytes, .advanced bytes ∉ tr') :
    readableBytes s.shared.segments <+: readableBytes s'.shared.segments ∧
      s'.shared.examinedSize = s.shared.examinedSize := by
  induction h' with
  | nil => exact ⟨List.prefix_refl _, rfl⟩
  | @snoc tr' evs u v a h' ha hs ih =>
    have hru := readerCompleted_of_exec (.snoc .nil ha hs) hr
    obtain ⟨hb, he⟩ := ih hru (fun bytes hm => hno bytes (List.mem_append_left _ hm))
    have hm := Monitor.moves_of_step hs
    rcases hm.shared_eq with ⟨hsh, -⟩ | ⟨t, z, l, rfl, hl, hsh⟩
    · rw [hsh]
      exact ⟨hb, he⟩
    · obtain ⟨evs', rfl, -⟩ := hm.events_of_piece hl
      have hne : l ≠ .completeReader := by
        rintro rfl
        rw [hsh] at hr
        cases hr
      have hrun := h.trans h'
      obtain ⟨hb', he'⟩ := kept_piece (accounted_of_open hrun hru)
        ((accounted_of_exec hrun).2 t l (Monitor.local?_of_locked hl)) hne (u.stop ((pipeline ρ o).token l)) z
        (fun bytes hx => hno bytes (List.mem_append_right _ (List.mem_append_left _ hx)))
      rw [hsh]
      exact ⟨hb.trans hb', he'.trans he⟩

/-! ### Between an `advance` and the next read -/

/-- With no read pending, a piece that returns no read is no successful `advance` and leaves no read pending. -/
theorem idle_piece (hp : p.hasPendingRead = false) (l : PipeLocal) (stop oom : Bool)
    (hno : ∀ buffer completed, .readReturn buffer completed ∉ ((pipeline ρ o).exec l p stop oom).events) :
    ((pipeline ρ o).exec l p stop oom).shared.hasPendingRead = false ∧
      ∀ bytes, .advanced bytes ∉ ((pipeline ρ o).exec l p stop oom).events := by
  have hm := pipe_moves o l p stop oom
  generalize (pipeline ρ o).exec l p stop oom = r at hm hno ⊢
  have tail : ∀ q : Pipe ρ π, q.hasPendingRead = false →
      (∀ buffer completed, .readReturn buffer completed ∉ (q.readTail stop).events) →
      (q.readTail stop).shared.hasPendingRead = false ∧ ∀ bytes, .advanced bytes ∉ (q.readTail stop).events := by
    intro q hq hno
    rcases readTail_cases q stop with ⟨-, he⟩ | ⟨-, he⟩ <;> rw [he] at hno ⊢
    · exact ⟨hq, by simp⟩
    · exact absurd (List.mem_singleton.2 rfl) (hno _ _)
  cases hm with
  | chunk q n _ _ _ _ hq =>
    obtain ⟨_, _, _, _, rfl⟩ := copyChunk_frame hq
    exact ⟨hp, by simp⟩
  | readNow => exact tail p hp hno
  | readAfter => exact tail { p with readerWaiting := false } hp hno
  | leave => exact ⟨hp, by simp [Pipe.writeUnlock]⟩
  | pause => exact ⟨hp, by simp [Pipe.writeUnlock]⟩
  | advanceFault evs _ hp' => rw [hp] at hp'; cases hp'
  | advance q paused _ hp' => rw [hp] at hp'; cases hp'
  | completeWriter => exact ⟨hp, by simp [Pipe.completeWriter]⟩
  | completeReader => exact ⟨rfl, by simp [Pipe.completeReader]⟩
  | _ => exact ⟨hp, by simp⟩

theorem idle_of_exec (h : ((pipeline ρ o).machine τ).Exec ok (State.init (Pipe.new m)) tr s)
    (h' : ((pipeline ρ o).machine τ).Exec ok s tr' s') (hp : s.shared.hasPendingRead = false)
    (hno : ∀ buffer completed, .readReturn buffer completed ∉ tr') :
    s'.shared.hasPendingRead = false ∧ ∀ bytes, .advanced bytes ∉ tr' := by
  induction h' with
  | nil => exact ⟨hp, by simp⟩
  | @snoc tr' evs u v a h' ha hs ih =>
    obtain ⟨hpu, hadv⟩ := ih (fun b c hm => hno b c (List.mem_append_left _ hm))
    have hm := Monitor.moves_of_step hs
    have hpiece : ∀ t z l, a = .run t z → u.phase t = .locked l →
        ((pipeline ρ o).piece u l z).shared.hasPendingRead = false ∧
          ∀ bytes, .advanced bytes ∉ ((pipeline ρ o).piece u l z).events := by
      rintro t z l rfl hl
      obtain ⟨evs', rfl, -⟩ := hm.events_of_piece hl
      exact idle_piece hpu l _ z (fun b c hx => hno b c (List.mem_append_right _ (List.mem_append_left _ hx)))
    constructor
    · rcases hm.shared_eq with ⟨hsh, -⟩ | ⟨t, z, l, ha, hl, hsh⟩
      · rw [hsh]; exact hpu
      · rw [hsh]; exact (hpiece t z l ha hl).1
    · intro bytes hx
      rcases List.mem_append.1 hx with hx | hx
      · exact hadv bytes hx
      · obtain ⟨t, z, l, ha, hl, hx, -⟩ := shown_by_piece (h.trans h') hm hx rfl nofun
        exact (hpiece t z l ha hl).2 bytes hx

/-! ### What a read has waited for -/

/-- A read behind its wait knows that there is data for it, unless a stop was requested. -/
theorem dataAvailable_of_readAfterWait (h : ((pipeline ρ o).machine τ).Exec ok (State.init (Pipe.new m)) tr s) {t : τ}
    {minSize : Nat} {token : Option Nat} (ht : s.phase t = .locked (.readAfterWait minSize token)) :
    s.stop token = true ∨ s.shared.dataAvailable minSize = true := by
  refine Monitor.held_invariant (M := pipeline ρ o)
    (H := fun l b p => l.isReadWait = true → b = true ∨ p.dataAvailable l.minSize = true)
    (R := fun l => l.isReadWait = false) (W := fun c l => l.isReadWait = true → c = .dataAvailable) h
    (fun _ _ _ _ => .inl rfl) ?_ ?_ ?_ ?_ ?_ ?_ ht rfl
  · intro l b p h h'
    rw [h] at h'
    cases h'
  · intro c l b p hc hp hl
    rw [hc hl] at hp
    exact hp
  · intro op n l he
    obtain ⟨evs, hen⟩ := pipe_enters_of_some he
    cases hen <;> rfl
  · intro l p b oom ns l' hn
    have hl' : ((pipeline ρ o).exec l p b oom).next.local? = some l' := by rw [hn]; rfl
    have hm := pipe_moves o l p b oom
    generalize (pipeline ρ o).exec l p b oom = r at hm hn hl'
    cases hm with
    | leave => rw [writeUnlock_local hl']; rfl
    | pause => rw [writeUnlock_local hl']; rfl
    | readNow => rw [readTail_next] at hn; cases hn
    | readAfter => rw [readTail_next] at hn; cases hn
    | _ => cases hn
  · intro l p b oom c l' hn hl'
    rcases wait_piece hn with ⟨rfl, -⟩ | ⟨-, call, data, copied, token, rfl⟩
    · rfl
    · cases hl'
  · intro l p b oom l' _ hn
    have hm := pipe_moves o l p b oom
    generalize (pipeline ρ o).exec l p b oom = r at hm hn ⊢
    cases hm with
    | chunk => cases hn; exact ⟨rfl, nofun⟩
    | readNow => rw [readTail_next] at hn; cases hn
    | readAfter => rw [readTail_next] at hn; cases hn
    | _ => cases hn

/-- A read succeeds at once if the writer is completed, or after its wait if it was not cancelled. -/
private theorem readReturn_place {l : PipeLocal} {stop oom : Bool} {buffer : SegmentedByteView} {completed : Bool}
    (h : .readReturn buffer completed ∈ ((pipeline ρ o).exec l p stop oom).events) :
    l.isRead = true ∧
      (p.writerCompleted = true ∨ (∃ minSize token, l = .readAfterWait minSize token) ∧ stop = false) := by
  have hm := pipe_moves o l p stop oom
  generalize (pipeline ρ o).exec l p stop oom = r at hm h
  cases hm with
  | readNow _ _ hw => exact ⟨rfl, .inl hw⟩
  | readAfter =>
    rcases readTail_cases { p with readerWaiting := false } stop with ⟨-, he⟩ | ⟨hs, -⟩
    · rw [he] at h
      cases h
    · exact ⟨rfl, .inr ⟨⟨_, _, rfl⟩, hs⟩⟩
  | leave => cases h
  | pause => cases h
  | completeWriter => simp [Pipe.completeWriter] at h
  | completeReader => simp [Pipe.completeReader] at h
  | _ => simp at h

/-- A successful read that does not report the end of the stream returns the bytes it was asked for and more than were
examined. -/
theorem readReturn_wanted (h : ((pipeline ρ o).machine τ).Exec ok (State.init (Pipe.new m)) tr s)
    (hr : s.shared.readerCompleted = false) {t : τ} {l : PipeLocal} {z : Bool} {buffer : SegmentedByteView}
    (ht : s.phase t = .locked l) (hs : ((pipeline ρ o).machine τ).step s (.run t z) = some (s', evs))
    (he : .readReturn buffer false ∈ evs) : l.minSize ≤ buffer.size ∧ s.shared.examinedSize < buffer.size := by
  have hm := Monitor.moves_of_step hs
  obtain ⟨hb, hw, -, -⟩ := readReturn_step h hm he
  have hA := accounted_of_open h hr
  have hsize : buffer.size = s.shared.bufferedSize := by
    rw [hb, size_makeReadableView (hA.buffered ▸ hA.buffered_lt), hA.buffered]
  have hdata : s.shared.dataAvailable l.minSize = true := by
    obtain ⟨t', z', l', ha, hl', hx, -⟩ := shown_by_piece h hm he rfl nofun
    cases ha
    rw [ht] at hl'
    cases hl'
    rcases (readReturn_place hx).2 with hw' | ⟨⟨minSize, token, rfl⟩, hstop⟩
    · rw [← hw] at hw'
      cases hw'
    · refine (dataAvailable_of_readAfterWait h ht).resolve_left ?_
      rw [show s.stop token = false from hstop]
      nofun
  simp only [Pipe.dataAvailable, ← hw, Bool.false_or, Bool.and_eq_true, Bool.or_eq_true, decide_eq_true_eq] at hdata
  omega

/-! ### One reader -/

/-- Thread `r` is the only one that reads. -/
def OneReader (r : τ) (_ : PipeState τ ρ π) (a : PipeAction τ) : Prop :=
  ∀ t minSize token, a = .call t (.readAtLeast minSize token) → t = r

/-- Only `r` is in a read, and with a read in its wait none is pending. -/
structure ReadsAlone (r t : τ) (l : PipeLocal) (p : Pipe ρ π) : Prop where
  reader : l.isRead = true → t = r
  waiting : l.isReadWait = true → p.hasPendingRead = false

variable {r : τ}

theorem readsAlone_of_exec (h : ((pipeline ρ o).machine τ).Exec (OneReader r) (State.init (Pipe.new m)) tr s) :
    ∀ t l, (s.phase t).local? = some l → ReadsAlone r t l s.shared := by
  refine (Monitor.thread_invariant (P := fun _ => True) (A := ReadsAlone r) h trivial ?_ ?_).2
  · intro s t op l hok _ he
    obtain ⟨evs, hen⟩ := pipe_enters_of_some he
    cases hen with
    | read minSize token => exact ⟨fun _ => hok t minSize token rfl, nofun⟩
    | _ => exact ⟨nofun, nofun⟩
  · intro t l p stop oom _ hl
    refine ⟨trivial, ?_, ?_⟩
    · intro l' hl'
      obtain ⟨-, h2, h3⟩ := next_placed hl'
      exact ⟨fun h => hl.reader (h2 h), fun h => (h3 h).2⟩
    · intro u l' hu hA
      refine ⟨hA.reader, ?_⟩
      intro hr
      have hur : u = r := hA.reader (by cases l' <;> first | rfl | cases hr)
      -- the piece is not one of a read, as `u` is the reader
      refine (idle_piece (hA.waiting hr) l stop oom ?_).1
      intro buffer completed hx
      exact hu (hur.trans (hl.reader (readReturn_place hx).1).symm)

/-- A piece of a read that does not succeed changes nothing but the flag of the waiting reader. -/
theorem read_piece {l : PipeLocal} (hl : l.isRead = true) (stop oom : Bool)
    (hno : ∀ buffer completed, .readReturn buffer completed ∉ ((pipeline ρ o).exec l p stop oom).events) :
    ∃ waiting, ((pipeline ρ o).exec l p stop oom).shared = { p with readerWaiting := waiting } := by
  have hm := pipe_moves o l p stop oom
  generalize (pipeline ρ o).exec l p stop oom = x at hm hno ⊢
  have tail : ∀ q : Pipe ρ π, (∀ buffer completed, .readReturn buffer completed ∉ (q.readTail stop).events) →
      (q.readTail stop).shared = q := by
    intro q hno
    rcases readTail_cases q stop with ⟨-, he⟩ | ⟨-, he⟩ <;> rw [he] at hno ⊢
    exact absurd (List.mem_singleton.2 rfl) (hno _ _)
  cases hm with
  | readThrow => exact ⟨_, rfl⟩
  | readWait => exact ⟨_, rfl⟩
  | readNow => exact ⟨p.readerWaiting, tail p hno⟩
  | readAfter => exact ⟨false, tail _ hno⟩
  | _ => cases hl

/-- The piece that cancels a read notifies nobody; it has no read pending if this was so before its wait. -/
private theorem cancelled_piece {l : PipeLocal} {stop oom : Bool}
    (h : .readCancelled ∈ ((pipeline ρ o).exec l p stop oom).events ∨
      .readCancelled ∈ ((pipeline ρ o).exec l p stop oom).next.doneEvents) :
    (p.hasPendingRead = false ∨ l.isReadWait = true) ∧
      ((pipeline ρ o).exec l p stop oom).next = .release [] (.done [.readCancelled]) := by
  have hm := pipe_moves o l p stop oom
  generalize (pipeline ρ o).exec l p stop oom = x at hm h ⊢
  have tail : ∀ q : Pipe ρ π, (.readCancelled ∈ (q.readTail stop).events ∨
      .readCancelled ∈ (q.readTail stop).next.doneEvents) →
      (q.readTail stop).next = .release [] (.done [.readCancelled]) := by
    intro q h
    rcases readTail_cases q stop with ⟨-, he⟩ | ⟨-, he⟩ <;> rw [he] at h ⊢
    simp [Next.doneEvents] at h
  have unlock : ∀ (q : Pipe ρ π) call data copied notify token stop,
      ¬ (.readCancelled ∈ (q.writeUnlock call data copied notify token stop).events ∨
        .readCancelled ∈ (q.writeUnlock call data copied notify token stop).next.doneEvents) := by
    intro q call data copied notify token stop
    rcases writeUnlock_cases q call data copied notify token stop with ⟨-, he⟩ | ⟨-, he⟩ <;>
      rw [he] <;> simp [Next.doneEvents]
  cases hm with
  | readNow hp => exact ⟨.inl hp, tail p h⟩
  | readAfter => exact ⟨.inr rfl, tail _ h⟩
  | leave => exact absurd h (unlock _ _ _ _ _ _ _)
  | pause => exact absurd h (unlock _ _ _ _ _ _ _)
  | advanceFault evs _ _ _ _ hevs => rcases hevs with rfl | ⟨e, rfl⟩ <;> simp [Next.doneEvents] at h
  | _ => simp [Next.doneEvents, Pipe.completeWriter, Pipe.completeReader] at h

/-- A step of a thread in a read, as long as the read does not succeed. -/
private theorem read_step {t : τ} {l : PipeLocal} (hl : (s.phase t).local? = some l) (hread : l.isRead = true)
    (ha : a.thread = some t) (hm : (pipeline ρ o).Moves s a s' evs)
    (hno : ∀ buffer completed, .readReturn buffer completed ∉ evs) :
    ∃ waiting, s'.shared = { s.shared with readerWaiting := waiting } := by
  rcases hm.shared_eq with ⟨he, -⟩ | ⟨u, z, l', rfl, hl', he⟩
  · exact ⟨s.shared.readerWaiting, he⟩
  · cases ha
    rw [Monitor.local?_of_locked hl'] at hl
    cases hl
    obtain ⟨evs', rfl, -⟩ := hm.events_of_piece hl'
    rw [he]
    exact read_piece hread _ z (fun b c hx => hno b c (List.mem_append_left _ hx))

/-- A cancelled read is at its piece, and it has no read pending. -/
private theorem not_pending_of_cancelled
    (h : ((pipeline ρ o).machine τ).Exec (OneReader r) (State.init (Pipe.new m)) tr s)
    (hm : (pipeline ρ o).Moves s a s' evs) (he : .readCancelled ∈ evs) : s.shared.hasPendingRead = false := by
  rcases hm.mem_events he with ⟨t, op, -, he⟩ | ⟨t, z, l, -, hl, he⟩ | ⟨t, he⟩
  · rcases enter_events he with ⟨_, he⟩ | ⟨_, _, he⟩ | ⟨_, he⟩ <;> cases he
  · have hwait := (readsAlone_of_exec h t l (Monitor.local?_of_locked hl)).waiting
    change .readCancelled ∈ ((pipeline ρ o).exec l s.shared _ z).events ∨
      .readCancelled ∈ ((pipeline ρ o).exec l s.shared _ z).next.doneEvents at he
    generalize s.stop ((pipeline ρ o).token l) = stop at he
    exact (cancelled_piece he).1.elim id hwait
  · refine absurd rfl (Monitor.doneEvents_of_exec (D := (· ≠ .readCancelled)) h ?_ t _ he)
    rintro l p stop oom n ns k hn e he rfl
    rw [(cancelled_piece (.inr he)).2] at hn
    cases hn

/-! ### The theorem -/

/-- In a run with one reader, as long as the reader is not completed: let a successful read `first` be followed by a
successful `advance`, and let `second` be the next successful read.  Then `second` begins with what the `advance` has left
of `first`, and if it does not report the end of the stream, it has the size that was asked for and more bytes than were
examined.  The steps of a read that does not succeed change nothing but `m_reader_waiting`, and after a cancelled read
there is no read to be ended by an `advance`. -/
theorem reads_make_progress
    (h : ((pipeline ρ o).machine τ).Exec (OneReader r) (State.init (Pipe.new m)) tr s) :
    (∀ tr₁ tr₂ first completed₁, tr = tr₁ ++ .readReturn first completed₁ :: tr₂ →
      (∀ bytes, .advanced bytes ∉ tr₂) →
      ∀ t consumed examined z s' evs bytes, s.phase t = .locked (.advance consumed examined) →
      ((pipeline ρ o).machine τ).step s (.run t z) = some (s', evs) → .advanced bytes ∈ evs →
      ∀ tr₃ u, ((pipeline ρ o).machine τ).Exec (OneReader r) s' tr₃ u →
      (∀ buffer completed, .readReturn buffer completed ∉ tr₃) → u.shared.readerCompleted = false →
      ∀ t₂ l z₂ u' evs₂ second completed₂, u.phase t₂ = .locked l →
      ((pipeline ρ o).machine τ).step u (.run t₂ z₂) = some (u', evs₂) → .readReturn second completed₂ ∈ evs₂ →
      first.flatten.drop consumed <+: second.flatten ∧
        (completed₂ = false → l.minSize ≤ second.size ∧ examined - consumed < second.size)) ∧
    ∀ t l a s' evs, (s.phase t).local? = some l → l.isRead = true → a.thread = some t →
      ((pipeline ρ o).machine τ).step s a = some (s', evs) →
      (∀ buffer completed, .readReturn buffer completed ∉ evs) →
      (∃ waiting, s'.shared = { s.shared with readerWaiting := waiting }) ∧
        (.readCancelled ∈ evs → s'.shared.hasPendingRead = false) := by
  refine ⟨?_, ?_⟩
  · intro tr₁ tr₂ first completed₁ htr hno₂ t consumed examined z s' evs bytes ht hs hb tr₃ u h₃ hno₃ hr t₂ l z₂ u' evs₂
      second completed₂ ht₂ hs₂ hR₂
    have hok : OneReader r s (.run t z) := by
      intro _ _ _ ha
      cases ha
    have hadvance := h.snoc hok hs
    have hrs' := readerCompleted_of_exec h₃ hr
    have hrs := readerCompleted_of_exec (.single hok hs) hrs'
    -- up to the `advance` the bytes of the first read have only got more
    obtain ⟨tr₁', tr₂', before, after, v, v', a, hv, hoka, ha, hv', -, rfl⟩ := h.split htr
    have hmem : .readReturn first completed₁ ∈ before ++ .readReturn first completed₁ :: after := by simp
    obtain ⟨hfirst, -, -, waiting, hsh⟩ := readReturn_step hv (Monitor.moves_of_step ha) hmem
    obtain ⟨hgrown, -⟩ := kept_of_exec (hv.snoc hoka ha) hv' hrs
      (fun bytes hm => hno₂ bytes (List.mem_append_right _ hm))
    rw [hsh] at hgrown
    have hadv := advanced_step h hrs ht hs hb
    -- from the `advance` to the second read the bytes only get more and the examined size stays
    obtain ⟨-, hnoadv⟩ := idle_of_exec hadvance h₃ hadv.pending.1 hno₃
    obtain ⟨hmore, hexamined⟩ := kept_of_exec hadvance h₃ hr hnoadv
    obtain ⟨hsecond, -⟩ := readReturn_step (hadvance.trans h₃) (Monitor.moves_of_step hs₂) hR₂
    constructor
    · rw [hfirst, hsecond, flatten_makeReadableView, flatten_makeReadableView]
      refine List.IsPrefix.trans ?_ hmore
      rw [hadv.bytes]
      exact hgrown.drop consumed
    · rintro rfl
      obtain ⟨h1, h2⟩ := readReturn_wanted (hadvance.trans h₃) hr ht₂ hs₂ hR₂
      rw [hexamined, hadv.examined] at h2
      exact ⟨h1, h2⟩
  · intro t l a s' evs hl hread ha hs hno
    have hm := Monitor.moves_of_step hs
    obtain ⟨waiting, he⟩ := read_step hl hread ha hm hno
    refine ⟨⟨waiting, he⟩, ?_⟩
    intro hc
    rw [he]
    exact not_pending_of_cancelled h hm hc

/-- Thread `0` writes four bytes; thread `1` reads them and holds the lock to consume two of them and examine all. -/
def readAndAdvance : List (PipeAction (Fin 2)) :=
  [.call 0 (.write ⟨[1, 2, 3, 4], by decide⟩ none),
    .run 0 false, .run 0 false, .run 0 false, .run 0 false, .run 0 false, .run 0 false,
    .call 1 (.readAtLeast 0 none), .run 1 false, .run 1 false, .run 1 false, .run 1 false,
    .call 1 (.advance ⟨2, true⟩ ⟨4, true⟩), .run 1 false]

/-- Thread `1` asks for three bytes and falls asleep; thread `0` writes one more and wakes it. -/
def readMore : List (PipeAction (Fin 2)) :=
  [.notify 1 none, .call 1 (.readAtLeast 3 none), .run 1 false, .run 1 false, .run 1 false,
    .call 0 (.write ⟨[5], by decide⟩ none), .run 0 false, .run 0 false, .run 0 false, .run 0 false, .run 0 false,
    .notify 0 (some 1), .run 1 false, .run 1 false]

private def readsOnly (r : Fin 2) (_ : PipeState (Fin 2) ρ π) : PipeAction (Fin 2) → Bool
  | .call t (.readAtLeast _ _) => decide (t = r)
  | _ => true

omit [MemoryResource ρ π] in
private theorem oneReader_of_readsOnly (r : Fin 2) (s : PipeState (Fin 2) ρ π) (a : PipeAction (Fin 2))
    (h : readsOnly r s a = true) : OneReader r s a := by
  rintro t minSize token rfl
  exact of_decide_eq_true h

/-- The first read has returned four bytes and thread `1` is about to advance. -/
private def advancesNext (tr : List PipeEvent) (s : PipeState (Fin 2) FixedPoolResource Nat) (evs : List PipeEvent) :
    Bool :=
  match tr.getLast?, s.phase 1, evs with
  | some (.readReturn first false), .locked (.advance 2 4), [.advanced _] => decide (first.flatten = [1, 2, 3, 4])
  | _, _, _ => false

/-- No read has returned since, and thread `1` is about to return three bytes. -/
private def returnsNext (tr : List PipeEvent) (s : PipeState (Fin 2) FixedPoolResource Nat) (evs : List PipeEvent) :
    Bool :=
  !s.shared.readerCompleted && (tr.all (fun e => match e with | .readReturn _ _ => false | _ => true) &&
    match s.phase 1, evs with
    | .locked (.readAfterWait 3 none), [.readReturn second false] => decide (second.flatten = [3, 4, 5])
    | _, _ => false)

theorem reads_make_progress_readMore :
    ∃ tr, ∃ s : PipeState (Fin 2) FixedPoolResource Nat,
      ((pipeline FixedPoolResource .small).machine (Fin 2)).Exec (OneReader 1)
        (State.init (Pipe.new (.make .small))) tr s ∧
      ∃ first second : SegmentedByteView, .readReturn first false ∈ tr ∧ first.flatten = [1, 2, 3, 4] ∧
        second.flatten = [3, 4, 5] ∧ first.flatten.drop 2 <+: second.flatten ∧ 3 ≤ second.size ∧ 4 - 2 < second.size := by
  obtain ⟨tr, s, s', evs, h, hs, hc⟩ := Machine.exists_step_of_run
    ((pipeline FixedPoolResource .small).machine (Fin 2)) (OneReader 1) (State.init (Pipe.new (.make .small)))
    (readsOnly 1) readAndAdvance (.run 1 false)
    (fun tr s s' evs => advancesNext tr s evs &&
      (((pipeline FixedPoolResource .small).machine (Fin 2)).run (readsOnly 1) s' readMore).any (fun x =>
        (((pipeline FixedPoolResource .small).machine (Fin 2)).step x.2 (.run 1 false)).any (fun y =>
          returnsNext x.1 x.2 y.2)))
    (oneReader_of_readsOnly 1) (by decide)
  rw [Bool.and_eq_true] at hc
  obtain ⟨hc, hc₂⟩ := hc
  obtain ⟨tr₃, u, u', evs₂, h₃, hs₂, hc₂⟩ := Machine.exists_step_of_run
    ((pipeline FixedPoolResource .small).machine (Fin 2)) (OneReader 1) s' (readsOnly 1) readMore (.run 1 false)
    (fun tr s _ evs => returnsNext tr s evs) (oneReader_of_readsOnly 1) hc₂
  unfold advancesNext at hc
  split at hc
  · rename_i first bytes hlast ht
    simp only [returnsNext, Bool.and_eq_true, Bool.not_eq_true', List.all_eq_true] at hc₂
    obtain ⟨hr, hno, hc₂⟩ := hc₂
    split at hc₂
    · rename_i second ht₂
      obtain ⟨front, rfl⟩ := List.getLast?_eq_some_iff.1 hlast
      have hno₃ : ∀ buffer completed, .readReturn buffer completed ∉ tr₃ := fun b c hm => nomatch hno _ hm
      obtain ⟨h1, h2⟩ := (reads_make_progress h).1 front [] first false rfl (by simp) 1 2 4 false s' _ bytes ht hs
        (by simp) tr₃ u h₃ hno₃ hr 1 _ false u' _ second false ht₂ hs₂ (by simp)
      obtain ⟨h3, h4⟩ := h2 rfl
      exact ⟨_, s, h, first, second, by simp, of_decide_eq_true hc, of_decide_eq_true hc₂, h1, h3, h4⟩
    · cases hc₂
  · cases hc

end Xtd
