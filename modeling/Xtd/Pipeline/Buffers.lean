import Xtd.Pipeline.Accounting

/-!
# The buffers of the segments

The pipeline asks its memory resource for a buffer when it needs a new last segment and gives buffers back from the
front, in the order in which it has got them.  So what holds of a memory resource together with the row of buffers
handed out is an invariant of the pipeline if it is kept by an allocation that adds a buffer at the end of the row, as
long as the row fits below the pause threshold, and by giving back the first of the row (`buffers_invariant`).
`complete_reader` zeroes the counters and leaves the row as it is; nothing is allocated or given back after it.

The pool of `fixed_pool_resource.h` is treated at the end.
-/

namespace Xtd

open Concurrency

variable {ρ π τ : Type} [MemoryResource ρ π] [DecidableEq τ] [Fintype τ] {o : ValidatedOptions} {p : Pipe ρ π}

/-- The buffers of the segments, from the first to the last. -/
def Pipe.buffers (p : Pipe ρ π) : List π := p.segments.map DataSegment.buffer

/-- The memory resource after buffers of the given size were given back one after the other. -/
def giveBack (r : ρ) (size : Nat) (buffers : List π) : ρ :=
  buffers.foldl (fun r b => MemoryResource.deallocate r b size) r

/-- The segments of a pipeline and their number, also after `complete_reader`. -/
structure Bounded (o : ValidatedOptions) (p : Pipe ρ π) : Prop where
  capacity : ∀ seg ∈ p.segments, seg.capacity = o.bufferSize
  length_le : p.segments.length * o.bufferSize ≤ o.pauseWriterThreshold

omit [MemoryResource ρ π] in
theorem Accounted.bounded (h : Accounted o p) : Bounded o p :=
  ⟨h.capacity, by rw [← h.actual]; exact h.actual_le⟩

/-! ### What a piece does to the buffers -/

/-- The piece adds the buffer `b` at the end. -/
structure Adds (o : ValidatedOptions) (p q : Pipe ρ π) (oom : Bool) (b : π) : Prop where
  allocated : MemoryResource.allocate p.allocator o.bufferSize oom = some (b, q.allocator)
  buffers : q.buffers = p.buffers ++ [b]
  room : (p.buffers.length + 1) * o.bufferSize ≤ o.pauseWriterThreshold

/-- The piece gives the first buffers back, if any. -/
structure Frees (o : ValidatedOptions) (p q : Pipe ρ π) (freed : List π) : Prop where
  buffers : p.buffers = freed ++ q.buffers
  given : q.allocator = giveBack p.allocator o.bufferSize freed

theorem frees_nothing {q : Pipe ρ π} (ha : q.allocator = p.allocator) (hs : q.segments = p.segments) :
    Frees o p q [] :=
  ⟨by rw [Pipe.buffers, Pipe.buffers, hs]; rfl, by rw [ha]; rfl⟩

/-- The loop of `advance` gives back the buffers of the segments it pops. -/
private theorem advanceLoop_buffers {n : Nat} {segs : List (DataSegment π)} (hcap : ∀ seg ∈ segs, seg.capacity = n)
    (r : ρ) (remaining b a : Nat) :
    let loop := Pipe.advanceLoop n segs r remaining b a
    ∃ freed, segs.map DataSegment.buffer = freed ++ loop.segments.map DataSegment.buffer ∧
      loop.allocator = giveBack r n freed := by
  induction segs generalizing r remaining b a with
  | nil => exact ⟨[], rfl, rfl⟩
  | cons s l ih =>
    unfold Pipe.advanceLoop
    split
    · dsimp only
      split
      · split
        · exact ⟨[], rfl, rfl⟩
        · rename_i s' hs'
          refine ⟨[], ?_, rfl⟩
          unfold DataSegment.advanceRead at hs'
          split at hs'
          · cases hs'
          · cases hs'
            rfl
      · obtain ⟨freed, h1, h2⟩ := ih (fun seg hseg => hcap seg (by simp [hseg]))
          (MemoryResource.deallocate r s.buffer s.capacity) (SizeT.sub remaining s.readableSize)
          (SizeT.sub b s.readableSize) (SizeT.sub a n)
        refine ⟨s.buffer :: freed, by rw [List.map_cons, h1]; rfl, ?_⟩
        rw [h2, hcap s (by simp)]
        rfl
    · exact ⟨[], rfl, rfl⟩

omit [MemoryResource ρ π] in
private theorem copyToBack_buffers (q : Pipe ρ π) (source : List Byte) :
    (q.copyToBack source).1.buffers = q.buffers ∧ (q.copyToBack source).1.allocator = q.allocator := by
  unfold Pipe.copyToBack
  split
  · exact ⟨rfl, rfl⟩
  · rename_i back hb
    obtain ⟨front, hf⟩ := List.getLast?_eq_some_iff.1 hb
    simp [Pipe.buffers, hf, DataSegment.copyFrom]

/-- A chunk of `write` adds a buffer or none. -/
private theorem copyChunk_buffers {q : Pipe ρ π} {data : List Byte} {n : Nat} {oom : Bool} (h : Accounted o p)
    (hc : p.writerAvailableCapacity o ≠ 0)
    (hq : p.copyChunk o data (p.writerAvailableCapacity o) oom = some (q, n)) :
    (∃ b, Adds o p q oom b) ∨ Frees o p q [] := by
  unfold Pipe.copyChunk at hq
  dsimp only at hq
  split at hq
  · cases hq
  · rename_i p' hg
    simp only [Option.some.injEq, Prod.mk.injEq] at hq
    obtain ⟨rfl, -⟩ := hq
    obtain ⟨hb, ha⟩ := copyToBack_buffers p' (data.take (min data.length (p.writerAvailableCapacity o)))
    obtain ⟨r, front, back, hp', -, -, -, -, hroom⟩ := getSegment_spec h hc hg
    unfold Pipe.getSegment at hg
    split at hg
    · split at hg
      · cases hg
      · rename_i buffer r' hal
        cases hg
        have hlen : front.length = p.segments.length := by
          have := congrArg (fun p : Pipe ρ π => p.segments.length) hp'
          simpa using this.symm
        refine .inl ⟨buffer, ⟨?_, ?_, ?_⟩⟩
        · rw [hal]
          simp only [ha]
        · show Pipe.buffers (Pipe.copyToBack _ _).1 = _
          rw [hb]
          simp [Pipe.buffers, DataSegment.new]
        · simpa [Pipe.buffers, ← hlen] using hroom
    · cases hg
      refine .inr ⟨?_, ?_⟩
      · show p.buffers = [] ++ Pipe.buffers (Pipe.copyToBack _ _).1
        rw [hb]
        rfl
      · show Pipe.allocator (Pipe.copyToBack _ _).1 = _
        rw [ha]
        rfl

/-- What a piece does to the buffers; with the reader completed it does nothing to them. -/
theorem buffers_piece (hA : p.readerCompleted = true ∨ Accounted o p) (l : PipeLocal) (stop oom : Bool) :
    let q := ((pipeline ρ o).exec l p stop oom).shared
    (p.readerCompleted = false ∧ ∃ b, Adds o p q oom b) ∨ ∃ freed, Frees o p q freed := by
  have hm := pipe_moves o l p stop oom
  generalize (pipeline ρ o).exec l p stop oom = r at hm ⊢
  have hA' : p.readerCompleted = false → Accounted o p := by
    intro hr
    rcases hA with hc | hA
    · rw [hr] at hc; cases hc
    · exact hA
  have tail : ∀ waiting, ∃ freed, Frees o p
      (({ p with readerWaiting := waiting } : Pipe ρ π).readTail stop).shared freed := by
    intro waiting
    rcases readTail_cases { p with readerWaiting := waiting } stop with ⟨-, he⟩ | ⟨-, he⟩ <;> rw [he]
    · exact ⟨[], frees_nothing rfl rfl⟩
    · exact ⟨[], frees_nothing rfl rfl⟩
  cases hm with
  | chunk q n hd hp hc ha hq =>
    have hr : p.readerCompleted = false := by
      simp only [Pipe.isAnyCompleted, Bool.or_eq_false_iff] at hc
      exact hc.2
    rcases copyChunk_buffers (hA' hr) ha hq with ⟨b, hb⟩ | hf
    · exact .inl ⟨hr, b, { hb with }⟩
    · exact .inr ⟨[], { hf with }⟩
  | readNow => exact .inr (tail p.readerWaiting)
  | readAfter => exact .inr (tail false)
  | advanceFault evs hr hp he hx hevs =>
    obtain ⟨freed, h1, h2⟩ := advanceLoop_buffers (hA' hr).capacity p.allocator _ p.bufferedSize p.actualBufferedSize
    exact .inr ⟨freed, h1, h2⟩
  | advance q paused hr hp he hx hq hpa =>
    obtain ⟨freed, h1, h2⟩ := advanceLoop_buffers (hA' hr).capacity p.allocator _ p.bufferedSize p.actualBufferedSize
    subst hq
    exact .inr ⟨freed, h1, h2⟩
  | _ => exact .inr ⟨[], frees_nothing rfl rfl⟩

/-- With the reader completed no piece touches the segments. -/
private theorem segments_of_completed (hr : p.readerCompleted = true) (l : PipeLocal) (stop oom : Bool) :
    ((pipeline ρ o).exec l p stop oom).shared.segments = p.segments := by
  have hm := pipe_moves o l p stop oom
  generalize (pipeline ρ o).exec l p stop oom = r at hm ⊢
  cases hm with
  | chunk q n hd hp hc => simp [Pipe.isAnyCompleted, hr] at hc
  | readNow => rcases readTail_cases p stop with ⟨-, he⟩ | ⟨-, he⟩ <;> rw [he]
  | readAfter =>
    rcases readTail_cases { p with readerWaiting := false } stop with ⟨-, he⟩ | ⟨-, he⟩ <;> rw [he]
  | advanceFault _ hc => rw [hr] at hc; cases hc
  | advance _ _ hc => rw [hr] at hc; cases hc
  | _ => rfl

private theorem bounded_piece (hB : Bounded o p) (hA : p.readerCompleted = true ∨ Accounted o p) {l : PipeLocal}
    (hl : l.Ordered) (stop oom : Bool) : Bounded o ((pipeline ρ o).exec l p stop oom).shared := by
  rcases hA with hr | hA
  · exact ⟨by rw [segments_of_completed hr]; exact hB.capacity, by rw [segments_of_completed hr]; exact hB.length_le⟩
  · by_cases hne : l = .completeReader
    · subst hne
      exact ⟨hB.capacity, hB.length_le⟩
    · exact (accounted_piece hA hl hne stop oom).bounded

/-! ### Runs -/

section

variable {ok : PipeState τ ρ π → PipeAction τ → Prop} {m : ρ} {tr : List PipeEvent} {s : PipeState τ ρ π}

/-- The rule for the memory resource and the row of buffers it has handed out. -/
theorem buffers_invariant {I : ρ → List π → Prop}
    (h : ((pipeline ρ o).machine τ).Exec ok (State.init (Pipe.new m)) tr s) (h0 : I m [])
    (halloc : ∀ r bs b r' oom, I r bs → (bs.length + 1) * o.bufferSize ≤ o.pauseWriterThreshold →
      MemoryResource.allocate r o.bufferSize oom = some (b, r') → I r' (bs ++ [b]))
    (hfree : ∀ r b bs, I r (b :: bs) → I (MemoryResource.deallocate r b o.bufferSize) bs) :
    Bounded o s.shared ∧ I s.shared.allocator s.shared.buffers := by
  have hfrees : ∀ freed r bs, I r (freed ++ bs) → I (giveBack r o.bufferSize freed) bs := by
    intro freed
    induction freed with
    | nil => exact fun r bs hI => hI
    | cons b freed ih => exact fun r bs hI => ih _ bs (hfree r b _ hI)
  have hinv := Monitor.shared_invariant
    (P := fun p => (p.readerCompleted = true ∨ Accounted o p) ∧ Bounded o p ∧ I p.allocator p.buffers) h
    ⟨.inr (accounted_new o m), (accounted_new o m).bounded, h0⟩ (fun s t op l _ he => enter_ordered he) ?_
  · exact hinv.1.2
  · intro l p stop oom ⟨hA, hB, hI⟩ hl
    refine ⟨⟨?_, bounded_piece hB hA hl stop oom, ?_⟩, fun l' hl' => next_ordered hl'⟩
    · exact accounted_or_completed_piece hA hl stop oom
    · rcases buffers_piece hA l stop oom with ⟨-, b, hb⟩ | ⟨freed, hf⟩
      · rw [hb.buffers]
        exact halloc _ _ _ _ oom hI hb.room hb.allocated
      · rw [hf.given]
        exact hfrees freed _ _ (hf.buffers ▸ hI)

end

/-! ### The fixed pool -/

namespace FixedPoolResource

/-- The buffers handed out and the pooled ones are those obtained from `operator new`, each once. -/
structure Pooled (o : ValidatedOptions) (r : FixedPoolResource) (bs : List Nat) : Prop where
  maxPoolSize : r.maxPoolSize = o.maxPooledSegments
  buffers : (bs ++ r.availableBuffers).Perm (List.range r.created)
  created_le : r.created ≤ o.pauseWriterThreshold / o.bufferSize

variable {r r' : FixedPoolResource} {bs : List Nat} {b : Nat} {oom : Bool}

theorem Pooled.length_eq (h : Pooled o r bs) : bs.length + r.availableBuffers.length = r.created := by
  have := h.buffers.length_eq
  simpa using this

/-- A new buffer comes with the next number, and only while all others are handed out. -/
theorem Pooled.allocate (h : Pooled o r bs) (hroom : (bs.length + 1) * o.bufferSize ≤ o.pauseWriterThreshold)
    (ha : r.doAllocate oom = some (b, r')) : Pooled o r' (bs ++ [b]) := by
  unfold doAllocate at ha
  split at ha
  · rename_i hnone
    have hnil : r.availableBuffers = [] := List.getLast?_eq_none_iff.1 hnone
    split at ha
    · cases ha
    · cases ha
      have hlen := h.length_eq
      have hperm := h.buffers
      rw [hnil, List.length_nil, Nat.add_zero] at hlen
      rw [hnil, List.append_nil] at hperm
      refine ⟨h.maxPoolSize, ?_, ?_⟩
      · rw [hnil, List.append_nil, List.range_succ]
        exact hperm.append_right _
      · show r.created + 1 ≤ _
        rw [Nat.le_div_iff_mul_le o.bufferSize_pos, ← hlen]
        exact hroom
  · rename_i buffer hlast
    cases ha
    obtain ⟨front, hf⟩ := List.getLast?_eq_some_iff.1 hlast
    refine ⟨h.maxPoolSize, ?_, h.created_le⟩
    refine List.Perm.trans ?_ h.buffers
    rw [hf, List.dropLast_concat, List.append_assoc]
    exact List.Perm.append_left _ List.perm_append_comm

/-- The pool has room for every buffer that is given back. -/
theorem Pooled.room (h : Pooled o r (b :: bs)) : r.availableBuffers.length < r.maxPoolSize := by
  have h1 := h.length_eq
  have h2 := h.created_le
  have h3 := o.div_le_maxPooledSegments
  have h4 := h.maxPoolSize
  simp only [List.length_cons] at h1
  omega

theorem Pooled.deallocate (h : Pooled o r (b :: bs)) : Pooled o (r.doDeallocate b) bs := by
  unfold doDeallocate
  rw [if_pos h.room]
  refine ⟨h.maxPoolSize, ?_, h.created_le⟩
  refine List.Perm.trans ?_ h.buffers
  show (bs ++ (r.availableBuffers ++ [b])).Perm (b :: (bs ++ r.availableBuffers))
  rw [← List.append_assoc]
  exact List.perm_append_singleton b _

theorem Pooled.giveBack_take (h : Pooled o r bs) (k : Nat) :
    Pooled o (giveBack r o.bufferSize (bs.take k)) (bs.drop k) := by
  induction k generalizing r bs with
  | zero => exact h
  | succ k ih =>
    cases bs with
    | nil => exact h
    | cons b bs => exact ih h.deallocate

theorem pooled_of_exec {tr : List PipeEvent} {s : PipeState τ FixedPoolResource Nat}
    (h : ((pipeline FixedPoolResource o).machine τ).Exec Machine.Any (State.init (Pipe.new (.make o))) tr s) :
    Pooled o s.shared.allocator s.shared.buffers := by
  refine (buffers_invariant (I := Pooled o) h ⟨rfl, List.Perm.refl _, Nat.zero_le _⟩ ?_ ?_).2
  · exact fun r bs b r' oom hI hroom ha => hI.allocate hroom ha
  · exact fun r b bs hI => hI.deallocate

end FixedPoolResource

/-- A pipeline over the fixed pool.  In every state of every run the buffers of the segments and the pooled ones are
pairwise different, so no allocation hands out a buffer in use; every buffer obtained from `operator new` is either in
use or pooled; giving back the buffers of the segments, however many, finds room in the pool each time; and no more
buffers are obtained than segments fit below the pause threshold. -/
theorem fixed_pool_exclusive {tr : List PipeEvent} {s : PipeState τ FixedPoolResource Nat}
    (h : ((pipeline FixedPoolResource o).machine τ).Exec Machine.Any (State.init (Pipe.new (.make o))) tr s) :
    (s.shared.buffers ++ s.shared.allocator.availableBuffers).Nodup ∧
    (∀ b r oom, MemoryResource.allocate s.shared.allocator o.bufferSize oom = some (b, r) → b ∉ s.shared.buffers) ∧
    (∀ b, b < s.shared.allocator.created →
      Xor (b ∈ s.shared.buffers) (b ∈ s.shared.allocator.availableBuffers)) ∧
    (∀ b ∈ s.shared.buffers ++ s.shared.allocator.availableBuffers, b < s.shared.allocator.created) ∧
    (∀ k, k < s.shared.segments.length →
      (giveBack s.shared.allocator o.bufferSize (s.shared.buffers.take k)).availableBuffers.length <
        (giveBack s.shared.allocator o.bufferSize (s.shared.buffers.take k)).maxPoolSize) ∧
    s.shared.allocator.created ≤ o.pauseWriterThreshold / o.bufferSize := by
  have hP := FixedPoolResource.pooled_of_exec h
  have hnodup : (s.shared.buffers ++ s.shared.allocator.availableBuffers).Nodup :=
    hP.buffers.nodup_iff.2 List.nodup_range
  have hmem : ∀ b, b ∈ s.shared.buffers ++ s.shared.allocator.availableBuffers ↔ b < s.shared.allocator.created := by
    intro b
    rw [hP.buffers.mem_iff, List.mem_range]
  refine ⟨hnodup, ?_, ?_, fun b hb => (hmem b).1 hb, ?_, hP.created_le⟩
  · intro b r oom ha hb
    change s.shared.allocator.doAllocate oom = some (b, r) at ha
    unfold FixedPoolResource.doAllocate at ha
    split at ha
    · split at ha
      · cases ha
      · cases ha
        exact absurd ((hmem _).1 (List.mem_append_left _ hb)) (Nat.lt_irrefl _)
    · rename_i buffer hlast
      cases ha
      exact (List.nodup_append.1 hnodup).2.2 b hb b (List.mem_of_getLast? hlast) rfl
  · intro b hb
    rcases List.mem_append.1 ((hmem b).2 hb) with h1 | h1
    · exact .inl ⟨h1, fun h2 => (List.nodup_append.1 hnodup).2.2 b h1 b h2 rfl⟩
    · exact .inr ⟨h1, fun h2 => (List.nodup_append.1 hnodup).2.2 b h2 b h1 rfl⟩
  · intro k hk
    have hk' := hP.giveBack_take k
    have hlen : k < s.shared.buffers.length := by simpa [Pipe.buffers] using hk
    rw [List.drop_eq_getElem_cons hlen] at hk'
    exact hk'.room

/-- Thread `1` consumes the four bytes that thread `0` has written and thread `0` goes on with its fifth. -/
def writeAfterRead : List (PipeAction (Fin 2)) :=
  writeAndRead ++ [.call 1 (.advance ⟨4, true⟩ ⟨4, true⟩), .run 1 false, .run 1 false, .notify 1 none,
    .run 0 false, .run 0 false, .run 0 false, .run 0 false]

theorem fixed_pool_exclusive_writeAfterRead :
    ∃ tr, ∃ s : PipeState (Fin 2) FixedPoolResource Nat,
      ((pipeline FixedPoolResource .small).machine (Fin 2)).Exec Machine.Any (State.init (Pipe.new (.make .small))) tr s ∧
      s.shared.buffers = [1] ∧ s.shared.allocator.availableBuffers = [0] ∧ s.shared.allocator.created = 2 ∧
      (s.shared.buffers ++ s.shared.allocator.availableBuffers).Nodup ∧ s.shared.allocator.created ≤ 5 / 2 := by
  obtain ⟨tr, s, h, hc⟩ := Machine.exists_exec_of_run ((pipeline FixedPoolResource .small).machine (Fin 2))
    Machine.Any (State.init (Pipe.new (.make .small))) (fun _ _ => true) writeAfterRead
    (fun _ s => decide (s.shared.buffers = [1] ∧ s.shared.allocator.availableBuffers = [0] ∧
      s.shared.allocator.created = 2)) (fun _ _ _ => trivial) (by decide)
  obtain ⟨h1, h2, h3⟩ := of_decide_eq_true hc
  obtain ⟨hn, -, -, -, -, hle⟩ := fixed_pool_exclusive h
  exact ⟨tr, s, h, h1, h2, h3, hn, hle⟩

end Xtd
