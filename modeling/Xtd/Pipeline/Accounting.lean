import Xtd.Concurrency.Rules
import Xtd.Pipeline.Pieces
import Xtd.Pipeline.FixedPool

/-!
# The byte counts of the pipeline

As long as the reader is not completed, the counters of the pipeline agree with its segments (`Accounted`).  The
argument is about a row of segments: all are non-empty and of the configured size, and all but the last are full.  The
loop of `advance` takes bytes off the front of such a row and a chunk of `write` is put at its end; none of the unsigned
operations on the way wraps around.
-/

namespace Xtd

open Concurrency

variable {ρ π : Type}

/-! ### Rows of segments -/

/-- The segments of a pipeline with segment size `n`. -/
structure Row (n : Nat) (segs : List (DataSegment π)) : Prop where
  capacity : ∀ s ∈ segs, s.capacity = n
  readable : ∀ s ∈ segs, 1 ≤ s.readableSize
  full : ∀ s ∈ segs.dropLast, s.full = true

theorem Row.nil (n : Nat) : Row n ([] : List (DataSegment π)) := ⟨by simp, by simp, by simp⟩

theorem Row.tail {n : Nat} {s : DataSegment π} {l : List (DataSegment π)} (h : Row n (s :: l)) : Row n l := by
  refine ⟨fun x hx => h.capacity x (by simp [hx]), fun x hx => h.readable x (by simp [hx]), ?_⟩
  intro x hx
  cases l with
  | nil => simp at hx
  | cons y l => exact h.full x (by simp [hx])

theorem Row.replace_head {n : Nat} {s s' : DataSegment π} {l : List (DataSegment π)} (h : Row n (s :: l))
    (hc : s'.capacity = s.capacity) (hr : 1 ≤ s'.readableSize) (hw : s'.writableSize = s.writableSize) :
    Row n (s' :: l) := by
  refine ⟨?_, ?_, ?_⟩
  · intro x hx
    rcases List.mem_cons.1 hx with rfl | hx
    · rw [hc]; exact h.capacity s (by simp)
    · exact h.capacity x (by simp [hx])
  · intro x hx
    rcases List.mem_cons.1 hx with rfl | hx
    · exact hr
    · exact h.readable x (by simp [hx])
  · intro x hx
    cases l with
    | nil => simp at hx
    | cons y l =>
      rw [List.dropLast_cons_of_ne_nil (by simp)] at hx
      rcases List.mem_cons.1 hx with rfl | hx
      · unfold DataSegment.full
        rw [hw]
        exact h.full s (by simp)
      · exact h.full x (by simp [hx])

/-- A row extended or closed by a last segment. -/
theorem Row.snoc {n : Nat} {front : List (DataSegment π)} {back : DataSegment π}
    (hf : ∀ s ∈ front, s.capacity = n ∧ 1 ≤ s.readableSize ∧ s.full = true) (hc : back.capacity = n)
    (hr : 1 ≤ back.readableSize) : Row n (front ++ [back]) := by
  refine ⟨?_, ?_, ?_⟩
  · intro x hx
    rcases List.mem_append.1 hx with hx | hx
    · exact (hf x hx).1
    · rw [List.mem_singleton.1 hx]; exact hc
  · intro x hx
    rcases List.mem_append.1 hx with hx | hx
    · exact (hf x hx).2.1
    · rw [List.mem_singleton.1 hx]; exact hr
  · intro x hx
    rw [List.dropLast_concat] at hx
    exact (hf x hx).2.2

theorem Row.front {n : Nat} {front : List (DataSegment π)} {back : DataSegment π} (h : Row n (front ++ [back])) :
    ∀ s ∈ front, s.capacity = n ∧ 1 ≤ s.readableSize ∧ s.full = true := by
  intro s hs
  exact ⟨h.capacity s (by simp [hs]), h.readable s (by simp [hs]), h.full s (by simpa using hs)⟩

/-- Each segment of a row holds at least one byte. -/
theorem Row.length_le {n : Nat} {l : List (DataSegment π)} (h : Row n l) : l.length ≤ readableSize l := by
  induction l with
  | nil => simp
  | cons s l ih =>
    have := ih h.tail
    have := h.readable s (by simp)
    simp only [List.length_cons, readableSize_cons]
    omega

theorem readableSize_le_mul {n : Nat} {l : List (DataSegment π)} (h : ∀ s ∈ l, s.capacity = n) :
    readableSize l ≤ l.length * n := by
  induction l with
  | nil => simp
  | cons s l ih =>
    have h1 := ih (fun x hx => h x (by simp [hx]))
    have h2 := s.readableSize_le
    rw [h s (by simp)] at h2
    simp only [List.length_cons, readableSize_cons, Nat.succ_mul]
    omega

/-! ### The loop of `advance` -/

section

variable [MemoryResource ρ π]

/-- On a row that holds enough bytes the loop of `advance` drops exactly the first `remaining` bytes, and none of its
subtractions wraps around. -/
theorem advanceLoop_spec {n : Nat} {segs : List (DataSegment π)} (r : ρ) {remaining b a : Nat} (hrow : Row n segs)
    (hb : b = readableSize segs) (hb' : b < SizeT.modulus) (ha : a = segs.length * n) (ha' : a < SizeT.modulus)
    (hr : remaining ≤ b) :
    let loop := Pipe.advanceLoop n segs r remaining b a
    loop.exit = .done ∧ Row n loop.segments ∧ loop.dropped = (readableBytes segs).take remaining ∧
      readableBytes loop.segments = (readableBytes segs).drop remaining ∧
      loop.bufferedSize = readableSize loop.segments ∧ loop.actualBufferedSize = loop.segments.length * n ∧
      loop.segments.length ≤ segs.length ∧ ∀ x ∈ loop.subtractions, x.2 ≤ x.1 := by
  induction segs generalizing r remaining b a with
  | nil =>
    simp only [readableSize_nil] at hb
    obtain rfl : remaining = 0 := by omega
    simp [Pipe.advanceLoop, hb, ha, hrow]
  | cons s l ih =>
    rw [readableSize_cons] at hb
    rw [List.length_cons, Nat.succ_mul] at ha
    have hs1 := hrow.readable s (by simp)
    unfold Pipe.advanceLoop
    split
    · dsimp only
      split
      · rename_i hlt
        obtain ⟨s', hs', hbytes, hsize, hcap, hwr⟩ := DataSegment.advanceRead_eq_ok (Nat.le_of_lt hlt)
        rw [hs']
        refine ⟨rfl, hrow.replace_head hcap (by omega) hwr, ?_, ?_, ?_, by simp [ha, Nat.succ_mul], by simp, ?_⟩
        · rw [readableBytes_cons, List.take_append_of_le_length (by simp; omega)]
        · rw [readableBytes_cons, readableBytes_cons, hbytes, List.drop_append_of_le_length (by simp; omega)]
        · show SizeT.sub b remaining = readableSize (s' :: l)
          rw [SizeT.sub_eq hr hb', readableSize_cons, hsize]
          omega
        · simpa using hr
      · rename_i hge
        -- the head is dropped as a whole and the loop goes on with the rest of the row
        have e1 : SizeT.sub remaining s.readableSize = remaining - s.readableSize :=
          SizeT.sub_eq (by omega) (by omega)
        have e2 : SizeT.sub b s.readableSize = readableSize l := by
          rw [SizeT.sub_eq (by omega) hb']; omega
        have e3 : SizeT.sub a n = l.length * n := by
          rw [SizeT.sub_eq (by omega) ha']; omega
        have e4 : SizeT.sub remaining s.readableSize ≤ SizeT.sub b s.readableSize := by omega
        obtain ⟨h1, h2, h3, h4, h5, h6, h7, h8⟩ := ih (MemoryResource.deallocate r s.buffer s.capacity)
          hrow.tail e2 (by omega) e3 (by omega) e4
        have hlen : s.readableBytes.length ≤ remaining := by simp; omega
        refine ⟨h1, h2, ?_, ?_, h5, h6, by simp only [List.length_cons]; omega, ?_⟩
        · rw [h3, e1, readableBytes_cons, List.take_append, List.take_of_length_le hlen]
          simp
        · rw [h4, e1, readableBytes_cons, List.drop_append, List.drop_of_length_le hlen]
          simp
        · intro x hx
          simp only [List.mem_cons] at hx
          rcases hx with rfl | rfl | rfl | hx
          · simp only; omega
          · simp only; omega
          · simp only; omega
          · exact h8 x hx
    · rename_i h0
      obtain rfl : remaining = 0 := by omega
      simp [hb, ha, hrow, Nat.succ_mul]

end

/-! ### The invariant -/

/-- The byte counts of the pipeline are right. -/
structure Accounted (o : ValidatedOptions) (p : Pipe ρ π) : Prop where
  buffered : p.bufferedSize = readableSize p.segments
  actual : p.actualBufferedSize = p.segments.length * o.bufferSize
  actual_le : p.actualBufferedSize ≤ o.pauseWriterThreshold
  readable : ∀ s ∈ p.segments, 1 ≤ s.readableSize ∧ s.readableSize ≤ o.bufferSize
  capacity : ∀ s ∈ p.segments, s.capacity = o.bufferSize
  full : ∀ s ∈ p.segments.dropLast, s.full = true
  examined : p.examinedSize ≤ p.bufferedSize
  pending : p.pendingReadSize ≤ p.bufferedSize
  pending_zero : p.hasPendingRead = false → p.pendingReadSize = 0

variable {o : ValidatedOptions} {p q : Pipe ρ π}

theorem Accounted.row (h : Accounted o p) : Row o.bufferSize p.segments :=
  ⟨h.capacity, fun s hs => (h.readable s hs).1, h.full⟩

theorem Accounted.of_row (hrow : Row o.bufferSize p.segments) (hb : p.bufferedSize = readableSize p.segments)
    (ha : p.actualBufferedSize = p.segments.length * o.bufferSize)
    (hle : p.actualBufferedSize ≤ o.pauseWriterThreshold) (he : p.examinedSize ≤ p.bufferedSize)
    (hp : p.pendingReadSize ≤ p.bufferedSize) (hz : p.hasPendingRead = false → p.pendingReadSize = 0) :
    Accounted o p where
  buffered := hb
  actual := ha
  actual_le := hle
  readable s hs := ⟨hrow.readable s hs, hrow.capacity s hs ▸ s.readableSize_le⟩
  capacity := hrow.capacity
  full := hrow.full
  examined := he
  pending := hp
  pending_zero := hz

theorem Accounted.buffered_le (h : Accounted o p) : p.bufferedSize ≤ p.actualBufferedSize := by
  rw [h.buffered, h.actual]
  exact readableSize_le_mul h.capacity

theorem Accounted.actual_lt (h : Accounted o p) : p.actualBufferedSize < SizeT.modulus :=
  Nat.lt_of_le_of_lt h.actual_le o.pause_lt

theorem Accounted.buffered_lt (h : Accounted o p) : p.bufferedSize < SizeT.modulus :=
  Nat.lt_of_le_of_lt h.buffered_le h.actual_lt

/-- The pipeline holds bytes exactly when it has segments. -/
theorem Accounted.buffered_pos (h : Accounted o p) (hs : p.segments ≠ []) : 0 < p.bufferedSize := by
  have := h.row.length_le
  have := List.length_pos_of_ne_nil hs
  rw [h.buffered]
  omega

theorem accounted_new (o : ValidatedOptions) (r : ρ) : Accounted o (Pipe.new r : Pipe ρ π) :=
  .of_row (Row.nil _) rfl (by simp [Pipe.new]) (Nat.zero_le _) (Nat.le_refl _) (Nat.le_refl _) (fun _ => rfl)

/-! ### A chunk of `write` -/

theorem Accounted.allocationCapacity_eq (h : Accounted o p) :
    p.segmentAllocationCapacity o = o.pauseWriterThreshold - p.actualBufferedSize := by
  have := h.actual_le
  unfold Pipe.segmentAllocationCapacity
  split
  · rw [SizeT.sub_eq h.actual_le o.pause_lt]
  · omega

/-- Room for a new segment is only reported when it fits below the pause threshold. -/
theorem Accounted.room (h : Accounted o p) (ht : p.hasWritableTail = false) (hc : p.writerAvailableCapacity o ≠ 0) :
    p.actualBufferedSize + o.bufferSize ≤ o.pauseWriterThreshold ∧ p.writerAvailableCapacity o = o.bufferSize := by
  have := h.actual_le
  unfold Pipe.writerAvailableCapacity at hc ⊢
  rw [ht, h.allocationCapacity_eq] at *
  simp only [Bool.false_eq_true, ↓reduceIte, ge_iff_le] at hc ⊢
  by_cases hle : o.bufferSize ≤ o.pauseWriterThreshold - p.actualBufferedSize
  · rw [if_pos hle]
    omega
  · exact absurd (if_neg hle) hc

section

variable [MemoryResource ρ π]

/-- The segment that `get_segment` hands out is the last of the row and has the room that was computed. -/
theorem getSegment_spec {p' : Pipe ρ π} {oom : Bool} (h : Accounted o p) (hc : p.writerAvailableCapacity o ≠ 0)
    (hg : p.getSegment o oom = some p') :
    ∃ r front back, p' = { p with
        allocator := r
        segments := front ++ [back]
        actualBufferedSize := (front.length + 1) * o.bufferSize } ∧
      back.writableSize = p.writerAvailableCapacity o ∧ back.capacity = o.bufferSize ∧
      (∀ s ∈ front, s.capacity = o.bufferSize ∧ 1 ≤ s.readableSize ∧ s.full = true) ∧
      readableBytes (front ++ [back]) = readableBytes p.segments ∧
      (front.length + 1) * o.bufferSize ≤ o.pauseWriterThreshold := by
  have hact := h.actual
  unfold Pipe.getSegment at hg
  split at hg
  · rename_i hall
    -- the deque is empty or its last segment is full: a new segment is allocated
    have ht : p.hasWritableTail = false := by
      unfold Pipe.hasWritableTail
      split
      · rfl
      · rename_i back hb
        rw [hb] at hall
        simpa using hall
    obtain ⟨hroom, hcap⟩ := h.room ht hc
    have hfull : ∀ s ∈ p.segments, s.full = true := by
      intro s hs
      cases hb : p.segments.getLast? with
      | none =>
        rw [List.getLast?_eq_none_iff.1 hb] at hs
        cases hs
      | some back =>
        obtain ⟨front, hf⟩ := List.getLast?_eq_some_iff.1 hb
        rw [hf] at hs
        rcases List.mem_append.1 hs with hs | hs
        · exact h.full s (by rw [hf]; simpa using hs)
        · rw [List.mem_singleton.1 hs]
          rw [hb] at hall
          simpa using hall
    split at hg
    · cases hg
    · rename_i buffer r _
      cases hg
      have hadd : SizeT.add p.actualBufferedSize o.bufferSize = (p.segments.length + 1) * o.bufferSize := by
        rw [SizeT.add_eq (Nat.lt_of_le_of_lt hroom o.pause_lt), Nat.succ_mul, hact]
      refine ⟨r, p.segments, .new buffer o.bufferSize, by rw [hadd], by simp [hcap], rfl, ?_, by simp, ?_⟩
      · intro s hs
        exact ⟨h.capacity s hs, (h.readable s hs).1, hfull s hs⟩
      · rw [Nat.succ_mul, ← hact]; exact hroom
  · rename_i hall
    cases hg
    cases hb : p.segments.getLast? with
    | none => rw [hb] at hall; simp at hall
    | some back =>
      rw [hb] at hall
      simp only [Option.all_some, Bool.not_eq_true] at hall
      obtain ⟨front, hf⟩ := List.getLast?_eq_some_iff.1 hb
      have hlen : p.segments.length = front.length + 1 := by rw [hf]; simp
      have hrow : Row o.bufferSize (front ++ [back]) := hf ▸ h.row
      have hcap : p.writerAvailableCapacity o = back.writableSize := by
        unfold Pipe.writerAvailableCapacity Pipe.hasWritableTail Pipe.backWritableSize
        rw [hb]
        simp [hall]
      refine ⟨p.allocator, front, back, ?_, hcap.symm, hrow.capacity back (by simp), hrow.front, by rw [hf], ?_⟩
      · rw [← hf, ← hlen, ← hact]
      · rw [← hlen, ← hact]; exact h.actual_le

/-- A chunk appends the first bytes of the data to the readable bytes and keeps the counts right. -/
theorem copyChunk_spec {data : List Byte} {n : Nat} {oom : Bool} (h : Accounted o p) (hd : data ≠ [])
    (hc : p.writerAvailableCapacity o ≠ 0)
    (hq : p.copyChunk o data (p.writerAvailableCapacity o) oom = some (q, n)) :
    Accounted o q ∧ 1 ≤ n ∧ n ≤ data.length ∧
      readableBytes q.segments = readableBytes p.segments ++ data.take n ∧ q.segments ≠ [] := by
  unfold Pipe.copyChunk at hq
  dsimp only at hq
  split at hq
  · cases hq
  · rename_i p' hg
    obtain ⟨r, front, back, rfl, hw, hcap, hfront, hbytes, hpause⟩ := getSegment_spec h hc hg
    have hdl : 0 < data.length := List.length_pos_of_ne_nil hd
    generalize hreq : min data.length (p.writerAvailableCapacity o) = req at hq
    have hlen : (data.take req).length = req := by simp; omega
    have hmin : min back.writableSize (data.take req).length = req := by omega
    simp only [Pipe.copyToBack, List.getLast?_append, List.getLast?_singleton, Option.some_or, List.dropLast_concat,
      DataSegment.copyFrom_snd, hmin, Option.some.injEq, Prod.mk.injEq] at hq
    obtain ⟨rfl, rfl⟩ := hq
    have hback : (back.copyFrom (data.take req)).1.readableBytes = back.readableBytes ++ data.take req := by
      rw [DataSegment.readableBytes_copyFrom, hmin, List.take_take, Nat.min_self]
    have hrow : Row o.bufferSize (front ++ [(back.copyFrom (data.take req)).1]) := by
      refine Row.snoc hfront (by simp [hcap]) ?_
      rw [DataSegment.copyFrom_readableSize, hmin]
      omega
    have hsize : readableSize (front ++ [(back.copyFrom (data.take req)).1]) = p.bufferedSize + req := by
      have e := congrArg List.length hbytes
      rw [h.buffered]
      simp only [length_readableBytes, readableSize_append, readableSize_cons, readableSize_nil,
        DataSegment.copyFrom_readableSize, hmin] at e ⊢
      omega
    have hle := readableSize_le_mul hrow.capacity
    rw [List.length_append, List.length_singleton, hsize] at hle
    have hbuf : SizeT.add p.bufferedSize req = p.bufferedSize + req :=
      SizeT.add_eq (Nat.lt_of_le_of_lt (Nat.le_trans hle hpause) o.pause_lt)
    refine ⟨.of_row hrow ?_ ?_ hpause ?_ ?_ h.pending_zero, by omega, by omega, ?_, by simp⟩
    · show SizeT.add p.bufferedSize req = _
      rw [hbuf, hsize]
    · simp
    · have := h.examined
      show p.examinedSize ≤ SizeT.add p.bufferedSize req
      omega
    · have := h.pending
      show p.pendingReadSize ≤ SizeT.add p.bufferedSize req
      omega
    · rw [← hbytes]
      simp [hback]

/-! ### Every piece keeps the counts right -/

theorem consume_spec (h : Accounted o p) {consumed : Nat} (hc : consumed ≤ p.bufferedSize) :
    let loop := p.consume o consumed
    loop.exit = .done ∧ Row o.bufferSize loop.segments ∧ loop.dropped = (readableBytes p.segments).take consumed ∧
      readableBytes loop.segments = (readableBytes p.segments).drop consumed ∧
      loop.bufferedSize = readableSize loop.segments ∧
      loop.actualBufferedSize = loop.segments.length * o.bufferSize ∧
      loop.segments.length ≤ p.segments.length ∧ ∀ x ∈ loop.subtractions, x.2 ≤ x.1 :=
  advanceLoop_spec p.allocator h.row h.buffered h.buffered_lt h.actual h.actual_lt hc

/-- A successful `advance` takes `consumed` bytes off the count. -/
theorem consume_bufferedSize (h : Accounted o p) {consumed : Nat} (hc : consumed ≤ p.bufferedSize) :
    (p.consume o consumed).bufferedSize = p.bufferedSize - consumed := by
  obtain ⟨-, -, -, hbytes, hb, -⟩ := consume_spec h hc
  have e := congrArg List.length hbytes
  simp only [length_readableBytes, List.length_drop] at e
  rw [hb, e, h.buffered]

omit [MemoryResource ρ π] in
private theorem accounted_readTail (h : Accounted o p) (stop : Bool) : Accounted o (p.readTail stop).shared := by
  rcases readTail_cases p stop with ⟨-, he⟩ | ⟨-, he⟩
  · rw [he]; exact h
  · rw [he]
    have hsize := size_makeReadableView (h.buffered ▸ h.buffered_lt)
    refine .of_row h.row h.buffered h.actual h.actual_le h.examined ?_ (fun h => nomatch h)
    show (makeReadableView p.segments).size ≤ p.bufferedSize
    rw [hsize, h.buffered]

private theorem accounted_advance (h : Accounted o p) {consumed examined : Nat} {paused : Bool}
    (hce : consumed ≤ examined) (he : examined ≤ p.pendingReadSize)
    (hq : q = { p.afterConsume o consumed with examinedSize := SizeT.sub examined consumed }) :
    Accounted o { q with writerPaused := paused, pendingReadSize := 0, hasPendingRead := false } := by
  have hpend := h.pending
  have hc : consumed ≤ p.bufferedSize := by omega
  have hbuf := consume_bufferedSize h hc
  obtain ⟨-, hrow, -, -, hb, ha, hlen, -⟩ := consume_spec h hc
  subst hq
  refine .of_row hrow hb ha ?_ ?_ (Nat.zero_le _) (fun _ => rfl)
  · show (p.consume o consumed).actualBufferedSize ≤ _
    rw [ha]
    refine Nat.le_trans (Nat.mul_le_mul_right _ hlen) ?_
    rw [← h.actual]
    exact h.actual_le
  · show SizeT.sub examined consumed ≤ (p.consume o consumed).bufferedSize
    have := h.buffered_lt
    rw [SizeT.sub_eq hce (by omega), hbuf]
    omega

/-- The positions a call of `advance` comes with are in order. -/
def PipeLocal.Ordered : PipeLocal → Prop
  | .advance consumed examined => consumed ≤ examined
  | _ => True

/-- Every piece but that of `complete_reader` keeps the counts right. -/
theorem accounted_piece (h : Accounted o p) {l : PipeLocal} (hl : l.Ordered) (hne : l ≠ .completeReader)
    (stop oom : Bool) : Accounted o ((pipeline ρ o).exec l p stop oom).shared := by
  have hm := pipe_moves o l p stop oom
  generalize (pipeline ρ o).exec l p stop oom = r at hm ⊢
  cases hm with
  | pause => exact { h with }
  | chunk q n hd hp hc ha hq => exact { (copyChunk_spec h hd ha hq).1 with }
  | readWait => exact { h with }
  | readNow => exact accounted_readTail h stop
  | readAfter => exact accounted_readTail (p := { p with readerWaiting := false }) { h with } stop
  | advanceFault evs hr hp he hx =>
    have := h.pending
    have hce : _ ≤ _ := hl
    exact absurd (consume_spec h (by omega)).1 hx
  | advance q paused hr hp he hx hq hpa => exact accounted_advance h hl he hq
  | completeWriter => exact { h with }
  | completeReader => exact absurd rfl hne
  | _ => exact h

theorem accounted_or_completed_piece (h : p.readerCompleted = true ∨ Accounted o p) {l : PipeLocal} (hl : l.Ordered)
    (stop oom : Bool) :
    ((pipeline ρ o).exec l p stop oom).shared.readerCompleted = true ∨
      Accounted o ((pipeline ρ o).exec l p stop oom).shared := by
  rcases h with hr | hA
  · exact .inl (readerCompleted_mono l stop oom hr)
  · by_cases hne : l = .completeReader
    · subst hne; exact .inl rfl
    · exact .inr (accounted_piece hA hl hne stop oom)

/-- The local states that follow a piece are in order again. -/
theorem next_ordered {l l' : PipeLocal} {stop oom : Bool}
    (h : ((pipeline ρ o).exec l p stop oom).next.local? = some l') : l'.Ordered := by
  have hm := pipe_moves o l p stop oom
  generalize (pipeline ρ o).exec l p stop oom = r at hm h
  cases hm with
  | leave => rw [writeUnlock_local h]; trivial
  | pause => rw [writeUnlock_local h]; trivial
  | readNow => cases (readTail_local _ _).symm.trans h
  | readAfter => cases (readTail_local _ _).symm.trans h
  | topWait => cases h; trivial
  | chunk => cases h; trivial
  | readWait => cases h; trivial
  | _ => cases h

theorem enter_ordered {op : PipeOp} {n : Nat} {l : PipeLocal} (h : (op.enter n).2 = some l) : l.Ordered := by
  obtain ⟨evs, hen⟩ := pipe_enters_of_some h
  cases hen with
  | advance consumed examined hle => exact hle
  | _ => trivial

/-! ### Runs -/

variable {τ : Type} [DecidableEq τ] [Fintype τ]

/-- The state of a pipeline and the threads that use it. -/
abbrev PipeState (τ ρ π : Type) := State τ (Pipe ρ π) PipeLocal CondVar PipeEvent

abbrev PipeAction (τ : Type) := Action τ PipeOp Bool

/-- While the reader is not completed the counts are right, and the calls of `advance` under way come with positions in
order. -/
theorem accounted_of_exec {ok : PipeState τ ρ π → PipeAction τ → Prop} {r : ρ} {tr : List PipeEvent}
    {s : PipeState τ ρ π} (h : ((pipeline ρ o).machine τ).Exec ok (State.init (Pipe.new r)) tr s) :
    (s.shared.readerCompleted = true ∨ Accounted o s.shared) ∧
      ∀ t l, (s.phase t).local? = some l → l.Ordered := by
  refine Monitor.shared_invariant (P := fun p => p.readerCompleted = true ∨ Accounted o p) h
    (.inr (accounted_new o r)) (fun s t op l _ he => enter_ordered he) ?_
  intro l p stop oom hp hl
  exact ⟨accounted_or_completed_piece hp hl stop oom, fun l' hl' => next_ordered hl'⟩

theorem accounted_of_open {ok : PipeState τ ρ π → PipeAction τ → Prop} {r : ρ} {tr : List PipeEvent}
    {s : PipeState τ ρ π} (h : ((pipeline ρ o).machine τ).Exec ok (State.init (Pipe.new r)) tr s)
    (hr : s.shared.readerCompleted = false) : Accounted o s.shared := by
  rcases (accounted_of_exec h).1 with hc | hA
  · rw [hr] at hc
    cases hc
  · exact hA

/-- In every state of every run before `complete_reader` the counts are right.  So the loop of `advance` never asks for
the front of an empty deque, its `advance_read` never throws, none of its subtractions wraps, and a segment that
`get_segment` allocates fits below the pause threshold. -/
theorem accounting_invariant {r : ρ} {tr : List PipeEvent} {s : PipeState τ ρ π}
    (h : ((pipeline ρ o).machine τ).Exec Machine.Any (State.init (Pipe.new r)) tr s)
    (hr : s.shared.readerCompleted = false) :
    Accounted o s.shared ∧
    (∀ consumed examined, consumed ≤ examined → examined ≤ s.shared.pendingReadSize →
      (s.shared.consume o consumed).exit = .done ∧
      ∀ x ∈ (examined, consumed) :: (s.shared.consume o consumed).subtractions, x.2 ≤ x.1) ∧
    (s.shared.writerAvailableCapacity o ≠ 0 → s.shared.segments.getLast?.all DataSegment.full = true →
      s.shared.actualBufferedSize + o.bufferSize ≤ o.pauseWriterThreshold) := by
  have hA := accounted_of_open h hr
  refine ⟨hA, ?_, ?_⟩
  · intro consumed examined hce he
    have := hA.pending
    have hc : consumed ≤ s.shared.bufferedSize := by omega
    obtain ⟨hx, -, -, -, -, -, -, hsub⟩ := consume_spec hA hc
    refine ⟨hx, ?_⟩
    intro x hx
    rcases List.mem_cons.1 hx with rfl | hx
    · exact hce
    · exact hsub x hx
  · intro hc hall
    refine (hA.room ?_ hc).1
    unfold Pipe.hasWritableTail
    split
    · rfl
    · rename_i back hb
      rw [hb] at hall
      simpa using hall

end

/-- Thread `0` writes five bytes into a pipeline with room for four and is paused; thread `1` reads them. -/
def writeAndRead : List (PipeAction (Fin 2)) :=
  [.call 0 (.write .oneToFive none),
    .run 0 false, .run 0 false, .run 0 false, .run 0 false, .run 0 false, .run 0 false,
    .call 1 (.readAtLeast 0 none), .run 1 false, .run 1 false, .run 1 false, .run 1 false]

theorem accounting_invariant_writeAndRead :
    ∃ tr, ∃ s : PipeState (Fin 2) FixedPoolResource Nat,
      ((pipeline FixedPoolResource .small).machine (Fin 2)).Exec Machine.Any (State.init (Pipe.new (.make .small))) tr s ∧
      s.shared.readerCompleted = false ∧ s.shared.pendingReadSize = 4 ∧ Accounted .small s.shared := by
  obtain ⟨tr, s, h, hc⟩ := Machine.exists_exec_of_run ((pipeline FixedPoolResource .small).machine (Fin 2))
    Machine.Any (State.init (Pipe.new (.make .small))) (fun _ _ => true) writeAndRead
    (fun _ s => decide (s.shared.readerCompleted = false ∧ s.shared.pendingReadSize = 4)) (fun _ _ _ => trivial)
    (by decide)
  obtain ⟨hr, hp⟩ := of_decide_eq_true hc
  exact ⟨tr, s, h, hr, hp, (accounting_invariant h hr).1⟩

end Xtd
