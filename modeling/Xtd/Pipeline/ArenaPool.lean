import Xtd.Pipeline.Buffers

/-!
# The arena

`arena_pool_resource.h`: one block of storage cut into slots of the segment size that are handed out around a ring.
`m_head` is the next slot to hand out.  A buffer that is given back is not looked at: `m_tail` goes to the next slot.
This is right because the pipeline gives buffers back in the order in which it has got them and never holds more
segments than fit below the pause threshold.

Pointers are addresses.  The assertions of the class are recorded in `assertsHeld`, and the calls of `do_allocate` and
`do_deallocate` are counted, as the statistics of the source do.
-/

namespace Xtd

open Concurrency

structure ArenaPoolResource where
  segmentSize : Nat
  maxPoolSize : Nat
  totalSize : Nat
  storage : Nat
  storageEnd : Nat
  head : Nat
  tail : Nat
  activeBuffers : Nat
  totalAllocations : Nat
  totalDeallocations : Nat
  assertsHeld : Bool

namespace ArenaPoolResource

/-- `alignof(std::byte)`, for the arena and for the segments. -/
def bufferAlignment : Nat := 1

def calculateTotalSize (bufferSize maxPoolSize : Nat) : Nat := bufferSize * maxPoolSize % SizeT.modulus

/-- An arena over the block that `operator new` returns at `storage`. -/
def new (storage bufferSize maxPoolSize : Nat) : ArenaPoolResource where
  segmentSize := bufferSize
  maxPoolSize := maxPoolSize
  totalSize := calculateTotalSize bufferSize maxPoolSize
  storage := storage
  storageEnd := storage + calculateTotalSize bufferSize maxPoolSize
  head := storage
  tail := storage
  activeBuffers := 0
  totalAllocations := 0
  totalDeallocations := 0
  assertsHeld := decide (bufferSize > 0) && decide (maxPoolSize > 0)

def advance (r : ArenaPoolResource) (pointer : Nat) : Nat :=
  let pointer := pointer + r.segmentSize
  if pointer = r.storageEnd then r.storage else pointer

def doAllocate (r : ArenaPoolResource) (bytes alignment : Nat) : Nat × ArenaPoolResource :=
  (r.head, { r with
    assertsHeld := r.assertsHeld && decide (bytes = r.segmentSize) && decide (alignment = bufferAlignment) &&
      decide (r.activeBuffers ≠ r.maxPoolSize)
    head := r.advance r.head
    activeBuffers := SizeT.add r.activeBuffers 1
    totalAllocations := r.totalAllocations + 1 })

/-- The pointer, the size and the alignment are not used. -/
def doDeallocate (r : ArenaPoolResource) : ArenaPoolResource :=
  { r with
    assertsHeld := r.assertsHeld && decide (r.activeBuffers > 0)
    tail := r.advance r.tail
    activeBuffers := SizeT.sub r.activeBuffers 1
    totalDeallocations := r.totalDeallocations + 1 }

/-- The assertion of the destructor. -/
def destructorAssert (r : ArenaPoolResource) : Bool := decide (r.activeBuffers = 0)

instance : MemoryResource ArenaPoolResource Nat where
  allocate r bytes _ := some (r.doAllocate bytes bufferAlignment)
  deallocate r _ _ := r.doDeallocate
  allocate_isSome _ _ := rfl

/-- `make_allocator` for the arena. -/
def make (storage : Nat) (o : ValidatedOptions) : ArenaPoolResource := .new storage o.bufferSize o.maxPooledSegments

/-! ### Slots -/

/-- The slot that follows `n` others around the ring. -/
def slot (storage : Nat) (o : ValidatedOptions) (n : Nat) : Nat :=
  storage + n % o.maxPooledSegments * o.bufferSize

variable {o : ValidatedOptions} {storage : Nat}

theorem slot_mem (storage : Nat) (o : ValidatedOptions) (n : Nat) :
    storage ≤ slot storage o n ∧
      slot storage o n + o.bufferSize ≤ storage + o.bufferSize * o.maxPooledSegments := by
  have h1 := Nat.mod_lt n o.maxPooledSegments_pos
  have h2 := Nat.mul_le_mul_right o.bufferSize h1
  rw [Nat.succ_mul, Nat.mul_comm o.maxPooledSegments] at h2
  unfold slot
  constructor <;> omega

/-- Slots less than a turn apart do not overlap. -/
theorem slot_disjoint {n k : Nat} (hk : 0 < k) (hk' : k < o.maxPooledSegments) :
    slot storage o n + o.bufferSize ≤ slot storage o (n + k) ∨
      slot storage o (n + k) + o.bufferSize ≤ slot storage o n := by
  have hne : n % o.maxPooledSegments ≠ (n + k) % o.maxPooledSegments := by
    intro h
    have h1 : n + k ≡ n + 0 [MOD o.maxPooledSegments] := h.symm
    have h2 : k % o.maxPooledSegments = 0 % o.maxPooledSegments := Nat.ModEq.add_left_cancel' n h1
    rw [Nat.mod_eq_of_lt hk', Nat.zero_mod] at h2
    omega
  unfold slot
  rcases Nat.lt_or_gt_of_ne hne with h | h
  · left
    have := Nat.mul_le_mul_right o.bufferSize h
    rw [Nat.succ_mul] at this
    omega
  · right
    have := Nat.mul_le_mul_right o.bufferSize h
    rw [Nat.succ_mul] at this
    omega

/-- The arena with slots of the given options that has handed out the row `bs`. -/
structure Ring (storage : Nat) (o : ValidatedOptions) (r : ArenaPoolResource) (bs : List Nat) : Prop where
  segmentSize : r.segmentSize = o.bufferSize
  maxPoolSize : r.maxPoolSize = o.maxPooledSegments
  storage_eq : r.storage = storage
  storageEnd : r.storageEnd = storage + o.bufferSize * o.maxPooledSegments
  active : r.activeBuffers = bs.length
  length_le : bs.length ≤ o.maxPooledSegments
  allocations : r.totalAllocations = r.totalDeallocations + bs.length
  head : r.head = slot storage o r.totalAllocations
  tail : r.tail = slot storage o r.totalDeallocations
  buffers : bs = (List.range bs.length).map (fun i => slot storage o (r.totalDeallocations + i))
  asserts : r.assertsHeld = true

variable {r : ArenaPoolResource} {bs : List Nat} {b : Nat}

/-- The pointers go to the next slot. -/
theorem Ring.advance_slot (h : Ring storage o r bs) (n : Nat) :
    r.advance (slot storage o n) = slot storage o (n + 1) := by
  have hpos := o.maxPooledSegments_pos
  have hb := o.bufferSize_pos
  have hlt := Nat.mod_lt n hpos
  unfold advance
  rw [h.segmentSize, h.storageEnd, h.storage_eq]
  dsimp only
  have e : slot storage o n + o.bufferSize = storage + (n % o.maxPooledSegments + 1) * o.bufferSize := by
    unfold slot
    rw [Nat.succ_mul]
    omega
  rw [e, Nat.mul_comm o.bufferSize]
  by_cases hn : n % o.maxPooledSegments + 1 = o.maxPooledSegments
  · rw [hn, if_pos rfl]
    have : (n + 1) % o.maxPooledSegments = 0 := by
      rw [← Nat.mod_add_mod, hn, Nat.mod_self]
    simp [slot, this]
  · have hne : storage + (n % o.maxPooledSegments + 1) * o.bufferSize ≠
        storage + o.maxPooledSegments * o.bufferSize := by
      intro h
      exact hn (Nat.eq_of_mul_eq_mul_right hb (Nat.add_left_cancel h))
    rw [if_neg hne]
    have : (n + 1) % o.maxPooledSegments = n % o.maxPooledSegments + 1 := by
      rw [← Nat.mod_add_mod]
      exact Nat.mod_eq_of_lt (by omega)
    rw [slot, this]

/-- An allocation hands out the slot after the row. -/
theorem Ring.allocate (h : Ring storage o r bs) (hroom : (bs.length + 1) * o.bufferSize ≤ o.pauseWriterThreshold) :
    Ring storage o (r.doAllocate o.bufferSize bufferAlignment).2
      (bs ++ [(r.doAllocate o.bufferSize bufferAlignment).1]) := by
  have hlt : bs.length + 1 ≤ o.maxPooledSegments :=
    Nat.le_trans ((Nat.le_div_iff_mul_le o.bufferSize_pos).2 hroom) o.div_le_maxPooledSegments
  have hact := h.active
  have hadd : SizeT.add r.activeBuffers 1 = bs.length + 1 := by
    have h1 := Nat.le_mul_of_pos_right (bs.length + 1) o.bufferSize_pos
    have h2 := o.pause_lt
    rw [SizeT.add_eq (by omega), hact]
  refine ⟨h.segmentSize, h.maxPoolSize, h.storage_eq, h.storageEnd, ?_, ?_, ?_, ?_, h.tail, ?_, ?_⟩
  · show SizeT.add r.activeBuffers 1 = _
    rw [hadd, List.length_append]
    rfl
  · rw [List.length_append]
    exact hlt
  · show r.totalAllocations + 1 = r.totalDeallocations + _
    rw [h.allocations, List.length_append]
    rfl
  · show r.advance r.head = slot storage o (r.totalAllocations + 1)
    rw [h.head, h.advance_slot]
  · show bs ++ [r.head] = (List.range (bs ++ [r.head]).length).map (fun i => slot storage o (r.totalDeallocations + i))
    rw [List.length_append, List.length_singleton, List.range_succ, List.map_append, ← h.buffers, h.head, h.allocations]
    rfl
  · have hne : bs.length ≠ o.maxPooledSegments := by omega
    simp [doAllocate, h.asserts, h.segmentSize, hact, h.maxPoolSize, hne]

/-- Giving a buffer back frees the first slot of the row, whatever the pointer is. -/
theorem Ring.deallocate (h : Ring storage o r (b :: bs)) : Ring storage o r.doDeallocate bs := by
  have hlen := h.length_le
  have hact := h.active
  have hall := h.allocations
  have hbs := h.buffers
  simp only [List.length_cons] at hlen hact hall
  rw [List.length_cons, List.range_succ_eq_map, List.map_cons, List.map_map] at hbs
  have hmax := o.maxPooledSegments_le
  have hpause := o.pause_lt
  refine ⟨h.segmentSize, h.maxPoolSize, h.storage_eq, h.storageEnd, ?_, by omega, ?_, h.head, ?_, ?_, ?_⟩
  · show SizeT.sub r.activeBuffers 1 = bs.length
    rw [hact, SizeT.sub_eq (by omega) (by omega)]
    rfl
  · show r.totalAllocations = r.totalDeallocations + 1 + bs.length
    omega
  · show r.advance r.tail = slot storage o (r.totalDeallocations + 1)
    rw [h.tail, h.advance_slot]
  · rw [List.cons.injEq] at hbs
    refine hbs.2.trans (List.map_congr_left (fun i _ => ?_))
    show slot storage o (r.totalDeallocations + (i + 1)) = slot storage o (r.totalDeallocations + 1 + i)
    congr 1
    omega
  · simp [doDeallocate, h.asserts, hact]

/-- The slots at `b` and `b'` do not overlap. -/
def Apart (size b b' : Nat) : Prop := b + size ≤ b' ∨ b' + size ≤ b

theorem Ring.pairwise (h : Ring storage o r bs) : bs.Pairwise (Apart o.bufferSize) := by
  rw [h.buffers, List.pairwise_map]
  refine List.Pairwise.imp_of_mem ?_ List.pairwise_lt_range
  intro i j hi hj hij
  have := List.mem_range.1 hj
  have := h.length_le
  have hd : Apart o.bufferSize (slot storage o (r.totalDeallocations + i))
      (slot storage o (r.totalDeallocations + i + (j - i))) := slot_disjoint (by omega) (by omega)
  rw [show r.totalDeallocations + i + (j - i) = r.totalDeallocations + j by omega] at hd
  exact hd

theorem Ring.mem (h : Ring storage o r bs) (hb : b ∈ bs) :
    r.storage ≤ b ∧ b + o.bufferSize ≤ r.storageEnd := by
  rw [h.buffers] at hb
  obtain ⟨i, -, rfl⟩ := List.mem_map.1 hb
  rw [h.storage_eq, h.storageEnd]
  exact slot_mem storage o _

theorem Ring.giveBack (h : Ring storage o r bs) : Ring storage o (giveBack r o.bufferSize bs) [] := by
  induction bs generalizing r with
  | nil => exact h
  | cons b bs ih => exact ih h.deallocate

theorem totalAllocations_giveBack (r : ArenaPoolResource) (size : Nat) (bs : List Nat) :
    (Xtd.giveBack r size bs).totalAllocations = r.totalAllocations := by
  induction bs generalizing r with
  | nil => rfl
  | cons b bs ih => exact ih r.doDeallocate

variable {τ : Type} [DecidableEq τ] [Fintype τ] {tr : List PipeEvent} {s : PipeState τ ArenaPoolResource Nat}

theorem ring_of_exec (hfit : o.bufferSize * o.maxPooledSegments < SizeT.modulus)
    (h : ((pipeline ArenaPoolResource o).machine τ).Exec Machine.Any (State.init (Pipe.new (.make storage o))) tr s) :
    Ring storage o s.shared.allocator s.shared.buffers := by
  have hnew : Ring storage o (.make storage o) [] := by
    refine ⟨rfl, rfl, rfl, ?_, rfl, Nat.zero_le _, rfl, ?_, ?_, rfl, ?_⟩
    · simp [make, new, calculateTotalSize, Nat.mod_eq_of_lt hfit]
    · simp [make, new, slot]
    · simp [make, new, slot]
    · simp [make, new, o.bufferSize_pos, o.maxPooledSegments_pos]
  refine (buffers_invariant (I := Ring storage o) h hnew ?_ ?_).2
  · intro r bs b r' oom hI hroom ha
    obtain ⟨rfl, rfl⟩ : b = _ ∧ r' = _ := Prod.mk.inj (Option.some.inj ha).symm
    exact hI.allocate hroom
  · exact fun r b bs hI => hI.deallocate

end ArenaPoolResource

open ArenaPoolResource in
/-- A pipeline over an arena whose size fits in a `size_t`.  In every state of every run, also after `complete_reader`:
an allocation returns a slot inside the storage that is apart from the slots of all segments; so these are apart from
each other; `m_active_buffers` is the number of segments, at most `m_max_pool_size`; `m_head` and `m_tail` are as many
slots around the ring as there were allocations and deallocations; and no assertion has failed, nor will one fail when
the pipeline destroys its segments and then the arena. -/
theorem arena_slots_apart {o : ValidatedOptions} {storage : Nat} {τ : Type} [DecidableEq τ] [Fintype τ]
    {tr : List PipeEvent} {s : PipeState τ ArenaPoolResource Nat}
    (hfit : o.bufferSize * o.maxPooledSegments < SizeT.modulus)
    (h : ((pipeline ArenaPoolResource o).machine τ).Exec Machine.Any (State.init (Pipe.new (.make storage o))) tr s) :
    (∀ a s' evs, ((pipeline ArenaPoolResource o).machine τ).step s a = some (s', evs) →
      s'.shared.allocator.totalAllocations ≠ s.shared.allocator.totalAllocations →
      ∃ b, s'.shared.buffers = s.shared.buffers ++ [b] ∧ s.shared.allocator.storage ≤ b ∧
        b + o.bufferSize ≤ s.shared.allocator.storageEnd ∧ ∀ b' ∈ s.shared.buffers, Apart o.bufferSize b' b) ∧
    s.shared.buffers.Pairwise (Apart o.bufferSize) ∧
    s.shared.allocator.activeBuffers = s.shared.segments.length ∧
    s.shared.allocator.activeBuffers ≤ s.shared.allocator.maxPoolSize ∧
    s.shared.allocator.head = s.shared.allocator.storage +
      s.shared.allocator.totalAllocations % s.shared.allocator.maxPoolSize * s.shared.allocator.segmentSize ∧
    s.shared.allocator.tail = s.shared.allocator.storage +
      s.shared.allocator.totalDeallocations % s.shared.allocator.maxPoolSize * s.shared.allocator.segmentSize ∧
    s.shared.allocator.assertsHeld = true ∧
    (giveBack s.shared.allocator o.bufferSize s.shared.buffers).assertsHeld = true ∧
    (giveBack s.shared.allocator o.bufferSize s.shared.buffers).destructorAssert = true := by
  have hR := ring_of_exec hfit h
  have hlen : s.shared.buffers.length = s.shared.segments.length := by simp [Pipe.buffers]
  refine ⟨?_, hR.pairwise, by rw [hR.active, hlen], ?_, ?_, ?_, hR.asserts, hR.giveBack.asserts, ?_⟩
  · intro a s' evs hs hne
    have hR' := ring_of_exec hfit (h.snoc trivial hs)
    have hm := Monitor.moves_of_step hs
    rcases hm.shared_eq with ⟨he, -⟩ | ⟨t, z, l, rfl, hl, he⟩
    · rw [he] at hne
      exact absurd rfl hne
    · rcases buffers_piece (accounted_of_exec h).1 l (s.stop l.token) z with ⟨-, b, hb⟩ | ⟨freed, hf⟩
      · have hbuf : s'.shared.buffers = s.shared.buffers ++ [b] := by rw [he]; exact hb.buffers
        have hmem := hR'.mem (b := b) (by rw [hbuf]; simp)
        have hpair := hR'.pairwise
        rw [hbuf, List.pairwise_append] at hpair
        rw [hR'.storage_eq, hR'.storageEnd] at hmem
        rw [hR.storage_eq, hR.storageEnd]
        exact ⟨b, hbuf, hmem.1, hmem.2, fun b' hb' => hpair.2.2 b' hb' b (List.mem_singleton.2 rfl)⟩
      · refine absurd ?_ hne
        rw [he]
        exact (congrArg totalAllocations hf.given).trans (totalAllocations_giveBack ..)
  · rw [hR.active, hR.maxPoolSize]
    exact hR.length_le
  · rw [hR.head, hR.storage_eq, hR.maxPoolSize, hR.segmentSize]
    rfl
  · rw [hR.tail, hR.storage_eq, hR.maxPoolSize, hR.segmentSize]
    rfl
  · exact decide_eq_true hR.giveBack.active

theorem arena_slots_apart_writeAfterRead :
    ∃ tr, ∃ s : PipeState (Fin 2) ArenaPoolResource Nat,
      ((pipeline ArenaPoolResource .small).machine (Fin 2)).Exec Machine.Any
        (State.init (Pipe.new (.make 4096 .small))) tr s ∧
      s.shared.buffers = [4100] ∧ s.shared.allocator.totalAllocations = 3 ∧
      s.shared.buffers.Pairwise (ArenaPoolResource.Apart 2) ∧
      s.shared.allocator.activeBuffers = s.shared.segments.length ∧ s.shared.allocator.assertsHeld = true := by
  obtain ⟨tr, s, h, hc⟩ := Machine.exists_exec_of_run ((pipeline ArenaPoolResource .small).machine (Fin 2))
    Machine.Any (State.init (Pipe.new (.make 4096 .small))) (fun _ _ => true) writeAfterRead
    (fun _ s => decide (s.shared.buffers = [4100] ∧ s.shared.allocator.totalAllocations = 3)) (fun _ _ _ => trivial)
    (by decide)
  obtain ⟨h1, h2⟩ := of_decide_eq_true hc
  obtain ⟨-, hp, hact, -, -, -, hassert, -⟩ := arena_slots_apart (o := .small) (by decide) h
  exact ⟨tr, s, h, h1, h2, hp, hact, hassert⟩

end Xtd
