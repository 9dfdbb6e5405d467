import Xtd.SizeT

/-!
# Data segments

The buffers of the pipeline (`data_segment.h`) and the memory resource they are taken from.  A segment owns one buffer
of fixed capacity; bytes are appended at the writable end and consumed from the readable end.  The readable span ends
where the writable span begins, so the segment is given by the bytes copied into the buffer so far and the place from
which they are still unread.
-/

namespace Xtd

abbrev Byte := UInt8

/-- The exceptions the library throws, with their texts. -/
inductive Exn
  | invalidArgument (what : String)
  | logicError (what : String)
  | outOfRange (what : String)
  | badAlloc
  | iosFailure (what : String)
  deriving DecidableEq

/-- `std::pmr::memory_resource` as the pipeline uses it.  `allocate r bytes oom` fails (`std::bad_alloc`) only if the
`operator new` it may rest on fails, which is the environment's choice `oom`. -/
class MemoryResource (ρ : Type) (π : outParam Type) where
  allocate : ρ → (bytes : Nat) → (oom : Bool) → Option (π × ρ)
  deallocate : ρ → π → (bytes : Nat) → ρ
  allocate_isSome : ∀ r bytes, (allocate r bytes false).isSome = true

/-- `written` are the bytes copied into the buffer, `readOffset` and `readableSize` the readable span. -/
structure DataSegment (π : Type) where
  buffer : π
  capacity : Nat
  written : List Byte
  readOffset : Nat
  readableSize : Nat
  readable_end : readOffset + readableSize = written.length
  written_le : written.length ≤ capacity

namespace DataSegment

variable {π : Type}

/-- A new segment over a buffer obtained from the memory resource. -/
def new (buffer : π) (bufferSize : Nat) : DataSegment π where
  buffer := buffer
  capacity := bufferSize
  written := []
  readOffset := 0
  readableSize := 0
  readable_end := rfl
  written_le := Nat.zero_le _

def readableBytes (s : DataSegment π) : List Byte := (s.written.drop s.readOffset).take s.readableSize

def writableSize (s : DataSegment π) : Nat := s.capacity - s.written.length

def full (s : DataSegment π) : Bool := decide (s.writableSize = 0)

def advanceRead (s : DataSegment π) (size : Nat) : Except Exn (DataSegment π) :=
  if _h : s.readableSize < size then .error (.outOfRange "consume size exceeds readable size")
  else .ok { s with
    readOffset := s.readOffset + size
    readableSize := s.readableSize - size
    readable_end := by have := s.readable_end; omega }

/-- `copy_from(source, size)`, where the list is the `size` bytes at `source`; also returns how many were copied. -/
def copyFrom (s : DataSegment π) (source : List Byte) : DataSegment π × Nat :=
  let toCopySize := min s.writableSize source.length
  ({ s with
    written := s.written ++ source.take toCopySize
    readableSize := s.readableSize + toCopySize
    readable_end := by
      have := s.readable_end
      have : toCopySize ≤ source.length := Nat.min_le_right ..
      simp only [List.length_append, List.length_take]
      omega
    written_le := by
      have := s.written_le
      have : toCopySize ≤ s.capacity - s.written.length := Nat.min_le_left ..
      simp only [List.length_append, List.length_take]
      omega }, toCopySize)

/-! ### Basic facts -/

theorem readableBytes_eq (s : DataSegment π) : s.readableBytes = s.written.drop s.readOffset := by
  have := s.readable_end
  rw [readableBytes, List.take_of_length_le]
  simp only [List.length_drop]
  omega

@[simp] theorem length_readableBytes (s : DataSegment π) : s.readableBytes.length = s.readableSize := by
  have := s.readable_end
  rw [readableBytes_eq, List.length_drop]
  omega

theorem readableSize_le (s : DataSegment π) : s.readableSize ≤ s.capacity := by
  have := s.readable_end
  have := s.written_le
  omega

@[simp] theorem new_writableSize (b : π) (n : Nat) : (new b n).writableSize = n := by simp [new, writableSize]

@[simp] theorem readableBytes_new (b : π) (n : Nat) : (new b n).readableBytes = [] := rfl

@[simp] theorem copyFrom_snd (s : DataSegment π) (source : List Byte) :
    (s.copyFrom source).2 = min s.writableSize source.length := rfl

@[simp] theorem copyFrom_capacity (s : DataSegment π) (source : List Byte) :
    (s.copyFrom source).1.capacity = s.capacity := rfl

@[simp] theorem copyFrom_readableSize (s : DataSegment π) (source : List Byte) :
    (s.copyFrom source).1.readableSize = s.readableSize + min s.writableSize source.length := rfl

/-- Copying appends to the readable bytes. -/
theorem readableBytes_copyFrom (s : DataSegment π) (source : List Byte) :
    (s.copyFrom source).1.readableBytes = s.readableBytes ++ source.take (min s.writableSize source.length) := by
  have := s.readable_end
  rw [readableBytes_eq, readableBytes_eq]
  simp only [copyFrom]
  rw [List.drop_append_of_le_length (by omega)]

theorem advanceRead_eq_ok {s : DataSegment π} {size : Nat} (h : size ≤ s.readableSize) :
    ∃ s', s.advanceRead size = .ok s' ∧ s'.readableBytes = s.readableBytes.drop size ∧
      s'.readableSize = s.readableSize - size ∧ s'.capacity = s.capacity ∧ s'.writableSize = s.writableSize := by
  unfold advanceRead
  rw [dif_neg (by omega)]
  refine ⟨_, rfl, ?_, rfl, rfl, rfl⟩
  rw [readableBytes_eq, readableBytes_eq, List.drop_drop]

end DataSegment

end Xtd
