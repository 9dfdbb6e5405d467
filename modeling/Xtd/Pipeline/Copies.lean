import Xtd.Pipeline.ViewOperations

/-!
# Copies of read buffers

`copy_to`, `as_string_view` and `to_string` of `segmented_byte_view.h`.  Each has a path of its own for a view of one
segment, and a loop over the segments otherwise.  A destination is the list of its bytes.
-/

namespace Xtd

/-- `std::ranges::copy` of `bytes` to the place `offset` of a destination with room for them. -/
def overwrite (destination : List Byte) (offset : Nat) (bytes : List Byte) : List Byte :=
  destination.take offset ++ bytes ++ destination.drop (offset + bytes.length)

namespace SegmentedByteView

/-- `m_segments.front()`. -/
def firstSegment (v : SegmentedByteView) : List Byte :=
  match v.segments with
  | [] => []
  | segment :: _ => segment

/-- The loop of `copy_to` over the segments; the destination and the number of bytes copied. -/
def copyLoop (targetSize : Nat) : List (List Byte) → (copied : Nat) → (destination : List Byte) → List Byte × Nat
  | [], copied, destination => (destination, copied)
  | segment :: segments, copied, destination =>
    if copied = targetSize then (destination, copied)
    else
      let chunkSize := min segment.length (SizeT.sub targetSize copied)
      copyLoop targetSize segments (SizeT.add copied chunkSize) (overwrite destination copied (segment.take chunkSize))

/-- `copy_to(std::span<std::byte>)`, also of a `std::vector<std::byte>`. -/
def copyTo (v : SegmentedByteView) (destination : List Byte) : List Byte × Nat :=
  let targetSize := min destination.length v.size
  if targetSize = 0 then (destination, 0)
  else if v.isSingleSegment then (overwrite destination 0 (v.firstSegment.take targetSize), targetSize)
  else copyLoop targetSize v.segments 0 destination

/-- `copy_to(std::byte*, std::size_t)`, with the bytes at the pointer unless it is null. -/
def copyToPointer (v : SegmentedByteView) (destination : Option (List Byte)) (destinationSize : Nat) :
    Option (List Byte) × Except Exn Nat :=
  match destination with
  | none =>
    if destinationSize = 0 then (none, .ok (v.copyTo []).2)
    else (none, .error (.invalidArgument "destination must not be null when destination_size > 0"))
  | some bytes =>
    let copy := v.copyTo (bytes.take destinationSize)
    (some (copy.1 ++ bytes.drop destinationSize), .ok copy.2)

/-- `copy_to(T&)`: the destination is the object representation of the value, `sizeof(T)` bytes. -/
def copyToValue (v : SegmentedByteView) (destination : List Byte) : List Byte × Except Exn Bool :=
  let destinationSize := destination.length
  if destinationSize > v.size then
    (destination, .error (.outOfRange "buffer size is smaller than the size of the destination type"))
  else ((v.copyTo destination).1, .ok (decide ((v.copyTo destination).2 = destinationSize)))

def asStringView (v : SegmentedByteView) : Except Exn (List Byte) :=
  if !v.isSingleSegment then .error (.logicError "buffer must be a single segment to convert to string_view")
  else .ok (v.firstSegment.take v.size)

def toString (v : SegmentedByteView) : List Byte :=
  if v.empty then []
  else if v.isSingleSegment then v.firstSegment.take v.size
  else v.segments.foldl (fun result segment => result ++ segment) []

/-! ### The paths agree -/

variable {v : SegmentedByteView}

/-- A view of one segment. -/
private theorem firstSegment_eq (h : v.isSingleSegment = true) : v.firstSegment = v.flatten := by
  have h1 : v.segments.length = 1 := of_decide_eq_true h
  obtain ⟨segment, hs⟩ := List.length_eq_one_iff.1 h1
  simp [firstSegment, flatten, hs]

/-- The loop of `copy_to` behind the `front` bytes that are copied already. -/
private theorem copyLoop_eq (front rest : List Byte) (segments : List (List Byte)) (targetSize : Nat)
    (hlt : targetSize < SizeT.modulus) (hf : front.length ≤ targetSize)
    (ht : targetSize ≤ front.length + segments.flatten.length) (hr : targetSize ≤ front.length + rest.length) :
    copyLoop targetSize segments front.length (front ++ rest) =
      (front ++ segments.flatten.take (targetSize - front.length) ++ rest.drop (targetSize - front.length), targetSize) := by
  induction segments generalizing front rest with
  | nil =>
    have hlen : front.length = targetSize := by simp at ht; omega
    simp [copyLoop, hlen]
  | cons segment segments ih =>
    rw [List.flatten_cons, List.length_append] at ht
    unfold copyLoop
    split
    · rename_i hdone
      simp [← hdone]
    · dsimp only
      rw [SizeT.sub_eq hf hlt]
      generalize hc : min segment.length (targetSize - front.length) = chunkSize
      have hlen : (segment.take chunkSize).length = chunkSize := by rw [List.length_take]; omega
      have hover : overwrite (front ++ rest) front.length (segment.take chunkSize) =
          front ++ segment.take chunkSize ++ rest.drop chunkSize := by
        rw [overwrite, List.take_left, hlen, List.drop_append, List.drop_of_length_le (by omega)]
        simp
      have hadd : SizeT.add front.length chunkSize = (front ++ segment.take chunkSize).length := by
        rw [SizeT.add_eq (by omega), List.length_append, hlen]
      rw [hover, hadd, ih _ _ (by rw [List.length_append]; omega) (by rw [List.length_append]; omega)
        (by rw [List.length_append, List.length_drop]; omega), List.length_append, hlen]
      have hsub : targetSize - (front.length + chunkSize) = targetSize - front.length - chunkSize := by omega
      rw [List.flatten_cons, List.take_append, List.drop_drop, hsub,
        show chunkSize + (targetSize - front.length - chunkSize) = targetSize - front.length by omega,
        List.append_assoc front]
      congr 3
      by_cases hshort : segment.length ≤ targetSize - front.length
      · rw [show chunkSize = segment.length by omega, List.take_length, List.take_of_length_le hshort]
      · rw [show chunkSize = targetSize - front.length by omega, Nat.sub_self,
          show targetSize - front.length - segment.length = 0 by omega]

/-- Both paths of `copy_to` write the first bytes of the view to the front of the destination. -/
theorem copyLoop_of_wellFormed (hv : v.WellFormed) (hlt : v.size < SizeT.modulus) (destination : List Byte) :
    copyLoop (min destination.length v.size) v.segments 0 destination =
      (v.flatten.take (min destination.length v.size) ++ destination.drop (min destination.length v.size),
        min destination.length v.size) := by
  have hsize := hv.size_eq
  have h := copyLoop_eq [] destination v.segments (min destination.length v.size) (by omega) (Nat.zero_le _)
    (by rw [← flatten, List.length_nil]; omega) (by rw [List.length_nil]; omega)
  simpa [flatten] using h

theorem copyTo_eq (hv : v.WellFormed) (hlt : v.size < SizeT.modulus) (destination : List Byte) :
    v.copyTo destination =
      (v.flatten.take (min destination.length v.size) ++ destination.drop (min destination.length v.size),
        min destination.length v.size) := by
  unfold copyTo
  dsimp only
  split
  · rename_i h0
    simp [h0]
  · split
    · rename_i hs
      have hsize := hv.size_eq
      rw [firstSegment_eq hs, overwrite, List.length_take_of_le (by omega), List.take_zero, List.nil_append,
        Nat.zero_add]
    · exact copyLoop_of_wellFormed hv hlt destination

theorem toString_eq (hv : v.WellFormed) : v.toString = v.flatten := by
  have hsize := hv.size_eq
  unfold toString
  split
  · rename_i h0
    have h0 : v.size = 0 := of_decide_eq_true h0
    exact (List.length_eq_zero_iff.1 (by omega)).symm
  · split
    · rename_i hs
      rw [firstSegment_eq hs, List.take_of_length_le (by omega)]
    · rw [List.foldl_append_eq_append]
      simp [flatten]

/-- Copies and conversions of a well-formed view agree with its flattened bytes.  `copy_to` writes the first bytes of the
view to the front of the destination, as many as there are and fit, and leaves the rest, on the path for one segment as
in the loop; `copy_to(T&)` throws and leaves the destination exactly if the value is larger than the view and fills it
otherwise; `to_string` is the flattened bytes, and so is `as_string_view` if it does not throw, as it never does for a
view of one segment. -/
theorem copies_agree (hv : v.WellFormed) (hlt : v.size < SizeT.modulus) :
    (∀ destination, v.copyTo destination =
      (v.flatten.take (min destination.length v.size) ++ destination.drop (min destination.length v.size),
        min destination.length v.size)) ∧
    (∀ destination, copyLoop (min destination.length v.size) v.segments 0 destination = v.copyTo destination) ∧
    (∀ destination size, v.copyToPointer (some destination) size =
      (some (v.flatten.take (min (min size destination.length) v.size) ++
          destination.drop (min (min size destination.length) v.size)),
        .ok (min (min size destination.length) v.size))) ∧
    (∀ destination, v.size < destination.length →
      ∃ text, v.copyToValue destination = (destination, .error (.outOfRange text))) ∧
    (∀ destination, destination.length ≤ v.size →
      v.copyToValue destination = (v.flatten.take destination.length, .ok true)) ∧
    v.toString = v.flatten ∧ (∀ string, v.asStringView = .ok string → string = v.toString) ∧
    (v.segments.length = 1 → v.asStringView = .ok v.toString) := by
  have hview : v.isSingleSegment = true → v.asStringView = .ok v.toString := by
    intro hs
    have hsize := hv.size_eq
    unfold asStringView
    rw [hs, toString_eq hv, firstSegment_eq hs, List.take_of_length_le (by omega)]
    rfl
  refine ⟨copyTo_eq hv hlt, ?_, ?_, ?_, ?_, toString_eq hv, ?_, fun hone => hview (decide_eq_true hone)⟩
  · intro destination
    rw [copyTo_eq hv hlt, copyLoop_of_wellFormed hv hlt]
  · intro destination size
    unfold copyToPointer
    dsimp only
    rw [copyTo_eq hv hlt, List.length_take]
    congr 2
    have hk : min (min size destination.length) v.size ≤ size := by omega
    rw [List.append_assoc, List.drop_take]
    congr 1
    conv => lhs; rhs; rw [← Nat.add_sub_cancel' hk, ← List.drop_drop]
    exact List.take_append_drop _ _
  · intro destination hlarge
    exact ⟨_, if_pos hlarge⟩
  · intro destination hle
    unfold copyToValue
    dsimp only
    rw [if_neg (by omega), copyTo_eq hv hlt, Nat.min_eq_left hle]
    simp
  · intro string h
    have hs : v.isSingleSegment = true := by
      by_contra hs
      rw [Bool.not_eq_true] at hs
      simp [asStringView, hs] at h
    rw [hview hs] at h
    cases h
    rfl

/-- A destination that ends within the second segment. -/
theorem copies_agree_across :
    (⟨[[1, 2], [3, 4], [5]], 7, 5⟩ : SegmentedByteView).copyTo [0, 0, 0] = ([1, 2, 3], 3) ∧
      (⟨[[1, 2], [3, 4], [5]], 7, 5⟩ : SegmentedByteView).toString = [1, 2, 3, 4, 5] := by
  have h := copies_agree (v := ⟨[[1, 2], [3, 4], [5]], 7, 5⟩) ⟨by decide, rfl, by decide⟩ (by decide)
  exact ⟨h.1 [0, 0, 0], h.2.2.2.2.2.1⟩

end SegmentedByteView

end Xtd
