import Xtd.Pipeline.Segment

/-!
# Read buffers

Positions (`position.h`), the segmented view a read returns (`segmented_byte_view.h`) and how it is made from the
segments of the pipeline (`read_result.h`).  A span is the list of its bytes.  What a view does without looking at the
bytes is defined for elements of any type; with the places of the bytes for the elements, a list is the span itself and
not only what it holds.
-/

namespace Xtd

structure Position where
  offset : Nat
  found : Bool := true

def Position.sequenceOffset (p : Position) : Nat := p.offset

structure SegmentedByteView (β : Type := Byte) where
  segments : List (List β)
  beginOffset : Nat
  size : Nat

namespace SegmentedByteView

/-- The bytes of the view, one after the other. -/
def flatten {β : Type} (v : SegmentedByteView β) : List β := v.segments.flatten

end SegmentedByteView

variable {π : Type}

/-- The loop of `make_readable_view` over the segments, with the spans collected so far and their total size. -/
def collectReadable : List (DataSegment π) → List (List Byte) → Nat → List (List Byte) × Nat
  | [], readable, total => (readable, total)
  | seg :: segs, readable, total =>
    if seg.readableSize ≠ 0 then
      collectReadable segs (readable ++ [seg.readableBytes]) (SizeT.add total seg.readableSize)
    else collectReadable segs readable total

def makeReadableView (segments : List (DataSegment π)) : SegmentedByteView where
  segments := (collectReadable segments [] 0).1
  beginOffset := 0
  size := (collectReadable segments [] 0).2

/-- The readable bytes of a row of segments, one after the other. -/
def readableBytes (segments : List (DataSegment π)) : List Byte := segments.flatMap DataSegment.readableBytes

/-- The number of readable bytes of a row of segments. -/
def readableSize (segments : List (DataSegment π)) : Nat := (segments.map DataSegment.readableSize).sum

@[simp] theorem readableBytes_nil : readableBytes ([] : List (DataSegment π)) = [] := rfl

@[simp] theorem readableBytes_cons (s : DataSegment π) (l : List (DataSegment π)) :
    readableBytes (s :: l) = s.readableBytes ++ readableBytes l := rfl

@[simp] theorem readableBytes_append (l₁ l₂ : List (DataSegment π)) :
    readableBytes (l₁ ++ l₂) = readableBytes l₁ ++ readableBytes l₂ := by
  simp [readableBytes]

@[simp] theorem readableSize_nil : readableSize ([] : List (DataSegment π)) = 0 := rfl

@[simp] theorem readableSize_cons (s : DataSegment π) (l : List (DataSegment π)) :
    readableSize (s :: l) = s.readableSize + readableSize l := by
  simp [readableSize]

@[simp] theorem readableSize_append (l₁ l₂ : List (DataSegment π)) :
    readableSize (l₁ ++ l₂) = readableSize l₁ + readableSize l₂ := by
  simp [readableSize]

@[simp] theorem length_readableBytes (l : List (DataSegment π)) : (readableBytes l).length = readableSize l := by
  induction l with
  | nil => rfl
  | cons s l ih => simp [ih]

private theorem collectReadable_fst (l : List (DataSegment π)) (r : List (List Byte)) (n : Nat) :
    (collectReadable l r n).1.flatten = r.flatten ++ readableBytes l := by
  induction l generalizing r n with
  | nil => simp [collectReadable]
  | cons s l ih =>
    unfold collectReadable
    split
    · rw [ih]; simp
    · rename_i h
      have h0 : s.readableBytes = [] := by
        rw [← List.length_eq_zero_iff, DataSegment.length_readableBytes]
        simpa using h
      rw [ih]; simp [h0]

private theorem collectReadable_snd (l : List (DataSegment π)) (r : List (List Byte)) (n : Nat)
    (h : n + readableSize l < SizeT.modulus) : (collectReadable l r n).2 = n + readableSize l := by
  induction l generalizing r n with
  | nil => simp [collectReadable]
  | cons s l ih =>
    rw [readableSize_cons] at h
    unfold collectReadable
    split
    · rw [SizeT.add_eq (by omega), ih _ _ (by omega), readableSize_cons]
      omega
    · rename_i h0
      rw [ih _ _ (by omega), readableSize_cons]
      omega

/-- A read buffer flattens to the readable bytes of the segments it was made from. -/
theorem flatten_makeReadableView (l : List (DataSegment π)) : (makeReadableView l).flatten = readableBytes l := by
  simpa [makeReadableView, SegmentedByteView.flatten] using collectReadable_fst l [] 0

/-- The size of a read buffer is the number of readable bytes, which fit in a `size_t`. -/
theorem size_makeReadableView {l : List (DataSegment π)} (h : readableSize l < SizeT.modulus) :
    (makeReadableView l).size = readableSize l := by
  simpa [makeReadableView] using collectReadable_snd l [] 0 (by omega)

end Xtd
