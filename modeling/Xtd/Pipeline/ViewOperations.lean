import Xtd.Pipeline.View
import Xtd.Sequence.Pieces
import Xtd.Sequence.Search

/-!
# Slices and searches of read buffers

`slice`, `position_of`, `position_of_any` and `position_of_sequence` of `segmented_byte_view.h`.  Positions are absolute:
they count from the beginning of the read, also in a slice.  On a view whose segments are non-empty and add up to its
size, a slice is a piece of the flattened bytes and the searches give the first place in the flattened bytes, however
these are cut into segments.
-/

namespace Xtd

/-- `operator+`. -/
def Position.add (p : Position) (offset : Nat) : Position := ⟨SizeT.add p.offset offset, true⟩

/-- `position{}`. -/
def Position.notFound : Position := ⟨0, false⟩

namespace SegmentedByteView

variable {β : Type}

def endOffset (v : SegmentedByteView β) : Nat := SizeT.add v.beginOffset v.size

/-- `begin()`. -/
def beginPosition (v : SegmentedByteView β) : Position := ⟨v.beginOffset, true⟩

/-- `end()`. -/
def endPosition (v : SegmentedByteView β) : Position := ⟨v.endOffset, true⟩

def empty (v : SegmentedByteView β) : Bool := decide (v.size = 0)

def isSingleSegment (v : SegmentedByteView β) : Bool := decide (v.segments.length = 1)

/-! ### Slices -/

def validateSliceRange (v : SegmentedByteView β) (sliceBegin sliceEnd : Nat) : Except Exn Unit :=
  if sliceBegin > sliceEnd then .error (.outOfRange "slice begin must be <= slice end")
  else if !(decide (sliceBegin ≥ v.beginOffset) && decide (sliceBegin ≤ v.endOffset)) then
    .error (.outOfRange "slice begin is out of range")
  else if !(decide (sliceEnd ≥ v.beginOffset) && decide (sliceEnd ≤ v.endOffset)) then
    .error (.outOfRange "slice end is out of range")
  else .ok ()

/-- The loop of `make_slice_segments` over the segments. -/
def sliceLoop (sliceBegin sliceEnd : Nat) : List (List β) → (segmentBegin : Nat) → List (List β)
  | [], _ => []
  | segment :: segments, segmentBegin =>
    let segmentEnd := SizeT.add segmentBegin segment.length
    if segmentEnd ≤ sliceBegin then sliceLoop sliceBegin sliceEnd segments segmentEnd
    else if segmentBegin ≥ sliceEnd then []
    else
      let overlapBegin := max segmentBegin sliceBegin
      let overlapEnd := min segmentEnd sliceEnd
      (segment.drop (SizeT.sub overlapBegin segmentBegin)).take (SizeT.sub overlapEnd overlapBegin) ::
        sliceLoop sliceBegin sliceEnd segments segmentEnd

def makeSliceSegments (v : SegmentedByteView β) (sliceBegin sliceEnd : Nat) : Except Exn (List (List β)) :=
  match v.validateSliceRange sliceBegin sliceEnd with
  | .error e => .error e
  | .ok () =>
    if sliceBegin = sliceEnd then .ok []
    else .ok (sliceLoop sliceBegin sliceEnd v.segments v.beginOffset)

/-- `slice(begin, end)`. -/
def slice (v : SegmentedByteView β) (sliceBegin sliceEnd : Position) : Except Exn (SegmentedByteView β) :=
  match v.makeSliceSegments sliceBegin.sequenceOffset sliceEnd.sequenceOffset with
  | .error e => .error e
  | .ok segments =>
    .ok ⟨segments, sliceBegin.sequenceOffset, SizeT.sub sliceEnd.sequenceOffset sliceBegin.sequenceOffset⟩

/-! ### Searches -/

/-- The loop of `position_of` over the segments; `std::memchr` finds the first place of the value. -/
def positionOfLoop (value : Byte) : List (List Byte) → (offset : Nat) → Position
  | [], _ => .notFound
  | segment :: segments, offset =>
    match segment.idxOf? value with
    | some i => ⟨SizeT.add offset i, true⟩
    | none => positionOfLoop value segments (SizeT.add offset segment.length)

def positionOf (v : SegmentedByteView) (value : Byte) : Position :=
  if v.size = 0 then .notFound else positionOfLoop value v.segments v.beginOffset

/-- `std::ranges::find_first_of`: the first place in the segment of one of the values. -/
def findFirstOf (segment values : List Byte) : Option Nat := segment.findIdx? fun b => values.contains b

/-- The loop of `position_of_any` over the segments. -/
def positionOfAnyLoop (values : List Byte) : List (List Byte) → (segmentBegin : Nat) → Position
  | [], _ => .notFound
  | segment :: segments, segmentBegin =>
    match findFirstOf segment values with
    | some distance => ⟨SizeT.add segmentBegin distance, true⟩
    | none => positionOfAnyLoop values segments (SizeT.add segmentBegin segment.length)

def positionOfAny (v : SegmentedByteView) (values : List Byte) : Position :=
  match values with
  | [] => .notFound
  | [value] => v.positionOf value
  | _ => positionOfAnyLoop values v.segments v.beginOffset

/-- The loop of `position_of_sequence` over the segments, with the segments joined.  No span is longer than
`PTRDIFF_MAX`, so the sizes of the boundary do not wrap. -/
def positionOfSequenceLoop (sequence joined : List Byte) (single : Bool) (beginOffset : Nat) :
    List (List Byte) → (segmentOffset : Nat) → Position
  | [], _ => .notFound
  | segment :: segments, segmentOffset =>
    match Sequence.search sequence segment with
    | some i => ⟨SizeT.add (SizeT.add beginOffset segmentOffset) i, true⟩
    | none =>
      if single then .notFound
      else
        let tailSize := min segment.length (sequence.length - 1)
        let next := positionOfSequenceLoop sequence joined single beginOffset segments (segmentOffset + segment.length)
        if tailSize ≠ 0 then
          let boundaryOffset := segmentOffset + segment.length - tailSize
          let boundarySize := tailSize + sequence.length - 1
          match Sequence.search sequence ((joined.drop boundaryOffset).take boundarySize) with
          | some i => ⟨SizeT.add (SizeT.add beginOffset boundaryOffset) i, true⟩
          | none => next
        else next

def positionOfSequence (v : SegmentedByteView) (sequence : List Byte) : Position :=
  match sequence with
  | [] => .notFound
  | front :: rest =>
    if sequence.length > v.size then .notFound
    else if rest.isEmpty then v.positionOf front
    else positionOfSequenceLoop sequence v.segments.flatten v.isSingleSegment v.beginOffset v.segments 0

/-! ### Well-formed views -/

/-- The segments are non-empty and add up to the size; the begin offset is a `size_t`. -/
structure WellFormed (v : SegmentedByteView β) : Prop where
  nonempty : ∀ segment ∈ v.segments, segment ≠ []
  size_eq : v.size = v.flatten.length
  begin_lt : v.beginOffset < SizeT.modulus

/-- The position of a place in the flattened bytes. -/
def place (beginOffset : Nat) : Option Nat → Position
  | some i => ⟨SizeT.add beginOffset i, true⟩
  | none => .notFound

/-! ### Searches -/

private theorem positionOfAnyLoop_add (values : List Byte) (segments : List (List Byte)) (beginOffset offset : Nat) :
    positionOfAnyLoop values segments (SizeT.add beginOffset offset) =
      place beginOffset ((findFirstOf segments.flatten values).map (offset + ·)) := by
  induction segments generalizing offset with
  | nil => rfl
  | cons segment segments ih =>
    unfold positionOfAnyLoop
    have happ : findFirstOf (segment ++ segments.flatten) values =
        (findFirstOf segment values).or ((findFirstOf segments.flatten values).map (· + segment.length)) :=
      List.findIdx?_append
    rw [List.flatten_cons, happ]
    cases h : findFirstOf segment values with
    | some i => simp [place, SizeT.add_add]
    | none =>
      dsimp only
      rw [SizeT.add_add, ih, Option.none_or, Option.map_map]
      congr 2
      funext i
      simp only [Function.comp]
      omega

/-- The loop of `position_of_any` gives the first place of one of the values. -/
theorem positionOfAnyLoop_eq {v : SegmentedByteView} (hv : v.WellFormed) (values : List Byte) :
    positionOfAnyLoop values v.segments v.beginOffset = place v.beginOffset (findFirstOf v.flatten values) := by
  have h := positionOfAnyLoop_add values v.segments v.beginOffset 0
  rw [SizeT.add_eq (by have := hv.begin_lt; omega)] at h
  simpa [flatten] using h

theorem findFirstOf_singleton (segment : List Byte) (value : Byte) :
    findFirstOf segment [value] = segment.idxOf? value := by
  unfold findFirstOf List.idxOf?
  congr 1
  funext b
  rw [List.contains_cons, List.contains_nil, Bool.or_false]

/-- The loops of `position_of` and `position_of_any` agree on a single value. -/
theorem positionOfLoop_eq_any (value : Byte) (segments : List (List Byte)) (offset : Nat) :
    positionOfLoop value segments offset = positionOfAnyLoop [value] segments offset := by
  induction segments generalizing offset with
  | nil => rfl
  | cons segment segments ih =>
    unfold positionOfLoop positionOfAnyLoop
    rw [findFirstOf_singleton]
    cases segment.idxOf? value with
    | some i => rfl
    | none => exact ih _

/-- `position_of` gives the first place of the value. -/
theorem positionOf_eq {v : SegmentedByteView} (hv : v.WellFormed) (value : Byte) :
    v.positionOf value = place v.beginOffset (v.flatten.idxOf? value) := by
  unfold positionOf
  split
  · rename_i h0
    have hnil : v.flatten = [] := by
      rw [← List.length_eq_zero_iff, ← hv.size_eq]
      exact h0
    rw [hnil]
    rfl
  · rw [positionOfLoop_eq_any, positionOfAnyLoop_eq hv, findFirstOf_singleton]

/-- `position_of_any` gives the first place of one of the values, with its shortcut or without. -/
theorem positionOfAny_eq {v : SegmentedByteView} (hv : v.WellFormed) (values : List Byte) :
    v.positionOfAny values = place v.beginOffset (findFirstOf v.flatten values) := by
  unfold positionOfAny
  split
  · have hnone : findFirstOf v.flatten [] = none := by
      unfold findFirstOf
      rw [List.findIdx?_eq_none_iff]
      intro b _
      rfl
    rw [hnone]
    rfl
  · rw [positionOf_eq hv, findFirstOf_singleton]
  · exact positionOfAnyLoop_eq hv values

/-- The loop of `position_of_sequence` at the segment `segmentOffset`, with no occurrence before it. -/
private theorem positionOfSequenceLoop_eq {sequence joined : List Byte} (hs : 2 ≤ sequence.length) (single : Bool)
    (beginOffset : Nat) (front : List (List Byte)) {segments : List (List Byte)}
    (hj : joined = front.flatten ++ segments.flatten) (hsingle : single = true → front = [] ∧ segments.length ≤ 1)
    (hnone : Sequence.NoneBefore sequence joined front.flatten.length) :
    positionOfSequenceLoop sequence joined single beginOffset segments front.flatten.length =
      place beginOffset (Sequence.search sequence joined) := by
  have hne : sequence ≠ [] := by
    rintro rfl
    simp at hs
  induction segments generalizing front with
  | nil =>
    have hlen : joined.length = front.flatten.length := by rw [hj]; simp
    rw [Sequence.search_eq_none hne (hlen ▸ hnone)]
    rfl
  | cons segment segments ih =>
    -- the segment is a window of the joined bytes
    have hseg : (joined.drop front.flatten.length).take segment.length = segment := by
      rw [hj, List.drop_left, List.flatten_cons, List.take_left]
    have hwindow : Sequence.search sequence segment =
        Sequence.search sequence ((joined.drop front.flatten.length).take segment.length) := by rw [hseg]
    unfold positionOfSequenceLoop
    cases hfound : Sequence.search sequence segment with
    | some i =>
      rw [hfound] at hwindow
      rw [Sequence.search_of_window hnone hwindow.symm]
      simp only [place, SizeT.add_add]
    | none =>
      rw [hfound] at hwindow
      have hinside := Sequence.noneBefore_of_window hne hnone hwindow.symm
      have hnext : Sequence.NoneBefore sequence joined (front.flatten.length + segment.length) → single = false →
          positionOfSequenceLoop sequence joined single beginOffset segments
            (front.flatten.length + segment.length) = place beginOffset (Sequence.search sequence joined) := by
        intro hnone' hsf
        have := ih (front ++ [segment]) (by rw [hj]; simp) (by rw [hsf]; nofun) (by simpa using hnone')
        simpa using this
      dsimp only
      split
      · rename_i hst
        obtain ⟨rfl, hle⟩ := hsingle hst
        obtain rfl : segments = [] := by simpa using hle
        rw [hj]
        simp [hfound, place]
      · rename_i hsf
        have hsf : single = false := by simpa using hsf
        by_cases htail : min segment.length (sequence.length - 1) = 0
        · rw [if_neg (fun h => h htail)]
          exact hnext (by rwa [show segment.length = 0 by omega]) hsf
        · rw [if_pos htail]
          -- nothing before the boundary, so the window around it decides up to the end of the segment
          have hbefore : Sequence.NoneBefore sequence joined
              (front.flatten.length + segment.length - min segment.length (sequence.length - 1)) := by
            rcases Nat.le_total segment.length (sequence.length - 1) with hle | hle
            · exact hnone.mono (by omega)
            · exact hinside.mono (by omega)
          split
          · rename_i i hi
            rw [Sequence.search_of_window hbefore hi]
            simp only [place, SizeT.add_add]
          · rename_i hi
            exact hnext ((Sequence.noneBefore_of_window hne hbefore hi).mono (by omega)) hsf

/-- `position_of_sequence` gives the first place of the sequence. -/
theorem positionOfSequence_eq {v : SegmentedByteView} (hv : v.WellFormed)
    {sequence : List Byte} (hs : sequence ≠ []) :
    v.positionOfSequence sequence = place v.beginOffset (Sequence.search sequence v.flatten) := by
  unfold positionOfSequence
  cases sequence with
  | nil => exact absurd rfl hs
  | cons front rest =>
    dsimp only
    split
    · rename_i hlt
      rw [hv.size_eq] at hlt
      rw [Sequence.search_eq_none_of_length hlt]
      rfl
    · split
      · rename_i hrest
        rw [List.isEmpty_iff.1 hrest, Sequence.search_singleton, positionOf_eq hv]
      · rename_i hrest
        have hlen : 2 ≤ (front :: rest).length := by
          cases rest with
          | nil => simp at hrest
          | cons => simp
        refine positionOfSequenceLoop_eq hlen _ _ [] rfl ?_ (Sequence.noneBefore_zero _ _)
        intro hsingle
        exact ⟨rfl, Nat.le_of_eq (of_decide_eq_true hsingle)⟩

/-- On a well-formed view `position_of_sequence` returns the begin offset plus the least place at which the sequence
occurs in the flattened bytes, and a position that is not found exactly if the sequence is empty or does not occur.  So
the result does not depend on how the bytes are cut into segments. -/
theorem position_of_sequence_first {v : SegmentedByteView} (hv : v.WellFormed)
    (sequence : List Byte) :
    ((v.positionOfSequence sequence).found = true →
      ∃ i, (v.positionOfSequence sequence).offset = SizeT.add v.beginOffset i ∧
        Sequence.OccursAt sequence v.flatten i ∧ ∀ j, j < i → ¬ Sequence.OccursAt sequence v.flatten j) ∧
    ((v.positionOfSequence sequence).found = false ↔
      sequence = [] ∨ ∀ i, ¬ Sequence.OccursAt sequence v.flatten i) ∧
    ∀ w : SegmentedByteView, w.WellFormed → w.flatten = v.flatten → w.beginOffset = v.beginOffset →
      w.positionOfSequence sequence = v.positionOfSequence sequence := by
  by_cases hs : sequence = []
  · subst hs
    exact ⟨nofun, by simp [positionOfSequence, Position.notFound], fun _ _ _ _ => rfl⟩
  · have heq := positionOfSequence_eq hv hs
    obtain ⟨h1, h2⟩ := Sequence.search_spec sequence v.flatten
    refine ⟨?_, ?_, ?_⟩
    · rw [heq]
      cases hfound : Sequence.search sequence v.flatten with
      | none => nofun
      | some i => exact fun _ => ⟨i, rfl, (h1 i hfound).1, (h1 i hfound).2⟩
    · rw [heq]
      cases hfound : Sequence.search sequence v.flatten with
      | none => exact ⟨fun _ => .inr (h2 hfound).2, fun _ => rfl⟩
      | some i =>
        refine ⟨nofun, ?_⟩
        rintro (h | h)
        · exact absurd h hs
        · exact absurd (h1 i hfound).1 (h i)
    · intro w hw hf ho
      rw [positionOfSequence_eq hw hs, heq, hf, ho]

/-- A sequence that lies across three segments. -/
theorem position_of_sequence_first_across :
    ∃ i, ((⟨[[1, 2], [3], [1, 2, 3]], 7, 6⟩ : SegmentedByteView).positionOfSequence [2, 3, 1]).offset =
        SizeT.add 7 i ∧
      Sequence.OccursAt ([2, 3, 1] : List Byte) [1, 2, 3, 1, 2, 3] i ∧
      ∀ j, j < i → ¬ Sequence.OccursAt ([2, 3, 1] : List Byte) [1, 2, 3, 1, 2, 3] j :=
  (position_of_sequence_first (v := ⟨[[1, 2], [3], [1, 2, 3]], 7, 6⟩) ⟨by decide, rfl, by decide⟩ [2, 3, 1]).1
    (by decide)

/-! ### Slices -/

/-- The loop of `make_slice_segments` leaves out the bytes before the slice and after it. -/
private theorem sliceLoop_eq {sliceBegin sliceEnd : Nat} (hlt : sliceBegin < sliceEnd) {segments : List (List β)}
    (hne : ∀ segment ∈ segments, segment ≠ []) (segmentBegin : Nat)
    (hfit : segmentBegin + segments.flatten.length < SizeT.modulus) :
    sliceLoop sliceBegin sliceEnd segments segmentBegin =
      Sequence.takePieces (sliceEnd - max sliceBegin segmentBegin)
        (Sequence.dropPieces (sliceBegin - segmentBegin) segments) := by
  induction segments generalizing segmentBegin with
  | nil => rfl
  | cons segment segments ih =>
    rw [List.flatten_cons, List.length_append] at hfit
    have hpos := List.length_pos_of_ne_nil (hne segment (by simp))
    have hne' : ∀ seg ∈ segments, seg ≠ [] := fun seg hseg => hne seg (by simp [hseg])
    have hend : SizeT.add segmentBegin segment.length = segmentBegin + segment.length := SizeT.add_eq (by omega)
    have ih' := ih hne' (segmentBegin + segment.length) (by omega)
    unfold sliceLoop
    dsimp only
    rw [hend]
    split
    · -- the segment ends before the slice
      rw [ih', Sequence.dropPieces, if_pos (by omega), Nat.sub_add_eq]
      congr 1
      omega
    · split
      · rw [show sliceEnd - max sliceBegin segmentBegin = 0 by omega, Sequence.takePieces_zero]
      · rename_i h1 h2
        have hb : SizeT.sub (max segmentBegin sliceBegin) segmentBegin = sliceBegin - segmentBegin := by
          rw [SizeT.sub_eq (by omega) (by omega)]
          omega
        have he : SizeT.sub (min (segmentBegin + segment.length) sliceEnd) (max segmentBegin sliceBegin) =
            min (segmentBegin + segment.length) sliceEnd - max segmentBegin sliceBegin :=
          SizeT.sub_eq (by omega) (by omega)
        rw [hb, he, ih', Sequence.dropPieces, if_neg (by omega), Sequence.takePieces, if_neg (by omega),
          show sliceBegin - (segmentBegin + segment.length) = 0 by omega, Sequence.dropPieces_zero hne',
          List.length_drop]
        congr 1
        · rw [List.take_eq_take_iff, List.length_drop]
          omega
        · congr 1
          omega

/-- A slice within the bounds of a view whose offsets fit in a `size_t`, with its segments. -/
theorem slice_eq {v : SegmentedByteView β} (hv : v.WellFormed) (hfit : v.beginOffset + v.size < SizeT.modulus)
    (sliceBegin sliceEnd : Position) (h1 : v.beginOffset ≤ sliceBegin.offset) (h2 : sliceBegin.offset ≤ sliceEnd.offset)
    (h3 : sliceEnd.offset ≤ v.beginOffset + v.size) :
    v.slice sliceBegin sliceEnd = .ok
      ⟨Sequence.takePieces (sliceEnd.offset - sliceBegin.offset)
          (Sequence.dropPieces (sliceBegin.offset - v.beginOffset) v.segments),
        sliceBegin.offset, sliceEnd.offset - sliceBegin.offset⟩ := by
  have hend : v.endOffset = v.beginOffset + v.size := SizeT.add_eq hfit
  have hvalid : v.validateSliceRange sliceBegin.offset sliceEnd.offset = .ok () := by
    unfold validateSliceRange
    rw [hend, if_neg (by omega), if_neg (by simp; omega), if_neg (by simp; omega)]
  have hmake : v.makeSliceSegments sliceBegin.offset sliceEnd.offset = .ok
      (Sequence.takePieces (sliceEnd.offset - sliceBegin.offset)
        (Sequence.dropPieces (sliceBegin.offset - v.beginOffset) v.segments)) := by
    unfold makeSliceSegments
    rw [hvalid]
    dsimp only
    split
    · rename_i heq
      rw [show sliceEnd.offset - sliceBegin.offset = 0 by omega, Sequence.takePieces_zero]
    · have hlen := hv.size_eq
      unfold flatten at hlen
      rw [sliceLoop_eq (by omega) hv.nonempty v.beginOffset (by omega), Nat.max_eq_left h1]
  unfold slice
  rw [show v.makeSliceSegments sliceBegin.sequenceOffset sliceEnd.sequenceOffset = _ from hmake]
  show Except.ok _ = _
  rw [← SizeT.sub_eq h2 (by omega)]
  rfl

/-- A slice within the bounds of a view whose offsets fit in a `size_t` is the piece of its bytes. -/
theorem slice_spec {v : SegmentedByteView β} (hv : v.WellFormed) (hfit : v.beginOffset + v.size < SizeT.modulus)
    (sliceBegin sliceEnd : Position) (h1 : v.beginOffset ≤ sliceBegin.offset) (h2 : sliceBegin.offset ≤ sliceEnd.offset)
    (h3 : sliceEnd.offset ≤ v.beginOffset + v.size) :
    ∃ w, v.slice sliceBegin sliceEnd = .ok w ∧ w.WellFormed ∧ w.beginOffset = sliceBegin.offset ∧
      w.size = sliceEnd.offset - sliceBegin.offset ∧
      w.flatten = (v.flatten.drop (sliceBegin.offset - v.beginOffset)).take (sliceEnd.offset - sliceBegin.offset) := by
  have hflat : (Sequence.takePieces (sliceEnd.offset - sliceBegin.offset)
      (Sequence.dropPieces (sliceBegin.offset - v.beginOffset) v.segments)).flatten =
      (v.flatten.drop (sliceBegin.offset - v.beginOffset)).take (sliceEnd.offset - sliceBegin.offset) := by
    rw [Sequence.flatten_takePieces, Sequence.flatten_dropPieces, flatten]
  have hlen := hv.size_eq
  refine ⟨_, slice_eq hv hfit sliceBegin sliceEnd h1 h2 h3, ⟨?_, ?_, ?_⟩, rfl, rfl, hflat⟩
  · exact Sequence.takePieces_ne_nil (Sequence.dropPieces_ne_nil hv.nonempty _) _
  · rw [flatten, hflat, List.length_take, List.length_drop]
    dsimp only
    omega
  · show sliceBegin.offset < _
    omega

end SegmentedByteView

/-! ### Views of reads -/

variable {π : Type}

private theorem collectReadable_nonempty (l : List (DataSegment π)) (r : List (List Byte)) (n : Nat)
    (hr : ∀ segment ∈ r, segment ≠ []) : ∀ segment ∈ (collectReadable l r n).1, segment ≠ [] := by
  induction l generalizing r n with
  | nil => exact hr
  | cons s l ih =>
    unfold collectReadable
    split
    · rename_i h
      refine ih _ _ ?_
      intro segment hseg
      rcases List.mem_append.1 hseg with hseg | hseg
      · exact hr segment hseg
      · rw [List.mem_singleton.1 hseg]
        intro hnil
        have := s.length_readableBytes
        rw [hnil] at this
        exact h this.symm
    · exact ih _ _ hr

/-- The view a read returns is well-formed. -/
theorem wellFormed_makeReadableView {l : List (DataSegment π)} (h : readableSize l < SizeT.modulus) :
    (makeReadableView l).WellFormed where
  nonempty := collectReadable_nonempty l [] 0 (by simp)
  size_eq := by rw [size_makeReadableView h, flatten_makeReadableView, length_readableBytes]
  begin_lt := by show 0 < _; decide

end Xtd
