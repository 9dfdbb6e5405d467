import Xtd.Pipeline.Slices

/-!
# The bytes of a view

The three `operator[]` of `segmented_byte_view.h`: by index, by position and from the end.  Two of them walk over the
segments, from the front and from the back, and end in `std::unreachable` behind their loops, which is not reached on a
view whose segments add up to its size.  A position that a search has found is the index of a byte that was searched for.
-/

namespace Xtd

structure FromEnd where
  offset : Nat

namespace SegmentedByteView

variable {β : Type} {v : SegmentedByteView β}

/-! ### The operators -/

/-- The loop of `operator[](std::size_t)`; `none` is `std::unreachable`, or an element behind the end of a span. -/
def indexLoop (index : Nat) : List (List β) → (segmentBegin : Nat) → Option β
  | [], _ => none
  | segment :: segments, segmentBegin =>
    let segmentEnd := SizeT.add segmentBegin segment.length
    if index < segmentEnd then segment[SizeT.sub index segmentBegin]? else indexLoop index segments segmentEnd

def atIndex (v : SegmentedByteView β) (index : Nat) : Except Exn (Option β) :=
  if index ≥ v.size then .error (.outOfRange "index is out of range") else .ok (indexLoop index v.segments 0)

def atPosition (v : SegmentedByteView β) (pos : Position) : Except Exn (Option β) :=
  let absoluteOffset := pos.sequenceOffset
  if !(decide (absoluteOffset ≥ v.beginOffset) && decide (absoluteOffset < v.endOffset)) then
    .error (.outOfRange "position is out of range")
  else v.atIndex (SizeT.sub absoluteOffset v.beginOffset)

/-- The loop of `operator[](from_end)` over the segments from the last one on. -/
def fromEndLoop : List (List β) → (remaining : Nat) → Option β
  | [], _ => none
  | segment :: segments, remaining =>
    if remaining < segment.length then segment[SizeT.sub (SizeT.sub segment.length 1) remaining]?
    else fromEndLoop segments (SizeT.sub remaining segment.length)

def atFromEnd (v : SegmentedByteView β) (fromEnd : FromEnd) : Except Exn (Option β) :=
  if !(decide (fromEnd.offset > 0) && decide (fromEnd.offset ≤ v.size)) then
    .error (.outOfRange "from_end offset is out of range")
  else .ok (fromEndLoop v.segments.reverse (SizeT.sub fromEnd.offset 1))

/-! ### The loops -/

private theorem indexLoop_eq (segments : List (List β)) {index segmentBegin : Nat} (hle : segmentBegin ≤ index)
    (hfit : segmentBegin + segments.flatten.length < SizeT.modulus)
    (hlt : index < segmentBegin + segments.flatten.length) :
    indexLoop index segments segmentBegin = segments.flatten[index - segmentBegin]? := by
  induction segments generalizing segmentBegin with
  | nil => simp [indexLoop]
  | cons segment segments ih =>
    rw [List.flatten_cons, List.length_append] at hfit hlt
    have hend : SizeT.add segmentBegin segment.length = segmentBegin + segment.length := SizeT.add_eq (by omega)
    unfold indexLoop
    dsimp only
    rw [hend, List.flatten_cons]
    split
    · rw [SizeT.sub_eq hle (by omega), List.getElem?_append_left (by omega)]
    · rename_i h
      have hbehind : segmentBegin + segment.length ≤ index := Nat.le_of_not_lt h
      rw [ih hbehind (by omega) (by omega), List.getElem?_append_right (by omega), Nat.sub_add_eq]

/-- Walking over the segments from the back reads the bytes from the back. -/
private theorem fromEndLoop_eq {segments : List (List β)} {remaining : Nat}
    (hfit : (segments.map List.length).sum < SizeT.modulus) (hlt : remaining < (segments.map List.length).sum) :
    fromEndLoop segments remaining = (segments.map List.reverse).flatten[remaining]? := by
  induction segments generalizing remaining with
  | nil => simp [fromEndLoop]
  | cons segment segments ih =>
    rw [List.map_cons, List.sum_cons] at hfit hlt
    unfold fromEndLoop
    rw [List.map_cons, List.flatten_cons]
    split
    · rename_i h
      have hone : SizeT.sub segment.length 1 = segment.length - 1 := SizeT.sub_eq (by omega) (by omega)
      have hlast : SizeT.sub (segment.length - 1) remaining = segment.length - 1 - remaining :=
        SizeT.sub_eq (by omega) (by omega)
      rw [hone, hlast, List.getElem?_append_left (by rwa [List.length_reverse]), List.getElem?_reverse h]
    · rename_i h
      have hrest : remaining - segment.length < (segments.map List.length).sum := by omega
      rw [SizeT.sub_eq (by omega) (by omega), ih (by omega) hrest,
        List.getElem?_append_right (by rw [List.length_reverse]; omega), List.length_reverse]

/-! ### Indexing well-formed views -/

theorem atIndex_eq (hv : v.WellFormed) (hfit : v.beginOffset + v.size < SizeT.modulus) {i : Nat}
    (h : i < v.flatten.length) : v.atIndex i = .ok (some v.flatten[i]) := by
  have hsize := hv.size_eq
  have hloop := indexLoop_eq v.segments (Nat.zero_le i) (by unfold flatten at hsize; omega)
    (by unfold flatten at h; omega)
  unfold atIndex
  rw [if_neg (by omega), hloop, Nat.sub_zero]
  exact congrArg Except.ok (List.getElem?_eq_getElem h)

theorem atIndex_of_le (hv : v.WellFormed) {i : Nat} (h : v.flatten.length ≤ i) :
    v.atIndex i = .error (.outOfRange "index is out of range") := by
  unfold atIndex
  rw [if_pos (by rw [hv.size_eq]; exact h)]

theorem atPosition_eq (hv : v.WellFormed) (hfit : v.beginOffset + v.size < SizeT.modulus) {p : Position}
    (hle : v.beginOffset ≤ p.offset) (hlt : p.offset - v.beginOffset < v.flatten.length) :
    v.atPosition p = .ok (some v.flatten[p.offset - v.beginOffset]) := by
  have hsize := hv.size_eq
  have hend : v.endOffset = v.beginOffset + v.size := SizeT.add_eq hfit
  have hsub : SizeT.sub p.offset v.beginOffset = p.offset - v.beginOffset := SizeT.sub_eq hle (by omega)
  unfold atPosition
  dsimp only [Position.sequenceOffset]
  rw [hend, decide_eq_true hle, decide_eq_true (by omega), hsub, atIndex_eq hv hfit hlt]
  rfl

theorem atPosition_of_outside (hv : v.WellFormed) (hfit : v.beginOffset + v.size < SizeT.modulus) {p : Position}
    (h : ¬ (v.beginOffset ≤ p.offset ∧ p.offset < v.beginOffset + v.flatten.length)) :
    v.atPosition p = .error (.outOfRange "position is out of range") := by
  have hend : v.endOffset = v.beginOffset + v.flatten.length := by
    rw [← hv.size_eq]
    exact SizeT.add_eq hfit
  unfold atPosition
  dsimp only [Position.sequenceOffset]
  rw [hend, if_pos]
  by_cases hle : v.beginOffset ≤ p.offset
  · have hge : v.beginOffset + v.flatten.length ≤ p.offset := Nat.le_of_not_lt fun hlt => h ⟨hle, hlt⟩
    simp [hge]
  · simp [Nat.lt_of_not_le hle]

theorem atFromEnd_eq (hv : v.WellFormed) (hfit : v.beginOffset + v.size < SizeT.modulus) {k : Nat} (hpos : 1 ≤ k)
    (hle : k ≤ v.flatten.length) (hlt : v.flatten.length - k < v.flatten.length) :
    v.atFromEnd ⟨k⟩ = .ok (some v.flatten[v.flatten.length - k]) := by
  have hsize := hv.size_eq
  have hsum : (v.segments.reverse.map List.length).sum = v.flatten.length := by
    rw [List.map_reverse, List.sum_reverse, ← List.length_flatten]
    rfl
  have hsub : SizeT.sub k 1 = k - 1 := SizeT.sub_eq hpos (by omega)
  have hlast : k - 1 < (v.segments.reverse.map List.length).sum := by omega
  have hloop := fromEndLoop_eq (by omega) hlast
  -- the segments turned around, the last one first, are the bytes turned around
  have hback : (v.segments.reverse.map List.reverse).flatten = v.flatten.reverse := by
    rw [List.map_reverse, ← List.reverse_flatten]
    rfl
  have hplace : v.flatten.length - 1 - (k - 1) = v.flatten.length - k := by omega
  unfold atFromEnd
  rw [if_neg (by simp; omega), hsub, hloop, hback, List.getElem?_reverse (by omega), hplace]
  exact congrArg Except.ok (List.getElem?_eq_getElem hlt)

theorem atFromEnd_of_outside (hv : v.WellFormed) {k : Nat} (h : ¬ (1 ≤ k ∧ k ≤ v.flatten.length)) :
    v.atFromEnd ⟨k⟩ = .error (.outOfRange "from_end offset is out of range") := by
  unfold atFromEnd
  rw [hv.size_eq, if_pos (by simp; omega)]

/-- The three ways to write the place of a byte. -/
theorem index_forms_agree (hv : v.WellFormed) (hfit : v.beginOffset + v.size < SizeT.modulus) {i : Nat}
    (hi : i < v.size) : ∃ b, v.atIndex i = .ok (some b) ∧ v.atPosition (v.beginPosition.add i) = .ok (some b) ∧
      v.atFromEnd ⟨SizeT.sub v.size i⟩ = .ok (some b) := by
  have hsize := hv.size_eq
  have h : i < v.flatten.length := by omega
  have hadd : (v.beginPosition.add i).offset = v.beginOffset + i := by
    rw [Position.add, SizeT.add_eq (by dsimp only [beginPosition]; omega)]
    rfl
  have hoffset : (v.beginPosition.add i).offset - v.beginOffset = i := by omega
  have hback : SizeT.sub v.size i = v.flatten.length - i := by
    rw [SizeT.sub_eq (by omega) (by omega), hsize]
  have hplace : v.flatten.length - (v.flatten.length - i) = i := by omega
  refine ⟨v.flatten[i], atIndex_eq hv hfit h, ?_, ?_⟩
  · rw [atPosition_eq hv hfit (by omega) (by rw [hoffset]; exact h)]
    simp only [hoffset]
  · rw [hback, atFromEnd_eq hv hfit (by omega) (by omega) (by omega)]
    simp only [hplace]

/-- The three index operators agree and do not reach `std::unreachable`.  The views that are reached from a read by
slicing are well-formed and their offsets fit in a `size_t`; on such a view each operator gives the byte that is meant if
there is one, and throws `std::out_of_range` otherwise, and the three ways to write the place of a byte give the same
byte. -/
theorem index_operators_agree :
    (∀ (π : Type) (segs : List (DataSegment π)), readableSize segs < SizeT.modulus →
      ∀ v, SlicedFrom (makeReadableView segs) v → v.WellFormed ∧ v.beginOffset + v.size < SizeT.modulus) ∧
    ∀ v : SegmentedByteView β, v.WellFormed → v.beginOffset + v.size < SizeT.modulus →
      (∀ i, (i < v.flatten.length → ∃ b, v.flatten[i]? = some b ∧ v.atIndex i = .ok (some b)) ∧
        (¬ i < v.flatten.length → ∃ text, v.atIndex i = .error (.outOfRange text))) ∧
      (∀ p : Position,
        (v.beginOffset ≤ p.offset ∧ p.offset < v.beginOffset + v.flatten.length →
          ∃ b, v.flatten[p.offset - v.beginOffset]? = some b ∧ v.atPosition p = .ok (some b)) ∧
        (¬ (v.beginOffset ≤ p.offset ∧ p.offset < v.beginOffset + v.flatten.length) →
          ∃ text, v.atPosition p = .error (.outOfRange text))) ∧
      (∀ k, (1 ≤ k ∧ k ≤ v.flatten.length →
          ∃ b, v.flatten[v.flatten.length - k]? = some b ∧ v.atFromEnd ⟨k⟩ = .ok (some b)) ∧
        (¬ (1 ≤ k ∧ k ≤ v.flatten.length) → ∃ text, v.atFromEnd ⟨k⟩ = .error (.outOfRange text))) ∧
      ∀ i, i < v.size → ∃ b, v.atIndex i = .ok (some b) ∧ v.atPosition (v.beginPosition.add i) = .ok (some b) ∧
        v.atFromEnd ⟨SizeT.sub v.size i⟩ = .ok (some b) := by
  refine ⟨fun π segs hlt v hv => hv.wellFormed_of_read hlt, ?_⟩
  intro v hv hfit
  refine ⟨?_, ?_, ?_, ?_⟩
  · intro i
    constructor
    · intro h
      exact ⟨_, List.getElem?_eq_getElem h, atIndex_eq hv hfit h⟩
    · intro h
      exact ⟨_, atIndex_of_le hv (Nat.le_of_not_lt h)⟩
  · intro p
    constructor
    · rintro ⟨hle, hlt⟩
      have h : p.offset - v.beginOffset < v.flatten.length := by omega
      exact ⟨_, List.getElem?_eq_getElem h, atPosition_eq hv hfit hle h⟩
    · intro h
      exact ⟨_, atPosition_of_outside hv hfit h⟩
  · intro k
    constructor
    · rintro ⟨hpos, hle⟩
      have h : v.flatten.length - k < v.flatten.length := by omega
      exact ⟨_, List.getElem?_eq_getElem h, atFromEnd_eq hv hfit hpos hle h⟩
    · intro h
      exact ⟨_, atFromEnd_of_outside hv h⟩
  · intro i hi
    exact index_forms_agree hv hfit hi

/-- The first byte of the third segment of a view that does not begin at zero, and an index behind the last byte. -/
theorem index_operators_agree_across :
    (∃ b, (⟨[[1, 2], [3], [4, 5]], 7, 5⟩ : SegmentedByteView).flatten[3]? = some b ∧
      (⟨[[1, 2], [3], [4, 5]], 7, 5⟩ : SegmentedByteView).atIndex 3 = .ok (some b)) ∧
    ∃ text, (⟨[[1, 2], [3], [4, 5]], 7, 5⟩ : SegmentedByteView).atFromEnd ⟨6⟩ = .error (.outOfRange text) := by
  have hwf : (⟨[[1, 2], [3], [4, 5]], 7, 5⟩ : SegmentedByteView).WellFormed := ⟨by decide, rfl, by decide⟩
  obtain ⟨hindex, -, hend, -⟩ := (index_operators_agree (β := Byte)).2 ⟨[[1, 2], [3], [4, 5]], 7, 5⟩ hwf (by decide)
  exact ⟨(hindex 3).1 (by decide), (hend 6).2 (by decide)⟩

/-! ### Searches -/

/-- The position of the first byte with the property, at which the view has that byte; or there is none. -/
inductive FirstMatch (v : SegmentedByteView) (P : Byte → Prop) : Position → Prop
  | found (i : Nat) (b : Byte) (hi : v.flatten[i]? = some b) (hb : P b)
      (hleast : ∀ j c, j < i → v.flatten[j]? = some c → ¬ P c)
      (hindex : v.atPosition ⟨v.beginOffset + i, true⟩ = .ok (some b)) :
      FirstMatch v P ⟨v.beginOffset + i, true⟩
  | missing (h : ∀ b ∈ v.flatten, ¬ P b) : FirstMatch v P .notFound

theorem firstMatch_findFirstOf {v : SegmentedByteView} (hv : v.WellFormed)
    (hfit : v.beginOffset + v.size < SizeT.modulus) (values : List Byte) :
    v.FirstMatch (· ∈ values) (place v.beginOffset (findFirstOf v.flatten values)) := by
  have hsize := hv.size_eq
  cases hfound : findFirstOf v.flatten values with
  | none =>
    refine .missing ?_
    intro b hb hmem
    have := List.findIdx?_eq_none_iff.1 hfound b hb
    rw [List.contains_iff_mem.2 hmem] at this
    cases this
  | some i =>
    obtain ⟨hi, hcontains, hbefore⟩ := List.findIdx?_eq_some_iff_getElem.1 hfound
    have hplace : place v.beginOffset (some i) = ⟨v.beginOffset + i, true⟩ := by
      rw [place, SizeT.add_eq (by omega)]
    have hoffset : v.beginOffset + i - v.beginOffset = i := by omega
    rw [hplace]
    refine .found i v.flatten[i] (List.getElem?_eq_getElem hi) (List.contains_iff_mem.1 hcontains) ?_ ?_
    · intro j c hj hc hmem
      obtain ⟨hj', rfl⟩ := List.getElem?_eq_some_iff.1 hc
      exact hbefore j hj (List.contains_iff_mem.2 hmem)
    · rw [atPosition_eq hv hfit (Nat.le_add_right _ _) (by simpa [hoffset] using hi)]
      simp only [hoffset]

/-- `position_of` and `position_of_any` find the first byte that matches, and indexing the view at a position that was
found gives a byte that matches.  The result of `position_of_any` depends only on which values there are, not on their
order or on how often they are given, and is that of its loop also where it leaves a single value to `position_of`. -/
theorem position_of_any_first :
    (∀ (π : Type) (segs : List (DataSegment π)), readableSize segs < SizeT.modulus →
      ∀ v, SlicedFrom (makeReadableView segs) v → v.WellFormed ∧ v.beginOffset + v.size < SizeT.modulus) ∧
    ∀ v : SegmentedByteView, v.WellFormed → v.beginOffset + v.size < SizeT.modulus →
      (∀ value, v.FirstMatch (· = value) (v.positionOf value)) ∧
      (∀ values, v.FirstMatch (· ∈ values) (v.positionOfAny values)) ∧
      (∀ values values', (∀ b, b ∈ values ↔ b ∈ values') → v.positionOfAny values = v.positionOfAny values') ∧
      ∀ values, v.positionOfAny values = positionOfAnyLoop values v.segments v.beginOffset := by
  refine ⟨fun π segs hlt v hv => hv.wellFormed_of_read hlt, ?_⟩
  intro v hv hfit
  refine ⟨?_, ?_, ?_, ?_⟩
  · intro value
    have h := firstMatch_findFirstOf hv hfit [value]
    rw [findFirstOf_singleton, ← positionOf_eq hv] at h
    simpa only [List.mem_singleton] using h
  · intro values
    rw [positionOfAny_eq hv]
    exact firstMatch_findFirstOf hv hfit values
  · intro values values' hsame
    have hcontains : ∀ b, values.contains b = values'.contains b := by
      intro b
      rw [Bool.eq_iff_iff, List.contains_iff_mem, List.contains_iff_mem]
      exact hsame b
    rw [positionOfAny_eq hv, positionOfAny_eq hv, findFirstOf, findFirstOf, funext hcontains]
  · intro values
    rw [positionOfAny_eq hv, positionOfAnyLoop_eq hv]

/-- Two values of which the second is met first, in the second segment of a view that does not begin at zero. -/
theorem position_of_any_first_across :
    (⟨[[1, 2], [3], [1, 4]], 7, 5⟩ : SegmentedByteView).FirstMatch (· ∈ ([4, 3] : List Byte)) ⟨9, true⟩ ∧
    (⟨[[1, 2], [3], [1, 4]], 7, 5⟩ : SegmentedByteView).FirstMatch (· = (9 : Byte)) .notFound := by
  have hwf : (⟨[[1, 2], [3], [1, 4]], 7, 5⟩ : SegmentedByteView).WellFormed := ⟨by decide, rfl, by decide⟩
  obtain ⟨hone, hany, -⟩ := position_of_any_first.2 ⟨[[1, 2], [3], [1, 4]], 7, 5⟩ hwf (by decide)
  exact ⟨hany [4, 3], hone 9⟩

end SegmentedByteView

end Xtd
