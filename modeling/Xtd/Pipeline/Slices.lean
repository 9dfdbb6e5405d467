import Xtd.Pipeline.ViewOperations

/-!
# The overloads of `slice`

`slice` and `slice_in_place` of `segmented_byte_view.h` take absolute positions or offsets relative to the view.  Each
overload is resolved to an absolute range, which is checked against the view; the checks leave no range through whose
sums have wrapped around.  Slices are cut from the segments as `drop` and `take` cut a list, so a slice of a slice is a
slice, segment by segment.
-/

namespace Xtd

/-- The arguments of the four overloads: `slice(end)`, `slice(begin, end)`, `slice(begin_offset, end)` and
`slice(begin_offset, size)`. -/
inductive SliceArgs
  | upTo (sliceEnd : Position)
  | between (sliceBegin sliceEnd : Position)
  | offsetUpTo (beginOffset : Nat) (sliceEnd : Position)
  | relative (beginOffset size : Nat)

/-- `slice_range`. -/
structure SliceRange where
  sliceBegin : Nat
  sliceEnd : Nat

namespace SegmentedByteView

variable {β : Type}

def validateRelativeSlice (v : SegmentedByteView β) (beginOffset size : Nat) : Except Exn Unit :=
  if beginOffset > v.size then .error (.outOfRange "slice begin offset is out of range")
  else if size > SizeT.sub v.size beginOffset then .error (.outOfRange "slice size is out of range")
  else .ok ()

def resolveSliceRange (v : SegmentedByteView β) : SliceArgs → Except Exn SliceRange
  | .upTo sliceEnd => .ok ⟨v.beginOffset, sliceEnd.sequenceOffset⟩
  | .between sliceBegin sliceEnd => .ok ⟨sliceBegin.sequenceOffset, sliceEnd.sequenceOffset⟩
  | .offsetUpTo beginOffset sliceEnd =>
    if beginOffset > v.size then .error (.outOfRange "slice begin offset is out of range")
    else .ok ⟨SizeT.add v.beginOffset beginOffset, sliceEnd.sequenceOffset⟩
  | .relative beginOffset size =>
    match v.validateRelativeSlice beginOffset size with
    | .error e => .error e
    | .ok () =>
      let absoluteBegin := SizeT.add v.beginOffset beginOffset
      .ok ⟨absoluteBegin, SizeT.add absoluteBegin size⟩

/-- The constructor from a view and a range. -/
def ofRange (v : SegmentedByteView β) (range : SliceRange) : Except Exn (SegmentedByteView β) :=
  match v.makeSliceSegments range.sliceBegin range.sliceEnd with
  | .error e => .error e
  | .ok segments => .ok ⟨segments, range.sliceBegin, SizeT.sub range.sliceEnd range.sliceBegin⟩

/-- `slice`, by overload. -/
def sliceBy (v : SegmentedByteView β) (args : SliceArgs) : Except Exn (SegmentedByteView β) :=
  match v.resolveSliceRange args with
  | .error e => .error e
  | .ok range => v.ofRange range

/-- The view after `slice_in_place_absolute`, and whether it has thrown; the segments are made before any member is
changed. -/
def sliceInPlaceAbsolute (v : SegmentedByteView β) (range : SliceRange) : SegmentedByteView β × Except Exn Unit :=
  match v.makeSliceSegments range.sliceBegin range.sliceEnd with
  | .error e => (v, .error e)
  | .ok segments => (⟨segments, range.sliceBegin, SizeT.sub range.sliceEnd range.sliceBegin⟩, .ok ())

/-- `slice_in_place`, by overload. -/
def sliceInPlace (v : SegmentedByteView β) (args : SliceArgs) : SegmentedByteView β × Except Exn Unit :=
  match v.resolveSliceRange args with
  | .error e => (v, .error e)
  | .ok range => v.sliceInPlaceAbsolute range

/-- The view after a chain of calls of `slice_in_place`; one that throws leaves the view to the next. -/
def sliceChain (v : SegmentedByteView β) (chain : List SliceArgs) : SegmentedByteView β :=
  chain.foldl (fun w args => (w.sliceInPlace args).1) v

/-! ### Ranges -/

/-- The range that is meant, in numbers that do not wrap around. -/
def rangeOf (v : SegmentedByteView β) : SliceArgs → SliceRange
  | .upTo sliceEnd => ⟨v.beginOffset, sliceEnd.offset⟩
  | .between sliceBegin sliceEnd => ⟨sliceBegin.offset, sliceEnd.offset⟩
  | .offsetUpTo beginOffset sliceEnd => ⟨v.beginOffset + beginOffset, sliceEnd.offset⟩
  | .relative beginOffset size => ⟨v.beginOffset + beginOffset, v.beginOffset + beginOffset + size⟩

/-- The range lies in the view. -/
def InBounds (v : SegmentedByteView β) (range : SliceRange) : Prop :=
  v.beginOffset ≤ range.sliceBegin ∧ range.sliceBegin ≤ range.sliceEnd ∧ range.sliceEnd ≤ v.beginOffset + v.size

instance (v : SegmentedByteView β) (range : SliceRange) : Decidable (v.InBounds range) := inferInstanceAs (Decidable (_ ∧ _))

variable {v w : SegmentedByteView β}

private theorem ofRange_eq_slice (v : SegmentedByteView β) (range : SliceRange) :
    v.ofRange range = v.slice ⟨range.sliceBegin, true⟩ ⟨range.sliceEnd, true⟩ := rfl

/-- The resolved range is the range that is meant, or that range is not in the view. -/
private theorem resolve_spec (hfit : v.beginOffset + v.size < SizeT.modulus) (args : SliceArgs) :
    v.resolveSliceRange args = .ok (v.rangeOf args) ∨
      ¬ v.InBounds (v.rangeOf args) ∧ ∃ text, v.resolveSliceRange args = .error (.outOfRange text) := by
  cases args with
  | upTo => exact .inl rfl
  | between => exact .inl rfl
  | offsetUpTo beginOffset sliceEnd =>
    unfold resolveSliceRange rangeOf
    dsimp only
    split
    · refine .inr ⟨?_, _, rfl⟩
      rintro ⟨-, h2, h3⟩
      dsimp only at h2 h3
      omega
    · rw [SizeT.add_eq (by omega)]
      exact .inl rfl
  | relative beginOffset size =>
    unfold resolveSliceRange rangeOf validateRelativeSlice
    dsimp only
    by_cases hb : beginOffset > v.size
    · rw [if_pos hb]
      refine .inr ⟨?_, _, rfl⟩
      rintro ⟨-, h2, h3⟩
      dsimp only at h2 h3
      omega
    · rw [if_neg hb, SizeT.sub_eq (by omega) (by omega)]
      by_cases hs : size > v.size - beginOffset
      · rw [if_pos hs]
        refine .inr ⟨?_, _, rfl⟩
        rintro ⟨-, -, h3⟩
        dsimp only at h3
        omega
      · rw [if_neg hs]
        dsimp only
        rw [SizeT.add_eq (by omega), SizeT.add_eq (by omega)]
        exact .inl rfl

private theorem makeSliceSegments_of_not_inBounds (hfit : v.beginOffset + v.size < SizeT.modulus) {range : SliceRange}
    (h : ¬ v.InBounds range) :
    ∃ text, v.makeSliceSegments range.sliceBegin range.sliceEnd = .error (.outOfRange text) := by
  have hend : v.endOffset = v.beginOffset + v.size := SizeT.add_eq hfit
  have hvalid : ∃ text, v.validateSliceRange range.sliceBegin range.sliceEnd = .error (.outOfRange text) := by
    unfold validateSliceRange
    rw [hend]
    split
    · exact ⟨_, rfl⟩
    · split
      · exact ⟨_, rfl⟩
      · split
        · exact ⟨_, rfl⟩
        · rename_i h1 h2 h3
          simp at h2 h3
          exact absurd ⟨h2.1, by omega, h3.2⟩ h
  obtain ⟨text, ht⟩ := hvalid
  exact ⟨text, by unfold makeSliceSegments; rw [ht]⟩

/-- A range in the view gives the slice to these positions. -/
theorem sliceBy_of_inBounds (hfit : v.beginOffset + v.size < SizeT.modulus) {args : SliceArgs}
    (h : v.InBounds (v.rangeOf args)) :
    v.sliceBy args = v.slice ⟨(v.rangeOf args).sliceBegin, true⟩ ⟨(v.rangeOf args).sliceEnd, true⟩ := by
  rcases resolve_spec hfit args with hr | ⟨hn, -⟩
  · rw [sliceBy, hr]
    exact ofRange_eq_slice v _
  · exact absurd h hn

theorem sliceBy_of_not_inBounds (hfit : v.beginOffset + v.size < SizeT.modulus) {args : SliceArgs}
    (h : ¬ v.InBounds (v.rangeOf args)) : ∃ text, v.sliceBy args = .error (.outOfRange text) := by
  rcases resolve_spec hfit args with hr | ⟨-, text, hr⟩
  · obtain ⟨text, ht⟩ := makeSliceSegments_of_not_inBounds hfit h
    exact ⟨text, by rw [sliceBy, hr]; show v.ofRange _ = _; rw [ofRange, ht]⟩
  · exact ⟨text, by rw [sliceBy, hr]⟩

/-- `slice_in_place` is `slice`, and leaves the view as it was if that throws. -/
theorem sliceInPlace_eq (v : SegmentedByteView β) (args : SliceArgs) :
    v.sliceInPlace args = match v.sliceBy args with
      | .ok w => (w, .ok ())
      | .error e => (v, .error e) := by
  unfold sliceInPlace sliceBy
  split
  · rfl
  · rename_i range _
    unfold sliceInPlaceAbsolute ofRange
    cases v.makeSliceSegments range.sliceBegin range.sliceEnd <;> rfl

/-! ### Slices of well-formed views -/

theorem sliceBy_spec (hv : v.WellFormed) (hfit : v.beginOffset + v.size < SizeT.modulus) {args : SliceArgs}
    (h : v.InBounds (v.rangeOf args)) :
    ∃ w, v.sliceBy args = .ok w ∧ w.WellFormed ∧ w.beginOffset + w.size < SizeT.modulus ∧
      w.beginOffset = (v.rangeOf args).sliceBegin ∧ w.beginOffset + w.size = (v.rangeOf args).sliceEnd ∧
      w.flatten = (v.flatten.take ((v.rangeOf args).sliceEnd - v.beginOffset)).drop
        ((v.rangeOf args).sliceBegin - v.beginOffset) := by
  obtain ⟨h1, h2, h3⟩ := h
  obtain ⟨w, hw, hwf, hb, hs, hf⟩ := slice_spec hv hfit ⟨(v.rangeOf args).sliceBegin, true⟩
    ⟨(v.rangeOf args).sliceEnd, true⟩ h1 h2 h3
  dsimp only at hb hs hf
  refine ⟨w, by rw [sliceBy_of_inBounds hfit ⟨h1, h2, h3⟩, hw], hwf, by omega, hb, by omega, ?_⟩
  rw [hf, List.drop_take]
  congr 1
  omega

/-- The views that are reached from a view by slicing. -/
inductive SlicedFrom (v : SegmentedByteView β) : SegmentedByteView β → Prop
  | refl : SlicedFrom v v
  | slice {w x : SegmentedByteView β} (args : SliceArgs) (h : SlicedFrom v w) (hx : w.sliceBy args = .ok x) :
      SlicedFrom v x
  | inPlace {w : SegmentedByteView β} (args : SliceArgs) (h : SlicedFrom v w) : SlicedFrom v (w.sliceInPlace args).1

/-- Slices of a well-formed view are well-formed. -/
theorem SlicedFrom.wellFormed (h : SlicedFrom v w) (hv : v.WellFormed)
    (hfit : v.beginOffset + v.size < SizeT.modulus) :
    w.WellFormed ∧ w.beginOffset + w.size < SizeT.modulus := by
  have next : ∀ {w x : SegmentedByteView β} {args : SliceArgs},
      w.WellFormed ∧ w.beginOffset + w.size < SizeT.modulus → w.sliceBy args = .ok x →
      x.WellFormed ∧ x.beginOffset + x.size < SizeT.modulus := by
    rintro w x args ⟨hw, hwfit⟩ hx
    by_cases hin : w.InBounds (w.rangeOf args)
    · obtain ⟨y, hy, hywf, hyfit, -⟩ := sliceBy_spec hw hwfit hin
      rw [hx] at hy
      cases hy
      exact ⟨hywf, hyfit⟩
    · obtain ⟨text, ht⟩ := sliceBy_of_not_inBounds hwfit hin
      rw [hx] at ht
      cases ht
  induction h with
  | refl => exact ⟨hv, hfit⟩
  | slice args _ hx ih => exact next ih hx
  | @inPlace w args _ ih =>
    rw [sliceInPlace_eq]
    split
    · rename_i x hx
      exact next ih hx
    · exact ih

/-- The views that are reached from a read by slicing are well-formed. -/
theorem SlicedFrom.wellFormed_of_read {π : Type} {segs : List (DataSegment π)} {v : SegmentedByteView}
    (h : SlicedFrom (makeReadableView segs) v) (hlt : readableSize segs < SizeT.modulus) :
    v.WellFormed ∧ v.beginOffset + v.size < SizeT.modulus := by
  refine h.wellFormed (wellFormed_makeReadableView hlt) ?_
  rw [size_makeReadableView hlt]
  show 0 + _ < _
  omega

/-- Slicing is dropping and taking on the flattened bytes.  The views that are reached from a read by slicing are
well-formed and their offsets fit in a `size_t`; on such a view every overload of `slice` succeeds exactly if the range
that is meant lies in the view, and throws `std::out_of_range` otherwise, and `slice_in_place` gives the same view or
leaves the view as it was. -/
theorem slice_drops_and_takes :
    (∀ (π : Type) (segs : List (DataSegment π)), readableSize segs < SizeT.modulus →
      ∀ v, SlicedFrom (makeReadableView segs) v → v.WellFormed ∧ v.beginOffset + v.size < SizeT.modulus) ∧
    ∀ (v : SegmentedByteView β), v.WellFormed → v.beginOffset + v.size < SizeT.modulus → ∀ args : SliceArgs,
      (v.InBounds (v.rangeOf args) → ∃ w, v.sliceBy args = .ok w ∧ v.sliceInPlace args = (w, .ok ()) ∧
        w.WellFormed ∧ w.beginOffset + w.size < SizeT.modulus ∧
        w.beginPosition.offset = (v.rangeOf args).sliceBegin ∧ w.endPosition.offset = (v.rangeOf args).sliceEnd ∧
        w.flatten = (v.flatten.take ((v.rangeOf args).sliceEnd - v.beginOffset)).drop
          ((v.rangeOf args).sliceBegin - v.beginOffset)) ∧
      (¬ v.InBounds (v.rangeOf args) → ∃ text, v.sliceBy args = .error (.outOfRange text) ∧
        v.sliceInPlace args = (v, .error (.outOfRange text))) := by
  refine ⟨?_, ?_⟩
  · intro π segs hlt v hv
    exact hv.wellFormed_of_read hlt
  · intro v hv hfit args
    constructor
    · intro hin
      obtain ⟨w, hw, hwf, hwfit, hb, he, hf⟩ := sliceBy_spec hv hfit hin
      refine ⟨w, hw, by rw [sliceInPlace_eq, hw], hwf, hwfit, hb, ?_, hf⟩
      rw [← he]
      exact SizeT.add_eq hwfit
    · intro hin
      obtain ⟨text, ht⟩ := sliceBy_of_not_inBounds hfit hin
      exact ⟨text, ht, by rw [sliceInPlace_eq, ht]⟩

/-- A slice that begins within the first segment and ends with the second, and an offset whose sum wraps around. -/
theorem slice_drops_and_takes_across :
    (∃ w, (⟨[[1, 2], [3], [4, 5]], 7, 5⟩ : SegmentedByteView).sliceBy (.relative 1 2) = .ok w ∧
      w.WellFormed ∧ w.beginPosition.offset = 8 ∧ w.endPosition.offset = 10 ∧ w.flatten = [2, 3]) ∧
    ∃ text, (⟨[[1, 2], [3], [4, 5]], 7, 5⟩ : SegmentedByteView).sliceBy (.relative (2 ^ 64 - 1) 2) =
      .error (.outOfRange text) := by
  have hwf : (⟨[[1, 2], [3], [4, 5]], 7, 5⟩ : SegmentedByteView).WellFormed := ⟨by decide, rfl, by decide⟩
  obtain ⟨w, h1, -, h2, -, h3, h4, h5⟩ := ((slice_drops_and_takes (β := Byte)).2 ⟨[[1, 2], [3], [4, 5]], 7, 5⟩ hwf
    (by decide) (.relative 1 2)).1 (by decide)
  obtain ⟨text, h6, -⟩ := ((slice_drops_and_takes (β := Byte)).2 ⟨[[1, 2], [3], [4, 5]], 7, 5⟩ hwf
    (by decide) (.relative (2 ^ 64 - 1) 2)).2 (by decide)
  exact ⟨⟨w, h1, h2, h3, h4, h5⟩, text, h6⟩

/-! ### Slices of slices -/

/-- The whole view is a slice of itself. -/
theorem slice_self (hv : v.WellFormed) (hfit : v.beginOffset + v.size < SizeT.modulus) :
    v.slice v.beginPosition v.endPosition = .ok v := by
  have hend : v.endPosition.offset = v.beginOffset + v.size := SizeT.add_eq hfit
  have hlen := hv.size_eq
  unfold flatten at hlen
  rw [slice_eq hv hfit _ _ (Nat.le_refl _) (by rw [hend]; exact Nat.le_add_right _ _) (by rw [hend]), hend]
  show Except.ok _ = _
  rw [show v.beginPosition.offset = v.beginOffset from rfl, Nat.sub_self, Nat.add_sub_cancel_left,
    Sequence.dropPieces_zero hv.nonempty, Sequence.takePieces_of_length_le hv.nonempty (by omega)]

/-- A slice of a slice is cut from the view at once. -/
theorem slice_of_slice (hv : v.WellFormed) (hfit : v.beginOffset + v.size < SizeT.modulus) {p q r s : Position}
    (h1 : v.beginOffset ≤ p.offset) (h2 : p.offset ≤ r.offset) (h3 : r.offset ≤ s.offset) (h4 : s.offset ≤ q.offset)
    (h5 : q.offset ≤ v.beginOffset + v.size) :
    ∃ w x, v.slice p q = .ok w ∧ w.slice r s = .ok x ∧ v.slice r s = .ok x := by
  obtain ⟨w, hw, hwf, hb, hs, -⟩ := slice_spec hv hfit p q h1 (by omega) h5
  refine ⟨w, _, hw, slice_eq hwf (by omega) r s (by omega) h3 (by omega), ?_⟩
  rw [slice_eq hv hfit r s (by omega) h3 (by omega)]
  rw [slice_eq hv hfit p q h1 (by omega) h5] at hw
  cases hw
  dsimp only
  rw [Sequence.dropPieces_takePieces, Sequence.takePieces_takePieces, Sequence.dropPieces_dropPieces,
    show p.offset - v.beginOffset + (r.offset - p.offset) = r.offset - v.beginOffset by omega,
    show min (s.offset - r.offset) (q.offset - p.offset - (r.offset - p.offset)) = s.offset - r.offset by omega]

/-- The view `w` is a slice of `v`, with its own positions. -/
structure IsSlice (v w : SegmentedByteView β) : Prop where
  wellFormed : w.WellFormed
  fits : w.beginOffset + w.size < SizeT.modulus
  begin_le : v.beginOffset ≤ w.beginOffset
  end_le : w.beginOffset + w.size ≤ v.beginOffset + v.size
  slice : v.slice w.beginPosition w.endPosition = .ok w

/-- Slicing a slice of `v` in place gives the slice of `v` to the range. -/
private theorem IsSlice.sliceInPlace_of_inBounds (h : IsSlice v w) (hv : v.WellFormed)
    (hfit : v.beginOffset + v.size < SizeT.modulus) {args : SliceArgs} (hin : w.InBounds (w.rangeOf args)) :
    IsSlice v (w.sliceInPlace args).1 ∧
      v.slice ⟨(w.rangeOf args).sliceBegin, true⟩ ⟨(w.rangeOf args).sliceEnd, true⟩ = .ok (w.sliceInPlace args).1 := by
  obtain ⟨x, hx, hxwf, hxfit, hxb, hxe, -⟩ := sliceBy_spec h.wellFormed h.fits hin
  have hb := h.begin_le
  have he := h.end_le
  have hwe : w.endPosition.offset = w.beginOffset + w.size := SizeT.add_eq h.fits
  obtain ⟨hin1, hin2, hin3⟩ := hin
  obtain ⟨w', x', hw', hx', hvx⟩ := slice_of_slice hv hfit (p := w.beginPosition) (q := w.endPosition)
    (r := ⟨(w.rangeOf args).sliceBegin, true⟩) (s := ⟨(w.rangeOf args).sliceEnd, true⟩) h.begin_le hin1 hin2
    (by rw [hwe]; exact hin3) (by rw [hwe]; exact h.end_le)
  rw [h.slice] at hw'
  cases hw'
  rw [← sliceBy_of_inBounds h.fits ⟨hin1, hin2, hin3⟩, hx] at hx'
  cases hx'
  have hplace : w.sliceInPlace args = (x, .ok ()) := by rw [sliceInPlace_eq, hx]
  rw [hplace]
  dsimp only
  refine ⟨⟨hxwf, hxfit, by omega, by omega, ?_⟩, hvx⟩
  rw [← hvx]
  show v.slice ⟨x.beginOffset, true⟩ ⟨x.endOffset, true⟩ = _
  rw [show x.endOffset = x.beginOffset + x.size from SizeT.add_eq hxfit, hxe, hxb]

private theorem IsSlice.sliceInPlace (h : IsSlice v w) (hv : v.WellFormed)
    (hfit : v.beginOffset + v.size < SizeT.modulus) (args : SliceArgs) : IsSlice v (w.sliceInPlace args).1 := by
  by_cases hin : w.InBounds (w.rangeOf args)
  · exact (h.sliceInPlace_of_inBounds hv hfit hin).1
  · obtain ⟨text, ht⟩ := sliceBy_of_not_inBounds h.fits hin
    rw [sliceInPlace_eq, ht]
    exact h

theorem isSlice_sliceChain (hv : v.WellFormed) (hfit : v.beginOffset + v.size < SizeT.modulus)
    (chain : List SliceArgs) : IsSlice v (v.sliceChain chain) := by
  refine List.foldlRecOn chain _ ?_ (fun w h args _ => h.sliceInPlace hv hfit args)
  exact ⟨hv, hfit, Nat.le_refl _, Nat.le_refl _, slice_self hv hfit⟩

/-- Slicing composes, segment by segment: a slice of a slice is the slice of the view, for positions and for relative
offsets; and whatever calls of `slice_in_place` were made before, slicing in place to a range gives the slice of the
original view to that range.  The elements are not looked at: with the places of the bytes for the elements, equal
segments are the same spans. -/
theorem slices_compose (hv : v.WellFormed) (hfit : v.beginOffset + v.size < SizeT.modulus) :
    (∀ p q r s : Position, v.beginPosition.offset ≤ p.offset → p.offset ≤ r.offset → r.offset ≤ s.offset →
      s.offset ≤ q.offset → q.offset ≤ v.endPosition.offset →
      ∃ w x, v.slice p q = .ok w ∧ w.slice r s = .ok x ∧ v.slice r s = .ok x) ∧
    (∀ a n b m, a + n ≤ v.size → b + m ≤ n →
      ∃ w x, v.sliceBy (.relative a n) = .ok w ∧ w.sliceBy (.relative b m) = .ok x ∧
        v.sliceBy (.relative (a + b) m) = .ok x) ∧
    ∀ chain args, (v.sliceChain chain).InBounds ((v.sliceChain chain).rangeOf args) →
      v.slice ⟨((v.sliceChain chain).rangeOf args).sliceBegin, true⟩
        ⟨((v.sliceChain chain).rangeOf args).sliceEnd, true⟩ = .ok (v.sliceChain (chain ++ [args])) := by
  have hend : v.endPosition.offset = v.beginOffset + v.size := SizeT.add_eq hfit
  refine ⟨?_, ?_, ?_⟩
  · intro p q r s h1 h2 h3 h4 h5
    exact slice_of_slice hv hfit h1 h2 h3 h4 (by rw [← hend]; exact h5)
  · intro a n b m han hbm
    have hin : v.InBounds (v.rangeOf (.relative a n)) :=
      ⟨Nat.le_add_right _ _, Nat.le_add_right _ _, by show v.beginOffset + a + n ≤ _; omega⟩
    have hin' : v.InBounds (v.rangeOf (.relative (a + b) m)) :=
      ⟨Nat.le_add_right _ _, Nat.le_add_right _ _, by show v.beginOffset + (a + b) + m ≤ _; omega⟩
    obtain ⟨w, hw, -, hwfit, hb, he, -⟩ := sliceBy_spec hv hfit hin
    have hb' : w.beginOffset = v.beginOffset + a := hb
    have he' : w.beginOffset + w.size = v.beginOffset + a + n := he
    have hinw : w.InBounds (w.rangeOf (.relative b m)) :=
      ⟨Nat.le_add_right _ _, Nat.le_add_right _ _, by show w.beginOffset + b + m ≤ _; omega⟩
    have hr : w.rangeOf (.relative b m) = v.rangeOf (.relative (a + b) m) := by
      simp only [rangeOf, hb', Nat.add_assoc]
    -- in absolute positions the two calls are a slice of a slice
    obtain ⟨w', x, hw', hx, hvx⟩ := slice_of_slice hv hfit
      (p := ⟨v.beginOffset + a, true⟩) (q := ⟨v.beginOffset + a + n, true⟩)
      (r := ⟨v.beginOffset + (a + b), true⟩) (s := ⟨v.beginOffset + (a + b) + m, true⟩)
      (by simp) (by dsimp only; omega) (by simp) (by dsimp only; omega) (by dsimp only; omega)
    obtain rfl : w' = w := by
      rw [sliceBy_of_inBounds hfit hin] at hw
      exact Except.ok.inj (hw'.symm.trans hw)
    refine ⟨w', x, hw, ?_, ?_⟩
    · rw [sliceBy_of_inBounds hwfit hinw, hr]
      exact hx
    · rw [sliceBy_of_inBounds hfit hin']
      exact hvx
  · intro chain args hin
    have h := ((isSlice_sliceChain hv hfit chain).sliceInPlace_of_inBounds hv hfit hin).2
    rw [h, sliceChain, sliceChain, List.foldl_append]
    rfl

/-- The places of five bytes in three segments: three calls of `slice_in_place`, of which the second throws, and the slice
at once. -/
theorem slices_compose_places :
    (⟨[[100, 101], [200], [300, 301]], 7, 5⟩ : SegmentedByteView Nat).slice ⟨9, true⟩ ⟨11, true⟩ =
      .ok ((⟨[[100, 101], [200], [300, 301]], 7, 5⟩ : SegmentedByteView Nat).sliceChain
        ([.relative 1 3, .upTo ⟨100, true⟩] ++ [.offsetUpTo 1 ⟨11, true⟩])) ∧
    ((⟨[[100, 101], [200], [300, 301]], 7, 5⟩ : SegmentedByteView Nat).sliceChain
      ([.relative 1 3, .upTo ⟨100, true⟩] ++ [.offsetUpTo 1 ⟨11, true⟩])).segments = [[200], [300]] := by
  have hwf : (⟨[[100, 101], [200], [300, 301]], 7, 5⟩ : SegmentedByteView Nat).WellFormed :=
    ⟨by decide, rfl, by decide⟩
  exact ⟨(slices_compose hwf (by decide)).2.2 [.relative 1 3, .upTo ⟨100, true⟩] (.offsetUpTo 1 ⟨11, true⟩) (by decide),
    by decide⟩

end SegmentedByteView

end Xtd
