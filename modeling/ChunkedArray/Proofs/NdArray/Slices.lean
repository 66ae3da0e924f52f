import ChunkedArray.Grid.Slices
import ChunkedArray.Proofs.Grid.Words
import ChunkedArray.Proofs.NdArray.Parts

/-!
# Slices of regions

The words of a run that fits an axis in memory are signed words of the same value, and so the slice
of a region that is accepted for an array is its view: it has the shape of the region, its cells are
those that the region selects, and what is assigned to it reaches no others.
-/

namespace ChunkedArray

theorem Shape.le_span {shape : Shape} {n : Nat} (h : n ∈ shape) : n ≤ shape.span := by
  induction shape with
  | nil => cases h
  | cons m shape ih =>
    rcases List.mem_cons.1 h with rfl | h
    · have hpos := Shape.span_pos shape
      rw [Shape.span_cons]
      split
      · omega
      · exact Nat.le_mul_of_pos_right n hpos
    · exact (ih h).trans (Shape.span_le_cons m shape)

theorem NdArray.lt_addressLimit {α : Type} (a : NdArray α) : ∀ n ∈ a.shape, n < addressLimit := by
  intro n hn
  have hspan : a.shape.span < addressLimit := of_decide_eq_true a.isAddressable_shape
  have hle := Shape.le_span hn
  omega

theorem Word.toSigned_of_lt {n : Nat} (h : n < addressLimit) : toSigned n = n := if_pos h

/-! ### One axis -/

namespace Run

variable {r : Run} {length : Nat}

theorem FitsAxis.step_range_lt (h : r.FitsAxis length) (hlength : length < addressLimit) :
    r.range.step < addressLimit := by
  by_cases hcount : r.count ≤ 1
  · simp only [range, if_pos hcount]
    decide
  · have hindex := h.index_lt 1 (by omega)
    unfold index at hindex
    simp only [range, if_neg hcount]
    omega

theorem FitsAxis.slice_eq (h : r.FitsAxis length) (hlength : length < addressLimit) :
    r.slice = .ok ⟨r.range.start, r.range.stop, r.range.step⟩ := by
  have hstop : r.wordStop = .ok r.stop :=
    h.wordStop_eq_ok (hlength.trans addressLimit_lt_wordLimit)
  have hoffset := h.offset_le
  have hle := h.stop_le
  have hstep : Word.toSigned (if r.count ≤ 1 then 1 else r.step) = r.range.step :=
    Word.toSigned_of_lt (h.step_range_lt hlength)
  rw [slice, hstop, Outcome.ok_bind, Word.toSigned_of_lt (by omega),
    Word.toSigned_of_lt (by omega), hstep]
  rfl

end Run

namespace AxisRange

/-- The range as an axis of a slice. -/
def toAxis (r : AxisRange) : SlicedAxis := ⟨r.start, r.count, r.step⟩

theorem index_toAxis (r : AxisRange) (j : Nat) : r.toAxis.index j = r.index j := by
  simp only [SlicedAxis.index, toAxis, index]
  omega

theorem Fits.onAxis_eq {r : AxisRange} {length : Nat} (h : r.Fits length) :
    AxisSlice.onAxis ⟨r.start, r.stop, r.step⟩ length = .ok r.toAxis := by
  obtain ⟨hstart, hstop, hstep⟩ := h
  have hfront (n : Nat) : AxisSlice.fromFront length n = .ok n := by
    unfold AxisSlice.fromFront
    rw [if_neg (by omega), Int.toNat_natCast]
  have hmax : max r.start r.stop = r.stop := by omega
  simp only [AxisSlice.onAxis, hfront, Outcome.ok_bind, hmax]
  rw [if_neg (by omega), if_neg (by omega), if_neg (by omega), Int.natAbs_natCast]
  rfl

end AxisRange

/-- The words of the run are signed words, and the axis that is sliced by them is that of the run. -/
structure Run.SlicesAxis (r : Run) (length : Nat) (s : AxisSlice) : Prop where
  slice_eq : r.slice = .ok s
  start_eq : s.start = r.offset
  stop_eq : s.stop = r.stop
  step_eq : s.step = if r.count ≤ 1 then 1 else r.step
  start_lt : s.start < addressLimit
  stop_lt : s.stop < addressLimit
  step_pos : 1 ≤ s.step
  step_lt : s.step < addressLimit
  axis : ∃ x, s.onAxis length = .ok x ∧ x.count = r.count ∧ ∀ j < r.count, x.index j = r.index j

theorem Run.FitsAxis.slicesAxis {r : Run} {length : Nat} (h : r.FitsAxis length)
    (hlength : length < addressLimit) :
    r.SlicesAxis length ⟨r.range.start, r.range.stop, r.range.step⟩ := by
  have hfits := range_fits h
  have hoffset := h.offset_le
  have hstop := h.stop_le
  have hstep := h.step_range_lt hlength
  constructor
  · exact h.slice_eq hlength
  · rfl
  · rfl
  · rfl
  · simp only [range]
    omega
  · simp only [range]
    omega
  · have hpos := hfits.2.2
    simp only
    omega
  · simp only
    omega
  · refine ⟨r.range.toAxis, hfits.onAxis_eq, count_range h, ?_⟩
    intro j hj
    rw [AxisRange.index_toAxis, index_range hj]

/-! ### All axes -/

namespace Region

variable {α : Type} {region : Region} {shape : Shape}

theorem Fits.slicedAxes_eq (h : region.Fits shape) (hshape : ∀ n ∈ shape, n < addressLimit) :
    region.slicedAxes shape = .ok (region.view.map AxisRange.toAxis) := by
  induction h with
  | nil => rfl
  | cons hr _ ih =>
    rw [List.forall_mem_cons] at hshape
    rw [slicedAxes, hr.slice_eq hshape.1, Outcome.ok_bind, (Run.range_fits hr).onAxis_eq,
      Outcome.ok_bind, ih hshape.2]
    rfl

theorem Fits.slicesAxis (h : region.Fits shape) (hshape : ∀ n ∈ shape, n < addressLimit) :
    List.Forall₂ (fun r n => ∃ s, r.SlicesAxis n s) region shape := by
  induction h with
  | nil => exact .nil
  | cons hr _ ih =>
    rw [List.forall_mem_cons] at hshape
    exact .cons ⟨_, hr.slicesAxis hshape.1⟩ (ih hshape.2)

theorem shape_toAxis (view : View) : SlicedAxis.shape (view.map AxisRange.toAxis) = view.shape := by
  simp [SlicedAxis.shape, View.shape, AxisRange.toAxis]

theorem indexAll_toAxis (view : View) (j : Index) :
    SlicedAxis.indexAll (view.map AxisRange.toAxis) j = view.index j := by
  simp only [SlicedAxis.indexAll, View.index, List.zipWith_map_left, AxisRange.index_toAxis]

theorem Fits.sliceOf_eq [Inhabited α] {a : NdArray α} (h : region.Fits a.shape) :
    region.sliceOf a = a.slice region.view := by
  have haxes := h.slicedAxes_eq a.lt_addressLimit
  rw [NdArray.slice, dif_pos h.view_fits, sliceOf]
  split
  · next v he =>
    rw [haxes] at he
    cases he
  · next axes he =>
    rw [haxes] at he
    obtain rfl := Except.ok.inj he
    simp only [indexAll_toAxis, shape_toAxis]

theorem Fits.assignSlice_eq {a : NdArray α} (h : region.Fits a.shape) (f : Index → α) :
    region.assignSlice f a = .ok (a.update region.view f) := by
  have hindex : SlicedAxis.indexAll (region.view.map AxisRange.toAxis) = region.view.index :=
    funext (indexAll_toAxis region.view)
  simp only [assignSlice, h.slicedAxes_eq a.lt_addressLimit, Outcome.ok_bind, hindex, shape_toAxis]
  rfl

/-- The slice of an array by a region is the part of it that the region selects. -/
structure Addresses [Inhabited α] (region : Region) (a : NdArray α) : Prop where
  slicesAxis : List.Forall₂ (fun r n => ∃ s, r.SlicesAxis n s) region a.shape
  sliceOf : ∃ b, region.sliceOf a = .ok b ∧ b.shape = region.shape ∧
    ∀ j : Index, j.Inside region.shape →
      (region.index j).Inside a.shape ∧ b.cell j = a.cell (region.index j)
  assignSlice : ∀ f, ∃ b, region.assignSlice f a = .ok b ∧ NdArray.Replaced region f a b

theorem addresses_of_checkBounds [Inhabited α] {a : NdArray α}
    (h : region.checkBounds a.shape = .ok ()) : region.Addresses a := by
  have hword : ∀ n ∈ a.shape, n < wordLimit := by
    intro n hn
    exact (a.lt_addressLimit n hn).trans addressLimit_lt_wordLimit
  have hfits := (checkBounds_eq_ok_iff hword).1 h
  constructor
  · exact hfits.slicesAxis a.lt_addressLimit
  · obtain ⟨b, hb, hshape, hcell⟩ := NdArray.slice_spec hfits
    refine ⟨b, ?_, hshape, ?_⟩
    · rw [hfits.sliceOf_eq]
      exact hb
    · intro j hj
      exact ⟨hfits.index_inside hj, hcell j hj⟩
  · intro f
    exact ⟨_, hfits.assignSlice_eq f, NdArray.replaced_update hfits f⟩

theorem isAddressable_fiveByFour : Shape.isAddressable [5, 4] := by decide

/-- Each cell is its own index. -/
def indexCells : NdArray Index := .ofFn [5, 4] isAddressable_fiveByFour id

/-- Two indices three apart and an empty run at the end of the first axis, each with one index of the
second axis whose step is the greatest word. -/
theorem addresses_of_checkBounds_edges :
    (checkBounds [⟨1, 2, 3⟩, ⟨3, 1, wordLimit - 1⟩] indexCells.shape = .ok () ∧
      Addresses [⟨1, 2, 3⟩, ⟨3, 1, wordLimit - 1⟩] indexCells) ∧
    (checkBounds [⟨5, 0, 2⟩, ⟨3, 1, wordLimit - 1⟩] indexCells.shape = .ok () ∧
      Addresses [⟨5, 0, 2⟩, ⟨3, 1, wordLimit - 1⟩] indexCells) := by
  have hstrided : checkBounds [⟨1, 2, 3⟩, ⟨3, 1, wordLimit - 1⟩] indexCells.shape = .ok () := by
    decide
  have hempty : checkBounds [⟨5, 0, 2⟩, ⟨3, 1, wordLimit - 1⟩] indexCells.shape = .ok () := by
    decide
  exact ⟨⟨hstrided, addresses_of_checkBounds hstrided⟩, hempty, addresses_of_checkBounds hempty⟩

example : (sliceOf [⟨1, 2, 3⟩, ⟨3, 1, wordLimit - 1⟩] indexCells).map NdArray.cells =
    .ok [[1, 3], [4, 3]] := by
  decide

end Region

end ChunkedArray
