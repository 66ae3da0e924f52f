import ChunkedArray.Grid.Words

/-!
# Slices of arrays

An array is sliced along each axis from a start to a stop by a step. The three are signed words: a
start or stop below zero counts from the end of the axis, and a step below zero runs back from the
stop. A region hands over its runs as such slices, the words of a run taken for signed ones.
-/

namespace ChunkedArray

/-- The signed word of the same bits. -/
def Word.toSigned (n : Nat) : Int := if n < addressLimit then n else n - wordLimit

structure AxisSlice where
  start : Int
  stop : Int
  step : Int
deriving DecidableEq

/-- An axis of a sliced array: so many indices of the axis of the array, from `first` on, each one
`step` further. -/
structure SlicedAxis where
  first : Nat
  count : Nat
  step : Int
deriving DecidableEq

namespace SlicedAxis

def index (x : SlicedAxis) (j : Nat) : Nat := (x.first + j * x.step).toNat

def shape (axes : List SlicedAxis) : Shape := axes.map count

/-- The index in the array of the cell at `j` in the slice. -/
def indexAll (axes : List SlicedAxis) (j : Index) : Index := List.zipWith index axes j

end SlicedAxis

namespace AxisSlice

/-- An index counted from the front of an axis. -/
def fromFront (length : Nat) (i : Int) : Except Violation Nat :=
  if i < 0 then Word.sub length i.natAbs else .ok i.toNat

/-- What comes of an axis of this length. -/
def onAxis (s : AxisSlice) (length : Nat) : Except Violation SlicedAxis := do
  let start ← fromFront length s.start
  let stop := max start (← fromFront length s.stop)
  if length < stop then .error .outOfRange
  else if s.step = 0 then .error .zeroDivisor
  else
    return ⟨if s.step < 0 then stop - 1 else start, ceilDiv (stop - start) s.step.natAbs, s.step⟩

theorem count_le_of_onAxis {s : AxisSlice} {length : Nat} {x : SlicedAxis}
    (h : s.onAxis length = .ok x) : x.count ≤ length := by
  simp only [onAxis, Outcome.bind_eq_ok_iff] at h
  obtain ⟨start, -, stop, -, h⟩ := h
  split at h
  · cases h
  · split at h
    · cases h
    · obtain rfl := Except.ok.inj h
      refine Nat.not_lt.1 fun hlt => ?_
      have hspan := (lt_ceilDiv_iff (by omega)).1 hlt
      have hmul := Nat.le_mul_of_pos_right length (m := s.step.natAbs) (by omega)
      omega

end AxisSlice

/-- The slice of a run. A run of at most one index needs no step, and its own may be no signed
word. -/
def Run.slice (r : Run) : Except Violation AxisSlice := do
  return ⟨Word.toSigned r.offset, Word.toSigned (← r.wordStop),
    Word.toSigned (if r.count ≤ 1 then 1 else r.step)⟩

namespace Region

/-- The axes of an array of this shape, sliced by the runs. -/
def slicedAxes : Region → Shape → Except Violation (List SlicedAxis)
  | _, [] => .ok []
  | [], _ :: _ => .error .outOfRange
  | r :: region, n :: shape => do
    let x ← (← r.slice).onAxis n
    return x :: (← slicedAxes region shape)

theorem isAddressable_of_slicedAxes {region : Region} {shape : Shape} {axes : List SlicedAxis}
    (h : region.slicedAxes shape = .ok axes) (hs : shape.isAddressable) :
    Shape.isAddressable (SlicedAxis.shape axes) := by
  suffices hspan : Shape.span (SlicedAxis.shape axes) ≤ shape.span from
    Shape.isAddressable_of_span_le hspan hs
  clear hs
  induction shape generalizing region axes with
  | nil =>
    obtain rfl : [] = axes := by cases region <;> exact Except.ok.inj h
    exact Nat.le_refl _
  | cons n shape ih =>
    cases region with
    | nil => cases h
    | cons r region =>
      simp only [slicedAxes, Outcome.bind_eq_ok_iff] at h
      obtain ⟨s, -, x, hx, rest, hrest, h⟩ := h
      obtain rfl := Except.ok.inj h
      exact Shape.span_cons_le (AxisSlice.count_le_of_onAxis hx) (ih hrest)

variable {α : Type}

/-- The cells of an array that the region selects. -/
def sliceOf [Inhabited α] (region : Region) (a : NdArray α) : Except Violation (NdArray α) :=
  match h : region.slicedAxes a.shape with
  | .error v => .error v
  | .ok axes =>
    .ok (.ofFn (SlicedAxis.shape axes) (isAddressable_of_slicedAxes h a.isAddressable_shape)
      fun j => a.cell (SlicedAxis.indexAll axes j))

/-- The array with the cells that the region selects replaced by `f` of their index in the slice. -/
def assignSlice (region : Region) (f : Index → α) (a : NdArray α) :
    Except Violation (NdArray α) := do
  let axes ← region.slicedAxes a.shape
  return ⟨a.shape, NdArray.setCells a.shape (SlicedAxis.indexAll axes) f
    (SlicedAxis.shape axes).indices a.data, by rw [NdArray.size_setCells, a.size_data],
    a.isAddressable_shape⟩

end Region

end ChunkedArray
