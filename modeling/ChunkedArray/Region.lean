import ChunkedArray.NdArray.View
import ChunkedArray.Rank
import ChunkedArray.Word

/-!
# Regions

A run is an arithmetic sequence of indices along one axis: an offset, a count and a step. A region
is one run per axis and stands for the cells whose every coordinate is in the run of its axis.

`Region.checkBounds` accepts a region for a shape exactly if it has its rank, steps are positive and
no index is out of bounds; an empty run may start at most at the end of its axis. What it accepts
can be read and assigned through a view.
-/

namespace ChunkedArray

/-- Why an index, a region or a selection does not fit a shape. -/
inductive IndexError where
  | rank (e : RankMismatch)
  | outOfBounds (axis index length : Nat)
  | zeroStep (axis : Nat)
  /-- A slice that stops before it starts. -/
  | invalidRange (axis start stop : Nat)
deriving DecidableEq

def IndexError.message : IndexError → String
  | .rank e => e.message
  | .outOfBounds axis index length =>
    s!"Index {index} is out of bounds for axis {axis} with length {length}"
  | .zeroStep axis => s!"Step must be at least 1 (axis {axis})"
  | .invalidRange axis start stop =>
    s!"Slice start {start} is greater than stop {stop} (axis {axis})"

/-- The indices `offset + k * step` for `k` below `count`. -/
structure Run where
  offset : Nat
  count : Nat
  step : Nat
deriving DecidableEq

namespace Run

/-- Adjacent indices. -/
def contiguous (offset count : Nat) : Run := ⟨offset, count, 1⟩

def index (r : Run) (k : Nat) : Nat := r.offset + k * r.step

/-- The greatest index, if there is one. -/
def last? (r : Run) : Option Nat :=
  if r.count = 0 then none else some (r.index (r.count - 1))

/-- One more than the greatest index; the offset of an empty run. -/
def stop (r : Run) : Nat := r.last?.elim r.offset (· + 1)

/-- The indices have no gaps between them. -/
def isContiguous (r : Run) : Bool := r.step = 1 || r.count ≤ 1

/-- The run as a range of an axis. The step of a run of at most one index plays no part and is
taken as one. -/
def range (r : Run) : AxisRange := ⟨r.offset, r.stop, if r.count ≤ 1 then 1 else r.step⟩

/-- The run goes through every index of an axis of this length, in order. -/
def isWholeOf (r : Run) (length : Nat) : Bool :=
  r.offset = 0 && r.count = length && r.isContiguous

end Run

/-- One run per axis. -/
abbrev Region := List Run

namespace Region

/-- The greatest index that is told apart: anything beyond is reported as this one. -/
def maxIndex : Nat := wordLimit - 1

def rank (r : Region) : Nat := r.length

def shape (r : Region) : Shape := r.map Run.count

def offset (r : Region) : Index := r.map Run.offset

def size (r : Region) : Nat := r.shape.size

def whole (shape : Shape) : Region := shape.map (Run.contiguous 0)

/-- The region of adjacent cells with this first cell and shape. -/
def ofOffset (offset : Index) (shape : Shape) : Except RankMismatch Region := do
  RankMismatch.check offset.length shape.length
  return List.zipWith Run.contiguous offset shape

/-- The index in the array of the cell at `j` in the region. -/
def index (r : Region) (j : Index) : Index := List.zipWith Run.index r j

/-- The region selects every cell of a shape, in place. -/
def isWholeOf : Region → Shape → Bool
  | [], [] => true
  | r :: region, n :: shape => r.isWholeOf n && isWholeOf region shape
  | _, _ => false

/-- The greatest index, with `maxIndex` in place of one that is no word. -/
def saturatedLast? (r : Run) : Option Nat :=
  if r.count = 0 then none
  else some (((Word.mul? (r.count - 1) r.step).bind (Word.add? · r.offset)).getD maxIndex)

/-- The index to report if a run does not fit an axis. -/
def overrun? (r : Run) (length : Nat) : Option Nat :=
  match saturatedLast? r with
  | some last => if last ≥ length then some last else none
  | none => if r.offset > length then some r.offset else none

/-- Checks the runs from axis `axis` on. -/
def checkAxes (axis : Nat) : Region → Shape → Except IndexError Unit
  | r :: region, n :: shape =>
    if r.step = 0 then .error (.zeroStep axis)
    else
      match overrun? r n with
      | some index => .error (.outOfBounds axis index n)
      | none => checkAxes (axis + 1) region shape
  | _, _ => .ok ()

/-- Checks that every selected cell is inside a shape. -/
def checkBounds (r : Region) (shape : Shape) : Except IndexError Unit := do
  (RankMismatch.check r.rank shape.length).mapError .rank
  checkAxes 0 r shape

/-! ### Cells of an array -/

def view (r : Region) : View := r.map Run.range

end Region

end ChunkedArray
