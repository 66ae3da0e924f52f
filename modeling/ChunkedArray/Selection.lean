import ChunkedArray.Region

/-!
# Selections

A selection says per axis which indices are wanted, relative to a shape that is not known yet:
everything, one index (whose axis the result does not have) or a slice. Resolving it against a shape
gives a region and the axes to drop.
-/

namespace ChunkedArray

/-- What is wanted along one axis. -/
inductive AxisSelection where
  /-- The indices `start`, `start + step`, … below `stop`, or to the end. -/
  | slice (start : Nat) (stop : Option Nat) (step : Nat)
  /-- One index; the result does not have the axis. -/
  | index (i : Nat)
  | full
deriving DecidableEq

/-- The run that is wanted along an axis of this length. -/
def AxisSelection.resolve (axis length : Nat) : AxisSelection → Except IndexError Run
  | .full => .ok (.contiguous 0 length)
  | .index i =>
    if i ≥ length then .error (.outOfBounds axis i length) else .ok (.contiguous i 1)
  | .slice start stop step =>
    let stop := stop.getD length
    if step = 0 then .error (.zeroStep axis)
    else if start > stop then .error (.invalidRange axis start stop)
    else if stop > length then .error (.outOfBounds axis (stop - 1) length)
    else .ok ⟨start, ceilDiv (stop - start) step, step⟩

def AxisSelection.isIndex : AxisSelection → Bool
  | .index _ => true
  | _ => false

abbrev Selection := List AxisSelection

/-- A selection within a known shape. -/
structure ResolvedSelection where
  region : Region
  /-- The axes that the result does not have, in increasing order. -/
  dropped : List Nat
deriving DecidableEq

namespace Selection

def full (rank : Nat) : Selection := List.replicate rank .full

/-- The runs of the axes from `axis` on. -/
def resolveAxes (axis : Nat) : Selection → Shape → Except IndexError Region
  | s :: selection, n :: shape => do
    let run ← s.resolve axis n
    let runs ← resolveAxes (axis + 1) selection shape
    return run :: runs
  | _, _ => .ok []

/-- The axes, counted from `axis`, along which one index is selected. -/
def indexAxes (axis : Nat) : Selection → List Nat
  | [] => []
  | s :: selection =>
    if s.isIndex then axis :: indexAxes (axis + 1) selection else indexAxes (axis + 1) selection

def resolve (s : Selection) (shape : Shape) : Except IndexError ResolvedSelection := do
  (RankMismatch.check s.length shape.length).mapError .rank
  return ⟨← resolveAxes 0 s shape, indexAxes 0 s⟩

end Selection

namespace ResolvedSelection

/-- The shape of the result: that of the region without the dropped axes. -/
def outputShape (r : ResolvedSelection) : Shape :=
  (r.region.shape.zipIdx.filter fun (_, axis) => !r.dropped.contains axis).map Prod.fst

/-- Takes the dropped axes away from an array of the region's shape, the last one first. -/
def dropAxes {α : Type} [Inhabited α] (r : ResolvedSelection) (a : NdArray α) :
    Except Violation (NdArray α) :=
  r.dropped.reverse.foldlM (fun a axis => a.dropAxis axis) a

/-- Puts the dropped axes back into an array of the output shape. -/
def restoreAxes {α : Type} [Inhabited α] (r : ResolvedSelection) (a : NdArray α) :
    Except Violation (NdArray α) :=
  r.dropped.foldlM (fun a axis => a.insertAxis axis) a

end ResolvedSelection

end ChunkedArray
