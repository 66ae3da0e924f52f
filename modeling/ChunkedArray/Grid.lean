import ChunkedArray.Region
import ChunkedArray.Json.Record

/-!
# Chunk grids

A regular grid cuts an array into chunks of one shape, the last along an axis reaching past the end
of the array where the lengths do not divide. `voxelChunk` finds the chunk of one cell; `ChunkParts`
lists the chunks that a region meets, in row-major order, with the part of the region inside each:
where it lies in the chunk and where in the region.
-/

namespace ChunkedArray

structure RegularGrid where
  chunkShape : Shape
deriving DecidableEq

/-- The part of a region that lies in one chunk. -/
structure ChunkPart where
  chunk : Index
  /-- The cells of the part, relative to the chunk. -/
  inChunk : Region
  /-- The same cells, relative to the region. -/
  inRegion : Region
deriving DecidableEq

/-- The part of a run that lies in one chunk along its axis. -/
structure AxisPart where
  chunk : Nat
  inChunk : Run
  inRegion : Run
deriving DecidableEq

/-- The chunks that a region meets, in order. -/
structure ChunkParts where
  /-- The number of parts still to come, announced in advance as the product of the counts of the
  axes. That product is one for a region without axes, which meets no chunk. -/
  announced : Nat
  rest : List ChunkPart

namespace ChunkParts

def next? (parts : ChunkParts) : Option (ChunkPart × ChunkParts) :=
  if parts.announced = 0 then none
  else
    match parts.rest with
    | [] => none
    | part :: rest => some (part, ⟨parts.announced - 1, rest⟩)

def toList (parts : ChunkParts) : List ChunkPart := parts.rest

/-- All choices of one part per axis, the last axis running fastest. -/
def product : List (List AxisPart) → List ChunkPart
  | [] => [⟨[], [], []⟩]
  | axis :: axes =>
    axis.flatMap fun a => (product axes).map fun p =>
      ⟨a.chunk :: p.chunk, a.inChunk :: p.inChunk, a.inRegion :: p.inRegion⟩

def ofAxes (axes : List (List AxisPart)) : Except Violation ChunkParts := do
  return ⟨← Word.product (axes.map List.length), if axes = [] then [] else product axes⟩

end ChunkParts

namespace RegularGrid

def rank (g : RegularGrid) : Nat := g.chunkShape.length

def hasEmptyAxis (g : RegularGrid) : Bool := g.chunkShape.contains 0

/-- Pairs the coordinates with the chunk lengths, as far as both go, and combines each pair. -/
def zipLengths {α : Type} (g : RegularGrid) (f : Nat → Nat → α) (coords : List Nat) :
    Except Violation (List α) :=
  let pairs := coords.zip g.chunkShape
  if pairs.any fun (_, n) => n == 0 then .error .zeroDivisor
  else .ok (pairs.map fun (c, n) => f c n)

/-- The number of chunks along each axis. -/
def gridShape (g : RegularGrid) (arrayShape : Shape) : Except Violation Shape :=
  g.zipLengths ceilDiv arrayShape

/-- The chunk of a cell and the place of the cell in it. -/
def voxelChunk (g : RegularGrid) (i : Index) : Checked RankMismatch (Index × Index) := do
  Checked.report id (RankMismatch.check i.length g.rank)
  return (← Checked.guarded (g.zipLengths (· / ·) i), ← Checked.guarded (g.zipLengths (· % ·) i))

/-- Compares each coordinate with the number of chunks along its axis, from axis `axis` on. -/
def checkCoords (axis : Nat) : Index → Shape → Except IndexError Unit
  | i :: idx, n :: counts =>
    if i ≥ n then .error (.outOfBounds axis i n) else checkCoords (axis + 1) idx counts
  | _, _ => .ok ()

/-- Checks that an index names a chunk of an array of this shape. -/
def checkChunk (g : RegularGrid) (idx : Index) (arrayShape : Shape) : Checked IndexError Unit := do
  Checked.report .rank (RankMismatch.check idx.length g.rank)
  let counts ← Checked.guarded (g.gridShape arrayShape)
  Checked.report id (checkCoords 0 idx counts)

/-! ### JSON form -/

def toRaw (g : RegularGrid) : RawJson :=
  .tagged "regular" [("chunk_shape", .ofNats g.chunkShape)]

def ofRaw? (x : RawJson) : Option RegularGrid := do
  let (name, configuration, _) ← x.tagged?
  if name ≠ "regular" then none
  let fields ← configuration.fields? ["chunk_shape"]
  let chunkShape ← RawJson.required fields "chunk_shape" (RawJson.list? RawJson.word?)
  return ⟨chunkShape⟩

end RegularGrid

end ChunkedArray
