import ChunkedArray.Array.Handle
import ChunkedArray.Grid.Words
import ChunkedArray.Selection

/-!
# Reading arrays

A chunk that is not stored holds the fill value. A region is read by filling its cells with the fill
value and then, for each chunk that it meets and that is stored, assigning the part of the region
inside that chunk.
-/

namespace ChunkedArray

namespace ArrayHandle

variable {t : DataType} {σ : Type} [Store σ]

/-- The chunk that some stored bytes hold. -/
def decodeChunk (h : ArrayHandle t) (chunk : Index) (bytes : Bytes) :
    Checked ArrayError (NdArray t.Element) :=
  (h.codecs.decode h.options.codecOptions t h.grid.chunkShape bytes).mapError (.decode h.key chunk)

def storedChunk? (h : ArrayHandle t) (chunk : Index) (s : σ) :
    Checked ArrayError (Option (NdArray t.Element)) := do
  match ← Checked.report (.store h.key (some chunk)) (Store.get (h.chunkKey chunk) s) with
  | none => return none
  | some bytes => return some (← h.decodeChunk chunk bytes)

/-- A chunk, which holds the fill value alone if it is not stored. -/
def chunkOrFill (h : ArrayHandle t) (chunk : Index) (s : σ) :
    Checked ArrayError (NdArray t.Element) := do
  match ← h.storedChunk? chunk s with
  | some cells => return cells
  | none => h.filled h.grid.chunkShape

/-- Checks that an index names a chunk of the array. -/
def checkChunk (h : ArrayHandle t) (chunk : Index) : Checked ArrayError Unit :=
  (h.grid.checkChunk chunk h.shape).mapError .outOfBounds

/-- A whole chunk, with the cells past the end of the array. -/
def readChunk (h : ArrayHandle t) (chunk : Index) (s : σ) :
    Checked ArrayError (NdArray t.Element) := do
  h.checkChunk chunk
  h.chunkOrFill chunk s

/-- Assigns the part of a region that lies in one chunk, if the chunk is stored. -/
def readPart (h : ArrayHandle t) (s : σ) (out : NdArray t.Element) (part : ChunkPart) :
    Checked ArrayError (NdArray t.Element) := do
  match ← h.storedChunk? part.chunk s with
  | none => return out
  | some chunk =>
    let cells ← Checked.guarded (chunk.slice part.inChunk.view)
    Checked.guarded (out.assign part.inRegion.view cells)

/-- Assigns the parts in the given order; the first failure ends it. -/
def readParts (h : ArrayHandle t) (parts : List ChunkPart) (out : NdArray t.Element) (s : σ) :
    Checked ArrayError (NdArray t.Element) :=
  parts.foldlM (h.readPart s) out

/-- The chunks that a region of the array meets. -/
def partsOf (h : ArrayHandle t) (region : Region) : Checked ArrayError ChunkParts :=
  (h.grid.chunksInRegion h.shape region).mapError .outOfBounds

def readRegion (h : ArrayHandle t) (region : Region) (s : σ) :
    Checked ArrayError (NdArray t.Element) := do
  let parts ← h.partsOf region
  let out ← h.filled region.shape
  h.readParts parts.toList out s

/-- Reads the selected cells, without the axes along which one index is selected. -/
def readSelection (h : ArrayHandle t) (selection : Selection) (s : σ) :
    Checked ArrayError (NdArray t.Element) := do
  let resolved ← Checked.report .outOfBounds (selection.resolve h.shape)
  let cells ← h.readRegion resolved.region s
  Checked.guarded (resolved.dropAxes cells)

end ArrayHandle

end ChunkedArray
