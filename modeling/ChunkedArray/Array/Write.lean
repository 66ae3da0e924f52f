import ChunkedArray.Array.Read

/-!
# Writing arrays

Chunks are stored whole. A region is written chunk by chunk: the chunk is read, or taken as fill
value where it is not stored or the region replaces all of it, the region's part is merged into it
and it is stored again. The first failure ends the operation and leaves the chunks before it
written.
-/

namespace ChunkedArray

/-- An operation of a handle on its store. -/
abbrev ArrayAction (σ : Type) := StoreAction σ (Failure ArrayError)

namespace ArrayHandle

variable {t : DataType} {σ : Type} [Store σ]

/-- A store operation on one chunk. -/
def onChunk {α : Type} (h : ArrayHandle t) (chunk : Index) (a : StoreAction σ StoreError α) :
    ArrayAction σ α :=
  a.rename fun e => .error (.store h.key (some chunk) e)

def isEmptyChunk (h : ArrayHandle t) (chunk : NdArray t.Element) : Bool :=
  chunk.cells.all fun x => Element.sameValue x h.fillValue

/-- Stores a chunk, or erases it if it is empty and the options say so. -/
def storeChunk (h : ArrayHandle t) (chunk : Index) (cells : NdArray t.Element) :
    ArrayAction σ Unit := do
  if !h.options.storeEmptyChunks && h.isEmptyChunk cells then
    let _ ← h.onChunk chunk (Store.erase (h.chunkKey chunk))
  else
    let bytes ← StoreAction.reading fun _ =>
      (h.codecs.encode cells).mapError (.encode h.key chunk)
    h.onChunk chunk (Store.set (h.chunkKey chunk) bytes)

/-- Writes a whole chunk, which must have the shape of chunks. -/
def writeChunk (h : ArrayHandle t) (chunk : Index) (cells : NdArray t.Element) :
    ArrayAction σ Unit := do
  StoreAction.reading fun _ => h.checkChunk chunk
  if cells.shape ≠ h.grid.chunkShape then
    throw (.error (.shapeMismatch h.grid.chunkShape cells.shape))
  h.storeChunk chunk cells

/-- Erases a chunk and tells whether it was stored. -/
def eraseChunk (h : ArrayHandle t) (chunk : Index) : ArrayAction σ Bool := do
  StoreAction.reading fun _ => h.checkChunk chunk
  h.onChunk chunk (Store.erase (h.chunkKey chunk))

/-! ### Regions -/

/-- How the part of a region in one chunk is merged into the chunk. -/
abbrev Merge (t : DataType) := ChunkPart → NdArray t.Element → Except Violation (NdArray t.Element)

/-- Whether the part is all that the array has of its chunk, so what is stored does not matter. -/
def replacesChunk (h : ArrayHandle t) (part : ChunkPart) : Except Violation Bool := do
  return part.inChunk.isWholeOf (← h.grid.wordExtent part.chunk h.shape)

/-- The chunk into which a part is merged. -/
def mergeBase (h : ArrayHandle t) (part : ChunkPart) (s : σ) :
    Checked ArrayError (NdArray t.Element) := do
  if ← Checked.guarded (h.replacesChunk part) then h.filled h.grid.chunkShape
  else h.chunkOrFill part.chunk s

/-- Merges a part into its chunk and stores the chunk. -/
def mergePart (h : ArrayHandle t) (merge : Merge t) (part : ChunkPart) : ArrayAction σ Unit := do
  let base ← StoreAction.reading (h.mergeBase part)
  let merged ← StoreAction.reading fun _ => Checked.guarded (merge part base)
  h.storeChunk part.chunk merged

/-- Merges the parts in the given order; the first failure ends it. -/
def mergeParts (h : ArrayHandle t) (merge : Merge t) (parts : List ChunkPart) :
    ArrayAction σ Unit :=
  parts.forM (h.mergePart merge)

/-- Merges a region into the chunks that it meets. -/
def mergeRegion (h : ArrayHandle t) (region : Region) (merge : Merge t) : ArrayAction σ Unit := do
  let parts ← StoreAction.reading fun _ => h.partsOf region
  h.mergeParts merge parts.toList

/-- Takes the cells of a part from an array of the shape of the region. -/
def mergeData (data : NdArray t.Element) : Merge t := fun part chunk => do
  chunk.assign part.inChunk.view (← data.slice part.inRegion.view)

/-- Sets the cells of a part to one value. -/
def mergeValue (value : t.Element) : Merge t := fun part chunk =>
  chunk.assignAll part.inChunk.view value

/-- Writes an array of the shape of the region. -/
def writeRegion (h : ArrayHandle t) (region : Region) (data : NdArray t.Element) :
    ArrayAction σ Unit := do
  if data.shape ≠ region.shape then throw (.error (.shapeMismatch region.shape data.shape))
  h.mergeRegion region (mergeData data)

def fillRegion (h : ArrayHandle t) (region : Region) (value : t.Element) : ArrayAction σ Unit :=
  h.mergeRegion region (mergeValue value)

/-! ### Selections -/

/-- The data for a region from data for a selection: with all axes, or without those that are
dropped. -/
def dataForRegion (resolved : ResolvedSelection) (data : NdArray t.Element) :
    Checked ArrayError (NdArray t.Element) :=
  if data.shape = resolved.region.shape then .ok data
  else if data.shape ≠ resolved.outputShape then
    Checked.fail (.shapeMismatch resolved.outputShape data.shape)
  else Checked.guarded (resolved.restoreAxes data)

def writeSelection (h : ArrayHandle t) (selection : Selection) (data : NdArray t.Element) :
    ArrayAction σ Unit := do
  let resolved ← StoreAction.reading fun _ =>
    Checked.report .outOfBounds (selection.resolve h.shape)
  let data ← StoreAction.reading fun _ => dataForRegion resolved data
  h.writeRegion resolved.region data

def fillSelection (h : ArrayHandle t) (selection : Selection) (value : t.Element) :
    ArrayAction σ Unit := do
  let resolved ← StoreAction.reading fun _ =>
    Checked.report .outOfBounds (selection.resolve h.shape)
  h.fillRegion resolved.region value

end ArrayHandle

end ChunkedArray
