import ChunkedArray.Array.Error

/-!
# Array handles

A handle gives access to one array in a store as an array of a given data type. It is made by
creating the array, which writes its metadata, or by opening one whose metadata are stored. Either
way the metadata are validated and the codecs resolved first, so the operations on a handle need not
check them again.
-/

namespace ChunkedArray

/-- How chunks are processed. -/
structure ArrayOptions where
  /-- Chunks may be processed at the same time. -/
  parallel : Bool
  /-- How many chunks are processed at the same time. -/
  concurrentLimit : Nat
  /-- Chunks that hold the fill value alone are stored like others; otherwise they are erased. -/
  storeEmptyChunks : Bool
  /-- Stored checksums are compared when chunks are read. -/
  validateChecksums : Bool
deriving DecidableEq

namespace ArrayOptions

/-- The options of a handle that are not chosen, on a machine of so many threads. -/
def default (threads : Nat) : ArrayOptions := ⟨true, threads, true, true⟩

def codecOptions (o : ArrayOptions) : CodecOptions := ⟨o.validateChecksums⟩

end ArrayOptions

/-- An array in a store, accessed as one of type `t`. -/
structure ArrayHandle (t : DataType) where
  key : Key
  metadata : ArrayMetadata
  codecs : CodecChain
  fillValue : t.Element
  options : ArrayOptions

namespace ArrayHandle

variable {t : DataType} {σ : Type} [Store σ]

/-! ### Parts -/

def metadataKey (h : ArrayHandle t) : Key := h.key.metadata

def shape (h : ArrayHandle t) : Shape := h.metadata.shape

def grid (h : ArrayHandle t) : RegularGrid := h.metadata.chunkGrid

def rank (h : ArrayHandle t) : Nat := h.metadata.rank

def gridShape (h : ArrayHandle t) : Except Violation Shape := h.grid.gridShape h.shape

/-- The key of the bytes of a chunk. -/
def chunkKey (h : ArrayHandle t) (chunk : Index) : Key :=
  h.metadata.chunkKeyEncoding.chunkKey h.key chunk

def filled (h : ArrayHandle t) (shape : Shape) : Checked ArrayError (NdArray t.Element) :=
  Checked.guarded (NdArray.filled t.byteCount shape h.fillValue)

/-! ### Making handles -/

/-- A handle of the array that some metadata describe. -/
def ofMetadata (t : DataType) (key : Key) (metadata : ArrayMetadata) (registry : CodecRegistry)
    (options : ArrayOptions) : Except ArrayError (ArrayHandle t) := do
  metadata.validate.mapError .invalidMetadata
  if t ≠ metadata.dataType then throw (.typeMismatch t metadata.dataType)
  let fillValue ←
    (FillValue.ofJson t metadata.fillValue).mapError fun e => .invalidMetadata (.fillValue e)
  let codecs ← (registry.resolveChain metadata.codecs).mapError .codecConfig
  (codecs.validate metadata.dataType metadata.rank).mapError .codecConfig
  return ⟨key, metadata, codecs, fillValue, options⟩

/-- Opens the array whose metadata are stored under a key. -/
def openStored (t : DataType) (key : Key) (registry : CodecRegistry) (options : ArrayOptions)
    (s : σ) : Except ArrayError (ArrayHandle t) := do
  match ← (Store.get key.metadata s).mapError (.store key none) with
  | none => throw (.notFound key)
  | some bytes =>
    match ArrayMetadata.ofBytes? bytes with
    | none => throw (.invalidMetadata .json)
    | some metadata => ofMetadata t key metadata registry options

def writeMetadata (h : ArrayHandle t) : StoreAction σ ArrayError Unit :=
  (Store.set h.metadataKey h.metadata.toBytes).rename (.store h.key none)

/-- Creates an array under a key that has no metadata yet. They are stored with the codecs as they
were resolved, so also with a codec that was supplied. -/
def create (t : DataType) (key : Key) (metadata : ArrayMetadata) (registry : CodecRegistry)
    (options : ArrayOptions) : StoreAction σ ArrayError (ArrayHandle t) := do
  let found ← StoreAction.reading fun s => (Store.has key.metadata s).mapError (.store key none)
  if found then throw (.alreadyExists key)
  let h ← StoreAction.reading fun _ => ofMetadata t key metadata registry options
  let h := { h with metadata := { h.metadata with codecs := h.codecs.specs } }
  h.writeMetadata
  return h

def storedChunkKeys (h : ArrayHandle t) (s : σ) : Except ArrayError (List Key) := do
  let keys ← (Store.keysUnder h.key s).mapError (.store h.key none)
  return keys.filter (· ≠ h.metadataKey)

/-- Takes the array away, with everything whose key starts with that of the array. -/
def eraseAll (h : ArrayHandle t) : StoreAction σ ArrayError Unit := do
  let _ ← (Store.eraseUnder h.key).rename (.store h.key none)

end ArrayHandle

end ChunkedArray
