import ChunkedArray.Metadata

/-!
# Building metadata

Metadata of an array of a given type and shape are put together step by step. Steps that need the
rank check it at once; what is not chosen gets a default: one chunk, the standard key encoding, zero
as the fill value and elements as little-endian bytes.
-/

namespace ChunkedArray

structure MetadataBuilder (t : DataType) where
  shape : Shape
  chunkGrid : Option RegularGrid
  chunkKeyEncoding : Option ChunkKeyEncoding
  fillValue : Option t.Element
  codecs : CodecChain
  attributes : List (String × Json)
  dimensionNames : Option (List (Option String))

namespace MetadataBuilder

variable {t : DataType}

/-- Nothing but the shape is chosen. -/
def ofShape (t : DataType) (shape : Shape) : MetadataBuilder t :=
  ⟨shape, none, none, none, .default, [], none⟩

def rank (b : MetadataBuilder t) : Nat := b.shape.length

def withChunkGrid (b : MetadataBuilder t) (g : RegularGrid) :
    Except RankMismatch (MetadataBuilder t) := do
  let _ ← RankMismatch.union (some b.rank) (some g.rank)
  return { b with chunkGrid := some g }

def withChunkKeyEncoding (b : MetadataBuilder t) (e : ChunkKeyEncoding) : MetadataBuilder t :=
  { b with chunkKeyEncoding := some e }

def withFillValue (b : MetadataBuilder t) (x : t.Element) : MetadataBuilder t :=
  { b with fillValue := some x }

def withElementBytes (b : MetadataBuilder t) (c : ElementBytes) : MetadataBuilder t :=
  { b with codecs := (b.codecs.replaceElementBytes (some c)).2 }

def addTranspose (b : MetadataBuilder t) (c : Transpose) :
    Except CodecConfigError (MetadataBuilder t) := do
  let _ ← (RankMismatch.union (some b.rank) (some c.rank)).mapError .rank
  c.validateFor b.rank
  return { b with codecs := { b.codecs with transposes := b.codecs.transposes ++ [c] } }

/-- Adds a codec on bytes after those already there. -/
def addByteCodec (b : MetadataBuilder t) (c : ByteCodec) : MetadataBuilder t :=
  { b with codecs := { b.codecs with onBytes := b.codecs.onBytes ++ [c] } }

def setAttribute (b : MetadataBuilder t) (name : String) (value : Json) : MetadataBuilder t :=
  { b with attributes := Json.insertMember name value b.attributes }

def withDimensionNames (b : MetadataBuilder t) (names : List (Option String)) :
    Except RankMismatch (MetadataBuilder t) := do
  RankMismatch.check names.length b.rank
  return { b with dimensionNames := some names }

def build (b : MetadataBuilder t) : ArrayMetadata where
  zarrFormat := ArrayMetadata.formatVersion
  nodeType := ArrayMetadata.arrayType
  shape := b.shape
  dataType := t
  chunkGrid := b.chunkGrid.getD ⟨b.shape⟩
  chunkKeyEncoding := b.chunkKeyEncoding.getD .standard
  fillValue := b.fillValue.elim (FillValue.default t) FillValue.toJson
  codecs := b.codecs.specs
  attributes := b.attributes
  dimensionNames := b.dimensionNames

end MetadataBuilder

end ChunkedArray
