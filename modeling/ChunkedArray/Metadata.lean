import ChunkedArray.ChunkKey
import ChunkedArray.Codec.Registry
import ChunkedArray.DataType.FillValue
import ChunkedArray.Grid
import ChunkedArray.Json.Reader

/-!
# Array metadata

What the stored document of an array says: its shape and data type, how it is cut into chunks, how
their keys and bytes are made, the value of cells that were never written, and attributes that
belong to the user. Reading a document checks its form only; `validate` checks that the parts fit.
-/

namespace ChunkedArray

inductive InvalidMetadata where
  | zarrFormat (version : Nat)
  | nodeType (name : String)
  | zeroRank
  | emptyDimension (shape : Shape)
  | chunkRank (e : RankMismatch)
  | emptyChunkDimension
  | dimensionNames (e : RankMismatch)
  | fillValue (e : FillValueError)
  /-- The document has not the form of metadata. -/
  | json

def InvalidMetadata.message : InvalidMetadata → String
  | .zarrFormat version => s!"Unsupported zarr_format {version}"
  | .nodeType name => s!"Node type `{name}` is not an array"
  | .zeroRank => "Array must have at least one dimension"
  | .emptyDimension shape =>
    let shape := Text.coords shape
    s!"Array shape {shape} has a zero-length dimension"
  | .chunkRank e =>
    let e := e.message
    s!"Chunk grid does not match array rank: {e}"
  | .emptyChunkDimension => "Chunk shape has a zero-length dimension"
  | .dimensionNames e =>
    let e := e.message
    s!"Dimension names do not match array rank: {e}"
  | .fillValue e => e.message
  | .json => "Could not parse array metadata"

structure ArrayMetadata where
  zarrFormat : Nat
  nodeType : String
  shape : Shape
  dataType : DataType
  chunkGrid : RegularGrid
  chunkKeyEncoding : ChunkKeyEncoding
  fillValue : Json
  codecs : List CodecSpec
  /-- In increasing order of the names. -/
  attributes : List (String × Json)
  dimensionNames : Option (List (Option String))

namespace ArrayMetadata

def formatVersion : Nat := 3

def arrayType : String := "array"

def rank (m : ArrayMetadata) : Nat := m.shape.length

/-- Checks that the metadata describe an array; of several faults the first of these is reported. -/
def validate (m : ArrayMetadata) : Except InvalidMetadata Unit := do
  if m.zarrFormat ≠ formatVersion then throw (.zarrFormat m.zarrFormat)
  if m.nodeType ≠ arrayType then throw (.nodeType m.nodeType)
  if m.shape = [] then throw .zeroRank
  if m.shape.contains 0 then throw (.emptyDimension m.shape)
  (RankMismatch.check m.chunkGrid.rank m.rank).mapError .chunkRank
  if m.chunkGrid.hasEmptyAxis then throw .emptyChunkDimension
  match m.dimensionNames with
  | some names => (RankMismatch.check names.length m.rank).mapError .dimensionNames
  | none => pure ()
  (FillValue.validate m.dataType m.fillValue).mapError .fillValue

/-! ### Attributes -/

def attribute? (m : ArrayMetadata) (name : String) : Option Json := m.attributes.lookup name

/-- The attribute read in a certain form: nothing if it is absent, `some none` if it has not that
form. -/
def readAttribute {α : Type} (m : ArrayMetadata) (name : String) (read : RawJson → Option α) :
    Option (Option α) :=
  (m.attribute? name).map fun x => read x.toRaw

def setAttribute (m : ArrayMetadata) (name : String) (value : Json) : ArrayMetadata :=
  { m with attributes := Json.insertMember name value m.attributes }

def removeAttribute (m : ArrayMetadata) (name : String) : ArrayMetadata :=
  { m with attributes := m.attributes.filter (·.1 ≠ name) }

def clearAttributes (m : ArrayMetadata) : ArrayMetadata := { m with attributes := [] }

/-! ### JSON form -/

def namesToRaw (names : List (Option String)) : RawJson :=
  .arr (names.map fun name => name.elim .null .str)

/-- The document of the metadata; dimension names are left out if there are none. -/
def toRaw (m : ArrayMetadata) : RawJson :=
  .obj ([("zarr_format", .int m.zarrFormat),
    ("node_type", .str m.nodeType),
    ("shape", .ofNats m.shape),
    ("data_type", .str m.dataType.name),
    ("chunk_grid", m.chunkGrid.toRaw),
    ("chunk_key_encoding", m.chunkKeyEncoding.toRaw),
    ("fill_value", m.fillValue.toRaw),
    ("codecs", .arr (m.codecs.map CodecSpec.toRaw)),
    ("attributes", (Json.obj m.attributes).toRaw)] ++
    m.dimensionNames.toList.map fun names => ("dimension_names", namesToRaw names))

def fieldNames : List String :=
  ["zarr_format", "node_type", "shape", "data_type", "chunk_grid", "chunk_key_encoding",
    "fill_value", "codecs", "attributes", "dimension_names"]

def dataTypeOfRaw? (x : RawJson) : Option DataType :=
  x.string?.bind fun s => (DataType.ofName s).toOption

/-- An object of any members. -/
def attributesOfRaw? (x : RawJson) : Option (List (String × Json)) :=
  match x.value? with
  | some (.obj members) => some members
  | _ => none

def ofRaw? (x : RawJson) : Option ArrayMetadata := do
  let fields ← x.fields? fieldNames
  return {
    zarrFormat := ← RawJson.required fields "zarr_format" RawJson.word?
    nodeType := ← RawJson.required fields "node_type" RawJson.string?
    shape := ← RawJson.required fields "shape" (RawJson.list? RawJson.word?)
    dataType := ← RawJson.required fields "data_type" dataTypeOfRaw?
    chunkGrid := ← RawJson.required fields "chunk_grid" RegularGrid.ofRaw?
    chunkKeyEncoding := ←
      RawJson.defaulted fields "chunk_key_encoding" .standard ChunkKeyEncoding.ofRaw?
    fillValue := ← RawJson.required fields "fill_value" RawJson.value?
    codecs := ← RawJson.defaulted fields "codecs" [] (RawJson.list? CodecSpec.ofRaw?)
    attributes := ← RawJson.defaulted fields "attributes" [] attributesOfRaw?
    dimensionNames := ← RawJson.defaulted fields "dimension_names" none
      (RawJson.optional? (RawJson.list? (RawJson.optional? RawJson.string?))) }

def toBytes (m : ArrayMetadata) : Bytes := m.toRaw.pretty.toUTF8.toList

def ofBytes? (bs : Bytes) : Option ArrayMetadata := (RawJson.ofBytes? bs).bind ofRaw?

end ArrayMetadata

end ChunkedArray
