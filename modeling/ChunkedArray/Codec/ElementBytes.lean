import ChunkedArray.Codec.Error
import ChunkedArray.Codec.Spec
import ChunkedArray.DataType.Element
import ChunkedArray.NdArray.Basic

/-!
# Elements as bytes

The codec that turns a chunk into bytes writes its elements in row-major order, each in the same
byte order. Only elements of one byte can do without a byte order.
-/

namespace ChunkedArray

namespace NdArray

variable {t : DataType}

/-- The bytes of the elements in row-major order. -/
def cellBytes (e : Endian) (a : NdArray t.Element) : Bytes := a.cells.flatMap (Element.toBytes e)

/-- Writes the elements into a buffer of as many bytes as they take. -/
def toBytes (e : Endian) (a : NdArray t.Element) : Except Violation Bytes := do
  let _ ← Word.mul a.shape.size t.byteCount
  return a.cellBytes e

/-- The number of bytes that the elements of an array of this shape take. -/
def bytesFor (t : DataType) (shape : Shape) : Except Violation Nat := do
  Word.mul (← Word.product shape) t.byteCount

/-- The array of a shape whose elements have these bytes. -/
def ofBytes (t : DataType) (e : Endian) (shape : Shape) (bs : Bytes) :
    Checked DecodeError (NdArray t.Element) := do
  let expected ← Checked.guarded (bytesFor t shape)
  if bs.length = expected then
    let elements := (bs.groups t.byteCount).map (Element.ofBytes t e)
    Checked.report (fun _ => .unaddressable) (ofList shape elements)
  else Checked.fail (.lengthMismatch expected bs.length)

end NdArray

structure ElementBytes where
  endian : Option Endian
deriving DecidableEq

namespace ElementBytes

/-- The codec of chains that do not name one. -/
def default : ElementBytes := ⟨some .default⟩

instance : Inhabited ElementBytes := ⟨default⟩

def codecName : String := "bytes"

def validate (c : ElementBytes) (t : DataType) : Except CodecConfigError Unit :=
  if (t.validEndian c.endian).isSome then .ok () else .error (.undefinedEndian t)

def missingEndian (t : DataType) : String :=
  let t := t.name
  s!"no endianness given for {t}"

def encode {t : DataType} (c : ElementBytes) (a : NdArray t.Element) : Checked EncodeError Bytes :=
  match t.validEndian c.endian with
  | some e => Checked.guarded (a.toBytes e)
  | none => Checked.fail (.codec codecName (missingEndian t))

def decode (c : ElementBytes) (t : DataType) (shape : Shape) (bs : Bytes) :
    Checked DecodeError (NdArray t.Element) :=
  match t.validEndian c.endian with
  | some e => NdArray.ofBytes t e shape bs
  | none => Checked.fail (.codec codecName (missingEndian t))

def configuration (c : ElementBytes) : Json :=
  .obj (c.endian.toList.map fun e => ("endian", .str e.name))

def spec (c : ElementBytes) : CodecSpec := ⟨codecName, some c.configuration⟩

def ofRaw? (x : RawJson) : Option ElementBytes := do
  let fields ← x.fields? ["endian"]
  let endian? (x : RawJson) : Option Endian := (x.caseName? false).bind Endian.ofName?
  return ⟨← RawJson.defaulted fields "endian" none (RawJson.optional? endian?)⟩

end ElementBytes

end ChunkedArray
