import ChunkedArray.Metadata
import ChunkedArray.Store.Basic

/-!
# Array errors

Errors of operations on arrays. An error that concerns one chunk carries its index.
-/

namespace ChunkedArray

inductive ArrayError where
  | invalidMetadata (e : InvalidMetadata)
  | outOfBounds (e : IndexError)
  | codecConfig (e : CodecConfigError)
  | decode (array : Key) (chunk : Index) (source : DecodeError)
  | encode (array : Key) (chunk : Index) (source : EncodeError)
  | store (array : Key) (chunk : Option Index) (source : StoreError)
  | shapeMismatch (expected actual : Shape)
  | typeMismatch (expected actual : DataType)
  | alreadyExists (key : Key)
  | notFound (key : Key)
  | invalidKey (e : InvalidComponent)

namespace ArrayError

def message : ArrayError → String
  | .invalidMetadata e =>
    let e := e.message
    s!"Invalid array metadata: {e}"
  | .outOfBounds e => e.message
  | .codecConfig e => e.message
  | .decode array chunk source =>
    let array := array.toText
    let chunk := Text.coords chunk
    let source := source.message
    s!"Could not decode chunk {chunk} of array `{array}`: {source}"
  | .encode array chunk source =>
    let array := array.toText
    let chunk := Text.coords chunk
    let source := source.message
    s!"Could not encode chunk {chunk} of array `{array}`: {source}"
  | .store array chunk source =>
    let array := array.toText
    let chunk := Text.optionalCoords chunk
    let source := source.message
    s!"Store failed for array `{array}` (chunk {chunk}): {source}"
  | .shapeMismatch expected actual =>
    let expected := Text.coords expected
    let actual := Text.coords actual
    s!"Data has shape {actual}, expected {expected}"
  | .typeMismatch expected actual =>
    let expected := expected.name
    let actual := actual.name
    s!"Array has data type {actual}, accessed as {expected}"
  | .alreadyExists key =>
    let key := key.toText
    s!"A node already exists at `{key}`"
  | .notFound key =>
    let key := key.toText
    s!"No array metadata at `{key}`"
  | .invalidKey e =>
    let e := e.message
    s!"Invalid array key: {e}"

def chunk? : ArrayError → Option Index
  | .decode _ chunk _ => some chunk
  | .encode _ chunk _ => some chunk
  | .store _ chunk _ => chunk
  | _ => none

end ArrayError

end ChunkedArray
