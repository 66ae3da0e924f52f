import ChunkedArray.Json.Record

/-!
# Codec entries in metadata

A codec is named in the metadata of an array, with a configuration if it has one.
-/

namespace ChunkedArray

structure CodecSpec where
  name : String
  configuration : Option Json

namespace CodecSpec

def toRaw (c : CodecSpec) : RawJson :=
  .obj (("name", .str c.name) :: c.configuration.toList.map fun x => ("configuration", x.toRaw))

def ofRaw? (x : RawJson) : Option CodecSpec := do
  let fields ← x.fields? ["name", "configuration"]
  let name ← RawJson.required fields "name" RawJson.string?
  let configuration ←
    RawJson.defaulted fields "configuration" none (RawJson.optional? RawJson.value?)
  return ⟨name, configuration⟩

/-- The configuration of a codec that was named without one. -/
def noConfiguration : Json := .obj []

/-- Reads the configuration with `read`. -/
def configure {α : Type} (configuration : Option Json) (read : RawJson → Option α) : Option α :=
  read (configuration.getD noConfiguration).toRaw

end CodecSpec

end ChunkedArray
