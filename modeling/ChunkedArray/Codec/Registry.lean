import ChunkedArray.Codec.Chain

/-!
# Codec registries

A registry knows how to build codecs from their names and configurations. The default one knows the
built-in codecs; a program can register its own, also in place of built-in ones.
-/

namespace ChunkedArray

abbrev CodecBuilder := Option Json → Except CodecConfigError Codec

structure CodecRegistry where
  /-- In increasing order of the names. -/
  builders : List (String × CodecBuilder)

namespace CodecRegistry

def empty : CodecRegistry := ⟨[]⟩

/-- Registers a builder, in place of any other of the name. -/
def register (r : CodecRegistry) (name : String) (build : CodecBuilder) : CodecRegistry :=
  ⟨Json.insertMember name build r.builders⟩

/-- A builder of codecs on bytes that reads its configuration with `read`. -/
def byteCodecBuilder (name : String) (read : RawJson → Option ByteCodec) : CodecBuilder :=
  fun configuration =>
    match CodecSpec.configure configuration read with
    | some c => .ok (.onBytes c)
    | none => .error (.configuration name)

def registerByteCodec (r : CodecRegistry) (name : String) (read : RawJson → Option ByteCodec) :
    CodecRegistry :=
  r.register name (byteCodecBuilder name read)

def buildTranspose : CodecBuilder := fun configuration =>
  match CodecSpec.configure configuration Transpose.ofRaw? with
  | some c => c.validate.map fun _ => .transpose c
  | none => .error (.configuration "transpose")

def buildElementBytes : CodecBuilder := fun configuration =>
  match CodecSpec.configure configuration ElementBytes.ofRaw? with
  | some c => .ok (.elementBytes c)
  | none => .error (.configuration ElementBytes.codecName)

def default : CodecRegistry :=
  empty
    |>.register "transpose" buildTranspose
    |>.register ElementBytes.codecName buildElementBytes
    |>.registerByteCodec "crc32c" ByteCodec.crc32cOfRaw?
    |>.registerByteCodec "gzip" ByteCodec.gzipOfRaw?

def names (r : CodecRegistry) : List String := r.builders.map Prod.fst

def contains (r : CodecRegistry) (name : String) : Bool := r.names.contains name

/-- The registry in one line: the names it knows. -/
def describe (r : CodecRegistry) : String :=
  "CodecRegistry \x7b codecs: " ++ Text.list (r.names.map Text.quoted) ++ " \x7d"

def resolve (r : CodecRegistry) (spec : CodecSpec) : Except CodecConfigError Codec :=
  match r.builders.lookup spec.name with
  | some build => build spec.configuration
  | none => .error (.unknownCodec spec.name)

/-- Builds all codecs in order and assembles them to a chain. -/
def resolveChain (r : CodecRegistry) (specs : List CodecSpec) :
    Except CodecConfigError CodecChain := do
  CodecChain.ofCodecs (← specs.mapM r.resolve)

end CodecRegistry

end ChunkedArray
