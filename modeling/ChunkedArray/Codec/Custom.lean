import ChunkedArray.Codec.Registry

/-!
# Custom codecs

Codecs on bytes that are not built in: masking every byte, reversing the bytes, and a codec that
fails on request, to see what others do about it. Registries with them show how a program brings its
own codecs and how it replaces built-in ones.
-/

namespace ChunkedArray

namespace CustomCodec

/-- Adds a key to every byte, without carry. -/
def mask (key : UInt8) : CustomCodec where
  name := "xor"
  configuration := some (.obj [("key", .int key.toNat)])
  encode bs := .ok (bs.map (· ^^^ key))
  decode _ bs := .ok (bs.map (· ^^^ key))
  validate _ := .ok ()

def reverse : CustomCodec where
  name := "reverse"
  configuration := none
  encode bs := .ok bs.reverse
  decode _ bs := .ok bs.reverse
  validate _ := .ok ()

/-- Leaves the bytes as they are, or fails where it was asked to; it may accept only elements of one
type. -/
def failing (encode decode : Bool) (only : Option DataType) : CustomCodec where
  name := "fail"
  configuration := some (.ofMembers
    (("encode", .bool encode) :: ("decode", .bool decode) ::
      only.toList.map fun t => ("only", .str t.name)))
  encode bs := if encode then .error (.codec "fail" "asked to") else .ok bs
  decode _ bs := if decode then .error (.codec "fail" "asked to") else .ok bs
  validate t :=
    match only with
    | some o =>
      if t = o then .ok ()
      else
        let wanted := o.name
        .error (.incompatibleDataType "fail" t s!"only {wanted}")
    | none => .ok ()

/-! ### Configurations -/

def maskOfRaw? (x : RawJson) : Option ByteCodec := do
  let fields ← x.fields? ["key"]
  let key ← RawJson.required fields "key" (RawJson.nat? 256)
  return .custom (mask (UInt8.ofNat key))

def reverseOfRaw? (x : RawJson) : Option ByteCodec :=
  (x.fields? []).map fun _ => .custom reverse

def failingOfRaw? (x : RawJson) : Option ByteCodec := do
  let fields ← x.fields? ["encode", "decode", "only"]
  let encode ← RawJson.defaulted fields "encode" false RawJson.bool?
  let decode ← RawJson.defaulted fields "decode" false RawJson.bool?
  let dataType? (x : RawJson) : Option DataType :=
    x.string?.bind fun s => (DataType.ofName s).toOption
  let only ← RawJson.defaulted fields "only" none (RawJson.optional? dataType?)
  return .custom (failing encode decode only)

end CustomCodec

namespace CodecRegistry

/-- The built-in codecs and the custom ones. -/
def withCustom : CodecRegistry :=
  default
    |>.registerByteCodec "xor" CustomCodec.maskOfRaw?
    |>.registerByteCodec "reverse" CustomCodec.reverseOfRaw?
    |>.registerByteCodec "fail" CustomCodec.failingOfRaw?

/-- The built-in codecs with a reversal in the place of gzip. -/
def withReplacedGzip : CodecRegistry :=
  default.registerByteCodec "gzip" CustomCodec.reverseOfRaw?

end CodecRegistry

end ChunkedArray
