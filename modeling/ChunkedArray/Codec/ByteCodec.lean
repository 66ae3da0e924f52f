import ChunkedArray.Codec.Error
import ChunkedArray.Codec.Spec
import ChunkedArray.Gzip.Container

/-!
# Codecs on bytes

A codec on bytes compresses the encoded chunk or adds to it. Besides the built-in checksum and gzip
codecs a program can bring its own, as a `CustomCodec`.
-/

namespace ChunkedArray

/-- A codec on bytes that a program brings along. -/
structure CustomCodec where
  name : String
  configuration : Option Json
  encode : Bytes → Except EncodeError Bytes
  decode : CodecOptions → Bytes → Except DecodeError Bytes
  /-- Whether the codec can be used with elements of a type. -/
  validate : DataType → Except CodecConfigError Unit

/-- How hard gzip should try, from 0 to 9. -/
abbrev GzipLevel := Fin 10

namespace GzipLevel

def default : GzipLevel := 6
def best : GzipLevel := 9
def fastest : GzipLevel := 1

def ofNat (level : Nat) : Except CodecConfigError GzipLevel :=
  if h : level < 10 then .ok ⟨level, h⟩ else .error (.invalidGzipLevel level)

end GzipLevel

inductive ByteCodec where
  /-- Appends the CRC-32C of the bytes, in four bytes, lowest first. -/
  | crc32c
  | gzip (level : GzipLevel)
  | custom (c : CustomCodec)

namespace ByteCodec

def name : ByteCodec → String
  | .crc32c => "crc32c"
  | .gzip _ => "gzip"
  | .custom c => c.name

def configuration : ByteCodec → Option Json
  | .crc32c => none
  | .gzip level => some (.obj [("level", .int level.val)])
  | .custom c => c.configuration

def spec (c : ByteCodec) : CodecSpec := ⟨c.name, c.configuration⟩

def validate : ByteCodec → DataType → Except CodecConfigError Unit
  | .custom c, t => c.validate t
  | _, _ => .ok ()

/-! ### Checksums -/

/-- The number of bytes of a checksum. -/
def checksumLength : Nat := 4

def checksumOf (bs : Bytes) : Nat := Checksum.crc Checksum.castagnoli bs

def appendChecksum (bs : Bytes) : Bytes := bs ++ Bytes.ofNatLE checksumLength (checksumOf bs)

/-- Takes a checksum off, after comparing it if `validate` is set. -/
def takeChecksum (validate : Bool) (bs : Bytes) : Except DecodeError Bytes :=
  if bs.length < checksumLength then .error (.checksumTruncated bs.length)
  else
    let payload := bs.take (bs.length - checksumLength)
    let stored := Bytes.toNatLE (bs.drop (bs.length - checksumLength))
    let computed := checksumOf payload
    if validate && stored != computed then .error (.checksumMismatch stored computed)
    else .ok payload

/-! ### Every codec -/

def encode : ByteCodec → Bytes → Except EncodeError Bytes
  | .crc32c, bs => .ok (appendChecksum bs)
  | .gzip _, bs => .ok (Gzip.compress bs)
  | .custom c, bs => c.encode bs

def decode (options : CodecOptions) : ByteCodec → Bytes → Except DecodeError Bytes
  | .crc32c, bs => takeChecksum options.validateChecksums bs
  | .gzip _, bs => (Gzip.decompress bs).mapError .decompress
  | .custom c, bs => c.decode options bs

/-! ### Configurations -/

/-- The checksum codec has nothing to configure. -/
def crc32cOfRaw? (x : RawJson) : Option ByteCodec := (x.fields? []).map fun _ => .crc32c

def gzipOfRaw? (x : RawJson) : Option ByteCodec := do
  let fields ← x.fields? ["level"]
  let level? (x : RawJson) : Option GzipLevel :=
    (x.nat? 0x100000000).bind fun n => (GzipLevel.ofNat n).toOption
  return .gzip (← RawJson.defaulted fields "level" GzipLevel.default level?)

end ByteCodec

end ChunkedArray
