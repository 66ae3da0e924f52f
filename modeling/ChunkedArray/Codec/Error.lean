import ChunkedArray.DataType.Basic
import ChunkedArray.Gzip.BitStream
import ChunkedArray.Rank
import ChunkedArray.Text

/-!
# Codec errors

Codecs fail in three ways: a codec or a chain of them cannot be set up for an array, stored bytes do
not decode, or a chunk does not encode.
-/

namespace ChunkedArray

/-- What a codec turns into what. -/
inductive CodecKind where
  | arrayToArray
  | arrayToBytes
  | bytesToBytes
deriving DecidableEq

def CodecKind.name : CodecKind → String
  | .arrayToArray => "AA"
  | .arrayToBytes => "AB"
  | .bytesToBytes => "BB"

/-- Why codecs cannot be set up. -/
inductive CodecConfigError where
  | multipleArrayToBytes
  /-- A codec of one kind stands after one of a kind that must come later. -/
  | illegalOrder (kind after : CodecKind)
  | unknownCodec (name : String)
  /-- The configuration has not the form that the codec wants. -/
  | configuration (name : String)
  | undefinedEndian (dataType : DataType)
  | invalidPermutation (order : List Nat)
  | rank (e : RankMismatch)
  | incompatibleDataType (name : String) (dataType : DataType) (reason : String)
  | invalidGzipLevel (level : Nat)
deriving DecidableEq

def CodecConfigError.message : CodecConfigError → String
  | .multipleArrayToBytes => "More than one array->bytes codec found"
  | .illegalOrder kind after =>
    let kind := kind.name
    let after := after.name
    s!"Illegal codec order: {kind} codec found after {after} codec"
  | .unknownCodec name => s!"Unknown codec `{name}`"
  | .configuration name => s!"Invalid configuration for codec `{name}`"
  | .undefinedEndian t =>
    let t := t.name
    s!"Endianness must be given for multi-byte data type {t}"
  | .invalidPermutation order =>
    let order := Text.coords order
    s!"Transpose order {order} is not a permutation"
  | .rank e =>
    let e := e.message
    s!"Codec dimensionality is incompatible with the array: {e}"
  | .incompatibleDataType name t reason =>
    let t := t.name
    s!"Codec `{name}` cannot be used with data type {t}: {reason}"
  | .invalidGzipLevel level => s!"Invalid gzip level {level} (must be 0-9)"

/-- Why stored bytes are not a chunk. -/
inductive DecodeError where
  | lengthMismatch (expected actual : Nat)
  | shapeMismatch (expected actual : List Nat)
  /-- The chunk would be empty along one axis and too long along others. -/
  | unaddressable
  | decompress (e : Gzip.StreamError)
  /-- So many bytes cannot hold a checksum. -/
  | checksumTruncated (length : Nat)
  | checksumMismatch (stored computed : Nat)
  | codec (name reason : String)
deriving DecidableEq

def DecodeError.message : DecodeError → String
  | .lengthMismatch expected actual => s!"Decoded {actual} bytes, expected {expected}"
  | .shapeMismatch expected actual =>
    let expected := Text.coords expected
    let actual := Text.coords actual
    s!"Decoded chunk has shape {actual}, expected {expected}"
  | .unaddressable => "Could not shape decoded data: ShapeError/Overflow: arithmetic overflow"
  | .decompress e =>
    let e := e.message
    s!"Could not decompress: {e}"
  | .checksumTruncated length =>
    s!"Encoded buffer of {length} bytes is too short to hold a checksum"
  | .checksumMismatch stored computed =>
    let stored := Text.checksum stored
    let computed := Text.checksum computed
    s!"Checksum mismatch: stored {stored}, computed {computed}"
  | .codec name reason => s!"Codec `{name}` failed to decode: {reason}"

/-- Why a chunk has no encoded form. -/
inductive EncodeError where
  | codec (name reason : String)
deriving DecidableEq

def EncodeError.message : EncodeError → String
  | .codec name reason => s!"Codec `{name}` failed to encode: {reason}"

/-- What applies to every codec of a chain, unlike the configuration of one codec. -/
structure CodecOptions where
  /-- Compare stored checksums when decoding; otherwise they are only taken off. -/
  validateChecksums : Bool
deriving DecidableEq

end ChunkedArray
