import ChunkedArray.Json.Record
import ChunkedArray.Key
import ChunkedArray.NdArray.Index

/-!
# Chunk keys

Each chunk of an array has a key below that of the array, made from the coordinates of the chunk in
one of two forms: the default form starts with the letter `c`, the older one has the coordinates
alone, and a zero if there are none. With a slash between them the parts are components of the key,
with a period they are one component.
-/

namespace ChunkedArray

inductive Separator where
  | slash
  | dot
deriving DecidableEq

namespace Separator

def char : Separator → Char
  | .slash => '/'
  | .dot => '.'

def text (s : Separator) : String := String.ofList [s.char]

def ofText? (s : String) : Option Separator :=
  if s = "/" then some .slash else if s = "." then some .dot else none

/-- The components that some parts make up. -/
def components (s : Separator) (parts : List (List Char)) : List KeyComponent :=
  match s with
  | .slash => parts.map fun cs => ⟨String.ofList cs⟩
  | .dot => [⟨String.ofList (List.intercalate ['.'] parts)⟩]

end Separator

inductive ChunkKeyEncoding where
  | default (separator : Separator)
  | v2 (separator : Separator)
deriving DecidableEq

namespace ChunkKeyEncoding

/-- The separator of the default form where none is given. -/
def defaultSeparator : Separator := .slash

/-- The separator of the older form where none is given. -/
def v2Separator : Separator := .dot

/-- The encoding of arrays that do not choose one. -/
def standard : ChunkKeyEncoding := .default defaultSeparator

/-- A coordinate in decimal. -/
def coordText (n : Nat) : List Char := Nat.toDigits 10 n

/-- The components of the key of a chunk, below that of the array. -/
def components (e : ChunkKeyEncoding) (chunk : Index) : List KeyComponent :=
  match e with
  | .default s => s.components (['c'] :: chunk.map coordText)
  | .v2 s =>
    match chunk with
    | [] => [⟨"0"⟩]
    | chunk => s.components (chunk.map coordText)

def encode (e : ChunkKeyEncoding) (chunk : Index) : String := (⟨e.components chunk⟩ : Key).toText

def chunkKey (e : ChunkKeyEncoding) (array : Key) (chunk : Index) : Key :=
  array.append (e.components chunk)

/-! ### JSON form -/

def separator : ChunkKeyEncoding → Separator
  | .default s => s
  | .v2 s => s

def name : ChunkKeyEncoding → String
  | .default _ => "default"
  | .v2 _ => "v2"

def toRaw (e : ChunkKeyEncoding) : RawJson :=
  .tagged e.name [("separator", .str e.separator.text)]

def separatorOfRaw? (default : Separator) (configuration : RawJson) (kept : Bool) :
    Option Separator := do
  let fields ← configuration.fields? ["separator"]
  RawJson.defaulted fields "separator" default fun x =>
    (x.caseName? kept).bind Separator.ofText?

def ofRaw? (x : RawJson) : Option ChunkKeyEncoding := do
  let (name, configuration, kept) ← x.tagged?
  if name = "default" then
    return .default (← separatorOfRaw? defaultSeparator configuration kept)
  else if name = "v2" then return .v2 (← separatorOfRaw? v2Separator configuration kept)
  else none

end ChunkKeyEncoding

end ChunkedArray
