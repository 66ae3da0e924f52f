import ChunkedArray.Bytes
import ChunkedArray.Word

/-!
# Data types

The types of the elements of an array and their names. A name is a kind followed by a count of bits;
the digits of a name are read as a number, so leading zeros make no difference.
-/

namespace ChunkedArray

/-- The widths of integers. -/
inductive IntSize where
  | bits8
  | bits16
  | bits32
  | bits64
deriving DecidableEq

/-- The widths of floats. -/
inductive FloatSize where
  | bits16
  | bits32
  | bits64
deriving DecidableEq

inductive DataType where
  | bool
  | int (size : IntSize)
  | uint (size : IntSize)
  | float (size : FloatSize)
deriving DecidableEq

/-! ### Sizes -/

namespace IntSize

def byteCount : IntSize → Nat
  | .bits8 => 1
  | .bits16 => 2
  | .bits32 => 4
  | .bits64 => 8

def bitCount (s : IntSize) : Nat := 8 * s.byteCount

def ofBitCount? (n : Nat) : Option IntSize :=
  if n = 8 then some .bits8
  else if n = 16 then some .bits16
  else if n = 32 then some .bits32
  else if n = 64 then some .bits64
  else none

end IntSize

namespace FloatSize

def byteCount : FloatSize → Nat
  | .bits16 => 2
  | .bits32 => 4
  | .bits64 => 8

def bitCount (s : FloatSize) : Nat := 8 * s.byteCount

def ofBitCount? (n : Nat) : Option FloatSize :=
  if n = 16 then some .bits16
  else if n = 32 then some .bits32
  else if n = 64 then some .bits64
  else none

end FloatSize

namespace DataType

def byteCount : DataType → Nat
  | .bool => 1
  | .int s => s.byteCount
  | .uint s => s.byteCount
  | .float s => s.byteCount

def bitCount (t : DataType) : Nat := 8 * t.byteCount

/-- Byte order matters for elements of more than one byte. -/
def hasEndianness (t : DataType) : Bool := 1 < t.byteCount

theorem byteCount_pos (t : DataType) : 0 < t.byteCount := by
  cases t with
  | bool => decide
  | int s | uint s | float s => cases s <;> decide

/-- The byte order to use: the given one, and any for elements of one byte. -/
def validEndian (t : DataType) (e : Option Endian) : Option Endian :=
  match e with
  | some e => some e
  | none => if t.hasEndianness then none else some .default

/-! ### Names -/

def name (t : DataType) : String :=
  match t with
  | .bool => "bool"
  | .int _ => s!"int{t.bitCount}"
  | .uint _ => s!"uint{t.bitCount}"
  | .float _ => s!"float{t.bitCount}"

structure UnknownName where
  name : String
deriving DecidableEq

def UnknownName.message (e : UnknownName) : String := s!"Unknown data type `{e.name}`"

def isNameDigit (c : Char) : Bool := '0' ≤ c && c ≤ '9'

/-- The number that follows a kind: all decimal digits, and a word. -/
def numberOfDigits? (cs : List Char) : Option Nat :=
  if cs ≠ [] ∧ cs.all isNameDigit then
    let n := cs.foldl (fun n c => n * 10 + (c.toNat - 48)) 0
    if n < wordLimit then some n else none
  else none

/-- Splits a name at its first digit into the kind and the number after it; a rest that is no number
counts as none. -/
def splitName (s : String) : String × Option Nat :=
  let cs := s.toList
  let isKind (c : Char) : Bool := !isNameDigit c
  (String.ofList (cs.takeWhile isKind), numberOfDigits? (cs.dropWhile isKind))

def ofName (s : String) : Except UnknownName DataType :=
  let found : Option DataType :=
    match splitName s with
    | ("bool", none) => some .bool
    | ("int", some n) => (IntSize.ofBitCount? n).map .int
    | ("uint", some n) => (IntSize.ofBitCount? n).map .uint
    | ("float", some n) => (FloatSize.ofBitCount? n).map .float
    | _ => none
  found.elim (.error ⟨s⟩) .ok

/-- Every data type, in the order of kinds and sizes. -/
def all : List DataType :=
  [.bool, .int .bits8, .int .bits16, .int .bits32, .int .bits64,
    .uint .bits8, .uint .bits16, .uint .bits32, .uint .bits64,
    .float .bits16, .float .bits32, .float .bits64]

end DataType

end ChunkedArray
