import ChunkedArray.DataType.Element
import ChunkedArray.Json.Writer

/-!
# Fill values

A fill value is stored as a JSON value: a boolean, an integer within the range of its type, or for
floats a number or the name of a value that is not finite. Numbers are read as binary64 and then
narrowed.
-/

namespace ChunkedArray

/-- A JSON value that is no element of a data type. -/
structure FillValueError where
  value : Json
  dataType : DataType

def FillValueError.message (e : FillValueError) : String :=
  let value := e.value.compact
  let dataType := e.dataType.name
  s!"Fill value {value} is not valid for data type {dataType}"

namespace FillValue

/-! ### Floats -/

/-- The binary64 pattern of a JSON number or name. -/
def binary64? : Json → Option Nat
  | .str s =>
    let f := FloatFormat.binary64
    if s = "NaN" then some f.quietNaN
    else if s = "Infinity" then some f.infinity
    else if s = "-Infinity" then some (f.signed true f.infinity)
    else none
  | .int n => some (FloatFormat.binary64.ofInt n)
  | .float bits => some bits
  | _ => none

/-- Narrows a binary64 pattern. For binary16 its low half is dropped first, which can turn a value
just beside the middle of two neighbours into that middle. -/
def narrow (s : FloatSize) (bits : Nat) : Nat :=
  let f := FloatFormat.binary64
  match s with
  | .bits16 =>
    if f.isNaN bits then FloatFormat.binary16.quietNaN
    else f.convert .binary16 (FloatFormat.clearLow 32 bits)
  | .bits32 => f.convert .binary32 bits
  | .bits64 => bits

def ofBinary64 (bits : Nat) : Json :=
  let f := FloatFormat.binary64
  if f.isNaN bits then .str "NaN"
  else if f.isInfinite bits then .str (if f.isNegative bits then "-Infinity" else "Infinity")
  else .float bits

/-- The binary64 pattern of a float element; this is exact. -/
def widen (s : FloatSize) (bits : Nat) : Nat :=
  match s with
  | .bits64 => bits
  | s => s.format.convert .binary64 bits

/-! ### Every type -/

/-- The least and the greatest integer of a type. -/
def intRange : DataType → Int × Int
  | t@(.int _) => (-(t.patternCount / 2 : Nat), (t.patternCount / 2 : Nat) - 1)
  | t@(.uint _) => (0, t.patternCount - 1)
  | _ => (0, 0)

/-- The pattern that a JSON value stands for. -/
def pattern? (t : DataType) (v : Json) : Option Nat :=
  match t with
  | .bool =>
    match v with
    | .bool b => some b.toNat
    | _ => none
  | .int _ | .uint _ =>
    match v with
    | .int n =>
      if (intRange t).1 ≤ n ∧ n ≤ (intRange t).2 then some (n % t.patternCount).toNat else none
    | _ => none
  | .float s => (binary64? v).map (narrow s)

def ofJson (t : DataType) (v : Json) : Except FillValueError t.Element :=
  match pattern? t v with
  | some n => .ok (t.ofPattern n)
  | none => .error ⟨v, t⟩

def toJson {t : DataType} (x : t.Element) : Json :=
  match t with
  | .bool => .bool (x.val == 1)
  | .int _ => .int (Element.signedValue x)
  | .uint _ => .int x.val
  | .float s => ofBinary64 (widen s x.val)

/-- What stands for a fill value that was not chosen. -/
def default : DataType → Json
  | .bool => .bool false
  | .int _ | .uint _ => .int 0
  | .float _ => .float 0

/-- Whether a JSON value is a fill value of the type. -/
def validate (t : DataType) (v : Json) : Except FillValueError Unit := (ofJson t v).map fun _ => ()

end FillValue

end ChunkedArray
