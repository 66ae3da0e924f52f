import ChunkedArray.DataType.Basic
import ChunkedArray.Float.Format

/-!
# Elements

An element of a data type is its bit pattern, so floats keep the sign of zero and the payload of
what is not a number. A boolean has two patterns; every other type has one for each of its
byte sequences.
-/

namespace ChunkedArray

namespace DataType

/-- The number of different elements. -/
def patternCount : DataType → Nat
  | .bool => 2
  | t => Bytes.valueCount t.byteCount

theorem patternCount_pos (t : DataType) : 0 < t.patternCount := by
  cases t with
  | bool => decide
  | int s | uint s | float s => exact Bytes.valueCount_pos _

/-- The bit patterns of a type. -/
abbrev Element (t : DataType) := Fin t.patternCount

/-- The element whose pattern is `n`, or its lowest bits. -/
def ofPattern (t : DataType) (n : Nat) : t.Element := ⟨n % t.patternCount, Nat.mod_lt _ t.patternCount_pos⟩

theorem ofPattern_val (t : DataType) (x : t.Element) : t.ofPattern x.val = x :=
  Fin.ext (Nat.mod_eq_of_lt x.isLt)

instance (t : DataType) : Inhabited t.Element := ⟨t.ofPattern 0⟩

end DataType

def FloatSize.format : FloatSize → FloatFormat
  | .bits16 => .binary16
  | .bits32 => .binary32
  | .bits64 => .binary64

namespace Element

variable {t : DataType}

/-! ### Meaning -/

/-- The pattern as a number in two's complement: the upper half of the patterns is negative. -/
def signedValue (x : t.Element) : Int :=
  if 2 * x.val < t.patternCount then x.val else (x.val : Int) - t.patternCount

/-- Equality of values: that of patterns, except that the two float zeros are equal and that what is
not a number differs even from itself. -/
def sameValue (x y : t.Element) : Bool :=
  match t with
  | .float s =>
    let f := s.format
    !f.isNaN x.val && !f.isNaN y.val &&
      (x.val == y.val || (f.magnitude x.val == 0 && f.magnitude y.val == 0))
  | _ => x == y

/-! ### Bytes -/

def toBytes (e : Endian) (x : t.Element) : Bytes := .ofNat e t.byteCount x.val

/-- Reads an element from its bytes. Any boolean byte but zero is true. -/
def ofBytes (t : DataType) (e : Endian) (bs : Bytes) : t.Element :=
  let n := Bytes.toNat e bs
  t.ofPattern (if t = .bool then min n 1 else n)

@[simp] theorem length_toBytes (e : Endian) (x : t.Element) :
    (toBytes e x).length = t.byteCount := by
  simp [toBytes]

theorem patternCount_le (t : DataType) : t.patternCount ≤ Bytes.valueCount t.byteCount := by
  cases t with
  | bool => decide
  | int s | uint s | float s => exact Nat.le_refl _

theorem ofBytes_toBytes (e : Endian) (x : t.Element) : ofBytes t e (toBytes e x) = x := by
  have hx : x.val < Bytes.valueCount t.byteCount := Nat.lt_of_lt_of_le x.isLt (patternCount_le t)
  unfold ofBytes toBytes
  rw [Bytes.toNat_ofNat, Nat.mod_eq_of_lt hx]
  simp only
  split
  · next h =>
    subst h
    have : x.val ≤ 1 := Nat.le_of_lt_succ x.isLt
    rw [Nat.min_eq_left this, DataType.ofPattern_val]
  · exact DataType.ofPattern_val t x

end Element

end ChunkedArray
