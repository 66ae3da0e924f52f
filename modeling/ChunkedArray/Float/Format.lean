/-!
# Binary floating-point formats

A format has a sign bit, an exponent field and a fraction field. Elements are kept as bit patterns,
so that not-a-number payloads and the sign of zero survive; arithmetic on them is exact arithmetic
on natural numbers followed by one rounding.

Every finite magnitude of a format is a whole number of its *units*, the smallest positive
magnitude. `units` reads a magnitude pattern in units and `nearest` gives the pattern nearest to a
quotient measured in units. Patterns are ordered like the magnitudes they stand for.
-/

namespace ChunkedArray

/-- The widths of the exponent and the fraction field. -/
structure FloatFormat where
  exponentBits : Nat
  fractionBits : Nat
deriving DecidableEq

namespace FloatFormat

def binary16 : FloatFormat := ⟨5, 10⟩
def binary32 : FloatFormat := ⟨8, 23⟩
def binary64 : FloatFormat := ⟨11, 52⟩

variable (f : FloatFormat)

/-- One unit is `2 ^ -unitScale`. -/
def unitScale : Nat := (1 <<< (f.exponentBits - 1)) - 2 + f.fractionBits

/-- The number of magnitude patterns, and so the weight of the sign bit. -/
def signWeight : Nat := 1 <<< (f.exponentBits + f.fractionBits)

/-- The magnitude pattern of infinity; those above it are not numbers. -/
def infinity : Nat := ((1 <<< f.exponentBits) - 1) <<< f.fractionBits

/-- The pattern of the not-a-number that arithmetic produces. -/
def quietNaN : Nat := f.infinity + (1 <<< (f.fractionBits - 1))

/-! ### Patterns -/

def isNegative (bits : Nat) : Bool := f.signWeight ≤ bits

def magnitude (bits : Nat) : Nat := bits % f.signWeight

def isNaN (bits : Nat) : Bool := f.infinity < f.magnitude bits

def isInfinite (bits : Nat) : Bool := f.magnitude bits = f.infinity

/-- A pattern from a sign and a magnitude pattern. -/
def signed (negative : Bool) (magnitude : Nat) : Nat :=
  if negative then f.signWeight + magnitude else magnitude

/-! ### Magnitudes in units -/

/-- The magnitude of a pattern below infinity, in units. The pattern of infinity itself gives the
power of two that follows the largest finite magnitude. -/
def units (magnitude : Nat) : Nat :=
  let exponent := magnitude >>> f.fractionBits
  let fraction := magnitude % (1 <<< f.fractionBits)
  if exponent = 0 then fraction else ((1 <<< f.fractionBits) + fraction) <<< (exponent - 1)

/-- `num / den` rounded to a whole number, a half going to the even neighbour. -/
def roundQuotient (num den : Nat) : Nat :=
  let q := num / den
  let twice := 2 * (num % den)
  if twice < den then q
  else if den < twice then q + 1
  else q + q % 2

/-- The magnitude pattern nearest to `num / den` units, a tie going to the even pattern and what
exceeds the finite magnitudes to infinity. -/
def nearest (num den : Nat) : Nat :=
  let shift := Nat.log2 (num / den) - f.fractionBits
  min ((shift <<< f.fractionBits) + roundQuotient num (den <<< shift)) f.infinity

/-! ### Conversions -/

def ofNat (n : Nat) : Nat := f.nearest (n <<< f.unitScale) 1

def ofInt (n : Int) : Nat := f.signed (n < 0) (f.ofNat n.natAbs)

/-- The pattern of `target` nearest to a pattern of `f`. Every not-a-number becomes the positive
quiet one. -/
def convert (target : FloatFormat) (bits : Nat) : Nat :=
  if f.isNaN bits then target.quietNaN
  else if f.isInfinite bits then target.signed (f.isNegative bits) target.infinity
  else
    target.signed (f.isNegative bits)
      (target.nearest (f.units (f.magnitude bits) <<< target.unitScale) (1 <<< f.unitScale))

/-- A pattern with its lowest `n` bits cleared. -/
def clearLow (n bits : Nat) : Nat := (bits >>> n) <<< n

/-! ### Arithmetic on magnitudes -/

def mul (x y : Nat) : Nat := f.nearest (f.units x * f.units y) (1 <<< f.unitScale)

/-- The quotient of two finite magnitudes, rounded; the second is not zero. -/
def div (x y : Nat) : Nat := f.nearest (f.units x <<< f.unitScale) (f.units y)

end FloatFormat

end ChunkedArray
