import ChunkedArray.Float.Format

/-!
# The shortest decimal of a float

Of all decimals that round to a given magnitude, `Decimal.shortest` gives one with the fewest digits
and among those the one nearest to the magnitude. For each digit count it tests the two neighbours
of the magnitude on the decimal grid, in exact arithmetic.
-/

namespace ChunkedArray

/-- Decimal digits, most significant first, of which the first has the weight `10 ^ exponent`. -/
structure Decimal where
  digits : List Nat
  exponent : Int
deriving DecidableEq

namespace Decimal

/-- The decimal digits of a number, most significant first. -/
def digitsOf (n : Nat) : List Nat :=
  (Nat.toDigits 10 n).map fun c => c.toNat - '0'.toNat

/-- Digits without the zeros at the end. -/
def trimZeros (ds : List Nat) : List Nat := (ds.reverse.dropWhile (· == 0)).reverse

def tenTo (k : Nat) : Nat := Nat.pow 10 k

/-- The largest `e` with `10 ^ e ≤ num / den`, for positive `num` and `den`. -/
def leadingExponent (num den : Nat) : Int :=
  if den ≤ num then ((digitsOf (num / den)).length : Int) - 1
  else
    let k := (digitsOf (den / num)).length
    if den ≤ num * tenTo (k - 1) then 1 - (k : Int) else -(k : Int)

/-- The reals that round to the magnitude pattern `p`, doubled and in units; the ends belong to the
interval exactly if `p` is even. -/
def roundsTo (f : FloatFormat) (p : Nat) : Nat × Nat :=
  (f.units (p - 1) + f.units p, f.units p + f.units (p + 1))

/-- The decimal of `n` digits nearest to the magnitude pattern `p` among the two neighbours of its
value that round to `p`, if one of them does. `e` is the leading exponent of the value. -/
def ofDigitCount? (f : FloatFormat) (p : Nat) (e : Int) (n : Nat) : Option Decimal :=
  let shift : Int := n - 1 - e
  -- `c` grid steps are `c * a / b` units
  let a := tenTo (-shift).toNat <<< f.unitScale
  let b := tenTo shift.toNat
  let (lo, hi) := roundsTo f p
  let inside (c : Nat) : Bool :=
    if p % 2 = 0 then lo * b ≤ 2 * c * a && 2 * c * a ≤ hi * b
    else lo * b < 2 * c * a && 2 * c * a < hi * b
  let below := f.units p * b / a
  let rest := f.units p * b % a
  let ofSteps (c : Nat) : Decimal :=
    ⟨trimZeros (digitsOf c), e + ((digitsOf c).length - n : Int)⟩
  let nearerBelow := 2 * rest < a || (2 * rest == a && below % 2 == 0)
  match inside below && below ≠ 0, inside (below + 1) with
  | true, true => some (ofSteps (if nearerBelow then below else below + 1))
  | true, false => some (ofSteps below)
  | false, true => some (ofSteps (below + 1))
  | false, false => none

/-- The shortest decimal that rounds to the magnitude pattern `p`; seventeen digits are enough for
each format of this library. Zero has no digits. -/
def shortest (f : FloatFormat) (p : Nat) : Decimal :=
  if p = 0 then ⟨[], 0⟩
  else
    let e := leadingExponent (f.units p) (1 <<< f.unitScale)
    ((List.range' 1 17).findSome? (ofDigitCount? f p e)).getD ⟨[], 0⟩

end Decimal

end ChunkedArray
