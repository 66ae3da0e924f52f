import ChunkedArray.Float.Shortest
import ChunkedArray.Word

/-!
# Floats as decimal text

Writing lays out the shortest decimal of a binary64 pattern. Reading takes the digits of a number as
far as they fit 64 bits, turns them into the nearest binary64 value and scales that once by the
nearest binary64 value to a power of ten, so the last bit of what is read may differ from the one
nearest to the text.
-/

namespace ChunkedArray

/-! ### Writing -/

/-- How a decimal is laid out. -/
structure DecimalLayout where
  /-- Leading exponents from here … -/
  positionalFrom : Int
  /-- … up to here are written without an exponent. -/
  positionalTo : Int
  /-- What a decimal without digits after the point ends in. -/
  integralEnd : List Char
  /-- What stands before a positive exponent. -/
  positiveExponent : List Char

namespace DecimalLayout

/-- A number is written out from `0.00001` to below `10 ^ 16` and always has a point; others have an
exponent with a sign, and a point only if they have a second digit. -/
def json : DecimalLayout := ⟨-5, 15, ['.', '0'], ['+']⟩

private def digitChars (ds : List Nat) : List Char := ds.map fun d => Char.ofNat (48 + d)

private def zeros (n : Nat) : List Char := List.replicate n '0'

/-- The text of a decimal with at least one digit. -/
def render (l : DecimalLayout) (d : Decimal) : List Char :=
  let cs := digitChars d.digits
  if d.exponent < l.positionalFrom || l.positionalTo < d.exponent then
    let mantissa := match cs with
      | c :: rest@(_ :: _) => c :: '.' :: rest
      | cs => cs
    let sign := if d.exponent < 0 then ['-'] else l.positiveExponent
    mantissa ++ 'e' :: sign ++ (toString d.exponent.natAbs).toList
  else if d.exponent < 0 then
    ['0', '.'] ++ zeros (d.exponent.natAbs - 1) ++ cs
  else
    let whole := d.exponent.toNat + 1
    if cs.length ≤ whole then cs ++ zeros (whole - cs.length) ++ l.integralEnd
    else cs.take whole ++ '.' :: cs.drop whole

/-- The text of a finite binary64 pattern. -/
def renderBinary64 (l : DecimalLayout) (bits : Nat) : List Char :=
  let f := FloatFormat.binary64
  let sign := if f.isNegative bits then ['-'] else []
  let p := f.magnitude bits
  sign ++ if p = 0 then '0' :: l.integralEnd else l.render (Decimal.shortest f p)

end DecimalLayout

/-! ### Reading -/

/-- A number as read so far: `significand · 10 ^ exponent`. -/
structure Scientific where
  significand : Nat
  exponent : Int
deriving DecidableEq

namespace Scientific

/-- The significand is kept below this. -/
def significandLimit : Nat := wordLimit

/-- Takes the digits left of the point from the first that does not fit on: each only moves the
exponent. -/
def skipInteger (s : Scientific) (ds : List Nat) : Scientific :=
  { s with exponent := s.exponent + ds.length }

/-- Takes the digits left of the point. -/
def readInteger (s : Scientific) : List Nat → Scientific
  | [] => s
  | d :: ds =>
    if s.significand * 10 + d < significandLimit then
      readInteger { s with significand := s.significand * 10 + d } ds
    else s.skipInteger (d :: ds)

/-- Takes the digits right of the point; from the first that does not fit on they are ignored. -/
def readFraction (s : Scientific) : List Nat → Scientific
  | [] => s
  | d :: ds =>
    if s.significand * 10 + d < significandLimit then
      readFraction ⟨s.significand * 10 + d, s.exponent - 1⟩ ds
    else s

/-- Exponents are kept within 32 bits. -/
def exponentLimit : Nat := 0x7fffffff

/-- The exponent that some digits write; all that are too large are one. -/
def writtenExponent (digits : List Nat) : Nat :=
  digits.foldl (fun n d => min (n * 10 + d) (exponentLimit + 1)) 0

/-- Multiplies by a written power of ten. An exponent too long for 32 bits makes a number zero or
too large, and leaves zero alone. -/
def scale (s : Scientific) (negative : Bool) (digits : List Nat) : Option Scientific :=
  let e := writtenExponent digits
  if exponentLimit < e then
    if s.significand ≠ 0 && !negative then none else some ⟨0, 0⟩
  else
    let sum := if negative then s.exponent - e else s.exponent + e
    some { s with exponent := max (-(exponentLimit + 1 : Int)) (min (exponentLimit : Int) sum) }

/-- The nearest binary64 magnitude to `10 ^ k`. -/
def powerOfTen (k : Nat) : Nat := FloatFormat.binary64.ofNat (Decimal.tenTo k)

/-- The largest power of ten that is a finite binary64 magnitude. -/
def maxPower : Nat := 308

/-- The binary64 magnitude of a number: its significand, rounded, times or divided by a power of
ten, each step rounded; `none` if it exceeds the finite magnitudes. Below `10 ^ -308` the division
is done in two steps, and what remains too small after them is zero. -/
def magnitude (s : Scientific) : Option Nat :=
  let f := FloatFormat.binary64
  let start := f.ofNat s.significand
  let steps := s.exponent.natAbs
  if s.exponent < 0 then
    if steps ≤ maxPower then some (f.div start (powerOfTen steps))
    else if start = 0 then some 0
    else
      let once := f.div start (powerOfTen maxPower)
      let rest := steps - maxPower
      if rest ≤ maxPower then some (f.div once (powerOfTen rest))
      else some 0
  else if steps ≤ maxPower then
    let product := f.mul start (powerOfTen steps)
    if product = f.infinity then none else some product
  else if start = 0 then some 0
  else none

end Scientific

end ChunkedArray
