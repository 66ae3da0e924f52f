/-!
# Numbers in messages

Shapes and indices are written in brackets with a comma and a blank between coordinates, checksums
as eight hexadecimal digits.
-/

namespace ChunkedArray

namespace Text

def list (items : List String) : String := "[" ++ String.intercalate ", " items ++ "]"

def coords (ns : List Nat) : String := list (ns.map toString)

/-- Coordinates that may be missing. -/
def optionalCoords : Option (List Nat) → String
  | some ns => "Some(" ++ coords ns ++ ")"
  | none => "None"

def hexDigits (n x : Nat) : List Char :=
  (List.range n).reverse.map fun i =>
    let d := (x >>> (4 * i)) % 16
    Char.ofNat (if d < 10 then 48 + d else 87 + d)

def checksum (x : Nat) : String := "0x" ++ String.ofList (hexDigits 8 x)

/-- A text in double quotes, with quotes and backslashes escaped. -/
def quoted (s : String) : String :=
  let escaped := s.toList.flatMap fun c => if c = '"' ∨ c = '\\' then ['\\', c] else [c]
  "\"" ++ String.ofList escaped ++ "\""

end Text

end ChunkedArray
