import ChunkedArray.Json.Basic
import ChunkedArray.Float.Text

/-!
# Writing JSON documents

A document is written `compact`, without white space, or `pretty`, with one item or member a line
and two blanks of indentation per level. Members are written in the order in which they are held.
-/

namespace ChunkedArray

namespace Json

/-! ### Strings -/

def hexDigit (n : Nat) : Char := Char.ofNat (if n < 10 then 48 + n else 87 + n)

/-- Quotes, backslashes and control characters are escaped, the common ones by a letter. -/
def escapeChar (c : Char) : List Char :=
  if c = '"' then ['\\', '"']
  else if c = '\\' then ['\\', '\\']
  else if c = '\x08' then ['\\', 'b']
  else if c = '\x0c' then ['\\', 'f']
  else if c = '\n' then ['\\', 'n']
  else if c = '\r' then ['\\', 'r']
  else if c = '\t' then ['\\', 't']
  else if c.toNat < 32 then
    ['\\', 'u', '0', '0', hexDigit (c.toNat / 16), hexDigit (c.toNat % 16)]
  else [c]

def quote (s : String) : List Char := '"' :: s.toList.flatMap escapeChar ++ ['"']

/-! ### Values -/

def wordChars (s : String) : List Char := s.toList

/-- The text of a document that has no parts. -/
def scalarChars : RawJson → List Char
  | .null => wordChars "null"
  | .bool b => wordChars (if b then "true" else "false")
  | .int n => (toString n).toList
  | .float bits => DecimalLayout.json.renderBinary64 bits
  | .str s => quote s
  | .arr _ => ['[', ']']
  | .obj _ => ['\x7b', '\x7d']
  | .unreadable => wordChars "null"

mutual

def compactChars : RawJson → List Char
  | .arr (x :: rest) => '[' :: compactChars x ++ compactItems rest
  | .obj ((name, x) :: rest) =>
    '\x7b' :: quote name ++ ':' :: compactChars x ++ compactMembers rest
  | x => scalarChars x

/-- The items after the first, and the end of the array. -/
def compactItems : List RawJson → List Char
  | [] => [']']
  | x :: rest => ',' :: compactChars x ++ compactItems rest

def compactMembers : List (String × RawJson) → List Char
  | [] => ['\x7d']
  | (name, x) :: rest => ',' :: quote name ++ ':' :: compactChars x ++ compactMembers rest

end

def newLine (level : Nat) : List Char := '\n' :: List.replicate (2 * level) ' '

mutual

/-- The text of a document that starts inside `level` containers. -/
def prettyChars (level : Nat) : RawJson → List Char
  | .arr (x :: rest) =>
    '[' :: newLine (level + 1) ++ prettyChars (level + 1) x ++ prettyItems level rest
  | .obj ((name, x) :: rest) =>
    '\x7b' :: newLine (level + 1) ++ quote name ++ ':' :: ' ' :: prettyChars (level + 1) x
      ++ prettyMembers level rest
  | x => scalarChars x

def prettyItems (level : Nat) : List RawJson → List Char
  | [] => newLine level ++ [']']
  | x :: rest => ',' :: newLine (level + 1) ++ prettyChars (level + 1) x ++ prettyItems level rest

def prettyMembers (level : Nat) : List (String × RawJson) → List Char
  | [] => newLine level ++ ['\x7d']
  | (name, x) :: rest =>
    ',' :: newLine (level + 1) ++ quote name ++ ':' :: ' ' :: prettyChars (level + 1) x
      ++ prettyMembers level rest

end

end Json

namespace RawJson

def compact (x : RawJson) : String := String.ofList (Json.compactChars x)

def pretty (x : RawJson) : String := String.ofList (Json.prettyChars 0 x)

end RawJson

/-- The text of a value without white space. -/
def Json.compact (x : Json) : String := x.toRaw.compact

end ChunkedArray
