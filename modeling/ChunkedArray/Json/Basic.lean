/-!
# JSON values

A `Json` value keeps integers and floats apart and holds floats as binary64 patterns. The members of
an object are in increasing order of their names, each name once: `Json.ofMembers` brings any list
of members into that form, the last one of a name winning.

`RawJson` is a document as it was written. Its objects keep every member in order, since readers
of objects with fixed fields refuse a repeated field, and it has a leaf for parts that are well
formed but have no value (a number beyond the finite floats, half of a surrogate pair, nesting
beyond the limit): such a part is refused only by a reader that wants it.
-/

namespace ChunkedArray

inductive Json where
  | null
  | bool (b : Bool)
  | int (n : Int)
  /-- A number written with a point or an exponent, or beyond 64 bits, as a binary64 pattern. -/
  | float (bits : Nat)
  | str (s : String)
  | arr (items : List Json)
  | obj (members : List (String × Json))

inductive RawJson where
  | null
  | bool (b : Bool)
  | int (n : Int)
  | float (bits : Nat)
  | str (s : String)
  | arr (items : List RawJson)
  | obj (members : List (String × RawJson))
  /-- Well formed, but without a value. -/
  | unreadable

namespace Json

/-! ### Objects -/

/-- Puts a member in its place, replacing one of the same name. -/
def insertMember {α : Type} (name : String) (value : α) : List (String × α) → List (String × α)
  | [] => [(name, value)]
  | (n, v) :: rest =>
    if name < n then (name, value) :: (n, v) :: rest
    else if name = n then (name, value) :: rest
    else (n, v) :: insertMember name value rest

/-- Members in increasing order of their names, the last one of a name winning. -/
def sortMembers {α : Type} (members : List (String × α)) : List (String × α) :=
  members.foldl (fun sorted m => insertMember m.1 m.2 sorted) []

def ofMembers (members : List (String × Json)) : Json := .obj (sortMembers members)

def ofNats (ns : List Nat) : Json := .arr (ns.map fun (n : Nat) => .int n)

/-! ### Values and documents -/

mutual

/-- A value as a document that was written with sorted members. -/
def toRaw : Json → RawJson
  | .null => .null
  | .bool b => .bool b
  | .int n => .int n
  | .float bits => .float bits
  | .str s => .str s
  | .arr items => .arr (toRawItems items)
  | .obj members => .obj (toRawMembers members)

def toRawItems : List Json → List RawJson
  | [] => []
  | x :: rest => toRaw x :: toRawItems rest

def toRawMembers : List (String × Json) → List (String × RawJson)
  | [] => []
  | (name, x) :: rest => (name, toRaw x) :: toRawMembers rest

end

end Json

namespace RawJson

def ofNats (ns : List Nat) : RawJson := .arr (ns.map fun (n : Nat) => .int n)

/-- A case that carries a configuration. -/
def tagged (name : String) (configuration : List (String × RawJson)) : RawJson :=
  .obj [("name", .str name), ("configuration", .obj configuration)]

mutual

/-- The value of a document; `none` if some part has none. -/
def value? : RawJson → Option Json
  | .null => some .null
  | .bool b => some (.bool b)
  | .int n => some (.int n)
  | .float bits => some (.float bits)
  | .str s => some (.str s)
  | .arr items => (items? items).map .arr
  | .obj members => (members? members).map Json.ofMembers
  | .unreadable => none

def items? : List RawJson → Option (List Json)
  | [] => some []
  | x :: rest => do return (← value? x) :: (← items? rest)

def members? : List (String × RawJson) → Option (List (String × Json))
  | [] => some []
  | (name, x) :: rest => do return (name, ← value? x) :: (← members? rest)

end

end RawJson

end ChunkedArray
