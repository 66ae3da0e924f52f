import ChunkedArray.Json.Basic
import ChunkedArray.Word

/-!
# Reading documents of a fixed form

Objects with fixed fields may be written with named members in any order, or as an array that gives
the fields in the order in which they are declared. Members of other names are ignored, a repeated
field is refused. A choice between named cases is written as its name, or as an object with that
name as its only member and null as the value.

A case with a configuration may have the configuration before the name. It is then kept until the
name is known, and a kept document is read less strictly: an object without members will do for
null.
-/

namespace ChunkedArray

namespace RawJson

def bool? : RawJson → Option Bool
  | .bool b => some b
  | _ => none

/-- An integer from `lo` to `hi`. -/
def int? (lo hi : Int) : RawJson → Option Int
  | .int n => if lo ≤ n ∧ n ≤ hi then some n else none
  | _ => none

/-- A natural number below `limit`. -/
def nat? (limit : Nat) (x : RawJson) : Option Nat :=
  (x.int? 0 ((limit : Int) - 1)).map Int.toNat

def word? : RawJson → Option Nat := nat? wordLimit

def string? : RawJson → Option String
  | .str s => some s
  | _ => none

def list? {α : Type} (item : RawJson → Option α) : RawJson → Option (List α)
  | .arr items => items.mapM item
  | _ => none

/-- Null stands for a value left out. -/
def optional? {α : Type} (item : RawJson → Option α) : RawJson → Option (Option α)
  | .null => some none
  | x => (item x).map some

/-- The name of a case, in a document that was kept or not. -/
def caseName? (kept : Bool) : RawJson → Option String
  | .str s => some s
  | .obj [(s, .null)] => some s
  | .obj [(s, .obj [])] => if kept then some s else none
  | _ => none

/-! ### Objects with fixed fields -/

/-- Checks that no field is given twice and keeps the fields that are given. -/
def namedFields? (names : List String) (members : List (String × RawJson)) :
    Option (List (String × RawJson)) :=
  let given := members.filter fun m => names.contains m.1
  if (given.map Prod.fst).eraseDups.length = given.length then some given else none

/-- The fields of an object with the declared field names. -/
def fields? (names : List String) : RawJson → Option (List (String × RawJson))
  | .obj members => namedFields? names members
  | .arr items => if items.length ≤ names.length then some (names.zip items) else none
  | _ => none

def required {α : Type} (fields : List (String × RawJson)) (name : String)
    (read : RawJson → Option α) : Option α :=
  (fields.lookup name).bind read

def defaulted {α : Type} (fields : List (String × RawJson)) (name : String) (default : α)
    (read : RawJson → Option α) : Option α :=
  match fields.lookup name with
  | none => some default
  | some x => read x

/-- The name of a case that carries a configuration. Given by its place in an array it must be a
string, while a member may have any form of a case name. -/
def tag? : RawJson → RawJson → Option String
  | .arr _ => string?
  | _ => caseName? false

/-- A case that carries a configuration: `name` and `configuration`, both required, and whether the
configuration was kept. All of a kept configuration must have a value. -/
def tagged? (x : RawJson) : Option (String × RawJson × Bool) := do
  let fields ← x.fields? ["name", "configuration"]
  let name ← required fields "name" x.tag?
  let configuration ← fields.lookup "configuration"
  let kept := fields.head?.map Prod.fst == some "configuration"
  if kept then
    let _ ← configuration.value?
  return (name, configuration, kept)

end RawJson

end ChunkedArray
