import ChunkedArray.Json.Token

/-!
# Reading JSON documents

`RawJson.parse?` reads a document. It runs through the tokens once, keeping the arrays and
objects that are still open on a stack, so the recursion is on the list of tokens.
-/

namespace ChunkedArray

namespace RawJson

/-- An array or object of which some part has been read, latest part first. -/
inductive Open where
  | array (items : List RawJson)
  /-- `pending` is the name whose value comes next; a name without a value makes the object one. -/
  | object (members : List (String × RawJson)) (pending : Option String) (readable : Bool)

/-- What may come next. -/
inductive Expect where
  | value
  /-- The first item of an array, or its end. -/
  | firstItem
  | name
  /-- The first name of an object, or its end. -/
  | firstName
  | colon
  /-- A comma, or the end of the array or object. -/
  | comma
  deriving DecidableEq

/-- Containers nested deeper than this have no value. -/
def maxDepth : Nat := 127

/-- Hands a finished value to the innermost open container; `Sum.inr` if there is none. -/
def deliver (x : RawJson) : List Open → List Open ⊕ RawJson
  | [] => .inr x
  | .array items :: stack => .inl (.array (x :: items) :: stack)
  | .object members pending readable :: stack =>
    match pending with
    | some name => .inl (.object ((name, x) :: members) none readable :: stack)
    | none => .inl (.object members none readable :: stack)

/-- The value of a container that is complete, inside the open ones of the stack. -/
def finish (stack : List Open) (c : Open) : RawJson :=
  if stack.drop (maxDepth - 1) |>.isEmpty then
    match c with
    | .array items => .arr items.reverse
    | .object members _ readable => if readable then .obj members.reverse else .unreadable
  else .unreadable

/-- Closes the innermost container and hands it on. -/
def close : List Open → Option (List Open ⊕ RawJson)
  | [] => none
  | c :: stack => some (deliver (finish stack c) stack)

/-- Reads the tokens that follow when `expect` may come next inside the open containers. -/
def run : Expect → List Open → List Json.Token → Option RawJson
  | _, _, [] => none
  | expect, stack, token :: rest =>
    let continueWith (next : List Open ⊕ RawJson) : Option RawJson :=
      match next with
      | .inl stack => run .comma stack rest
      | .inr x => if rest.isEmpty then some x else none
    let takesValue := expect = .value ∨ expect = .firstItem
    match token with
    | .scalar x => if takesValue then continueWith (deliver x stack) else none
    | .str s =>
      if takesValue then continueWith (deliver (s.elim .unreadable .str) stack)
      else if expect = .name ∨ expect = .firstName then
        match stack with
        | .object members _ readable :: stack =>
          run .colon (.object members s (readable && s.isSome) :: stack) rest
        | _ => none
      else none
    | .openArray => if takesValue then run .firstItem (.array [] :: stack) rest else none
    | .openObject =>
      if takesValue then run .firstName (.object [] none true :: stack) rest else none
    | .colon => if expect = .colon then run .value stack rest else none
    | .comma =>
      if expect = .comma then
        match stack with
        | .array _ :: _ => run .value stack rest
        | .object .. :: _ => run .name stack rest
        | [] => none
      else none
    | .closeArray =>
      match stack with
      | .array _ :: _ =>
        if expect = .comma ∨ expect = .firstItem then (close stack).bind continueWith else none
      | _ => none
    | .closeObject =>
      match stack with
      | .object .. :: _ =>
        if expect = .comma ∨ expect = .firstName then (close stack).bind continueWith else none
      | _ => none

/-- Reads a document; `none` if it is not well formed. -/
def parse? (source : Json.Source) : Option RawJson := (Json.tokens? source).bind (run .value [])

def ofText? (text : String) : Option RawJson := parse? (.ofText text)

def ofBytes? (bs : Bytes) : Option RawJson := parse? (.ofBytes bs)

end RawJson

namespace Json

/-- Reads a document from bytes and gives its value. -/
def ofBytes? (bs : Bytes) : Option Json := (RawJson.ofBytes? bs).bind RawJson.value?

end Json

end ChunkedArray
