/-!
# Store keys

A key is a path of components; its text joins them with slashes. Components are not empty, hold no
slash, are not made of periods alone and do not start with the two underscores that are reserved for
the store. The empty path is the root.
-/

namespace ChunkedArray

inductive InvalidComponent where
  | empty
  | hasSlash
  | isPeriods
  | reserved
deriving DecidableEq

def InvalidComponent.message : InvalidComponent → String
  | .empty => "Key component is empty string"
  | .hasSlash => "Key component contains '/'"
  | .isPeriods => "Key component is comprised only of periods"
  | .reserved => "Key component starts with reserved prefix '__'"

structure KeyComponent where
  text : String
deriving DecidableEq

namespace KeyComponent

def startsReserved : List Char → Bool
  | '_' :: '_' :: _ => true
  | _ => false

/-- What is wrong with a component, if anything; of several faults the first of these. -/
def fault? (cs : List Char) : Option InvalidComponent :=
  if cs = [] then some .empty
  else if startsReserved cs then some .reserved
  else if cs.all (· == '.') then some .isPeriods
  else if cs.contains '/' then some .hasSlash
  else none

/-- A text that may be a component. -/
def Valid (c : KeyComponent) : Prop := fault? c.text.toList = none

instance (c : KeyComponent) : Decidable c.Valid := inferInstanceAs (Decidable (_ = _))

def parse (s : String) : Except InvalidComponent KeyComponent :=
  match fault? s.toList with
  | some e => .error e
  | none => .ok ⟨s⟩

def byteLength (c : KeyComponent) : Nat := c.text.utf8ByteSize

end KeyComponent

structure Key where
  components : List KeyComponent
deriving DecidableEq

namespace Key

def root : Key := ⟨[]⟩

def isRoot (k : Key) : Bool := k.components.isEmpty

def length (k : Key) : Nat := k.components.length

def push (k : Key) (c : KeyComponent) : Key := ⟨k.components ++ [c]⟩

def append (k : Key) (cs : List KeyComponent) : Key := ⟨k.components ++ cs⟩

def pop? (k : Key) : Option (KeyComponent × Key) :=
  k.components.getLast?.map fun c => (c, ⟨k.components.dropLast⟩)

/-- The name of metadata documents. -/
def metadataName : KeyComponent := ⟨"zarr.json"⟩

/-- The key of the metadata document of a node. -/
def metadata (k : Key) : Key := k.push metadataName

/-- The components of `base` are the first ones of the key. -/
def startsWith (k base : Key) : Bool := base.components.isPrefixOf k.components

/-! ### Text -/

def separator : Char := '/'

def toText (k : Key) : String :=
  String.ofList (List.intercalate [separator] (k.components.map fun c => c.text.toList))

/-- The parts of a text between slashes. -/
def segments (cs : List Char) : List (List Char) :=
  cs.splitOnP (· == separator)

def parse (s : String) : Except InvalidComponent Key := do
  let parts := (segments s.toList).filter (· ≠ [])
  return ⟨← parts.mapM fun cs => KeyComponent.parse (String.ofList cs)⟩

/-- Follows a path from a key, where `.` stays and `..` goes up; `none` above the root. -/
def relative (k : Key) : List String → Except InvalidComponent (Option Key)
  | [] => .ok (some k)
  | step :: path =>
    if step = "." then k.relative path
    else if step = ".." then
      match k.pop? with
      | some (_, parent) => parent.relative path
      | none => .ok none
    else do (k.push (← KeyComponent.parse step)).relative path

/-! ### Order -/

/-- Compares component by component; of two keys where one starts with the other, the shorter one
comes first. -/
def compareComponents : List KeyComponent → List KeyComponent → Ordering
  | [], [] => .eq
  | [], _ :: _ => .lt
  | _ :: _, [] => .gt
  | a :: as, b :: bs =>
    if a.text < b.text then .lt
    else if b.text < a.text then .gt
    else compareComponents as bs

def compare (a b : Key) : Ordering := compareComponents a.components b.components

/-- The order in which keys are listed. -/
def le (a b : Key) : Bool := compare a b != .gt

def sort (keys : List Key) : List Key := keys.mergeSort le

end Key

end ChunkedArray
