import ChunkedArray.Key
import ChunkedArray.Store.FileTree

/-!
# Stores

A store maps keys to bytes. Reading leaves it as it is; an operation that changes it gives an answer
and the store afterwards, also where it fails.
-/

namespace ChunkedArray

inductive StoreError where
  | file (e : FileError)
  | readOnly
  | notADirectory (path : String)
  | notFound (path : String)
  | rootReadOnly (path : String)
  | invalidMode (mode : String)
  | unknownStore (name : String)
  /-- The configuration has not the form that the store wants. -/
  | configuration (name : String)
deriving DecidableEq

def StoreError.message : StoreError → String
  | .file _ => "Store I/O failed"
  | .readOnly => "Store is read-only"
  | .notADirectory path => s!"Store root {path} is not a directory"
  | .notFound path => s!"Store root {path} does not exist"
  | .rootReadOnly path => s!"Store root {path} is not writeable"
  | .invalidMode mode => s!"Unknown access mode `{mode}`; expected `r`, `w` or `r+`"
  | .unknownStore name => s!"Unknown store `{name}`"
  | .configuration name => s!"Invalid configuration for store `{name}`"

/-- An operation that may change a store and may fail with an error of type `ε`. -/
abbrev StoreAction (σ ε : Type) := ExceptT ε (StateM σ)

namespace StoreAction

variable {σ ε ε' α : Type}

def reading (f : σ → Except ε α) : StoreAction σ ε α := fun s => (f s, s)

/-- An operation with its errors renamed. -/
def rename (f : ε → ε') (a : StoreAction σ ε α) : StoreAction σ ε' α := fun s =>
  let (r, s) := a s
  (r.mapError f, s)

/-- A change that cannot fail. -/
def changing (f : σ → α × σ) : StoreAction σ ε α := fun s =>
  let (a, s) := f s
  (.ok a, s)

end StoreAction

class Store (σ : Type) where
  get : Key → σ → Except StoreError (Option Bytes)
  /-- Whether there is a value. -/
  has : Key → σ → Except StoreError Bool
  /-- The keys that start with a key, in order. -/
  keysUnder : Key → σ → Except StoreError (List Key)
  set : Key → Bytes → StoreAction σ StoreError Unit
  /-- Takes a value away and tells whether there was one. -/
  erase : Key → StoreAction σ StoreError Bool
  /-- Takes every value away whose key starts with a key, and tells whether there was anything. -/
  eraseUnder : Key → StoreAction σ StoreError Bool

namespace Store

def keys {σ : Type} [Store σ] (s : σ) : Except StoreError (List Key) := keysUnder Key.root s

end Store

end ChunkedArray
