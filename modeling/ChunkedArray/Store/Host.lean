import ChunkedArray.Store.Directory
import ChunkedArray.Store.Faulty
import ChunkedArray.Store.Memory

/-!
# Stores of a program

A program has a working directory and any number of open stores. Those in a directory see the same
tree, so what one of them writes the others read.
-/

namespace ChunkedArray

/-- A store of any kind. -/
inductive Backend where
  | memory (s : MemoryStore)
  | faulty (s : FaultyStore MemoryStore)
  | directory (s : DirectoryStore)

namespace Backend

/-- Changes a part of a backend. -/
def lift {σ α : Type} (wrap : σ → Backend) (s : σ) (a : StoreAction σ StoreError α) :
    Except StoreError α × Backend :=
  let (r, s) := a s
  (r, wrap s)

/-- Runs the operation of the store's own kind. -/
def dispatch {α : Type} (a : (σ : Type) → [Store σ] → StoreAction σ StoreError α) :
    StoreAction Backend StoreError α
  | .memory s => lift .memory s (a MemoryStore)
  | .faulty s => lift .faulty s (a (FaultyStore MemoryStore))
  | .directory s => lift .directory s (a DirectoryStore)

/-- Reads the store in the way of its own kind. -/
def inspect {α : Type} (f : (σ : Type) → [Store σ] → σ → Except StoreError α) :
    Backend → Except StoreError α
  | .memory s => f _ s
  | .faulty s => f _ s
  | .directory s => f _ s

instance : Store Backend where
  get k := inspect fun _ => Store.get k
  has k := inspect fun _ => Store.has k
  keysUnder base := inspect fun _ => Store.keysUnder base
  set k value := dispatch fun _ => Store.set k value
  erase k := dispatch fun _ => Store.erase k
  eraseUnder base := dispatch fun _ => Store.eraseUnder base

/-- The store as it is with another tree. -/
def withTree (tree : FileTree) : Backend → Backend
  | .directory s => .directory { s with tree }
  | s => s

/-- The tree that the store sees, if it sees one. -/
def tree? : Backend → Option FileTree
  | .directory s => some s.tree
  | _ => none

/-- The number of values of a store in memory. -/
def size? : Backend → Option Nat
  | .memory s => some s.size
  | .faulty s => some s.inner.size
  | .directory _ => none

end Backend

/-- The working directory and the stores that were opened, each known by its number. -/
structure Host where
  tree : FileTree
  stores : List Backend

namespace Host

/-- A host without stores, working in an empty directory. -/
def empty (home : Path) : Host := ⟨.empty home, []⟩

def add (h : Host) (s : Backend) : Nat × Host := (h.stores.length, { h with stores := h.stores ++ [s] })

/-- The store of a number, as it is now. -/
def store? (h : Host) (n : Nat) : Option Backend := (h.stores[n]?).map (·.withTree h.tree)

/-- Runs an operation on a store. -/
def run {ε α : Type} (n : Nat) (s : Backend) (a : StoreAction Backend ε α) (h : Host) :
    Except ε α × Host :=
  let (r, s) := a s
  (r, ⟨s.tree?.getD h.tree, h.stores.set n s⟩)

end Host

end ChunkedArray
