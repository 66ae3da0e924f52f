import ChunkedArray.Store.Basic

/-!
# Stores in memory

A finite map from keys to bytes; it never fails.
-/

namespace ChunkedArray

structure MemoryStore where
  entries : List (Key × Bytes)
deriving DecidableEq

namespace MemoryStore

def empty : MemoryStore := ⟨[]⟩

def size (s : MemoryStore) : Nat := s.entries.length

def isEmpty (s : MemoryStore) : Bool := s.entries.isEmpty

def get? (s : MemoryStore) (k : Key) : Option Bytes := Assoc.find? k s.entries

def insert (s : MemoryStore) (k : Key) (value : Bytes) : MemoryStore := ⟨Assoc.set k value s.entries⟩

def restrict (s : MemoryStore) (keep : Key → Bool) : MemoryStore :=
  ⟨Assoc.restrict keep s.entries⟩

def keysUnder (s : MemoryStore) (base : Key) : List Key :=
  Key.sort ((Assoc.keys s.entries).filter (·.startsWith base))

theorem get?_insert (s : MemoryStore) (k k' : Key) (value : Bytes) :
    (s.insert k value).get? k' = if k = k' then some value else s.get? k' :=
  Assoc.find?_set k k' value s.entries

theorem get?_restrict (s : MemoryStore) (keep : Key → Bool) (k : Key) :
    (s.restrict keep).get? k = if keep k then s.get? k else none :=
  Assoc.find?_restrict keep k s.entries

instance : Store MemoryStore where
  get k s := .ok (s.get? k)
  has k s := .ok (s.get? k).isSome
  keysUnder base s := .ok (s.keysUnder base)
  set k value := .changing fun s => ((), s.insert k value)
  erase k := .changing fun s => ((s.get? k).isSome, s.restrict (· ≠ k))
  eraseUnder base := .changing fun s =>
    let kept := s.restrict fun k => !k.startsWith base
    (kept.size != s.size, kept)

end MemoryStore

end ChunkedArray
