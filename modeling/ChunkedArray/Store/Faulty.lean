import ChunkedArray.Store.Basic

/-!
# Stores that fail

A store around another one that fails on chosen keys, where an operation on them has no effect. It
shows what others do when their store fails.
-/

namespace ChunkedArray

structure FaultyStore (σ : Type) where
  inner : σ
  /-- The keys on which operations fail. -/
  fails : Key → Bool
  /-- The error with which they fail. -/
  error : StoreError

namespace FaultyStore

variable {σ : Type} [Store σ]

/-- Reads the inner store unless the key is one that fails. -/
def read {α : Type} (k : Key) (f : σ → Except StoreError α) (s : FaultyStore σ) :
    Except StoreError α :=
  if s.fails k then .error s.error else f s.inner

/-- Changes the inner store unless the key is one that fails. -/
def change {α : Type} (k : Key) (a : StoreAction σ StoreError α) :
    StoreAction (FaultyStore σ) StoreError α := fun s =>
  if s.fails k then (.error s.error, s)
  else
    let (r, inner) := a s.inner
    (r, { s with inner })

instance : Store (FaultyStore σ) where
  get k := read k (Store.get k)
  has k := read k fun s => (Store.get k s).map Option.isSome
  keysUnder base := read base (Store.keysUnder base)
  set k value := change k (Store.set k value)
  erase k := change k (Store.erase k)
  eraseUnder base := change base (Store.eraseUnder base)

end FaultyStore

end ChunkedArray
