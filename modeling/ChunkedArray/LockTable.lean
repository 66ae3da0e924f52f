import ChunkedArray.Assoc
import ChunkedArray.NdArray.Index

/-!
# Chunk locks

Writers of one array take the lock of a chunk before they read, merge and store it. The table hands
out one lock per chunk as long as anyone holds it: `get` makes the lock of a chunk or gives a new
handle of the one in the table. When the table has grown large, `get` first removes the locks that
nobody holds, which are those without a handle besides the table's own.
-/

namespace ChunkedArray

/-- Identifies a lock: two handles are the same lock exactly if their identities are equal. -/
abbrev LockId := Nat

structure LockTable where
  /-- The lock of each chunk that has one. -/
  locks : List (Index × LockId)
  /-- The handles that were given out and not dropped; a lock stands once per handle. -/
  handles : List LockId
  /-- The identity of the next new lock. -/
  nextId : LockId
deriving DecidableEq

namespace LockTable

def empty : LockTable := ⟨[], [], 0⟩

/-- Tables larger than this are pruned. -/
def pruneThreshold : Nat := 256

def size (t : LockTable) : Nat := t.locks.length

def isEmpty (t : LockTable) : Bool := t.locks.isEmpty

/-- Removes the locks that nobody holds, if the table is large. -/
def prune (t : LockTable) : LockTable :=
  if t.size > pruneThreshold then
    { t with locks := t.locks.filter fun e => t.handles.contains e.2 }
  else t

/-- A new handle of the lock of a chunk. -/
def get (t : LockTable) (chunk : Index) : LockId × LockTable :=
  let t := t.prune
  match Assoc.find? chunk t.locks with
  | some id => (id, { t with handles := id :: t.handles })
  | none =>
    (t.nextId,
      ⟨Assoc.set chunk t.nextId t.locks, t.nextId :: t.handles, t.nextId + 1⟩)

def drop (t : LockTable) (id : LockId) : LockTable := { t with handles := t.handles.erase id }

/-- Runs an action that holds the lock of a chunk, and drops the handle after it. -/
def withLock {α : Type} (t : LockTable) (chunk : Index) (action : LockTable → α) :
    α × LockTable :=
  let (id, t) := t.get chunk
  (action t, t.drop id)

end LockTable

end ChunkedArray
