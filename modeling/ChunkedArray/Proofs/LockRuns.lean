import ChunkedArray.Proofs.LockTable
import Mathlib.Data.List.Dedup
import Mathlib.Data.List.Perm.Basic
import Mathlib.Data.List.Perm.Subperm

/-!
# Runs of the lock table

A run takes handles of the locks of chunks and drops handles that it holds, in any order. The handles
of one chunk are one lock at every moment, those of different chunks are different locks, and the
table has the lock of each chunk with a handle. After each `get` the table is small, or has hardly
more locks than there are chunks with a handle.
-/

namespace ChunkedArray

inductive LockCall where
  | get (chunk : Index)
  /-- Drops the handle at this place among those that are held. -/
  | drop (place : Nat)

/-- A table and the handles that were taken from it and not dropped, the last one first. Each stands
with the chunk it was taken for. -/
structure LockRun where
  table : LockTable
  held : List (Index × LockId)

namespace LockRun

def start : LockRun := ⟨.empty, []⟩

def step (s : LockRun) : LockCall → LockRun
  | .get chunk => ⟨(s.table.get chunk).2, (chunk, (s.table.get chunk).1) :: s.held⟩
  | .drop place =>
    (s.held[place]?).elim s fun e => ⟨s.table.drop e.2, s.held.eraseIdx place⟩

def run (calls : List LockCall) : LockRun := calls.foldl step start

/-- The chunks of which there is a handle. -/
def chunks (s : LockRun) : List Index := (s.held.map Prod.fst).dedup

/-- Chunks and the locks that are held of them are matched one to one, and the table has each of
these locks, also once it is pruned. -/
structure SplitsNoLock (s : LockRun) : Prop where
  lock_eq : ∀ e ∈ s.held, ∀ e' ∈ s.held, e.1 = e'.1 → e.2 = e'.2
  lock_ne : ∀ e ∈ s.held, ∀ e' ∈ s.held, e.1 ≠ e'.1 → e.2 ≠ e'.2
  entry : ∀ e ∈ s.held, Assoc.find? e.1 s.table.locks = some e.2
  entry_prune : ∀ e ∈ s.held, Assoc.find? e.1 s.table.prune.locks = some e.2

/-- What every call keeps: the table serves those who hold a handle, and counts no others. -/
structure Accounts (s : LockRun) : Prop where
  serves : s.table.Serves s.held
  handles_perm : s.table.handles.Perm (s.held.map Prod.snd)

variable {s : LockRun}

theorem accounts_start : start.Accounts :=
  ⟨LockTable.serves_empty, List.Perm.refl _⟩

theorem Accounts.get (h : s.Accounts) (chunk : Index) : (s.step (.get chunk)).Accounts := by
  constructor
  · exact h.serves.get chunk
  · simp only [step, LockTable.handles_get, List.map_cons]
    exact h.handles_perm.cons _

theorem Accounts.drop (h : s.Accounts) (place : Nat) : (s.step (.drop place)).Accounts := by
  by_cases hplace : place < s.held.length
  · have hperm : s.held.Perm (s.held[place] :: s.held.eraseIdx place) :=
      (List.getElem_cons_eraseIdx_perm hplace).symm
    have hstep : s.step (.drop place) =
        ⟨s.table.drop s.held[place].2, s.held.eraseIdx place⟩ := by
      simp [step, hplace]
    rw [hstep]
    constructor
    · exact (h.serves.perm hperm.symm).drop
    · -- The handle that goes is the first of its lock, which need not be the one at the place.
      have hids := h.handles_perm.trans (hperm.map Prod.snd)
      have herase := hids.erase s.held[place].2
      rw [List.map_cons, List.erase_cons_head] at herase
      exact herase
  · have hstep : s.step (.drop place) = s := by simp [step, hplace]
    rw [hstep]
    exact h

theorem Accounts.step (h : s.Accounts) (call : LockCall) : (s.step call).Accounts := by
  cases call with
  | get chunk => exact h.get chunk
  | drop place => exact h.drop place

theorem accounts_run (calls : List LockCall) : (run calls).Accounts := by
  suffices hkeeps : ∀ s : LockRun, s.Accounts → (calls.foldl LockRun.step s).Accounts from
    hkeeps start accounts_start
  induction calls with
  | nil => exact fun _ h => h
  | cons call calls ih => exact fun s h => ih _ (h.step call)

theorem Accounts.splitsNoLock (h : s.Accounts) : s.SplitsNoLock := by
  constructor
  · intro ⟨chunk, id⟩ he ⟨other, id'⟩ he' hchunk
    obtain rfl : chunk = other := hchunk
    exact h.serves.id_eq he he'
  · intro ⟨chunk, id⟩ he ⟨other, id'⟩ he' hne hid
    obtain rfl : id = id' := hid
    exact hne (h.serves.chunk_eq he he')
  · exact h.serves.entry
  · exact h.serves.prune.entry

/-! ### The size of the table -/

/-- A table that is pruned has no other locks than those that are held. -/
theorem Accounts.mem_held_of_mem_prune (h : s.Accounts)
    (hsize : LockTable.pruneThreshold < s.table.size) {e : Index × LockId}
    (he : e ∈ s.table.prune.locks) : e ∈ s.held := by
  rw [LockTable.prune, if_pos hsize] at he
  obtain ⟨hlock, hheld⟩ := List.mem_filter.1 he
  have hid : e.2 ∈ s.held.map Prod.snd := by
    rw [← h.handles_perm.mem_iff]
    exact List.contains_iff_mem.1 hheld
  obtain ⟨e', he', heq⟩ := List.mem_map.1 hid
  have hlock' := Assoc.mem_of_find? (h.serves.entry e' he')
  have hsame : e' = e := List.inj_on_of_nodup_map h.serves.nodup_ids hlock' hlock heq
  rw [← hsame]
  exact he'

theorem Accounts.size_prune_le (h : s.Accounts) :
    s.table.prune.size ≤ max LockTable.pruneThreshold s.chunks.length := by
  by_cases hsize : LockTable.pruneThreshold < s.table.size
  · have hsub : Assoc.keys s.table.prune.locks ⊆ s.chunks := by
      intro chunk hchunk
      obtain ⟨e, he, rfl⟩ := List.mem_map.1 hchunk
      apply List.mem_dedup.2
      exact List.mem_map_of_mem (h.mem_held_of_mem_prune hsize he)
    have hle := (List.subperm_of_subset h.serves.prune.nodup_keys hsub).length_le
    rw [Assoc.keys, List.length_map] at hle
    unfold LockTable.size
    omega
  · rw [LockTable.prune, if_neg hsize]
    omega

/-- No run splits the lock of a chunk, and a `get` at its end leaves a table that is small or has at
most one lock more than there are chunks with a handle. -/
theorem splitsNoLock_run (calls : List LockCall) :
    (run calls).SplitsNoLock ∧ ∀ chunk,
      (run (calls ++ [.get chunk])).table.size ≤ max 257 (1 + (run calls).chunks.length) := by
  have h := accounts_run calls
  constructor
  · exact h.splitsNoLock
  · intro chunk
    have hget : (run (calls ++ [.get chunk])).table = ((run calls).table.get chunk).2 := by
      simp [run, step]
    have hle := LockTable.size_get_le (run calls).table chunk
    have hprune := h.size_prune_le
    unfold LockTable.pruneThreshold at hprune
    rw [hget]
    omega

end LockRun

end ChunkedArray
