import ChunkedArray.LockTable
import ChunkedArray.Proofs.Assoc

/-!
# Locks that are handed out

As long as somebody has a handle of the lock of a chunk, the table has that lock for the chunk, and
other chunks have other locks. Giving out a handle keeps this, also where the table is pruned first,
and so does dropping one.
-/

namespace ChunkedArray

namespace Assoc

variable {α β : Type} [DecidableEq α] {key k : α} {value : β} {l : List (α × β)}

theorem mem_of_find? (h : find? k l = some value) : (k, value) ∈ l := by
  induction l with
  | nil => cases h
  | cons e l ih =>
    obtain ⟨k', value'⟩ := e
    rw [find?] at h
    split at h
    · next he =>
      obtain rfl := Option.some.inj h
      exact he ▸ List.mem_cons_self
    · exact List.mem_cons_of_mem _ (ih h)

theorem find?_of_mem (hnodup : (keys l).Nodup) (h : (k, value) ∈ l) : find? k l = some value := by
  induction l with
  | nil => cases h
  | cons e l ih =>
    rcases List.mem_cons.1 h with rfl | h
    · exact if_pos rfl
    · exact find?_later hnodup (ih (List.nodup_cons.1 hnodup).2 h)

theorem find?_filter {keep : α × β → Bool} (hnodup : (keys l).Nodup) (h : find? k l = some value)
    (hkeep : keep (k, value) = true) : find? k (l.filter keep) = some value := by
  have hsub : (keys (l.filter keep)).Sublist (keys l) := List.filter_sublist.map _
  exact find?_of_mem (hnodup.sublist hsub) (List.mem_filter.2 ⟨mem_of_find? h, hkeep⟩)

theorem set_of_find?_eq_none (h : find? key l = none) : set key value l = l ++ [(key, value)] := by
  induction l with
  | nil => rfl
  | cons e l ih =>
    obtain ⟨k', value'⟩ := e
    rw [find?] at h
    split at h
    · cases h
    · next hne => rw [set, if_neg hne, ih h, List.cons_append]

end Assoc

namespace LockTable

variable {t : LockTable} {live live' : List (Index × LockId)} {chunk other : Index} {id : LockId}

/-- The locks of which there are handles: each stands for its chunk in the table, which has different
locks for different chunks. -/
structure Serves (t : LockTable) (live : List (Index × LockId)) : Prop where
  nodup_keys : (Assoc.keys t.locks).Nodup
  nodup_ids : (t.locks.map Prod.snd).Nodup
  lt_nextId : ∀ id ∈ t.locks.map Prod.snd, id < t.nextId
  entry : ∀ e ∈ live, Assoc.find? e.1 t.locks = some e.2
  count_le : ∀ id, (live.map Prod.snd).count id ≤ t.handles.count id

theorem serves_empty : empty.Serves [] where
  nodup_keys := List.nodup_nil
  nodup_ids := List.nodup_nil
  lt_nextId _ hid := absurd hid List.not_mem_nil
  entry _ he := absurd he List.not_mem_nil
  count_le _ := Nat.le_refl _

theorem Serves.perm (h : t.Serves live) (hperm : live'.Perm live) : t.Serves live' :=
  { h with
    entry := fun e he => h.entry e (hperm.mem_iff.1 he)
    count_le := fun id => (hperm.map Prod.snd).count_eq id ▸ h.count_le id }

theorem Serves.id_eq {id' : LockId} (h : t.Serves live) (hid : (chunk, id) ∈ live)
    (hid' : (chunk, id') ∈ live) : id = id' :=
  Option.some.inj ((h.entry _ hid).symm.trans (h.entry _ hid'))

theorem Serves.chunk_eq (h : t.Serves live) (hchunk : (chunk, id) ∈ live)
    (hother : (other, id) ∈ live) : chunk = other := by
  have hmem := Assoc.mem_of_find? (h.entry _ hchunk)
  have hmem' := Assoc.mem_of_find? (h.entry _ hother)
  exact congrArg Prod.fst (List.inj_on_of_nodup_map h.nodup_ids hmem hmem' rfl)

theorem Serves.mem_handles (h : t.Serves live) {e : Index × LockId} (he : e ∈ live) :
    e.2 ∈ t.handles := by
  have hpos := List.count_pos_iff.2 (List.mem_map_of_mem (f := Prod.snd) he)
  exact List.count_pos_iff.1 (Nat.lt_of_lt_of_le hpos (h.count_le e.2))

/-- Pruning takes only locks of which there is no handle. -/
theorem Serves.prune (h : t.Serves live) : t.prune.Serves live := by
  unfold LockTable.prune
  split
  · have hsub := List.filter_sublist (p := fun e => t.handles.contains e.2) (l := t.locks)
    refine ⟨h.nodup_keys.sublist (hsub.map _), h.nodup_ids.sublist (hsub.map _), ?_, ?_, h.count_le⟩
    · exact fun id hid => h.lt_nextId id ((hsub.map _).subset hid)
    · intro e he
      exact Assoc.find?_filter h.nodup_keys (h.entry e he) (List.contains_iff_mem.2 (h.mem_handles he))
  · exact h

theorem get_known (h : Assoc.find? chunk t.prune.locks = some id) :
    t.get chunk = (id, { t.prune with handles := id :: t.prune.handles }) := by
  rw [LockTable.get, h]

theorem get_new (h : Assoc.find? chunk t.prune.locks = none) :
    t.get chunk = (t.prune.nextId, ⟨t.prune.locks ++ [(chunk, t.prune.nextId)],
      t.prune.nextId :: t.prune.handles, t.prune.nextId + 1⟩) := by
  rw [LockTable.get, h, Assoc.set_of_find?_eq_none h]

theorem handles_prune (t : LockTable) : t.prune.handles = t.handles := by
  unfold prune
  split <;> rfl

theorem handles_get (t : LockTable) (chunk : Index) :
    (t.get chunk).2.handles = (t.get chunk).1 :: t.handles := by
  cases h : Assoc.find? chunk t.prune.locks with
  | some id => rw [get_known h, handles_prune]
  | none => rw [get_new h, handles_prune]

theorem size_get_le (t : LockTable) (chunk : Index) : (t.get chunk).2.size ≤ t.prune.size + 1 := by
  cases h : Assoc.find? chunk t.prune.locks with
  | some id =>
    rw [get_known h]
    exact Nat.le_succ _
  | none =>
    rw [get_new h]
    simp [size]

theorem Serves.count_cons (h : t.Serves live) (chunk : Index) (id id' : LockId) :
    (((chunk, id) :: live).map Prod.snd).count id' ≤ (id :: t.handles).count id' := by
  rw [List.map_cons, List.count_cons, List.count_cons]
  exact Nat.add_le_add_right (h.count_le id') _

theorem Serves.get (h : t.Serves live) (chunk : Index) :
    (t.get chunk).2.Serves ((chunk, (t.get chunk).1) :: live) := by
  have hp := h.prune
  cases hfind : Assoc.find? chunk t.prune.locks with
  | some id =>
    rw [get_known hfind]
    refine ⟨hp.nodup_keys, hp.nodup_ids, hp.lt_nextId, ?_, hp.count_cons chunk id⟩
    exact List.forall_mem_cons.2 ⟨hfind, hp.entry⟩
  | none =>
    rw [get_new hfind]
    -- The new lock stands at the end, under a chunk and with an identity that were not there.
    have hkeys : (Assoc.keys (t.prune.locks ++ [(chunk, t.prune.nextId)])).Nodup := by
      rw [← Assoc.set_of_find?_eq_none hfind]
      exact Assoc.nodup_keys_set hp.nodup_keys
    refine ⟨hkeys, ?_, ?_, ?_, hp.count_cons chunk t.prune.nextId⟩
    · rw [List.map_append, List.nodup_append]
      refine ⟨hp.nodup_ids, List.nodup_singleton _, fun id hid id' hid' => ?_⟩
      rw [List.mem_singleton.1 hid']
      exact Nat.ne_of_lt (hp.lt_nextId id hid)
    · intro id hid
      rw [List.map_append] at hid
      rcases List.mem_append.1 hid with hid | hid
      · exact Nat.lt_succ_of_lt (hp.lt_nextId id hid)
      · rw [List.mem_singleton.1 hid]
        exact Nat.lt_succ_self _
    · refine List.forall_mem_cons.2 ⟨?_, fun e he => ?_⟩
      · exact Assoc.find?_of_mem hkeys (List.mem_append_right _ List.mem_cons_self)
      · have hmem := Assoc.mem_of_find? (hp.entry e he)
        exact Assoc.find?_of_mem hkeys (List.mem_append_left _ hmem)

theorem Serves.drop (h : t.Serves ((chunk, id) :: live)) : (t.drop id).Serves live := by
  refine ⟨h.nodup_keys, h.nodup_ids, h.lt_nextId, (List.forall_mem_cons.1 h.entry).2, fun id' => ?_⟩
  have hle := h.count_le id'
  rw [List.map_cons, List.count_cons] at hle
  show _ ≤ (t.handles.erase id).count id'
  rw [List.count_erase]
  exact Nat.le_sub_of_add_le hle

end LockTable

end ChunkedArray
