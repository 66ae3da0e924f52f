import ChunkedArray.Proofs.Array.Workers

/-!
# No update is lost

Calls on different cells, carried out at the same time by workers that share a handle, leave an array
that reads as if the calls had been made one after another, in whatever order.
-/

namespace ChunkedArray

namespace ArrayHandle

variable {t : DataType} {σ : Type} [Store σ] {h : ArrayHandle t} {good : σ → Prop} {s s₁ s' : σ}
  {calls : List (RegionCall t)} {done : List (Task t)}

section

variable (hr : h.Reliable good) (hgood : good s) (hcalls : ∀ c ∈ calls, h.Accepts c)
  (hapart : calls.Pairwise RegionCall.Apart) (hdone : done.Perm (calls.flatMap h.tasksOf))
  (hrun : h.runTasks done s = (.ok (), s₁))

include hr hgood hcalls hapart hdone hrun

theorem readsSame_of_changeAll
    (hchange : h.changeAll (calls.map RegionCall.change) s = (.ok (), s')) :
    h.ReadsSame h s₁ s' := by
  have hwf := hr.wellFormed
  have hserial := (changeAll_eq_ok_iff hwf hcalls).1 hchange
  refine readsSame_of_storedChunk?_eq hwf fun chunk hchunk => storedChunk?_congr ?_
  exact (get_eq_of_perm hr (fun _ hx => hasTask_of_mem hcalls hx) (pairwise_tasks hwf hcalls hapart)
    hdone hgood hserial hrun hchunk).symm

theorem exists_changeAll (haccepts : AcceptsValues σ h.IsChunkKey good)
    (hencodes : h.grid.chunkShape.size * t.byteCount < wordLimit →
      ∀ cells : NdArray t.Element, cells.shape = h.grid.chunkShape →
        ∃ bytes, h.codecs.encode cells = .ok bytes) :
    ∃ s', h.changeAll (calls.map RegionCall.change) s = (.ok (), s') := by
  have hwf := hr.wellFormed
  have htasks : ∀ x ∈ calls.flatMap h.tasksOf, h.HasTask x := fun _ hx => hasTask_of_mem hcalls hx
  have hpairs := pairwise_tasks hwf hcalls hapart
  have hran (x : Task t) (hx : x ∈ calls.flatMap h.tasksOf) :
      (∃ base, h.mergeBase x.part s = .ok base) ∧
        h.grid.chunkShape.size * t.byteCount < wordLimit :=
    exists_base_of_runTasks hr (fun y hy => htasks y (hdone.mem_iff.1 hy))
      (hdone.symm.pairwise hpairs Task.Apart.symm) hgood hrun (hdone.mem_iff.2 hx)
  obtain ⟨s', hserial⟩ := exists_runTasks hr htasks hpairs haccepts
    (fun x hx => hencodes (hran x hx).2) (fun x hx => (hran x hx).1) (done_nil hgood) clear_nil
  exact ⟨s', (changeAll_eq_ok_iff hwf hcalls).2 hserial⟩

end

/-- However the steps of the workers are interleaved: when all have finished, the array reads as after
the calls one by one, in any order. These succeed too, where the store takes what is set and the
supplied codecs encode everything. -/
theorem readsSame_of_runPool {locks : LockTable} {schedule : List Nat} {pool : Pool σ t}
    {order : List (RegionCall t)} (hobtained : h.Obtained (σ := σ))
    (hstore : h.options.storeEmptyChunks = true)
    (hlossless : ∀ c, .custom c ∈ h.codecs.onBytes → c.Lossless)
    (hkeeps : KeepsValues σ h.IsChunkKey good) (hgood : good s) (hlocks : locks.Serves [])
    (hcalls : ∀ c ∈ calls, h.Accepts c) (hapart : calls.Pairwise RegionCall.Apart)
    (hrun : h.runPool (.start s locks (calls.flatMap h.tasksOf)) schedule = some pool)
    (hfinished : pool.Finished) (horder : order.Perm calls) :
    (∀ s', h.changeAll (order.map RegionCall.change) s = (.ok (), s') →
      h.ReadsSame h pool.shared.store s') ∧
    (AcceptsValues σ h.IsChunkKey good → (∀ c, .custom c ∈ h.codecs.onBytes → c.Encodes) →
      ∃ s', h.changeAll (order.map RegionCall.change) s = (.ok (), s')) := by
  have hr : h.Reliable good := ⟨hobtained.wellFormed, hlossless, hkeeps, hstore⟩
  obtain ⟨done, hdone, hserial⟩ := exists_order_of_runPool hr hgood
    (fun x hx => (hasTask_of_mem hcalls hx).isChunk hr.wellFormed) hlocks hrun hfinished
  have hcalls' : ∀ c ∈ order, h.Accepts c := fun c hc => hcalls c (horder.mem_iff.1 hc)
  have hapart' : order.Pairwise RegionCall.Apart := horder.symm.pairwise hapart RegionCall.Apart.symm
  have hdone' : done.Perm (order.flatMap h.tasksOf) := hdone.trans (horder.flatMap_right _).symm
  constructor
  · exact fun s' hchange =>
      readsSame_of_changeAll hr hgood hcalls' hapart' hdone' hserial hchange
  · exact fun haccepts hencodes =>
      exists_changeAll hr hgood hcalls' hapart' hdone' hserial haccepts
        fun hwords cells hshape => hobtained.exists_encode hwords hencodes hshape

/-- Calls on different cells of the first chunk, and the second one on the whole of another. -/
def overlappingCalls : List (RegionCall (.uint .bits16)) :=
  [.fill [⟨0, 2, 1⟩, ⟨0, 2, 1⟩] (DataType.ofPattern _ 9),
    .write [⟨0, 3, 1⟩, ⟨2, 2, 1⟩] (.ofFn [3, 2] rfl fun i =>
      DataType.ofPattern _ (10 * i.headD 0 + i.getLastD 0))]

/-- Both workers on the first chunk have a handle of its lock before one of them acquires it. -/
def interleaving : List Nat :=
  [0, 1, 2, 3, 4] ++ [0, 2, 3, 4] ++ [0, 2, 3, 4] ++ [0, 2, 3, 4] ++ [0, 2, 3, 4] ++ [0, 2, 3, 4] ++
    [1, 1, 0, 1, 2, 1, 1, 3, 1, 4]

theorem accepts_overlapping : ∀ c ∈ overlappingCalls, maskedHandle.Accepts c := by
  have hwf := (Obtained.create (by decide) create_masked).wellFormed
  refine List.forall_mem_cons.2 ⟨accepts_of_isAddressable hwf rfl trivial rfl (by decide), ?_⟩
  exact List.forall_mem_singleton.2 (accepts_of_isAddressable hwf rfl rfl rfl (by decide))

theorem pairwise_overlapping : overlappingCalls.Pairwise RegionCall.Apart := by
  refine List.pairwise_pair.2 fun j k hj hk => ?_
  have hcells : ∀ j ∈ Shape.indices [2, 2], ∀ k ∈ Shape.indices [3, 2],
      Region.index [⟨0, 2, 1⟩, ⟨0, 2, 1⟩] j ≠ Region.index [⟨0, 3, 1⟩, ⟨2, 2, 1⟩] k := by
    decide
  exact hcells j (Shape.mem_indices_iff.2 hj) k (Shape.mem_indices_iff.2 hk)

theorem readsSame_of_runPool_overlapping :
    ∃ (pool : Pool MemoryStore (.uint .bits16)) (s' : MemoryStore),
      maskedHandle.runPool (.start maskedStore .empty (overlappingCalls.flatMap maskedHandle.tasksOf))
        interleaving = some pool ∧ pool.Finished ∧
      maskedHandle.changeAll (overlappingCalls.reverse.map RegionCall.change) maskedStore =
        (.ok (), s') ∧
      maskedHandle.ReadsSame maskedHandle pool.shared.store s' := by
  have hfinishes : ((maskedHandle.runPool (.start maskedStore .empty
      (overlappingCalls.flatMap maskedHandle.tasksOf)) interleaving).any
        fun pool => decide pool.Finished) = true := by
    decide +kernel
  obtain ⟨pool, hrun, hfinished⟩ := (Option.any_eq_true _ _).1 hfinishes
  have hfinished := of_decide_eq_true hfinished
  obtain ⟨hreads, hsucceeds⟩ := readsSame_of_runPool (.create (by decide) create_masked) rfl
    (fun _ hc => (custom_masked hc).1) (MemoryStore.keepsValues _) trivial LockTable.serves_empty
    accepts_overlapping pairwise_overlapping hrun hfinished (List.reverse_perm _)
  obtain ⟨s', hchange⟩ := hsucceeds (MemoryStore.acceptsValues _) fun _ hc => (custom_masked hc).2
  exact ⟨pool, s', hrun, hfinished, hchange, hreads s' hchange⟩

end ArrayHandle

end ChunkedArray
