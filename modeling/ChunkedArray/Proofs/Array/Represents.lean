import ChunkedArray.Proofs.Array.Chunks
import ChunkedArray.Proofs.Array.Plain
import ChunkedArray.Proofs.Grid.Partition
import ChunkedArray.Proofs.NdArray.Parts

/-!
# Stores that represent a plain array

A store represents a plain array if every chunk is either stored and has the cells of the plain array
in the part of it that lies inside the array, or is not stored and these cells all have the fill
value. Each operation that succeeds takes a store that represents a plain array to one that represents
the changed plain array.
-/

namespace ChunkedArray

namespace ArrayHandle

variable {t : DataType} {σ : Type} [Store σ] {h : ArrayHandle t} {good : σ → Prop} {s s' : σ}
  {plain plain' : Index → t.Element} {chunk : Index}

/-- What is stored of a chunk shows the plain array, as far as the chunk lies inside the array. -/
structure ShowsChunk (h : ArrayHandle t) (plain : Index → t.Element) (chunk : Index)
    (stored : Option (NdArray t.Element)) : Prop where
  shape_eq : ∀ cells ∈ stored, cells.shape = h.grid.chunkShape
  cell_eq : ∀ place : Index, place.Inside (h.grid.chunkExtent chunk h.shape) →
    plain (h.grid.cellAt chunk place) = stored.elim h.fillValue (·.cell place)

structure Represents (h : ArrayHandle t) (good : σ → Prop) (plain : Index → t.Element) (s : σ) :
    Prop where
  isGood : good s
  shows : ∀ chunk, h.IsChunk chunk →
    ∃ stored, h.storedChunk? chunk s = .ok stored ∧ h.ShowsChunk plain chunk stored

/-! ### Cells of a chunk -/

theorem inside_chunkShape (hwf : h.WellFormed) (hchunk : h.IsChunk chunk) {place : Index}
    (hplace : place.Inside (h.grid.chunkExtent chunk h.shape)) : place.Inside h.grid.chunkShape :=
  RegularGrid.inside_chunkShape hwf.cuts (hchunk.length_eq hwf) hplace

theorem cellAt_spec (hwf : h.WellFormed) (hchunk : h.IsChunk chunk) {place : Index}
    (hplace : place.Inside (h.grid.chunkExtent chunk h.shape)) :
    (h.grid.cellAt chunk place).Inside h.shape ∧ h.grid.chunkOf (h.grid.cellAt chunk place) = chunk ∧
      h.grid.placeOf (h.grid.cellAt chunk place) = place :=
  RegularGrid.cellAt_spec hwf.cuts (hchunk.length_eq hwf) hplace

theorem cellAt_injective (hwf : h.WellFormed) (hchunk : h.IsChunk chunk) (j k : Index)
    (hj : j.Inside (h.grid.chunkExtent chunk h.shape))
    (hk : k.Inside (h.grid.chunkExtent chunk h.shape))
    (he : h.grid.cellAt chunk j = h.grid.cellAt chunk k) : j = k := by
  rw [← (cellAt_spec hwf hchunk hj).2.2, ← (cellAt_spec hwf hchunk hk).2.2, he]

/-- It is enough to follow one chunk if the plain array changes in that chunk alone. -/
theorem Represents.change (hwf : h.WellFormed) (hrep : h.Represents good plain s)
    {stored : Option (NdArray t.Element)} (hchange : h.ChunkChanged good chunk stored s s')
    (hshows : h.ShowsChunk plain' chunk stored)
    (hothers : ∀ i : Index, i.Inside h.shape → h.grid.chunkOf i ≠ chunk → plain' i = plain i) :
    h.Represents good plain' s' := by
  refine ⟨hchange.isGood, fun other hother => ?_⟩
  -- Other chunks are stored as before, and their cells are in no other chunk.
  by_cases hne : other = chunk
  · subst hne
    exact ⟨stored, hchange.stored_eq, hshows⟩
  · obtain ⟨kept, hkept, hshape, hcell⟩ := hrep.shows other hother
    refine ⟨kept, (hchange.others other hother hne).trans hkept, hshape, fun place hplace => ?_⟩
    obtain ⟨hinside, hchunk, -⟩ := cellAt_spec hwf hother hplace
    rw [hothers _ hinside (fun he => hne (hchunk.symm.trans he)), hcell place hplace]

/-- Only the cells inside the array matter. -/
theorem Represents.congr (hwf : h.WellFormed) (hrep : h.Represents good plain s)
    (he : ∀ i : Index, i.Inside h.shape → plain' i = plain i) : h.Represents good plain' s := by
  refine ⟨hrep.isGood, fun chunk hchunk => ?_⟩
  obtain ⟨stored, hstored, hshape, hcell⟩ := hrep.shows chunk hchunk
  refine ⟨stored, hstored, hshape, fun place hplace => ?_⟩
  rw [he _ (cellAt_spec hwf hchunk hplace).1, hcell place hplace]

theorem represents_fill (hs : good s)
    (hempty : ∀ chunk, h.IsChunk chunk → Store.get (h.chunkKey chunk) s = .ok none) :
    h.Represents good (fun _ => h.fillValue) s := by
  refine ⟨hs, fun chunk hchunk => ⟨none, storedChunk?_eq_none (hempty chunk hchunk), ?_, ?_⟩⟩
  · exact fun cells hcells => by cases hcells
  · exact fun _ _ => rfl

/-! ### Whole chunks -/

/-- The plain array with the cells of a chunk replaced. -/
def overwriteChunk (h : ArrayHandle t) (chunk : Index) (f : Index → t.Element)
    (plain : Index → t.Element) : Index → t.Element :=
  overwrite (h.grid.chunkExtent chunk h.shape) (h.grid.cellAt chunk) f plain

theorem overwriteChunk_cellAt (hwf : h.WellFormed) (hchunk : h.IsChunk chunk)
    (f : Index → t.Element) {place : Index}
    (hplace : place.Inside (h.grid.chunkExtent chunk h.shape)) :
    h.overwriteChunk chunk f plain (h.grid.cellAt chunk place) = f place :=
  overwrite_index (cellAt_injective hwf hchunk) hplace

theorem overwriteChunk_of_ne (hwf : h.WellFormed) (hchunk : h.IsChunk chunk)
    (f : Index → t.Element) {i : Index} (hne : h.grid.chunkOf i ≠ chunk) :
    h.overwriteChunk chunk f plain i = plain i := by
  refine overwrite_of_ne fun place hplace he => hne ?_
  rw [← he]
  exact (cellAt_spec hwf hchunk hplace).2.1

theorem Represents.writeChunk (hr : h.Reliable good) (hrep : h.Represents good plain s)
    {cells : NdArray t.Element} (hrun : h.writeChunk chunk cells s = (.ok (), s')) :
    h.Represents good (h.overwriteChunk chunk cells.cell plain) s' := by
  unfold ArrayHandle.writeChunk at hrun
  obtain ⟨_, s₁, hread, hrest⟩ := StoreAction.bind_eq_ok_iff.1 hrun
  obtain ⟨hcheck, rfl⟩ := StoreAction.reading_eq_ok_iff.1 hread
  obtain ⟨hguard, hstore⟩ := StoreAction.guard_eq_ok_iff.1 hrest
  have hchunk := (checkChunk_eq_ok_iff hr.wellFormed).1 hcheck
  have hshape := not_not.1 hguard
  have hchange := chunkChanged_storeChunk hr hrep.isGood hchunk hshape hstore
  refine hrep.change hr.wellFormed hchange ⟨?_, fun place hplace => ?_⟩ fun i _ hne => ?_
  · rintro _ ⟨⟩
    exact hshape
  · exact overwriteChunk_cellAt hr.wellFormed hchunk cells.cell hplace
  · exact overwriteChunk_of_ne hr.wellFormed hchunk cells.cell hne

theorem Represents.eraseChunk (hr : h.Reliable good) (hrep : h.Represents good plain s)
    {found : Bool} (hrun : h.eraseChunk chunk s = (.ok found, s')) :
    h.Represents good (h.overwriteChunk chunk (fun _ => h.fillValue) plain) s' := by
  unfold ArrayHandle.eraseChunk at hrun
  obtain ⟨_, s₁, hread, herase⟩ := StoreAction.bind_eq_ok_iff.1 hrun
  obtain ⟨hcheck, rfl⟩ := StoreAction.reading_eq_ok_iff.1 hread
  have hchunk := (checkChunk_eq_ok_iff hr.wellFormed).1 hcheck
  have hchange := chunkChanged_erase hr hrep.isGood hchunk herase
  refine hrep.change hr.wellFormed hchange ⟨?_, fun place hplace => ?_⟩ fun i _ hne => ?_
  · exact fun cells hcells => by cases hcells
  · exact overwriteChunk_cellAt hr.wellFormed hchunk _ hplace
  · exact overwriteChunk_of_ne hr.wellFormed hchunk _ hne

end ArrayHandle

end ChunkedArray
