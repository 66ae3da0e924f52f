import ChunkedArray.Proofs.Array.Regions

/-!
# Reading

From a store that represents a plain array, chunks, regions and selections are read with the values of
the plain array, as long as there is room for what is read and its chunks end in words.
-/

namespace ChunkedArray

namespace ArrayHandle

variable {t : DataType} {σ : Type} [Store σ] {h : ArrayHandle t} {good : σ → Prop} {s : σ}
  {plain : Index → t.Element} {region : Region} {p : ChunkPart}

theorem Represents.readChunk (hwf : h.WellFormed) (hrep : h.Represents good plain s) {chunk : Index}
    (hcheck : h.checkChunk chunk = .ok ()) (hroom : t.HasRoomFor h.grid.chunkShape) :
    ∃ cells, h.readChunk chunk s = .ok cells ∧ cells.shape = h.grid.chunkShape ∧
      ∀ place : Index, place.Inside (h.grid.chunkExtent chunk h.shape) →
        cells.cell place = plain (h.grid.cellAt chunk place) := by
  have hchunk := (checkChunk_eq_ok_iff hwf).1 hcheck
  have hread : ∃ cells, h.chunkOrFill chunk s = .ok cells := by
    obtain ⟨stored, hstored, -⟩ := hrep.shows chunk hchunk
    rw [chunkOrFill, hstored, Outcome.ok_bind]
    cases stored with
    | some cells => exact ⟨cells, rfl⟩
    | none =>
      obtain ⟨cells, hcells⟩ := NdArray.exists_filled hroom h.fillValue
      exact ⟨cells, by simp [filled, hcells]⟩
  obtain ⟨cells, hcells⟩ := hread
  refine ⟨cells, ?_, chunkOrFill_spec hrep hchunk hwf hcells⟩
  rw [ArrayHandle.readChunk, hcheck, Outcome.ok_bind, hcells]

/-! ### Regions -/

/-- Some cells of the region are read, the others have the fill value. -/
structure PartlyRead (h : ArrayHandle t) (plain : Index → t.Element) (region : Region)
    (out : NdArray t.Element) : Prop where
  shape_eq : out.shape = region.shape
  fill_or_read : ∀ j : Index, j.Inside region.shape →
    out.cell j = h.fillValue ∨ out.cell j = plain (region.index j)

theorem PartlyRead.step {out out' : NdArray t.Element} (hout : h.PartlyRead plain region out)
    (hshape : out'.shape = region.shape)
    (hheld : ∀ j : Index, j.Inside region.shape → p.Holds j → out'.cell j = plain (region.index j))
    (hleft : ∀ j : Index, j.Inside region.shape → ¬ p.Holds j → out'.cell j = out.cell j) :
    h.PartlyRead plain region out' ∧
      ∀ j : Index, j.Inside region.shape → p.Holds j ∨ out.cell j = plain (region.index j) →
        out'.cell j = plain (region.index j) := by
  refine ⟨⟨hshape, fun j hj => ?_⟩, fun j hj hset => ?_⟩
  · by_cases hpj : p.Holds j
    · exact .inr (hheld j hj hpj)
    · rw [hleft j hj hpj]
      exact hout.fill_or_read j hj
  · by_cases hpj : p.Holds j
    · exact hheld j hj hpj
    · rw [hleft j hj hpj]
      exact hset.resolve_left hpj

/-- Reading a part reads its cells and leaves the cells that are read already. -/
theorem readPart_spec (hwf : h.WellFormed) (hfits : region.Fits h.shape)
    (hp : p ∈ h.grid.regionParts region) {stored : Option (NdArray t.Element)}
    (hstored : h.storedChunk? p.chunk s = .ok stored) (hshows : h.ShowsChunk plain p.chunk stored)
    {out : NdArray t.Element} (hout : h.PartlyRead plain region out) :
    ∃ out', h.readPart s out p = .ok out' ∧ h.PartlyRead plain region out' ∧
      ∀ j : Index, j.Inside region.shape → p.Holds j ∨ out.cell j = plain (region.index j) →
        out'.cell j = plain (region.index j) := by
  have hpart := isPartOf_of_mem hwf hfits hp
  have hextent := hpart.inChunk_fits hwf.cuts.pos hfits
  have hcell {k : Index} (hk : k.Inside p.inRegion.shape) :
      plain (region.index (p.inRegion.index k)) =
        stored.elim h.fillValue (·.cell (p.inChunk.index k)) := by
    rw [← part_cellAt hwf hfits hp hk]
    exact hshows.cell_eq _ (hextent.index_inside (hpart.shape_eq ▸ hk))
  rw [ArrayHandle.readPart, hstored, Outcome.ok_bind]
  -- Nothing is stored where all cells have the fill value, as those of the result do.
  cases stored with
  | none =>
    refine ⟨out, rfl, hout.step hout.shape_eq (fun j hj hpj => ?_) fun _ _ _ => rfl⟩
    obtain ⟨k, hk, rfl⟩ := hpj
    exact (hout.fill_or_read _ hj).elim (fun hfill => hfill.trans (hcell hk).symm) id
  | some cells =>
    have hin := hpart.inChunk_fits_lengths hwf.cuts.pos hfits
    obtain ⟨src, hsrc, hsrcShape, hsrcCell⟩ :=
      NdArray.slice_spec (a := cells) (hshows.shape_eq cells rfl ▸ hin)
    obtain ⟨out', hout', hreplaced⟩ := NdArray.assign_spec (a := out)
      (hout.shape_eq ▸ hpart.inRegion_fits) (hsrcShape.trans hpart.shape_eq)
    refine ⟨out', by simp [hsrc, hout'], hout.step (hreplaced.shape_eq.trans hout.shape_eq)
      (fun j _ hpj => ?_) fun j hj hpj => ?_⟩
    · obtain ⟨k, hk, rfl⟩ := hpj
      rw [hreplaced.cell_index k hk, hsrcCell k (hpart.shape_eq ▸ hk), hcell hk]
      rfl
    · exact hreplaced.cell_of_ne j (hout.shape_eq ▸ hj) fun k hk he => hpj ⟨k, hk, he⟩

theorem readParts_spec (hwf : h.WellFormed) (hfits : region.Fits h.shape) {parts : List ChunkPart}
    (hparts : ∀ p ∈ parts, p ∈ h.grid.regionParts region)
    (hshows : ∀ p ∈ parts, ∃ stored, h.storedChunk? p.chunk s = .ok stored ∧
      h.ShowsChunk plain p.chunk stored)
    {out : NdArray t.Element} (hout : h.PartlyRead plain region out) :
    ∃ out', h.readParts parts out s = .ok out' ∧ out'.shape = region.shape ∧
      ∀ j : Index, j.Inside region.shape →
        (∃ p ∈ parts, p.Holds j) ∨ out.cell j = plain (region.index j) →
        out'.cell j = plain (region.index j) := by
  induction parts generalizing out with
  | nil =>
    refine ⟨out, rfl, hout.shape_eq, fun j _ hset => hset.resolve_left ?_⟩
    rintro ⟨p, hp, -⟩
    cases hp
  | cons p parts ih =>
    rw [List.forall_mem_cons] at hparts hshows
    obtain ⟨stored, hstored, hshown⟩ := hshows.1
    obtain ⟨next, hnext, hpartly, hread⟩ := readPart_spec hwf hfits hparts.1 hstored hshown hout
    obtain ⟨out', hout', hshape, hall⟩ := ih hparts.2 hshows.2 hpartly
    refine ⟨out', ?_, hshape, fun j hj hset => hall j hj ?_⟩
    · rw [ArrayHandle.readParts, List.foldlM_cons, hnext]
      exact hout'
    · rcases hset with ⟨q, hq, hqj⟩ | hset
      · rcases List.mem_cons.1 hq with rfl | hq
        · exact .inr (hread j hj (.inl hqj))
        · exact .inl ⟨q, hq, hqj⟩
      · exact .inr (hread j hj (.inr hset))

theorem Represents.readRegion (hwf : h.WellFormed) (hrep : h.Represents good plain s)
    (hfits : region.Fits h.shape) (hroom : t.HasRoomFor region.shape)
    (hends : h.grid.EndsInWords region) :
    ∃ out, h.readRegion region s = .ok out ∧ out.shape = region.shape ∧
      ∀ j : Index, j.Inside region.shape → out.cell j = plain (region.index j) := by
  have hwords := RegularGrid.countsInWords_of_isAddressable hwf.cuts hfits hroom.1 hends
  have hparts := partsOf_of_fits hwf hfits hwords
  have htoList := (partsOf_spec hwf hparts).2
  obtain ⟨start, hstart⟩ := NdArray.exists_filled hroom h.fillValue
  obtain ⟨hshape, hfill⟩ := NdArray.filled_spec hstart
  have hpartly : h.PartlyRead plain region start := ⟨hshape, fun j hj => .inl (hfill j hj)⟩
  obtain ⟨out, hout, houtShape, hread⟩ := readParts_spec hwf hfits (fun _ hp => hp)
    (fun p hp => hrep.shows p.chunk (isChunk_part hwf hfits hp)) hpartly
  refine ⟨out, ?_, houtShape, fun j hj => hread j hj (.inl ?_)⟩
  · rw [ArrayHandle.readRegion, hparts, Outcome.ok_bind, filled, hstart, Checked.guarded_ok,
      Outcome.ok_bind, htoList, hout]
  · exact RegularGrid.exists_part hwf.cuts hfits hj

/-- If the end of a chunk is no word, nothing is read. -/
theorem readRegion_eq_overflow (hwf : h.WellFormed) (hfits : region.Fits h.shape)
    (hends : ¬ h.grid.EndsInWords region) (s : σ) :
    h.readRegion region s = .error (.violation .overflow) := by
  rw [ArrayHandle.readRegion, partsOf_eq_overflow hwf hfits fun hwords => hends hwords.ends]
  rfl

theorem Represents.readSelection (hwf : h.WellFormed) (hrep : h.Represents good plain s)
    {selection : Selection} {r : ResolvedSelection} (hresolve : selection.resolve h.shape = .ok r)
    (hroom : t.HasRoomFor r.region.shape) (hends : h.grid.EndsInWords r.region) :
    ∃ out, h.readSelection selection s = .ok out ∧ out.shape = selection.pickedShape h.shape ∧
      ∀ j : Index, j.Inside (selection.pickedShape h.shape) →
        out.cell j = plain (selection.pickedIndex h.shape j) := by
  obtain ⟨hresolves, -⟩ := Selection.resolve_spec hresolve
  obtain ⟨cells, hcells, hshape, hread⟩ := hrep.readRegion hwf hresolves.fits hroom hends
  obtain ⟨out, hout, houtShape, hcell⟩ := Selection.dropAxes_spec hresolve hshape
  rw [hresolves.pickedShape_eq]
  refine ⟨out, ?_, houtShape, fun j hj => ?_⟩
  · rw [ArrayHandle.readSelection, hresolve, Checked.report_ok, Outcome.ok_bind, hcells,
      Outcome.ok_bind, hout]
    rfl
  · rw [hcell j hj, hread _ (hresolves.restoreIndexed_inside hj), hresolves.pickedIndex_eq hj]

theorem readSelection_eq_overflow (hwf : h.WellFormed) {selection : Selection}
    {r : ResolvedSelection} (hresolve : selection.resolve h.shape = .ok r)
    (hends : ¬ h.grid.EndsInWords r.region) (s : σ) :
    h.readSelection selection s = .error (.violation .overflow) := by
  obtain ⟨hresolves, -⟩ := Selection.resolve_spec hresolve
  rw [ArrayHandle.readSelection, hresolve, Checked.report_ok, Outcome.ok_bind,
    readRegion_eq_overflow hwf hresolves.fits hends]
  rfl

/-! ### Stores with the same chunks -/

/-- Everything that is read through the two handles from two stores is the same. -/
structure ReadsSame (h h' : ArrayHandle t) (s s' : σ) : Prop where
  chunk : ∀ chunk, h.readChunk chunk s = h'.readChunk chunk s'
  region : ∀ region, h.readRegion region s = h'.readRegion region s'
  selection : ∀ selection, h.readSelection selection s = h'.readSelection selection s'

theorem readsSame_of_forall {s' : σ}
    (hsame : ∀ chunk, h.storedChunk? chunk s = h.storedChunk? chunk s') : h.ReadsSame h s s' := by
  have hpart : h.readPart s = h.readPart s' := by
    funext out p
    rw [ArrayHandle.readPart, ArrayHandle.readPart, hsame]
  have hregion (region : Region) : h.readRegion region s = h.readRegion region s' := by
    rw [ArrayHandle.readRegion, ArrayHandle.readRegion]
    simp only [ArrayHandle.readParts, hpart]
  refine ⟨fun chunk => ?_, hregion, fun selection => ?_⟩
  · rw [ArrayHandle.readChunk, ArrayHandle.readChunk, chunkOrFill_congr (hsame chunk)]
  · rw [ArrayHandle.readSelection, ArrayHandle.readSelection]
    simp only [hregion]

section

variable {s' : σ} (hwf : h.WellFormed)
  (hsame : ∀ chunk, h.IsChunk chunk → h.storedChunk? chunk s = h.storedChunk? chunk s')

include hwf hsame

theorem readChunk_congr (chunk : Index) : h.readChunk chunk s = h.readChunk chunk s' := by
  rw [ArrayHandle.readChunk, ArrayHandle.readChunk]
  cases hcheck : h.checkChunk chunk with
  | error e => rfl
  | ok _ => exact chunkOrFill_congr (hsame chunk ((checkChunk_eq_ok_iff hwf).1 hcheck))

theorem readParts_congr (hfits : region.Fits h.shape) {parts : List ChunkPart}
    (hparts : ∀ p ∈ parts, p ∈ h.grid.regionParts region) (out : NdArray t.Element) :
    h.readParts parts out s = h.readParts parts out s' := by
  induction parts generalizing out with
  | nil => rfl
  | cons p parts ih =>
    rw [List.forall_mem_cons] at hparts
    have hpart : h.readPart s out p = h.readPart s' out p := by
      rw [ArrayHandle.readPart, ArrayHandle.readPart, hsame p.chunk (isChunk_part hwf hfits hparts.1)]
    rw [ArrayHandle.readParts, ArrayHandle.readParts, List.foldlM_cons, List.foldlM_cons, hpart]
    exact bind_congr fun next => ih hparts.2 next

theorem readRegion_congr (region : Region) : h.readRegion region s = h.readRegion region s' := by
  rw [ArrayHandle.readRegion, ArrayHandle.readRegion]
  cases hparts : h.partsOf region with
  | error e => rfl
  | ok parts =>
    obtain ⟨hfits, htoList⟩ := partsOf_spec hwf hparts
    rw [Outcome.ok_bind, Outcome.ok_bind, htoList]
    exact bind_congr fun out => readParts_congr hwf hsame hfits (fun _ hp => hp) out

/-- What is read depends on the chunks alone. -/
theorem readsSame_of_storedChunk?_eq : h.ReadsSame h s s' := by
  refine ⟨readChunk_congr hwf hsame, readRegion_congr hwf hsame, fun selection => ?_⟩
  rw [ArrayHandle.readSelection, ArrayHandle.readSelection]
  exact bind_congr fun r => by rw [readRegion_congr hwf hsame r.region]

end

end ArrayHandle

end ChunkedArray
