import ChunkedArray.Proofs.Array.AnyOrder

/-!
# Reading and writing selections

What is read of a selection is what is read of its region, without the axes along which one index is
selected. Data with these axes and without them are written alike, and are read back from the region
that was written, whatever else the store holds.
-/

namespace ChunkedArray

/-! ### Arrays with and without the dropped axes -/

namespace Selection

variable {α : Type} [Inhabited α] {selection : Selection} {shape : Shape} {r : ResolvedSelection}
  {a b c : NdArray α}

/-- The second array is the first without the axes along which one index is selected. -/
structure Drops (selection : Selection) (a b : NdArray α) : Prop where
  shape_eq : b.shape = dropIndexed selection a.shape
  cell_eq : ∀ i : Index, i.Inside a.shape → b.cell (dropIndexed selection i) = a.cell i

section

variable (hresolve : selection.resolve shape = .ok r)

include hresolve

theorem Drops.unique (ha : a.shape = r.region.shape) (hb : selection.Drops a b)
    (hc : selection.Drops a c) : b = c := by
  obtain ⟨hresolves, -⟩ := resolve_spec hresolve
  refine NdArray.ext_cell (hb.shape_eq.trans hc.shape_eq.symm) fun j hj => ?_
  rw [hb.shape_eq, ha] at hj
  have hin := hresolves.restoreIndexed_inside hj
  rw [← ha] at hin
  rw [← hresolves.dropIndexed_restoreIndexed hj, hb.cell_eq _ hin, hc.cell_eq _ hin]

omit hresolve in
theorem Drops.unique_full (ha : a.shape = r.region.shape) (hb : b.shape = r.region.shape)
    (hac : selection.Drops a c) (hbc : selection.Drops b c) : a = b := by
  refine NdArray.ext_cell (ha.trans hb.symm) fun i hi => ?_
  rw [← hac.cell_eq i hi, hbc.cell_eq i (by rwa [hb, ← ha])]

theorem exists_dropAxes (ha : a.shape = r.region.shape) :
    ∃ b, r.dropAxes a = .ok b ∧ selection.Drops a b := by
  obtain ⟨hresolves, -⟩ := resolve_spec hresolve
  obtain ⟨b, hb, hshape, hcell⟩ := dropAxes_spec hresolve ha
  refine ⟨b, hb, ha ▸ hshape, fun i hi => ?_⟩
  obtain ⟨hin, hback⟩ := hresolves.restoreIndexed_dropIndexed (ha ▸ hi)
  rw [hcell _ hin, hback]

theorem dropAxes_eq_ok_iff (ha : a.shape = r.region.shape) :
    r.dropAxes a = .ok b ↔ selection.Drops a b := by
  obtain ⟨c, hc, hdrops⟩ := exists_dropAxes hresolve ha
  constructor
  · intro hb
    obtain rfl := Except.ok.inj (hc.symm.trans hb)
    exact hdrops
  · intro hb
    rw [hc, hb.unique hresolve ha hdrops]

theorem exists_restoreAxes (hb : b.shape = dropIndexed selection r.region.shape) :
    ∃ a, r.restoreAxes b = .ok a ∧ a.shape = r.region.shape ∧ selection.Drops a b := by
  obtain ⟨a, ha, hshape, hcell⟩ := restoreAxes_spec hresolve hb
  refine ⟨a, ha, hshape, ?_, fun i hi => ?_⟩
  · rw [hshape, hb]
  · rw [hcell i (hshape ▸ hi)]

/-- If nothing is dropped from the shape, then nothing is dropped from an array. -/
theorem Drops.eq_of_shape (ha : a.shape = r.region.shape) (hdrops : selection.Drops a b)
    (hb : b.shape = r.region.shape) : b = a := by
  obtain ⟨hresolves, hdropped⟩ := resolve_spec hresolve
  have hlength := length_dropIndexed 0 hresolves.length_eq
  rw [← ha, ← hdrops.shape_eq, hb, ha, ← hdropped] at hlength
  have hnone : r.dropped = [] := List.eq_nil_of_length_eq_zero (by omega)
  have hrestored : r.restoreAxes b = .ok b := by
    rw [ResolvedSelection.restoreAxes, hnone]
    rfl
  obtain ⟨c, hc, hcshape, hcb⟩ := exists_restoreAxes hresolve (ha ▸ hdrops.shape_eq)
  obtain rfl := Except.ok.inj (hrestored.symm.trans hc)
  exact hcb.unique_full hcshape ha hdrops

end

end Selection

namespace ArrayHandle

variable {t : DataType} {σ : Type} [Store σ] {h : ArrayHandle t} {good : σ → Prop} {s s' : σ}
  {region : Region} {call : RegionCall t} {selection : Selection} {r : ResolvedSelection}
  {data full out : NdArray t.Element}

/-! ### Reading back a region -/

/-- The chunks of a region that was written or filled can be read, and show what was written. -/
theorem shown_of_change (hr : h.Reliable good) (hs : good s) (hcall : h.Accepts call)
    (hrun : h.change call.change s = (.ok (), s')) :
    (∀ p ∈ h.grid.regionParts call.region, ∃ stored, h.storedChunk? p.chunk s' = .ok stored) ∧
      ∀ j : Index, j.Inside call.region.shape →
        h.shown s' (call.region.index j) = call.value j := by
  have hwf := hr.wellFormed
  have hfits := hcall.fits hwf
  have hdone := done_of_runTasks hr (fun x hx => hcall.hasTask hx) (pairwise_tasksOf hwf hcall) hs
    ((change_eq_ok_iff hwf hcall).1 hrun)
  have hwritten (p : ChunkPart) (hp : p ∈ h.grid.regionParts call.region) :
      ∃ cells, h.storedChunk? p.chunk s' = .ok (some cells) ∧
        ∀ k : Index, k.Inside p.inChunk.shape →
          cells.cell (p.inChunk.index k) = call.value (p.inRegion.index k) := by
    have hx : Task.mk call p ∈ (h.tasksOf call).reverse ++ [] := by
      rw [List.append_nil]
      exact List.mem_reverse.2 (List.mem_map_of_mem hp)
    obtain ⟨base, cells, bytes, hbase, hw⟩ := hdone.written _ hx
    have htask : h.HasTask ⟨call, p⟩ := ⟨hcall, hp⟩
    have hshape := hw.merged.shape_eq.trans (shape_mergeBase hwf htask hbase)
    refine ⟨cells, storedChunk?_of_encode hr hshape hw.encode_eq hw.get_eq, fun k hk => ?_⟩
    exact hw.merged.cell_set _ (mem_tasksOn.2 ⟨hx, rfl⟩) k hk
  constructor
  · intro p hp
    obtain ⟨cells, hcells, -⟩ := hwritten p hp
    exact ⟨some cells, hcells⟩
  · intro j hj
    obtain ⟨p, hp, k, hk, rfl⟩ := RegularGrid.exists_part hwf.cuts hfits hj
    obtain ⟨cells, hcells, hcell⟩ := hwritten p hp
    have hk' : k.Inside p.inChunk.shape := (isPartOf_of_mem hwf hfits hp).shape_eq ▸ hk
    rw [shown_of_storedChunk? (by rwa [part_chunkOf hwf hfits hp hk]), part_placeOf hwf hfits hp hk]
    exact hcell k hk'

/-- A region that was written is read back, if there is room for it. -/
theorem readRegion_of_writeRegion (hr : h.Reliable good) (hs : good s)
    (hrun : h.writeRegion region data s = (.ok (), s')) :
    h.readRegion region s' = .ok out ↔ t.HasRoomFor region.shape ∧ out = data := by
  have hwf := hr.wellFormed
  have hcall : h.Accepts (.write region data) := by
    by_contra hrefused
    obtain ⟨e, he⟩ := change_of_not_accepts hwf hrefused s
    cases congrArg Prod.fst (he.symm.trans hrun)
  have hfits : region.Fits h.shape := hcall.fits hwf
  have hparts := partsOf_of_fits hwf hfits hcall.words
  obtain ⟨hstored, hshown⟩ := shown_of_change hr hs hcall hrun
  rw [readRegion_eq hparts, readInOrder_eq_ok_iff hwf hfits (.of_eq (partsOf_spec hwf hparts).2)]
  refine and_congr_right fun _ => ?_
  constructor
  · rintro ⟨-, hshape, hcell⟩
    refine NdArray.ext_cell (hshape.trans hcall.fills.symm) fun j hj => ?_
    rw [hshape] at hj
    rw [hcell j hj]
    exact hshown j hj
  · rintro rfl
    exact ⟨hstored, hcall.fills, fun j hj => (hshown j hj).symm⟩

/-! ### Selections -/

theorem shape_of_readRegion (hwf : h.WellFormed) (hread : h.readRegion region s = .ok out) :
    out.shape = region.shape := by
  have hends := ends_readRegion hwf region s
  rw [hread] at hends
  exact hends

section

variable (hresolve : selection.resolve h.shape = .ok r)

include hresolve

theorem readSelection_eq_ok_iff (hwf : h.WellFormed) : h.readSelection selection s = .ok out ↔
    ∃ cells, h.readRegion r.region s = .ok cells ∧ selection.Drops cells out := by
  rw [readSelection, hresolve, Checked.report_ok, Outcome.ok_bind, Outcome.bind_eq_ok_iff]
  refine exists_congr fun cells => and_congr_right fun hread => ?_
  rw [Checked.guarded_eq_ok_iff,
    Selection.dropAxes_eq_ok_iff hresolve (shape_of_readRegion hwf hread)]

theorem dataForRegion_eq_ok_iff : dataForRegion r data = .ok full ↔
    full.shape = r.region.shape ∧ (data = full ∨ selection.Drops full data) := by
  rw [dataForRegion, Selection.outputShape_eq hresolve]
  by_cases hfull : data.shape = r.region.shape
  · rw [if_pos hfull, Except.ok.injEq]
    constructor
    · rintro rfl
      exact ⟨hfull, .inl rfl⟩
    · rintro ⟨hshape, rfl | hdrops⟩
      · rfl
      · exact hdrops.eq_of_shape hresolve hshape hfull
  · rw [if_neg hfull]
    by_cases hdropped : data.shape = Selection.dropIndexed selection r.region.shape
    · rw [if_neg (not_not.2 hdropped), Checked.guarded_eq_ok_iff]
      obtain ⟨a, ha, hshape, hdrops⟩ := Selection.exists_restoreAxes hresolve hdropped
      rw [ha, Except.ok.injEq]
      constructor
      · rintro rfl
        exact ⟨hshape, .inr hdrops⟩
      · rintro ⟨hshape', rfl | hdrops'⟩
        · exact absurd hshape' hfull
        · exact hdrops.unique_full hshape hshape' hdrops'
    · rw [if_pos hdropped]
      constructor
      · exact nofun
      · rintro ⟨hshape, rfl | hdrops⟩
        · exact absurd hshape hfull
        · exact absurd (hshape ▸ hdrops.shape_eq) hdropped

theorem writeSelection_eq (hdata : dataForRegion r data = .ok full) (s : σ) :
    h.writeSelection selection data s = h.writeRegion r.region full s := by
  rw [writeSelection, hresolve, StoreAction.reading_bind_apply]
  show (StoreAction.reading (fun _ => dataForRegion r data) >>= fun full =>
    h.writeRegion r.region full) s = _
  rw [StoreAction.reading_bind_apply, hdata]

theorem dataForRegion_of_writeSelection
    (hrun : h.writeSelection selection data s = (.ok (), s')) :
    ∃ full, dataForRegion r data = .ok full := by
  rw [writeSelection, hresolve, StoreAction.reading_bind_apply] at hrun
  obtain ⟨full, _, hread, -⟩ := StoreAction.bind_eq_ok_iff.1 hrun
  exact ⟨full, (StoreAction.reading_eq_ok_iff.1 hread).1⟩

end

/-- Reading and writing a selection that resolves to a region, with data that have all axes or lack
those along which one index is selected. -/
structure AccessesExactly (h : ArrayHandle t) (good : σ → Prop) (selection : Selection)
    (r : ResolvedSelection) : Prop where
  read_iff : ∀ (s : σ) out, h.readSelection selection s = .ok out ↔
    ∃ cells, h.readRegion r.region s = .ok cells ∧ selection.Drops cells out
  write_eq : ∀ full data : NdArray t.Element, full.shape = r.region.shape →
    selection.Drops full data → ∀ s : σ,
      h.writeSelection selection data s = h.writeSelection selection full s
  /-- Data that were written have one of these forms, and are read back without the axes. -/
  read_back : ∀ (data : NdArray t.Element) (s s' : σ), good s →
    h.writeSelection selection data s = (.ok (), s') →
    ∃ full dropped, full.shape = r.region.shape ∧ selection.Drops full dropped ∧
      (data = full ∨ data = dropped) ∧ ∀ out, h.readSelection selection s' = .ok out ↔
        t.HasRoomFor r.region.shape ∧ out = dropped

theorem accessesExactly (hr : h.Reliable good) (hresolve : selection.resolve h.shape = .ok r) :
    h.AccessesExactly good selection r := by
  have hwf := hr.wellFormed
  have hwrite (data full : NdArray t.Element) (hfull : full.shape = r.region.shape)
      (hform : data = full ∨ selection.Drops full data) (s : σ) :
      h.writeSelection selection data s = h.writeRegion r.region full s :=
    writeSelection_eq hresolve ((dataForRegion_eq_ok_iff hresolve).2 ⟨hfull, hform⟩) s
  constructor
  · exact fun s out => readSelection_eq_ok_iff hresolve hwf
  · intro full data hfull hdrops s
    rw [hwrite data full hfull (.inr hdrops), hwrite full full hfull (.inl rfl)]
  · intro data s s' hs hrun
    obtain ⟨full, hdata⟩ := dataForRegion_of_writeSelection hresolve hrun
    obtain ⟨hfull, hform⟩ := (dataForRegion_eq_ok_iff hresolve).1 hdata
    obtain ⟨dropped, -, hdrops⟩ := Selection.exists_dropAxes hresolve hfull
    rw [hwrite data full hfull hform] at hrun
    refine ⟨full, dropped, hfull, hdrops, ?_, fun out => ?_⟩
    · exact hform.imp_right fun hdata => hdata.unique hresolve hfull hdrops
    · rw [readSelection_eq_ok_iff hresolve hwf]
      simp only [readRegion_of_writeRegion hr hs hrun]
      constructor
      · rintro ⟨_, ⟨hroom, rfl⟩, hout⟩
        exact ⟨hroom, hout.unique hresolve hfull hdrops⟩
      · rintro ⟨hroom, rfl⟩
        exact ⟨full, ⟨hroom, rfl⟩, hdrops⟩

/-- A selection resolves to exactly what it stands for, in any shape whose lengths are words, and is
read and written as its region. -/
theorem selection_exact (hobtained : h.Obtained (σ := σ))
    (hlossless : ∀ c, .custom c ∈ h.codecs.onBytes → c.Lossless)
    (hstore : h.options.storeEmptyChunks = true) (hkeeps : KeepsValues σ h.IsChunkKey good)
    (selection : Selection) :
    (∀ shape : Shape, (∀ n ∈ shape, n < wordLimit) → selection.ResolvesExactly shape) ∧
      ∀ r, selection.resolve h.shape = .ok r → h.AccessesExactly good selection r :=
  ⟨fun _ hword => Selection.resolvesExactly selection hword,
    fun _ => accessesExactly ⟨hobtained.wellFormed, hlossless, hkeeps, hstore⟩⟩

/-- Every third cell of the last row, which lie in two chunks. -/
def thirdCells : Selection := [.index 2, .slice 0 none 3]

theorem isAddressable_two : Shape.isAddressable [2] := rfl

/-- Data for them without the axis of the rows. -/
def thirdData : NdArray (DataType.uint .bits16).Element :=
  .ofFn [2] isAddressable_two fun i => DataType.ofPattern _ (i.headD 0 + 1)

theorem selection_exact_thirdCells :
    ∃ r, thirdCells.resolve maskedHandle.shape = .ok r ∧
      thirdCells.ResolvesExactly maskedHandle.shape ∧
      maskedHandle.AccessesExactly (fun _ : MemoryStore => True) thirdCells r ∧
      ∃ s', maskedHandle.writeSelection thirdCells thirdData maskedStore = (.ok (), s') ∧
        maskedHandle.readSelection thirdCells s' = .ok thirdData := by
  obtain ⟨hshapes, hhandle⟩ := selection_exact (.create (by decide) create_masked)
    (fun _ hc => (custom_masked hc).1) rfl (MemoryStore.keepsValues _) thirdCells
  have haccess := hhandle ⟨[⟨2, 1, 1⟩, ⟨0, 2, 3⟩], [0]⟩ rfl
  have hrun := StoreAction.eq_ok_of_isOk (a := maskedHandle.writeSelection thirdCells thirdData)
    (s := maskedStore) (by decide +kernel)
  refine ⟨_, rfl, hshapes _ (by decide), haccess, _, hrun, ?_⟩
  obtain ⟨full, dropped, hfull, -, hdata, hread⟩ := haccess.read_back _ _ _ trivial hrun
  rcases hdata with rfl | rfl
  · cases hfull
  · exact (hread thirdData).2 ⟨⟨by decide, by decide⟩, rfl⟩

end ArrayHandle

end ChunkedArray
