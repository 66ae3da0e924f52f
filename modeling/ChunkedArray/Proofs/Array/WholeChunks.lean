import ChunkedArray.Proofs.Array.Failures

/-!
# Chunks that a region covers

A chunk of which a region selects every cell that the array has is not read before the region is
merged into it. What is stored for it is then what reading would have led to, with the fill value past
the end of the array. Any other chunk is read, and the cells that the region does not select are left.
-/

namespace ChunkedArray

namespace ArrayHandle

variable {t : DataType} {σ : Type} [Store σ] {h : ArrayHandle t} {x : Task t}
  {found : Except StoreError (Option Bytes)} {chunk place : Index}

/-! ### What is merged into a chunk -/

/-- The region selects the cell at a place of a chunk. -/
def Selects (h : ArrayHandle t) (region : Region) (chunk place : Index) : Prop :=
  ∃ j : Index, j.Inside region.shape ∧ h.grid.chunkOf (region.index j) = chunk ∧
    h.grid.placeOf (region.index j) = place

/-- The region selects every cell that the array has in a chunk. -/
def Covers (h : ArrayHandle t) (region : Region) (chunk : Index) : Prop :=
  ∀ i : Index, i.Inside h.shape → h.grid.chunkOf i = chunk →
    ∃ j : Index, j.Inside region.shape ∧ region.index j = i

/-- The cells that a task has stored if this was found of its chunk. -/
def cellsFrom (h : ArrayHandle t) (x : Task t) (found : Except StoreError (Option Bytes)) :
    Checked ArrayError (NdArray t.Element) := do
  let base ← h.baseFrom x.part found
  Checked.guarded (x.call.merge x.part base)

/-- The cells that a task would have stored if it read every chunk first. -/
def cellsByReading (h : ArrayHandle t) (x : Task t) (found : Except StoreError (Option Bytes)) :
    Checked ArrayError (NdArray t.Element) := do
  let base ← h.previous x.chunk found
  Checked.guarded (x.call.merge x.part base)

/-- What is found of the chunk of a task makes no difference to what is stored. -/
def Skips (h : ArrayHandle t) (x : Task t) : Prop :=
  ∀ found found', h.cellsFrom x found = h.cellsFrom x found'

theorem mergePart_eq (x : Task t) :
    (h.mergePart x.call.merge x.part : ArrayAction σ Unit) =
      StoreAction.reading (fun s => h.cellsFrom x (Store.get (h.chunkKey x.chunk) s)) >>=
        h.storeChunk x.chunk := by
  simp only [mergePart, StoreAction.reading_bind_reading, mergeBase_eq]
  rfl

theorem performs_change {call : RegionCall t} (haccepts : h.Accepts call) :
    h.Performs call.change call := by
  cases call with
  | write region data => exact ⟨haccepts, fun _ => .rfl, fun _ _ => rfl⟩
  | fill region value => exact ⟨haccepts, fun _ => .rfl, fun _ _ => rfl⟩

theorem covers_iff_setsAll {call : RegionCall t} :
    h.Covers call.region chunk ↔ h.SetsAll call.change chunk := by
  cases call with
  | write region data => rfl
  | fill region value => rfl

section

variable (hwf : h.WellFormed) (hx : h.HasTask x)

include hwf hx

/-- A task reads its chunk unless its region covers it. -/
theorem HasTask.exists_replacesChunk :
    ∃ whole, h.replacesChunk x.part = .ok whole ∧ (whole ↔ h.Covers x.call.region x.chunk) := by
  have heq := replacesChunk_eq_ok hwf (hx.accepts.fits hwf) hx.mem_parts
  have hiff := replacesChunk_iff hwf (performs_change hx.accepts) hx.mem_parts
  rw [heq, Except.ok.injEq] at hiff
  exact ⟨_, heq, hiff.trans covers_iff_setsAll.symm⟩

theorem HasTask.sets_iff : x.Sets place ↔ h.Selects x.call.region x.chunk place := by
  have hfits := hx.accepts.fits hwf
  constructor
  · rintro ⟨k, hk, rfl⟩
    rw [(hx.isPartOf hwf).shape_eq] at hk
    exact ⟨_, (hx.isPartOf hwf).index_inside hk, part_chunkOf hwf hfits hx.mem_parts hk,
      part_placeOf hwf hfits hx.mem_parts hk⟩
  · rintro ⟨j, hj, hof, rfl⟩
    obtain ⟨k, hk, -, he⟩ := exists_part_index hwf hfits hx.mem_parts hj hof
    exact ⟨k, hk, he⟩

theorem HasTask.inside_shape (hplace : x.Sets place) : (h.grid.cellAt x.chunk place).Inside h.shape :=
  (cellAt_spec hwf (hx.isChunk hwf) (hx.inside_extent hwf hplace)).1

/-- A region that covers a chunk selects all places of it that lie in the array. -/
theorem HasTask.sets_of_covers (hcovers : h.Covers x.call.region x.chunk)
    (hplace : place.Inside h.grid.chunkShape) (hinside : (h.grid.cellAt x.chunk place).Inside h.shape) :
    x.Sets place := by
  obtain ⟨hof, hat⟩ := RegularGrid.chunkOf_placeOf_cellAt hwf.cuts.pos
    ((hx.isChunk hwf).length_eq hwf) hplace
  obtain ⟨j, hj, he⟩ := hcovers _ hinside hof
  refine (hx.sets_iff hwf).2 ⟨j, hj, ?_, ?_⟩
  · rw [he, hof]
  · rw [he, hat]

theorem HasTask.cellsFrom_spec {base : NdArray t.Element} (hbase : h.baseFrom x.part found = .ok base) :
    ∃ cells, h.cellsFrom x found = .ok cells ∧
      NdArray.Replaced x.part.inChunk x.value base cells := by
  obtain ⟨cells, hcells, hreplaced⟩ := hx.merge_spec hwf (shape_baseFrom hwf hbase)
  refine ⟨cells, ?_, hreplaced⟩
  rw [cellsFrom, hbase, Outcome.ok_bind, hcells, Checked.guarded_ok]

theorem HasTask.of_cellsFrom {cells : NdArray t.Element} (hcells : h.cellsFrom x found = .ok cells) :
    ∃ base, h.baseFrom x.part found = .ok base ∧
      NdArray.Replaced x.part.inChunk x.value base cells := by
  obtain ⟨base, hbase, hmerge⟩ := Outcome.bind_eq_ok_iff.1 hcells
  exact ⟨base, hbase,
    hx.replaced hwf (shape_baseFrom hwf hbase) (Checked.guarded_eq_ok_iff.1 hmerge)⟩

theorem HasTask.of_cellsByReading {cells : NdArray t.Element}
    (hcells : h.cellsByReading x found = .ok cells) :
    ∃ base, h.previous x.chunk found = .ok base ∧
      NdArray.Replaced x.part.inChunk x.value base cells := by
  obtain ⟨base, hbase, hmerge⟩ := Outcome.bind_eq_ok_iff.1 hcells
  exact ⟨base, hbase, hx.replaced hwf (shape_previous hwf hbase) (Checked.guarded_eq_ok_iff.1 hmerge)⟩

end

/-! ### With and without reading -/

/-- What a task stores does not depend on what is stored. In the array it is what reading would have
led to, past its end the fill value. -/
structure StoresAnew (h : ArrayHandle t) (x : Task t) : Prop where
  skips : h.Skips x
  exists_cells : t.HasRoomFor h.grid.chunkShape → ∀ found, ∃ cells, h.cellsFrom x found = .ok cells
  cell_inside : ∀ found found' cells read, h.cellsFrom x found = .ok cells →
    h.cellsByReading x found' = .ok read → ∀ place : Index, place.Inside h.grid.chunkShape →
    (h.grid.cellAt x.chunk place).Inside h.shape → cells.cell place = read.cell place
  cell_past : ∀ found cells, h.cellsFrom x found = .ok cells →
    ∀ place : Index, place.Inside h.grid.chunkShape →
    ¬ (h.grid.cellAt x.chunk place).Inside h.shape → cells.cell place = h.fillValue

/-- What a task stores is what the chunk held before, but for the selected cells. A chunk that cannot
be read is not stored. -/
structure StoresMerged (h : ArrayHandle t) (x : Task t) : Prop where
  error_eq : ∀ found f, h.previous x.chunk found = .error f → h.cellsFrom x found = .error f
  cell_kept : ∀ found before, h.previous x.chunk found = .ok before →
    ∃ cells, h.cellsFrom x found = .ok cells ∧ ∀ place : Index, place.Inside h.grid.chunkShape →
      ¬ h.Selects x.call.region x.chunk place → cells.cell place = before.cell place

section

variable (hwf : h.WellFormed) (hx : h.HasTask x)

include hwf hx

theorem HasTask.storesAnew (hcovers : h.Covers x.call.region x.chunk) : h.StoresAnew x := by
  obtain ⟨whole, heq, hwhole⟩ := hx.exists_replacesChunk hwf
  have hbase (found : Except StoreError (Option Bytes)) :
      h.baseFrom x.part found = h.filled h.grid.chunkShape := by
    rw [baseFrom_eq_of_replaces heq, if_pos (hwhole.2 hcovers)]
  constructor
  · intro found found'
    rw [cellsFrom, cellsFrom, hbase, hbase]
  · intro hroom found
    obtain ⟨base, hfilled⟩ := NdArray.exists_filled hroom h.fillValue
    have hfrom : h.baseFrom x.part found = .ok base :=
      (hbase found).trans (Checked.guarded_eq_ok_iff.2 hfilled)
    obtain ⟨cells, hcells, -⟩ := hx.cellsFrom_spec hwf hfrom
    exact ⟨cells, hcells⟩
  · intro found found' cells read hcells hread place hplace hinside
    obtain ⟨_, -, hreplaced⟩ := hx.of_cellsFrom hwf hcells
    obtain ⟨_, -, hreplaced'⟩ := hx.of_cellsByReading hwf hread
    obtain ⟨k, hk, rfl⟩ := hx.sets_of_covers hwf hcovers hplace hinside
    rw [hreplaced.cell_index k hk, hreplaced'.cell_index k hk]
  · intro found cells hcells place hplace hpast
    obtain ⟨base, hfilled, hreplaced⟩ := hx.of_cellsFrom hwf hcells
    rw [hbase] at hfilled
    obtain ⟨hshape, hfill⟩ := NdArray.filled_spec (Checked.guarded_eq_ok_iff.1 hfilled)
    have hmiss : ∀ k : Index, k.Inside x.part.inChunk.shape → x.part.inChunk.index k ≠ place :=
      fun k hk he => hpast (hx.inside_shape hwf ⟨k, hk, he⟩)
    rw [hreplaced.cell_of_ne place (hshape ▸ hplace) hmiss, hfill place hplace]

theorem HasTask.storesMerged (hcovers : ¬ h.Covers x.call.region x.chunk) : h.StoresMerged x := by
  obtain ⟨whole, heq, hwhole⟩ := hx.exists_replacesChunk hwf
  have hbase (found : Except StoreError (Option Bytes)) :
      h.baseFrom x.part found = h.previous x.chunk found := by
    rw [baseFrom_eq_of_replaces heq, if_neg (mt hwhole.1 hcovers)]
    rfl
  constructor
  · intro found f hf
    rw [cellsFrom, hbase, hf, Outcome.error_bind]
  · intro found before hbefore
    obtain ⟨cells, hcells, hreplaced⟩ := hx.cellsFrom_spec hwf ((hbase found).trans hbefore)
    refine ⟨cells, hcells, fun place hplace hleft => ?_⟩
    refine hreplaced.cell_of_ne place (shape_previous hwf hbefore ▸ hplace) fun k hk he => hleft ?_
    exact (hx.sets_iff hwf).1 ⟨k, hk, he⟩

theorem HasTask.skips_iff : h.Skips x ↔ h.Covers x.call.region x.chunk := by
  constructor
  · intro hskips
    by_contra hcovers
    -- A chunk that is read passes the error of its reader on.
    have herror (e : StoreError) :
        h.cellsFrom x (.error e) = .error (.error (.store h.key (some x.chunk) e)) :=
      (hx.storesMerged hwf hcovers).error_eq (.error e) _ rfl
    have hsame := hskips (.error .readOnly) (.error (.notFound ""))
    rw [herror, herror] at hsame
    cases hsame
  · exact fun hcovers => (hx.storesAnew hwf hcovers).skips

end

/-- What a task does to its chunk: it stores some cells, among them the selected ones with their new
values. It skips reading exactly if its region covers the chunk. -/
structure MergesInto (h : ArrayHandle t) (σ : Type) [Store σ] (x : Task t) : Prop where
  mergePart_eq : (h.mergePart x.call.merge x.part : ArrayAction σ Unit) =
    StoreAction.reading (fun s => h.cellsFrom x (Store.get (h.chunkKey x.chunk) s)) >>=
      h.storeChunk x.chunk
  exists_replacesChunk :
    ∃ whole, h.replacesChunk x.part = .ok whole ∧ (whole ↔ h.Covers x.call.region x.chunk)
  skips_iff : h.Skips x ↔ h.Covers x.call.region x.chunk
  cell_selected : ∀ found cells, h.cellsFrom x found = .ok cells →
    cells.shape = h.grid.chunkShape ∧ ∀ j : Index, j.Inside x.call.region.shape →
      h.grid.chunkOf (x.call.region.index j) = x.chunk →
      cells.cell (h.grid.placeOf (x.call.region.index j)) = x.call.value j
  storesAnew : h.Covers x.call.region x.chunk → h.StoresAnew x
  storesMerged : ¬ h.Covers x.call.region x.chunk → h.StoresMerged x

theorem HasTask.mergesInto (hwf : h.WellFormed) (hx : h.HasTask x) : h.MergesInto σ x where
  mergePart_eq := ArrayHandle.mergePart_eq x
  exists_replacesChunk := hx.exists_replacesChunk hwf
  skips_iff := hx.skips_iff hwf
  cell_selected found cells hcells := by
    obtain ⟨base, hbase, hreplaced⟩ := hx.of_cellsFrom hwf hcells
    refine ⟨hreplaced.shape_eq.trans (shape_baseFrom hwf hbase), fun j hj hof => ?_⟩
    obtain ⟨k, hk, rfl, he⟩ := exists_part_index hwf (hx.accepts.fits hwf) hx.mem_parts hj hof
    rw [← he]
    exact hreplaced.cell_index k hk
  storesAnew := hx.storesAnew hwf
  storesMerged := hx.storesMerged hwf

/-- Of the parts of a region that fits the array, each chunk that the region meets has one, and it is
merged into the chunk with or without reading. A region of which the parts have numbers that are no
words is merged into no chunk. -/
theorem exists_part_mergesInto (hobtained : h.Obtained (σ := σ)) {call : RegionCall t}
    (hbounds : call.region.checkBounds h.shape = .ok ()) (hfills : call.FillsRegion)
    (hmeets : ∃ j : Index, j.Inside call.region.shape ∧ h.grid.chunkOf (call.region.index j) = chunk) :
    (h.grid.CountsInWords call.region →
      ∃ parts, h.partsOf call.region = .ok parts ∧ ∃ p ∈ parts.toList, p.chunk = chunk ∧
        (∀ q ∈ parts.toList, q.chunk = chunk → q = p) ∧ h.MergesInto σ ⟨call, p⟩) ∧
    (¬ h.grid.CountsInWords call.region →
      ∀ s : σ, h.mergeRegion call.region call.merge s = (.error (.violation .overflow), s)) := by
  have hwf := hobtained.wellFormed
  have hfits := (Region.checkBounds_eq_ok_iff hwf.lt_wordLimit).1 hbounds
  refine ⟨fun hwords => ?_, fun hwords s => mergeRegion_eq_overflow hwf hfits hwords _ s⟩
  have haccepts : h.Accepts call := ⟨hbounds, hwords, hfills⟩
  have hparts := partsOf_of_fits hwf hfits hwords
  obtain ⟨j, hj, rfl⟩ := hmeets
  obtain ⟨p, hp, k, hk, rfl⟩ := RegularGrid.exists_part hwf.cuts hfits hj
  have hof := part_chunkOf hwf hfits hp hk
  have hnodup := RegularGrid.nodup_chunks hwf.cuts hfits
  refine ⟨_, hparts, ?_⟩
  rw [(partsOf_spec hwf hparts).2]
  refine ⟨p, hp, hof.symm, fun q hq he => ?_, HasTask.mergesInto hwf ⟨haccepts, hp⟩⟩
  exact List.inj_on_of_nodup_map hnodup hq hp (he.trans hof)

/-- A step that is longer than the array, along an axis of which one index is selected. The chunk sticks
out of the array along both axes. -/
theorem exists_part_mergesInto_edge :
    let call : RegionCall (.uint .bits16) := .fill [⟨2, 1, 7⟩, ⟨0, 4, 1⟩] (DataType.ofPattern _ 9)
    call.region.checkBounds maskedHandle.shape = .ok () ∧
      maskedHandle.grid.CountsInWords call.region ∧
      ∃ parts, maskedHandle.partsOf call.region = .ok parts ∧ ∃ p ∈ parts.toList, p.chunk = [1, 1] ∧
        (∀ q ∈ parts.toList, q.chunk = [1, 1] → q = p) ∧
        maskedHandle.MergesInto MemoryStore ⟨call, p⟩ := by
  intro call
  have hbounds : call.region.checkBounds maskedHandle.shape = .ok () := rfl
  have hobtained : maskedHandle.Obtained (σ := MemoryStore) := .create (by decide) create_masked
  have hwords :=
    (accepts_of_isAddressable (c := call) hobtained.wellFormed hbounds trivial rfl (by decide)).words
  have hinside : Index.Inside [0, 3] call.region.shape := .cons (by decide) (.cons (by decide) .nil)
  have hmerges := exists_part_mergesInto hobtained hbounds trivial ⟨[0, 3], hinside, rfl⟩
  exact ⟨hbounds, hwords, hmerges.1 hwords⟩

/-- The last cell is all that the array has of its chunk, and still nothing is merged into it. -/
theorem fillRegion_lastCell :
    lastCell.checkBounds longHandle.shape = .ok () ∧
      longHandle.Covers lastCell [wordLimit / 2 - 1] ∧
      longHandle.fillRegion lastCell (DataType.ofPattern _ 1) longStore =
        (.error (.violation .overflow), longStore) := by
  have hwords : ¬ longHandle.grid.CountsInWords lastCell := fun hwords => absurd hwords.ends (by decide)
  refine ⟨by decide, ?_, mergeRegion_eq_overflow wellFormed_long fits_lastCell hwords _ longStore⟩
  rintro _ (_ | @⟨i, _, _, _, hi, _ | _⟩) hof
  have hquotient : i / 2 = wordLimit / 2 - 1 := (List.cons.inj hof).1
  have hlast : i = wordLimit - 2 := by
    simp only [wordLimit] at hi hquotient ⊢
    omega
  exact ⟨[0], .cons (by decide) .nil, congrArg ([·]) hlast.symm⟩

end ArrayHandle

end ChunkedArray
