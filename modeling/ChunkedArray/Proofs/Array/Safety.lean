import ChunkedArray.Proofs.Array.Refinement
import ChunkedArray.Proofs.Codec.Endings

/-!
# Operations break no precondition

The primitives that divide, reorder axes, slice and assign do not check their arguments. Making a
handle and the entry of each operation do: whatever is stored and whatever is asked for, an operation
ends with a value or an error. Only memory and words are not checked. An array may be asked for that
has no room, or the parts of a region may have numbers that are no words; which array or which region
it is, is known.
-/

namespace ChunkedArray

/-- Nothing but the room for an array of this shape is missing. Not even the number of its bytes may
be a word. -/
def DataType.Lacks (t : DataType) (shape : Shape) (v : Violation) : Prop :=
  (v = .tooLarge ∨ v = .overflow) ∧ ¬ t.HasRoomFor shape

/-- Nothing but words for the parts of the region are missing. -/
def RegularGrid.Exceeds (g : RegularGrid) (region : Region) (v : Violation) : Prop :=
  v = .overflow ∧ ¬ g.CountsInWords region

theorem DataType.lacks_overflow {t : DataType} {shape : Shape} (h : ¬ t.HasRoomFor shape) :
    t.Lacks shape .overflow := ⟨.inr rfl, h⟩

namespace ArrayHandle

/-- What may be missing to read a region: room for its cells or for a chunk, or words. -/
def ReadLacks {t : DataType} (h : ArrayHandle t) (region : Region) (v : Violation) : Prop :=
  t.Lacks region.shape v ∨ t.Lacks h.grid.chunkShape v ∨ h.grid.Exceeds region v

/-- What may be missing to change a region: room for a chunk, or words. -/
def ChangeLacks {t : DataType} (h : ArrayHandle t) (region : Region) (v : Violation) : Prop :=
  t.Lacks h.grid.chunkShape v ∨ h.grid.Exceeds region v

variable {t : DataType} {σ : Type} [Store σ] {h : ArrayHandle t} {allowed : Violation → Prop}
  {region : Region} {p : ChunkPart}

/-! ### Reading -/

theorem ends_filled (h : ArrayHandle t) (shape : Shape) :
    Checked.Ends (t.Lacks shape) (fun a => a.shape = shape) (h.filled shape) := by
  rw [filled]
  unfold NdArray.filled
  split
  · exact rfl
  · next hroom => exact ⟨.inl rfl, hroom⟩

section

variable (hwf : h.WellFormed)

include hwf

theorem ends_checkChunk (chunk : Index) :
    Checked.Ends allowed (fun _ => True) (h.checkChunk chunk) := by
  have hcounts := RegularGrid.gridShape_eq_ok hwf.cuts.pos h.shape
  refine Checked.Ends.mapError _ ?_
  refine (Checked.ends_report fun _ _ => trivial).bind fun _ (_ : True) => ?_
  refine (Checked.ends_guarded ⟨_, hcounts, trivial⟩).bind fun _ (_ : True) => ?_
  exact Checked.ends_report fun _ _ => trivial

theorem ends_storedChunk? (hallowed : ¬ t.HasRoomFor h.grid.chunkShape → allowed .overflow)
    (chunk : Index) (s : σ) :
    Checked.Ends allowed (fun stored => ∀ cells ∈ stored, cells.shape = h.grid.chunkShape)
      (h.storedChunk? chunk s) := by
  refine (Checked.ends_report fun _ _ => trivial).bind fun found (_ : True) => ?_
  cases found with
  | none => exact fun cells hcells => by cases hcells
  | some bytes =>
    have hdecode : Checked.Ends allowed (fun a => a.shape = h.grid.chunkShape)
        (h.decodeChunk chunk bytes) :=
      (CodecChain.ends_decode hwf.isAxisOrder hallowed h.options.codecOptions bytes).mapError _
    refine hdecode.bind fun cells hshape => ?_
    rintro _ ⟨⟩
    exact hshape

theorem ends_chunkOrFill (chunk : Index) (s : σ) :
    Checked.Ends (t.Lacks h.grid.chunkShape) (fun a => a.shape = h.grid.chunkShape)
      (h.chunkOrFill chunk s) := by
  refine (ends_storedChunk? hwf DataType.lacks_overflow chunk s).bind fun stored hstored => ?_
  cases stored with
  | none => exact ends_filled h _
  | some cells => exact hstored cells rfl

theorem ends_readChunk (chunk : Index) (s : σ) :
    Checked.Ends (t.Lacks h.grid.chunkShape) (fun _ => True) (h.readChunk chunk s) := by
  refine (ends_checkChunk hwf chunk).bind fun _ _ => ?_
  exact (ends_chunkOrFill hwf chunk s).mono fun _ _ => trivial

theorem ends_readPart (hfits : region.Fits h.shape) (hp : p ∈ h.grid.regionParts region)
    (hallowed : ¬ t.HasRoomFor h.grid.chunkShape → allowed .overflow) (s : σ)
    {out : NdArray t.Element} (hout : out.shape = region.shape) :
    Checked.Ends allowed (fun a => a.shape = region.shape) (h.readPart s out p) := by
  have hpart := isPartOf_of_mem hwf hfits hp
  refine (ends_storedChunk? hwf hallowed p.chunk s).bind fun stored hstored => ?_
  cases stored with
  | none => exact hout
  | some chunk =>
    have hin := hpart.inChunk_fits_lengths hwf.cuts.pos hfits
    obtain ⟨cells, hcells, hshape, -⟩ :=
      NdArray.slice_spec (a := chunk) (hstored chunk rfl ▸ hin)
    obtain ⟨out', hassign, hreplaced⟩ := NdArray.assign_spec (a := out)
      (hout ▸ hpart.inRegion_fits) (hshape.trans hpart.shape_eq)
    refine (Checked.ends_guarded ⟨cells, hcells, rfl⟩).bind fun _ he => ?_
    subst he
    exact Checked.ends_guarded ⟨out', hassign, hreplaced.shape_eq.trans hout⟩

theorem ends_partsOf (region : Region) :
    Checked.Ends (h.grid.Exceeds region)
      (fun parts => region.Fits h.shape ∧ parts.toList = h.grid.regionParts region)
      (h.partsOf region) := by
  have hparts : Checked.Ends (h.grid.Exceeds region) (fun _ => True) (h.partsOf region) := by
    refine Checked.Ends.mapError _ ?_
    refine (Checked.ends_report fun _ _ => trivial).bind fun _ (_ : True) => ?_
    -- Only a region that passed its check is cut into parts.
    refine (Checked.ends_report fun _ hb => hb).bind fun _ hbounds => ?_
    have hfits := (Region.checkBounds_eq_ok_iff hwf.lt_wordLimit).1 hbounds
    refine Checked.ends_guarded_of (fun _ _ => trivial) fun v hv => ?_
    by_cases hwords : h.grid.CountsInWords region
    · rw [(RegularGrid.partsOf_eq_ok_iff hwf.cuts hfits).2 ⟨hwords, rfl⟩] at hv
      cases hv
    · rw [RegularGrid.partsOf_eq_overflow hwf.cuts hfits hwords] at hv
      exact ⟨(Except.error.inj hv).symm, hwords⟩
  cases hresult : h.partsOf region with
  | ok parts => exact partsOf_spec hwf hresult
  | error e =>
    rw [hresult] at hparts
    cases e with
    | error => trivial
    | violation => exact hparts

theorem ends_readRegion (region : Region) (s : σ) :
    Checked.Ends (h.ReadLacks region) (fun a => a.shape = region.shape)
      (h.readRegion region s) := by
  have hends := (ends_partsOf hwf region).allow fun v hv => (.inr (.inr hv) : h.ReadLacks region v)
  refine hends.bind fun parts hparts => ?_
  obtain ⟨hfits, htoList⟩ := hparts
  have hfilled := (ends_filled h region.shape).allow fun v hv => (.inl hv : h.ReadLacks region v)
  refine hfilled.bind fun out hout => ?_
  rw [htoList]
  have hallowed (hroom : ¬ t.HasRoomFor h.grid.chunkShape) : h.ReadLacks region .overflow :=
    .inr (.inl (DataType.lacks_overflow hroom))
  exact Checked.ends_foldlM (fun p hp out hout => ends_readPart hwf hfits hp hallowed s hout) hout

theorem ends_readSelection (selection : Selection) (s : σ) :
    Checked.Ends (fun v => ∃ r, selection.resolve h.shape = .ok r ∧ h.ReadLacks r.region v)
      (fun _ => True) (h.readSelection selection s) := by
  refine (Checked.ends_report fun _ hr => hr).bind fun r hresolve => ?_
  have hread : Checked.Ends
      (fun v => ∃ r, selection.resolve h.shape = .ok r ∧ h.ReadLacks r.region v)
      (fun a => a.shape = r.region.shape) (h.readRegion r.region s) :=
    (ends_readRegion hwf r.region s).allow fun v hv => ⟨r, hresolve, hv⟩
  refine hread.bind fun cells hcells => ?_
  obtain ⟨out, hout, -⟩ := Selection.dropAxes_spec hresolve hcells
  exact Checked.ends_guarded ⟨out, hout, trivial⟩

/-! ### Writing -/

theorem ends_storeChunk (hallowed : ¬ t.HasRoomFor h.grid.chunkShape → allowed .overflow)
    (chunk : Index) {cells : NdArray t.Element} (hshape : cells.shape = h.grid.chunkShape) :
    StoreAction.Ends allowed (fun _ => True) (h.storeChunk chunk cells : ArrayAction σ Unit) := by
  have horder : ∀ c ∈ h.codecs.transposes, NdArray.IsAxisOrder cells.rank c.order := by
    rw [NdArray.rank, hshape]
    exact hwf.isAxisOrder
  unfold storeChunk
  split
  · exact (StoreAction.ends_rename _ _).bind fun _ _ => StoreAction.ends_pure trivial
  · have hencode : Checked.Ends allowed (fun _ => True) (h.codecs.encode cells) :=
      CodecChain.ends_encode horder (hshape ▸ hallowed)
    refine (StoreAction.ends_reading fun _ => hencode.mapError _).bind fun bytes _ => ?_
    exact StoreAction.ends_rename _ _

theorem ends_writeChunk (chunk : Index) (cells : NdArray t.Element) :
    StoreAction.Ends (t.Lacks h.grid.chunkShape) (fun _ => True)
      (h.writeChunk chunk cells : ArrayAction σ Unit) := by
  refine (StoreAction.ends_reading fun _ => ends_checkChunk hwf chunk).bind fun _ _ => ?_
  refine StoreAction.ends_guard fun hshape => ?_
  exact ends_storeChunk hwf DataType.lacks_overflow chunk (not_not.1 hshape)

theorem ends_eraseChunk (chunk : Index) :
    StoreAction.Ends allowed (fun _ => True) (h.eraseChunk chunk : ArrayAction σ Bool) := by
  refine (StoreAction.ends_reading fun _ => ends_checkChunk hwf chunk).bind fun _ _ => ?_
  exact StoreAction.ends_rename _ _

theorem ends_mergeBase (hfits : region.Fits h.shape) (hp : p ∈ h.grid.regionParts region) (s : σ) :
    Checked.Ends (t.Lacks h.grid.chunkShape) (fun a => a.shape = h.grid.chunkShape)
      (h.mergeBase p s) := by
  rw [mergeBase_of_mem hwf hfits hp]
  split
  · exact ends_filled h _
  · exact ends_chunkOrFill hwf p.chunk s

theorem ends_mergePart (hfits : region.Fits h.shape) (hp : p ∈ h.grid.regionParts region)
    {merge : Merge t} {f : Index → t.Element} (hmerge : h.Writes region merge f) :
    StoreAction.Ends (t.Lacks h.grid.chunkShape) (fun _ => True)
      (h.mergePart merge p : ArrayAction σ Unit) := by
  refine (StoreAction.ends_reading (ends_mergeBase hwf hfits hp)).bind fun base hbase => ?_
  obtain ⟨merged, hmerged, hreplaced⟩ := hmerge p hp base hbase
  have hends : Checked.Ends (t.Lacks h.grid.chunkShape) (fun a => a.shape = h.grid.chunkShape)
      (Checked.guarded (merge p base) : Checked ArrayError _) :=
    Checked.ends_guarded ⟨merged, hmerged, hreplaced.shape_eq.trans hbase⟩
  refine (StoreAction.ends_reading fun _ => hends).bind fun merged hshape => ?_
  exact ends_storeChunk hwf DataType.lacks_overflow p.chunk hshape

theorem ends_mergeRegion (region : Region) {merge : Merge t} {f : Index → t.Element}
    (hmerge : region.Fits h.shape → h.Writes region merge f) :
    StoreAction.Ends (h.ChangeLacks region) (fun _ => True)
      (h.mergeRegion region merge : ArrayAction σ Unit) := by
  have hends := (ends_partsOf hwf region).allow fun v hv => (.inr hv : h.ChangeLacks region v)
  refine (StoreAction.ends_reading fun _ => hends).bind fun parts hparts => ?_
  obtain ⟨hfits, htoList⟩ := hparts
  rw [htoList]
  refine StoreAction.ends_forM fun p hp s => ?_
  exact (ends_mergePart hwf hfits hp (hmerge hfits) s).allow fun v hv => .inl hv

theorem ends_writeRegion (region : Region) (data : NdArray t.Element) :
    StoreAction.Ends (h.ChangeLacks region) (fun _ => True)
      (h.writeRegion region data : ArrayAction σ Unit) := by
  refine StoreAction.ends_guard fun hguard =>
    ends_mergeRegion (f := data.cell) hwf region fun hfits => ?_
  exact writes_data hwf hfits (not_not.1 hguard)

theorem ends_fillRegion (region : Region) (x : t.Element) :
    StoreAction.Ends (h.ChangeLacks region) (fun _ => True)
      (h.fillRegion region x : ArrayAction σ Unit) := by
  exact ends_mergeRegion hwf region fun hfits => writes_value hwf hfits x

omit hwf in
theorem ends_dataForRegion {selection : Selection} {r : ResolvedSelection}
    (hresolve : selection.resolve h.shape = .ok r) (data : NdArray t.Element) :
    Checked.Ends allowed (fun _ => True) (dataForRegion r data) := by
  unfold dataForRegion
  split
  · exact trivial
  · split
    · exact Checked.ends_fail _
    · next houtput =>
      have hdropped := (not_not.1 houtput).trans (Selection.outputShape_eq hresolve)
      obtain ⟨full, hfull, -⟩ := Selection.restoreAxes_spec hresolve hdropped
      exact Checked.ends_guarded ⟨full, hfull, trivial⟩

theorem ends_writeSelection (selection : Selection) (data : NdArray t.Element) :
    StoreAction.Ends (fun v => ∃ r, selection.resolve h.shape = .ok r ∧ h.ChangeLacks r.region v)
      (fun _ => True) (h.writeSelection selection data : ArrayAction σ Unit) := by
  refine (StoreAction.ends_reading fun _ => Checked.ends_report fun _ hr => hr).bind fun r hr => ?_
  refine (StoreAction.ends_reading fun _ => ends_dataForRegion hr data).bind fun full _ s => ?_
  exact (ends_writeRegion hwf r.region full s).allow fun v hv => ⟨r, hr, hv⟩

theorem ends_fillSelection (selection : Selection) (x : t.Element) :
    StoreAction.Ends (fun v => ∃ r, selection.resolve h.shape = .ok r ∧ h.ChangeLacks r.region v)
      (fun _ => True) (h.fillSelection selection x : ArrayAction σ Unit) := by
  refine (StoreAction.ends_reading fun _ => Checked.ends_report fun _ hr => hr).bind fun r hr s => ?_
  exact (ends_fillRegion hwf r.region x s).allow fun v hv => ⟨r, hr, hv⟩

end

/-! ### All operations -/

/-- On every store and with every argument, no operation breaks a precondition but by asking for an
array that has no room in memory, a chunk or what is to be read, or because the parts of the region
have numbers that are no words. -/
structure NeverBreaks (h : ArrayHandle t) (σ : Type) [Store σ] : Prop where
  readChunk : ∀ (chunk : Index) (s : σ) (v : Violation),
    h.readChunk chunk s = .error (.violation v) → t.Lacks h.grid.chunkShape v
  readRegion : ∀ (region : Region) (s : σ) (v : Violation),
    h.readRegion region s = .error (.violation v) → h.ReadLacks region v
  readSelection : ∀ (selection : Selection) (s : σ) (v : Violation),
    h.readSelection selection s = .error (.violation v) →
    ∃ r, selection.resolve h.shape = .ok r ∧ h.ReadLacks r.region v
  writeChunk : ∀ (chunk : Index) (cells : NdArray t.Element) (s : σ) (v : Violation),
    (h.writeChunk chunk cells s).1 = .error (.violation v) → t.Lacks h.grid.chunkShape v
  eraseChunk : ∀ (chunk : Index) (s : σ) (v : Violation),
    (h.eraseChunk chunk s).1 ≠ .error (.violation v)
  writeRegion : ∀ (region : Region) (data : NdArray t.Element) (s : σ) (v : Violation),
    (h.writeRegion region data s).1 = .error (.violation v) → h.ChangeLacks region v
  fillRegion : ∀ (region : Region) (value : t.Element) (s : σ) (v : Violation),
    (h.fillRegion region value s).1 = .error (.violation v) → h.ChangeLacks region v
  writeSelection : ∀ (selection : Selection) (data : NdArray t.Element) (s : σ) (v : Violation),
    (h.writeSelection selection data s).1 = .error (.violation v) →
    ∃ r, selection.resolve h.shape = .ok r ∧ h.ChangeLacks r.region v
  fillSelection : ∀ (selection : Selection) (value : t.Element) (s : σ) (v : Violation),
    (h.fillSelection selection value s).1 = .error (.violation v) →
    ∃ r, selection.resolve h.shape = .ok r ∧ h.ChangeLacks r.region v

theorem neverBreaks_of_obtained (hobtained : h.Obtained (σ := σ)) : h.NeverBreaks σ := by
  have hwf := hobtained.wellFormed
  constructor
  · exact fun chunk s v hv => (ends_readChunk hwf chunk s).allowed_of_eq hv
  · exact fun region s v hv => (ends_readRegion hwf region s).allowed_of_eq hv
  · exact fun selection s v hv => (ends_readSelection hwf selection s).allowed_of_eq hv
  · exact fun chunk cells s v hv => (ends_writeChunk hwf chunk cells s).allowed_of_eq hv
  · intro chunk s v hv
    have hends : StoreAction.Ends (fun _ => False) _ (h.eraseChunk chunk : ArrayAction σ Bool) :=
      ends_eraseChunk hwf chunk
    exact (hends s).allowed_of_eq hv
  · exact fun region data s v hv => (ends_writeRegion hwf region data s).allowed_of_eq hv
  · exact fun region value s v hv => (ends_fillRegion hwf region value s).allowed_of_eq hv
  · exact fun selection data s v hv => (ends_writeSelection hwf selection data s).allowed_of_eq hv
  · exact fun selection value s v hv => (ends_fillSelection hwf selection value s).allowed_of_eq hv

theorem neverBreaks_masked :
    create _ .root maskedMetadata maskRegistry (.default 1) MemoryStore.empty =
        (.ok maskedHandle, maskedStore) ∧
      maskedHandle.NeverBreaks MemoryStore :=
  ⟨create_masked, neverBreaks_of_obtained (.create (by decide) create_masked)⟩

end ArrayHandle

end ChunkedArray
