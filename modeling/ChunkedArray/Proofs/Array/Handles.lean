import ChunkedArray.Array.Write
import ChunkedArray.Proofs.Codec.RoundTrip
import ChunkedArray.Proofs.DataType.FillValues
import ChunkedArray.Proofs.Grid.Voxel
import ChunkedArray.Proofs.Metadata.Documents

/-!
# Handles that were made

A handle that was made by creating or opening an array has a grid that cuts its shape, and codecs that
fit its rank.
-/

namespace ChunkedArray

/-! ### Metadata -/

namespace ArrayMetadata

theorem validate_eq_ok_iff {m : ArrayMetadata} :
    m.validate = .ok () ↔ m.zarrFormat = formatVersion ∧ m.nodeType = arrayType ∧ m.shape ≠ [] ∧
      0 ∉ m.shape ∧ m.chunkGrid.rank = m.rank ∧ 0 ∉ m.chunkGrid.chunkShape ∧
      (∀ names, m.dimensionNames = some names → names.length = m.rank) ∧
      ∃ x, FillValue.ofJson m.dataType m.fillValue = .ok x := by
  simp only [validate, Outcome.guard_eq_ok_iff, Outcome.check_bind_eq_ok_iff,
    Outcome.mapError_eq_ok_iff, RankMismatch.check_eq_ok_iff, RegularGrid.hasEmptyAxis,
    List.contains_iff_mem, not_not]
  cases m.dimensionNames with
  | none => simp [Outcome.mapError_eq_ok_iff, FillValue.validate_eq_ok_iff]
  | some names =>
    simp [Outcome.check_bind_eq_ok_iff, Outcome.mapError_eq_ok_iff, RankMismatch.check_eq_ok_iff,
      FillValue.validate_eq_ok_iff]

theorem validate_spec {m : ArrayMetadata} (h : m.validate = .ok ()) :
    m.shape ≠ [] ∧ m.chunkGrid.Cuts m.shape := by
  obtain ⟨-, -, hshape, -, hrank, hempty, -⟩ := validate_eq_ok_iff.1 h
  refine ⟨hshape, hrank, fun n hn => Nat.pos_of_ne_zero ?_⟩
  rintro rfl
  exact hempty hn

theorem lt_of_ofBytes? {bs : Bytes} {m : ArrayMetadata} (h : ofBytes? bs = some m) :
    ∀ n ∈ m.shape, n < wordLimit := by
  obtain ⟨x, -, hx⟩ := Option.bind_eq_some_iff.1 h
  exact (representable_of_ofRaw? hx).shape

end ArrayMetadata

namespace ArrayHandle

variable {t : DataType}

/-- The grid cuts the shape, of which there is at least one axis, and the codecs fit the rank. -/
structure WellFormed (h : ArrayHandle t) : Prop where
  rank_pos : 0 < h.grid.rank
  cuts : h.grid.Cuts h.shape
  lt_wordLimit : ∀ n ∈ h.shape, n < wordLimit
  isAxisOrder : ∀ c ∈ h.codecs.transposes, NdArray.IsAxisOrder h.grid.rank c.order

theorem ofMetadata_eq_ok_iff {key : Key} {metadata : ArrayMetadata} {registry : CodecRegistry}
    {options : ArrayOptions} {h : ArrayHandle t} :
    ofMetadata t key metadata registry options = .ok h ↔
      metadata.validate = .ok () ∧ metadata.dataType = t ∧
        FillValue.ofJson t metadata.fillValue = .ok h.fillValue ∧
        registry.resolveChain metadata.codecs = .ok h.codecs ∧
        h.codecs.validate t metadata.rank = .ok () ∧
        h = ⟨key, metadata, h.codecs, h.fillValue, options⟩ := by
  simp only [ofMetadata, Outcome.guard_eq_ok_iff, Outcome.bind_eq_ok_iff,
    Outcome.mapError_eq_ok_iff, not_not, Outcome.pure_eq_ok, Except.ok.injEq]
  constructor
  · rintro ⟨_, hvalid, rfl, fillValue, hfill, codecs, hcodecs, _, hfits, rfl⟩
    exact ⟨hvalid, rfl, hfill, hcodecs, hfits, rfl⟩
  · rintro ⟨hvalid, rfl, hfill, hcodecs, hfits, hh⟩
    exact ⟨(), hvalid, rfl, h.fillValue, hfill, h.codecs, hcodecs, (), hfits, hh.symm⟩

section

variable {σ : Type} [Store σ] {key : Key} {metadata : ArrayMetadata} {registry : CodecRegistry}
  {options : ArrayOptions} {s s' : σ} {h : ArrayHandle t}

theorem create_eq_ok_iff :
    create t key metadata registry options s = (.ok h, s') ↔
      Store.has key.metadata s = .ok false ∧ ∃ made : ArrayHandle t,
        ofMetadata t key metadata registry options = .ok made ∧
        h = { made with metadata := { made.metadata with codecs := made.codecs.specs } } ∧
        (Store.set h.metadataKey h.metadata.toBytes : StoreAction σ StoreError Unit) s =
          (.ok (), s') := by
  simp only [create, StoreAction.bind_eq_ok_iff, StoreAction.guard_eq_ok_iff,
    StoreAction.reading_eq_ok_iff, Outcome.mapError_eq_ok_iff, StoreAction.pure_eq_ok_iff,
    writeMetadata, StoreAction.rename_eq_ok_iff, Bool.not_eq_true]
  constructor
  · rintro ⟨found, _, ⟨hhas, rfl⟩, rfl, made, _, ⟨hmade, rfl⟩, _, _, hset, rfl, rfl⟩
    exact ⟨hhas, made, hmade, rfl, hset⟩
  · rintro ⟨hhas, made, hmade, rfl, hset⟩
    exact ⟨false, s, ⟨hhas, rfl⟩, rfl, made, s, ⟨hmade, rfl⟩, (), s', hset, rfl, rfl⟩

theorem openStored_eq_ok_iff :
    openStored t key registry options s = .ok h ↔
      ∃ bytes metadata, Store.get key.metadata s = .ok (some bytes) ∧
        ArrayMetadata.ofBytes? bytes = some metadata ∧
        ofMetadata t key metadata registry options = .ok h := by
  simp only [openStored, Outcome.bind_eq_ok_iff, Outcome.mapError_eq_ok_iff]
  constructor
  · rintro ⟨found, hget, hh⟩
    cases found with
    | none => cases hh
    | some bytes =>
      cases hmetadata : ArrayMetadata.ofBytes? bytes with
      | none => simp only [hmetadata] at hh; cases hh
      | some metadata => exact ⟨bytes, metadata, hget, hmetadata, by simpa only [hmetadata] using hh⟩
  · rintro ⟨bytes, metadata, hget, hmetadata, hh⟩
    exact ⟨some bytes, hget, by simpa only [hmetadata] using hh⟩

theorem ofMetadata_spec (hh : ofMetadata t key metadata registry options = .ok h)
    (hword : ∀ n ∈ metadata.shape, n < wordLimit) : h.WellFormed := by
  obtain ⟨hvalid, -, -, -, hcodecs, hh⟩ := ofMetadata_eq_ok_iff.1 hh
  obtain ⟨hshape, hcuts⟩ := ArrayMetadata.validate_spec hvalid
  have hrank : metadata.chunkGrid.rank = metadata.rank := hcuts.length_eq
  rw [hh]
  refine ⟨?_, hcuts, hword, ?_⟩
  · show 0 < metadata.chunkGrid.rank
    rw [hrank]
    exact List.length_pos_of_ne_nil hshape
  · intro c hc
    show NdArray.IsAxisOrder metadata.chunkGrid.rank c.order
    rw [hrank]
    exact CodecChain.isAxisOrder_of_validate hcodecs c hc

end

/-- The handle was made by creating an array whose lengths are words, or by opening one. -/
inductive Obtained {σ : Type} [Store σ] : ArrayHandle t → Prop where
  | create {key : Key} {metadata : ArrayMetadata} {registry : CodecRegistry}
    {options : ArrayOptions} {s s' : σ} {h : ArrayHandle t} :
    (∀ n ∈ metadata.shape, n < wordLimit) →
    ArrayHandle.create t key metadata registry options s = (.ok h, s') → Obtained h
  | openStored {key : Key} {registry : CodecRegistry} {options : ArrayOptions} {s : σ}
    {h : ArrayHandle t} :
    ArrayHandle.openStored t key registry options s = .ok h → Obtained h

/-- Either way the handle is made from metadata; creating only replaces their codecs. -/
theorem Obtained.made {σ : Type} [Store σ] {h : ArrayHandle t} (hh : h.Obtained (σ := σ)) :
    ∃ (key : Key) (metadata : ArrayMetadata) (registry : CodecRegistry) (options : ArrayOptions)
      (made : ArrayHandle t), (∀ n ∈ metadata.shape, n < wordLimit) ∧
        ofMetadata t key metadata registry options = .ok made ∧
        h = { made with metadata := { made.metadata with codecs := h.metadata.codecs } } := by
  cases hh with
  | create hword hh =>
    obtain ⟨-, made, hmade, rfl, -⟩ := create_eq_ok_iff.1 hh
    exact ⟨_, _, _, _, made, hword, hmade, rfl⟩
  | openStored hh =>
    obtain ⟨bytes, metadata, -, hmetadata, hmade⟩ := openStored_eq_ok_iff.1 hh
    exact ⟨_, metadata, _, _, h, ArrayMetadata.lt_of_ofBytes? hmetadata, hmade, rfl⟩

theorem Obtained.wellFormed {σ : Type} [Store σ] {h : ArrayHandle t} (hh : h.Obtained (σ := σ)) :
    h.WellFormed := by
  obtain ⟨_, _, _, _, made, hword, hmade, he⟩ := hh.made
  obtain ⟨hrank, hcuts, hlt, horder⟩ := ofMetadata_spec hmade hword
  rw [he]
  exact ⟨hrank, hcuts, hlt, horder⟩

theorem Obtained.validate_codecs {σ : Type} [Store σ] {h : ArrayHandle t}
    (hh : h.Obtained (σ := σ)) : h.codecs.validate t h.rank = .ok () := by
  obtain ⟨_, metadata, _, _, made, -, hmade, he⟩ := hh.made
  obtain ⟨-, -, -, -, hcodecs, hmade⟩ := ofMetadata_eq_ok_iff.1 hmade
  rw [he, hmade]
  exact hcodecs

theorem Obtained.exists_encode {σ : Type} [Store σ] {h : ArrayHandle t} (hh : h.Obtained (σ := σ))
    (hwords : h.grid.chunkShape.size * t.byteCount < wordLimit)
    (hcustom : ∀ c, .custom c ∈ h.codecs.onBytes → c.Encodes) {cells : NdArray t.Element}
    (hshape : cells.shape = h.grid.chunkShape) : ∃ bytes, h.codecs.encode cells = .ok bytes := by
  have horder : ∀ c ∈ h.codecs.transposes, NdArray.IsAxisOrder cells.rank c.order := by
    rw [NdArray.rank, hshape]
    exact hh.wellFormed.isAxisOrder
  have helements := CodecChain.elementBytes_of_validate hh.validate_codecs
  exact CodecChain.exists_encode horder helements (hshape ▸ hwords) hcustom

end ArrayHandle

end ChunkedArray
