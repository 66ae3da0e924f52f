import ChunkedArray.Proofs.Array.Handles
import ChunkedArray.Proofs.ChunkKeys
import ChunkedArray.Proofs.Store.Laws

/-!
# Storing and erasing one chunk

A chunk that was stored is found again with its cells, one that was erased is not, and all other
chunks stay as they were.
-/

namespace ChunkedArray

namespace ArrayHandle

variable {t : DataType} {σ : Type} [Store σ]

/-- An index of a chunk of the array. -/
def IsChunk (h : ArrayHandle t) (chunk : Index) : Prop :=
  chunk.Inside (h.grid.chunkCounts h.shape)

def IsChunkKey (h : ArrayHandle t) (k : Key) : Prop := ∃ chunk, h.IsChunk chunk ∧ h.chunkKey chunk = k

/-- The codecs give back what they encode, the store keeps the chunks, and chunks of the fill value
alone are stored like others. -/
structure Reliable (h : ArrayHandle t) (good : σ → Prop) : Prop where
  wellFormed : h.WellFormed
  lossless : ∀ c, .custom c ∈ h.codecs.onBytes → c.Lossless
  keeps : KeepsValues σ h.IsChunkKey good
  storeEmptyChunks : h.options.storeEmptyChunks = true

variable {h : ArrayHandle t} {good : σ → Prop} {s s' : σ} {chunk : Index}

theorem IsChunk.length_eq (hwf : h.WellFormed) (hchunk : h.IsChunk chunk) :
    chunk.length = h.grid.rank :=
  (Index.Inside.length_eq hchunk).trans (RegularGrid.length_chunkCounts hwf.cuts)

theorem checkChunk_eq_ok_iff (hwf : h.WellFormed) : h.checkChunk chunk = .ok () ↔ h.IsChunk chunk :=
  Checked.mapError_eq_ok_iff.trans (RegularGrid.checkChunk_eq_ok_iff hwf.cuts)

theorem isChunk_chunkOf (hwf : h.WellFormed) {i : Index} (hi : i.Inside h.shape) :
    h.IsChunk (h.grid.chunkOf i) := RegularGrid.inside_chunkCounts hwf.cuts hi

theorem chunkKey_ne (hwf : h.WellFormed) {other : Index} (hchunk : h.IsChunk chunk)
    (hother : h.IsChunk other) (hne : other ≠ chunk) : h.chunkKey other ≠ h.chunkKey chunk := by
  intro he
  have hlength := (hother.length_eq hwf).trans (hchunk.length_eq hwf).symm
  exact hne (ChunkKeyEncoding.chunkKey_injective hlength he)

/-- From `s` to `s'` a chunk became what is said, and no other chunk changed. -/
structure ChunkChanged (h : ArrayHandle t) (good : σ → Prop) (chunk : Index)
    (stored : Option (NdArray t.Element)) (s s' : σ) : Prop where
  isGood : good s'
  stored_eq : h.storedChunk? chunk s' = .ok stored
  others : ∀ other, h.IsChunk other → other ≠ chunk → h.storedChunk? other s' = h.storedChunk? other s

theorem storedChunk?_congr {other : Index}
    (he : Store.get (h.chunkKey other) s' = Store.get (h.chunkKey other) s) :
    h.storedChunk? other s' = h.storedChunk? other s := by
  rw [storedChunk?, storedChunk?, he]

theorem chunkOrFill_congr (he : h.storedChunk? chunk s' = h.storedChunk? chunk s) :
    h.chunkOrFill chunk s' = h.chunkOrFill chunk s := by
  rw [chunkOrFill, chunkOrFill, he]

theorem storedChunk?_eq_none (hget : Store.get (h.chunkKey chunk) s = .ok none) :
    h.storedChunk? chunk s = .ok none := by
  rw [storedChunk?, hget]
  rfl

theorem decodeChunk_of_encode (hwf : h.WellFormed)
    (hlossless : ∀ c, .custom c ∈ h.codecs.onBytes → c.Lossless) {cells : NdArray t.Element}
    {bytes : Bytes} (hshape : cells.shape = h.grid.chunkShape)
    (hencode : h.codecs.encode cells = .ok bytes) : h.decodeChunk chunk bytes = .ok cells := by
  have horder : ∀ c ∈ h.codecs.transposes, NdArray.IsAxisOrder cells.rank c.order := by
    rw [NdArray.rank, hshape]
    exact hwf.isAxisOrder
  rw [decodeChunk, ← hshape,
    CodecChain.decode_encode horder hlossless hencode h.options.codecOptions]
  rfl

theorem storeChunk_spec (hr : h.Reliable good) (hs : good s) (hchunk : h.IsChunk chunk)
    {cells : NdArray t.Element} (hrun : h.storeChunk chunk cells s = (.ok (), s')) :
    ∃ bytes, h.codecs.encode cells = .ok bytes ∧ good s' ∧
      Store.get (h.chunkKey chunk) s' = .ok (some bytes) ∧
      ∀ other, h.IsChunk other → other ≠ chunk →
        Store.get (h.chunkKey other) s' = Store.get (h.chunkKey other) s := by
  have hstored : ¬ (!h.options.storeEmptyChunks && h.isEmptyChunk cells) = true := by
    simp [hr.storeEmptyChunks]
  rw [storeChunk, if_neg hstored] at hrun
  obtain ⟨bytes, s₁, hread, hset⟩ := StoreAction.bind_eq_ok_iff.1 hrun
  obtain ⟨hmapped, rfl⟩ := StoreAction.reading_eq_ok_iff.1 hread
  rw [onChunk, StoreAction.rename_eq_ok_iff] at hset
  obtain ⟨hgood, hget, hothers⟩ := hr.keeps.set hs ⟨chunk, hchunk, rfl⟩ hset
  refine ⟨bytes, Checked.mapError_eq_ok_iff.1 hmapped, hgood, hget, fun other hother hne => ?_⟩
  exact hothers _ ⟨other, hother, rfl⟩ (chunkKey_ne hr.wellFormed hchunk hother hne)

theorem storeChunk_eq_ok (hstore : h.options.storeEmptyChunks = true) {cells : NdArray t.Element}
    {bytes : Bytes} (hencode : h.codecs.encode cells = .ok bytes)
    (hset : (Store.set (h.chunkKey chunk) bytes : StoreAction σ StoreError Unit) s = (.ok (), s')) :
    h.storeChunk chunk cells s = (.ok (), s') := by
  rw [storeChunk, if_neg (by simp [hstore]), StoreAction.bind_eq_ok_iff]
  refine ⟨bytes, s, ?_, StoreAction.rename_eq_ok_iff.2 hset⟩
  exact StoreAction.reading_eq_ok_iff.2 ⟨Checked.mapError_eq_ok_iff.2 hencode, rfl⟩

theorem storedChunk?_of_encode (hr : h.Reliable good) {cells : NdArray t.Element} {bytes : Bytes}
    (hshape : cells.shape = h.grid.chunkShape) (hencode : h.codecs.encode cells = .ok bytes)
    (hget : Store.get (h.chunkKey chunk) s = .ok (some bytes)) :
    h.storedChunk? chunk s = .ok (some cells) := by
  rw [storedChunk?, hget]
  simp [decodeChunk_of_encode hr.wellFormed hr.lossless hshape hencode]

theorem chunkChanged_storeChunk (hr : h.Reliable good) (hs : good s) (hchunk : h.IsChunk chunk)
    {cells : NdArray t.Element} (hshape : cells.shape = h.grid.chunkShape)
    (hrun : h.storeChunk chunk cells s = (.ok (), s')) :
    h.ChunkChanged good chunk (some cells) s s' := by
  obtain ⟨bytes, hencode, hgood, hget, hothers⟩ := storeChunk_spec hr hs hchunk hrun
  refine ⟨hgood, storedChunk?_of_encode hr hshape hencode hget, fun other hother hne => ?_⟩
  exact storedChunk?_congr (hothers other hother hne)

theorem chunkChanged_erase (hr : h.Reliable good) (hs : good s) (hchunk : h.IsChunk chunk)
    {found : Bool} (hrun : h.onChunk chunk (Store.erase (h.chunkKey chunk)) s = (.ok found, s')) :
    h.ChunkChanged good chunk none s s' := by
  rw [onChunk, StoreAction.rename_eq_ok_iff] at hrun
  obtain ⟨hgood, hget, hothers⟩ := hr.keeps.erase hs ⟨chunk, hchunk, rfl⟩ hrun
  refine ⟨hgood, storedChunk?_eq_none hget, fun other hother hne => ?_⟩
  exact storedChunk?_congr (hothers _ ⟨other, hother, rfl⟩
    (chunkKey_ne hr.wellFormed hchunk hother hne))

end ArrayHandle

end ChunkedArray
