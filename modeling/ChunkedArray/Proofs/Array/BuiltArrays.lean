import ChunkedArray.Proofs.Array.Handles
import ChunkedArray.Proofs.Codec.Specs
import ChunkedArray.Proofs.Codec.Validity
import ChunkedArray.Proofs.Metadata.BuilderCalls
import ChunkedArray.Store.Memory

/-!
# Arrays from built metadata

What a builder checks is checked again when the metadata are used. Built metadata are valid unless
there is no axis or an axis or a chunk is empty, and an array is created from valid ones unless its
elements need a byte order and have none. Its handle has the codecs and the fill value that the
builder had, though both went through the metadata.
-/

namespace ChunkedArray

/-- Only elements of several bytes need a byte order. -/
theorem DataType.validEndian_eq_none_iff {t : DataType} {e : Option Endian} :
    t.validEndian e = none ↔ e = none ∧ 1 < t.byteCount := by
  cases e with
  | some e => simp [validEndian]
  | none => simp [validEndian, hasEndianness]

theorem CodecChain.validate_of_undefinedEndian {chain : CodecChain} {t : DataType} {rank : Nat}
    (horder : ∀ c ∈ chain.transposes, NdArray.IsAxisOrder rank c.order)
    (hendian : t.validEndian chain.elementBytes.endian = none) :
    chain.validate t rank = .error (.undefinedEndian t) := by
  have htransposes : chain.transposes.forM (·.validateFor rank) = .ok () :=
    Outcome.forM_eq_ok_iff.2 fun c hc => Transpose.validateFor_eq_ok_iff.2 (horder c hc)
  have helements : chain.elementBytes.validate t = .error (.undefinedEndian t) := by
    simp [ElementBytes.validate, hendian]
  rw [validate, htransposes, helements]
  rfl

namespace MetadataBuilder

variable {t : DataType} {b : MetadataBuilder t} {shape : Shape} {calls : List (Call t)}

/-! ### Metadata -/

theorem Fits.rank_chunkGrid (h : b.Fits) : b.build.chunkGrid.rank = b.rank := by
  show (b.chunkGrid.getD ⟨b.shape⟩).rank = b.rank
  cases hgrid : b.chunkGrid with
  | none => rfl
  | some g => exact h.chunkGrid g hgrid

/-- The fill value is read back from the metadata; without one it is zero. -/
theorem exists_ofJson_build (b : MetadataBuilder t) :
    ∃ x, FillValue.ofJson t b.build.fillValue = .ok x ∧
      Element.SameUpToPayload (b.fillValue.getD (t.ofPattern 0)) x := by
  show ∃ x, FillValue.ofJson t (b.fillValue.elim (FillValue.default t) FillValue.toJson) = .ok x ∧ _
  cases b.fillValue with
  | none => exact ⟨_, FillValue.ofJson_default t, Element.sameUpToPayload_refl _⟩
  | some x => exact FillValue.exists_ofJson_toJson x

theorem Fits.validate_iff (h : b.Fits) :
    b.build.validate = .ok () ↔
      0 < b.rank ∧ (∀ n ∈ b.shape, 0 < n) ∧ ∀ n ∈ b.build.chunkGrid.chunkShape, 0 < n := by
  obtain ⟨x, hfill, -⟩ := b.exists_ofJson_build
  have hpos (l : List Nat) : 0 ∉ l ↔ ∀ n ∈ l, 0 < n := by
    simp only [Nat.pos_iff_ne_zero]
    exact ⟨fun hzero n hn he => hzero (he ▸ hn), fun hl hzero => hl 0 hzero rfl⟩
  rw [ArrayMetadata.validate_eq_ok_iff, ← hpos, ← hpos, rank, List.length_pos_iff]
  constructor
  · rintro ⟨-, -, hshape, hlengths, -, hchunks, -⟩
    exact ⟨hshape, hlengths, hchunks⟩
  · rintro ⟨hshape, hlengths, hchunks⟩
    exact ⟨rfl, rfl, hshape, hlengths, h.rank_chunkGrid, hchunks, h.dimensionNames, x, hfill⟩

theorem Fits.builtIn_toCodecs (h : b.Fits) (hrank : b.rank ≤ wordLimit) :
    ∀ c ∈ b.codecs.toCodecs, c.BuiltIn := by
  intro c hc
  simp only [CodecChain.toCodecs, List.mem_append, List.mem_map, List.mem_singleton] at hc
  rcases hc with (⟨c, hc, rfl⟩ | rfl) | ⟨c, hc, rfl⟩
  · have horder := h.isAxisOrder c hc
    have hvalid := (Outcome.check_bind_eq_ok_iff.1 (Transpose.validateFor_eq_ok_iff.2 horder)).1
    exact .transpose (fun n hn => ((Transpose.mem_of_isAxisOrder horder).1 hn).trans_le hrank) hvalid
  · exact .elementBytes _
  · cases c with
    | crc32c => exact .crc32c
    | gzip level => exact .gzip level
    | custom custom => exact absurd hc (h.builtIn custom)

/-! ### Handles -/

/-- A store without a document at a key that takes one there. -/
structure TakesDocument {σ : Type} [Store σ] (key : Key) (s : σ) : Prop where
  absent : Store.has key.metadata s = .ok false
  takes : ∀ value, ∃ s',
    (Store.set key.metadata value : StoreAction σ StoreError Unit) s = (.ok (), s')

section

variable (h : b.Fits) (hrank : b.rank ≤ wordLimit) (hvalid : b.build.validate = .ok ())
  (options : ArrayOptions)

include h hrank hvalid

/-- With a byte order where one is needed, valid metadata describe an array with the parts of the
builder. -/
theorem Fits.exists_ofMetadata (key : Key)
    (hendian : t.validEndian b.codecs.elementBytes.endian ≠ none) :
    ∃ x, Element.SameUpToPayload (b.fillValue.getD (t.ofPattern 0)) x ∧
      ArrayHandle.ofMetadata t key b.build .default options =
        .ok ⟨key, b.build, b.codecs, x, options⟩ := by
  obtain ⟨x, hfill, hsame⟩ := b.exists_ofJson_build
  have hchain := CodecRegistry.resolveChain_specs_of_builtIn (h.builtIn_toCodecs hrank)
  have hfits : b.codecs.validate t b.rank = .ok () :=
    (CodecChain.validate_eq_ok_iff h.builtIn).2
      ⟨h.isAxisOrder, ElementBytes.validate_eq_ok_iff.2 (Option.ne_none_iff_exists'.1 hendian)⟩
  exact ⟨x, hsame, ArrayHandle.ofMetadata_eq_ok_iff.2 ⟨hvalid, rfl, hfill, hchain, hfits, rfl⟩⟩

theorem Fits.ofMetadata_eq_error (key : Key)
    (hendian : t.validEndian b.codecs.elementBytes.endian = none) :
    ArrayHandle.ofMetadata t key b.build .default options =
      .error (.codecConfig (.undefinedEndian t)) := by
  obtain ⟨x, hfill, -⟩ := b.exists_ofJson_build
  have hchain : CodecRegistry.default.resolveChain b.build.codecs = .ok b.codecs :=
    CodecRegistry.resolveChain_specs_of_builtIn (h.builtIn_toCodecs hrank)
  have hfits : b.codecs.validate b.build.dataType b.build.rank = .error (.undefinedEndian t) :=
    CodecChain.validate_of_undefinedEndian h.isAxisOrder hendian
  have htype : ¬ t ≠ b.build.dataType := fun hne => hne rfl
  rw [ArrayHandle.ofMetadata, hvalid, hfill, hchain, if_neg htype]
  simp only [Except.mapError, Outcome.ok_bind, Outcome.pure_eq_ok, hfits]
  rfl

/-! ### Creating arrays -/

variable {σ : Type} [Store σ] {key : Key} {s : σ} (hstore : TakesDocument key s)

include hstore

theorem Fits.exists_create (hendian : t.validEndian b.codecs.elementBytes.endian ≠ none) :
    ∃ x s', ArrayHandle.create t key b.build .default options s =
        (.ok ⟨key, b.build, b.codecs, x, options⟩, s') ∧
      Element.SameUpToPayload (b.fillValue.getD (t.ofPattern 0)) x := by
  obtain ⟨x, hsame, hmade⟩ := h.exists_ofMetadata hrank hvalid options key hendian
  obtain ⟨s', hset⟩ := hstore.takes b.build.toBytes
  exact ⟨x, s', ArrayHandle.create_eq_ok_iff.2 ⟨hstore.absent, _, hmade, rfl, hset⟩, hsame⟩

theorem Fits.create_eq_error (hendian : t.validEndian b.codecs.elementBytes.endian = none) :
    ArrayHandle.create t key b.build .default options s =
      (.error (.codecConfig (.undefinedEndian t)), s) := by
  have hmade := h.ofMetadata_eq_error hrank hvalid options key hendian
  simp [ArrayHandle.create, StoreAction.reading_bind_apply, hstore.absent, Except.mapError, hmade]

end

/-- What the metadata are good for that calls of a builder have made. -/
structure MakesArrays (shape : Shape) (calls : List (Call t)) (b : MetadataBuilder t) : Prop where
  chosen_eq : chosen shape calls = b
  valid_iff : b.build.validate = .ok () ↔
    0 < shape.length ∧ (∀ n ∈ shape, 0 < n) ∧ ∀ n ∈ b.build.chunkGrid.chunkShape, 0 < n
  /-- An array is created with the codecs and the fill value of the builder. -/
  created : b.build.validate = .ok () → ¬ (b.codecs.elementBytes.endian = none ∧ 1 < t.byteCount) →
    ∀ {σ : Type} [Store σ] {key : Key} {s : σ} (options : ArrayOptions), TakesDocument key s →
      ∃ h s', ArrayHandle.create t key b.build .default options s = (.ok h, s') ∧
        h.codecs = b.codecs ∧
        Element.SameUpToPayload (b.fillValue.getD (t.ofPattern 0)) h.fillValue
  refused : b.build.validate = .ok () → b.codecs.elementBytes.endian = none → 1 < t.byteCount →
    ∀ {σ : Type} [Store σ] {key : Key} {s : σ} (options : ArrayOptions), TakesDocument key s →
      ArrayHandle.create t key b.build .default options s =
        (.error (.codecConfig (.undefinedEndian t)), s)

/-- Metadata that are built by calls in any order, the rank being a word, are valid unless something
is empty, and then an array can be created from them unless a byte order is missing. -/
theorem makesArrays_of_run (hrank : shape.length ≤ wordLimit) (h : run shape calls = .ok b) :
    MakesArrays shape calls b := by
  have hfits := fits_of_run h
  obtain ⟨-, rfl⟩ := run_eq_ok_iff.1 h
  refine ⟨rfl, hfits.validate_iff, ?_, ?_⟩
  · intro hvalid hendian σ _ key s options hstore
    have hsome : t.validEndian _ ≠ none := hendian ∘ DataType.validEndian_eq_none_iff.1
    obtain ⟨x, s', hcreate, hsame⟩ := hfits.exists_create hrank hvalid options hstore hsome
    exact ⟨_, s', hcreate, rfl, hsame⟩
  · intro hvalid hnone hbytes σ _ key s options hstore
    have hendian := DataType.validEndian_eq_none_iff.2 ⟨hnone, hbytes⟩
    exact hfits.create_eq_error hrank hvalid options hstore hendian

abbrev halfType : DataType := .float .bits16

/-- Calls in no particular order, of which the second fill value counts, a negative zero. -/
def mixedCalls : List (Call halfType) :=
  [.fillValue (halfType.ofPattern 1), .gzip .best, .transpose ⟨[1, 0]⟩, .chunkGrid ⟨[2, 2]⟩, .crc32c,
    .dimensionNames [some "row", none], .elementBytes ⟨some .big⟩, .setAttribute "unit" (.str "m"),
    .fillValue (halfType.ofPattern 0x8000)]

/-- With a byte order an array is created, and without one it is not. -/
theorem makesArrays_of_run_mixed :
    ∃ b b' : MetadataBuilder halfType,
      run [5, 3] mixedCalls = .ok b ∧ run [5, 3] (mixedCalls ++ [.elementBytes ⟨none⟩]) = .ok b' ∧
      b.build.validate = .ok () ∧ b'.build.validate = .ok () ∧
      (∃ h s', ArrayHandle.create halfType .root b.build .default (.default 1) MemoryStore.empty =
          (.ok h, s') ∧
        h.codecs = ⟨[⟨[1, 0]⟩], ⟨some .big⟩, [.gzip .best, .crc32c]⟩ ∧
        h.fillValue = halfType.ofPattern 0x8000) ∧
      ArrayHandle.create halfType .root b'.build .default (.default 1) MemoryStore.empty =
        (.error (.codecConfig (.undefinedEndian halfType)), MemoryStore.empty) := by
  have hrun : run [5, 3] mixedCalls = .ok (chosen [5, 3] mixedCalls) := rfl
  have hrun' : run [5, 3] (mixedCalls ++ [.elementBytes ⟨none⟩]) =
      .ok (chosen [5, 3] (mixedCalls ++ [.elementBytes ⟨none⟩])) := rfl
  have hmakes := makesArrays_of_run (by decide) hrun
  have hmakes' := makesArrays_of_run (by decide) hrun'
  have hvalid := hmakes.valid_iff.2 (by decide)
  have hvalid' := hmakes'.valid_iff.2 (by decide)
  have hstore : TakesDocument .root MemoryStore.empty := ⟨rfl, fun _ => ⟨_, rfl⟩⟩
  obtain ⟨h, s', hcreate, hcodecs, hsame⟩ := hmakes.created hvalid (by decide) (.default 1) hstore
  have hfill : h.fillValue = halfType.ofPattern 0x8000 := by
    rwa [Element.SameUpToPayload, if_neg (by decide)] at hsame
  have hrefused := hmakes'.refused hvalid' rfl (by decide) (.default 1) hstore
  exact ⟨_, _, hrun, hrun', hvalid, hvalid', ⟨h, s', hcreate, hcodecs, hfill⟩, hrefused⟩

end MetadataBuilder

end ChunkedArray
