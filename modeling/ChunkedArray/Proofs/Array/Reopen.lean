import ChunkedArray.Proofs.Array.Handles
import ChunkedArray.Proofs.Codec.Specs
import ChunkedArray.Proofs.Json.Text
import ChunkedArray.Proofs.Store.Laws

/-!
# Arrays that are opened again

Creating an array adds one entry to the store. The array is opened from it as it was created: the
metadata name the codecs as they were resolved, and what was left out has been filled in. Where
creating fails no entry has changed.
-/

namespace ChunkedArray

namespace ArrayMetadata

theorem Representable.withCodecs {m : ArrayMetadata} {specs : List CodecSpec}
    (h : { m with codecs := [] }.Representable) (hspecs : ∀ c ∈ specs, c.Representable) :
    { m with codecs := specs }.Representable := { h with codecs := hspecs }

theorem ofBytes?_toBytes {m : ArrayMetadata} (h : m.Representable) (hback : m.toRaw.ReadsBack) :
    ofBytes? m.toBytes = some m := by
  rw [ofBytes?, toBytes, RawJson.ofBytes?_toUTF8, hback, Option.bind_some, ofRaw?_toRaw h]

end ArrayMetadata

namespace ArrayHandle

variable {t : DataType} {key : Key} {metadata : ArrayMetadata} {options : ArrayOptions}

/-- The handle that is given out when an array is created from what its metadata describe. -/
def resolved (made : ArrayHandle t) : ArrayHandle t :=
  { made with metadata := { made.metadata with codecs := made.codecs.specs } }

/-- Metadata with resolved codecs describe the same array. -/
theorem ofMetadata_resolved {made : ArrayHandle t}
    (h : ofMetadata t key metadata .default options = .ok made) (options' : ArrayOptions) :
    ofMetadata t key made.resolved.metadata .default options' =
      .ok { made.resolved with options := options' } := by
  obtain ⟨hvalid, htype, hfill, hcodecs, hfits, hmade⟩ := ofMetadata_eq_ok_iff.1 h
  have hmetadata : made.metadata = metadata := congrArg ArrayHandle.metadata hmade
  have hkey : made.key = key := congrArg ArrayHandle.key hmade
  have hresolved := CodecRegistry.resolveChain_specs hcodecs
  rw [resolved, hmetadata, hkey]
  exact ofMetadata_eq_ok_iff.2 ⟨hvalid, htype, hfill, hresolved, hfits, rfl⟩

theorem representable_resolved {made : ArrayHandle t}
    (h : ofMetadata t key metadata .default options = .ok made)
    (hm : { metadata with codecs := [] }.Representable) : made.resolved.metadata.Representable := by
  obtain ⟨-, -, -, hcodecs, -, hmade⟩ := ofMetadata_eq_ok_iff.1 h
  have hmetadata : made.metadata = metadata := congrArg ArrayHandle.metadata hmade
  rw [resolved, hmetadata]
  exact hm.withCodecs (CodecRegistry.representable_specs hcodecs)

section

variable {σ : Type} [Store σ] {s s' : σ}

/-- A failure comes before the metadata are written, or from the store. -/
theorem create_eq_error {registry : CodecRegistry} {e : ArrayError}
    (h : create t key metadata registry options s = (.error e, s')) :
    s' = s ∨ ∃ value storeError,
      (Store.set key.metadata value : StoreAction σ StoreError Unit) s = (.error storeError, s') := by
  obtain hhas | ⟨found, _, hhas, hfound⟩ := StoreAction.bind_eq_error_iff.1 h
  · exact .inl (StoreAction.reading_eq_error_iff.1 hhas).2
  obtain ⟨-, rfl⟩ := StoreAction.reading_eq_ok_iff.1 hhas
  obtain hguard | hrest := StoreAction.guard_eq_error hfound
  · exact .inl hguard
  obtain hread | ⟨made, _, hread, hwrite⟩ := StoreAction.bind_eq_error_iff.1 hrest
  · exact .inl (StoreAction.reading_eq_error_iff.1 hread).2
  obtain ⟨hmade, rfl⟩ := StoreAction.reading_eq_ok_iff.1 hread
  obtain hset | ⟨_, _, -, hpure⟩ := StoreAction.bind_eq_error_iff.1 hwrite
  · obtain ⟨storeError, hset⟩ := StoreAction.rename_eq_error hset
    have hkey : made.key = key := congrArg ArrayHandle.key (ofMetadata_eq_ok_iff.1 hmade).2.2.2.2.2
    rw [metadataKey, hkey] at hset
    exact .inr ⟨_, storeError, hset⟩
  · cases hpure

/-- The store got one entry, from which the array is opened as it was created. -/
structure Persisted (keys : Key → Prop) (key : Key) (metadata : ArrayMetadata) (s s' : σ)
    (h : ArrayHandle t) : Prop where
  absent : Store.get key.metadata s = .ok none
  stored : Store.get key.metadata s' = .ok (some h.metadata.toBytes)
  others : ∀ k, keys k → k ≠ key.metadata → Store.get k s' = Store.get k s
  metadata_eq : h.metadata = { metadata with codecs := h.codecs.specs }
  reopened : h.metadata.toRaw.ReadsBack →
    ∀ options', openStored t key .default options' s' = .ok { h with options := options' }

variable {keys : Key → Prop} {good : σ → Prop}

theorem Persisted.of_create {h : ArrayHandle t} (hkeeps : KeepsValues σ keys good)
    (hclean : FailsCleanly σ keys good) (hgood : good s) (hkey : keys key.metadata)
    (hm : { metadata with codecs := [] }.Representable)
    (hcreate : create t key metadata .default options s = (.ok h, s')) :
    Persisted keys key metadata s s' h := by
  obtain ⟨hhas, made, hmade, rfl, hset⟩ := create_eq_ok_iff.1 hcreate
  have heq := (ofMetadata_eq_ok_iff.1 hmade).2.2.2.2.2
  have hmadeKey : made.key = key := congrArg ArrayHandle.key heq
  have hmetadata : made.metadata = metadata := congrArg ArrayHandle.metadata heq
  rw [metadataKey, hmadeKey] at hset
  obtain ⟨-, hstored, hothers⟩ := hkeeps.set hgood hkey hset
  refine ⟨hclean.has hgood hkey hhas, hstored, hothers, by rw [hmetadata], fun hback options' => ?_⟩
  have hread := ArrayMetadata.ofBytes?_toBytes (representable_resolved hmade hm) hback
  exact openStored_eq_ok_iff.2 ⟨_, _, hstored, hread, ofMetadata_resolved hmade options'⟩

/-- Creating an array either adds its metadata to the store, from which it is opened again, or leaves
the store as it was. -/
theorem create_persists (hkeeps : KeepsValues σ keys good) (hclean : FailsCleanly σ keys good)
    (hgood : good s) (hkey : keys key.metadata)
    (hm : { metadata with codecs := [] }.Representable) :
    (∀ h s', create t key metadata .default options s = (.ok h, s') →
      Persisted keys key metadata s s' h) ∧
    ∀ e s', create t key metadata .default options s = (.error e, s') →
      ∀ k, keys k → Store.get k s' = Store.get k s := by
  refine ⟨fun h s' hcreate => .of_create hkeeps hclean hgood hkey hm hcreate,
    fun e s' hfail k hk => ?_⟩
  rcases create_eq_error hfail with rfl | ⟨value, storeError, hset⟩
  · rfl
  · exact hclean.set hgood hkey hset k hk

end

/-! ### A document that says little -/

/-- A document without a byte order, a level of compression, a form of the keys or attributes. -/
def briefDocument : RawJson :=
  .obj [("zarr_format", .int 3), ("node_type", .str "array"), ("shape", .ofNats [5, 3]),
    ("data_type", .str "uint16"), ("chunk_grid", .tagged "regular" [("chunk_shape", .ofNats [2, 2])]),
    ("fill_value", .int 7),
    ("codecs", .arr [.tagged "transpose" [("order", .ofNats [1, 0])], .obj [("name", .str "gzip")]])]

def briefMetadata : ArrayMetadata where
  zarrFormat := 3
  nodeType := "array"
  shape := [5, 3]
  dataType := .uint .bits16
  chunkGrid := ⟨[2, 2]⟩
  chunkKeyEncoding := .standard
  fillValue := .int 7
  codecs := [⟨"transpose", some (.obj [("order", .ofNats [1, 0])])⟩, ⟨"gzip", none⟩]
  attributes := []
  dimensionNames := none

def briefCodecs : CodecChain := ⟨[⟨[1, 0]⟩], .default, [.gzip .default]⟩

def briefHandle : ArrayHandle (.uint .bits16) :=
  ⟨.root, { briefMetadata with codecs := briefCodecs.specs }, briefCodecs, DataType.ofPattern _ 7,
    .default 1⟩

def briefStore : MemoryStore :=
  MemoryStore.empty.insert briefHandle.metadataKey briefHandle.metadata.toBytes

theorem ofRaw?_briefDocument : ArrayMetadata.ofRaw? briefDocument = some briefMetadata := rfl

set_option maxRecDepth 20000 in
theorem readsBack_briefHandle : briefHandle.metadata.toRaw.ReadsBack := by
  rw [RawJson.ReadsBack, RawJson.ofText?, Json.Source.ofText, RawJson.pretty, String.toList_ofList]
  with_unfolding_all rfl

theorem create_persists_brief :
    ArrayMetadata.ofRaw? briefDocument = some briefMetadata ∧
      Persisted (fun _ => True) .root briefMetadata MemoryStore.empty briefStore briefHandle ∧
      openStored _ .root .default (.default 1) briefStore = .ok briefHandle ∧
      ∃ s', create (.uint .bits16) .root briefMetadata .default (.default 1) briefStore =
        (.error (.alreadyExists .root), s') ∧ ∀ k, Store.get k s' = Store.get k briefStore := by
  have hm := ArrayMetadata.representable_of_ofRaw? ofRaw?_briefDocument
  have hbare : { briefMetadata with codecs := [] }.Representable :=
    { hm with codecs := List.forall_mem_nil _ }
  have hkeeps := MemoryStore.keepsValues fun _ => True
  have hclean := MemoryStore.failsCleanly fun _ => True
  have hcreated : Persisted (fun _ => True) .root briefMetadata MemoryStore.empty briefStore
      briefHandle := (create_persists hkeeps hclean trivial trivial hbare).1 _ _ rfl
  have hreopened := hcreated.reopened readsBack_briefHandle (.default 1)
  have hagain : create (.uint .bits16) .root briefMetadata .default (.default 1) briefStore =
      (.error (.alreadyExists .root), briefStore) := rfl
  have hsame := (create_persists hkeeps hclean trivial trivial hbare).2 _ _ hagain
  exact ⟨ofRaw?_briefDocument, hcreated, hreopened, _, hagain, fun k => hsame k trivial⟩

end ArrayHandle

end ChunkedArray
