import ChunkedArray.Metadata
import ChunkedArray.Proofs.Json.Values

/-!
# Metadata and their documents

The document that is written for metadata is read back as the same metadata, field by field. It takes
lengths that are words and attributes in order, which metadata that were read from a document have.
-/

namespace ChunkedArray

namespace RawJson

/-! ### Words -/

theorem nat?_int {limit n : Nat} (h : n < limit) : nat? limit (.int n) = some n := by
  have hle : (0 : Int) ≤ n ∧ (n : Int) ≤ (limit : Int) - 1 := by omega
  rw [nat?, int?, if_pos hle]
  rfl

theorem word?_int {n : Nat} (h : n < wordLimit) : word? (.int n) = some n := nat?_int h

theorem list?_map {α : Type} {write : α → RawJson} {read : RawJson → Option α} {l : List α}
    (h : ∀ a ∈ l, read (write a) = some a) : (RawJson.arr (l.map write)).list? read = some l := by
  show (l.map write).mapM read = some l
  induction l with
  | nil => rfl
  | cons a l ih =>
    rw [List.forall_mem_cons] at h
    rw [List.map_cons, List.mapM_cons, h.1, ih h.2]
    rfl

theorem words?_ofNats {l : List Nat} (h : ∀ n ∈ l, n < wordLimit) :
    (ofNats l).list? word? = some l := list?_map fun n hn => word?_int (h n hn)

theorem optional?_eq_some_some {α : Type} {read : RawJson → Option α} {x : RawJson} {a : α}
    (h : x.optional? read = some (some a)) : x ≠ .null ∧ read x = some a := by
  cases x with
  | null => cases h
  | _ =>
    obtain ⟨b, hb, he⟩ := Option.map_eq_some_iff.1 h
    exact ⟨nofun, Option.some.inj he ▸ hb⟩

theorem required_eq_some_iff {α : Type} {fields : List (String × RawJson)} {name : String}
    {read : RawJson → Option α} {a : α} :
    required fields name read = some a ↔ ∃ x, fields.lookup name = some x ∧ read x = some a :=
  Option.bind_eq_some_iff

theorem defaulted_eq_some {α : Type} {fields : List (String × RawJson)} {name : String}
    {default a : α} {read : RawJson → Option α} (h : defaulted fields name default read = some a) :
    a = default ∨ ∃ x, read x = some a := by
  unfold defaulted at h
  split at h
  · exact .inl (Option.some.inj h).symm
  · next x _ => exact .inr ⟨x, h⟩

theorem eq_null_of_value? {x : RawJson} (h : x.value? = some .null) : x = .null := by
  cases x with
  | null => rfl
  | arr items => obtain ⟨_, -, he⟩ := Option.map_eq_some_iff.1 h; cases he
  | obj members => obtain ⟨_, -, he⟩ := Option.map_eq_some_iff.1 h; cases he
  | _ => cases h

theorem lt_of_word? {n : Nat} {x : RawJson} (h : x.word? = some n) : n < wordLimit := by
  obtain ⟨i, hi, rfl⟩ := Option.map_eq_some_iff.1 h
  cases x with
  | int j =>
    simp only [int?] at hi
    split at hi
    · next hle =>
      obtain rfl := Option.some.inj hi
      unfold wordLimit at hle ⊢
      omega
    · cases hi
  | _ => cases hi

theorem of_mem_list? {α : Type} {p : α → Prop} {read : RawJson → Option α} {x : RawJson}
    {l : List α} (h : x.list? read = some l) (hp : ∀ y a, read y = some a → p a) :
    ∀ a ∈ l, p a := by
  cases x with
  | arr items =>
    replace h : items.mapM read = some l := h
    induction items generalizing l with
    | nil =>
      obtain rfl := Option.some.inj h
      exact fun a ha => absurd ha List.not_mem_nil
    | cons y items ih =>
      simp only [List.mapM_cons, Option.bind_eq_bind, Option.bind_eq_some_iff, Option.pure_def,
        Option.some.injEq] at h
      obtain ⟨a, ha, rest, hrest, rfl⟩ := h
      exact List.forall_mem_cons.2 ⟨hp y a ha, ih hrest⟩
  | _ => cases h

theorem lt_of_mem_words {x : RawJson} {l : List Nat} (h : x.list? word? = some l) :
    ∀ n ∈ l, n < wordLimit := of_mem_list? h fun _ _ => lt_of_word?

/-! ### Fields -/

theorem eraseDups_of_nodup {l : List String} (h : l.Nodup) : l.eraseDups = l := by
  induction l with
  | nil => rfl
  | cons a l ih =>
    obtain ⟨ha, h⟩ := List.nodup_cons.1 h
    have hfilter : l.filter (fun b => !b == a) = l := by
      refine List.filter_eq_self.2 fun b hb => ?_
      have hne : b ≠ a := fun he => ha (he ▸ hb)
      simpa using hne
    rw [List.eraseDups_cons, hfilter, ih h]

/-- An object that has declared fields alone, and none twice, is read as it is. -/
theorem fields?_obj {names : List String} {members : List (String × RawJson)}
    (hnames : ∀ m ∈ members, m.1 ∈ names) (hnodup : (members.map Prod.fst).Nodup) :
    (RawJson.obj members).fields? names = some members := by
  have hfilter : members.filter (fun m => names.contains m.1) = members :=
    List.filter_eq_self.2 fun m hm => List.contains_iff_mem.2 (hnames m hm)
  simp only [fields?, namedFields?, hfilter]
  rw [eraseDups_of_nodup hnodup, List.length_map, if_pos rfl]

theorem tagged?_tagged (name : String) (configuration : List (String × RawJson)) :
    (tagged name configuration).tagged? = some (name, .obj configuration, false) := by
  have hfields : (tagged name configuration).fields? ["name", "configuration"] =
      some [("name", .str name), ("configuration", .obj configuration)] :=
    fields?_obj (by simp) (by simp)
  rw [tagged?, hfields]
  simp [required, tag?, tagged, caseName?, List.lookup_cons]

end RawJson

/-! ### The parts of a document -/

theorem DataType.ofName_name (t : DataType) : DataType.ofName t.name = .ok t := by
  cases t with
  | bool => decide
  | int s | uint s | float s => cases s <;> decide

theorem RegularGrid.ofRaw?_toRaw {g : RegularGrid} (h : ∀ n ∈ g.chunkShape, n < wordLimit) :
    ofRaw? g.toRaw = some g := by
  have hfields : (RawJson.obj [("chunk_shape", .ofNats g.chunkShape)]).fields? ["chunk_shape"] =
      some [("chunk_shape", .ofNats g.chunkShape)] := RawJson.fields?_obj (by simp) (by simp)
  simp [ofRaw?, toRaw, RawJson.tagged?_tagged, hfields, RawJson.required, RawJson.words?_ofNats h]

theorem RegularGrid.lt_of_ofRaw? {x : RawJson} {g : RegularGrid} (h : ofRaw? x = some g) :
    ∀ n ∈ g.chunkShape, n < wordLimit := by
  simp only [ofRaw?, Option.bind_eq_bind, Option.bind_eq_some_iff, Option.pure_def] at h
  obtain ⟨⟨name, configuration, kept⟩, -, h⟩ := h
  split at h
  · cases h
  · simp only [Option.bind_eq_some_iff, Option.some.injEq] at h
    obtain ⟨fields, -, chunkShape, hread, rfl⟩ := h
    obtain ⟨y, -, hy⟩ := Option.bind_eq_some_iff.1 hread
    exact RawJson.lt_of_mem_words hy

theorem ChunkKeyEncoding.ofRaw?_toRaw (e : ChunkKeyEncoding) : ofRaw? e.toRaw = some e := by
  cases e with
  | default s | v2 s => cases s <;> rfl

namespace CodecSpec

/-- A configuration that can be told apart from one that was left out. -/
def Representable (c : CodecSpec) : Prop := ∀ x ∈ c.configuration, x.Canonical ∧ x ≠ .null

theorem optional?_value? {x : Json} (hx : x.Canonical ∧ x ≠ .null) :
    RawJson.optional? RawJson.value? x.toRaw = some (some x) := by
  have hvalue := Json.value?_toRaw hx.1
  cases x with
  | null => exact absurd rfl hx.2
  | _ =>
    rw [Json.toRaw] at hvalue ⊢
    simp only [RawJson.optional?, hvalue, Option.map_some]

theorem ofRaw?_toRaw {c : CodecSpec} (h : c.Representable) : ofRaw? c.toRaw = some c := by
  obtain ⟨name, configuration⟩ := c
  cases configuration with
  | none =>
    have hfields : (RawJson.obj [("name", .str name)]).fields? ["name", "configuration"] =
        some [("name", .str name)] := RawJson.fields?_obj (by simp) (by simp)
    simp [ofRaw?, toRaw, hfields, RawJson.required, RawJson.defaulted, RawJson.string?, List.lookup_cons]
  | some x =>
    have hfields : (RawJson.obj [("name", .str name), ("configuration", x.toRaw)]).fields?
        ["name", "configuration"] = some [("name", .str name), ("configuration", x.toRaw)] :=
      RawJson.fields?_obj (by simp) (by simp)
    simp [ofRaw?, toRaw, hfields, RawJson.required, RawJson.defaulted, RawJson.string?, List.lookup_cons,
      optional?_value? (h x rfl)]

theorem representable_of_ofRaw? {x : RawJson} {c : CodecSpec} (h : ofRaw? x = some c) :
    c.Representable := by
  simp only [ofRaw?, Option.bind_eq_bind, Option.bind_eq_some_iff, Option.pure_def,
    Option.some.injEq] at h
  obtain ⟨fields, -, name, -, configuration, hread, rfl⟩ := h
  rintro v ⟨⟩
  rcases RawJson.defaulted_eq_some hread with hnone | ⟨y, hy⟩
  · cases hnone
  · obtain ⟨hne, hvalue⟩ := RawJson.optional?_eq_some_some hy
    refine ⟨RawJson.canonical_of_value? hvalue, ?_⟩
    rintro rfl
    exact hne (RawJson.eq_null_of_value? hvalue)

end CodecSpec

/-! ### Whole documents -/

namespace ArrayMetadata

/-- The document can hold the metadata: lengths are words, and names are in order. -/
structure Representable (m : ArrayMetadata) : Prop where
  zarrFormat : m.zarrFormat < wordLimit
  shape : ∀ n ∈ m.shape, n < wordLimit
  chunkShape : ∀ n ∈ m.chunkGrid.chunkShape, n < wordLimit
  fillValue : m.fillValue.Canonical
  codecs : ∀ c ∈ m.codecs, c.Representable
  attributes : (Json.obj m.attributes).Canonical

theorem namesOfRaw?_namesToRaw (names : List (Option String)) :
    RawJson.list? (RawJson.optional? RawJson.string?) (namesToRaw names) = some names := by
  refine RawJson.list?_map fun name _ => ?_
  cases name <;> rfl

/-- The members of the document before the dimension names. -/
def members (m : ArrayMetadata) : List (String × RawJson) :=
  [("zarr_format", .int m.zarrFormat), ("node_type", .str m.nodeType), ("shape", .ofNats m.shape),
    ("data_type", .str m.dataType.name), ("chunk_grid", m.chunkGrid.toRaw),
    ("chunk_key_encoding", m.chunkKeyEncoding.toRaw), ("fill_value", m.fillValue.toRaw),
    ("codecs", .arr (m.codecs.map CodecSpec.toRaw)), ("attributes", (Json.obj m.attributes).toRaw)]

def namesMember (m : ArrayMetadata) : List (String × RawJson) :=
  m.dimensionNames.toList.map fun names => ("dimension_names", namesToRaw names)

theorem fields?_toRaw (m : ArrayMetadata) :
    m.toRaw.fields? fieldNames = some (m.members ++ m.namesMember) := by
  refine RawJson.fields?_obj ?_ ?_
  · cases m.dimensionNames <;> simp [fieldNames]
  · cases m.dimensionNames <;> simp

theorem defaulted_namesMember (m : ArrayMetadata) :
    RawJson.defaulted (m.members ++ m.namesMember) "dimension_names" none
      (RawJson.optional? (RawJson.list? (RawJson.optional? RawJson.string?))) =
      some m.dimensionNames := by
  cases hnames : m.dimensionNames with
  | none => simp [RawJson.defaulted, members, namesMember, hnames, List.lookup_cons]
  | some names =>
    have hread : RawJson.optional? (RawJson.list? (RawJson.optional? RawJson.string?))
        (namesToRaw names) = some (some names) :=
      congrArg (Option.map some) (namesOfRaw?_namesToRaw names)
    simp [RawJson.defaulted, members, namesMember, hnames, List.lookup_cons, hread]

theorem ofRaw?_toRaw {m : ArrayMetadata} (h : m.Representable) : ofRaw? m.toRaw = some m := by
  have hformat := RawJson.word?_int h.zarrFormat
  have hshape := RawJson.words?_ofNats h.shape
  have hgrid := RegularGrid.ofRaw?_toRaw h.chunkShape
  have hfill := Json.value?_toRaw h.fillValue
  have hcodecs := RawJson.list?_map fun c hc => CodecSpec.ofRaw?_toRaw (h.codecs c hc)
  have hattributes := Json.value?_toRaw h.attributes
  have hnames := defaulted_namesMember m
  rw [ofRaw?, fields?_toRaw]
  simp only [Option.bind_eq_bind, Option.bind_some, hnames]
  simp [members, RawJson.required, RawJson.defaulted, List.lookup_cons, RawJson.string?, dataTypeOfRaw?,
    attributesOfRaw?, hformat, hshape, hgrid, hfill, hcodecs, hattributes, DataType.ofName_name,
    ChunkKeyEncoding.ofRaw?_toRaw, Except.toOption]

/-- What a document was read as has in each field what the member of that name was read as. -/
theorem exists_fields_of_ofRaw? {x : RawJson} {m : ArrayMetadata} (h : ofRaw? x = some m) :
    ∃ fields, x.fields? fieldNames = some fields ∧
      RawJson.required fields "zarr_format" RawJson.word? = some m.zarrFormat ∧
      RawJson.required fields "shape" (RawJson.list? RawJson.word?) = some m.shape ∧
      RawJson.required fields "data_type" dataTypeOfRaw? = some m.dataType ∧
      RawJson.required fields "chunk_grid" RegularGrid.ofRaw? = some m.chunkGrid ∧
      RawJson.required fields "fill_value" RawJson.value? = some m.fillValue ∧
      RawJson.defaulted fields "codecs" [] (RawJson.list? CodecSpec.ofRaw?) = some m.codecs ∧
      RawJson.defaulted fields "attributes" [] attributesOfRaw? = some m.attributes := by
  simp only [ofRaw?, Option.bind_eq_bind, Option.bind_eq_some_iff, Option.pure_def,
    Option.some.injEq] at h
  obtain ⟨fields, hfields, _, hformat, _, -, _, hshape, _, htype, _, hgrid, _, -, _, hfill, _, hcodecs,
    _, hattributes, _, -, rfl⟩ := h
  exact ⟨fields, hfields, hformat, hshape, htype, hgrid, hfill, hcodecs, hattributes⟩

/-- Metadata that were read from a document can be written to one. -/
theorem representable_of_ofRaw? {x : RawJson} {m : ArrayMetadata} (h : ofRaw? x = some m) :
    m.Representable := by
  obtain ⟨fields, -, hformat, hshape, -, hgrid, hfill, hcodecs, hattributes⟩ :=
    exists_fields_of_ofRaw? h
  obtain ⟨_, -, hformat'⟩ := RawJson.required_eq_some_iff.1 hformat
  obtain ⟨_, -, hshape'⟩ := RawJson.required_eq_some_iff.1 hshape
  obtain ⟨_, -, hgrid'⟩ := RawJson.required_eq_some_iff.1 hgrid
  obtain ⟨_, -, hfill'⟩ := RawJson.required_eq_some_iff.1 hfill
  constructor
  · exact RawJson.lt_of_word? hformat'
  · exact RawJson.lt_of_mem_words hshape'
  · exact RegularGrid.lt_of_ofRaw? hgrid'
  · exact RawJson.canonical_of_value? hfill'
  · rcases RawJson.defaulted_eq_some hcodecs with hnil | ⟨y, hy⟩
    · rw [hnil]
      exact fun c hc => absurd hc List.not_mem_nil
    · exact RawJson.of_mem_list? hy fun _ _ => CodecSpec.representable_of_ofRaw?
  · rcases RawJson.defaulted_eq_some hattributes with hnil | ⟨y, hy⟩
    · rw [hnil]
      exact ⟨List.Pairwise.nil, trivial⟩
    · unfold attributesOfRaw? at hy
      split at hy
      · next found hvalue =>
        rw [← Option.some.inj hy]
        exact RawJson.canonical_of_value? hvalue
      · cases hy

end ArrayMetadata

end ChunkedArray
