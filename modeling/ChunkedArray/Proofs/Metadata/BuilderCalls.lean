import ChunkedArray.Metadata.Builder
import ChunkedArray.Proofs.NdArray.AxisOrder
import Mathlib.Data.List.Induction

/-!
# Calls of a builder

Metadata are built by any calls in any order. Each call checks the ranks that it adds, so all parts
of what is built have the rank of the shape. The last call for a part counts, only codecs are added
one after the other.
-/

namespace ChunkedArray

theorem RankMismatch.union_eq_ok_iff {m n : Nat} {r : Option Nat} :
    union (some m) (some n) = .ok r ↔ n = m ∧ some m = r := by
  rw [union, Outcome.map_eq_ok_iff, ← check_eq_ok_iff]
  exact ⟨fun ⟨(), hcheck, hr⟩ => ⟨hcheck, hr⟩, fun ⟨hcheck, hr⟩ => ⟨(), hcheck, hr⟩⟩

namespace MetadataBuilder

variable {t : DataType} {b b' : MetadataBuilder t} {shape : Shape}

/-! ### Calls -/

/-- A call of a builder, with one of the built-in codecs where it takes a codec on bytes. -/
inductive Call (t : DataType) where
  | chunkGrid (g : RegularGrid)
  | chunkKeyEncoding (e : ChunkKeyEncoding)
  | fillValue (x : t.Element)
  | elementBytes (c : ElementBytes)
  | transpose (c : Transpose)
  | crc32c
  | gzip (level : GzipLevel)
  | setAttribute (name : String) (value : Json)
  | dimensionNames (names : List (Option String))

inductive CallError where
  | rank (e : RankMismatch)
  | codec (e : CodecConfigError)

def apply (b : MetadataBuilder t) : Call t → Except CallError (MetadataBuilder t)
  | .chunkGrid g => (b.withChunkGrid g).mapError .rank
  | .chunkKeyEncoding e => .ok (b.withChunkKeyEncoding e)
  | .fillValue x => .ok (b.withFillValue x)
  | .elementBytes c => .ok (b.withElementBytes c)
  | .transpose c => (b.addTranspose c).mapError .codec
  | .crc32c => .ok (b.addByteCodec .crc32c)
  | .gzip level => .ok (b.addByteCodec (.gzip level))
  | .setAttribute name value => .ok (b.setAttribute name value)
  | .dimensionNames names => (b.withDimensionNames names).mapError .rank

/-- Makes the calls one after the other, from a builder of which only the shape is chosen. -/
def run (shape : Shape) (calls : List (Call t)) : Except CallError (MetadataBuilder t) :=
  calls.foldlM apply (ofShape t shape)

/-! ### Single calls -/

theorem withChunkGrid_eq_ok_iff {g : RegularGrid} :
    b.withChunkGrid g = .ok b' ↔ g.rank = b.rank ∧ { b with chunkGrid := some g } = b' := by
  simp [withChunkGrid, Outcome.bind_eq_ok_iff, RankMismatch.union_eq_ok_iff]

theorem addTranspose_eq_ok_iff {c : Transpose} :
    b.addTranspose c = .ok b' ↔ NdArray.IsAxisOrder b.rank c.order ∧
      { b with codecs := { b.codecs with transposes := b.codecs.transposes ++ [c] } } = b' := by
  rw [addTranspose, Outcome.bind_eq_ok_iff]
  simp only [Outcome.mapError_eq_ok_iff, RankMismatch.union_eq_ok_iff, Outcome.check_bind_eq_ok_iff,
    Transpose.validateFor_eq_ok_iff, Outcome.pure_eq_ok, Except.ok.injEq]
  constructor
  · rintro ⟨_, -, horder, hb'⟩
    exact ⟨horder, hb'⟩
  · rintro ⟨horder, hb'⟩
    exact ⟨_, ⟨Transpose.length_of_isAxisOrder horder, rfl⟩, horder, hb'⟩

theorem withDimensionNames_eq_ok_iff {names : List (Option String)} :
    b.withDimensionNames names = .ok b' ↔
      names.length = b.rank ∧ { b with dimensionNames := some names } = b' := by
  simp [withDimensionNames, Outcome.check_bind_eq_ok_iff, RankMismatch.check_eq_ok_iff]

/-! ### What calls choose -/

namespace Call

@[simp] def chunkGrid? : Call t → Option RegularGrid
  | .chunkGrid g => some g
  | _ => none

@[simp] def chunkKeyEncoding? : Call t → Option ChunkKeyEncoding
  | .chunkKeyEncoding e => some e
  | _ => none

@[simp] def fillValue? : Call t → Option t.Element
  | .fillValue x => some x
  | _ => none

@[simp] def elementBytes? : Call t → Option ElementBytes
  | .elementBytes c => some c
  | _ => none

@[simp] def transpose? : Call t → Option Transpose
  | .transpose c => some c
  | _ => none

@[simp] def byteCodec? : Call t → Option ByteCodec
  | .crc32c => some .crc32c
  | .gzip level => some (.gzip level)
  | _ => none

@[simp] def attribute? : Call t → Option (String × Json)
  | .setAttribute name value => some (name, value)
  | _ => none

@[simp] def dimensionNames? : Call t → Option (List (Option String))
  | .dimensionNames names => some names
  | _ => none

/-- What the call adds has the rank. -/
def FitsRank (rank : Nat) : Call t → Prop
  | .chunkGrid g => g.rank = rank
  | .transpose c => NdArray.IsAxisOrder rank c.order
  | .dimensionNames names => names.length = rank
  | _ => True

end Call

/-- The last call for a part counts; codecs are added one after the other, attributes by name. -/
def chosen (shape : Shape) (calls : List (Call t)) : MetadataBuilder t where
  shape
  chunkGrid := calls.reverse.findSome? Call.chunkGrid?
  chunkKeyEncoding := calls.reverse.findSome? Call.chunkKeyEncoding?
  fillValue := calls.reverse.findSome? Call.fillValue?
  codecs :=
    { transposes := calls.filterMap Call.transpose?
      elementBytes := (calls.reverse.findSome? Call.elementBytes?).getD .default
      onBytes := calls.filterMap Call.byteCodec? }
  attributes := Json.sortMembers (calls.filterMap Call.attribute?)
  dimensionNames := calls.reverse.findSome? Call.dimensionNames?

/-- The next call succeeds if it fits the rank, and chooses its part. -/
theorem apply_chosen_eq_ok_iff {calls : List (Call t)} {c : Call t} :
    (chosen shape calls).apply c = .ok b ↔
      c.FitsRank shape.length ∧ chosen shape (calls ++ [c]) = b := by
  cases c with
  | chunkGrid g =>
    rw [apply, Outcome.mapError_eq_ok_iff, withChunkGrid_eq_ok_iff]
    simp [chosen, Call.FitsRank, rank, List.filterMap_cons, List.findSome?_cons]
  | transpose c =>
    rw [apply, Outcome.mapError_eq_ok_iff, addTranspose_eq_ok_iff]
    simp [chosen, Call.FitsRank, rank, List.filterMap_cons, List.findSome?_cons]
  | dimensionNames names =>
    rw [apply, Outcome.mapError_eq_ok_iff, withDimensionNames_eq_ok_iff]
    simp [chosen, Call.FitsRank, rank, List.filterMap_cons, List.findSome?_cons]
  | chunkKeyEncoding | fillValue | elementBytes | crc32c | gzip | setAttribute =>
    simp [apply, withChunkKeyEncoding, withFillValue, withElementBytes, addByteCodec, setAttribute,
      CodecChain.replaceElementBytes, chosen, Call.FitsRank, Json.sortMembers, List.filterMap_cons,
      List.findSome?_cons]

/-- Calls succeed exactly if each fits the rank of the shape, and then each has chosen its part. -/
theorem run_eq_ok_iff {calls : List (Call t)} :
    run shape calls = .ok b ↔ (∀ c ∈ calls, c.FitsRank shape.length) ∧ chosen shape calls = b := by
  induction calls using List.reverseRecOn generalizing b with
  | nil => simp [run, chosen, ofShape, CodecChain.default, Json.sortMembers]
  | append_singleton calls c ih =>
    have hlast : run shape (calls ++ [c]) = run shape calls >>= fun b => b.apply c := by
      simp only [run, List.foldlM_append, List.foldlM_cons, List.foldlM_nil, bind_pure]
    simp only [hlast, Outcome.bind_eq_ok_iff, ih, List.forall_mem_append, List.forall_mem_singleton]
    constructor
    · rintro ⟨_, ⟨hcalls, rfl⟩, hc⟩
      obtain ⟨hfits, hb⟩ := apply_chosen_eq_ok_iff.1 hc
      exact ⟨⟨hcalls, hfits⟩, hb⟩
    · rintro ⟨⟨hcalls, hfits⟩, hb⟩
      exact ⟨_, ⟨hcalls, rfl⟩, apply_chosen_eq_ok_iff.2 ⟨hfits, hb⟩⟩

/-! ### What fits the shape -/

/-- All parts have the rank of the shape, and the codecs are built-in ones. -/
structure Fits (b : MetadataBuilder t) : Prop where
  chunkGrid : ∀ g, b.chunkGrid = some g → g.rank = b.rank
  dimensionNames : ∀ names, b.dimensionNames = some names → names.length = b.rank
  isAxisOrder : ∀ c ∈ b.codecs.transposes, NdArray.IsAxisOrder b.rank c.order
  builtIn : ∀ custom, .custom custom ∉ b.codecs.onBytes

theorem exists_call {α : Type} {part : Call t → Option α} {calls : List (Call t)} {x : α}
    (h : calls.reverse.findSome? part = some x) : ∃ c ∈ calls, part c = some x := by
  obtain ⟨c, hc, hx⟩ := List.exists_of_findSome?_eq_some h
  exact ⟨c, List.mem_reverse.1 hc, hx⟩

theorem fits_chosen {calls : List (Call t)} (h : ∀ c ∈ calls, c.FitsRank shape.length) :
    (chosen shape calls).Fits := by
  constructor
  · intro g hg
    obtain ⟨c, hc, hpart⟩ := exists_call hg
    have hfits := h c hc
    cases c <;> cases hpart
    exact hfits
  · intro names hnames
    obtain ⟨c, hc, hpart⟩ := exists_call hnames
    have hfits := h c hc
    cases c <;> cases hpart
    exact hfits
  · intro transpose htranspose
    obtain ⟨c, hc, hpart⟩ := List.mem_filterMap.1 htranspose
    have hfits := h c hc
    cases c <;> cases hpart
    exact hfits
  · intro custom hcustom
    obtain ⟨c, -, hpart⟩ := List.mem_filterMap.1 hcustom
    cases c <;> cases hpart

theorem fits_of_run {calls : List (Call t)} (h : run shape calls = .ok b) : b.Fits := by
  obtain ⟨hcalls, rfl⟩ := run_eq_ok_iff.1 h
  exact fits_chosen hcalls

end MetadataBuilder

end ChunkedArray
