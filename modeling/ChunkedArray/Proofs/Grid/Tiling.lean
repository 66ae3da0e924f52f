import ChunkedArray.Proofs.Grid.Voxel
import ChunkedArray.Proofs.Grid.Words
import Mathlib.Data.Set.Function

/-!
# Chunks tile the array

Every cell of an array is at one place of one chunk, and every place of every chunk that the array
has holds one of its cells. The chunks that the array has are those with a part inside the array. Of
a chunk so far beyond the array that its start is no word, that part is not found.
-/

namespace ChunkedArray

theorem Index.Inside.zero_notMem {i : Index} {shape : Shape} (h : i.Inside shape) : 0 ∉ shape := by
  induction h with
  | nil => exact List.not_mem_nil
  | cons hlt _ ih =>
    rw [List.mem_cons, not_or]
    exact ⟨by omega, ih⟩

theorem Index.exists_inside_of_zero_notMem {shape : Shape} (h : 0 ∉ shape) :
    ∃ i : Index, i.Inside shape := by
  induction shape with
  | nil => exact ⟨[], .nil⟩
  | cons n shape ih =>
    rw [List.mem_cons, not_or] at h
    obtain ⟨i, hi⟩ := ih h.2
    exact ⟨0 :: i, .cons (by omega) hi⟩

namespace RegularGrid

/-- The chunk is one of the array, and the place lies in the part of it that is inside the array. -/
structure HasPlace (g : RegularGrid) (shape : Shape) (chunk place : Index) : Prop where
  checkChunk_eq : g.checkChunk chunk shape = .ok ()
  inside : ∃ extent, g.wordExtent chunk shape = .ok extent ∧ place.Inside extent

/-- The cells of an array of this shape are the places in its chunks, and the chunks of the array
are those that have cells of it. -/
structure Tiles (g : RegularGrid) (shape : Shape) : Prop where
  bijOn : Set.BijOn g.voxelChunk {i | i.Inside shape}
    {x | ∃ chunk place, x = .ok (chunk, place) ∧ g.HasPlace shape chunk place}
  cellAt_eq : ∀ i, i.Inside shape → ∀ chunk place, g.voxelChunk i = .ok (chunk, place) →
    g.cellAt chunk place = i
  checkChunk_iff : ∀ chunk extent, chunk.length = g.rank → g.wordExtent chunk shape = .ok extent →
    (g.checkChunk chunk shape = .ok () ↔ 0 ∉ extent)
  wordExtent_of_lt : ∀ chunk, (∀ x ∈ chunk.zip g.chunkShape, x.1 * x.2 < wordLimit) →
    ∃ extent, g.wordExtent chunk shape = .ok extent
  /-- A chunk whose start is no word along some axis is refused, and its extent is not found. -/
  wordExtent_of_le : ∀ chunk, chunk.length = g.rank →
    ∀ x ∈ chunk.zip g.chunkShape, wordLimit ≤ x.1 * x.2 →
      g.wordExtent chunk shape = .error .overflow ∧ ∃ e, g.checkChunk chunk shape = .error (.error e)

variable {g : RegularGrid} {shape : Shape} {chunk place : Index}

theorem checkChunk_eq_ok_iff_zero_notMem (h : g.Cuts shape) (hchunk : chunk.length = g.rank) :
    g.checkChunk chunk shape = .ok () ↔ 0 ∉ g.chunkExtent chunk shape := by
  rw [checkChunk_eq_ok_iff h]
  constructor
  · intro hin
    obtain ⟨place, hplace⟩ := exists_inside_chunkExtent h hin
    exact hplace.zero_notMem
  · intro hzero
    obtain ⟨place, hplace⟩ := Index.exists_inside_of_zero_notMem hzero
    obtain ⟨hcell, hof, -⟩ := cellAt_spec h hchunk hplace
    rw [← hof]
    exact inside_chunkCounts h hcell

/-- A chunk that the array has starts before the end of the array along every axis. -/
theorem wordExtent_eq_ok (h : g.Cuts shape) (hword : ∀ m ∈ shape, m < wordLimit)
    (hchunk : g.checkChunk chunk shape = .ok ()) :
    g.wordExtent chunk shape = .ok (g.chunkExtent chunk shape) := by
  refine wordExtent_eq_ok_iff.2 ⟨?_, rfl⟩
  have hlength := ((checkChunk_eq_ok_iff h).1 hchunk).length_eq.trans (length_chunkCounts h)
  have hzero := (checkChunk_eq_ok_iff_zero_notMem h hlength).1 hchunk
  intro x hx
  have hm := hword x.2 (List.of_mem_zip hx).2
  have hne : min x.1.2 (x.2 - x.1.1 * x.1.2) ≠ 0 := fun heq =>
    hzero (List.mem_map.2 ⟨x, hx, heq⟩)
  omega

theorem onlyOverflows_wordExtent (g : RegularGrid) (chunk : Index) (shape : Shape) :
    Word.OnlyOverflows (g.wordExtent chunk shape) :=
  Word.onlyOverflows_mapM fun _ _ =>
    (Word.onlyOverflows_mul _ _).bind fun _ => Word.onlyOverflows_ok _

theorem checkChunk_eq_error (h : g.Cuts shape) (hchunk : g.checkChunk chunk shape ≠ .ok ()) :
    ∃ e, g.checkChunk chunk shape = .error (.error e) := by
  cases hrank : RankMismatch.check chunk.length g.rank with
  | error e =>
    refine ⟨.rank e, ?_⟩
    rw [checkChunk, hrank]
    rfl
  | ok _ =>
    have heq : g.checkChunk chunk shape =
        Checked.report id (checkCoords 0 chunk (g.chunkCounts shape)) := by
      rw [checkChunk, hrank, gridShape_eq_ok h.pos]
      rfl
    rw [heq] at hchunk ⊢
    cases hcoords : checkCoords 0 chunk (g.chunkCounts shape) with
    | error e => exact ⟨e, rfl⟩
    | ok _ =>
      rw [hcoords] at hchunk
      exact absurd rfl hchunk

theorem exists_wordExtent (hchunk : ∀ x ∈ chunk.zip g.chunkShape, x.1 * x.2 < wordLimit) :
    ∃ extent, g.wordExtent chunk shape = .ok extent :=
  ⟨_, wordExtent_eq_ok_iff.2 ⟨fun x hx => hchunk x.1 (List.of_mem_zip hx).1, rfl⟩⟩

theorem wordExtent_eq_overflow (h : g.Cuts shape) (hchunk : chunk.length = g.rank) {x : Nat × Nat}
    (hx : x ∈ chunk.zip g.chunkShape) (hlarge : wordLimit ≤ x.1 * x.2) :
    g.wordExtent chunk shape = .error .overflow := by
  refine (onlyOverflows_wordExtent g chunk shape).eq_overflow fun extent hextent => ?_
  have hlength : (chunk.zip g.chunkShape).length ≤ shape.length := by
    rw [List.length_zip, hchunk, ← h.length_eq]
    exact Nat.min_le_right _ _
  rw [← List.map_fst_zip hlength, List.mem_map] at hx
  obtain ⟨y, hy, rfl⟩ := hx
  have hword := (wordExtent_eq_ok_iff.1 hextent).1 y hy
  omega

theorem hasPlace_iff (h : g.Cuts shape) (hword : ∀ m ∈ shape, m < wordLimit) :
    g.HasPlace shape chunk place ↔
      g.checkChunk chunk shape = .ok () ∧ place.Inside (g.chunkExtent chunk shape) := by
  constructor
  · rintro ⟨hchunk, extent, hextent, hplace⟩
    obtain ⟨-, rfl⟩ := wordExtent_eq_ok_iff.1 hextent
    exact ⟨hchunk, hplace⟩
  · rintro ⟨hchunk, hplace⟩
    exact ⟨hchunk, _, wordExtent_eq_ok h hword hchunk, hplace⟩

theorem hasPlace_chunkOf_placeOf (h : g.Cuts shape) (hword : ∀ m ∈ shape, m < wordLimit) {i : Index}
    (hi : i.Inside shape) : g.HasPlace shape (g.chunkOf i) (g.placeOf i) :=
  (hasPlace_iff h hword).2
    ⟨(checkChunk_eq_ok_iff h).2 (inside_chunkCounts h hi), placeOf_inside h hi⟩

theorem bijOn_voxelChunk (h : g.Cuts shape) (hword : ∀ m ∈ shape, m < wordLimit) :
    Set.BijOn g.voxelChunk {i | i.Inside shape}
      {x | ∃ chunk place, x = .ok (chunk, place) ∧ g.HasPlace shape chunk place} := by
  have hlength {i : Index} (hi : i.Inside shape) : i.length = g.rank :=
    hi.length_eq.trans h.length_eq.symm
  refine ⟨?_, ?_, ?_⟩
  · intro i hi
    exact ⟨_, _, voxelChunk_eq_ok h.pos (hlength hi), hasPlace_chunkOf_placeOf h hword hi⟩
  · intro i hi j hj heq
    rw [voxelChunk_eq_ok h.pos (hlength hi), voxelChunk_eq_ok h.pos (hlength hj)] at heq
    obtain ⟨hof, hat⟩ := Prod.mk.inj (Except.ok.inj heq)
    rw [← cellAt_chunkOf_placeOf (hlength hi), hof, hat, cellAt_chunkOf_placeOf (hlength hj)]
  · rintro _ ⟨chunk, place, rfl, hplace⟩
    obtain ⟨hchunk, hinside⟩ := (hasPlace_iff h hword).1 hplace
    have hrank := ((checkChunk_eq_ok_iff h).1 hchunk).length_eq.trans (length_chunkCounts h)
    obtain ⟨hcell, hof, hat⟩ := cellAt_spec h hrank hinside
    refine ⟨g.cellAt chunk place, hcell, ?_⟩
    rw [voxelChunk_eq_ok h.pos (hlength hcell), hof, hat]

theorem tiles_of_cuts (h : g.Cuts shape) (hword : ∀ m ∈ shape, m < wordLimit) : g.Tiles shape := by
  refine ⟨bijOn_voxelChunk h hword, ?_, ?_, fun _ => exists_wordExtent, ?_⟩
  · intro i hi chunk place heq
    have hlength := hi.length_eq.trans h.length_eq.symm
    rw [voxelChunk_eq_ok h.pos hlength] at heq
    obtain ⟨rfl, rfl⟩ := Prod.mk.inj (Except.ok.inj heq)
    exact cellAt_chunkOf_placeOf hlength
  · intro chunk extent hlength hextent
    obtain ⟨-, rfl⟩ := wordExtent_eq_ok_iff.1 hextent
    exact checkChunk_eq_ok_iff_zero_notMem h hlength
  · intro chunk hlength x hx hlarge
    have hextent := wordExtent_eq_overflow h hlength hx hlarge
    refine ⟨hextent, checkChunk_eq_error h fun hchunk => ?_⟩
    rw [wordExtent_eq_ok h hword hchunk] at hextent
    cases hextent

/-- Chunks of two by three, the last row of them cut off by the end of the array, and a third axis
that is shorter than its chunks. -/
theorem tiles_of_cuts_edges : (Cuts ⟨[2, 3, 7]⟩ [5, 6, 4] ∧ ∀ m ∈ [5, 6, 4], m < wordLimit) ∧
    Tiles ⟨[2, 3, 7]⟩ [5, 6, 4] := by
  have h : Cuts ⟨[2, 3, 7]⟩ [5, 6, 4] := ⟨rfl, by decide⟩
  have hword : ∀ m ∈ [5, 6, 4], m < wordLimit := by decide
  exact ⟨⟨h, hword⟩, tiles_of_cuts h hword⟩

/-- A chunk of two cells that starts at the first place that is no word: it is refused, and there is
no extent that would have a zero axis. -/
theorem wordExtent_farBeyond :
    (∃ e, (⟨[2]⟩ : RegularGrid).checkChunk [addressLimit] [4] = .error (.error e)) ∧
      (⟨[2]⟩ : RegularGrid).wordExtent [addressLimit] [4] = .error .overflow :=
  ⟨⟨.outOfBounds 0 addressLimit 2, by decide⟩, by decide⟩

end RegularGrid

end ChunkedArray
