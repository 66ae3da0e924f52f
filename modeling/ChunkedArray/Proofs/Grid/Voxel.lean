import ChunkedArray.Grid
import ChunkedArray.Proofs.NdArray.Cells
import ChunkedArray.Proofs.Outcome
import Mathlib.Logic.Basic

/-!
# Cells and chunks

A grid without empty axes gives each cell of an array a chunk and a place in the part of the chunk
that lies inside the array, and each such place a cell. The two are inverse to each other.
-/

namespace ChunkedArray

namespace RegularGrid

variable (g : RegularGrid)

/-- The chunk of a cell. -/
def chunkOf (i : Index) : Index := List.zipWith (· / ·) i g.chunkShape

/-- The place of a cell in its chunk. -/
def placeOf (i : Index) : Index := List.zipWith (· % ·) i g.chunkShape

/-- The cell at a place in a chunk. -/
def cellAt (chunk place : Index) : Index :=
  List.zipWith (· + ·) (List.zipWith (· * ·) chunk g.chunkShape) place

/-- The shape of the part of a chunk that lies inside the array. -/
def chunkExtent (idx : Index) (arrayShape : Shape) : Shape :=
  ((idx.zip g.chunkShape).zip arrayShape).map fun ((i, n), length) => min n (length - i * n)

/-- The number of chunks along each axis of an array. -/
def chunkCounts (shape : Shape) : Shape := List.zipWith ceilDiv shape g.chunkShape

/-- No axis of the chunks is empty, and there are as many as the array has. -/
structure Cuts (shape : Shape) : Prop where
  length_eq : g.chunkShape.length = shape.length
  pos : ∀ n ∈ g.chunkShape, 0 < n

variable {g : RegularGrid}

theorem cuts_cons_iff {n m : Nat} {lengths shape : Shape} :
    Cuts ⟨n :: lengths⟩ (m :: shape) ↔ 0 < n ∧ Cuts ⟨lengths⟩ shape := by
  constructor
  · intro ⟨hlength, hpos⟩
    rw [List.forall_mem_cons] at hpos
    exact ⟨hpos.1, ⟨Nat.succ.inj hlength, hpos.2⟩⟩
  · intro ⟨hn, hlength, hpos⟩
    exact ⟨congrArg Nat.succ hlength, List.forall_mem_cons.2 ⟨hn, hpos⟩⟩

/-! ### What the operations compute -/

theorem zipLengths_eq_ok {α : Type} (hpos : ∀ n ∈ g.chunkShape, 0 < n) (f : Nat → Nat → α)
    (coords : List Nat) : g.zipLengths f coords = .ok (List.zipWith f coords g.chunkShape) := by
  have h (c n : Nat) (hmem : (c, n) ∈ coords.zip g.chunkShape) : n ≠ 0 := by
    have := hpos n (List.of_mem_zip hmem).2
    omega
  rw [zipLengths, if_neg, List.map_zip_eq_zipWith]
  · rfl
  · intro hzero
    obtain ⟨⟨c, n⟩, hmem, hn⟩ := List.any_eq_true.1 hzero
    exact h c n hmem (beq_iff_eq.1 hn)

theorem voxelChunk_eq_ok (hpos : ∀ n ∈ g.chunkShape, 0 < n) {i : Index} (hi : i.length = g.rank) :
    g.voxelChunk i = .ok (g.chunkOf i, g.placeOf i) := by
  simp [voxelChunk, RankMismatch.check_eq_ok_iff.2 hi, zipLengths_eq_ok hpos, chunkOf, placeOf]

theorem gridShape_eq_ok (hpos : ∀ n ∈ g.chunkShape, 0 < n) (shape : Shape) :
    g.gridShape shape = .ok (g.chunkCounts shape) := zipLengths_eq_ok hpos ceilDiv shape

theorem checkCoords_eq_ok_iff {axis : Nat} {idx : Index} {counts : Shape}
    (h : idx.length = counts.length) : checkCoords axis idx counts = .ok () ↔ idx.Inside counts := by
  induction idx generalizing axis counts with
  | nil =>
    cases counts with
    | nil => simp [checkCoords, Index.Inside.nil]
    | cons => simp at h
  | cons i idx ih =>
    cases counts with
    | nil => simp at h
    | cons n counts =>
      have ih : checkCoords (axis + 1) idx counts = .ok () ↔ Index.Inside idx counts :=
        ih (Nat.succ.inj h)
      rw [checkCoords]
      split
      · next hi =>
        simp only [reduceCtorEq, false_iff]
        intro h
        cases h
        omega
      · next hi =>
        rw [ih]
        exact ⟨.cons (by omega), fun h => by cases h; assumption⟩

theorem length_chunkCounts {shape : Shape} (h : g.Cuts shape) :
    (g.chunkCounts shape).length = g.rank := by
  simp [chunkCounts, rank, h.length_eq]

theorem checkChunk_eq_ok_iff {shape : Shape} (h : g.Cuts shape) {chunk : Index} :
    g.checkChunk chunk shape = .ok () ↔ chunk.Inside (g.chunkCounts shape) := by
  have hcounts := length_chunkCounts h
  simp only [checkChunk, Outcome.check_bind_eq_ok_iff, Checked.report_eq_ok_iff,
    RankMismatch.check_eq_ok_iff, gridShape_eq_ok h.pos, Checked.guarded_ok, Outcome.ok_bind]
  constructor
  · rintro ⟨hlength, hin⟩
    exact (checkCoords_eq_ok_iff (hlength.trans hcounts.symm)).1 hin
  · intro hin
    exact ⟨hin.length_eq.trans hcounts, (checkCoords_eq_ok_iff hin.length_eq).2 hin⟩

/-! ### The correspondence -/

theorem inside_chunkCounts {shape : Shape} (h : g.Cuts shape) {i : Index} (hi : i.Inside shape) :
    (g.chunkOf i).Inside (g.chunkCounts shape) := by
  obtain ⟨lengths⟩ := g
  induction hi generalizing lengths with
  | nil =>
    cases lengths with
    | nil => exact .nil
    | cons => exact absurd h.length_eq (by simp)
  | @cons i m idx shape hlt _ ih =>
    cases lengths with
    | nil => exact absurd h.length_eq (by simp)
    | cons n lengths =>
      obtain ⟨hn, h⟩ := cuts_cons_iff.1 h
      refine .cons ((lt_ceilDiv_iff hn).2 ?_) (ih lengths h)
      exact Nat.lt_of_le_of_lt (Nat.div_mul_le_self i n) hlt

theorem placeOf_inside {shape : Shape} (h : g.Cuts shape) {i : Index} (hi : i.Inside shape) :
    (g.placeOf i).Inside (g.chunkExtent (g.chunkOf i) shape) := by
  obtain ⟨lengths⟩ := g
  induction hi generalizing lengths with
  | nil =>
    cases lengths with
    | nil => exact .nil
    | cons => exact absurd h.length_eq (by simp)
  | @cons i m idx shape hlt _ ih =>
    cases lengths with
    | nil => exact absurd h.length_eq (by simp)
    | cons n lengths =>
      obtain ⟨hn, h⟩ := cuts_cons_iff.1 h
      have hdiv := Nat.div_add_mod' i n
      have hlast : i % n < m - i / n * n := by omega
      exact .cons (Nat.lt_min.2 ⟨Nat.mod_lt i hn, hlast⟩) (ih lengths h)

theorem cellAt_chunkOf_placeOf {i : Index} (hi : i.length = g.rank) :
    g.cellAt (g.chunkOf i) (g.placeOf i) = i := by
  obtain ⟨lengths⟩ := g
  induction i generalizing lengths with
  | nil => rfl
  | cons i idx ih =>
    cases lengths with
    | nil => simp [rank] at hi
    | cons n lengths =>
      simp only [cellAt, chunkOf, placeOf, List.zipWith_cons_cons, List.cons.injEq]
      exact ⟨Nat.div_add_mod' i n, ih lengths (Nat.succ.inj hi)⟩

theorem inside_chunkShape {shape : Shape} (h : g.Cuts shape) {chunk place : Index}
    (hchunk : chunk.length = g.rank) (hplace : place.Inside (g.chunkExtent chunk shape)) :
    place.Inside g.chunkShape := by
  obtain ⟨lengths⟩ := g
  induction shape generalizing lengths chunk place with
  | nil =>
    cases lengths with
    | cons => exact absurd h.length_eq (by simp)
    | nil =>
      cases chunk with
      | cons => simp [rank] at hchunk
      | nil => exact hplace
  | cons m shape ih =>
    cases lengths with
    | nil => exact absurd h.length_eq (by simp)
    | cons n lengths =>
      cases chunk with
      | nil => simp [rank] at hchunk
      | cons c chunk =>
        cases hplace with
        | cons hp hplace =>
          exact .cons (Nat.lt_min.1 hp).1
            (ih lengths (cuts_cons_iff.1 h).2 (Nat.succ.inj hchunk) hplace)

theorem chunkOf_placeOf_cellAt (hpos : ∀ n ∈ g.chunkShape, 0 < n) {chunk place : Index}
    (hchunk : chunk.length = g.rank) (hplace : place.Inside g.chunkShape) :
    g.chunkOf (g.cellAt chunk place) = chunk ∧ g.placeOf (g.cellAt chunk place) = place := by
  obtain ⟨lengths⟩ := g
  change place.Inside lengths at hplace
  induction hplace generalizing chunk with
  | nil =>
    obtain rfl := List.eq_nil_of_length_eq_zero hchunk
    exact ⟨rfl, rfl⟩
  | @cons p n place lengths hlt _ ih =>
    rw [List.forall_mem_cons] at hpos
    cases chunk with
    | nil => cases hchunk
    | cons c chunk =>
      obtain ⟨hof, hat⟩ := ih hpos.2 (Nat.succ.inj hchunk)
      refine ⟨congrArg₂ List.cons ?_ hof, congrArg₂ List.cons ?_ hat⟩
      · show (c * n + p) / n = c
        rw [Nat.add_comm, Nat.add_mul_div_right _ _ hpos.1, Nat.div_eq_of_lt hlt, Nat.zero_add]
      · show (c * n + p) % n = p
        rw [Nat.add_comm, Nat.add_mul_mod_self_right, Nat.mod_eq_of_lt hlt]

theorem cellAt_inside {shape : Shape} (h : g.Cuts shape) {chunk place : Index}
    (hchunk : chunk.length = g.rank) (hplace : place.Inside (g.chunkExtent chunk shape)) :
    (g.cellAt chunk place).Inside shape := by
  obtain ⟨lengths⟩ := g
  induction shape generalizing lengths chunk place with
  | nil =>
    cases lengths with
    | cons => exact absurd h.length_eq (by simp)
    | nil =>
      cases chunk with
      | cons => simp [rank] at hchunk
      | nil => exact .nil
  | cons m shape ih =>
    cases lengths with
    | nil => exact absurd h.length_eq (by simp)
    | cons n lengths =>
      cases chunk with
      | nil => simp [rank] at hchunk
      | cons c chunk =>
        cases hplace with
        | @cons p _ place _ hp hplace =>
          have hlt : p < n ∧ p < m - c * n := Nat.lt_min.1 hp
          have hin : c * n + p < m := by omega
          exact .cons hin (ih lengths (cuts_cons_iff.1 h).2 (Nat.succ.inj hchunk) hplace)

theorem cellAt_spec {shape : Shape} (h : g.Cuts shape) {chunk place : Index}
    (hchunk : chunk.length = g.rank) (hplace : place.Inside (g.chunkExtent chunk shape)) :
    (g.cellAt chunk place).Inside shape ∧ g.chunkOf (g.cellAt chunk place) = chunk ∧
      g.placeOf (g.cellAt chunk place) = place :=
  ⟨cellAt_inside h hchunk hplace,
    chunkOf_placeOf_cellAt h.pos hchunk (inside_chunkShape h hchunk hplace)⟩

/-- A chunk of the array has a place inside the array. -/
theorem exists_inside_chunkExtent {shape : Shape} (h : g.Cuts shape) {chunk : Index}
    (hchunk : chunk.Inside (g.chunkCounts shape)) :
    ∃ place : Index, place.Inside (g.chunkExtent chunk shape) := by
  obtain ⟨lengths⟩ := g
  induction shape generalizing lengths chunk with
  | nil =>
    cases lengths with
    | cons => exact absurd h.length_eq (by simp)
    | nil => cases hchunk; exact ⟨[], .nil⟩
  | cons m shape ih =>
    cases lengths with
    | nil => exact absurd h.length_eq (by simp)
    | cons n lengths =>
      obtain ⟨hn, h⟩ := cuts_cons_iff.1 h
      cases hchunk with
      | @cons c _ chunk _ hc hchunk =>
        obtain ⟨place, hplace⟩ := ih lengths h hchunk
        have hlt : c * n < m := (lt_ceilDiv_iff hn).1 hc
        exact ⟨0 :: place, .cons (Nat.lt_min.2 ⟨hn, Nat.sub_pos_of_lt hlt⟩) hplace⟩

end RegularGrid

end ChunkedArray
