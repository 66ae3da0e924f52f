import ChunkedArray.Proofs.Array.Represents
import ChunkedArray.Proofs.Grid.Tiling

/-!
# Writing regions

A region is written part by part. Each part replaces its own cells of the plain array, and all parts
together those of the region.
-/

namespace ChunkedArray

/-- A run that has every index of an axis is all of the axis. -/
theorem Run.FitsAxis.isWholeOf_of_index {r : Run} {n : Nat} (hr : r.FitsAxis n) (hn : 0 < n)
    (h : ∀ i < n, ∃ k < r.count, r.index k = i) : r.isWholeOf n = true := by
  obtain ⟨k₀, hk₀, hzero⟩ := h 0 hn
  have hoffset : r.offset = 0 := (Nat.add_eq_zero_iff.1 hzero).1
  have hindex (k : Nat) : r.index k = k * r.step := by rw [Run.index, hoffset, Nat.zero_add]
  have hlast := hr.index_lt (r.count - 1) (by omega)
  rw [hindex] at hlast
  have hstep : r.step = 1 ∨ n ≤ 1 := by
    by_cases hone : 1 < n
    · obtain ⟨k, -, hk⟩ := h 1 hone
      rw [hindex] at hk
      exact .inl (Nat.eq_one_of_mul_eq_one_left hk)
    · exact .inr (by omega)
  have hlower : n ≤ r.count ∧ r.count - 1 < n := by
    have hle : r.count - 1 ≤ (r.count - 1) * r.step := Nat.le_mul_of_pos_right _ hr.step_pos
    refine ⟨?_, by omega⟩
    rcases hstep with hstep | hone
    · obtain ⟨k, hk, he⟩ := h (n - 1) (by omega)
      rw [hindex, hstep] at he
      omega
    · omega
  simp only [Run.isWholeOf, Run.isContiguous, hoffset, Bool.and_eq_true, Bool.or_eq_true,
    decide_eq_true_eq]
  refine ⟨⟨trivial, by omega⟩, ?_⟩
  rcases hstep with hstep | hone
  · exact .inl hstep
  · exact .inr (by omega)

namespace Region

variable {region : Region} {shape : Shape}

theorem index_of_isWholeOf (h : region.isWholeOf shape = true) {i : Index} (hi : i.Inside shape) :
    i.Inside region.shape ∧ region.index i = i := by
  induction hi generalizing region with
  | nil =>
    cases region with
    | nil => exact ⟨.nil, rfl⟩
    | cons => cases h
  | @cons i n idx shape hlt _ ih =>
    cases region with
    | nil => cases h
    | cons r region =>
      simp only [isWholeOf, Run.isWholeOf, Run.isContiguous, Bool.and_eq_true, Bool.or_eq_true,
        decide_eq_true_eq] at h
      obtain ⟨⟨⟨hoffset, hcount⟩, hstep⟩, hrest⟩ := h
      obtain ⟨hin, he⟩ := ih hrest
      have hindex : r.index i = i := by
        rw [Run.index, hoffset]
        rcases hstep with hstep | hone
        · rw [hstep, Nat.mul_one, Nat.zero_add]
        · obtain rfl : i = 0 := by omega
          rw [Nat.zero_mul]
      exact ⟨.cons (hcount.symm ▸ hlt) hin, congrArg₂ List.cons hindex he⟩

/-- A region of which every cell of a shape is one is all of the shape. -/
theorem isWholeOf_of_index (hfits : region.Fits shape) (hpos : ∃ i : Index, i.Inside shape)
    (h : ∀ i : Index, i.Inside shape → ∃ k : Index, k.Inside region.shape ∧ region.index k = i) :
    region.isWholeOf shape = true := by
  induction hfits with
  | nil => rfl
  | @cons r n region shape hr _ ih =>
    obtain ⟨_, hpos⟩ := hpos
    cases hpos with
    | @cons i _ idx _ hi hidx =>
      have hrun : ∀ i < n, ∃ k < r.count, r.index k = i := by
        intro i hi
        obtain ⟨k, hk, he⟩ := h (i :: idx) (.cons hi hidx)
        cases hk with
        | cons hk _ => exact ⟨_, hk, (List.cons.inj he).1⟩
      have hrest : isWholeOf region shape = true := by
        refine ih ⟨idx, hidx⟩ fun idx hidx => ?_
        obtain ⟨k, hk, he⟩ := h (i :: idx) (.cons hi hidx)
        cases hk with
        | cons _ hk => exact ⟨_, hk, (List.cons.inj he).2⟩
      rw [isWholeOf, hr.isWholeOf_of_index (by omega) hrun, hrest]
      rfl

end Region

namespace ChunkPart

variable {p : ChunkPart} {region : Region} {lengths shape : Shape}

theorem IsPartOf.inChunk_fits_lengths (h : p.IsPartOf region lengths)
    (hpos : ∀ n ∈ lengths, 0 < n) (hr : region.Fits shape) : p.inChunk.Fits lengths := by
  induction h generalizing shape with
  | nil => exact .nil
  | cons ha _ ih =>
    rw [List.forall_mem_cons] at hpos
    cases hr with
    | cons hr hregion =>
      obtain ⟨hstep, hlt, hoffset⟩ := ha.inChunk_fits hpos.1 hr
      refine .cons ⟨hstep, fun k hk => ?_, ?_⟩ (ih hpos.2 hregion)
      · exact Nat.lt_of_lt_of_le (hlt k hk) (Nat.min_le_left ..)
      · exact Nat.le_trans hoffset (Nat.min_le_left ..)

/-- The plain array with the cells of a part replaced. -/
def overwrite {α : Type} (p : ChunkPart) (region : Region) (f : Index → α) (plain : Index → α) :
    Index → α :=
  ChunkedArray.overwrite p.inRegion.shape (fun k => region.index (p.inRegion.index k))
    (fun k => f (p.inRegion.index k)) plain

end ChunkPart

namespace ArrayHandle

variable {t : DataType} {σ : Type} [Store σ] {h : ArrayHandle t} {good : σ → Prop} {s s' : σ}
  {plain : Index → t.Element} {region : Region} {p : ChunkPart} {f : Index → t.Element}

/-! ### The cells of a part -/

section

variable (hwf : h.WellFormed) (hfits : region.Fits h.shape) (hp : p ∈ h.grid.regionParts region)

include hwf hfits hp

theorem isPartOf_of_mem : p.IsPartOf region h.grid.chunkShape :=
  RegularGrid.isPartOf_of_mem hwf.cuts hfits p hp

theorem part_index_inside {k : Index} (hk : k.Inside p.inRegion.shape) :
    (region.index (p.inRegion.index k)).Inside h.shape :=
  hfits.index_inside ((isPartOf_of_mem hwf hfits hp).index_inside hk)

theorem part_chunkOf {k : Index} (hk : k.Inside p.inRegion.shape) :
    h.grid.chunkOf (region.index (p.inRegion.index k)) = p.chunk :=
  (isPartOf_of_mem hwf hfits hp).chunkOf_eq hk

theorem part_placeOf {k : Index} (hk : k.Inside p.inRegion.shape) :
    h.grid.placeOf (region.index (p.inRegion.index k)) = p.inChunk.index k :=
  (isPartOf_of_mem hwf hfits hp).placeOf_eq hk

theorem part_cellAt {k : Index} (hk : k.Inside p.inRegion.shape) :
    h.grid.cellAt p.chunk (p.inChunk.index k) = region.index (p.inRegion.index k) := by
  have hlength := (part_index_inside hwf hfits hp hk).length_eq.trans hwf.cuts.length_eq.symm
  rw [← part_chunkOf hwf hfits hp hk, ← part_placeOf hwf hfits hp hk]
  exact RegularGrid.cellAt_chunkOf_placeOf hlength

theorem isChunk_part : h.IsChunk p.chunk := by
  obtain ⟨k, hk⟩ := Index.exists_inside (isPartOf_of_mem hwf hfits hp).size_pos
  rw [← part_chunkOf hwf hfits hp hk]
  exact isChunk_chunkOf hwf (part_index_inside hwf hfits hp hk)

theorem part_index_injective (j k : Index) (hj : j.Inside p.inRegion.shape)
    (hk : k.Inside p.inRegion.shape)
    (he : region.index (p.inRegion.index j) = region.index (p.inRegion.index k)) : j = k := by
  have hpart := isPartOf_of_mem hwf hfits hp
  exact hpart.inRegion_fits.index_injective hj hk
    (hfits.index_injective (hpart.index_inside hj) (hpart.index_inside hk) he)

theorem overwrite_part_index {k : Index} (hk : k.Inside p.inRegion.shape) :
    p.overwrite region f plain (region.index (p.inRegion.index k)) = f (p.inRegion.index k) :=
  overwrite_index (part_index_injective hwf hfits hp) hk

theorem overwrite_part_of_ne {i : Index} (hne : h.grid.chunkOf i ≠ p.chunk) :
    p.overwrite region f plain i = plain i := by
  refine overwrite_of_ne fun k hk he => hne ?_
  rw [← he]
  exact part_chunkOf hwf hfits hp hk

end

/-! ### Merging one part -/

/-- Merging a part into any chunk sets its cells to `f` of their index in the region. -/
def Writes (h : ArrayHandle t) (region : Region) (merge : Merge t) (f : Index → t.Element) : Prop :=
  ∀ p ∈ h.grid.regionParts region, ∀ base : NdArray t.Element, base.shape = h.grid.chunkShape →
    ∃ merged, merge p base = .ok merged ∧
      NdArray.Replaced p.inChunk (fun k => f (p.inRegion.index k)) base merged

theorem writes_value (hwf : h.WellFormed) (hfits : region.Fits h.shape) (x : t.Element) :
    h.Writes region (mergeValue x) fun _ => x := by
  intro p hp base hshape
  have hin := (isPartOf_of_mem hwf hfits hp).inChunk_fits_lengths hwf.cuts.pos hfits
  exact NdArray.assignAll_spec (a := base) (hshape ▸ hin) x

theorem writes_data (hwf : h.WellFormed) (hfits : region.Fits h.shape) {data : NdArray t.Element}
    (hdata : data.shape = region.shape) : h.Writes region (mergeData data) data.cell := by
  intro p hp base hshape
  have hpart := isPartOf_of_mem hwf hfits hp
  obtain ⟨src, hsrc, hsrcShape, hsrcCell⟩ :=
    NdArray.slice_spec (a := data) (hdata ▸ hpart.inRegion_fits)
  have hin := hpart.inChunk_fits_lengths hwf.cuts.pos hfits
  obtain ⟨merged, hmerged, hreplaced⟩ := NdArray.assign_spec (a := base) (hshape ▸ hin)
    (hsrcShape.trans hpart.shape_eq.symm)
  refine ⟨merged, ?_, hreplaced.shape_eq, fun k hk => ?_, hreplaced.cell_of_ne⟩
  · rw [mergeData, hsrc, Outcome.ok_bind, hmerged]
  · rw [hreplaced.cell_index k hk, hsrcCell k (hpart.shape_eq ▸ hk)]

/-- The same of the merges that succeed. -/
def Merges (h : ArrayHandle t) (region : Region) (merge : Merge t) (f : Index → t.Element) : Prop :=
  ∀ p ∈ h.grid.regionParts region, ∀ base merged : NdArray t.Element,
    base.shape = h.grid.chunkShape → merge p base = .ok merged →
    NdArray.Replaced p.inChunk (fun k => f (p.inRegion.index k)) base merged

theorem Writes.merges {merge : Merge t} (hwrites : h.Writes region merge f) :
    h.Merges region merge f := by
  intro p hp base merged hshape hmerge
  obtain ⟨b, hb, hreplaced⟩ := hwrites p hp base hshape
  obtain rfl := Except.ok.inj (hb.symm.trans hmerge)
  exact hreplaced

theorem chunkOrFill_spec (hrep : h.Represents good plain s) {chunk : Index} (hchunk : h.IsChunk chunk)
    (hwf : h.WellFormed) {cells : NdArray t.Element} (hread : h.chunkOrFill chunk s = .ok cells) :
    cells.shape = h.grid.chunkShape ∧
      ∀ place : Index, place.Inside (h.grid.chunkExtent chunk h.shape) →
        cells.cell place = plain (h.grid.cellAt chunk place) := by
  obtain ⟨stored, hstored, hshape, hcell⟩ := hrep.shows chunk hchunk
  rw [chunkOrFill, hstored, Outcome.ok_bind] at hread
  cases stored with
  | some found =>
    obtain rfl := Except.ok.inj hread
    exact ⟨hshape found rfl, fun place hplace => (hcell place hplace).symm⟩
  | none =>
    obtain ⟨hfilled, hfill⟩ := NdArray.filled_spec (Checked.guarded_eq_ok_iff.1 hread)
    refine ⟨hfilled, fun place hplace => ?_⟩
    rw [hfill place (inside_chunkShape hwf hchunk hplace), hcell place hplace]
    rfl

/-- The chunk of a part starts inside the array, so its extent is found. -/
theorem replacesChunk_eq_ok (hwf : h.WellFormed) (hfits : region.Fits h.shape)
    (hp : p ∈ h.grid.regionParts region) :
    h.replacesChunk p = .ok (p.inChunk.isWholeOf (h.grid.chunkExtent p.chunk h.shape)) := by
  have hchunk := (RegularGrid.checkChunk_eq_ok_iff hwf.cuts).2 (isChunk_part hwf hfits hp)
  rw [replacesChunk, RegularGrid.wordExtent_eq_ok hwf.cuts hwf.lt_wordLimit hchunk]
  rfl

theorem mergeBase_of_mem (hwf : h.WellFormed) (hfits : region.Fits h.shape)
    (hp : p ∈ h.grid.regionParts region) (s : σ) :
    h.mergeBase p s =
      if p.inChunk.isWholeOf (h.grid.chunkExtent p.chunk h.shape) then h.filled h.grid.chunkShape
      else h.chunkOrFill p.chunk s := by
  rw [mergeBase, replacesChunk_eq_ok hwf hfits hp, Checked.guarded_ok, Outcome.ok_bind]

/-- What a part is merged into shows the plain array at the places that the part leaves. -/
theorem mergeBase_spec (hrep : h.Represents good plain s) (hwf : h.WellFormed)
    (hfits : region.Fits h.shape) (hp : p ∈ h.grid.regionParts region) {base : NdArray t.Element}
    (hbase : h.mergeBase p s = .ok base) :
    base.shape = h.grid.chunkShape ∧
      ∀ place : Index, place.Inside (h.grid.chunkExtent p.chunk h.shape) →
        (∀ k : Index, k.Inside p.inChunk.shape → p.inChunk.index k ≠ place) →
        base.cell place = plain (h.grid.cellAt p.chunk place) := by
  rw [mergeBase_of_mem hwf hfits hp] at hbase
  split at hbase
  · next hwhole =>
    refine ⟨(NdArray.filled_spec (Checked.guarded_eq_ok_iff.1 hbase)).1, fun place hplace hne => ?_⟩
    obtain ⟨hin, he⟩ := Region.index_of_isWholeOf hwhole hplace
    exact absurd he (hne place hin)
  · obtain ⟨hshape, hcell⟩ := chunkOrFill_spec hrep (isChunk_part hwf hfits hp) hwf hbase
    exact ⟨hshape, fun place hplace _ => hcell place hplace⟩

theorem Represents.mergePart (hr : h.Reliable good) (hrep : h.Represents good plain s)
    (hfits : region.Fits h.shape) {merge : Merge t} (hmerge : h.Merges region merge f)
    (hp : p ∈ h.grid.regionParts region) (hrun : h.mergePart merge p s = (.ok (), s')) :
    h.Represents good (p.overwrite region f plain) s' := by
  have hwf := hr.wellFormed
  have hpart := isPartOf_of_mem hwf hfits hp
  have hchunk := isChunk_part hwf hfits hp
  unfold ArrayHandle.mergePart at hrun
  obtain ⟨base, s₁, hread, hrest⟩ := StoreAction.bind_eq_ok_iff.1 hrun
  obtain ⟨hbase, rfl⟩ := StoreAction.reading_eq_ok_iff.1 hread
  obtain ⟨merged, s₂, hread, hstore⟩ := StoreAction.bind_eq_ok_iff.1 hrest
  obtain ⟨hmerged, rfl⟩ := StoreAction.reading_eq_ok_iff.1 hread
  obtain ⟨hshape, hkept⟩ := mergeBase_spec hrep hwf hfits hp hbase
  have hreplaced := hmerge p hp base merged hshape (Checked.guarded_eq_ok_iff.1 hmerged)
  have hmergedShape := hreplaced.shape_eq.trans hshape
  have hchange := chunkChanged_storeChunk hr hrep.isGood hchunk hmergedShape hstore
  refine hrep.change hwf hchange ⟨?_, fun place hplace => ?_⟩ fun i _ hne => ?_
  · rintro _ ⟨⟩
    exact hmergedShape
  · show p.overwrite region f plain (h.grid.cellAt p.chunk place) = merged.cell place
    -- A place is that of a cell of the part, or keeps what the base shows.
    by_cases hhit : ∃ k : Index, k.Inside p.inChunk.shape ∧ p.inChunk.index k = place
    · obtain ⟨k, hk, rfl⟩ := hhit
      have hk' : k.Inside p.inRegion.shape := hpart.shape_eq ▸ hk
      rw [hreplaced.cell_index k hk, part_cellAt hwf hfits hp hk',
        overwrite_part_index hwf hfits hp hk']
    · have hmiss : ∀ k : Index, k.Inside p.inChunk.shape → p.inChunk.index k ≠ place :=
        fun k hk he => hhit ⟨k, hk, he⟩
      have hin : place.Inside base.shape := hshape ▸ inside_chunkShape hwf hchunk hplace
      rw [hreplaced.cell_of_ne place hin hmiss, hkept place hplace hmiss]
      refine overwrite_of_ne fun k hk he => hmiss k (hpart.shape_eq ▸ hk) ?_
      rw [← part_placeOf hwf hfits hp hk, he, (cellAt_spec hwf hchunk hplace).2.2]
  · exact overwrite_part_of_ne hwf hfits hp hne

/-! ### Merging all parts -/

section

variable (hwf : h.WellFormed) (hfits : region.Fits h.shape) (hp : p ∈ h.grid.regionParts region)
  {j : Index} (hj : j.Inside region.shape)

include hwf hfits hp hj

theorem overwrite_part_of_holds (hpj : p.Holds j) :
    p.overwrite region f plain (region.index j) = f j := by
  obtain ⟨k, hk, rfl⟩ := hpj
  exact overwrite_part_index hwf hfits hp hk

theorem overwrite_part_of_not_holds (hpj : ¬ p.Holds j) :
    p.overwrite region f plain (region.index j) = plain (region.index j) := by
  refine overwrite_of_ne fun k hk he => hpj ⟨k, hk, ?_⟩
  exact hfits.index_injective ((isPartOf_of_mem hwf hfits hp).index_inside hk) hj he

end

/-- The plain array with the cells of some parts replaced, one part after the other. -/
def overwriteParts (region : Region) (f : Index → t.Element) (parts : List ChunkPart)
    (plain : Index → t.Element) : Index → t.Element :=
  parts.foldl (fun plain p => p.overwrite region f plain) plain

theorem overwriteParts_index (hwf : h.WellFormed) (hfits : region.Fits h.shape)
    {parts : List ChunkPart} (hparts : ∀ p ∈ parts, p ∈ h.grid.regionParts region) {j : Index}
    (hj : j.Inside region.shape)
    (hset : (∃ p ∈ parts, p.Holds j) ∨ plain (region.index j) = f j) :
    overwriteParts region f parts plain (region.index j) = f j := by
  induction parts generalizing plain with
  | nil =>
    rcases hset with ⟨p, hp, -⟩ | hset
    · cases hp
    · exact hset
  | cons p parts ih =>
    rw [List.forall_mem_cons] at hparts
    show overwriteParts region f parts (p.overwrite region f plain) _ = _
    refine ih hparts.2 ?_
    by_cases hpj : p.Holds j
    · exact .inr (overwrite_part_of_holds hwf hfits hparts.1 hj hpj)
    · rw [overwrite_part_of_not_holds hwf hfits hparts.1 hj hpj]
      rcases hset with ⟨q, hq, hqj⟩ | hset
      · rcases List.mem_cons.1 hq with rfl | hq
        · exact absurd hqj hpj
        · exact .inl ⟨q, hq, hqj⟩
      · exact .inr hset

theorem overwriteParts_of_ne (hwf : h.WellFormed) (hfits : region.Fits h.shape)
    {parts : List ChunkPart} (hparts : ∀ p ∈ parts, p ∈ h.grid.regionParts region) {i : Index}
    (hne : ∀ j : Index, j.Inside region.shape → region.index j ≠ i) :
    overwriteParts region f parts plain i = plain i := by
  induction parts generalizing plain with
  | nil => rfl
  | cons p parts ih =>
    rw [List.forall_mem_cons] at hparts
    refine (ih hparts.2).trans (overwrite_of_ne fun k hk => hne _ ?_)
    exact (isPartOf_of_mem hwf hfits hparts.1).index_inside hk

/-- All parts of a region together are the region. -/
theorem overwriteParts_regionParts (hwf : h.WellFormed) (hfits : region.Fits h.shape) (i : Index) :
    overwriteParts region f (h.grid.regionParts region) plain i =
      overwrite region.shape region.index f plain i := by
  by_cases hhit : ∃ j : Index, j.Inside region.shape ∧ region.index j = i
  · obtain ⟨j, hj, rfl⟩ := hhit
    have hinjective (j k : Index) (hj : j.Inside region.shape) (hk : k.Inside region.shape) :=
      hfits.index_injective hj hk
    rw [overwriteParts_index hwf hfits (fun _ hp => hp) hj
      (.inl (RegularGrid.exists_part hwf.cuts hfits hj)), overwrite_index hinjective hj]
  · have hmiss : ∀ j : Index, j.Inside region.shape → region.index j ≠ i :=
      fun j hj he => hhit ⟨j, hj, he⟩
    rw [overwriteParts_of_ne hwf hfits (fun _ hp => hp) hmiss, overwrite_of_ne hmiss]

theorem Represents.mergeParts (hr : h.Reliable good) (hrep : h.Represents good plain s)
    (hfits : region.Fits h.shape) {merge : Merge t} (hmerge : h.Merges region merge f)
    {parts : List ChunkPart} (hparts : ∀ p ∈ parts, p ∈ h.grid.regionParts region)
    (hrun : h.mergeParts merge parts s = (.ok (), s')) :
    h.Represents good (overwriteParts region f parts plain) s' := by
  induction parts generalizing plain s with
  | nil =>
    obtain rfl := StoreAction.forM_nil_eq_ok_iff.1 hrun
    exact hrep
  | cons p parts ih =>
    rw [List.forall_mem_cons] at hparts
    obtain ⟨s₁, hfirst, hrest⟩ := StoreAction.forM_cons_eq_ok_iff.1 hrun
    exact ih (hrep.mergePart hr hfits hmerge hparts.1 hfirst) hparts.2 hrest

theorem partsOf_eq (hwf : h.WellFormed) (hfits : region.Fits h.shape) :
    h.partsOf region = Checked.guarded (h.grid.partsOf region) := by
  have hbounds := (Region.checkBounds_eq_ok_iff hwf.lt_wordLimit).2 hfits
  rw [partsOf, RegularGrid.chunksInRegion_eq hwf.cuts hbounds]
  cases h.grid.partsOf region <;> rfl

/-- The parts of a region are found exactly if it fits the array and their numbers are words. -/
theorem partsOf_eq_ok_iff (hwf : h.WellFormed) {parts : ChunkParts} :
    h.partsOf region = .ok parts ↔ region.Fits h.shape ∧ h.grid.CountsInWords region ∧
      parts = .whole (h.grid.axisParts region) := by
  constructor
  · intro hparts
    have hbounds : region.checkBounds h.shape = .ok () := by
      simp only [partsOf, Checked.mapError_eq_ok_iff, RegularGrid.chunksInRegion,
        Outcome.check_bind_eq_ok_iff, Checked.report_eq_ok_iff] at hparts
      exact hparts.2.1
    have hfits := (Region.checkBounds_eq_ok_iff hwf.lt_wordLimit).1 hbounds
    rw [partsOf_eq hwf hfits, Checked.guarded_eq_ok_iff] at hparts
    exact ⟨hfits, (RegularGrid.partsOf_eq_ok_iff hwf.cuts hfits).1 hparts⟩
  · intro hall
    obtain ⟨hfits, hparts⟩ := hall
    rw [partsOf_eq hwf hfits, Checked.guarded_eq_ok_iff]
    exact (RegularGrid.partsOf_eq_ok_iff hwf.cuts hfits).2 hparts

/-- A region is accepted only if it fits the array, and its parts are those that the grid gives. -/
theorem partsOf_spec (hwf : h.WellFormed) {parts : ChunkParts} (hparts : h.partsOf region = .ok parts) :
    region.Fits h.shape ∧ parts.toList = h.grid.regionParts region := by
  obtain ⟨hfits, -, rfl⟩ := (partsOf_eq_ok_iff hwf).1 hparts
  exact ⟨hfits, if_neg (RegularGrid.axisParts_ne_nil hwf.cuts hfits hwf.rank_pos)⟩

theorem partsOf_of_fits (hwf : h.WellFormed) (hfits : region.Fits h.shape)
    (hwords : h.grid.CountsInWords region) :
    h.partsOf region = .ok (.whole (h.grid.axisParts region)) :=
  (partsOf_eq_ok_iff hwf).2 ⟨hfits, hwords, rfl⟩

theorem partsOf_eq_overflow (hwf : h.WellFormed) (hfits : region.Fits h.shape)
    (hwords : ¬ h.grid.CountsInWords region) :
    h.partsOf region = .error (.violation .overflow) := by
  rw [partsOf_eq hwf hfits, RegularGrid.partsOf_eq_overflow hwf.cuts hfits hwords]
  rfl

theorem mergeRegion_eq_overflow (hwf : h.WellFormed) (hfits : region.Fits h.shape)
    (hwords : ¬ h.grid.CountsInWords region) (merge : Merge t) (s : σ) :
    h.mergeRegion region merge s = (.error (.violation .overflow), s) := by
  rw [ArrayHandle.mergeRegion, StoreAction.reading_bind_apply, partsOf_eq_overflow hwf hfits hwords]

theorem Represents.mergeRegion (hr : h.Reliable good) (hrep : h.Represents good plain s)
    {merge : Merge t} (hmerge : region.Fits h.shape → h.Merges region merge f)
    (hrun : h.mergeRegion region merge s = (.ok (), s')) :
    h.Represents good (overwrite region.shape region.index f plain) s' := by
  obtain ⟨parts, s₁, hread, hmerged⟩ := StoreAction.bind_eq_ok_iff.1 hrun
  obtain ⟨hparts, rfl⟩ := StoreAction.reading_eq_ok_iff.1 hread
  obtain ⟨hfits, htoList⟩ := partsOf_spec hr.wellFormed hparts
  rw [htoList] at hmerged
  refine (hrep.mergeParts hr hfits (hmerge hfits) (fun _ hp => hp) hmerged).congr hr.wellFormed ?_
  exact fun i _ => (overwriteParts_regionParts hr.wellFormed hfits i).symm

/-! ### Operations on regions and selections -/

theorem Represents.writeRegion (hr : h.Reliable good) (hrep : h.Represents good plain s)
    {data : NdArray t.Element} (hrun : h.writeRegion region data s = (.ok (), s')) :
    data.shape = region.shape ∧
      h.Represents good (overwrite region.shape region.index data.cell plain) s' := by
  obtain ⟨hguard, hmerged⟩ := StoreAction.guard_eq_ok_iff.1 hrun
  have hshape := not_not.1 hguard
  exact ⟨hshape, hrep.mergeRegion hr (fun hfits => (writes_data hr.wellFormed hfits hshape).merges) hmerged⟩

theorem Represents.fillRegion (hr : h.Reliable good) (hrep : h.Represents good plain s)
    {x : t.Element} (hrun : h.fillRegion region x s = (.ok (), s')) :
    h.Represents good (overwrite region.shape region.index (fun _ => x) plain) s' :=
  hrep.mergeRegion hr (fun hfits => (writes_value hr.wellFormed hfits x).merges) hrun

end ArrayHandle

end ChunkedArray
