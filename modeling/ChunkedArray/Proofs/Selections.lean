import ChunkedArray.Proofs.Grid.Bounds
import ChunkedArray.Proofs.NdArray.Axes
import ChunkedArray.Proofs.Outcome
import ChunkedArray.Selection
import Mathlib.Data.List.Nodup

/-!
# What selections select

Along an axis a selection stands for a list of indices. Resolving it gives a run of these indices that
fits the axis; the axes along which one index is selected are taken out of what is read and put back
into what is written.
-/

namespace ChunkedArray

namespace AxisSelection

/-- The indices that are wanted along an axis of this length, in order. -/
def indices (length : Nat) : AxisSelection → List Nat
  | .full => List.range length
  | .index i => [i]
  | .slice start stop step =>
    (List.range (stop.getD length)).filter fun i => start ≤ i && (i - start) % step == 0

theorem filter_range_eq_map {start stop step : Nat} (hstep : 0 < step) :
    ((List.range stop).filter fun i => start ≤ i && (i - start) % step == 0) =
      (List.range (ceilDiv (stop - start) step)).map fun k => start + k * step := by
  have hlt : ((List.range (ceilDiv (stop - start) step)).map fun k => start + k * step).Pairwise
      (· < ·) := by
    refine List.pairwise_map.2 (List.pairwise_lt_range.imp fun h => ?_)
    exact Nat.add_lt_add_left (Nat.mul_lt_mul_of_pos_right h hstep) start
  have hlt' : ((List.range stop).filter fun i => start ≤ i && (i - start) % step == 0).Pairwise
      (· < ·) := List.pairwise_lt_range.filter _
  refine List.Perm.eq_of_pairwise (fun _ _ _ _ h h' => absurd h' (Nat.lt_asymm h)) hlt' hlt ?_
  refine (List.perm_ext_iff_of_nodup (hlt'.imp Nat.ne_of_lt) (hlt.imp Nat.ne_of_lt)).2 fun i => ?_
  simp only [List.mem_filter, List.mem_range, Bool.and_eq_true, decide_eq_true_eq, beq_iff_eq,
    List.mem_map, lt_ceilDiv_iff hstep]
  constructor
  · rintro ⟨hstop, hle, hmod⟩
    have := Nat.div_mul_cancel (Nat.dvd_of_mod_eq_zero hmod)
    exact ⟨(i - start) / step, by omega, by omega⟩
  · rintro ⟨k, hk, rfl⟩
    rw [Nat.add_sub_cancel_left, Nat.mul_mod_left]
    exact ⟨by omega, by omega, rfl⟩

variable {axis length : Nat} {s : AxisSelection} {run : Run}

theorem resolve_index_eq_ok_iff {i : Nat} :
    (index i).resolve axis length = .ok run ↔ i < length ∧ run = .contiguous i 1 := by
  simp only [resolve]
  split
  · next h => simp only [reduceCtorEq, false_iff, not_and]; omega
  · next h => simp only [Except.ok.injEq, Nat.not_le.1 h, true_and, eq_comm]

theorem resolve_slice_eq_ok_iff {start step : Nat} {stop : Option Nat} :
    (slice start stop step).resolve axis length = .ok run ↔
      0 < step ∧ start ≤ stop.getD length ∧ stop.getD length ≤ length ∧
        run = ⟨start, ceilDiv (stop.getD length - start) step, step⟩ := by
  simp only [resolve]
  by_cases hstep : step = 0
  · simp [hstep]
  by_cases hle : start ≤ stop.getD length
  · by_cases hstop : stop.getD length ≤ length
    · simp [hstep, Nat.not_lt.2 hle, Nat.not_lt.2 hstop, Nat.pos_of_ne_zero hstep, hle, hstop,
        eq_comm]
    · simp [hstep, Nat.not_lt.2 hle, Nat.not_le.1 hstop, hstop]
  · simp [hstep, Nat.not_le.1 hle, hle]

theorem indices_of_resolve (h : s.resolve axis length = .ok run) :
    s.indices length = (List.range run.count).map run.index := by
  cases s with
  | full =>
    obtain rfl := Except.ok.inj h
    have hindex : (Run.contiguous 0 length).index = id := by
      funext k
      simp [Run.contiguous, Run.index]
    rw [hindex, List.map_id]
    rfl
  | index i =>
    obtain ⟨-, rfl⟩ := resolve_index_eq_ok_iff.1 h
    simp [indices, Run.contiguous, Run.index]
  | slice start stop step =>
    obtain ⟨hstep, -, -, rfl⟩ := resolve_slice_eq_ok_iff.1 h
    exact filter_range_eq_map hstep

theorem count_of_isIndex (hs : s.isIndex = true) (h : s.resolve axis length = .ok run) :
    run.count = 1 := by
  cases s with
  | index i => rw [(resolve_index_eq_ok_iff.1 h).2]; rfl
  | full | slice => cases hs

theorem fitsAxis_of_resolve (h : s.resolve axis length = .ok run) : run.FitsAxis length := by
  cases s with
  | full =>
    obtain rfl := Except.ok.inj h
    exact ⟨Nat.one_pos, fun k hk => by simpa [Run.contiguous, Run.index] using hk, Nat.zero_le _⟩
  | index i =>
    obtain ⟨hi, rfl⟩ := resolve_index_eq_ok_iff.1 h
    exact Run.fitsAxis_of_last Nat.one_pos Nat.one_pos (by simpa [Run.contiguous, Run.index] using hi)
  | slice start stop step =>
    obtain ⟨hstep, hle, hstop, rfl⟩ := resolve_slice_eq_ok_iff.1 h
    refine ⟨hstep, fun k hk => ?_, Nat.le_trans hle hstop⟩
    have := (lt_ceilDiv_iff hstep).1 hk
    simp only [Run.index]
    omega

end AxisSelection

namespace Selection

/-! ### Axes that are dropped -/

/-- Coordinates without those along axes of which one index is selected. -/
def dropIndexed : Selection → List Nat → List Nat
  | s :: selection, k :: i =>
    if s.isIndex then dropIndexed selection i else k :: dropIndexed selection i
  | _, _ => []

/-- Coordinates with a zero for every axis of which one index is selected. -/
def restoreIndexed : Selection → List Nat → List Nat
  | s :: selection, j =>
    if s.isIndex then 0 :: restoreIndexed selection j
    else j.headD 0 :: restoreIndexed selection j.tail
  | [], _ => []

section

variable {s : AxisSelection} (selection : Selection)

theorem dropIndexed_of_isIndex (h : s.isIndex = true) (k : Nat) (i : List Nat) :
    dropIndexed (s :: selection) (k :: i) = dropIndexed selection i := if_pos h

theorem dropIndexed_of_not_isIndex (h : ¬ s.isIndex = true) (k : Nat) (i : List Nat) :
    dropIndexed (s :: selection) (k :: i) = k :: dropIndexed selection i := if_neg h

theorem restoreIndexed_of_isIndex (h : s.isIndex = true) (j : List Nat) :
    restoreIndexed (s :: selection) j = 0 :: restoreIndexed selection j := if_pos h

theorem restoreIndexed_of_not_isIndex (h : ¬ s.isIndex = true) (k : Nat) (j : List Nat) :
    restoreIndexed (s :: selection) (k :: j) = k :: restoreIndexed selection j := if_neg h

theorem indexAxes_of_isIndex (h : s.isIndex = true) (axis : Nat) :
    indexAxes axis (s :: selection) = axis :: indexAxes (axis + 1) selection := if_pos h

theorem indexAxes_of_not_isIndex (h : ¬ s.isIndex = true) (axis : Nat) :
    indexAxes axis (s :: selection) = indexAxes (axis + 1) selection := if_neg h

end

/-- The region has a run for each axis of the selection, of one index where one is selected. -/
inductive Resolves : Selection → Shape → Region → Prop where
  | nil : Resolves [] [] []
  | cons {axis n : Nat} {s : AxisSelection} {run : Run} {selection : Selection} {shape : Shape}
    {region : Region} : s.resolve axis n = .ok run → Resolves selection shape region →
    Resolves (s :: selection) (n :: shape) (run :: region)

theorem resolves_of_resolveAxes {axis : Nat} {selection : Selection} {shape : Shape}
    {region : Region} (hlength : selection.length = shape.length)
    (h : resolveAxes axis selection shape = .ok region) : Resolves selection shape region := by
  induction selection generalizing axis shape region with
  | nil =>
    cases shape with
    | cons => cases hlength
    | nil => obtain rfl := Except.ok.inj h; exact .nil
  | cons s selection ih =>
    cases shape with
    | nil => cases hlength
    | cons n shape =>
      simp only [resolveAxes, Outcome.bind_eq_ok_iff, Outcome.pure_eq_ok, Except.ok.injEq] at h
      obtain ⟨run, hrun, runs, hruns, rfl⟩ := h
      exact .cons hrun (ih (Nat.succ.inj hlength) hruns)

theorem resolve_spec {selection : Selection} {shape : Shape} {r : ResolvedSelection}
    (h : selection.resolve shape = .ok r) :
    Resolves selection shape r.region ∧ r.dropped = indexAxes 0 selection := by
  obtain ⟨hrank, h⟩ := Outcome.check_bind_eq_ok_iff.1 h
  rw [Outcome.mapError_eq_ok_iff, RankMismatch.check_eq_ok_iff] at hrank
  simp only [Outcome.bind_eq_ok_iff, Outcome.pure_eq_ok, Except.ok.injEq] at h
  obtain ⟨region, hregion, rfl⟩ := h
  exact ⟨resolves_of_resolveAxes hrank hregion, rfl⟩

variable {selection : Selection} {shape : Shape} {region : Region}

theorem Resolves.fits (h : Resolves selection shape region) : region.Fits shape := by
  induction h with
  | nil => exact .nil
  | cons hs _ ih => exact .cons (AxisSelection.fitsAxis_of_resolve hs) ih

theorem Resolves.restoreIndexed_inside (h : Resolves selection shape region) {j : Index}
    (hj : j.Inside (dropIndexed selection region.shape)) :
    Index.Inside (restoreIndexed selection j) region.shape := by
  induction h generalizing j with
  | nil => exact .nil
  | @cons _ _ s _ selection _ _ hs _ ih =>
    rw [Region.shape_cons] at hj ⊢
    by_cases hindex : s.isIndex = true
    · rw [dropIndexed_of_isIndex _ hindex] at hj
      rw [restoreIndexed_of_isIndex _ hindex, AxisSelection.count_of_isIndex hindex hs]
      exact .cons Nat.one_pos (ih hj)
    · rw [dropIndexed_of_not_isIndex _ hindex] at hj
      cases hj with
      | cons hk hj =>
        rw [restoreIndexed_of_not_isIndex _ hindex]
        exact .cons hk (ih hj)

theorem Resolves.dropIndexed_restoreIndexed (h : Resolves selection shape region) {j : Index}
    (hj : j.Inside (dropIndexed selection region.shape)) :
    dropIndexed selection (restoreIndexed selection j) = j := by
  induction h generalizing j with
  | nil => cases hj; rfl
  | @cons _ _ s _ selection _ _ hs _ ih =>
    rw [Region.shape_cons] at hj
    by_cases hindex : s.isIndex = true
    · rw [dropIndexed_of_isIndex _ hindex] at hj
      rw [restoreIndexed_of_isIndex _ hindex, dropIndexed_of_isIndex _ hindex, ih hj]
    · rw [dropIndexed_of_not_isIndex _ hindex] at hj
      cases hj with
      | cons hk hj =>
        rw [restoreIndexed_of_not_isIndex _ hindex, dropIndexed_of_not_isIndex _ hindex, ih hj]

theorem Resolves.restoreIndexed_dropIndexed (h : Resolves selection shape region) {i : Index}
    (hi : i.Inside region.shape) :
    Index.Inside (dropIndexed selection i) (dropIndexed selection region.shape) ∧
      restoreIndexed selection (dropIndexed selection i) = i := by
  induction h generalizing i with
  | nil => cases hi; exact ⟨.nil, rfl⟩
  | @cons _ _ s run selection _ _ hs _ ih =>
    rw [Region.shape_cons] at hi ⊢
    cases hi with
    | @cons k _ _ _ hk hi =>
      obtain ⟨hin, he⟩ := ih hi
      by_cases hindex : s.isIndex = true
      · rw [AxisSelection.count_of_isIndex hindex hs] at hk
        obtain rfl : k = 0 := by omega
        rw [dropIndexed_of_isIndex _ hindex, dropIndexed_of_isIndex _ hindex,
          restoreIndexed_of_isIndex _ hindex, he]
        exact ⟨hin, rfl⟩
      · rw [dropIndexed_of_not_isIndex _ hindex, dropIndexed_of_not_isIndex _ hindex,
          restoreIndexed_of_not_isIndex _ hindex, he]
        exact ⟨.cons hk hin, rfl⟩

/-! ### Dropping and restoring axes of an array -/

theorem le_of_mem_indexAxes {axis k : Nat} (h : k ∈ indexAxes axis selection) : axis ≤ k := by
  induction selection generalizing axis with
  | nil => cases h
  | cons s selection ih =>
    rw [indexAxes] at h
    split at h
    · rcases List.mem_cons.1 h with rfl | h
      · exact Nat.le_refl _
      · exact Nat.le_of_succ_le (ih h)
    · exact Nat.le_of_succ_le (ih h)

/-- The shape of the result is that of the region without the dropped axes. -/
theorem filter_zipIdx_indexAxes (h : Resolves selection shape region) (axis : Nat) :
    ((region.shape.zipIdx axis).filter fun (_, k) => !(indexAxes axis selection).contains k).map
      Prod.fst = dropIndexed selection region.shape := by
  induction h generalizing axis with
  | nil => rfl
  | @cons _ _ s run selection shape region _ _ ih =>
    have hfresh : axis ∉ indexAxes (axis + 1) selection := fun hmem =>
      Nat.not_succ_le_self axis (le_of_mem_indexAxes hmem)
    have hlater : ∀ e ∈ region.shape.zipIdx (axis + 1), e.2 ≠ axis := by
      intro e he
      have := List.le_snd_of_mem_zipIdx he
      omega
    rw [Region.shape_cons, List.zipIdx_cons]
    by_cases hindex : s.isIndex = true
    · rw [indexAxes_of_isIndex _ hindex, dropIndexed_of_isIndex _ hindex, ← ih (axis + 1),
        List.filter_cons_of_neg (by simp)]
      refine congrArg _ (List.filter_congr fun e he => ?_)
      have : (e.2 == axis) = false := beq_eq_false_iff_ne.2 (hlater e he)
      simp only [List.contains_cons, this, Bool.false_or]
    · rw [indexAxes_of_not_isIndex _ hindex, dropIndexed_of_not_isIndex _ hindex, ← ih (axis + 1),
        List.filter_cons_of_pos (by simpa using hfresh), List.map_cons]

variable {α : Type} [Inhabited α] {a : NdArray α}

theorem append_cons (u j : Index) (k : Nat) : u ++ k :: j = (u ++ [k]) ++ j := by simp

theorem foldlM_dropAxis (h : Resolves selection shape region) (pre : Shape)
    (ha : a.shape = pre ++ region.shape) :
    ∃ b, (indexAxes pre.length selection).reverse.foldlM (fun a axis => a.dropAxis axis) a = .ok b ∧
      b.shape = pre ++ dropIndexed selection region.shape ∧
      ∀ u j : Index, u.Inside pre → j.Inside (dropIndexed selection region.shape) →
        b.cell (u ++ j) = a.cell (u ++ restoreIndexed selection j) := by
  -- The axes of `pre` stand before those of the selection. Those that are dropped go from the last
  -- to the first, so the places of the others do not move.
  induction h generalizing pre with
  | nil =>
    refine ⟨a, rfl, ha, fun u j _ hj => ?_⟩
    cases hj
    rfl
  | @cons _ _ s run selection shape region hs _ ih =>
    rw [Region.shape_cons] at ha ⊢
    obtain ⟨b, hb, hshape, hcell⟩ := ih (pre ++ [run.count]) (ha.trans (append_cons _ _ _))
    rw [List.length_append] at hb
    rw [← append_cons] at hshape
    by_cases hindex : s.isIndex = true
    · rw [AxisSelection.count_of_isIndex hindex hs] at hshape hcell
      obtain ⟨c, hc, hcshape, hccell⟩ := NdArray.dropAxis_spec hshape
      rw [indexAxes_of_isIndex _ hindex, dropIndexed_of_isIndex _ hindex, List.reverse_cons,
        List.foldlM_append]
      refine ⟨c, Outcome.bind_eq_ok_iff.2 ⟨b, hb, ?_⟩, hcshape, fun u j hu hj => ?_⟩
      · rw [List.foldlM_cons, hc]
        rfl
      · rw [hccell u j hu hj, restoreIndexed_of_isIndex _ hindex, append_cons u j,
          append_cons u (restoreIndexed selection j)]
        exact hcell (u ++ [0]) j (hu.append (.cons Nat.one_pos .nil)) hj
    · rw [indexAxes_of_not_isIndex _ hindex, dropIndexed_of_not_isIndex _ hindex]
      refine ⟨b, hb, hshape, fun u j hu hj => ?_⟩
      cases hj with
      | @cons k _ j _ hk hj =>
        rw [restoreIndexed_of_not_isIndex _ hindex, append_cons u j,
          append_cons u (restoreIndexed selection j)]
        exact hcell (u ++ [k]) j (hu.append (.cons hk .nil)) hj

theorem foldlM_insertAxis (h : Resolves selection shape region) (pre : Shape)
    (ha : a.shape = pre ++ dropIndexed selection region.shape) :
    ∃ b, (indexAxes pre.length selection).foldlM (fun a axis => a.insertAxis axis) a = .ok b ∧
      b.shape = pre ++ region.shape ∧
      ∀ u i : Index, u.Inside pre → i.Inside region.shape →
        b.cell (u ++ i) = a.cell (u ++ dropIndexed selection i) := by
  -- Axes are put back from the first to the last, each when all before it are there.
  induction h generalizing pre a with
  | nil =>
    refine ⟨a, rfl, ha, fun u i _ hi => ?_⟩
    cases hi
    rfl
  | @cons _ _ s run selection shape region hs _ ih =>
    rw [Region.shape_cons] at ha ⊢
    by_cases hindex : s.isIndex = true
    · rw [dropIndexed_of_isIndex _ hindex] at ha
      obtain ⟨c, hc, hcshape, hccell⟩ := NdArray.insertAxis_spec ha
      obtain ⟨b, hb, hshape, hcell⟩ := ih (pre ++ [1]) (hcshape.trans (append_cons _ _ _))
      rw [List.length_append] at hb
      rw [← append_cons] at hshape
      rw [indexAxes_of_isIndex _ hindex, AxisSelection.count_of_isIndex hindex hs]
      refine ⟨b, ?_, hshape, fun u i hu hi => ?_⟩
      · rw [List.foldlM_cons, hc]
        exact hb
      · cases hi with
        | @cons k _ i _ hk hi =>
          obtain rfl : k = 0 := by omega
          have hin := (Resolves.restoreIndexed_dropIndexed ‹_› hi).1
          have := hcell (u ++ [0]) i (hu.append (.cons Nat.one_pos .nil)) hi
          rw [← append_cons, ← append_cons, hccell u _ hu hin] at this
          rw [dropIndexed_of_isIndex _ hindex, this]
    · rw [dropIndexed_of_not_isIndex _ hindex] at ha
      obtain ⟨b, hb, hshape, hcell⟩ := ih (pre ++ [run.count]) (ha.trans (append_cons _ _ _))
      rw [List.length_append] at hb
      rw [← append_cons] at hshape
      rw [indexAxes_of_not_isIndex _ hindex]
      refine ⟨b, hb, hshape, fun u i hu hi => ?_⟩
      cases hi with
      | @cons k _ i _ hk hi =>
        rw [dropIndexed_of_not_isIndex _ hindex, append_cons u i,
          append_cons u (dropIndexed selection i)]
        exact hcell (u ++ [k]) i (hu.append (.cons hk .nil)) hi

theorem outputShape_eq {r : ResolvedSelection} (h : selection.resolve shape = .ok r) :
    r.outputShape = dropIndexed selection r.region.shape := by
  obtain ⟨hresolves, hdropped⟩ := resolve_spec h
  rw [ResolvedSelection.outputShape, hdropped]
  exact filter_zipIdx_indexAxes hresolves 0

theorem dropAxes_spec {r : ResolvedSelection} (h : selection.resolve shape = .ok r)
    (ha : a.shape = r.region.shape) :
    ∃ b, r.dropAxes a = .ok b ∧ b.shape = dropIndexed selection r.region.shape ∧
      ∀ j : Index, j.Inside (dropIndexed selection r.region.shape) →
        b.cell j = a.cell (restoreIndexed selection j) := by
  obtain ⟨hresolves, hdropped⟩ := resolve_spec h
  obtain ⟨b, hb, hshape, hcell⟩ := foldlM_dropAxis hresolves [] ha
  rw [ResolvedSelection.dropAxes, hdropped]
  exact ⟨b, hb, hshape, fun j hj => hcell [] j .nil hj⟩

theorem restoreAxes_spec {r : ResolvedSelection} (h : selection.resolve shape = .ok r)
    (ha : a.shape = dropIndexed selection r.region.shape) :
    ∃ b, r.restoreAxes a = .ok b ∧ b.shape = r.region.shape ∧
      ∀ i : Index, i.Inside r.region.shape → b.cell i = a.cell (dropIndexed selection i) := by
  obtain ⟨hresolves, hdropped⟩ := resolve_spec h
  obtain ⟨b, hb, hshape, hcell⟩ := foldlM_insertAxis hresolves [] ha
  rw [ResolvedSelection.restoreAxes, hdropped]
  exact ⟨b, hb, hshape, fun i hi => hcell [] i .nil hi⟩

/-! ### What is selected -/

/-- The shape of what is selected: an axis for each but those of which one index is selected. -/
def pickedShape : Selection → Shape → Shape
  | s :: selection, n :: shape =>
    if s.isIndex then pickedShape selection shape
    else (s.indices n).length :: pickedShape selection shape
  | _, _ => []

/-- The index in the array of the cell at `j` in what is selected. -/
def pickedIndex : Selection → Shape → Index → Index
  | s :: selection, n :: shape, j =>
    if s.isIndex then (s.indices n).headD 0 :: pickedIndex selection shape j
    else (s.indices n).getD (j.headD 0) 0 :: pickedIndex selection shape j.tail
  | _, _, _ => []

theorem Resolves.pickedShape_eq (h : Resolves selection shape region) :
    pickedShape selection shape = dropIndexed selection region.shape := by
  induction h with
  | nil => rfl
  | cons hs _ ih =>
    rw [pickedShape, ih, AxisSelection.indices_of_resolve hs, List.length_map, List.length_range]
    rfl

theorem Resolves.pickedIndex_eq (h : Resolves selection shape region) {j : Index}
    (hj : j.Inside (dropIndexed selection region.shape)) :
    pickedIndex selection shape j = region.index (restoreIndexed selection j) := by
  induction h generalizing j with
  | nil => rfl
  | @cons _ _ s run selection _ _ hs _ ih =>
    rw [Region.shape_cons] at hj
    rw [pickedIndex, AxisSelection.indices_of_resolve hs]
    by_cases hindex : s.isIndex = true
    · rw [dropIndexed_of_isIndex _ hindex] at hj
      rw [if_pos hindex, restoreIndexed_of_isIndex _ hindex, ih hj,
        AxisSelection.count_of_isIndex hindex hs]
      rfl
    · rw [dropIndexed_of_not_isIndex _ hindex] at hj
      cases hj with
      | @cons k _ j _ hk hj =>
        rw [if_neg hindex, restoreIndexed_of_not_isIndex _ hindex, List.tail_cons, ih hj]
        simp [Region.index, hk]

/-- The same selection with one index along an axis as a slice, so that no axis is dropped. -/
def keepAxes (selection : Selection) : Selection :=
  selection.map fun
    | .index i => .slice i (some (i + 1)) 1
    | s => s

theorem Resolves.keepAxes (h : Resolves selection shape region) :
    Resolves selection.keepAxes shape region := by
  induction h with
  | nil => exact .nil
  | @cons axis n s run _ _ _ hs _ ih =>
    cases s with
    | full => exact .cons hs ih
    | slice => exact .cons hs ih
    | index i =>
      obtain ⟨hi, rfl⟩ := AxisSelection.resolve_index_eq_ok_iff.1 hs
      have hcount : ceilDiv (i + 1 - i) 1 = 1 := by simp [ceilDiv]
      have hslice : (AxisSelection.slice i (some (i + 1)) 1).resolve axis n = .ok (.contiguous i 1) :=
        AxisSelection.resolve_slice_eq_ok_iff.2
          ⟨Nat.one_pos, Nat.le_succ i, hi, congrArg (Run.mk i · 1) hcount.symm⟩
      exact .cons hslice ih

theorem dropIndexed_keepAxes {selection : Selection} {l : List Nat}
    (h : selection.length = l.length) : dropIndexed selection.keepAxes l = l := by
  induction selection generalizing l with
  | nil =>
    cases l with
    | nil => rfl
    | cons => cases h
  | cons s selection ih =>
    cases l with
    | nil => cases h
    | cons k l => cases s <;> exact congrArg _ (ih (Nat.succ.inj h))

theorem Resolves.length_eq (h : Resolves selection shape region) :
    selection.length = region.shape.length := by
  induction h with
  | nil => rfl
  | cons _ _ ih => exact congrArg Nat.succ ih

theorem Resolves.dropIndexed_keepAxes (h : Resolves selection shape region) :
    dropIndexed selection.keepAxes region.shape = region.shape :=
  Selection.dropIndexed_keepAxes h.length_eq

theorem Resolves.restoreIndexed_keepAxes (h : Resolves selection shape region) {i : Index}
    (hi : i.Inside region.shape) : restoreIndexed selection.keepAxes i = i := by
  have hdrop : dropIndexed selection.keepAxes i = i :=
    Selection.dropIndexed_keepAxes (h.length_eq.trans hi.length_eq.symm)
  have hrestore := (h.keepAxes.restoreIndexed_dropIndexed hi).2
  rwa [hdrop] at hrestore

/-- What is selected are the cells of the region. -/
theorem Resolves.exists_pickedIndex_iff (h : Resolves selection shape region) {i : Index} :
    (∃ j : Index, j.Inside (pickedShape selection shape) ∧ pickedIndex selection shape j = i) ↔
      ∃ j : Index, j.Inside region.shape ∧ region.index j = i := by
  rw [h.pickedShape_eq]
  constructor
  · rintro ⟨j, hj, rfl⟩
    exact ⟨_, h.restoreIndexed_inside hj, (h.pickedIndex_eq hj).symm⟩
  · rintro ⟨j, hj, rfl⟩
    obtain ⟨hin, he⟩ := h.restoreIndexed_dropIndexed hj
    exact ⟨_, hin, by rw [h.pickedIndex_eq hin, he]⟩

end Selection

/-! ### What can be resolved -/

/-- What is wanted is on an axis of this length. A slice steps forward and does not end before it
starts or past the axis. -/
def AxisSelection.Within (length : Nat) : AxisSelection → Prop
  | .full => True
  | .index i => i < length
  | .slice start stop step => 1 ≤ step ∧ start ≤ stop.getD length ∧ stop.getD length ≤ length

theorem AxisSelection.exists_resolve_iff {axis length : Nat} {s : AxisSelection} :
    (∃ run, s.resolve axis length = .ok run) ↔ s.Within length := by
  cases s with
  | full => exact ⟨fun _ => trivial, fun _ => ⟨_, rfl⟩⟩
  | index i =>
    simp only [resolve_index_eq_ok_iff, Within, exists_and_left, exists_eq, and_true]
  | slice start stop step =>
    simp only [resolve_slice_eq_ok_iff, Within, exists_and_left, exists_eq, and_true,
      Nat.succ_le_iff]

namespace Selection

variable {selection : Selection} {shape : Shape} {region : Region}

theorem exists_resolveAxes
    (h : List.Forall₂ (fun (s : AxisSelection) n => s.Within n) selection shape) (axis : Nat) :
    ∃ region, resolveAxes axis selection shape = .ok region := by
  induction h generalizing axis with
  | nil => exact ⟨[], rfl⟩
  | @cons s n selection shape hs _ ih =>
    obtain ⟨run, hrun⟩ : ∃ run, s.resolve axis n = .ok run := AxisSelection.exists_resolve_iff.2 hs
    obtain ⟨region, hregion⟩ := ih (axis + 1)
    exact ⟨run :: region, by simp [resolveAxes, hrun, hregion]⟩

theorem Resolves.within (h : Resolves selection shape region) :
    List.Forall₂ (fun (s : AxisSelection) n => s.Within n) selection shape := by
  induction h with
  | nil => exact .nil
  | cons hs _ ih => exact .cons (AxisSelection.exists_resolve_iff.1 ⟨_, hs⟩) ih

theorem exists_resolve_iff : (∃ r, selection.resolve shape = .ok r) ↔
    List.Forall₂ (fun (s : AxisSelection) n => s.Within n) selection shape := by
  constructor
  · rintro ⟨r, hr⟩
    exact (resolve_spec hr).1.within
  · intro h
    obtain ⟨region, hregion⟩ := exists_resolveAxes h 0
    have hrank : RankMismatch.check selection.length shape.length = .ok () :=
      RankMismatch.check_eq_ok_iff.2 h.length_eq
    refine ⟨⟨region, indexAxes 0 selection⟩, Outcome.check_bind_eq_ok_iff.2 ⟨?_, ?_⟩⟩
    · exact Outcome.mapError_eq_ok_iff.2 hrank
    · rw [hregion]
      rfl

/-- Along every axis the region has the indices that are wanted, in order. -/
theorem Resolves.map_indices (h : Resolves selection shape region) :
    region.map (fun run => (List.range run.count).map run.index) =
      List.zipWith (fun s n => s.indices n) selection shape := by
  induction h with
  | nil => rfl
  | cons hs _ ih => rw [List.map_cons, List.zipWith_cons_cons, ih, AxisSelection.indices_of_resolve hs]

theorem mem_indexAxes_iff {axis k : Nat} : k ∈ indexAxes axis selection ↔
    ∃ place i, selection[place]? = some (.index i) ∧ axis + place = k := by
  induction selection generalizing axis with
  | nil => simp [indexAxes]
  | cons s selection ih =>
    -- The first axis is `axis`, the others are those of the rest of the selection.
    have hsplit : (∃ place i, (s :: selection)[place]? = some (.index i) ∧ axis + place = k) ↔
        (s.isIndex = true ∧ axis = k) ∨ k ∈ indexAxes (axis + 1) selection := by
      rw [ih]
      constructor
      · rintro ⟨place, i, hplace, rfl⟩
        cases place with
        | zero =>
          obtain rfl := Option.some.inj hplace
          exact .inl ⟨rfl, rfl⟩
        | succ place => exact .inr ⟨place, i, hplace, by omega⟩
      · rintro (⟨hs, rfl⟩ | ⟨place, i, hplace, rfl⟩)
        · cases s with
          | index i => exact ⟨0, i, rfl, rfl⟩
          | full | slice => cases hs
        · exact ⟨place + 1, i, hplace, by omega⟩
    rw [hsplit]
    by_cases hs : s.isIndex = true
    · rw [indexAxes_of_isIndex _ hs, List.mem_cons, and_iff_right hs, eq_comm]
    · rw [indexAxes_of_not_isIndex _ hs, or_iff_right fun h => hs h.1]

/-- Every axis is dropped or kept. -/
theorem length_dropIndexed {l : List Nat} (axis : Nat) (h : selection.length = l.length) :
    (dropIndexed selection l).length + (indexAxes axis selection).length = l.length := by
  induction selection generalizing axis l with
  | nil =>
    cases l with
    | nil => rfl
    | cons => cases h
  | cons s selection ih =>
    cases l with
    | nil => cases h
    | cons k l =>
      have hrest := ih (axis + 1) (Nat.succ.inj h)
      by_cases hs : s.isIndex = true
      · rw [dropIndexed_of_isIndex _ hs, indexAxes_of_isIndex _ hs, List.length_cons, List.length_cons]
        omega
      · rw [dropIndexed_of_not_isIndex _ hs, indexAxes_of_not_isIndex _ hs, List.length_cons,
          List.length_cons]
        omega

theorem pairwise_indexAxes (selection : Selection) (axis : Nat) :
    (indexAxes axis selection).Pairwise (· < ·) := by
  induction selection generalizing axis with
  | nil => exact .nil
  | cons s selection ih =>
    by_cases hs : s.isIndex = true
    · rw [indexAxes_of_isIndex _ hs]
      exact .cons (fun k hk => le_of_mem_indexAxes hk) (ih (axis + 1))
    · rw [indexAxes_of_not_isIndex _ hs]
      exact ih (axis + 1)

/-- A selection resolves exactly if it has the rank of the shape and is on every axis, and then to the
indices that it stands for. -/
structure ResolvesExactly (selection : Selection) (shape : Shape) : Prop where
  ok_iff : (∃ r, selection.resolve shape = .ok r) ↔
    List.Forall₂ (fun (s : AxisSelection) n => s.Within n) selection shape
  indices_eq : ∀ r, selection.resolve shape = .ok r →
    r.region.map (fun run => (List.range run.count).map run.index) =
      List.zipWith (fun s n => s.indices n) selection shape
  checkBounds : ∀ r, selection.resolve shape = .ok r → r.region.checkBounds shape = .ok ()
  dropped_sorted : ∀ r, selection.resolve shape = .ok r → r.dropped.Pairwise (· < ·)
  mem_dropped_iff : ∀ r, selection.resolve shape = .ok r →
    ∀ axis, axis ∈ r.dropped ↔ ∃ i, selection[axis]? = some (.index i)

theorem resolvesExactly (selection : Selection) (hword : ∀ n ∈ shape, n < wordLimit) :
    selection.ResolvesExactly shape := by
  refine ⟨exists_resolve_iff, fun r hr => ?_, fun r hr => ?_, fun r hr => ?_, fun r hr axis => ?_⟩
  · exact (resolve_spec hr).1.map_indices
  · exact (Region.checkBounds_eq_ok_iff hword).2 (resolve_spec hr).1.fits
  · rw [(resolve_spec hr).2]
    exact pairwise_indexAxes selection 0
  · rw [(resolve_spec hr).2, mem_indexAxes_iff]
    constructor
    · rintro ⟨place, i, hplace, rfl⟩
      exact ⟨i, by rwa [Nat.zero_add]⟩
    · rintro ⟨i, hi⟩
      exact ⟨axis, i, hi, Nat.zero_add axis⟩

end Selection

end ChunkedArray
