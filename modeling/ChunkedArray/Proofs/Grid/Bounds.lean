import ChunkedArray.Proofs.Outcome
import ChunkedArray.Region
import Mathlib.Data.List.Forall2
import Mathlib.Order.Lattice.Nat

/-!
# Regions inside a shape

A run fits an axis if its step is positive and its indices lie on the axis. The check of a region
accepts exactly the regions whose runs fit their axes, and the view of such a region picks the
indices of the runs.
-/

namespace ChunkedArray

namespace Run

/-- Every index of the run is on an axis of this length; an empty run may start at its end. -/
structure FitsAxis (r : Run) (length : Nat) : Prop where
  step_pos : 0 < r.step
  index_lt : ∀ k < r.count, r.index k < length
  offset_le : r.offset ≤ length

theorem index_le_index (r : Run) {j k : Nat} (h : j ≤ k) : r.index j ≤ r.index k :=
  Nat.add_le_add_left (Nat.mul_le_mul_right r.step h) r.offset

theorem index_injective {r : Run} (hstep : 0 < r.step) {j k : Nat} (h : r.index j = r.index k) :
    j = k :=
  Nat.eq_of_mul_eq_mul_right hstep (Nat.add_left_cancel h)

theorem last?_of_count_eq_zero {r : Run} (h : r.count = 0) : r.last? = none := if_pos h

theorem last?_of_count_pos {r : Run} (h : 0 < r.count) : r.last? = some (r.index (r.count - 1)) :=
  if_neg (by omega)

theorem stop_of_count_eq_zero {r : Run} (h : r.count = 0) : r.stop = r.offset := by
  rw [stop, last?_of_count_eq_zero h]
  rfl

theorem stop_of_count_pos {r : Run} (h : 0 < r.count) : r.stop = r.index (r.count - 1) + 1 := by
  rw [stop, last?_of_count_pos h]
  rfl

theorem fitsAxis_of_last {r : Run} {length : Nat} (hstep : 0 < r.step) (hcount : 0 < r.count)
    (h : r.index (r.count - 1) < length) : r.FitsAxis length := by
  refine ⟨hstep, fun k hk => ?_, ?_⟩
  · have := r.index_le_index (j := k) (k := r.count - 1) (by omega)
    omega
  · have : r.offset ≤ r.index (r.count - 1) := Nat.le_add_right ..
    omega

theorem FitsAxis.stop_le {r : Run} {length : Nat} (h : r.FitsAxis length) : r.stop ≤ length := by
  by_cases hcount : r.count = 0
  · rw [stop_of_count_eq_zero hcount]
    exact h.offset_le
  · rw [stop_of_count_pos (by omega)]
    exact h.index_lt _ (by omega)

theorem offset_le_stop (r : Run) : r.offset ≤ r.stop := by
  by_cases hcount : r.count = 0
  · exact Nat.le_of_eq (stop_of_count_eq_zero hcount).symm
  · rw [stop_of_count_pos (by omega), index]
    omega

/-! ### The range of a run -/

theorem range_fits {r : Run} {length : Nat} (h : r.FitsAxis length) : r.range.Fits length := by
  refine ⟨r.offset_le_stop, h.stop_le, ?_⟩
  show 0 < if r.count ≤ 1 then 1 else r.step
  have := h.step_pos
  split <;> omega

theorem lt_count_range_iff {r : Run} {length k : Nat} (h : r.FitsAxis length) :
    k < r.range.count ↔ k < r.count := by
  refine (lt_ceilDiv_iff (range_fits h).2.2).trans ?_
  simp only [range]
  by_cases h0 : r.count = 0
  · rw [stop_of_count_eq_zero h0]
    omega
  · rw [stop_of_count_pos (by omega), index, Nat.add_assoc, Nat.add_sub_cancel_left,
      Nat.lt_succ_iff]
    split
    · rw [show r.count - 1 = 0 by omega]
      omega
    · rw [Nat.mul_le_mul_right_iff h.step_pos]
      omega

theorem count_range {r : Run} {length : Nat} (h : r.FitsAxis length) : r.range.count = r.count :=
  eq_of_forall_lt_iff fun _ => lt_count_range_iff h

theorem index_range {r : Run} {k : Nat} (hk : k < r.count) : r.range.index k = r.index k := by
  simp only [AxisRange.index, range, index]
  split
  · rw [show k = 0 by omega, Nat.zero_mul, Nat.zero_mul]
  · rfl

end Run

/-! ### Regions -/

namespace Region

theorem shape_cons (r : Run) (region : Region) : shape (r :: region) = r.count :: shape region := rfl

def Fits : Region → Shape → Prop := List.Forall₂ Run.FitsAxis

theorem saturatedLast?_of_count_eq_zero {r : Run} (h : r.count = 0) : saturatedLast? r = none :=
  if_pos h

theorem saturatedLast?_of_count_pos {r : Run} (h : 0 < r.count) :
    saturatedLast? r =
      some (if r.index (r.count - 1) < wordLimit then r.index (r.count - 1) else maxIndex) := by
  rw [saturatedLast?, if_neg (by omega)]
  simp only [Word.mul?, Word.add?, Word.ofNat?, Run.index, Nat.add_comm r.offset]
  by_cases hmul : (r.count - 1) * r.step < wordLimit
  · rw [if_pos hmul, Option.bind_some]
    split <;> rfl
  · rw [if_neg hmul, if_neg (by omega)]
    rfl

/-- A run that is not reported fits, and the other way round, if the length is a word. -/
theorem overrun?_eq_none_iff {r : Run} {n : Nat} (hstep : 0 < r.step) (hn : n < wordLimit) :
    overrun? r n = none ↔ r.FitsAxis n := by
  by_cases hcount : r.count = 0
  · rw [overrun?, saturatedLast?_of_count_eq_zero hcount]
    simp only [ite_eq_right_iff, reduceCtorEq, imp_false, Nat.not_lt]
    exact ⟨fun h => ⟨hstep, fun k hk => by omega, h⟩, fun h => h.offset_le⟩
  · rw [overrun?, saturatedLast?_of_count_pos (by omega)]
    simp only [ite_eq_right_iff, reduceCtorEq, imp_false, Nat.not_le]
    constructor
    · intro h
      refine Run.fitsAxis_of_last hstep (by omega) ?_
      unfold maxIndex at h
      split at h <;> omega
    · intro h
      have hlast := h.index_lt _ (Nat.sub_one_lt hcount)
      rwa [if_pos (Nat.lt_trans hlast hn)]

theorem checkAxes_eq_ok_iff {axis : Nat} {region : Region} {shape : Shape}
    (hlength : region.length = shape.length) (hword : ∀ n ∈ shape, n < wordLimit) :
    checkAxes axis region shape = .ok () ↔ region.Fits shape := by
  induction region generalizing axis shape with
  | nil =>
    cases shape with
    | nil => simp [checkAxes, Fits]
    | cons => simp at hlength
  | cons r region ih =>
    cases shape with
    | nil => simp at hlength
    | cons n shape =>
      have hn := hword n List.mem_cons_self
      have ih : checkAxes (axis + 1) region shape = .ok () ↔ Fits region shape :=
        ih (Nat.succ.inj hlength) fun m hm => hword m (List.mem_cons_of_mem _ hm)
      rw [checkAxes, Fits, List.forall₂_cons]
      split
      · next hstep =>
        simp only [reduceCtorEq, false_iff, not_and]
        exact fun h => absurd h.step_pos (by omega)
      · next hstep =>
        rw [← overrun?_eq_none_iff (by omega) hn]
        cases overrun? r n with
        | none => simpa [Fits] using ih
        | some index => simp

theorem checkBounds_eq_ok_iff {region : Region} {shape : Shape}
    (hword : ∀ n ∈ shape, n < wordLimit) :
    region.checkBounds shape = .ok () ↔ region.Fits shape := by
  simp only [checkBounds, Outcome.check_bind_eq_ok_iff, Outcome.mapError_eq_ok_iff,
    RankMismatch.check_eq_ok_iff, rank]
  constructor
  · rintro ⟨hlength, h⟩
    exact (checkAxes_eq_ok_iff hlength hword).1 h
  · intro h
    exact ⟨h.length_eq, (checkAxes_eq_ok_iff h.length_eq hword).2 h⟩

variable {region : Region} {shape : Shape}

theorem Fits.step_pos (h : region.Fits shape) : ∀ r ∈ region, 0 < r.step := by
  induction h with
  | nil => exact List.forall_mem_nil _
  | cons hr _ ih => exact List.forall_mem_cons.2 ⟨hr.step_pos, ih⟩

theorem Fits.view_fits (h : region.Fits shape) : region.view.fits shape = true := by
  induction h with
  | nil => rfl
  | cons hr _ ih =>
    simp only [view, List.map_cons, View.fits, Bool.and_eq_true, decide_eq_true_eq]
    exact ⟨Run.range_fits hr, ih⟩

theorem Fits.shape_view (h : region.Fits shape) : region.view.shape = region.shape := by
  induction h with
  | nil => rfl
  | cons hr _ ih => exact congrArg₂ _ (Run.count_range hr) ih

theorem index_view {region : Region} {j : Index} (hj : j.Inside region.shape) :
    region.view.index j = region.index j := by
  induction region generalizing j with
  | nil => cases hj; rfl
  | cons r region ih =>
    cases hj with
    | cons hk hj => exact congrArg₂ _ (Run.index_range hk) (ih hj)

theorem Fits.index_inside (h : region.Fits shape) {j : Index} (hj : j.Inside region.shape) :
    (region.index j).Inside shape := by
  induction h generalizing j with
  | nil => cases hj; exact .nil
  | cons hr _ ih =>
    cases hj with
    | cons hk hj => exact .cons (hr.index_lt _ hk) (ih hj)

theorem Fits.index_injective (h : region.Fits shape) {j k : Index} (hj : j.Inside region.shape)
    (hk : k.Inside region.shape) (he : region.index j = region.index k) : j = k := by
  induction h generalizing j k with
  | nil => cases hj; cases hk; rfl
  | cons hr _ ih =>
    cases hj with
    | cons _ hj =>
      cases hk with
      | cons _ hk =>
        obtain ⟨h₁, h₂⟩ := List.cons.inj he
        rw [Run.index_injective hr.step_pos h₁, ih hj hk h₂]

end Region

end ChunkedArray
