import ChunkedArray.Codec.Transpose
import ChunkedArray.Proofs.NdArray.Cells
import ChunkedArray.Proofs.Outcome

/-!
# Reordering axes and back

The inverse of an axis order puts every axis back in its place, on indices, on shapes and on arrays.
-/

namespace ChunkedArray

namespace Transpose

open NdArray

variable {order : List Nat} {rank : Nat}

/-! ### Permutations -/

theorem areFresh_eq_true_iff {n : Nat} {seen l : List Nat} :
    isPermutation.areFresh n seen l = true ↔ (∀ k ∈ l, k < n) ∧ (∀ k ∈ l, k ∉ seen) ∧ l.Nodup := by
  induction l generalizing seen with
  | nil => simp [isPermutation.areFresh]
  | cons k l ih =>
    simp only [isPermutation.areFresh, Bool.and_eq_true, decide_eq_true_eq, Bool.not_eq_true',
      List.contains_eq_mem, decide_eq_false_iff_not, ih, List.forall_mem_cons, List.nodup_cons]
    constructor
    · rintro ⟨⟨hlt, hseen⟩, hall, hfresh, hnodup⟩
      refine ⟨⟨hlt, hall⟩, ⟨hseen, fun j hj hmem => hfresh j hj (List.mem_cons_of_mem _ hmem)⟩, ?_,
        hnodup⟩
      exact fun hk => hfresh k hk List.mem_cons_self
    · rintro ⟨⟨hlt, hall⟩, ⟨hseen, hfresh⟩, hk, hnodup⟩
      refine ⟨⟨hlt, hseen⟩, hall, fun j hj hmem => ?_, hnodup⟩
      rcases List.mem_cons.1 hmem with rfl | hmem
      · exact hk hj
      · exact hfresh j hj hmem

theorem isAxisOrder_of_perm (h : order.Perm (List.range rank)) : IsAxisOrder rank order = true := by
  simp only [IsAxisOrder, Bool.and_eq_true, beq_iff_eq, List.all_eq_true, List.contains_iff_mem]
  exact ⟨by simpa using h.length_eq, fun k hk => h.mem_iff.2 hk⟩

theorem length_of_isAxisOrder (h : IsAxisOrder rank order) : order.length = rank := by
  simpa using (perm_of_isAxisOrder h).length_eq

theorem mem_of_isAxisOrder (h : IsAxisOrder rank order) {k : Nat} : k ∈ order ↔ k < rank := by
  rw [(perm_of_isAxisOrder h).mem_iff, List.mem_range]

theorem nodup_of_isAxisOrder (h : IsAxisOrder rank order) : order.Nodup :=
  (perm_of_isAxisOrder h).nodup_iff.2 List.nodup_range

theorem length_gather (h : IsAxisOrder rank order) (i : Index) : (gather order i).length = rank := by
  rw [gather, List.length_map, length_of_isAxisOrder h]

theorem isPermutation_eq_true_iff : isPermutation order = true ↔ IsAxisOrder order.length order := by
  constructor
  · intro h
    obtain ⟨hlt, -, hnodup⟩ := areFresh_eq_true_iff.1 h
    exact isAxisOrder_of_perm (perm_of_length_eq hnodup (by simp) fun k hk =>
      List.mem_range.2 (hlt k hk)).symm
  · intro h
    exact areFresh_eq_true_iff.2 ⟨fun k => (mem_of_isAxisOrder h).1, fun _ _ => List.not_mem_nil,
      nodup_of_isAxisOrder h⟩

/-! ### The inverse -/

/-- The place of each axis in an order. -/
def inverse (order : List Nat) : List Nat := (List.range order.length).map order.idxOf

@[simp] theorem length_inverse (order : List Nat) : (inverse order).length = order.length := by
  simp [inverse]

theorem getElem_inverse {k : Nat} (hk : k < (inverse order).length) :
    (inverse order)[k] = order.idxOf k := by
  simp [inverse]

theorem getElem?_inverse {k : Nat} (hk : k < order.length) :
    (inverse order)[k]? = some (order.idxOf k) := by
  simp [inverse, hk]

/-- Of the entries that were gone through, the places are written down; later entries name other
axes and leave them. -/
theorem write_spec (hnodup : order.Nodup) (hlt : ∀ k ∈ order, k < order.length)
    (before rest : List Nat) {places : List Nat} (horder : order = before ++ rest)
    (hlength : places.length = order.length)
    (hbefore : ∀ k ∈ before, places[k]? = some (order.idxOf k)) :
    ∃ out, invert.write before.length rest places = .ok out ∧ out.length = order.length ∧
      ∀ k ∈ order, out[k]? = some (order.idxOf k) := by
  induction rest generalizing before places with
  | nil =>
    rw [List.append_nil] at horder
    rw [← horder] at hbefore
    exact ⟨places, rfl, hlength, hbefore⟩
  | cons axis rest ih =>
    have haxis : axis < places.length := by
      rw [hlength]
      apply hlt
      simp [horder]
    have hnext : order = (before ++ [axis]) ++ rest := by simp [horder]
    have hfresh : axis ∉ before := by
      rw [horder, List.nodup_append] at hnodup
      exact fun hmem => hnodup.2.2 axis hmem axis List.mem_cons_self rfl
    have hplace : order.idxOf axis = before.length := by
      rw [horder, List.idxOf_append_of_notMem hfresh]
      simp
    have hwritten : ∀ k ∈ before ++ [axis],
        (places.set axis before.length)[k]? = some (order.idxOf k) := by
      intro k hk
      by_cases hne : axis = k
      · rw [← hne, hplace, List.getElem?_set_self haxis]
      · rw [List.getElem?_set_ne hne]
        apply hbefore
        simpa [Ne.symm hne] using hk
    obtain ⟨out, hout, hspec⟩ := ih (before ++ [axis]) hnext (by simpa using hlength) hwritten
    refine ⟨out, ?_, hspec⟩
    rw [List.length_append] at hout
    rw [invert.write, if_pos haxis]
    exact hout

theorem invert_eq_ok (h : IsAxisOrder rank order) : invert order = .ok (inverse order) := by
  have hmem {k : Nat} : k ∈ order ↔ k < order.length := by
    rw [mem_of_isAxisOrder h, length_of_isAxisOrder h]
  obtain ⟨out, hout, hlength, hspec⟩ := write_spec (nodup_of_isAxisOrder h) (fun k => hmem.1)
    [] order rfl (List.length_replicate (n := order.length) (a := 0))
    fun k hk => absurd hk List.not_mem_nil
  have heq : out = inverse order := by
    apply List.ext_getElem?
    intro k
    by_cases hk : k < order.length
    · rw [hspec k (hmem.2 hk), getElem?_inverse hk]
    · rw [List.getElem?_eq_none (by omega), List.getElem?_eq_none (by simp; omega)]
  rw [← heq]
  exact hout

theorem decode_eq {α : Type} [Inhabited α] {c : Transpose} (h : IsAxisOrder rank c.order)
    (a : NdArray α) : c.decode a = a.permuteAxes (inverse c.order) := by
  rw [decode, invert_eq_ok h, Outcome.ok_bind]

theorem isAxisOrder_inverse (h : IsAxisOrder rank order) : IsAxisOrder rank (inverse order) := by
  have hlength := length_of_isAxisOrder h
  refine isAxisOrder_of_perm (perm_of_length_eq List.nodup_range (by simp [hlength]) ?_)
  intro k hk
  rw [List.mem_range, ← hlength] at hk
  have hmem : order[k] < (inverse order).length := by
    rw [length_inverse, hlength]
    exact (mem_of_isAxisOrder h).1 (List.getElem_mem hk)
  have hget := getElem_inverse hmem
  rw [(nodup_of_isAxisOrder h).idxOf_getElem k hk] at hget
  exact hget ▸ List.getElem_mem hmem

theorem inverse_inverse (h : IsAxisOrder rank order) : inverse (inverse order) = order := by
  have hinv := isAxisOrder_inverse h
  refine List.ext_getElem (by simp) fun k hk hk' => ?_
  rw [getElem_inverse]
  have hmem : order[k] < (inverse order).length := by
    rw [length_inverse, length_of_isAxisOrder h]
    exact (mem_of_isAxisOrder h).1 (List.getElem_mem hk')
  have hget := getElem_inverse hmem
  rw [(nodup_of_isAxisOrder h).idxOf_getElem k hk'] at hget
  have := (nodup_of_isAxisOrder hinv).idxOf_getElem _ hmem
  rwa [hget] at this

theorem scatter_eq_gather (order : List Nat) (j : Index) :
    scatter order j = gather (inverse order) j := by
  simp [scatter, gather, inverse]

theorem gather_inverse_gather (h : IsAxisOrder rank order) {i : Index} (hi : i.length = rank) :
    gather (inverse order) (gather order i) = i := by
  have hentry : ∀ k ∈ List.range order.length, (gather order i).getD (order.idxOf k) 0 = i.getD k 0 := by
    intro k hk
    rw [List.mem_range, length_of_isAxisOrder h] at hk
    have hlt := List.idxOf_lt_length_iff.2 ((mem_of_isAxisOrder h).2 hk)
    simp [gather, hlt, List.getD]
  calc gather (inverse order) (gather order i)
    _ = (List.range order.length).map fun k => (gather order i).getD (order.idxOf k) 0 := by
      simp [gather, inverse]
    _ = (List.range order.length).map fun k => i.getD k 0 := List.map_congr_left hentry
    _ = i := by rw [length_of_isAxisOrder h, ← hi, map_getD_range]

/-! ### Arrays -/

variable {α : Type} [Inhabited α]

theorem gather_inside {shape : Shape} (h : IsAxisOrder shape.length order) {i : Index}
    (hi : i.Inside shape) : (gather order i).Inside (gather order shape) :=
  Index.inside_map fun _ hk => hi.getD_lt ((mem_of_isAxisOrder h).1 hk)

theorem permuteAxes_spec {a : NdArray α} (h : IsAxisOrder a.rank order) :
    ∃ b, a.permuteAxes order = .ok b ∧ b.shape = gather order a.shape ∧
      ∀ j : Index, j.Inside b.shape → b.cell j = a.cell (scatter order j) := by
  refine ⟨_, dif_pos h, rfl, fun j hj => ?_⟩
  exact cell_ofFn _ _ hj

/-- Reordering the axes and reordering them by the inverse gives the array back. -/
theorem decode_encode {c : Transpose} {a : NdArray α} (h : IsAxisOrder a.rank c.order) :
    ∃ b, c.encode a = .ok b ∧ b.shape = gather c.order a.shape ∧ c.decode b = .ok a := by
  obtain ⟨b, hb, hbshape, hbcell⟩ := permuteAxes_spec h
  have hrank : b.rank = a.rank := by
    rw [NdArray.rank, hbshape, length_gather h]
  obtain ⟨d, hd, hdshape, hdcell⟩ := permuteAxes_spec (hrank ▸ isAxisOrder_inverse h)
  have hshape : d.shape = a.shape := by rw [hdshape, hbshape, gather_inverse_gather h rfl]
  have hcell : ∀ i : Index, i.Inside d.shape → d.cell i = a.cell i := by
    intro i hi
    have hi' : i.Inside a.shape := hshape ▸ hi
    rw [hdcell i hi, scatter_eq_gather, inverse_inverse h,
      hbcell _ (hbshape ▸ gather_inside h hi'), scatter_eq_gather,
      gather_inverse_gather h hi'.length_eq]
  refine ⟨b, hb, hbshape, ?_⟩
  rw [decode_eq h, hd, ext_cell hshape hcell]

/-- The shape computed beside the chunk is that of the encoded chunk. -/
theorem encodedShape_eq_ok {c : Transpose} {shape : Shape} (h : IsAxisOrder shape.length c.order) :
    c.encodedShape shape = .ok (gather c.order shape) := by
  have hmap : ∀ l : List Nat, (∀ k ∈ l, k < shape.length) →
      l.mapM (fun axis => (shape[axis]?).elim (.error .outOfRange) .ok) =
        (.ok (gather l shape) : Except Violation Shape) := by
    intro l
    induction l with
    | nil => exact fun _ => rfl
    | cons k l ih =>
      intro hl
      rw [List.forall_mem_cons] at hl
      simp [ih hl.2, List.getElem?_eq_getElem hl.1, gather]
  exact hmap c.order fun k hk => (mem_of_isAxisOrder h).1 hk

theorem validate_eq_ok_iff {c : Transpose} :
    c.validate = .ok () ↔ IsAxisOrder c.order.length c.order := by
  rw [← isPermutation_eq_true_iff, validate]
  split <;> simp_all

theorem validateFor_eq_ok_iff {c : Transpose} :
    c.validateFor rank = .ok () ↔ IsAxisOrder rank c.order := by
  simp only [validateFor, Outcome.check_bind_eq_ok_iff, Outcome.mapError_eq_ok_iff,
    RankMismatch.check_eq_ok_iff, validate_eq_ok_iff]
  constructor
  · rintro ⟨horder, rfl⟩
    exact horder
  · intro horder
    obtain rfl := length_of_isAxisOrder horder
    exact ⟨horder, rfl⟩

end Transpose

end ChunkedArray
