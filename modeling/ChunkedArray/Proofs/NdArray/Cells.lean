import ChunkedArray.NdArray.View
import Mathlib.Data.List.Nodup

/-!
# Arrays and their cells

No index is listed twice, so an array is its shape and its cells.
-/

namespace ChunkedArray

namespace Index

theorem Inside.length_eq {i : Index} {shape : Shape} (h : i.Inside shape) :
    i.length = shape.length := by
  induction h with
  | nil => rfl
  | cons _ _ ih => exact congrArg Nat.succ ih

theorem exists_inside {shape : Shape} (h : 0 < shape.size) : ∃ i : Index, i.Inside shape := by
  rw [← Shape.length_indices] at h
  obtain ⟨i, hi⟩ := List.exists_mem_of_length_pos h
  exact ⟨i, Shape.mem_indices_iff.1 hi⟩

theorem Inside.getD_lt {i : Index} {shape : Shape} (h : i.Inside shape) {k : Nat}
    (hk : k < shape.length) : i.getD k 0 < shape.getD k 0 := by
  induction h generalizing k with
  | nil => cases hk
  | cons hi _ ih =>
    cases k with
    | zero => exact hi
    | succ k => exact ih (Nat.lt_of_succ_lt_succ hk)

theorem inside_map {l : List Nat} {f g : Nat → Nat} (h : ∀ k ∈ l, f k < g k) :
    Inside (l.map f) (l.map g) := by
  induction l with
  | nil => exact .nil
  | cons k l ih =>
    rw [List.forall_mem_cons] at h
    exact .cons h.1 (ih h.2)

end Index

namespace Shape

theorem nodup_indices (shape : Shape) : shape.indices.Nodup := by
  induction shape with
  | nil => exact List.nodup_singleton _
  | cons n shape ih =>
    rw [indices_cons, List.nodup_flatMap]
    constructor
    · exact fun i _ => ih.map List.cons_injective
    · refine List.pairwise_lt_range.imp ?_
      intro i k hlt j hi hk
      obtain ⟨_, _, rfl⟩ := List.mem_map.1 hi
      obtain ⟨_, _, he⟩ := List.mem_map.1 hk
      exact Nat.ne_of_gt hlt (List.cons.inj he).1

theorem position?_of_getElem? {shape : Shape} {p : Nat} {i : Index}
    (h : shape.indices[p]? = some i) : shape.position? i = some p := by
  have hi : i.Inside shape := mem_indices_iff.1 (List.mem_of_getElem? h)
  obtain ⟨q, hq, _, hget⟩ := getElem?_indices hi
  obtain ⟨hlt, he⟩ := List.getElem?_eq_some_iff.1 h
  obtain ⟨hlt', he'⟩ := List.getElem?_eq_some_iff.1 hget
  rw [hq, (nodup_indices shape).getElem_inj_iff.1 (he.trans he'.symm)]

end Shape

namespace NdArray

variable {α : Type} [Inhabited α]

theorem get?_eq_some_cell (a : NdArray α) {i : Index} (h : i.Inside a.shape) :
    a.get? i = some (a.cell i) := by
  obtain ⟨p, hp, hlt, -⟩ := Shape.getElem?_indices h
  rw [← a.size_data] at hlt
  simp [cell, get?, hp, hlt]

theorem mem_cells_iff {a : NdArray α} {x : α} :
    x ∈ a.cells ↔ ∃ i : Index, i.Inside a.shape ∧ a.cell i = x := by
  constructor
  · intro hx
    obtain ⟨p, hp, rfl⟩ := List.mem_iff_getElem.1 hx
    have hp : p < a.data.size := hp
    have hlt : p < a.shape.indices.length := by rw [Shape.length_indices, ← a.size_data]; exact hp
    have hindex := List.getElem?_eq_getElem hlt
    refine ⟨_, Shape.mem_indices_iff.1 (List.mem_of_getElem? hindex), ?_⟩
    simp [cell, get?, Shape.position?_of_getElem? hindex, hp, cells]
  · rintro ⟨i, hi, rfl⟩
    obtain ⟨p, -, hp⟩ := Option.bind_eq_some_iff.1 (get?_eq_some_cell a hi)
    exact Array.mem_toList_iff.2 (Array.mem_of_getElem? hp)

theorem ext_cell {a b : NdArray α} (hshape : a.shape = b.shape)
    (h : ∀ i : Index, i.Inside a.shape → a.cell i = b.cell i) : a = b := by
  have hget : ∀ i : Index, i.Inside a.shape → a.get? i = b.get? i := by
    intro i hi
    rw [get?_eq_some_cell a hi, get?_eq_some_cell b (hshape ▸ hi), h i hi]
  obtain ⟨shape, data, hsize, haddr⟩ := a
  obtain ⟨_, data', hsize', haddr'⟩ := b
  obtain rfl : shape = _ := hshape
  have hdata : data = data' := by
    refine Array.ext (hsize.trans hsize'.symm) fun p hp hp' => ?_
    have hlt : p < shape.indices.length := by rw [Shape.length_indices, ← hsize]; exact hp
    have hindex := List.getElem?_eq_getElem hlt
    have hpos := Shape.position?_of_getElem? hindex
    have := hget _ (Shape.mem_indices_iff.1 (List.mem_of_getElem? hindex))
    simpa [get?, hpos, hp, hp'] using this
  subst hdata
  rfl

end NdArray

end ChunkedArray
