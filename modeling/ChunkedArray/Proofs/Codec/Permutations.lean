import ChunkedArray.Proofs.NdArray.AxisOrder

/-!
# Accepted orders

The check of an order compares its entries with the count of axes and with each other, and so accepts
exactly the permutations of the axes. An accepted order is undone by the order that is computed from
it, on axes and on shapes, and that one is accepted and undone by the first.
-/

namespace ChunkedArray

namespace Transpose

open NdArray

/-- Looked up one after the other, whichever is the first, the two orders lead back to every axis. -/
structure Undoes (order other : List Nat) : Prop where
  length_eq : other.length = order.length
  after : ∀ k < order.length, (order[k]?).bind (other[·]?) = some k
  before : ∀ k < order.length, (other[k]?).bind (order[·]?) = some k

/-- An order of axes and the one that is computed to undo it. -/
structure Reorders (order other : List Nat) : Prop where
  invert_eq : invert order = .ok other
  undoes : Undoes order other
  validate_other : validate ⟨other⟩ = .ok ()
  invert_other : invert other = .ok order
  /-- An array is encoded to the shape that is computed from its shape. -/
  shape_encode : ∀ {α : Type} [Inhabited α] (a : NdArray α), a.rank = order.length →
    ∃ b, encode ⟨order⟩ a = .ok b ∧ encodedShape ⟨order⟩ a.shape = .ok b.shape
  shape_back : ∀ shape : Shape, shape.length = order.length →
    ∃ s, encodedShape ⟨order⟩ shape = .ok s ∧ encodedShape ⟨other⟩ s = .ok shape

variable {order : List Nat} {rank : Nat}

theorem isAxisOrder_iff_perm : IsAxisOrder rank order = true ↔ order.Perm (List.range rank) :=
  ⟨perm_of_isAxisOrder, isAxisOrder_of_perm⟩

theorem undoes_inverse (h : IsAxisOrder rank order) : Undoes order (inverse order) := by
  have hlength := length_of_isAxisOrder h
  constructor
  · exact length_inverse order
  · intro k hk
    have hlt : order[k] < order.length := by
      rw [hlength]
      exact (mem_of_isAxisOrder h).1 (List.getElem_mem hk)
    rw [List.getElem?_eq_getElem hk, Option.bind_some, getElem?_inverse hlt,
      (nodup_of_isAxisOrder h).idxOf_getElem k hk]
  · intro k hk
    have hmem : k ∈ order := by
      rw [hlength] at hk
      exact (mem_of_isAxisOrder h).2 hk
    rw [getElem?_inverse hk, Option.bind_some]
    exact List.getElem?_idxOf hmem

theorem invert_inverse (h : IsAxisOrder rank order) : invert (inverse order) = .ok order := by
  rw [invert_eq_ok (isAxisOrder_inverse h), inverse_inverse h]

theorem encodedShape_inverse {shape : Shape} (h : IsAxisOrder shape.length order) :
    encodedShape ⟨inverse order⟩ (gather order shape) = .ok shape := by
  have hinverse : IsAxisOrder (gather order shape).length (inverse order) := by
    rw [length_gather h]
    exact isAxisOrder_inverse h
  rw [encodedShape_eq_ok (c := ⟨inverse order⟩) hinverse, gather_inverse_gather h rfl]

theorem reorders_inverse (h : IsAxisOrder order.length order) : Reorders order (inverse order) := by
  constructor
  · exact invert_eq_ok h
  · exact undoes_inverse h
  · rw [validate_eq_ok_iff, length_inverse]
    exact isAxisOrder_inverse h
  · exact invert_inverse h
  · intro α _ a ha
    rw [← ha] at h
    obtain ⟨b, hb, hshape, -⟩ := permuteAxes_spec h
    refine ⟨b, hb, ?_⟩
    rw [hshape]
    exact encodedShape_eq_ok h
  · intro shape hshape
    rw [← hshape] at h
    exact ⟨gather order shape, encodedShape_eq_ok h, encodedShape_inverse h⟩

/-- Exactly the permutations of the axes are accepted, and what is accepted can be undone. -/
theorem validate_exact (order : List Nat) :
    (validate ⟨order⟩ = .ok () ↔ order.Perm (List.range order.length)) ∧
      (validate ⟨order⟩ = .ok () → ∃ other, Reorders order other) := by
  constructor
  · rw [validate_eq_ok_iff, isAxisOrder_iff_perm]
  · intro h
    exact ⟨inverse order, reorders_inverse (validate_eq_ok_iff.1 h)⟩

/-- An order of three axes that is not its own inverse. -/
theorem validate_exact_turned :
    validate ⟨[2, 0, 1]⟩ = .ok () ∧ Reorders [2, 0, 1] [1, 2, 0] := by
  have hvalid : validate ⟨[2, 0, 1]⟩ = .ok () := by decide
  obtain ⟨other, h⟩ := (validate_exact [2, 0, 1]).2 hvalid
  have hother : invert [2, 0, 1] = .ok [1, 2, 0] := by decide
  have heq := h.invert_eq
  rw [hother] at heq
  obtain rfl := Except.ok.inj heq
  exact ⟨hvalid, h⟩

end Transpose

end ChunkedArray
