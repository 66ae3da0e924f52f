import ChunkedArray.DataType.Element
import ChunkedArray.Proofs.Grid.Bounds
import ChunkedArray.Proofs.NdArray.Cells

/-!
# Reading and replacing part of an array

What a region that fits an array reads from it, and which cells it replaces in it.
-/

namespace ChunkedArray

namespace NdArray

variable {α : Type} [Inhabited α] {region : Region}

/-- The cells of the region are `f` of their index in the region, all others are left. -/
structure Replaced (region : Region) (f : Index → α) (a b : NdArray α) : Prop where
  shape_eq : b.shape = a.shape
  cell_index : ∀ k : Index, k.Inside region.shape → b.cell (region.index k) = f k
  cell_of_ne : ∀ i : Index, i.Inside a.shape →
    (∀ k : Index, k.Inside region.shape → region.index k ≠ i) → b.cell i = a.cell i

/-- Replacing the same cells again changes nothing. -/
theorem Replaced.eq_of_again {f : Index → α} {a b b' : NdArray α} (hfirst : Replaced region f a b)
    (hagain : Replaced region f b b') : b' = b := by
  refine ext_cell hagain.shape_eq fun i hi => ?_
  by_cases hset : ∃ k : Index, k.Inside region.shape ∧ region.index k = i
  · obtain ⟨k, hk, rfl⟩ := hset
    rw [hagain.cell_index k hk, hfirst.cell_index k hk]
  · rw [hagain.shape_eq] at hi
    exact hagain.cell_of_ne i hi fun k hk he => hset ⟨k, hk, he⟩

theorem slice_spec {a : NdArray α} (h : region.Fits a.shape) :
    ∃ b, a.slice region.view = .ok b ∧ b.shape = region.shape ∧
      ∀ k : Index, k.Inside region.shape → b.cell k = a.cell (region.index k) := by
  refine ⟨_, dif_pos h.view_fits, h.shape_view, fun k hk => ?_⟩
  rw [cell_ofFn _ _ (h.shape_view.symm ▸ hk), Region.index_view hk]

theorem cell_update {a : NdArray α} (h : region.Fits a.shape) (f : Index → α) {i : Index}
    (hi : i.Inside a.shape) :
    (a.update region.view f).cell i = (region.view.position? i).elim (a.cell i) f := by
  rw [cell, get?_update h.view_fits f i, get?_eq_some_cell a hi]
  rfl

theorem replaced_update {a : NdArray α} (h : region.Fits a.shape) (f : Index → α) :
    Replaced region f a (a.update region.view f) := by
  have hposition {i k : Index} (hi : i.Inside a.shape) :
      region.view.position? i = some k ↔ k.Inside region.shape ∧ region.index k = i := by
    rw [View.position?_eq_some_iff h.view_fits hi, h.shape_view]
    exact and_congr_right fun hk => by rw [Region.index_view hk]
  constructor
  · rfl
  · intro k hk
    have hi := h.index_inside hk
    rw [cell_update h f hi, (hposition hi).2 ⟨hk, rfl⟩]
    rfl
  · intro i hi hne
    have hnone : region.view.position? i = none := by
      refine Option.eq_none_iff_forall_ne_some.2 fun k hk => ?_
      obtain ⟨hin, he⟩ := (hposition hi).1 hk
      exact hne k hin he
    rw [cell_update h f hi, hnone]
    rfl

theorem assign_spec {a src : NdArray α} (h : region.Fits a.shape) (hsrc : src.shape = region.shape) :
    ∃ b, a.assign region.view src = .ok b ∧ Replaced region src.cell a b := by
  refine ⟨_, ?_, replaced_update h src.cell⟩
  have hshape : ¬ src.shape ≠ region.view.shape := not_not.2 (hsrc.trans h.shape_view.symm)
  rw [assign, h.view_fits, if_neg (by decide), if_neg hshape]

theorem assignAll_spec {a : NdArray α} (h : region.Fits a.shape) (x : α) :
    ∃ b, a.assignAll region.view x = .ok b ∧ Replaced region (fun _ => x) a b :=
  ⟨_, if_pos h.view_fits, replaced_update h fun _ => x⟩

end NdArray

/-! ### New arrays -/

/-- An array of this type and shape has a place in memory. -/
def DataType.HasRoomFor (t : DataType) (shape : Shape) : Prop :=
  shape.isAddressable ∧ shape.size * t.byteCount < addressLimit

namespace NdArray

theorem exists_filled {t : DataType} {shape : Shape} (h : t.HasRoomFor shape) (x : t.Element) :
    ∃ a, filled t.byteCount shape x = .ok a := ⟨_, dif_pos h⟩

theorem hasRoomFor_of_filled {t : DataType} {shape : Shape} {x : t.Element} {a : NdArray t.Element}
    (h : filled t.byteCount shape x = .ok a) : t.HasRoomFor shape := by
  unfold filled at h
  split at h
  · next hroom => exact hroom
  · cases h

theorem filled_spec {α : Type} [Inhabited α] {byteCount : Nat} {shape : Shape} {x : α}
    {a : NdArray α} (h : filled byteCount shape x = .ok a) :
    a.shape = shape ∧ ∀ i : Index, i.Inside shape → a.cell i = x := by
  rw [filled] at h
  split at h
  · obtain rfl := Except.ok.inj h
    refine ⟨rfl, fun i hi => ?_⟩
    obtain ⟨p, hp, hlt, -⟩ := Shape.getElem?_indices hi
    simp [cell, get?, fill, hp, hlt]
  · cases h

end NdArray

end ChunkedArray
