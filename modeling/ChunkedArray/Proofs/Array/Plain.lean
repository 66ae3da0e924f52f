import ChunkedArray.Proofs.Grid.Voxel
import ChunkedArray.Proofs.Selections

/-!
# Plain arrays

A plain array has a value for every index. The operations that change a chunked array have their
counterparts on plain ones: each overwrites the cells that it is about and leaves all others.
-/

namespace ChunkedArray

variable {α : Type}

/-- Replaces the value at the index of each `j` of a shape by `f j`. -/
def overwrite (shape : Shape) (index : Index → Index) (f : Index → α) (a : Index → α) (i : Index) :
    α :=
  (shape.indices.find? fun j => index j = i).elim (a i) f

section

variable {shape : Shape} {index : Index → Index} {f : Index → α} {a : Index → α} {i : Index}

theorem overwrite_of_ne (h : ∀ j : Index, j.Inside shape → index j ≠ i) :
    overwrite shape index f a i = a i := by
  have hnone : shape.indices.find? (fun j => index j = i) = none := by
    refine List.find?_eq_none.2 fun j hj => ?_
    simpa using h j (Shape.mem_indices_iff.1 hj)
  rw [overwrite, hnone]
  rfl

/-- Where indices that go to one place have the same value, that is the new value of the place. -/
theorem overwrite_eq {x : α} (hx : ∀ j : Index, j.Inside shape → index j = i → f j = x)
    (h : ∃ j : Index, j.Inside shape ∧ index j = i) : overwrite shape index f a i = x := by
  obtain ⟨j, hj, hji⟩ := h
  rw [overwrite]
  cases hfind : shape.indices.find? fun j => index j = i with
  | none =>
    have := List.find?_eq_none.1 hfind j (Shape.mem_indices_iff.2 hj)
    exact absurd hji (by simpa using this)
  | some k =>
    have hk := List.find?_some hfind
    exact hx k (Shape.mem_indices_iff.1 (List.mem_of_find?_eq_some hfind)) (by simpa using hk)

theorem overwrite_index
    (hinj : ∀ j k : Index, j.Inside shape → k.Inside shape → index j = index k → j = k) {j : Index}
    (hj : j.Inside shape) : overwrite shape index f a (index j) = f j :=
  overwrite_eq (fun k hk he => congrArg f (hinj k j hk hj he)) ⟨j, hj, rfl⟩

/-- The same places with the same values may be named in another way. -/
theorem overwrite_reindex {other : Shape} {index' : Index → Index} {f' : Index → α}
    (hinj : ∀ j k : Index, j.Inside shape → k.Inside shape → index j = index k → j = k)
    (hfrom : ∀ k : Index, k.Inside other →
      ∃ j : Index, j.Inside shape ∧ index j = index' k ∧ f j = f' k)
    (hto : ∀ j : Index, j.Inside shape → ∃ k : Index, k.Inside other ∧ index' k = index j) :
    overwrite other index' f' a i = overwrite shape index f a i := by
  by_cases hhit : ∃ j : Index, j.Inside shape ∧ index j = i
  · obtain ⟨j, hj, rfl⟩ := hhit
    rw [overwrite_index hinj hj]
    refine overwrite_eq (fun k hk he => ?_) (hto j hj)
    obtain ⟨l, hl, hle, hvalue⟩ := hfrom k hk
    rw [← hvalue, hinj l j hl hj (hle.trans he)]
  · have hmiss : ∀ j : Index, j.Inside shape → index j ≠ i := fun j hj he => hhit ⟨j, hj, he⟩
    rw [overwrite_of_ne hmiss]
    refine overwrite_of_ne fun k hk he => ?_
    obtain ⟨l, hl, hle, -⟩ := hfrom k hk
    exact hmiss l hl (hle.trans he)

end

/-! ### Selections -/

namespace Selection

/-- The plain array with what is selected replaced. -/
def overwrite (selection : Selection) (shape : Shape) (f : Index → α) (plain : Index → α) :
    Index → α :=
  ChunkedArray.overwrite (selection.pickedShape shape) (selection.pickedIndex shape) f plain

theorem overwrite_eq_of_resolves {selection : Selection} {shape : Shape} {region : Region}
    {f g : Index → α} {plain : Index → α} (h : Resolves selection shape region)
    (hfg : ∀ j : Index, j.Inside (dropIndexed selection region.shape) →
      g (restoreIndexed selection j) = f j) (i : Index) :
    selection.overwrite shape f plain i =
      ChunkedArray.overwrite region.shape region.index g plain i := by
  rw [overwrite, h.pickedShape_eq]
  refine overwrite_reindex (fun j k hj hk => h.fits.index_injective hj hk) (fun k hk => ?_)
    fun j hj => ?_
  · exact ⟨_, h.restoreIndexed_inside hk, (h.pickedIndex_eq hk).symm, hfg k hk⟩
  · obtain ⟨hin, he⟩ := h.restoreIndexed_dropIndexed hj
    exact ⟨_, hin, by rw [h.pickedIndex_eq hin, he]⟩

end Selection

end ChunkedArray
