import ChunkedArray.Proofs.NdArray.Cells

/-!
# Inserting and dropping axes

An axis of one coordinate is inserted or dropped somewhere between the others; the cells stay.
-/

namespace ChunkedArray

namespace Index

theorem Inside.append {u j : Index} {pre post : Shape} (hu : u.Inside pre) (hj : j.Inside post) :
    Inside (u ++ j) (pre ++ post) := by
  induction hu with
  | nil => exact hj
  | cons hi _ ih => exact .cons hi ih

theorem insertIdx_append (u j : Index) (k : Nat) : (u ++ j).insertIdx u.length k = u ++ k :: j := by
  induction u with
  | nil => rfl
  | cons i u ih => simp [ih]

theorem eraseIdx_append (u j : Index) (k : Nat) : (u ++ k :: j).eraseIdx u.length = u ++ j := by
  induction u with
  | nil => rfl
  | cons i u ih => simp [ih]

end Index

namespace NdArray

variable {α : Type} [Inhabited α] {a : NdArray α} {pre post : Shape}

theorem dropAxis_spec (h : a.shape = pre ++ 1 :: post) :
    ∃ b, a.dropAxis pre.length = .ok b ∧ b.shape = pre ++ post ∧
      ∀ u j : Index, u.Inside pre → j.Inside post → b.cell (u ++ j) = a.cell (u ++ 0 :: j) := by
  have haxis : a.shape[pre.length]? = some 1 := by simp [h]
  have hshape : a.shape.eraseIdx pre.length = pre ++ post := by rw [h, Index.eraseIdx_append]
  rw [dropAxis, haxis]
  refine ⟨_, rfl, hshape, fun u j hu hj => ?_⟩
  rw [cell_ofFn _ _ (hshape ▸ hu.append hj), ← hu.length_eq, Index.insertIdx_append]

theorem insertAxis_spec (h : a.shape = pre ++ post) :
    ∃ b, a.insertAxis pre.length = .ok b ∧ b.shape = pre ++ 1 :: post ∧
      ∀ u i : Index, u.Inside pre → i.Inside post → b.cell (u ++ 0 :: i) = a.cell (u ++ i) := by
  have haxis : pre.length ≤ a.rank := by simp [rank, h]
  have hshape : a.shape.insertIdx pre.length 1 = pre ++ 1 :: post := by
    rw [h, Index.insertIdx_append]
  refine ⟨_, dif_pos haxis, hshape, fun u i hu hi => ?_⟩
  rw [cell_ofFn _ _ (hshape ▸ hu.append (.cons Nat.one_pos hi)), ← hu.length_eq,
    Index.eraseIdx_append]

end NdArray

end ChunkedArray
