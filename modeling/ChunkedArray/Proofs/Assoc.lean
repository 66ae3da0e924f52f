import ChunkedArray.Assoc
import Mathlib.Data.List.Nodup

/-!
# Keys of association lists

Setting and restricting keep every key once. With each key once, what is found in a part of a list is
found in the whole of it. Setting a key changes those parts of a list alone that keep the key.
-/

namespace ChunkedArray

namespace Assoc

variable {α β : Type} [DecidableEq α] {key k : α} {value : β} {l : List (α × β)}

theorem mem_keys_set (h : k ∈ keys (set key value l)) : k = key ∨ k ∈ keys l := by
  rw [← find?_isSome_iff, find?_set] at h
  split at h
  · next he => exact .inl he.symm
  · exact .inr ((find?_isSome_iff k l).1 h)

theorem nodup_keys_set (h : (keys l).Nodup) : (keys (set key value l)).Nodup := by
  induction l with
  | nil => exact List.nodup_singleton key
  | cons e l ih =>
    obtain ⟨k, v⟩ := e
    obtain ⟨hnew, hrest⟩ := List.nodup_cons.1 h
    rw [set]
    split
    · next he => exact he ▸ h
    · next he =>
      refine List.nodup_cons.2 ⟨fun hmem => ?_, ih hrest⟩
      rcases mem_keys_set hmem with hk | hk
      · exact he hk
      · exact hnew hk

theorem ne_of_find?_later {e : α × β} (h : (keys (e :: l)).Nodup) (hf : find? k l = some value) :
    e.1 ≠ k := by
  rintro rfl
  exact (List.nodup_cons.1 h).1 ((find?_isSome_iff e.1 l).1 (by rw [hf]; rfl))

theorem find?_later {e : α × β} (h : (keys (e :: l)).Nodup) (hf : find? k l = some value) :
    find? k (e :: l) = some value := (if_neg (ne_of_find?_later h hf)).trans hf

omit [DecidableEq α] in
theorem nodup_keys_restrict (keep : α → Bool) (h : (keys l).Nodup) :
    (keys (restrict keep l)).Nodup := h.sublist (List.filter_sublist.map _)

/-! ### Parts -/

theorem restrict_set (keep : α → Bool) (key : α) (value : β) (l : List (α × β)) :
    restrict keep (set key value l) =
      if keep key then set key value (restrict keep l) else restrict keep l := by
  induction l with
  | nil => cases hkeep : keep key <;> simp [set, restrict, hkeep]
  | cons e l ih =>
    obtain ⟨k, v⟩ := e
    simp only [restrict] at ih
    by_cases he : k = key
    · subst he
      cases hkeep : keep k <;> simp [set, restrict, hkeep]
    · cases hkept : keep k <;> cases hkeep : keep key <;>
        simp_all [set, restrict]

omit [DecidableEq α]

theorem restrict_comm (keep keep' : α → Bool) (l : List (α × β)) :
    restrict keep (restrict keep' l) = restrict keep' (restrict keep l) := by
  simp only [restrict, List.filter_filter, Bool.and_comm]

theorem restrict_restrict {keep keep' : α → Bool} (h : ∀ k, keep k = true → keep' k = true)
    (l : List (α × β)) : restrict keep (restrict keep' l) = restrict keep l := by
  rw [restrict, restrict, List.filter_filter]
  refine List.filter_congr fun e _ => ?_
  cases hkeep : keep e.1 with
  | false => rfl
  | true => rw [h e.1 hkeep]; rfl

theorem filter_keys (keep : α → Bool) (l : List (α × β)) :
    (keys l).filter keep = keys (restrict keep l) := List.filter_map

end Assoc

end ChunkedArray
