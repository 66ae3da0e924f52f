import ChunkedArray.Key
import Mathlib.Data.List.Lex
import Mathlib.Data.String.Basic

/-!
# The order of keys

Keys are ordered like the lists of their names. So the sorted list of some keys depends on no more
than which keys they are.
-/

namespace ChunkedArray

namespace Key

/-- The names that lead to the value of a key. -/
def names (k : Key) : List String := k.components.map KeyComponent.text

variable {a b k base : Key}

theorem names_injective (h : a.names = b.names) : a = b := by
  cases a
  cases b
  refine congrArg Key.mk (List.map_injective_iff.2 (fun c d hcd => ?_) h)
  cases c
  cases d
  exact congrArg KeyComponent.mk hcd

theorem names_ne_nil (h : k ≠ root) : k.names ≠ [] := by
  intro hnil
  exact h (names_injective hnil)

theorem startsWith_iff : k.startsWith base = true ↔ base.names <+: k.names := by
  rw [startsWith, List.isPrefixOf_iff_prefix]
  constructor
  · exact fun h => h.map _
  · rintro ⟨rest, hrest⟩
    have htake : (⟨k.components.take base.components.length⟩ : Key) = base := by
      refine names_injective ?_
      rw [names, List.map_take, ← names, ← hrest, List.take_left' (by simp [names])]
    exact htake ▸ List.take_prefix _ _

theorem compareComponents_eq (as bs : List KeyComponent) :
    compareComponents as bs =
      if as.map KeyComponent.text < bs.map KeyComponent.text then .lt
      else if bs.map KeyComponent.text < as.map KeyComponent.text then .gt
      else .eq := by
  induction as generalizing bs with
  | nil => cases bs <;> simp [compareComponents]
  | cons a as ih =>
    cases bs with
    | nil => simp [compareComponents]
    | cons b bs =>
      simp only [List.map_cons, List.cons_lt_cons_iff, compareComponents, ih]
      rcases lt_trichotomy a.text b.text with h | h | h
      · simp [h]
      · simp [h]
      · simp [h, not_lt_of_gt h, ne_of_gt h]

theorem compare_eq (a b : Key) :
    compare a b = if a.names < b.names then .lt else if b.names < a.names then .gt else .eq :=
  compareComponents_eq _ _

theorem le_iff : le a b = true ↔ a.names ≤ b.names := by
  rw [le, bne_iff_ne, compare_eq, ← not_lt]
  split
  · next h => simp [not_lt_of_gt h]
  · split <;> simp_all

theorem pairwise_sort (l : List Key) : (sort l).Pairwise fun a b => le a b = true := by
  refine List.pairwise_mergeSort (fun a b c => ?_) (fun a b => ?_) l
  · simp only [le_iff]
    exact le_trans
  · simp only [Bool.or_eq_true, le_iff]
    exact le_total _ _

theorem mem_sort {l : List Key} : k ∈ sort l ↔ k ∈ l := List.mem_mergeSort

theorem sort_eq_sort_of_perm {l l' : List Key} (h : l.Perm l') : sort l = sort l' := by
  have hperm : (sort l).Perm (sort l') :=
    (List.mergeSort_perm l le).trans (h.trans (List.mergeSort_perm l' le).symm)
  refine hperm.eq_of_pairwise (fun a b _ _ hab hba => ?_) (pairwise_sort l) (pairwise_sort l')
  exact names_injective (le_antisymm (le_iff.1 hab) (le_iff.1 hba))

/-- Different keys are sorted into strictly increasing order. -/
theorem increasing_sort {l : List Key} (h : l.Nodup) :
    (sort l).Pairwise fun a b => compare a b = .lt := by
  have hnodup : (sort l).Nodup := (List.mergeSort_perm l le).nodup_iff.2 h
  refine (pairwise_sort l).imp₂ (fun a b hle hne => ?_) hnodup
  rw [compare_eq, if_pos]
  exact lt_of_le_of_ne (le_iff.1 hle) fun he => hne (names_injective he)

end Key

end ChunkedArray
