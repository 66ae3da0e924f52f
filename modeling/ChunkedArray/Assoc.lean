/-!
# Association lists

Finite maps as lists of pairs. A key is set in place if it is there and added at the end otherwise,
so each key stands once; the order of the pairs has no meaning. `find?` is the view: what every
operation does is said by what it does to `find?`.
-/

namespace ChunkedArray

namespace Assoc

variable {α β : Type} [DecidableEq α]

def find? (key : α) : List (α × β) → Option β
  | [] => none
  | (k, v) :: rest => if k = key then some v else find? key rest

def set (key : α) (value : β) : List (α × β) → List (α × β)
  | [] => [(key, value)]
  | (k, v) :: rest => if k = key then (key, value) :: rest else (k, v) :: set key value rest

def restrict (keep : α → Bool) (l : List (α × β)) : List (α × β) := l.filter fun e => keep e.1

def keys (l : List (α × β)) : List α := l.map Prod.fst

theorem find?_set (key k : α) (value : β) (l : List (α × β)) :
    find? k (set key value l) = if key = k then some value else find? k l := by
  induction l with
  | nil => simp [set, find?]
  | cons e l ih =>
    obtain ⟨k', v'⟩ := e
    rw [set]
    split
    · next h => subst h; simp only [find?]; split <;> rfl
    · next h =>
      simp only [find?, ih]
      split
      · next h' => subst h'; rw [if_neg fun h' => h h'.symm]
      · rfl

theorem find?_restrict (keep : α → Bool) (k : α) (l : List (α × β)) :
    find? k (restrict keep l) = if keep k then find? k l else none := by
  induction l with
  | nil => simp [restrict, find?]
  | cons e l ih =>
    obtain ⟨k', v'⟩ := e
    simp only [restrict, List.filter_cons] at ih ⊢
    by_cases hk : k' = k
    · subst hk
      by_cases hkeep : keep k' = true
      · simp [hkeep, find?]
      · simp [hkeep, ih]
    · by_cases hkeep : keep k' = true
      · simp [hkeep, find?, hk, ih]
      · simp [hkeep, find?, hk, ih]

theorem find?_isSome_iff (k : α) (l : List (α × β)) : (find? k l).isSome ↔ k ∈ keys l := by
  induction l with
  | nil => simp [find?, keys]
  | cons e l ih =>
    simp only [find?, keys, List.map_cons, List.mem_cons] at ih ⊢
    split
    · next h => simp [h]
    · next h => rw [ih]; simp [Ne.symm h]

end Assoc

end ChunkedArray
