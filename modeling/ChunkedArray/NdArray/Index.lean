import ChunkedArray.Word

/-!
# Indices into a shape

An index names a cell by one coordinate per axis. The cells of a shape are numbered in row-major
order, the last axis running fastest: `indices` lists them and `position?` finds a cell's number.
Arrays in memory only have shapes that are addressable, and so do the arrays that are made from them.
-/

namespace ChunkedArray

/-- The lengths of the axes. -/
abbrev Shape := List Nat

/-- One coordinate per axis. -/
abbrev Index := List Nat

/-- Every coordinate is below the length of its axis, and the ranks agree. -/
inductive Index.Inside : Index → Shape → Prop where
  | nil : Inside [] []
  | cons {i n : Nat} {idx : Index} {shape : Shape} :
    i < n → Inside idx shape → Inside (i :: idx) (n :: shape)

namespace Shape

def size : Shape → Nat
  | [] => 1
  | n :: shape => n * size shape

/-- The number of cells if every axis without cells had one. -/
def span (shape : Shape) : Nat := size (shape.filter (· ≠ 0))

/-- The distances between the cells of an array of this shape are distances in memory. An axis
without cells does not make up for others that are too long. -/
def isAddressable (shape : Shape) : Bool := shape.span < addressLimit

/-- The indices inside a shape in row-major order. The coordinates before an empty axis are not run
through. -/
def indices : Shape → List Index
  | [] => [[]]
  | n :: shape =>
    if size shape = 0 then []
    else (List.range n).flatMap fun i => (indices shape).map (i :: ·)

/-- The number of a cell in row-major order; `none` outside the shape. -/
def position? : Shape → Index → Option Nat
  | [], [] => some 0
  | n :: shape, i :: idx =>
    if i < n then (position? shape idx).map (i * size shape + ·) else none
  | _, _ => none

theorem length_flatMap_range {α : Type} (f : Nat → List α) (n k : Nat)
    (h : ∀ i < n, (f i).length = k) : ((List.range n).flatMap f).length = n * k := by
  induction n with
  | zero => simp
  | succ n ih =>
    rw [List.range_succ, List.flatMap_append, List.length_append, ih fun i hi => h i (by omega)]
    simp [h n (by omega), Nat.succ_mul]

@[simp] theorem length_indices (shape : Shape) : shape.indices.length = shape.size := by
  induction shape with
  | nil => rfl
  | cons n shape ih =>
    rw [indices, size]
    split
    · next h => simp [h]
    · exact length_flatMap_range _ n (size shape) fun i _ => by simp [ih]

theorem indices_cons (n : Nat) (shape : Shape) :
    indices (n :: shape) = (List.range n).flatMap fun i => (indices shape).map (i :: ·) := by
  rw [indices]
  split
  · next h =>
    have : indices shape = [] := List.eq_nil_of_length_eq_zero ((length_indices shape).trans h)
    simp [this]
  · rfl

theorem mem_indices_iff {shape : Shape} {idx : Index} :
    idx ∈ shape.indices ↔ idx.Inside shape := by
  induction shape generalizing idx with
  | nil =>
    simp only [indices, List.mem_singleton]
    exact ⟨fun h => h ▸ .nil, fun h => by cases h; rfl⟩
  | cons n shape ih =>
    simp only [indices_cons, List.mem_flatMap, List.mem_range, List.mem_map]
    constructor
    · rintro ⟨i, hi, rest, hrest, rfl⟩
      exact .cons hi (ih.1 hrest)
    · intro h
      cases h with
      | cons hi hrest => exact ⟨_, hi, _, ih.2 hrest, rfl⟩

theorem getElem?_flatMap_range {α : Type} (f : Nat → List α) (n k i p : Nat)
    (h : ∀ i < n, (f i).length = k) (hi : i < n) (hp : p < k) :
    ((List.range n).flatMap f)[i * k + p]? = (f i)[p]? := by
  induction n with
  | zero => omega
  | succ n ih =>
    have hlen := length_flatMap_range f n k fun i hi => h i (by omega)
    rw [List.range_succ, List.flatMap_append]
    by_cases hin : i < n
    · have : i * k + p < n * k := by
        have : (i + 1) * k ≤ n * k := Nat.mul_le_mul_right k hin
        rw [Nat.succ_mul] at this
        omega
      rw [List.getElem?_append_left (by omega), ih (fun i hi => h i (by omega)) hin]
    · have : i = n := by omega
      subst this
      rw [List.getElem?_append_right (by omega), hlen]
      simp

/-- The cells are listed in the order of their numbers. -/
theorem getElem?_indices {shape : Shape} {idx : Index} (h : idx.Inside shape) :
    ∃ p, position? shape idx = some p ∧ p < shape.size ∧ shape.indices[p]? = some idx := by
  induction h with
  | nil => exact ⟨0, rfl, Nat.one_pos, rfl⟩
  | @cons i n idx shape hi _ ih =>
    obtain ⟨p, hp, hlt, hget⟩ := ih
    refine ⟨i * shape.size + p, by simp [position?, hi, hp], ?_, ?_⟩
    · have : (i + 1) * shape.size ≤ n * shape.size := Nat.mul_le_mul_right _ hi
      rw [Nat.succ_mul] at this
      rw [size]
      omega
    · rw [indices_cons, getElem?_flatMap_range _ n shape.size i p (fun i _ => by simp) hi hlt]
      simp [hget]

theorem position?_eq_none {shape : Shape} {idx : Index} (h : ¬ idx.Inside shape) :
    position? shape idx = none := by
  induction shape generalizing idx with
  | nil =>
    cases idx with
    | nil => exact absurd .nil h
    | cons => rfl
  | cons n shape ih =>
    cases idx with
    | nil => rfl
    | cons i idx =>
      rw [position?]
      split
      · next hi => rw [ih fun hr => h (.cons hi hr)]; rfl
      · rfl

/-! ### Sizes in memory -/

theorem span_cons (n : Nat) (shape : Shape) :
    span (n :: shape) = if n = 0 then span shape else n * span shape := by
  unfold span
  by_cases h : n = 0 <;> simp [h, size]

theorem span_pos (shape : Shape) : 0 < shape.span := by
  induction shape with
  | nil => exact Nat.one_pos
  | cons n shape ih =>
    rw [span_cons]
    split
    · exact ih
    · next h => exact Nat.mul_pos (Nat.pos_of_ne_zero h) ih

theorem span_le_cons (n : Nat) (shape : Shape) : span shape ≤ span (n :: shape) := by
  rw [span_cons]
  split
  · exact Nat.le_refl _
  · next h => exact Nat.le_mul_of_pos_left _ (Nat.pos_of_ne_zero h)

theorem span_cons_le {m n : Nat} {s shape : Shape} (hmn : m ≤ n) (hs : span s ≤ span shape) :
    span (m :: s) ≤ span (n :: shape) := by
  rw [span_cons m]
  split
  · exact Nat.le_trans hs (span_le_cons n shape)
  · next h =>
    rw [span_cons, if_neg (by omega)]
    exact Nat.mul_le_mul hmn hs

theorem span_perm {s shape : Shape} (h : s.Perm shape) : s.span = shape.span := by
  induction h with
  | nil => rfl
  | cons n _ ih => rw [span_cons, span_cons, ih]
  | swap m n s =>
    simp only [span_cons]
    by_cases hm : m = 0 <;> by_cases hn : n = 0 <;> simp [hm, hn, Nat.mul_left_comm]
  | trans _ _ ih₁ ih₂ => exact ih₁.trans ih₂

theorem span_eraseIdx_le (shape : Shape) (axis : Nat) : span (shape.eraseIdx axis) ≤ span shape := by
  induction shape generalizing axis with
  | nil => exact Nat.le_refl _
  | cons n shape ih =>
    cases axis with
    | zero => exact span_le_cons n shape
    | succ axis => exact span_cons_le (Nat.le_refl n) (ih axis)

theorem span_insertIdx_one (shape : Shape) (axis : Nat) :
    span (shape.insertIdx axis 1) = span shape := by
  induction shape generalizing axis with
  | nil => cases axis <;> rfl
  | cons n shape ih =>
    cases axis with
    | zero => simp [span_cons]
    | succ axis => rw [List.insertIdx_succ_cons, span_cons, span_cons, ih]

theorem isAddressable_of_span_le {s shape : Shape} (h : span s ≤ span shape)
    (hs : shape.isAddressable) : s.isAddressable := by
  simp only [isAddressable, decide_eq_true_eq] at hs ⊢
  omega

end Shape

end ChunkedArray
