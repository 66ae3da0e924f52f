import ChunkedArray.NdArray.Index
import ChunkedArray.Failure

/-!
# N-dimensional arrays

An array is its shape, which is addressable, and its cells in row-major order. `NdArray.ofFn` builds
one from a value per index and `get?` reads a cell; other operations are tables of reads, after a
check of their precondition.
-/

namespace ChunkedArray

structure NdArray (α : Type) where
  shape : Shape
  /-- The cells in row-major order. -/
  data : Array α
  size_data : data.size = shape.size
  /-- No array in memory is larger. -/
  isAddressable_shape : shape.isAddressable

namespace NdArray

variable {α : Type}

def rank (a : NdArray α) : Nat := a.shape.length

def cells (a : NdArray α) : List α := a.data.toList

/-- The array that holds `f i` at each index `i`. -/
def ofFn (shape : Shape) (h : shape.isAddressable) (f : Index → α) : NdArray α :=
  ⟨shape, (shape.indices.map f).toArray, by simp, h⟩

def fill (shape : Shape) (h : shape.isAddressable) (x : α) : NdArray α :=
  ⟨shape, Array.replicate shape.size x, by simp, h⟩

/-- Makes an array of one value, whose cells take so many bytes each. -/
def filled (byteCount : Nat) (shape : Shape) (x : α) : Except Violation (NdArray α) :=
  if h : shape.isAddressable ∧ shape.size * byteCount < addressLimit then .ok (fill shape h.1 x)
  else .error .tooLarge

/-- Makes an array of these cells, which are to be as many as the shape has. -/
def ofList (shape : Shape) (cells : List α) : Except Violation (NdArray α) :=
  if hs : shape.isAddressable then
    if h : cells.length = shape.size then .ok ⟨shape, cells.toArray, by simpa using h, hs⟩
    else .error .shape
  else .error .tooLarge

def get? (a : NdArray α) (i : Index) : Option α := (a.shape.position? i).bind (a.data[·]?)

/-- The cell at an index inside the shape. -/
def cell [Inhabited α] (a : NdArray α) (i : Index) : α := (a.get? i).getD default

@[simp] theorem shape_ofFn (shape : Shape) (hs : shape.isAddressable) (f : Index → α) :
    (ofFn shape hs f).shape = shape := rfl

@[simp] theorem shape_fill (shape : Shape) (hs : shape.isAddressable) (x : α) :
    (fill shape hs x).shape = shape := rfl

theorem get?_ofFn {shape : Shape} (hs : shape.isAddressable) (f : Index → α) {i : Index}
    (h : i.Inside shape) : (ofFn shape hs f).get? i = some (f i) := by
  obtain ⟨p, hp, -, hget⟩ := Shape.getElem?_indices h
  simp [get?, ofFn, hp, hget]

theorem get?_eq_none (a : NdArray α) {i : Index} (h : ¬ i.Inside a.shape) : a.get? i = none := by
  simp [get?, Shape.position?_eq_none h]

theorem cell_ofFn [Inhabited α] {shape : Shape} (hs : shape.isAddressable) (f : Index → α)
    {i : Index} (h : i.Inside shape) : (ofFn shape hs f).cell i = f i := by
  simp [cell, get?_ofFn hs f h]

/-! ### Axes -/

/-- Names every axis of an array of this rank exactly once. -/
def IsAxisOrder (rank : Nat) (order : List Nat) : Bool :=
  order.length == rank && (List.range rank).all order.contains

/-- The coordinates of an index, taken in the given order of axes. -/
def gather (order : List Nat) (i : Index) : Index := order.map fun axis => i.getD axis 0

/-- Puts coordinates that were taken in the given order back onto their axes. -/
def scatter (order : List Nat) (j : Index) : Index :=
  (List.range order.length).map fun axis => j.getD (order.idxOf axis) 0

theorem perm_of_length_eq {r l : List Nat} (hr : r.Nodup) (hl : l.length = r.length)
    (h : ∀ x ∈ r, x ∈ l) : l.Perm r := by
  induction r generalizing l with
  | nil => rw [List.eq_nil_of_length_eq_zero hl]
  | cons x r ih =>
    obtain ⟨hx, hr⟩ := List.nodup_cons.1 hr
    have hmem := h x List.mem_cons_self
    refine (List.perm_cons_erase hmem).trans (.cons x (ih hr ?_ fun y hy => ?_))
    · rw [List.length_erase_of_mem hmem, hl, List.length_cons, Nat.add_sub_cancel]
    · have hyx : y ≠ x := fun e => hx (e ▸ hy)
      exact (List.mem_erase_of_ne hyx).2 (h y (List.mem_cons_of_mem _ hy))

/-- An axis order reorders the axis numbers. -/
theorem perm_of_isAxisOrder {rank : Nat} {order : List Nat} (h : IsAxisOrder rank order) :
    order.Perm (List.range rank) := by
  simp only [IsAxisOrder, Bool.and_eq_true, beq_iff_eq, List.all_eq_true, List.contains_iff_mem] at h
  exact perm_of_length_eq List.nodup_range (by simpa using h.1) h.2

theorem map_getD_range (i : Index) : (List.range i.length).map (fun axis => i.getD axis 0) = i := by
  refine List.ext_getElem (by simp) fun k h _ => ?_
  simp only [List.length_map, List.length_range] at h
  simp [h]

theorem gather_perm {i : Index} {order : List Nat} (h : IsAxisOrder i.length order) :
    (gather order i).Perm i := by
  have := (perm_of_isAxisOrder h).map fun axis => i.getD axis 0
  rwa [map_getD_range] at this

theorem isAddressable_gather {shape : Shape} {order : List Nat} (h : IsAxisOrder shape.length order)
    (hs : shape.isAddressable) : Shape.isAddressable (gather order shape) :=
  Shape.isAddressable_of_span_le (Nat.le_of_eq (Shape.span_perm (gather_perm h))) hs

/-- Reorders the axes: axis `k` of the result is axis `order[k]` of the array. -/
def permuteAxes [Inhabited α] (order : List Nat) (a : NdArray α) : Except Violation (NdArray α) :=
  if h : IsAxisOrder a.rank order then
    .ok (ofFn (gather order a.shape) (isAddressable_gather h a.isAddressable_shape) fun j =>
      a.cell (scatter order j))
  else .error .axes

def insertAxis [Inhabited α] (axis : Nat) (a : NdArray α) : Except Violation (NdArray α) :=
  if axis ≤ a.rank then
    have h := Nat.le_of_eq (Shape.span_insertIdx_one a.shape axis)
    .ok (ofFn (a.shape.insertIdx axis 1) (Shape.isAddressable_of_span_le h a.isAddressable_shape)
      fun j => a.cell (j.eraseIdx axis))
  else .error .outOfRange

/-- Drops an axis, keeping the cells at its first coordinate. -/
def dropAxis [Inhabited α] (axis : Nat) (a : NdArray α) : Except Violation (NdArray α) :=
  match a.shape[axis]? with
  | some (_ + 1) =>
    have h := Shape.span_eraseIdx_le a.shape axis
    .ok (ofFn (a.shape.eraseIdx axis) (Shape.isAddressable_of_span_le h a.isAddressable_shape)
      fun j => a.cell (j.insertIdx axis 0))
  | _ => .error .outOfRange

end NdArray

end ChunkedArray
