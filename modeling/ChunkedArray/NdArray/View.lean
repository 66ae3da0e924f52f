import ChunkedArray.NdArray.Basic

/-!
# Strided views

A view picks along each axis the indices `start`, `start + step`, … below `stop`. Reading through a
view gives an array of the picked cells, assigning through it replaces exactly those cells. Both
need one range per axis, each inside its axis and with a positive step; then `get?_update` says what
every cell is after an assignment.
-/

namespace ChunkedArray

/-- The quotient rounded up; the divisor is positive. -/
def ceilDiv (num den : Nat) : Nat := num / den + if num % den = 0 then 0 else 1

theorem lt_ceilDiv_iff {k num den : Nat} (hden : 0 < den) : k < ceilDiv num den ↔ k * den < num := by
  have hdiv := Nat.div_add_mod num den
  have hmod := Nat.mod_lt num hden
  unfold ceilDiv
  constructor
  · intro h
    refine Nat.not_le.1 fun hle => ?_
    have hk : num / den ≤ k := by
      have := Nat.div_le_div_right (c := den) hle
      rwa [Nat.mul_div_cancel _ hden] at this
    split at h
    · omega
    · next h0 =>
      have : k = num / den := by omega
      subst this
      rw [Nat.mul_comm] at hle
      omega
  · intro h
    have hle : k ≤ num / den := (Nat.le_div_iff_mul_le hden).2 (Nat.le_of_lt h)
    split
    · next h0 =>
      have : k ≠ num / den := by
        rintro rfl
        rw [Nat.mul_comm] at h
        omega
      omega
    · omega

/-- The indices `start`, `start + step`, … below `stop` of one axis. -/
structure AxisRange where
  start : Nat
  stop : Nat
  step : Nat
deriving DecidableEq

namespace AxisRange

def count (r : AxisRange) : Nat := ceilDiv (r.stop - r.start) r.step

def index (r : AxisRange) (j : Nat) : Nat := r.start + j * r.step

/-- The position of an index, if the range picks it. -/
def position? (r : AxisRange) (i : Nat) : Option Nat :=
  if r.start ≤ i ∧ i < r.stop ∧ (i - r.start) % r.step = 0 then some ((i - r.start) / r.step)
  else none

/-- The range lies inside an axis of length `n`. -/
def Fits (r : AxisRange) (n : Nat) : Prop := r.start ≤ r.stop ∧ r.stop ≤ n ∧ 0 < r.step

instance (r : AxisRange) (n : Nat) : Decidable (r.Fits n) := inferInstanceAs (Decidable (_ ∧ _ ∧ _))

theorem position?_eq_some_iff {r : AxisRange} {n i j : Nat} (h : r.Fits n) :
    r.position? i = some j ↔ j < r.count ∧ r.index j = i := by
  obtain ⟨hle, -, hstep⟩ := h
  rw [count, lt_ceilDiv_iff hstep, position?, index]
  constructor
  · intro h
    split at h
    · next hi =>
      obtain rfl := Option.some.inj h
      have := Nat.div_mul_cancel (Nat.dvd_of_mod_eq_zero hi.2.2)
      omega
    · cases h
  · rintro ⟨hlt, rfl⟩
    have : r.start + j * r.step - r.start = j * r.step := Nat.add_sub_cancel_left ..
    rw [if_pos ⟨by omega, by omega, by rw [this, Nat.mul_mod_left]⟩, this,
      Nat.mul_div_cancel _ hstep]

theorem count_le {r : AxisRange} {n : Nat} (h : r.Fits n) : r.count ≤ n := by
  obtain ⟨-, hstop, hstep⟩ := h
  refine Nat.not_lt.1 fun hlt => ?_
  have h := (lt_ceilDiv_iff hstep).1 hlt
  have := Nat.le_mul_of_pos_right n hstep
  omega

theorem index_lt {r : AxisRange} {n j : Nat} (h : r.Fits n) (hj : j < r.count) : r.index j < n := by
  obtain ⟨hle, hstop, hstep⟩ := h
  rw [count, lt_ceilDiv_iff hstep] at hj
  unfold index
  omega

end AxisRange

/-- One range per axis. -/
abbrev View := List AxisRange

namespace View

/-- Every range lies inside its axis. -/
def fits : View → Shape → Bool
  | [], [] => true
  | r :: view, n :: shape => decide (r.Fits n) && fits view shape
  | _, _ => false

def shape (view : View) : Shape := view.map AxisRange.count

/-- The index in the array of the cell at `j` in the view. -/
def index (view : View) (j : Index) : Index := List.zipWith AxisRange.index view j

/-- The index in the view of a cell of the array, if the view picks it. -/
def position? (view : View) (i : Index) : Option Index :=
  (List.zipWith AxisRange.position? view i).mapM id

theorem position?_cons_eq_some_iff {r : AxisRange} {view : View} {i : Nat} {idx j : Index} :
    position? (r :: view) (i :: idx) = some j ↔
      ∃ k ks, r.position? i = some k ∧ position? view idx = some ks ∧ j = k :: ks := by
  simp only [position?, List.zipWith_cons_cons, List.mapM_cons, id]
  cases r.position? i with
  | none => simp
  | some k => cases (List.zipWith AxisRange.position? view idx).mapM id <;> simp [eq_comm]

theorem position?_eq_some_iff {view : View} {shape : Shape} {i j : Index}
    (hv : view.fits shape = true) (hi : i.Inside shape) :
    view.position? i = some j ↔ j.Inside view.shape ∧ view.index j = i := by
  induction hi generalizing view j with
  | nil =>
    cases view with
    | nil =>
      constructor
      · intro h
        obtain rfl := Option.some.inj h
        exact ⟨.nil, rfl⟩
      · rintro ⟨h, -⟩
        cases h
        rfl
    | cons r view => simp [fits] at hv
  | @cons i n idx shape hi hidx ih =>
    cases view with
    | nil => simp [fits] at hv
    | cons r view =>
      simp only [fits, Bool.and_eq_true, decide_eq_true_eq] at hv
      rw [position?_cons_eq_some_iff]
      constructor
      · rintro ⟨k, ks, hk, hks, rfl⟩
        obtain ⟨hlt, rfl⟩ := (AxisRange.position?_eq_some_iff hv.1).1 hk
        obtain ⟨hin, rfl⟩ := (ih hv.2).1 hks
        exact ⟨.cons hlt hin, rfl⟩
      · rintro ⟨hin, he⟩
        cases hin with
        | cons hlt hin =>
          obtain ⟨hk, hks⟩ := List.cons.inj he
          exact ⟨_, _, (AxisRange.position?_eq_some_iff hv.1).2 ⟨hlt, hk⟩,
            (ih hv.2).2 ⟨hin, hks⟩, rfl⟩

theorem index_inside {view : View} {shape : Shape} {j : Index} (hv : view.fits shape = true)
    (hj : j.Inside view.shape) : (view.index j).Inside shape := by
  induction view generalizing shape j with
  | nil =>
    cases shape with
    | nil => cases hj; exact .nil
    | cons => simp [fits] at hv
  | cons r view ih =>
    cases shape with
    | nil => simp [fits] at hv
    | cons n shape =>
      simp only [fits, Bool.and_eq_true, decide_eq_true_eq] at hv
      cases hj with
      | cons hlt hj => exact .cons (AxisRange.index_lt hv.1 hlt) (ih hv.2 hj)

theorem span_shape_le {view : View} {shape : Shape} (hv : view.fits shape = true) :
    Shape.span view.shape ≤ Shape.span shape := by
  induction view generalizing shape with
  | nil =>
    cases shape with
    | nil => exact Nat.le_refl _
    | cons => simp [fits] at hv
  | cons r view ih =>
    cases shape with
    | nil => simp [fits] at hv
    | cons n shape =>
      simp only [fits, Bool.and_eq_true, decide_eq_true_eq] at hv
      exact Shape.span_cons_le (AxisRange.count_le hv.1) (ih hv.2)

theorem isAddressable_shape {view : View} {shape : Shape} (hv : view.fits shape = true)
    (hs : shape.isAddressable) : view.shape.isAddressable :=
  Shape.isAddressable_of_span_le (span_shape_le hv) hs

end View

namespace NdArray

variable {α : Type}

def slice [Inhabited α] (view : View) (a : NdArray α) : Except Violation (NdArray α) :=
  if h : view.fits a.shape then
    .ok (ofFn view.shape (View.isAddressable_shape h a.isAddressable_shape) fun j =>
      a.cell (view.index j))
  else .error .outOfRange

/-! ### Replacing cells -/

/-- Replaces the cell at the index of each `j` by `f j`, one after the other. -/
def setCells {ι : Type} (shape : Shape) (index : ι → Index) (f : ι → α) (js : List ι)
    (data : Array α) : Array α :=
  js.foldl
    (fun data j => (shape.position? (index j)).elim data fun p => data.setIfInBounds p (f j)) data

theorem size_setCells {ι : Type} (shape : Shape) (index : ι → Index) (f : ι → α) (js : List ι)
    (data : Array α) : (setCells shape index f js data).size = data.size := by
  induction js generalizing data with
  | nil => rfl
  | cons j js ih =>
    rw [setCells, List.foldl_cons]
    refine (ih _).trans ?_
    cases shape.position? (index j) <;> simp

/-- The array with the cells that a view picks replaced by `f` of their index in the view. -/
def update (view : View) (f : Index → α) (a : NdArray α) : NdArray α :=
  ⟨a.shape, setCells a.shape view.index f view.shape.indices a.data, by
    rw [size_setCells, a.size_data], a.isAddressable_shape⟩

theorem getElem?_setCells {ι : Type} {shape : Shape} {index : ι → Index} {f : ι → α} {js : List ι}
    {p : Nat} {x : α} (hx : ∀ j ∈ js, shape.position? (index j) = some p → f j = x)
    (data : Array α) :
    (setCells shape index f js data)[p]? =
      if ∃ j ∈ js, shape.position? (index j) = some p then data[p]?.map fun _ => x
      else data[p]? := by
  induction js generalizing data with
  | nil => simp [setCells]
  | cons j js ih =>
    have ih := ih fun j hj => hx j (List.mem_cons_of_mem _ hj)
    rw [setCells, List.foldl_cons]
    refine (ih _).trans ?_
    simp only [List.mem_cons, exists_eq_or_imp]
    cases hq : shape.position? (index j) with
    | none => simp
    | some q =>
      by_cases hqp : q = p
      · subst hqp
        simp only [Option.elim_some, Array.getElem?_setIfInBounds_self, hx j List.mem_cons_self hq]
        by_cases hlt : q < data.size <;> simp [hlt]
      · simp [hqp]

/-- Exactly the cells that the view picks are replaced. -/
theorem get?_update {view : View} {a : NdArray α} (hv : view.fits a.shape = true)
    (f : Index → α) (i : Index) :
    (a.update view f).get? i = (a.get? i).map fun x => (view.position? i).elim x f := by
  by_cases hi : i.Inside a.shape
  · obtain ⟨p, hp, hlt, hget⟩ := Shape.getElem?_indices hi
    rw [← a.size_data] at hlt
    have hinj {j : Index} (hj : j ∈ view.shape.indices)
        (h : a.shape.position? (view.index j) = some p) : view.index j = i := by
      obtain ⟨q, hq, -, hgetq⟩ :=
        Shape.getElem?_indices (View.index_inside hv (Shape.mem_indices_iff.1 hj))
      rw [hq] at h
      obtain rfl := Option.some.inj h
      exact Option.some.inj (hgetq.symm.trans hget)
    simp only [get?, update, hp, Option.bind_some]
    cases hpos : view.position? i with
    | none =>
      rw [getElem?_setCells (x := a.data[p]), if_neg]
      · simp
      · rintro ⟨j, hj, h⟩
        have := (View.position?_eq_some_iff hv hi).2 ⟨Shape.mem_indices_iff.1 hj, hinj hj h⟩
        rw [hpos] at this
        cases this
      · intro j hj h
        have := (View.position?_eq_some_iff hv hi).2 ⟨Shape.mem_indices_iff.1 hj, hinj hj h⟩
        rw [hpos] at this
        cases this
    | some k =>
      obtain ⟨hk, hki⟩ := (View.position?_eq_some_iff hv hi).1 hpos
      rw [getElem?_setCells (x := f k), if_pos]
      · simp
      · exact ⟨k, Shape.mem_indices_iff.2 hk, by rw [hki, hp]⟩
      · intro j hj h
        have := (View.position?_eq_some_iff hv hi).2 ⟨Shape.mem_indices_iff.1 hj, hinj hj h⟩
        rw [hpos] at this
        rw [Option.some.inj this]
  · rw [get?_eq_none a hi, get?_eq_none (a.update view f) hi]
    rfl

variable [Inhabited α]

/-- Replaces the cells that a view picks by those of `src`, which has the shape of the view. -/
def assign (view : View) (a src : NdArray α) : Except Violation (NdArray α) :=
  if !view.fits a.shape then .error .outOfRange
  else if src.shape ≠ view.shape then .error .shape
  else .ok (a.update view src.cell)

/-- Replaces the cells that a view picks by one value. -/
def assignAll (view : View) (x : α) (a : NdArray α) : Except Violation (NdArray α) :=
  if view.fits a.shape then .ok (a.update view fun _ => x) else .error .outOfRange

end NdArray

end ChunkedArray
