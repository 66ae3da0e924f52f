import ChunkedArray.NdArray.Index
import ChunkedArray.Proofs.Outcome

/-!
# Computations on words

Where the divisors are not zero, a computation on words stops with an overflow or not at all. A
product of several numbers is computed from the front: each product of some first numbers has to be
a word on the way, so a zero further back does not make up for numbers before it that are too large.
The shape of an array in memory has its product, whichever of its axes are empty.
-/

namespace ChunkedArray

theorem addressLimit_lt_wordLimit : addressLimit < wordLimit := by decide

namespace Word

variable {α β : Type} {a b n : Nat} {ns : List Nat}

/-! ### Overflows -/

/-- Nothing but an overflow stops the computation. -/
def OnlyOverflows (x : Except Violation α) : Prop := ∀ v, x = .error v → v = .overflow

theorem onlyOverflows_ok (x : α) : OnlyOverflows (.ok x) := by
  intro v h
  cases h

theorem onlyOverflows_overflow : OnlyOverflows (.error .overflow : Except Violation α) :=
  fun _ h => (Except.error.inj h).symm

theorem OnlyOverflows.bind {x : Except Violation α} {f : α → Except Violation β}
    (hx : OnlyOverflows x) (hf : ∀ a, OnlyOverflows (f a)) : OnlyOverflows (x >>= f) := by
  intro v h
  rcases Outcome.bind_eq_error_iff.1 h with h | ⟨a, -, h⟩
  · exact hx v h
  · exact hf a v h

theorem onlyOverflows_mapM {f : α → Except Violation β} {l : List α}
    (h : ∀ x ∈ l, OnlyOverflows (f x)) : OnlyOverflows (l.mapM f) := by
  intro v hv
  obtain ⟨front, x, rest, rfl, -, hx⟩ := Outcome.mapM_eq_error_iff.1 hv
  exact h x (by simp) v hx

theorem OnlyOverflows.eq_overflow {x : Except Violation α} (h : OnlyOverflows x)
    (hx : ∀ a, x ≠ .ok a) : x = .error .overflow := by
  cases x with
  | ok a => exact absurd rfl (hx a)
  | error v => rw [h v rfl]

theorem onlyOverflows_orOverflow (x : Option Nat) : OnlyOverflows (orOverflow x) := by
  cases x with
  | none => exact onlyOverflows_overflow
  | some n => exact onlyOverflows_ok n

theorem onlyOverflows_add (a b : Nat) : OnlyOverflows (add a b) := onlyOverflows_orOverflow _

theorem onlyOverflows_mul (a b : Nat) : OnlyOverflows (mul a b) := onlyOverflows_orOverflow _

theorem onlyOverflows_sub (a b : Nat) : OnlyOverflows (sub a b) := by
  unfold sub
  split
  · exact onlyOverflows_overflow
  · exact onlyOverflows_ok _

theorem onlyOverflows_div (a : Nat) (hb : 0 < b) : OnlyOverflows (div a b) := by
  rw [div_eq_ok_iff.2 ⟨hb, rfl⟩]
  exact onlyOverflows_ok _

theorem onlyOverflows_ceilDiv (a : Nat) (hb : 0 < b) : OnlyOverflows (ceilDiv a b) :=
  (onlyOverflows_div a hb).bind fun _ => onlyOverflows_add _ _

/-! ### Products -/

/-- Each product of some first numbers of the list is a word. -/
def Multiplies (ns : List Nat) : Prop := ∀ front, front <+: ns → Shape.size front < wordLimit

theorem foldlM_mul_eq_ok_iff (ha : a < wordLimit) : ns.foldlM mul a = .ok n ↔
    (∀ front, front <+: ns → a * Shape.size front < wordLimit) ∧ n = a * Shape.size ns := by
  induction ns generalizing a with
  | nil =>
    simp only [List.foldlM_nil, Outcome.pure_eq_ok, Except.ok.injEq, List.prefix_nil, forall_eq,
      Shape.size, Nat.mul_one, eq_comm, ha, true_and]
  | cons m ns ih =>
    rw [List.foldlM_cons, Outcome.bind_eq_ok_iff]
    constructor
    · rintro ⟨_, hmul, hrest⟩
      obtain ⟨hword, rfl⟩ := mul_eq_ok_iff.1 hmul
      obtain ⟨hfronts, rfl⟩ := (ih hword).1 hrest
      refine ⟨fun front hfront => ?_, Nat.mul_assoc ..⟩
      rcases List.prefix_cons_iff.1 hfront with rfl | ⟨rest, rfl, hrest⟩
      · rw [Shape.size, Nat.mul_one]
        exact ha
      · rw [Shape.size, ← Nat.mul_assoc]
        exact hfronts rest hrest
    · rintro ⟨hfronts, rfl⟩
      have hword : a * m < wordLimit := by
        have hfirst := hfronts [m] (List.prefix_cons_iff.2 (.inr ⟨[], rfl, List.nil_prefix⟩))
        rwa [Shape.size, Shape.size, Nat.mul_one] at hfirst
      refine ⟨_, mul_eq_ok_iff.2 ⟨hword, rfl⟩, (ih hword).2 ⟨fun front hfront => ?_, ?_⟩⟩
      · have hlonger := hfronts (m :: front) (List.prefix_cons_iff.2 (.inr ⟨front, rfl, hfront⟩))
        rwa [Shape.size, ← Nat.mul_assoc] at hlonger
      · rw [Shape.size, Nat.mul_assoc]

theorem product_eq_ok_iff : product ns = .ok n ↔ Multiplies ns ∧ n = Shape.size ns := by
  refine (foldlM_mul_eq_ok_iff (by decide)).trans ?_
  simp only [Nat.one_mul, Multiplies]

theorem onlyOverflows_product (ns : List Nat) : OnlyOverflows (product ns) := by
  intro v h
  obtain ⟨_, _, _, _, -, -, hmul⟩ := Outcome.foldlM_eq_error_iff.1 h
  exact onlyOverflows_mul _ _ v hmul

end Word

namespace Shape

theorem size_le_size {s shape : Shape} (h : List.Forall₂ (· ≤ ·) s shape) :
    s.size ≤ shape.size := by
  induction h with
  | nil => exact Nat.le_refl 1
  | cons hle _ ih => exact Nat.mul_le_mul hle ih

theorem size_le_span (shape : Shape) : shape.size ≤ shape.span := by
  induction shape with
  | nil => exact Nat.le_refl 1
  | cons n shape ih =>
    rw [size, span_cons]
    split
    · next h => simp [h]
    · exact Nat.mul_le_mul_left n ih

theorem span_le_of_prefix {front shape : Shape} (h : front <+: shape) : front.span ≤ shape.span := by
  induction shape generalizing front with
  | nil =>
    obtain rfl := List.prefix_nil.1 h
    exact Nat.le_refl 1
  | cons n shape ih =>
    rcases List.prefix_cons_iff.1 h with rfl | ⟨front, rfl, hfront⟩
    · exact span_pos _
    · exact span_cons_le (Nat.le_refl n) (ih hfront)

end Shape

namespace Word

variable {ms ns : List Nat}

theorem Multiplies.of_le (h : List.Forall₂ (· ≤ ·) ms ns) (hns : Multiplies ns) : Multiplies ms := by
  intro front hfront
  have hlonger := List.forall₂_take front.length h
  rw [← List.prefix_iff_eq_take.1 hfront] at hlonger
  exact Nat.lt_of_le_of_lt (Shape.size_le_size hlonger) (hns _ (List.take_prefix ..))

theorem multiplies_of_isAddressable {shape : Shape} (h : shape.isAddressable) :
    Multiplies shape := by
  intro front hfront
  have hspan : shape.span < addressLimit := of_decide_eq_true h
  have hfront := Shape.span_le_of_prefix hfront
  have hsize := Shape.size_le_span front
  have := addressLimit_lt_wordLimit
  omega

end Word

end ChunkedArray
