/-!
# Reported errors and broken preconditions

Most operations answer with a value or an error of their own. A few primitives (division by a chunk
length, making an array, reordering its axes, assigning through a view) also have a precondition
that their callers are to establish. Where it does not hold the primitive stops with a `Violation`,
which no operation handles; `Failure` keeps the two apart, so that "this never breaks a
precondition" can be stated.
-/

namespace ChunkedArray

/-- The preconditions of the primitives. -/
inductive Violation where
  /-- A chunk length or a step of zero was divided by. -/
  | zeroDivisor
  /-- An axis list does not name every axis of the array once. -/
  | axes
  /-- An index, an axis or a run lies outside its array. -/
  | outOfRange
  /-- The cells for an array or a view do not fill its shape. -/
  | shape
  /-- An array was asked for that is too large for any memory. -/
  | tooLarge
  /-- The result of an operation on words is no word. -/
  | overflow
deriving DecidableEq

/-- Why an operation stopped: it reports an error, or one of its primitives was misused. -/
inductive Failure (ε : Type) where
  | error (e : ε)
  | violation (v : Violation)
deriving DecidableEq

/-- A computation that may report an error of type `ε` or break a precondition. -/
abbrev Checked (ε α : Type) := Except (Failure ε) α

namespace Checked

def fail {ε α : Type} (e : ε) : Checked ε α := .error (.error e)

/-- A computation without preconditions, its errors renamed. -/
def report {ε ε' α : Type} (f : ε → ε') : Except ε α → Checked ε' α
  | .ok a => .ok a
  | .error e => .error (.error (f e))

/-- A primitive that has a precondition and no error. -/
def guarded {ε α : Type} : Except Violation α → Checked ε α
  | .ok a => .ok a
  | .error v => .error (.violation v)

/-- Renames the errors and keeps violations. -/
def mapError {ε ε' α : Type} (f : ε → ε') : Checked ε α → Checked ε' α
  | .ok a => .ok a
  | .error (.error e) => .error (.error (f e))
  | .error (.violation v) => .error (.violation v)

end Checked

/-! ### Sequences of results -/

namespace Outcome

variable {α β ε : Type}

@[simp] theorem pure_eq_ok (a : α) : (pure a : Except ε α) = .ok a := rfl

@[simp] theorem ok_bind (a : α) (f : α → Except ε β) : (Except.ok a >>= f) = f a := rfl

@[simp] theorem error_bind (e : ε) (f : α → Except ε β) : (Except.error e >>= f) = .error e := rfl

theorem bind_eq_ok_iff {x : Except ε α} {f : α → Except ε β} {b : β} :
    (x >>= f) = .ok b ↔ ∃ a, x = .ok a ∧ f a = .ok b := by
  cases x with
  | error e => simp
  | ok a => simp

end Outcome

end ChunkedArray
