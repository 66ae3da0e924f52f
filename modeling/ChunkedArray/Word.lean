import ChunkedArray.Failure

/-!
# Words

Lengths, offsets, counts and the integers of documents are words of 64 bits. Numbers are exact
here. The operations of `Word` are those of a machine: a result that is no word is `none`, or the
violation `overflow` where the caller has no answer for it.
-/

namespace ChunkedArray

/-- The number of words, which is more than each of them. -/
def wordLimit : Nat := 0x10000000000000000

/-- More than the distance between any two places in memory, which is a signed word. -/
def addressLimit : Nat := 0x8000000000000000

namespace Word

/-- The number, if it is a word. -/
def ofNat? (n : Nat) : Option Nat := if n < wordLimit then some n else none

def add? (a b : Nat) : Option Nat := ofNat? (a + b)

def mul? (a b : Nat) : Option Nat := ofNat? (a * b)

def orOverflow : Option Nat → Except Violation Nat
  | some n => .ok n
  | none => .error .overflow

def add (a b : Nat) : Except Violation Nat := orOverflow (add? a b)

def mul (a b : Nat) : Except Violation Nat := orOverflow (mul? a b)

def sub (a b : Nat) : Except Violation Nat := if a < b then .error .overflow else .ok (a - b)

def div (a b : Nat) : Except Violation Nat := if b = 0 then .error .zeroDivisor else .ok (a / b)

/-- The product of all numbers of a list, from the front. -/
def product (ns : List Nat) : Except Violation Nat := ns.foldlM mul 1

/-- The quotient rounded up. -/
def ceilDiv (num den : Nat) : Except Violation Nat := do
  add (← div num den) (if num % den = 0 then 0 else 1)

variable {a b n : Nat}

@[simp]
theorem ofNat?_eq_some_iff : ofNat? a = some n ↔ a < wordLimit ∧ n = a := by
  simp [ofNat?, eq_comm]

@[simp]
theorem orOverflow_eq_ok_iff {x : Option Nat} : orOverflow x = .ok n ↔ x = some n := by
  cases x <;> simp [orOverflow]

@[simp]
theorem add_eq_ok_iff : add a b = .ok n ↔ a + b < wordLimit ∧ n = a + b := by simp [add, add?]

@[simp]
theorem mul_eq_ok_iff : mul a b = .ok n ↔ a * b < wordLimit ∧ n = a * b := by simp [mul, mul?]

@[simp]
theorem sub_eq_ok_iff : sub a b = .ok n ↔ b ≤ a ∧ n = a - b := by
  unfold sub
  split <;> simp <;> omega

@[simp]
theorem div_eq_ok_iff : div a b = .ok n ↔ 0 < b ∧ n = a / b := by
  unfold div
  split <;> simp <;> omega

end Word

end ChunkedArray
