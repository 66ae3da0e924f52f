/-!
# Ranks and their agreement

An array, a region, a chunk grid and a selection all have a rank: their number of axes. Operations
that combine two of them first require equal ranks. Some things (a chain without a transposition,
for instance) fit every rank; theirs is `none`.
-/

namespace ChunkedArray

structure RankMismatch where
  expected : Nat
  actual : Nat
deriving DecidableEq

namespace RankMismatch

def message (e : RankMismatch) : String :=
  s!"Got {e.actual} dimensions when expecting {e.expected}"

def check (actual expected : Nat) : Except RankMismatch Unit :=
  if actual = expected then .ok () else .error ⟨expected, actual⟩

/-- Accepts a list of ranks if each is `expected`; the first other one is reported. -/
def checkAll (expected : Nat) : List Nat → Except RankMismatch Unit
  | [] => .ok ()
  | r :: rest => if r = expected then checkAll expected rest else .error ⟨expected, r⟩

/-- The rank of two things used together, where `none` fits every rank. -/
def union : Option Nat → Option Nat → Except RankMismatch (Option Nat)
  | some m, some n => (check n m).map fun _ => some m
  | some m, none => .ok (some m)
  | none, r => .ok r

theorem check_eq_ok_iff {actual expected : Nat} :
    check actual expected = .ok () ↔ actual = expected := by
  unfold check; split <;> simp_all

end RankMismatch

end ChunkedArray
