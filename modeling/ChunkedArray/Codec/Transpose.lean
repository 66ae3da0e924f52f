import ChunkedArray.Codec.Error
import ChunkedArray.Codec.Spec
import ChunkedArray.NdArray.Basic

/-!
# Transposition

A transposition reorders the axes of a chunk: axis `k` of the encoded chunk is axis `order[k]` of the
decoded one. Decoding reorders by the inverse permutation.
-/

namespace ChunkedArray

structure Transpose where
  order : List Nat
deriving DecidableEq

namespace Transpose

variable {α : Type} [Inhabited α]

/-- Every entry is an axis number below the count of entries, and none is repeated. -/
def isPermutation (order : List Nat) : Bool := areFresh order.length [] order
where
  /-- Each number is below `n` and neither `seen` nor repeated. -/
  areFresh (n : Nat) (seen : List Nat) : List Nat → Bool
    | [] => true
    | axis :: rest => axis < n && !seen.contains axis && areFresh n (axis :: seen) rest

/-- The order that undoes a permutation. The place of each entry is written down for the axis that
the entry names. -/
def invert (order : List Nat) : Except Violation (List Nat) :=
  write 0 order (List.replicate order.length 0)
where
  /-- Writes down the places of the entries, the first of which stands at `place`. -/
  write (place : Nat) : List Nat → List Nat → Except Violation (List Nat)
    | [], places => .ok places
    | axis :: rest, places =>
      if axis < places.length then write (place + 1) rest (places.set axis place)
      else .error .outOfRange

/-- All axes in reverse. -/
def reversed (rank : Nat) : Transpose := ⟨(List.range rank).reverse⟩

def rank (c : Transpose) : Nat := c.order.length

def validate (c : Transpose) : Except CodecConfigError Unit :=
  if isPermutation c.order then .ok () else .error (.invalidPermutation c.order)

def validateFor (c : Transpose) (rank : Nat) : Except CodecConfigError Unit := do
  c.validate
  (RankMismatch.check c.rank rank).mapError .rank

/-- A transposition by a permutation. -/
def ofOrder (order : List Nat) : Except CodecConfigError Transpose := do
  validate ⟨order⟩
  return ⟨order⟩

def encode (c : Transpose) (a : NdArray α) : Except Violation (NdArray α) := a.permuteAxes c.order

def decode (c : Transpose) (a : NdArray α) : Except Violation (NdArray α) := do
  a.permuteAxes (← invert c.order)

def encodedShape (c : Transpose) (shape : Shape) : Except Violation Shape :=
  c.order.mapM fun axis => (shape[axis]?).elim (.error .outOfRange) .ok

def spec (c : Transpose) : CodecSpec := ⟨"transpose", some (.obj [("order", .ofNats c.order)])⟩

def ofRaw? (x : RawJson) : Option Transpose := do
  let fields ← x.fields? ["order"]
  return ⟨← RawJson.required fields "order" (RawJson.list? RawJson.word?)⟩

end Transpose

end ChunkedArray
