import ChunkedArray.Checksum

/-!
# Reading bit streams

Compressed data is read bit by bit, the bits of each byte from the lowest up. A reader gives its
value and the bits left over, with a bound on how many are left, so that loops over a stream end.
-/

namespace ChunkedArray

namespace Gzip

inductive StreamError where
  /-- It ends too early. -/
  | truncated
  | malformed
deriving DecidableEq

def StreamError.message : StreamError → String
  | .truncated => "unexpected end of compressed data"
  | .malformed => "malformed compressed data"

/-- The bits of some bytes, of which the first few are read already. -/
structure BitStream where
  bytes : Bytes
  /-- How many bits of the first byte are read; never all of them. -/
  used : Nat

namespace BitStream

def ofBytes (bs : Bytes) : BitStream := ⟨bs, 0⟩

def size (s : BitStream) : Nat := 8 * s.bytes.length - min s.used 7

/-- The next bit and the stream after it. -/
def next? (s : BitStream) : Option (Bool × BitStream) :=
  match s.bytes with
  | [] => none
  | b :: rest =>
    some (b.toNat.testBit s.used, if s.used < 7 then ⟨b :: rest, s.used + 1⟩ else ⟨rest, 0⟩)

theorem size_of_next? {s rest : BitStream} {b : Bool} (h : s.next? = some (b, rest)) :
    rest.size < s.size := by
  obtain ⟨bytes, used⟩ := s
  cases bytes with
  | nil => cases h
  | cons c bytes =>
    simp only [next?, Option.some.injEq, Prod.mk.injEq] at h
    obtain ⟨-, rfl⟩ := h
    split <;> simp only [size, List.length_cons] <;> omega

/-- Skips to the next byte. -/
def align (s : BitStream) : BitStream := if s.used = 0 then s else ⟨s.bytes.drop 1, 0⟩

theorem size_align_le (s : BitStream) : s.align.size ≤ s.size := by
  unfold align size
  split
  · exact Nat.le_refl _
  · simp only [List.length_drop]
    omega

end BitStream

/-- A value read from a stream and the rest of it, of fewer than `bound` bits. -/
structure Read (α : Type) (bound : Nat) where
  value : α
  rest : BitStream
  lt : rest.size < bound

namespace Read

variable {α β : Type} {m n : Nat}

def widen (r : Read α m) (h : m ≤ n) : Read α n := ⟨r.value, r.rest, Nat.lt_of_lt_of_le r.lt h⟩

def map (f : α → β) (r : Read α n) : Read β n := ⟨f r.value, r.rest, r.lt⟩

end Read

abbrev Reader (α : Type) (bound : Nat) := Except StreamError (Read α bound)

def takeBit (s : BitStream) : Reader Bool s.size :=
  match h : s.next? with
  | none => .error .truncated
  | some (b, rest) => .ok ⟨b, rest, BitStream.size_of_next? h⟩

def takeBits : (n : Nat) → (s : BitStream) → Reader Nat (s.size + 1)
  | 0, s => .ok ⟨0, s, Nat.lt_succ_self _⟩
  | n + 1, s => do
    let b ← takeBit s
    let r ← takeBits n b.rest
    return ⟨b.value.toNat + 2 * r.value, r.rest, by have := b.lt; have := r.lt; omega⟩

/-- Reads `count` numbers of `n` bits each. -/
def takeNumbers (n : Nat) : (count : Nat) → (s : BitStream) → Reader (List Nat) (s.size + 1)
  | 0, s => .ok ⟨[], s, Nat.lt_succ_self _⟩
  | count + 1, s => do
    let x ← takeBits n s
    let r ← takeNumbers n count x.rest
    return ⟨x.value :: r.value, r.rest, by have := x.lt; have := r.lt; omega⟩

/-- Reads `n` whole bytes, from the next one on of which no bit is read. -/
def takeBytes (n : Nat) (s : BitStream) : Reader Bytes (s.size + 1) :=
  let bytes := s.align.bytes.take n
  if bytes.length < n then .error .truncated
  else .ok ⟨bytes, ⟨s.align.bytes.drop n, 0⟩, by
    have := s.size_align_le
    have h : s.align.used = 0 := by unfold BitStream.align; split <;> simp [*]
    simp only [BitStream.size, h, List.length_drop] at this ⊢
    omega⟩

end Gzip

end ChunkedArray
