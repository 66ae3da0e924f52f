import ChunkedArray.Gzip.BitStream

/-!
# Huffman codes

A code is given by the length of each symbol's code word. Words of one length are consecutive
numbers in the order of their symbols, and shorter words come first, so the lengths say it all.
A code is read by walking a tree, one bit a step.
-/

namespace ChunkedArray

namespace Gzip

inductive CodeTree where
  /-- No code word leads here. -/
  | empty
  | leaf (symbol : Nat)
  | node (zero one : CodeTree)

namespace CodeTree

/-- The tree behind one bit. -/
def child : CodeTree → Bool → CodeTree
  | .node zero one, b => if b then one else zero
  | _, _ => .empty

/-- Puts a symbol at the end of a path. -/
def insert (symbol : Nat) : List Bool → CodeTree → CodeTree
  | [], _ => .leaf symbol
  | false :: path, t => .node (insert symbol path (t.child false)) (t.child true)
  | true :: path, t => .node (t.child false) (insert symbol path (t.child true))

/-- Walks down to a symbol. -/
def walk : CodeTree → (bits : BitStream) → Reader Nat (bits.size + 1)
  | .empty, _ => .error .malformed
  | .leaf s, bits => .ok ⟨s, bits, Nat.lt_succ_self _⟩
  | .node zero one, bits => do
    let b ← takeBit bits
    let r ← if b.value then walk one b.rest else walk zero b.rest
    return r.widen (by have := b.lt; omega)

/-- Reads one symbol; its code word has at least one bit. -/
def decode (t : CodeTree) (bits : BitStream) : Reader Nat bits.size := do
  let b ← takeBit bits
  return (← (t.child b.value).walk b.rest).widen (by have := b.lt; omega)

end CodeTree

def maxCodeLength : Nat := 15

/-- The lowest `n` bits of a number, highest first. -/
def codeWord (n code : Nat) : List Bool := ((List.range n).map code.testBit).reverse

/-- The code words of the symbols with words of each length from `length` on, where `code` is the
number of the first word of that length. -/
def codeWordsFrom (lengths : List Nat) (code length : Nat) : Nat → List (Nat × List Bool)
  | 0 => []
  | more + 1 =>
    let symbols := (lengths.zipIdx.filter fun (l, _) => l == length).map Prod.snd
    symbols.zipIdx.map (fun (s, i) => (s, codeWord length (code + i))) ++
      codeWordsFrom lengths ((code + symbols.length) * 2) (length + 1) more

/-- The symbols that have a code word, each with its word. -/
def codeWords (lengths : List Nat) : List (Nat × List Bool) :=
  codeWordsFrom lengths 0 1 maxCodeLength

/-- The share of all bit strings that begin with a code word, in units of the share of one longest
word. -/
def coverage (lengths : List Nat) : Nat :=
  (lengths.filter (· ≠ 0)).foldl (fun sum l => sum + (1 <<< (maxCodeLength - l))) 0

/-- Every bit string begins with exactly one code word. -/
def isComplete (lengths : List Nat) : Bool := coverage lengths == 1 <<< maxCodeLength

/-- There is no code word, or one of a single bit. -/
def isSparse (lengths : List Nat) : Bool :=
  match lengths.filter (· ≠ 0) with
  | [] => true
  | [l] => l == 1
  | _ => false

/-- The tree of a code. Codes are complete, except that some may also be sparse. -/
def codeTree (allowSparse : Bool) (lengths : List Nat) : Except StreamError CodeTree :=
  if isComplete lengths || (allowSparse && isSparse lengths) then
    .ok ((codeWords lengths).foldl (fun t (s, word) => t.insert s word) .empty)
  else .error .malformed

end Gzip

end ChunkedArray
