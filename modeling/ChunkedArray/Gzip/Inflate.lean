import ChunkedArray.Gzip.Huffman

/-!
# Inflating

Compressed data is a sequence of blocks, each stored as it is or as symbols of two Huffman codes:
one for literal bytes and the lengths of copies, one for the distances back at which copies start.
What lies before the beginning of the output counts as zeros.
-/

namespace ChunkedArray

namespace Gzip

/-- One element of a compressed block. -/
inductive Symbol where
  | literal (b : UInt8)
  | copy (length distance : Nat)
  | endOfBlock
deriving DecidableEq

/-! ### Lengths and distances -/

/-- For each symbol a base value and a number of extra bits; `start` is the first base and the list
gives the extra bits. -/
def bases (start : Nat) : List Nat → List (Nat × Nat)
  | [] => []
  | extra :: rest => (start, extra) :: bases (start + (1 <<< extra)) rest

/-- The lengths of the symbols from 257 on; the last one stands for one length alone. -/
def lengthBases : List (Nat × Nat) :=
  bases 3 [0, 0, 0, 0, 0, 0, 0, 0, 1, 1, 1, 1, 2, 2, 2, 2, 3, 3, 3, 3, 4, 4, 4, 4, 5, 5, 5, 5] ++
    [(258, 0)]

def distanceBases : List (Nat × Nat) :=
  bases 1 [0, 0, 0, 0, 1, 1, 2, 2, 3, 3, 4, 4, 5, 5, 6, 6, 7, 7, 8, 8, 9, 9, 10, 10, 11, 11, 12, 12,
    13, 13]

/-- Reads the extra bits of a symbol and adds them to its base. -/
def takeFrom (table : List (Nat × Nat)) (symbol : Nat) (bits : BitStream) :
    Reader Nat (bits.size + 1) :=
  match table[symbol]? with
  | none => .error .malformed
  | some (base, extra) => do return (← takeBits extra bits).map (base + ·)

/-- The two codes of a compressed block. -/
structure BlockCodes where
  literals : CodeTree
  distances : CodeTree

def takeSymbol (codes : BlockCodes) (bits : BitStream) : Reader Symbol bits.size := do
  let s ← codes.literals.decode bits
  if s.value < 256 then return s.map fun n => .literal (UInt8.ofNat n)
  else if s.value = 256 then return s.map fun _ => .endOfBlock
  else
    let length ← takeFrom lengthBases (s.value - 257) s.rest
    let d ← codes.distances.decode length.rest
    let distance ← takeFrom distanceBases d.value d.rest
    return ⟨.copy length.value distance.value, distance.rest,
      by have := s.lt; have := length.lt; have := d.lt; have := distance.lt; omega⟩

/-! ### Output -/

/-- The bytes written so far. -/
abbrev Output := Array UInt8

/-- The byte that was written `distance` bytes ago. -/
def Output.back (out : Output) (distance : Nat) : UInt8 :=
  if distance ≤ out.size then out.getD (out.size - distance) 0 else 0

/-- Repeats `length` bytes from `distance` bytes back, including bytes that the copy itself
writes. -/
def Output.copy (distance : Nat) : (length : Nat) → Output → Output
  | 0, out => out
  | length + 1, out => Output.copy distance length (out.push (out.back distance))

/-- Reads elements up to the end of the block. -/
def inflateSymbols (codes : BlockCodes) (out : Output) (bits : BitStream) :
    Reader Output bits.size := do
  let s ← takeSymbol codes bits
  have := s.lt
  match s.value with
  | .endOfBlock => return s.map fun _ => out
  | .literal b => return (← inflateSymbols codes (out.push b) s.rest).widen (Nat.le_of_lt s.lt)
  | .copy length distance =>
    return (← inflateSymbols codes (Output.copy distance length out) s.rest).widen (Nat.le_of_lt s.lt)
termination_by bits.size

/-! ### Codes -/

/-- The codes of blocks that do not bring their own. -/
def fixedCodes : Except StreamError BlockCodes := do
  let literals := List.replicate 144 8 ++ List.replicate 112 9 ++ List.replicate 24 7 ++
    List.replicate 8 8
  return ⟨← codeTree false literals, ← codeTree false (List.replicate 32 5)⟩

/-- The order in which a block gives the lengths of the code for code lengths. -/
def codeLengthOrder : List Nat := [16, 17, 18, 0, 8, 7, 9, 6, 10, 5, 11, 4, 12, 3, 13, 2, 14, 1, 15]

/-- Reads code lengths until there are at least `total`, the latest first in `lengths`. Symbols from
16 on repeat the latest length or write zeros. -/
def takeLengths (code : CodeTree) (total : Nat) (lengths : List Nat) (bits : BitStream) :
    Reader (List Nat) (bits.size + 1) := do
  if total ≤ lengths.length then return ⟨lengths, bits, Nat.lt_succ_self _⟩
  let s ← code.decode bits
  have := s.lt
  if s.value < 16 then
    return (← takeLengths code total (s.value :: lengths) s.rest).widen (by omega)
  else
    let (repeated, extra, least) ←
      if s.value = 16 then
        match lengths with
        | [] => .error .malformed
        | latest :: _ => pure (latest, 2, 3)
      else if s.value = 17 then pure (0, 3, 3)
      else pure (0, 7, 11)
    let count ← takeBits extra s.rest
    have := count.lt
    let lengths := List.replicate (least + count.value) repeated ++ lengths
    return (← takeLengths code total lengths count.rest).widen (by omega)
termination_by bits.size

/-- Reads the codes that a block brings. -/
def takeCodes (bits : BitStream) : Reader BlockCodes (bits.size + 1) := do
  let sizes ← takeBits 14 bits
  let literalCount := sizes.value % 32 + 257
  let distanceCount := sizes.value / 32 % 32 + 1
  let orderCount := sizes.value / 1024 + 4
  if literalCount > 286 || distanceCount > 30 then .error .malformed
  let given ← takeNumbers 3 orderCount sizes.rest
  let lengthOf (symbol : Nat) : Nat := given.value.getD (codeLengthOrder.idxOf symbol) 0
  let code ← codeTree false ((List.range 19).map lengthOf)
  let lengths ← takeLengths code (literalCount + distanceCount) [] given.rest
  let all := lengths.value.reverse
  if all.length ≠ literalCount + distanceCount then .error .malformed
  let distances ← codeTree true (all.drop literalCount)
  let literals ← codeTree true (all.take literalCount)
  return ⟨⟨literals, distances⟩, lengths.rest,
    by have := sizes.lt; have := given.lt; have := lengths.lt; omega⟩

/-! ### Blocks -/

/-- Reads a block of stored bytes: their count, its complement and the bytes. -/
def inflateStored (out : Output) (bits : BitStream) : Reader Output (bits.size + 1) := do
  let count ← takeBits 16 bits.align
  let complement ← takeBits 16 count.rest
  if count.value + complement.value ≠ 0xffff then .error .malformed
  let bytes ← takeBytes count.value complement.rest
  return ⟨out ++ bytes.value, bytes.rest, by
    have := bits.size_align_le
    have := count.lt; have := complement.lt; have := bytes.lt; omega⟩

/-- Reads one block after its first bit. -/
def inflateBlock (out : Output) (bits : BitStream) : Reader Output (bits.size + 1) := do
  let kind ← takeBits 2 bits
  have := kind.lt
  if kind.value = 0 then return (← inflateStored out kind.rest).widen (by omega)
  else if kind.value = 1 then
    let codes ← fixedCodes
    return (← inflateSymbols codes out kind.rest).widen (by omega)
  else if kind.value = 2 then
    let codes ← takeCodes kind.rest
    have := codes.lt
    return (← inflateSymbols codes.value out codes.rest).widen (by omega)
  else .error .malformed

/-- Reads blocks up to the one that is marked as the last. -/
def inflateBlocks (out : Output) (bits : BitStream) : Reader Output bits.size := do
  let final ← takeBit bits
  let block ← inflateBlock out final.rest
  have := final.lt
  have := block.lt
  if final.value then return block.widen (by omega)
  else return (← inflateBlocks block.value block.rest).widen (by omega)
termination_by bits.size

/-- Inflates the data at the beginning of some bytes and gives the bytes after it. -/
def inflate (bs : Bytes) : Except StreamError (Bytes × Bytes) := do
  let r ← inflateBlocks #[] (.ofBytes bs)
  return (r.value.toList, r.rest.align.bytes)

end Gzip

end ChunkedArray
