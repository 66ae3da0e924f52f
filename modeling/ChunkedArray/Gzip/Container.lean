import ChunkedArray.Gzip.Inflate

/-!
# The gzip container

A member is a header, compressed data and a trailer with the checksum and the length of the data.
Reading takes the first member and ignores what follows it. Writing stores the data uncompressed, in
blocks of limited length, so what is read back is what was written.
-/

namespace ChunkedArray

namespace Gzip

/-! ### Header -/

/-- The first ten bytes of a member. -/
structure Header where
  flags : Nat
  /-- The header so far, for its checksum. -/
  seen : Bytes

/-- Whether a flag is set. -/
def Header.has (h : Header) (flag : Nat) : Bool := h.flags.testBit flag

def checksumFlag : Nat := 1
def extraFlag : Nat := 2
def nameFlag : Nat := 3
def commentFlag : Nat := 4

/-- Names and comments have at most this many bytes. -/
def maxFieldLength : Nat := 65535

def splitBytes (n : Nat) (bs : Bytes) : Except StreamError (Bytes × Bytes) :=
  if bs.length < n then .error .truncated else .ok (bs.take n, bs.drop n)

def takeHeader (bs : Bytes) : Except StreamError (Header × Bytes) := do
  let (fixed, rest) ← splitBytes 10 bs
  let flags := (fixed.getD 3 0).toNat
  if fixed.take 3 = [0x1f, 0x8b, 8] ∧ flags < 32 then return (⟨flags, fixed⟩, rest)
  else .error .malformed

/-- Skips the extra field: a length and as many bytes. -/
def skipExtra (h : Header) (bs : Bytes) : Except StreamError (Header × Bytes) := do
  if h.has extraFlag then
    let (count, rest) ← splitBytes 2 bs
    let (extra, rest) ← splitBytes (Bytes.toNatLE count) rest
    return ({ h with seen := h.seen ++ count ++ extra }, rest)
  else return (h, bs)

/-- Skips a text that ends in a zero byte. -/
def skipText (flag : Nat) (h : Header) (bs : Bytes) : Except StreamError (Header × Bytes) := do
  if h.has flag then
    let text := bs.takeWhile (· ≠ 0)
    if text.length > maxFieldLength then .error .malformed
    match bs.drop text.length with
    | [] => .error .truncated
    | zero :: rest => return ({ h with seen := h.seen ++ text ++ [zero] }, rest)
  else return (h, bs)

/-- Checks the lower half of the checksum of the header. -/
def checkHeader (h : Header) (bs : Bytes) : Except StreamError Bytes := do
  if h.has checksumFlag then
    let (stored, rest) ← splitBytes 2 bs
    if Bytes.toNatLE stored = Checksum.crc Checksum.ieee h.seen % 0x10000 then return rest
    else .error .malformed
  else return bs

def skipHeader (bs : Bytes) : Except StreamError Bytes := do
  let (h, bs) ← takeHeader bs
  let (h, bs) ← skipExtra h bs
  let (h, bs) ← skipText nameFlag h bs
  let (h, bs) ← skipText commentFlag h bs
  checkHeader h bs

/-! ### Members -/

/-- The checksum and the length of the data, each in four bytes. -/
def trailer (data : Bytes) : Bytes :=
  Bytes.ofNatLE 4 (Checksum.crc Checksum.ieee data) ++ Bytes.ofNatLE 4 data.length

def decompress (bs : Bytes) : Except StreamError Bytes := do
  let (data, rest) ← inflate (← skipHeader bs)
  let (stored, _) ← splitBytes 8 rest
  if stored = trailer data then return data else .error .malformed

def maxStored : Nat := 65535

def storedBlock (final : Bool) (data : Bytes) : Bytes :=
  (if final then 1 else 0) :: Bytes.ofNatLE 2 data.length ++
    Bytes.ofNatLE 2 (maxStored - data.length) ++ data

/-- Data as stored blocks, of which the last may be empty. -/
def storedBlocks (data : Bytes) : Bytes :=
  match h : data.drop maxStored with
  | [] => storedBlock true data
  | b :: rest =>
    have : (b :: rest).length < data.length := by
      have := congrArg List.length h
      simp only [List.length_drop, List.length_cons, maxStored] at this ⊢
      omega
    storedBlock false (data.take maxStored) ++ storedBlocks (b :: rest)
termination_by data.length

/-- A member that holds some data. It stands for any lossless encoder: others compress, and how far they
do depends on the level, but reading gives back the data whichever of them wrote the member. So the
level is not asked for, and all that may be relied on is that the data are read back. -/
def compress (data : Bytes) : Bytes :=
  [0x1f, 0x8b, 8, 0, 0, 0, 0, 0, 0, 0xff] ++ storedBlocks data ++ trailer data

end Gzip

end ChunkedArray
