import ChunkedArray.Bytes

/-!
# Cyclic redundancy checks

A register of 32 bits takes in the bits of a message, those of each byte from the lowest up: it is
shifted down by one, and the polynomial is added if the bit that left differs from the bit taken in.
The register starts with all bits set and the checksum is its complement.

A whole byte is taken in at once with a table of what the register is after eight zero bits from each
state of its lowest byte; `feedByte_eq` says that this is the same.
-/

namespace ChunkedArray

namespace Bytes

/-- The bits of one byte from the lowest up. -/
def bitsOf (b : UInt8) : List Bool := (List.range 8).map b.toNat.testBit

/-- The bits of a message in the order in which they are sent. -/
def bits (bs : Bytes) : List Bool := bs.flatMap bitsOf

@[simp] theorem length_bits (bs : Bytes) : bs.bits.length = 8 * bs.length := by
  induction bs with
  | nil => rfl
  | cons b bs ih => simp [bits, bitsOf] at ih ⊢; omega

end Bytes

namespace Checksum

/-- A polynomial of degree 32 without its leading term, lowest power in the highest bit. -/
abbrev Polynomial := BitVec 32

/-- The polynomial of gzip. -/
def ieee : Polynomial := 0xEDB88320

/-- The polynomial of the CRC-32C. -/
def castagnoli : Polynomial := 0x82F63B78

/-! ### Bits -/

def feedBit (p : Polynomial) (register : BitVec 32) (bit : Bool) : BitVec 32 :=
  if register.getLsbD 0 != bit then (register >>> 1) ^^^ p else register >>> 1

def feed (p : Polynomial) (register : BitVec 32) (message : List Bool) : BitVec 32 :=
  message.foldl (feedBit p) register

theorem feed_append (p : Polynomial) (register : BitVec 32) (xs ys : List Bool) :
    feed p register (xs ++ ys) = feed p (feed p register xs) ys := List.foldl_append

def feedZeros (p : Polynomial) : Nat → BitVec 32 → BitVec 32
  | 0, register => register
  | n + 1, register => feedZeros p n (feedBit p register false)

/-- Bits may be added to the register ahead of time; they move down until they are taken in. -/
theorem feedBit_xor (p : Polynomial) (r s : BitVec 32) :
    feedBit p (r ^^^ s) false = feedBit p r (s.getLsbD 0) ^^^ (s >>> 1) := by
  unfold feedBit
  rw [BitVec.getLsbD_xor, BitVec.ushiftRight_xor_distrib]
  cases r.getLsbD 0 <;> cases s.getLsbD 0 <;> simp [BitVec.xor_assoc, BitVec.xor_comm p]

theorem feed_eq_feedZeros (p : Polynomial) (bits : List Bool) (r s : BitVec 32)
    (hs : ∀ i, s.getLsbD i = bits.getD i false) :
    feed p r bits = feedZeros p bits.length (r ^^^ s) := by
  induction bits generalizing r s with
  | nil =>
    have : s = 0 := BitVec.eq_of_getLsbD_eq fun i _ => by simp [hs i]
    simp [this, feed, feedZeros]
  | cons b bits ih =>
    have h0 : s.getLsbD 0 = b := hs 0
    rw [List.length_cons, feedZeros, feedBit_xor, h0]
    refine ih _ _ fun i => ?_
    rw [BitVec.getLsbD_ushiftRight, hs, Nat.add_comm]
    rfl

theorem feedZeros_xor (p : Polynomial) (n : Nat) (r s : BitVec 32)
    (hs : ∀ i < n, s.getLsbD i = false) :
    feedZeros p n (r ^^^ s) = feedZeros p n r ^^^ (s >>> n) := by
  induction n generalizing r s with
  | zero => simp [feedZeros]
  | succ n ih =>
    rw [feedZeros, feedZeros, feedBit_xor, hs 0 (Nat.succ_pos n), ih]
    · rw [← BitVec.shiftRight_add, Nat.add_comm]
    · intro i hi
      rw [BitVec.getLsbD_ushiftRight]
      exact hs _ (by omega)

/-! ### Bytes -/

/-- The register after eight zero bits, from each number below 256. -/
def table (p : Polynomial) : Array (BitVec 32) :=
  ((List.range 256).map fun n => feedZeros p 8 (BitVec.ofNat 32 n)).toArray

def lowest (register : BitVec 32) : BitVec 32 := register &&& 0xff

theorem getLsbD_lowest (r : BitVec 32) (i : Nat) :
    (lowest r).getLsbD i = (decide (i < 8) && r.getLsbD i) := by
  have h : (0xff : BitVec 32).getLsbD i = decide (i < 8) := by
    by_cases hi : i < 32
    · revert i
      decide
    · rw [BitVec.getLsbD_of_ge _ _ (by omega), decide_eq_false (by omega)]
  rw [lowest, BitVec.getLsbD_and, h, Bool.and_comm]

theorem toNat_lowest_lt (r : BitVec 32) : (lowest r).toNat < 256 := by
  rw [lowest, BitVec.toNat_and]
  exact Nat.lt_succ_of_le Nat.and_le_right

/-- Takes one byte in, with the table of the polynomial. -/
def feedByte (table : Array (BitVec 32)) (register : BitVec 32) (b : UInt8) : BitVec 32 :=
  let sum := register ^^^ BitVec.ofNat 32 b.toNat
  table.getD (lowest sum).toNat 0 ^^^ (sum >>> 8)

theorem getLsbD_ofByte (b : UInt8) (i : Nat) :
    (BitVec.ofNat 32 b.toNat).getLsbD i = (Bytes.bitsOf b).getD i false := by
  rw [BitVec.getLsbD_ofNat]
  have hbit : b.toNat.testBit i = b.toBitVec.getLsbD i := rfl
  by_cases hi : i < 8
  · have : i < 32 := by omega
    simp [Bytes.bitsOf, hi, this]
  · rw [hbit, BitVec.getLsbD_of_ge _ _ (by omega)]
    simp [Bytes.bitsOf, hi]

theorem feedByte_eq (p : Polynomial) (r : BitVec 32) (b : UInt8) :
    feedByte (table p) r b = feed p r (Bytes.bitsOf b) := by
  rw [feed_eq_feedZeros p _ r _ (getLsbD_ofByte b), feedByte]
  generalize r ^^^ BitVec.ofNat 32 b.toNat = x
  have hget : (table p).getD (lowest x).toNat 0 = feedZeros p 8 (lowest x) := by
    simp [table, toNat_lowest_lt]
  have hsplit : lowest x ^^^ (x ^^^ lowest x) = x := by
    rw [BitVec.xor_comm x, ← BitVec.xor_assoc, BitVec.xor_self, BitVec.zero_xor]
  have hshift : (x ^^^ lowest x) >>> 8 = x >>> 8 := by
    refine BitVec.eq_of_getLsbD_eq fun i _ => ?_
    have : ¬ 8 + i < 8 := by omega
    rw [BitVec.getLsbD_ushiftRight, BitVec.getLsbD_xor, getLsbD_lowest, decide_eq_false this,
      Bool.false_and, Bool.xor_false, BitVec.getLsbD_ushiftRight]
  have hlow : ∀ i < 8, (x ^^^ lowest x).getLsbD i = false := by
    intro i hi
    rw [BitVec.getLsbD_xor, getLsbD_lowest, decide_eq_true hi, Bool.true_and, Bool.xor_self]
  have hlength : (Bytes.bitsOf b).length = 8 := by simp [Bytes.bitsOf]
  have := feedZeros_xor p 8 (lowest x) _ hlow
  rw [hsplit, hshift] at this
  rw [hlength, this]
  exact congrArg (· ^^^ (x >>> 8)) hget

def crc (p : Polynomial) (bs : Bytes) : Nat :=
  let table := table p
  (~~~ bs.foldl (feedByte table) (BitVec.allOnes 32)).toNat

theorem crc_eq (p : Polynomial) (bs : Bytes) :
    crc p bs = (~~~ feed p (BitVec.allOnes 32) bs.bits).toNat := by
  have h : ∀ r, bs.foldl (feedByte (table p)) r = feed p r bs.bits := by
    induction bs with
    | nil => exact fun r => rfl
    | cons b bs ih =>
      intro r
      rw [List.foldl_cons, ih, feedByte_eq, ← feed_append]
      rfl
  exact congrArg (fun r => (~~~ r).toNat) (h _)

end Checksum

end ChunkedArray
