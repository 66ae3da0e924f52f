/-!
# Bytes and byte order

Numbers are written as a fixed count of base-256 digits, least significant first (little endian) or
last (big endian).
-/

namespace ChunkedArray

abbrev Bytes := List UInt8

inductive Endian where
  | big
  | little
deriving DecidableEq

namespace Endian

/-- The byte order of arrays that do not choose one. -/
def default : Endian := .little

def name : Endian → String
  | .big => "big"
  | .little => "little"

def ofName? (s : String) : Option Endian :=
  if s = "big" then some .big else if s = "little" then some .little else none

theorem ofName?_name (e : Endian) : ofName? e.name = some e := by cases e <;> rfl

end Endian

namespace Bytes

def valueCount : Nat → Nat
  | 0 => 1
  | n + 1 => 256 * valueCount n

theorem valueCount_pos (n : Nat) : 0 < valueCount n := by
  induction n with
  | zero => exact Nat.one_pos
  | succ n ih => exact Nat.mul_pos (by decide) ih

/-! ### Little-endian digits -/

/-- The last `n` base-256 digits of `x`, least significant first. -/
def ofNatLE : Nat → Nat → Bytes
  | 0, _ => []
  | n + 1, x => UInt8.ofNat (x % 256) :: ofNatLE n (x / 256)

def toNatLE : Bytes → Nat
  | [] => 0
  | b :: rest => b.toNat + 256 * toNatLE rest

@[simp] theorem length_ofNatLE (n x : Nat) : (ofNatLE n x).length = n := by
  induction n generalizing x with
  | zero => rfl
  | succ n ih => simp [ofNatLE, ih]

theorem toNatLE_lt (bs : Bytes) : toNatLE bs < valueCount bs.length := by
  induction bs with
  | nil => exact Nat.one_pos
  | cons b rest ih =>
    have := b.toNat_lt
    simp only [toNatLE, List.length_cons, valueCount]
    omega

theorem toNatLE_ofNatLE (n x : Nat) : toNatLE (ofNatLE n x) = x % valueCount n := by
  induction n generalizing x with
  | zero => simp [ofNatLE, toNatLE, valueCount, Nat.mod_one]
  | succ n ih =>
    have h : (UInt8.ofNat (x % 256)).toNat = x % 256 := by
      simp [UInt8.toNat_ofNat']
    rw [ofNatLE, toNatLE, h, ih, valueCount, Nat.mod_mul]

theorem ofNatLE_toNatLE (bs : Bytes) : ofNatLE bs.length (toNatLE bs) = bs := by
  induction bs with
  | nil => rfl
  | cons b rest ih =>
    have hb := b.toNat_lt
    have hmod : (b.toNat + 256 * toNatLE rest) % 256 = b.toNat := by omega
    have hdiv : (b.toNat + 256 * toNatLE rest) / 256 = toNatLE rest := by omega
    simp only [List.length_cons, toNatLE, ofNatLE, hmod, hdiv, ih, UInt8.ofNat_toNat]

/-! ### Either order -/

/-- The last `n` base-256 digits of `x` in the given order. -/
def ofNat (e : Endian) (n x : Nat) : Bytes :=
  match e with
  | .little => ofNatLE n x
  | .big => (ofNatLE n x).reverse

def toNat (e : Endian) (bs : Bytes) : Nat :=
  match e with
  | .little => toNatLE bs
  | .big => toNatLE bs.reverse

@[simp] theorem length_ofNat (e : Endian) (n x : Nat) : (ofNat e n x).length = n := by
  cases e <;> simp [ofNat]

theorem toNat_ofNat (e : Endian) (n x : Nat) : toNat e (ofNat e n x) = x % valueCount n := by
  cases e <;> simp [toNat, ofNat, toNatLE_ofNatLE]

theorem ofNat_toNat (e : Endian) (bs : Bytes) : ofNat e bs.length (toNat e bs) = bs := by
  cases e
  · have h := ofNatLE_toNatLE bs.reverse
    rw [List.length_reverse] at h
    simp [toNat, ofNat, h]
  · exact ofNatLE_toNatLE bs

theorem toNat_lt (e : Endian) (bs : Bytes) : toNat e bs < valueCount bs.length := by
  cases e
  · have h := toNatLE_lt bs.reverse
    rwa [List.length_reverse] at h
  · exact toNatLE_lt bs

/-! ### Groups -/

def firstGroups (n : Nat) : Nat → Bytes → List Bytes
  | 0, _ => []
  | count + 1, bs => bs.take n :: firstGroups n count (bs.drop n)

/-- Consecutive groups of `n` bytes; what does not fill a group is left out. -/
def groups (n : Nat) (bs : Bytes) : List Bytes := firstGroups n (bs.length / n) bs

theorem length_firstGroups (n count : Nat) (bs : Bytes) :
    (firstGroups n count bs).length = count := by
  induction count generalizing bs with
  | zero => rfl
  | succ count ih => simp [firstGroups, ih]

@[simp] theorem length_groups (n : Nat) (bs : Bytes) :
    (groups n bs).length = bs.length / n := length_firstGroups n _ bs

end Bytes

end ChunkedArray
