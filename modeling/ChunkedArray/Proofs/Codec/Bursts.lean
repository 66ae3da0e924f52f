import ChunkedArray.Proofs.Codec.Strict
import Mathlib.Data.List.GetD

/-!
# Bursts of errors

The register of a checksum can be run backwards, and so can the window of 32 bits that it takes in.
Bytes and their checksum together leave the register in one state, whatever the bytes. Two buffers
that do so and differ within 32 bits in a row are therefore the same, wherever those bits are.
-/

namespace ChunkedArray

namespace Checksum

variable {p : Polynomial}

/-! ### Running the register backwards -/

/-- The highest power of the polynomial tells whether it was added. -/
theorem feedBit_injective (hp : p.getLsbD 31 = true) (bit : Bool) {r s : BitVec 32}
    (h : feedBit p r bit = feedBit p s bit) : r = s := by
  have htop (r : BitVec 32) : (feedBit p r bit).getLsbD 31 = (r.getLsbD 0 != bit) := by
    unfold feedBit
    cases r.getLsbD 0 != bit <;> simp [hp]
  have hadded : (r.getLsbD 0 != bit) = (s.getLsbD 0 != bit) := by
    rw [← htop, ← htop, h]
  have hlowest : r.getLsbD 0 = s.getLsbD 0 := by simpa using hadded
  have hshifted : r >>> 1 = s >>> 1 := by
    rw [feedBit, feedBit, hadded] at h
    split at h
    · exact (BitVec.xor_left_inj p).1 h
    · exact h
  apply BitVec.eq_of_getLsbD_eq
  intro i _
  cases i with
  | zero => exact hlowest
  | succ i =>
    have hbit := congrArg (·.getLsbD i) hshifted
    simp only [BitVec.getLsbD_ushiftRight] at hbit
    rwa [Nat.add_comm 1] at hbit

theorem feed_injective (hp : p.getLsbD 31 = true) (bits : List Bool) {r s : BitVec 32}
    (h : feed p r bits = feed p s bits) : r = s := by
  induction bits generalizing r s with
  | nil => exact h
  | cons bit bits ih => exact feedBit_injective hp bit (ih h)

theorem feedZeros_injective (hp : p.getLsbD 31 = true) (n : Nat) {r s : BitVec 32}
    (h : feedZeros p n r = feedZeros p n s) : r = s := by
  induction n generalizing r s with
  | zero => exact h
  | succ n ih => exact feedBit_injective hp false (ih h)

/-! ### One window of bits -/

/-- Up to 32 bits as the number that is added to the register. -/
def word (bits : List Bool) : BitVec 32 := (BitVec.ofBoolListLE bits).setWidth 32

theorem getLsbD_word {bits : List Bool} (hbits : bits.length ≤ 32) (i : Nat) :
    (word bits).getLsbD i = bits.getD i false := by
  rw [word, BitVec.getLsbD_setWidth, BitVec.getLsbD_ofBoolListLE]
  by_cases hi : i < 32
  · rw [decide_eq_true hi, Bool.true_and]
  · rw [decide_eq_false hi, Bool.false_and, List.getD_eq_default _ _ (by omega)]

theorem eq_of_feed_eq (hp : p.getLsbD 31 = true) {xs ys : List Bool} (hlength : xs.length = ys.length)
    (hxs : xs.length ≤ 32) {r : BitVec 32} (h : feed p r xs = feed p r ys) : xs = ys := by
  have hys : ys.length ≤ 32 := hlength ▸ hxs
  rw [feed_eq_feedZeros p xs r _ (getLsbD_word hxs), feed_eq_feedZeros p ys r _ (getLsbD_word hys),
    hlength] at h
  have hword : word xs = word ys := (BitVec.xor_right_inj r).1 (feedZeros_injective hp _ h)
  apply List.ext_getElem hlength
  intro i hx hy
  have hbit := congrArg (·.getLsbD i) hword
  simp only [getLsbD_word hxs, getLsbD_word hys] at hbit
  rwa [List.getD_eq_getElem _ _ hx, List.getD_eq_getElem _ _ hy] at hbit

/-- The bits before a window, those in it and those after it are taken in one after the other. -/
theorem feed_window (start : Nat) (r : BitVec 32) (bits : List Bool) :
    feed p r bits = feed p (feed p (feed p r (bits.take start)) ((bits.drop start).take 32))
      ((bits.drop start).drop 32) := by
  rw [← feed_append, ← feed_append, List.take_append_drop, List.take_append_drop]

/-- Messages that differ within 32 bits in a row and leave the register in the same state are equal. -/
theorem eq_of_feed_eq_of_window (hp : p.getLsbD 31 = true) {xs ys : List Bool}
    (hlength : xs.length = ys.length) {start : Nat}
    (hwindow : ∀ i < xs.length, ys[i]? ≠ xs[i]? → start ≤ i ∧ i < start + 32) {r : BitVec 32}
    (h : feed p r xs = feed p r ys) : xs = ys := by
  have hsame (i : Nat) (hi : i < start ∨ start + 32 ≤ i) : xs[i]? = ys[i]? := by
    by_cases hx : i < xs.length
    · by_contra hne
      have := hwindow i hx (Ne.symm hne)
      omega
    · rw [List.getElem?_eq_none (by omega), List.getElem?_eq_none (by omega)]
  have hbefore : xs.take start = ys.take start := by
    apply List.ext_getElem?
    intro i
    simp only [List.getElem?_take]
    split
    · next hi => exact hsame i (.inl hi)
    · rfl
  have hafter : (xs.drop start).drop 32 = (ys.drop start).drop 32 := by
    apply List.ext_getElem?
    intro i
    simp only [List.drop_drop, List.getElem?_drop]
    exact hsame _ (.inr (by omega))
  -- The register is run backwards over what follows the window.
  have hmiddle : (xs.drop start).take 32 = (ys.drop start).take 32 := by
    rw [feed_window start r xs, feed_window start r ys, hbefore, hafter] at h
    refine eq_of_feed_eq hp ?_ (List.length_take_le _ _) (feed_injective hp _ h)
    simp only [List.length_take, List.length_drop, hlength]
  calc xs
    _ = xs.take start ++ ((xs.drop start).take 32 ++ (xs.drop start).drop 32) := by
      rw [List.take_append_drop, List.take_append_drop]
    _ = ys.take start ++ ((ys.drop start).take 32 ++ (ys.drop start).drop 32) := by
      rw [hbefore, hmiddle, hafter]
    _ = ys := by rw [List.take_append_drop, List.take_append_drop]

end Checksum

/-! ### Bits of bytes -/

namespace Bytes

theorem bits_cons (b : UInt8) (bs : Bytes) : bits (b :: bs) = bitsOf b ++ bs.bits := rfl

theorem bits_append (xs ys : Bytes) : (xs ++ ys).bits = xs.bits ++ ys.bits := List.flatMap_append

theorem length_bitsOf (b : UInt8) : (bitsOf b).length = 8 := by simp [bitsOf]

theorem bitsOf_injective {a b : UInt8} (h : bitsOf a = bitsOf b) : a = b := by
  apply UInt8.toNat_inj.1
  apply Nat.eq_of_testBit_eq
  intro i
  by_cases hi : i < 8
  · have hbit := congrArg (·[i]?) h
    simpa [bitsOf, hi] using hbit
  · have hbig (b : UInt8) : b.toNat.testBit i = false :=
      Nat.testBit_lt_two_pow (Nat.lt_of_lt_of_le b.toNat_lt (Nat.pow_le_pow_right (by decide) (by omega)))
    rw [hbig, hbig]

theorem bits_injective {xs ys : Bytes} (h : xs.bits = ys.bits) : xs = ys := by
  have hlength : xs.length = ys.length := by
    have := congrArg List.length h
    rw [length_bits, length_bits] at this
    omega
  induction xs generalizing ys with
  | nil => exact (List.eq_nil_of_length_eq_zero hlength.symm).symm
  | cons x xs ih =>
    cases ys with
    | nil => cases hlength
    | cons y ys =>
      rw [bits_cons, bits_cons] at h
      obtain ⟨hfirst, hrest⟩ := List.append_inj h (by rw [length_bitsOf, length_bitsOf])
      rw [bitsOf_injective hfirst, ih hrest (Nat.succ.inj hlength)]

theorem getD_bits_ofNatLE (n x i : Nat) :
    (ofNatLE n x).bits.getD i false = (decide (i < 8 * n) && x.testBit i) := by
  induction n generalizing x i with
  | zero => simp [ofNatLE, bits]
  | succ n ih =>
    have hbyte : (UInt8.ofNat (x % 256)).toNat = x % 256 := by simp [UInt8.toNat_ofNat']
    have hmod : (x % 256).testBit i = (decide (i < 8) && x.testBit i) := Nat.testBit_mod_two_pow x 8 i
    have hdiv : (x / 256).testBit (i - 8) = x.testBit (i - 8 + 8) :=
      Nat.testBit_div_two_pow (n := 8) x _
    rw [ofNatLE, bits_cons]
    by_cases hi : i < 8
    · have hn : i < 8 * (n + 1) := by omega
      rw [List.getD_append _ _ _ _ (by rwa [length_bitsOf]), decide_eq_true hn, bitsOf, hbyte]
      simp [hi, hmod]
    · have hn : i - 8 < 8 * n ↔ i < 8 * (n + 1) := by omega
      rw [List.getD_append_right _ _ _ _ (by rw [length_bitsOf]; omega), length_bitsOf, ih, hdiv,
        decide_eq_decide.2 hn, Nat.sub_add_cancel (by omega)]

/-- What was received differs from what was sent, and only within so many bits in a row, those of
each byte counted from the lowest up. -/
structure IsBurst (width : Nat) (sent received : Bytes) : Prop where
  length_eq : received.length = sent.length
  ne : received ≠ sent
  exists_window : ∃ start, ∀ i < sent.bits.length, received.bits[i]? ≠ sent.bits[i]? →
    start ≤ i ∧ i < start + width

end Bytes

/-! ### Checksums -/

namespace ByteCodec

open Checksum

/-- Bytes followed by their checksum leave the register in the same state, whatever the bytes. -/
theorem feed_appendChecksum (bs : Bytes) :
    feed castagnoli (.allOnes 32) (appendChecksum bs).bits = feedZeros castagnoli 32 (.allOnes 32) := by
  have hsum := crc_eq castagnoli bs
  generalize hr : feed castagnoli (.allOnes 32) bs.bits = register at hsum
  have hbits (i : Nat) : (~~~ register).getLsbD i =
      (Bytes.ofNatLE checksumLength (checksumOf bs)).bits.getD i false := by
    rw [Bytes.getD_bits_ofNatLE, checksumOf, hsum]
    by_cases hi : i < 32
    · rw [decide_eq_true (show i < 8 * checksumLength from hi), Bool.true_and]
      rfl
    · rw [decide_eq_false (show ¬ i < 8 * checksumLength from hi), Bool.false_and,
        BitVec.getLsbD_of_ge _ _ (by omega)]
  have hones : register ^^^ ~~~ register = .allOnes 32 := by
    rw [← BitVec.not_xor_right, BitVec.xor_self, BitVec.not_zero]
  rw [appendChecksum, Bytes.bits_append, feed_append, hr,
    feed_eq_feedZeros _ _ register _ hbits, hones, Bytes.length_bits, Bytes.length_ofNatLE]
  rfl

/-- A burst makes no bytes with their checksum of others. -/
theorem appendChecksum_ne_of_isBurst {payload received : Bytes}
    (hburst : (appendChecksum payload).IsBurst 32 received) (bs : Bytes) :
    appendChecksum bs ≠ received := by
  intro hreceived
  obtain ⟨start, hwindow⟩ := hburst.exists_window
  have hlength : (appendChecksum payload).bits.length = received.bits.length := by
    rw [Bytes.length_bits, Bytes.length_bits, hburst.length_eq]
  have hstates : feed castagnoli (.allOnes 32) (appendChecksum payload).bits =
      feed castagnoli (.allOnes 32) received.bits := by
    rw [feed_appendChecksum, ← hreceived, feed_appendChecksum]
  have hbits := eq_of_feed_eq_of_window (by decide) hlength hwindow hstates
  exact hburst.ne (Bytes.bits_injective hbits.symm)

/-- Decoding refuses what was encoded if no more than 32 bits in a row went wrong, in the bytes, in
their checksum or across the boundary. -/
theorem decode_crc32c_of_isBurst {payload sent received : Bytes} {options : CodecOptions}
    (hvalidate : options.validateChecksums = true) (hsent : crc32c.encode payload = .ok sent)
    (hburst : sent.IsBurst 32 received) :
    crc32c.decode options received = .error (.checksumMismatch
      (Bytes.toNatLE (received.drop payload.length)) (checksumOf (received.take payload.length))) := by
  obtain rfl := Except.ok.inj hsent
  have hlength : received.length = payload.length + checksumLength := by
    rw [hburst.length_eq, length_appendChecksum]
  have hrefused (decoded : Bytes) : takeChecksum true received ≠ .ok decoded := fun hok =>
    appendChecksum_ne_of_isBurst hburst decoded (appendChecksum_of_takeChecksum hok)
  rw [decode, hvalidate]
  rw [takeChecksum, hlength, if_neg (by omega), Nat.add_sub_cancel] at hrefused ⊢
  simp only [Bool.true_and] at hrefused ⊢
  split
  · rfl
  · next hsame =>
    rw [if_neg hsame] at hrefused
    exact absurd rfl (hrefused _)

/-- The first bit that went wrong is the highest one of the payload, the last one the 32nd from it. -/
theorem decode_crc32c_of_isBurst_digits :
    let payload : Bytes := [0x31, 0x32, 0x33, 0x34, 0x35, 0x36, 0x37, 0x38, 0x39]
    let sent : Bytes := payload ++ [0x83, 0x92, 0x06, 0xe3]
    let received : Bytes := [0x31, 0x32, 0x33, 0x34, 0x35, 0x36, 0x37, 0x38, 0xb9, 0x83, 0x92, 0x06, 0xa3]
    crc32c.encode payload = .ok sent ∧ sent.IsBurst 32 received ∧
      ∃ computed, crc32c.decode ⟨true⟩ received = .error (.checksumMismatch 0xa3069283 computed) := by
  intro payload sent received
  have hsent : crc32c.encode payload = .ok sent := by
    have hsum : checksumOf payload = 0xe3069283 := by decide +kernel
    rw [encode, appendChecksum, hsum]
    rfl
  have hburst : sent.IsBurst 32 received :=
    ⟨rfl, by decide, 71, by decide +kernel⟩
  exact ⟨hsent, hburst, _, decode_crc32c_of_isBurst rfl hsent hburst⟩

end ByteCodec

end ChunkedArray
