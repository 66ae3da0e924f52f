import ChunkedArray.Gzip.Container
import ChunkedArray.Proofs.Outcome
import Mathlib.Logic.Basic

/-!
# What is compressed decompresses

Compressed data is a header, blocks of stored bytes and a trailer. Each part is read back where it
was written, from one byte boundary to another.
-/

namespace ChunkedArray

namespace Gzip

variable {α β : Type} {m n : Nat}

/-- The reader gives this value and leaves this stream. -/
def Yields (x : Reader α n) (v : α) (rest : BitStream) : Prop := ∃ h, x = .ok ⟨v, rest, h⟩

theorem Yields.bind {x : Reader α m} {f : Read α m → Reader β n} {v : α} {w : β}
    {s rest : BitStream} (hx : Yields x v s) (hf : ∀ h, Yields (f ⟨v, s, h⟩) w rest) :
    Yields (x >>= f) w rest := by
  obtain ⟨h, rfl⟩ := hx
  exact hf h

theorem yields_pure (v : α) {rest : BitStream} (h : rest.size < n) :
    Yields (pure ⟨v, rest, h⟩ : Reader α n) v rest := ⟨h, rfl⟩

/-! ### Numbers and bytes -/

theorem next?_of_lt (b : UInt8) (bytes : Bytes) (used : Nat) (h : used < 7) :
    (⟨b :: bytes, used⟩ : BitStream).next? = some (b.toNat.testBit used, ⟨b :: bytes, used + 1⟩) :=
  congrArg (fun s => some (_, s)) (if_pos h)

theorem yields_takeBit {s rest : BitStream} {b : Bool} (h : s.next? = some (b, rest)) :
    Yields (takeBit s) b rest := by
  refine ⟨BitStream.size_of_next? h, ?_⟩
  unfold takeBit
  split
  · next h' => rw [h] at h'; cases h'
  · next h' => rw [h] at h'; cases h'; rfl

theorem yields_takeBits_zero (s : BitStream) : Yields (takeBits 0 s) 0 s := yields_pure _ _

theorem yields_takeBits_succ {s s' rest : BitStream} {b : Bool} {v : Nat}
    (hb : s.next? = some (b, s')) (h : Yields (takeBits n s') v rest) :
    Yields (takeBits (n + 1) s) (b.toNat + 2 * v) rest :=
  (yields_takeBit hb).bind fun _ => h.bind fun _ => yields_pure _ _

/-- The last bits of a byte, the lowest first, and a number from the bytes after it. -/
theorem yields_takeBits_within {bytes : Bytes} {rest : BitStream} {v : Nat}
    (h : Yields (takeBits n ⟨bytes, 0⟩) v rest) (b : UInt8) {k : Nat} (hk : k ≤ 7) :
    Yields (takeBits (n + (k + 1)) ⟨b :: bytes, 7 - k⟩) (b.toNat >>> (7 - k) + (2 <<< k) * v)
      rest := by
  induction k with
  | zero =>
    have hbit : (b.toNat.testBit 7).toNat = b.toNat >>> 7 := by
      rw [Nat.toNat_testBit, Nat.shiftRight_eq_div_pow]
      have := b.toNat_lt
      omega
    exact hbit ▸ yields_takeBits_succ rfl h
  | succ k ih =>
    have hnext : 7 - k = 7 - (k + 1) + 1 := by omega
    have hstream : (⟨b :: bytes, 7 - (k + 1)⟩ : BitStream).next? =
        some (b.toNat.testBit (7 - (k + 1)), ⟨b :: bytes, 7 - k⟩) := by
      rw [hnext]
      exact next?_of_lt b bytes _ (by omega)
    have hbit : (b.toNat.testBit (7 - (k + 1))).toNat = b.toNat >>> (7 - (k + 1)) % 2 := by
      rw [Nat.toNat_testBit, Nat.shiftRight_eq_div_pow]
    have hvalue : b.toNat >>> (7 - (k + 1)) + (2 <<< (k + 1)) * v =
        (b.toNat.testBit (7 - (k + 1))).toNat + 2 * (b.toNat >>> (7 - k) + (2 <<< k) * v) := by
      rw [hbit, hnext, Nat.shiftRight_succ, Nat.shiftLeft_succ, Nat.mul_assoc]
      omega
    rw [hvalue]
    exact yields_takeBits_succ hstream (ih (by omega))

theorem yields_takeBits (bs rest : Bytes) :
    Yields (takeBits (8 * bs.length) ⟨bs ++ rest, 0⟩) (Bytes.toNatLE bs) ⟨rest, 0⟩ := by
  induction bs with
  | nil => exact yields_takeBits_zero _
  | cons b bs ih => exact yields_takeBits_within ih b (Nat.le_refl 7)

theorem yields_takeBytes (bs rest : Bytes) :
    Yields (takeBytes bs.length ⟨bs ++ rest, 0⟩) bs ⟨rest, 0⟩ := by
  refine ⟨?_, ?_⟩
  · simp only [BitStream.size, List.length_append]
    omega
  · simp [takeBytes, BitStream.align]

/-- The length of a stored block and its complement. -/
theorem yields_takeBits_ofNatLE {x : Nat} (hx : x ≤ maxStored) (rest : Bytes) :
    Yields (takeBits 16 ⟨Bytes.ofNatLE 2 x ++ rest, 0⟩) x ⟨rest, 0⟩ := by
  have h := yields_takeBits (Bytes.ofNatLE 2 x) rest
  have hvalue : Bytes.toNatLE (Bytes.ofNatLE 2 x) = x := by
    rw [Bytes.toNatLE_ofNatLE]
    exact Nat.mod_eq_of_lt (Nat.lt_succ_of_le hx)
  rwa [Bytes.length_ofNatLE, hvalue] at h

/-! ### Stored blocks -/

/-- The first byte of a stored block. -/
def blockByte (final : Bool) : UInt8 := if final then 1 else 0

/-- The other bytes of a stored block, and what follows it. -/
def storedBody (data rest : Bytes) : Bytes :=
  Bytes.ofNatLE 2 data.length ++ (Bytes.ofNatLE 2 (maxStored - data.length) ++ (data ++ rest))

theorem storedBlock_append (final : Bool) (data rest : Bytes) :
    storedBlock final data ++ rest = blockByte final :: storedBody data rest := by
  simp [storedBlock, storedBody, blockByte]

theorem yields_final (final : Bool) (bytes : Bytes) :
    Yields (takeBit ⟨blockByte final :: bytes, 0⟩) final ⟨blockByte final :: bytes, 1⟩ := by
  have hbit : (blockByte final).toNat.testBit 0 = final := by cases final <;> rfl
  have hnext := next?_of_lt (blockByte final) bytes 0 (by decide)
  rw [hbit] at hnext
  exact yields_takeBit hnext

theorem yields_kind (final : Bool) (bytes : Bytes) :
    Yields (takeBits 2 ⟨blockByte final :: bytes, 1⟩) 0 ⟨blockByte final :: bytes, 3⟩ := by
  have hone : (blockByte final).toNat.testBit 1 = false := by cases final <;> rfl
  have htwo : (blockByte final).toNat.testBit 2 = false := by cases final <;> rfl
  have hnext₁ := next?_of_lt (blockByte final) bytes 1 (by decide)
  have hnext₂ := next?_of_lt (blockByte final) bytes 2 (by decide)
  rw [hone] at hnext₁
  rw [htwo] at hnext₂
  exact yields_takeBits_succ hnext₁ (yields_takeBits_succ hnext₂ (yields_takeBits_zero _))

/-- The reading of a stored block starts anywhere in its first byte, after the first bit. -/
theorem yields_inflateStored (out : Output) (b : UInt8) {data : Bytes} (rest : Bytes) {used : Nat}
    (hused : used ≠ 0) (hdata : data.length ≤ maxStored) :
    Yields (inflateStored out ⟨b :: storedBody data rest, used⟩) (out ++ data) ⟨rest, 0⟩ := by
  have halign : (⟨b :: storedBody data rest, used⟩ : BitStream).align =
      ⟨storedBody data rest, 0⟩ := if_neg hused
  have hcomplement : maxStored - data.length ≤ maxStored := Nat.sub_le ..
  rw [inflateStored]
  refine .bind (halign ▸ yields_takeBits_ofNatLE hdata _) fun _ => ?_
  refine .bind (yields_takeBits_ofNatLE hcomplement _) fun _ => ?_
  rw [if_neg (by unfold maxStored at hdata ⊢; simp only; omega)]
  exact (yields_takeBytes data rest).bind fun _ => yields_pure _ _

theorem yields_inflateBlock (out : Output) (final : Bool) {data : Bytes} (rest : Bytes)
    (hdata : data.length ≤ maxStored) :
    Yields (inflateBlock out ⟨blockByte final :: storedBody data rest, 1⟩) (out ++ data)
      ⟨rest, 0⟩ := by
  rw [inflateBlock]
  refine (yields_kind final _).bind fun _ => ?_
  rw [if_pos rfl]
  exact (yields_inflateStored out _ rest (by decide) hdata).bind fun _ => yields_pure _ _

theorem yields_lastBlock (out : Output) {data : Bytes} (rest : Bytes)
    (hdata : data.length ≤ maxStored) :
    Yields (inflateBlocks out ⟨storedBlock true data ++ rest, 0⟩) (out ++ data) ⟨rest, 0⟩ := by
  rw [storedBlock_append, inflateBlocks]
  refine (yields_final true _).bind fun _ => ?_
  refine (yields_inflateBlock out true rest hdata).bind fun _ => ?_
  rw [if_pos rfl]
  exact yields_pure _ _

theorem yields_nextBlock {out w : Output} {data rest : Bytes} {s : BitStream}
    (hdata : data.length ≤ maxStored) (h : Yields (inflateBlocks (out ++ data) ⟨rest, 0⟩) w s) :
    Yields (inflateBlocks out ⟨storedBlock false data ++ rest, 0⟩) w s := by
  rw [storedBlock_append, inflateBlocks]
  refine (yields_final false _).bind fun _ => ?_
  refine (yields_inflateBlock out false rest hdata).bind fun _ => ?_
  rw [if_neg Bool.false_ne_true]
  exact h.bind fun _ => yields_pure _ _

theorem yields_storedBlocks (out : Output) (data rest : Bytes) :
    Yields (inflateBlocks out ⟨storedBlocks data ++ rest, 0⟩) (out ++ data) ⟨rest, 0⟩ := by
  -- By the recursion that cuts the blocks, for any output so far.
  induction data using storedBlocks.induct generalizing out with
  | case1 data h =>
    have hle : data.length ≤ maxStored := List.drop_eq_nil_iff.1 h
    rw [storedBlocks]
    split
    · exact yields_lastBlock out rest hle
    · next h' => rw [h] at h'; cases h'
  | case2 data b more h _ ih =>
    have hle : (data.take maxStored).length ≤ maxStored := List.length_take_le ..
    rw [storedBlocks]
    split
    · next h' => rw [h] at h'; cases h'
    · next h' =>
      rw [h] at h'
      cases h'
      rw [List.append_assoc]
      refine yields_nextBlock hle ?_
      have hall : out ++ data = out ++ data.take maxStored ++ b :: more := by
        refine Array.ext' ?_
        simp only [Array.toList_appendList, List.append_assoc, ← h, List.take_append_drop]
      rw [hall]
      exact ih _

/-! ### Members -/

theorem skipHeader_compress (rest : Bytes) :
    skipHeader ([0x1f, 0x8b, 8, 0, 0, 0, 0, 0, 0, 0xff] ++ rest) = .ok rest := by
  have hsplit : splitBytes 10 ([0x1f, 0x8b, 8, 0, 0, 0, 0, 0, 0, 0xff] ++ rest) =
      .ok ([0x1f, 0x8b, 8, 0, 0, 0, 0, 0, 0, 0xff], rest) := if_neg (by simp)
  rw [skipHeader, takeHeader, hsplit]
  rfl

theorem length_trailer (data : Bytes) : (trailer data).length = 8 := by
  simp [trailer]

theorem decompress_compress (data : Bytes) : decompress (compress data) = .ok data := by
  obtain ⟨_, hblocks⟩ := yields_storedBlocks #[] data (trailer data)
  have hinflate : inflate (storedBlocks data ++ trailer data) = .ok (data, trailer data) := by
    rw [inflate, BitStream.ofBytes, hblocks]
    simp [BitStream.align]
  rw [decompress, compress, List.append_assoc, skipHeader_compress]
  have hsplit : splitBytes 8 (trailer data) = .ok (trailer data, []) := by
    simp [splitBytes, length_trailer, List.take_of_length_le]
  simp [hinflate, hsplit]

end Gzip

end ChunkedArray
