import ChunkedArray.Proofs.Codec.Endings

/-!
# Decoding is strict

Without booleans and compression there is one way only to store a chunk: with checksums compared, a
chain decodes exactly what it encodes. Encoding undoes decoding codec by codec, and every decoder
either checks the length of its bytes or passes it on.
-/

namespace ChunkedArray

/-! ### Checksums -/

namespace ByteCodec

/-- A checksum that compares equal is the one that would be appended. -/
theorem appendChecksum_of_takeChecksum {bs payload : Bytes}
    (h : takeChecksum true bs = .ok payload) : appendChecksum payload = bs := by
  rw [takeChecksum] at h
  split at h
  · cases h
  · next hlength =>
    simp only [Bool.true_and] at h
    split at h
    · cases h
    · next hsame =>
      obtain rfl := Except.ok.inj h
      rw [Bool.not_eq_true, bne_eq_false_iff_eq] at hsame
      have hsuffix : (bs.drop (bs.length - checksumLength)).length = checksumLength := by
        rw [List.length_drop]
        omega
      have hchecksum := Bytes.ofNatLE_toNatLE (bs.drop (bs.length - checksumLength))
      rw [hsuffix, hsame] at hchecksum
      rw [appendChecksum, hchecksum, List.take_append_drop]

/-- With checksums compared, the codec decodes nothing but what it encodes. -/
def Strict (c : ByteCodec) : Prop := ∀ bs out, c.decode ⟨true⟩ bs = .ok out → c.encode out = .ok bs

theorem foldlM_encode_of_decode {codecs : List ByteCodec} (hcodecs : ∀ c ∈ codecs, c.Strict)
    {bs out : Bytes} (h : codecs.reverse.foldlM (fun bs c => c.decode ⟨true⟩ bs) out = .ok bs) :
    codecs.foldlM (fun bs c => c.encode bs) bs = .ok out :=
  Outcome.foldlM_eq_ok_of_reverse hcodecs h

theorem length_appendChecksum (bs : Bytes) :
    (appendChecksum bs).length = bs.length + checksumLength := by
  rw [appendChecksum, List.length_append, Bytes.length_ofNatLE]

end ByteCodec

/-! ### Elements -/

namespace Bytes

theorem flatten_firstGroups (n count : Nat) (bs : Bytes) :
    (firstGroups n count bs).flatten = bs.take (count * n) := by
  induction count generalizing bs with
  | zero => simp [firstGroups]
  | succ count ih => rw [firstGroups, List.flatten_cons, ih, Nat.succ_mul, Nat.add_comm, List.take_add]

theorem length_of_mem_firstGroups {n count : Nat} {bs g : Bytes} (hbs : count * n ≤ bs.length)
    (hg : g ∈ firstGroups n count bs) : g.length = n := by
  induction count generalizing bs with
  | zero => cases hg
  | succ count ih =>
    rw [Nat.succ_mul] at hbs
    rcases List.mem_cons.1 hg with rfl | hg
    · rw [List.length_take]
      omega
    · refine ih ?_ hg
      rw [List.length_drop]
      omega

end Bytes

/-- Every sequence of as many bytes as an element has is that of an element. -/
theorem Element.toBytes_ofBytes {t : DataType} (ht : t ≠ .bool) (e : Endian) {bs : Bytes}
    (hbs : bs.length = t.byteCount) : toBytes e (ofBytes t e bs) = bs := by
  have hcount : t.patternCount = Bytes.valueCount t.byteCount := by
    cases t with
    | bool => exact absurd rfl ht
    | int s | uint s | float s => rfl
  have hlt : Bytes.toNat e bs < t.patternCount := by
    rw [hcount, ← hbs]
    exact Bytes.toNat_lt e bs
  have hval : (ofBytes t e bs).val = Bytes.toNat e bs := by
    simp only [ofBytes, if_neg ht, DataType.ofPattern, Nat.mod_eq_of_lt hlt]
  rw [toBytes, hval, ← hbs, Bytes.ofNat_toNat]

theorem NdArray.cellBytes_of_ofList {t : DataType} (ht : t ≠ .bool) {e : Endian} {shape : Shape}
    {bs : Bytes} {a : NdArray t.Element} (hlength : bs.length = shape.size * t.byteCount)
    (h : ofList shape ((bs.groups t.byteCount).map (Element.ofBytes t e)) = .ok a) :
    a.shape = shape ∧ a.cellBytes e = bs := by
  unfold ofList at h
  split at h
  · split at h
    · obtain rfl := Except.ok.inj h
      refine ⟨rfl, ?_⟩
      have hexact : bs.length / t.byteCount * t.byteCount = bs.length := by
        rw [hlength, Nat.mul_div_cancel _ t.byteCount_pos]
      have hgroup : ∀ g ∈ bs.groups t.byteCount, Element.toBytes e (Element.ofBytes t e g) = g :=
        fun g hg => Element.toBytes_ofBytes ht e
          (Bytes.length_of_mem_firstGroups (Nat.le_of_eq hexact) hg)
      calc ((bs.groups t.byteCount).map (Element.ofBytes t e)).flatMap (Element.toBytes e)
        _ = ((bs.groups t.byteCount).map fun g => Element.toBytes e (Element.ofBytes t e g)).flatten := by
          rw [List.flatMap_def, List.map_map]
          rfl
        _ = (bs.groups t.byteCount).flatten := by
          rw [List.map_congr_left hgroup, List.map_id']
        _ = bs := by
          rw [Bytes.groups, Bytes.flatten_firstGroups, hexact, List.take_length]
    · cases h
  · cases h

theorem NdArray.toBytes_of_ofBytes {t : DataType} (ht : t ≠ .bool) {e : Endian} {shape : Shape}
    {bs : Bytes} {a : NdArray t.Element} (h : ofBytes t e shape bs = .ok a) :
    a.toBytes e = .ok bs := by
  by_cases hcounts : t.CountsBytes shape
  · rw [ofBytes_eq hcounts] at h
    split at h
    · next hlength =>
      obtain ⟨rfl, hbytes⟩ := cellBytes_of_ofList ht hlength (Checked.report_eq_ok_iff.1 h)
      exact toBytes_eq_ok_iff.2 ⟨hcounts.bytes, hbytes.symm⟩
    · cases h
  · rw [ofBytes, bytesFor_eq_overflow hcounts] at h
    cases h

theorem ElementBytes.encode_of_decode {c : ElementBytes} {t : DataType} (ht : t ≠ .bool)
    {shape : Shape} {bs : Bytes} {a : NdArray t.Element} (h : c.decode t shape bs = .ok a) :
    c.encode a = .ok bs := by
  rw [decode] at h
  rw [encode]
  split at h
  · exact Checked.guarded_eq_ok_iff.2 (NdArray.toBytes_of_ofBytes ht h)
  · cases h

namespace Transpose

open NdArray

variable {α : Type} [Inhabited α]

theorem encode_of_decode {c : Transpose} {rank : Nat} (hc : IsAxisOrder rank c.order)
    {a b : NdArray α} (h : c.decode b = .ok a) : c.encode a = .ok b := by
  -- Decoding is encoding by the inverse order, which the order itself undoes.
  rw [decode_eq hc] at h
  have hinverse : IsAxisOrder b.rank (inverse c.order) := isAxisOrder_of_permuteAxes h
  obtain ⟨a', ha', -, hback⟩ := decode_encode (c := ⟨inverse c.order⟩) hinverse
  obtain rfl : a' = a := Except.ok.inj (ha'.symm.trans h)
  rwa [decode_eq (c := ⟨inverse c.order⟩) hinverse, inverse_inverse hc] at hback

theorem foldlM_encode_of_decode {transposes : List Transpose} {rank : Nat}
    (h : ∀ c ∈ transposes, IsAxisOrder rank c.order) {a b : NdArray α}
    (hdecode : transposes.reverse.foldlM (fun a c => c.decode a) b = .ok a) :
    transposes.foldlM (fun a c => c.encode a) a = .ok b :=
  Outcome.foldlM_eq_ok_of_reverse (fun c hc _ _ => encode_of_decode (h c hc)) hdecode

end Transpose

/-! ### Chains -/

namespace CodecChain

variable {chain : CodecChain} {t : DataType}

theorem encode_of_decode {shape : Shape}
    (horder : ∀ c ∈ chain.transposes, NdArray.IsAxisOrder shape.length c.order)
    (hbytes : ∀ c ∈ chain.onBytes, c.Strict) (ht : t ≠ .bool) {bs : Bytes} {chunk : NdArray t.Element}
    (h : chain.decode ⟨true⟩ t shape bs = .ok chunk) :
    chunk.shape = shape ∧ chain.encode chunk = .ok bs := by
  simp only [decode, Outcome.bind_eq_ok_iff, Checked.report_eq_ok_iff, Checked.guarded_eq_ok_iff] at h
  obtain ⟨elements, helements, encodedShape, -, transposed, htransposed, chunk', hchunk, h⟩ := h
  split at h
  · next hshape =>
    obtain rfl := Except.ok.inj h
    have htranspose := Transpose.foldlM_encode_of_decode horder hchunk
    have hencode := ElementBytes.encode_of_decode ht htransposed
    have hchecked := ByteCodec.foldlM_encode_of_decode hbytes helements
    refine ⟨hshape, ?_⟩
    rw [encode, htranspose, Checked.guarded_ok, Outcome.ok_bind, hencode, Outcome.ok_bind, hchecked,
      Checked.report_ok]
  · cases h

end CodecChain

end ChunkedArray
