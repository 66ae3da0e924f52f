import ChunkedArray.Proofs.Codec.Strict

/-!
# What validation of a chain decides

A chain of built-in codecs is valid for a type and a rank exactly if it encodes the arrays of them.
For a valid chain the shapes that are computed beside a chunk are those of the chunk, so decoding ends
in few ways: with a chunk of the shape that is asked for, with an error of a codec on bytes, because
the bytes that these give back are not as many as the elements take, or because no array in memory
has the shape.
-/

namespace ChunkedArray

/-! ### Transpositions -/

namespace Transpose

open NdArray

variable {α : Type} [Inhabited α]

/-- Transpositions that reorder an array one after the other all order as many axes as it has. -/
theorem isAxisOrder_of_foldlM_encode {transposes : List Transpose} {a b : NdArray α}
    (h : transposes.foldlM (fun a c => c.encode a) a = .ok b) :
    ∀ c ∈ transposes, IsAxisOrder a.rank c.order := by
  induction transposes generalizing a with
  | nil => exact fun _ hc => absurd hc List.not_mem_nil
  | cons c transposes ih =>
    rw [List.foldlM_cons] at h
    obtain ⟨first, hfirst, hrest⟩ := Outcome.bind_eq_ok_iff.1 h
    have horder : IsAxisOrder a.rank c.order := isAxisOrder_of_permuteAxes hfirst
    obtain ⟨first', hfirst', hrank⟩ := CodecChain.rank_permuteAxes horder a rfl
    obtain rfl := Except.ok.inj (hfirst'.symm.trans hfirst)
    exact List.forall_mem_cons.2 ⟨horder, hrank ▸ ih hrest⟩

/-- The shape that transpositions make of another is taken back to it when they are undone. -/
theorem exists_encodedShape {transposes : List Transpose} {shape : Shape}
    (h : ∀ c ∈ transposes, IsAxisOrder shape.length c.order) :
    ∃ s : Shape, transposes.foldlM (fun s c => c.encodedShape s) shape = .ok s ∧ s.Perm shape ∧
      ∀ a : NdArray α, a.shape = s →
        ∃ b, transposes.reverse.foldlM (fun a c => c.decode a) a = .ok b ∧ b.shape = shape := by
  -- The first transposition is undone last, on an array of the shape that it makes.
  induction transposes generalizing shape with
  | nil => exact ⟨shape, rfl, .refl _, fun a ha => ⟨a, rfl, ha⟩⟩
  | cons c transposes ih =>
    rw [List.forall_mem_cons] at h
    have hlength : (gather c.order shape).length = shape.length := length_gather h.1 shape
    have hlater : ∀ d ∈ transposes, IsAxisOrder (gather c.order shape).length d.order :=
      fun d hd => hlength ▸ h.2 d hd
    obtain ⟨s, hs, hperm, hback⟩ := ih hlater
    refine ⟨s, ?_, hperm.trans (gather_perm h.1), fun a ha => ?_⟩
    · rw [List.foldlM_cons, encodedShape_eq_ok h.1]
      exact hs
    · obtain ⟨b, hb, hbshape⟩ := hback a ha
      have hrank : b.rank = shape.length := (congrArg List.length hbshape).trans hlength
      obtain ⟨d, hd, hdshape, -⟩ := permuteAxes_spec (a := b) (hrank ▸ isAxisOrder_inverse h.1)
      refine ⟨d, ?_, ?_⟩
      · rw [List.reverse_cons, List.foldlM_append, hb, Outcome.ok_bind, List.foldlM_cons,
          decode_eq h.1, hd]
        rfl
      · rw [hdshape, hbshape, gather_inverse_gather h.1 rfl]

end Transpose

/-! ### Elements -/

namespace ElementBytes

variable {c : ElementBytes} {t : DataType}

theorem validate_eq_ok_iff : c.validate t = .ok () ↔ ∃ e, t.validEndian c.endian = some e := by
  rw [validate, ← Option.isSome_iff_exists]
  split <;> simp_all

/-- Only with a byte order are there bytes. -/
theorem exists_encode_iff {a : NdArray t.Element} : (∃ bs, c.encode a = .ok bs) ↔
    c.validate t = .ok () ∧ a.shape.size * t.byteCount < wordLimit := by
  refine ⟨?_, fun h => exists_encode h.1 h.2⟩
  rintro ⟨bs, h⟩
  rw [encode] at h
  rw [validate_eq_ok_iff]
  split at h
  · next e hendian =>
    exact ⟨⟨e, hendian⟩, (NdArray.toBytes_eq_ok_iff.1 (Checked.guarded_eq_ok_iff.1 h)).1⟩
  · cases h

/-- The ways in which bytes are read as elements, if these have a byte order. -/
theorem decode_cases (h : c.validate t = .ok ()) (shape : Shape) (bs : Bytes) :
    (¬ t.CountsBytes shape ∧ c.decode t shape bs = .error (.violation .overflow)) ∨
    (bs.length ≠ shape.size * t.byteCount ∧ c.decode t shape bs =
      .error (.error (.lengthMismatch (shape.size * t.byteCount) bs.length))) ∨
    (bs.length = shape.size * t.byteCount ∧ ¬ shape.isAddressable ∧
      c.decode t shape bs = .error (.error .unaddressable)) ∨
    (bs.length = shape.size * t.byteCount ∧
      ∃ a : NdArray t.Element, c.decode t shape bs = .ok a ∧ a.shape = shape) := by
  obtain ⟨e, hendian⟩ := validate_eq_ok_iff.1 h
  have hdecode : c.decode t shape bs = NdArray.ofBytes t e shape bs := by
    rw [decode, hendian]
  rw [hdecode]
  by_cases hcounts : t.CountsBytes shape
  · rw [NdArray.ofBytes_eq hcounts]
    by_cases hlength : bs.length = shape.size * t.byteCount
    · have hcells : ((bs.groups t.byteCount).map (Element.ofBytes t e)).length = shape.size := by
        rw [List.length_map, Bytes.length_groups, hlength, Nat.mul_div_cancel _ t.byteCount_pos]
      rw [if_pos hlength, NdArray.ofList]
      by_cases hs : shape.isAddressable = true
      · rw [dif_pos hs, dif_pos hcells]
        exact .inr (.inr (.inr ⟨hlength, _, rfl, rfl⟩))
      · rw [dif_neg hs]
        exact .inr (.inr (.inl ⟨hlength, hs, rfl⟩))
    · rw [if_neg hlength]
      exact .inr (.inl ⟨hlength, rfl⟩)
  · rw [NdArray.ofBytes, NdArray.bytesFor_eq_overflow hcounts]
    exact .inl ⟨hcounts, rfl⟩

end ElementBytes

/-! ### Codecs on bytes -/

/-- The errors of the built-in codecs on bytes. -/
inductive DecodeError.OnBytes : DecodeError → Prop where
  | decompress (e : Gzip.StreamError) : OnBytes (.decompress e)
  | checksumTruncated (length : Nat) : OnBytes (.checksumTruncated length)
  | checksumMismatch (stored computed : Nat) : OnBytes (.checksumMismatch stored computed)

namespace ByteCodec

theorem onBytes_of_decode {c : ByteCodec} (hc : ∀ custom, c ≠ .custom custom) {options : CodecOptions}
    {bs : Bytes} {e : DecodeError} (h : c.decode options bs = .error e) : e.OnBytes := by
  cases c with
  | crc32c =>
    have hchecksum : takeChecksum options.validateChecksums bs = .error e := h
    rw [takeChecksum] at hchecksum
    split at hchecksum
    · cases hchecksum
      exact .checksumTruncated _
    · simp only at hchecksum
      split at hchecksum
      · cases hchecksum
        exact .checksumMismatch _ _
      · cases hchecksum
  | gzip level =>
    have hgzip : (Gzip.decompress bs).mapError .decompress = .error e := h
    cases hstream : Gzip.decompress bs with
    | ok out => rw [hstream] at hgzip; cases hgzip
    | error e' =>
      rw [hstream] at hgzip
      cases hgzip
      exact .decompress e'
  | custom custom => exact absurd rfl (hc custom)

theorem onBytes_of_foldlM_decode {codecs : List ByteCodec}
    (hcodecs : ∀ custom, .custom custom ∉ codecs) {options : CodecOptions} {bs : Bytes}
    {e : DecodeError} (h : codecs.foldlM (fun bs c => c.decode options bs) bs = .error e) :
    e.OnBytes := by
  obtain ⟨before, c, after, _, rfl, -, hc⟩ := Outcome.foldlM_eq_error_iff.1 h
  refine onBytes_of_decode (fun custom he => hcodecs custom ?_) hc
  exact he ▸ List.mem_append_right _ List.mem_cons_self

theorem validate_of_builtIn {c : ByteCodec} (hc : ∀ custom, c ≠ .custom custom) (t : DataType) :
    c.validate t = .ok () := by
  cases c with
  | crc32c => rfl
  | gzip level => rfl
  | custom custom => exact absurd rfl (hc custom)

end ByteCodec

/-! ### Chains -/

namespace CodecChain

variable {chain : CodecChain} {t : DataType} {rank : Nat}

theorem validate_eq_ok_iff (hbuiltIn : ∀ custom, .custom custom ∉ chain.onBytes) :
    chain.validate t rank = .ok () ↔
      (∀ c ∈ chain.transposes, NdArray.IsAxisOrder rank c.order) ∧
        chain.elementBytes.validate t = .ok () := by
  have honBytes : chain.onBytes.forM (·.validate t) = .ok () := by
    refine Outcome.forM_eq_ok_iff.2 fun c hc => ByteCodec.validate_of_builtIn ?_ t
    exact fun custom he => hbuiltIn custom (he ▸ hc)
  simp only [validate, Outcome.check_bind_eq_ok_iff, Outcome.forM_eq_ok_iff.trans
    (forall₂_congr fun _ _ => Transpose.validateFor_eq_ok_iff), honBytes, and_true]

/-- Of all arrays of a type and a rank that memory has room for, a chain encodes every one or none. -/
theorem exists_encode_iff (hbuiltIn : ∀ custom, .custom custom ∉ chain.onBytes)
    (a : NdArray t.Element) : (∃ bs, chain.encode a = .ok bs) ↔
      chain.validate t a.rank = .ok () ∧ a.shape.size * t.byteCount < wordLimit := by
  rw [validate_eq_ok_iff hbuiltIn]
  constructor
  · rintro ⟨bs, h⟩
    simp only [encode, Outcome.bind_eq_ok_iff, Checked.report_eq_ok_iff,
      Checked.guarded_eq_ok_iff] at h
    obtain ⟨transposed, htransposed, elements, helements, -⟩ := h
    obtain ⟨hvalid, hwords⟩ := ElementBytes.exists_encode_iff.1 ⟨elements, helements⟩
    rw [Transpose.size_of_foldlM_encode htransposed] at hwords
    exact ⟨⟨Transpose.isAxisOrder_of_foldlM_encode htransposed, hvalid⟩, hwords⟩
  · rintro ⟨⟨horder, helements⟩, hwords⟩
    exact exists_encode horder helements hwords fun custom hc => absurd hc (hbuiltIn custom)

/-- What the codecs on bytes give back of stored bytes. -/
def undone (chain : CodecChain) (options : CodecOptions) (bs : Bytes) : Except DecodeError Bytes :=
  chain.onBytes.reverse.foldlM (fun bs c => c.decode options bs) bs

/-- The ways in which decoding ends with a chain that is valid for the chunk. -/
inductive DecodesTo (chain : CodecChain) (options : CodecOptions) (t : DataType) (shape : Shape)
    (bs : Bytes) : Checked DecodeError (NdArray t.Element) → Prop where
  | chunk {inner : Bytes} {a : NdArray t.Element} : chain.undone options bs = .ok inner →
    inner.length = shape.size * t.byteCount → a.shape = shape →
    DecodesTo chain options t shape bs (.ok a)
  | onBytes {e : DecodeError} : chain.undone options bs = .error e → e.OnBytes →
    DecodesTo chain options t shape bs (.error (.error e))
  | length {inner : Bytes} : chain.undone options bs = .ok inner →
    inner.length ≠ shape.size * t.byteCount → DecodesTo chain options t shape bs
      (.error (.error (.lengthMismatch (shape.size * t.byteCount) inner.length)))
  /-- No array has this shape. -/
  | unaddressable {inner : Bytes} : chain.undone options bs = .ok inner →
    inner.length = shape.size * t.byteCount → ¬ shape.isAddressable →
    DecodesTo chain options t shape bs (.error (.error .unaddressable))
  /-- No array in memory has this shape either: the number of its bytes, as it is computed, is no
  word. -/
  | overflow {inner : Bytes} {s : Shape} : chain.undone options bs = .ok inner →
    chain.encodedShape shape = .ok s → ¬ t.CountsBytes s →
    DecodesTo chain options t shape bs (.error (.violation .overflow))

theorem decodesTo_of_validate (hbuiltIn : ∀ custom, .custom custom ∉ chain.onBytes) {shape : Shape}
    (hvalid : chain.validate t shape.length = .ok ()) (options : CodecOptions) (bs : Bytes) :
    chain.DecodesTo options t shape bs (chain.decode options t shape bs) := by
  obtain ⟨horder, helements⟩ := (validate_eq_ok_iff hbuiltIn).1 hvalid
  obtain ⟨s, hs, hperm, hback⟩ := Transpose.exists_encodedShape (α := t.Element) horder
  have hsize := Shape.size_perm hperm
  have hdecode : chain.decode options t shape bs =
      (Checked.report id (chain.undone options bs) >>= fun inner =>
        chain.elementBytes.decode t s inner >>= fun chunk =>
          Checked.guarded (chain.transposes.reverse.foldlM (fun a c => c.decode a) chunk) >>=
            fun chunk => if chunk.shape = shape then .ok chunk
              else Checked.fail (.shapeMismatch shape chunk.shape)) := by
    rw [decode, encodedShape, hs]
    rfl
  rw [hdecode]
  cases hundone : chain.undone options bs with
  | error e =>
    refine .onBytes hundone (ByteCodec.onBytes_of_foldlM_decode (fun custom hmem => ?_) hundone)
    exact hbuiltIn custom (List.mem_reverse.1 hmem)
  | ok inner =>
    rw [Checked.report_ok, Outcome.ok_bind]
    obtain ⟨hcounts, hread⟩ | ⟨hlength, hread⟩ | ⟨hlength, hroom, hread⟩ | ⟨hlength, a, hread, ha⟩ :=
      ElementBytes.decode_cases helements s inner
    · rw [hread]
      exact .overflow hundone hs hcounts
    · rw [hread, hsize]
      exact .length hundone (hsize ▸ hlength)
    · rw [hread]
      exact .unaddressable hundone (hsize ▸ hlength) (Shape.isAddressable_perm hperm ▸ hroom)
    · obtain ⟨b, hb, hbshape⟩ := hback a ha
      rw [hread, Outcome.ok_bind, hb, Checked.guarded_ok, Outcome.ok_bind, if_pos hbshape]
      exact .chunk hundone (hsize ▸ hlength) hbshape

/-- A chain is valid for a type and a rank exactly if it encodes their arrays, whose bytes memory holds,
and if it is valid decoding ends in few ways. -/
structure ValidatesExactly (chain : CodecChain) (t : DataType) (rank : Nat) : Prop where
  encodes_iff : ∀ a : NdArray t.Element, a.rank = rank →
    ((∃ bs, chain.encode a = .ok bs) ↔
      chain.validate t rank = .ok () ∧ a.shape.size * t.byteCount < wordLimit)
  decodesTo : chain.validate t rank = .ok () → ∀ (options : CodecOptions) (shape : Shape) (bs : Bytes),
    shape.length = rank → chain.DecodesTo options t shape bs (chain.decode options t shape bs)

theorem validatesExactly_of_builtIn (hbuiltIn : ∀ custom, .custom custom ∉ chain.onBytes)
    (t : DataType) (rank : Nat) : chain.ValidatesExactly t rank := by
  constructor
  · rintro a rfl
    exact exists_encode_iff hbuiltIn a
  · rintro hvalid options shape bs rfl
    exact decodesTo_of_validate hbuiltIn hvalid options bs

/-- Two transpositions, of which neither undoes the other, a byte order and both codecs on bytes. -/
theorem validatesExactly_of_builtIn_mixed :
    let chain : CodecChain := ⟨[⟨[1, 2, 0]⟩, ⟨[0, 2, 1]⟩], ⟨some .big⟩, [.crc32c, .gzip .default]⟩
    chain.validate (.float .bits16) 3 = .ok () ∧ chain.validate (.float .bits16) 2 ≠ .ok () ∧
      chain.ValidatesExactly (.float .bits16) 3 ∧ chain.ValidatesExactly (.float .bits16) 2 := by
  intro chain
  have hbuiltIn : ∀ custom, .custom custom ∉ chain.onBytes := by simp [chain]
  exact ⟨rfl, by decide, validatesExactly_of_builtIn hbuiltIn _ 3,
    validatesExactly_of_builtIn hbuiltIn _ 2⟩

/-- No bytes are as many as a shape without elements takes, but where the other lengths are beyond
any array they do not decode. -/
theorem decode_empty_unaddressable :
    default.validate (.uint .bits8) 3 = .ok () ∧
      default.decode ⟨true⟩ (.uint .bits8) [0, 0x7fffffffffffffff, 2] [] =
        .error (.error .unaddressable) := ⟨rfl, rfl⟩

example : default.decode ⟨true⟩ (.uint .bits8) [0x100000000, 0x100000000] [] =
    .error (.violation .overflow) := rfl

end CodecChain

end ChunkedArray
