import ChunkedArray.Codec.Custom
import ChunkedArray.Proofs.Gzip.Stored
import ChunkedArray.Proofs.NdArray.AxisOrder
import ChunkedArray.Proofs.Words

/-!
# Decoding undoes encoding

Every codec has its round trip, and those of a chain are put together from the inside out: the last
codec that encoded is the first that decodes.
-/

namespace ChunkedArray

/-! ### Codecs on bytes -/

/-- The codec gives back the bytes that it encoded, whatever the options. -/
def CustomCodec.Lossless (c : CustomCodec) : Prop :=
  ∀ options bs out, c.encode bs = .ok out → c.decode options out = .ok bs

/-- The codec refuses no bytes. -/
def CustomCodec.Encodes (c : CustomCodec) : Prop := ∀ bs, ∃ out, c.encode bs = .ok out

namespace ByteCodec

theorem checksumOf_lt (bs : Bytes) : checksumOf bs < Bytes.valueCount checksumLength :=
  BitVec.isLt _

theorem takeChecksum_appendChecksum (validate : Bool) (bs : Bytes) :
    takeChecksum validate (appendChecksum bs) = .ok bs := by
  have hlength : (appendChecksum bs).length = bs.length + checksumLength := by
    simp [appendChecksum]
  have htake : (appendChecksum bs).take bs.length = bs := List.take_left
  have hdrop : (appendChecksum bs).drop bs.length = Bytes.ofNatLE checksumLength (checksumOf bs) :=
    List.drop_left
  have hstored : Bytes.toNatLE (Bytes.ofNatLE checksumLength (checksumOf bs)) = checksumOf bs := by
    rw [Bytes.toNatLE_ofNatLE, Nat.mod_eq_of_lt (checksumOf_lt bs)]
  rw [takeChecksum, hlength, if_neg (by omega)]
  simp only [Nat.add_sub_cancel, htake, hdrop, hstored, bne_self_eq_false, Bool.and_false,
    Bool.false_eq_true, if_false]

/-- The codec gives back the bytes that it encoded, if it is not a custom one that does not. -/
theorem decode_encode {c : ByteCodec} (hc : ∀ custom, c = .custom custom → custom.Lossless)
    {bs out : Bytes} (h : c.encode bs = .ok out) (options : CodecOptions) :
    c.decode options out = .ok bs := by
  cases c with
  | crc32c =>
    obtain rfl := Except.ok.inj h
    exact takeChecksum_appendChecksum options.validateChecksums bs
  | gzip level =>
    obtain rfl := Except.ok.inj h
    rw [decode, Gzip.decompress_compress]
    rfl
  | custom custom => exact hc custom rfl options bs out h

theorem foldlM_decode_encode {codecs : List ByteCodec}
    (hcodecs : ∀ custom, .custom custom ∈ codecs → custom.Lossless) {bs out : Bytes}
    (h : codecs.foldlM (fun bs c => c.encode bs) bs = .ok out) (options : CodecOptions) :
    codecs.reverse.foldlM (fun bs c => c.decode options bs) out = .ok bs :=
  Outcome.foldlM_reverse_eq_ok
    (fun _ hc _ _ hencode => decode_encode (fun custom he => hcodecs custom (he ▸ hc)) hencode options) h

theorem exists_encode {c : ByteCodec} (hc : ∀ custom, c = .custom custom → custom.Encodes)
    (bs : Bytes) : ∃ out, c.encode bs = .ok out := by
  cases c with
  | crc32c => exact ⟨_, rfl⟩
  | gzip level => exact ⟨_, rfl⟩
  | custom custom => exact hc custom rfl bs

theorem foldlM_encode {codecs : List ByteCodec}
    (hcodecs : ∀ custom, .custom custom ∈ codecs → custom.Encodes) (bs : Bytes) :
    ∃ out, codecs.foldlM (fun bs c => c.encode bs) bs = .ok out := by
  have hstep : ∀ c ∈ codecs, ∀ bs, True → ∃ out, c.encode bs = .ok out ∧ True := by
    intro c hc bs _
    obtain ⟨out, hout⟩ := exists_encode (fun custom he => hcodecs custom (he ▸ hc)) bs
    exact ⟨out, hout, trivial⟩
  obtain ⟨out, hout, -⟩ := Outcome.exists_foldlM_eq_ok hstep (a := bs) trivial
  exact ⟨out, hout⟩

end ByteCodec

/-! ### Elements -/

namespace Bytes

theorem firstGroups_flatMap {α : Type} {n : Nat} {f : α → Bytes} (hf : ∀ x, (f x).length = n)
    (l : List α) : firstGroups n l.length (l.flatMap f) = l.map f := by
  induction l with
  | nil => rfl
  | cons x l ih =>
    have htake : ((x :: l).flatMap f).take n = f x := by
      rw [List.flatMap_cons, ← hf x, List.take_left]
    have hdrop : ((x :: l).flatMap f).drop n = l.flatMap f := by
      rw [List.flatMap_cons, ← hf x, List.drop_left]
    rw [List.length_cons, firstGroups, htake, hdrop, ih]
    rfl

theorem length_flatMap_of_length {α : Type} {n : Nat} {f : α → Bytes} (hf : ∀ x, (f x).length = n)
    (l : List α) : (l.flatMap f).length = l.length * n := by
  induction l with
  | nil => simp
  | cons x l ih => rw [List.flatMap_cons, List.length_append, ih, hf, List.length_cons, Nat.succ_mul,
      Nat.add_comm]

end Bytes

namespace NdArray

variable {t : DataType}

theorem length_cells {α : Type} (a : NdArray α) : a.cells.length = a.shape.size := by
  rw [cells, Array.length_toList, a.size_data]

theorem length_cellBytes (e : Endian) (a : NdArray t.Element) :
    (a.cellBytes e).length = a.shape.size * t.byteCount := by
  rw [cellBytes, Bytes.length_flatMap_of_length (Element.length_toBytes e), length_cells]

theorem toBytes_eq_ok_iff {e : Endian} {a : NdArray t.Element} {bs : Bytes} :
    a.toBytes e = .ok bs ↔ a.shape.size * t.byteCount < wordLimit ∧ bs = a.cellBytes e := by
  simp only [toBytes, Outcome.bind_eq_ok_iff, Word.mul_eq_ok_iff, Outcome.pure_eq_ok,
    Except.ok.injEq]
  constructor
  · rintro ⟨_, ⟨hwords, -⟩, rfl⟩
    exact ⟨hwords, rfl⟩
  · rintro ⟨hwords, rfl⟩
    exact ⟨_, ⟨hwords, rfl⟩, rfl⟩

theorem onlyOverflows_toBytes (e : Endian) (a : NdArray t.Element) :
    Word.OnlyOverflows (a.toBytes e) :=
  (Word.onlyOverflows_mul _ _).bind fun _ => Word.onlyOverflows_ok _

end NdArray

/-- Every product that is formed to count the bytes of the elements of this shape is a word. -/
structure DataType.CountsBytes (t : DataType) (shape : Shape) : Prop where
  cells : Word.Multiplies shape
  bytes : shape.size * t.byteCount < wordLimit

namespace NdArray

variable {t : DataType}

theorem bytesFor_eq_ok_iff {shape : Shape} {n : Nat} :
    bytesFor t shape = .ok n ↔ t.CountsBytes shape ∧ n = shape.size * t.byteCount := by
  simp only [bytesFor, Outcome.bind_eq_ok_iff, Word.product_eq_ok_iff, Word.mul_eq_ok_iff]
  constructor
  · rintro ⟨_, ⟨hcells, rfl⟩, hbytes, rfl⟩
    exact ⟨⟨hcells, hbytes⟩, rfl⟩
  · rintro ⟨⟨hcells, hbytes⟩, rfl⟩
    exact ⟨_, ⟨hcells, rfl⟩, hbytes, rfl⟩

theorem bytesFor_eq_overflow {shape : Shape} (h : ¬ t.CountsBytes shape) :
    bytesFor t shape = .error .overflow := by
  have honly : Word.OnlyOverflows (bytesFor t shape) :=
    (Word.onlyOverflows_product shape).bind fun _ => Word.onlyOverflows_mul _ _
  exact honly.eq_overflow fun n hn => h (bytesFor_eq_ok_iff.1 hn).1

/-- Where the bytes are counted, what is read depends on their number. -/
theorem ofBytes_eq {shape : Shape} (h : t.CountsBytes shape) (e : Endian) (bs : Bytes) :
    ofBytes t e shape bs =
      if bs.length = shape.size * t.byteCount then
        Checked.report (fun _ => .unaddressable)
          (ofList shape ((bs.groups t.byteCount).map (Element.ofBytes t e)))
      else Checked.fail (.lengthMismatch (shape.size * t.byteCount) bs.length) := by
  rw [ofBytes, bytesFor_eq_ok_iff.2 ⟨h, rfl⟩]
  rfl

theorem ofBytes_cellBytes (e : Endian) {a : NdArray t.Element}
    (hwords : a.shape.size * t.byteCount < wordLimit) :
    ofBytes t e a.shape (a.cellBytes e) = .ok a := by
  have hcounts : t.CountsBytes a.shape :=
    ⟨Word.multiplies_of_isAddressable a.isAddressable_shape, hwords⟩
  have hgroups : (a.cellBytes e).groups t.byteCount = a.cells.map (Element.toBytes e) := by
    rw [Bytes.groups, length_cellBytes, Nat.mul_div_cancel _ t.byteCount_pos, ← length_cells,
      cellBytes, Bytes.firstGroups_flatMap (Element.length_toBytes e)]
  have hcells : ((a.cellBytes e).groups t.byteCount).map (Element.ofBytes t e) = a.cells := by
    rw [hgroups, List.map_map]
    exact (List.map_congr_left fun x _ => Element.ofBytes_toBytes e x).trans (List.map_id _)
  rw [ofBytes_eq hcounts, if_pos (length_cellBytes e a), hcells, ofList,
    dif_pos a.isAddressable_shape, dif_pos (length_cells a)]
  simp only [cells, Array.toArray_toList, Checked.report_ok]

end NdArray

theorem ElementBytes.decode_encode {c : ElementBytes} {t : DataType} {a : NdArray t.Element}
    {bs : Bytes} (h : c.encode a = .ok bs) : c.decode t a.shape bs = .ok a := by
  rw [encode] at h
  rw [decode]
  split at h
  · next e _ =>
    obtain ⟨hwords, rfl⟩ := NdArray.toBytes_eq_ok_iff.1 (Checked.guarded_eq_ok_iff.1 h)
    exact NdArray.ofBytes_cellBytes e hwords
  · cases h

theorem ElementBytes.exists_encode {c : ElementBytes} {t : DataType} (h : c.validate t = .ok ())
    {a : NdArray t.Element} (hwords : a.shape.size * t.byteCount < wordLimit) :
    ∃ bs, c.encode a = .ok bs := by
  unfold validate at h
  unfold encode
  cases hendian : t.validEndian c.endian with
  | some e =>
    exact ⟨_, Checked.guarded_eq_ok_iff.2 (NdArray.toBytes_eq_ok_iff.2 ⟨hwords, rfl⟩)⟩
  | none =>
    rw [hendian] at h
    cases h

/-! ### Transpositions -/

theorem Shape.size_perm {s shape : Shape} (h : s.Perm shape) : s.size = shape.size := by
  induction h with
  | nil => rfl
  | cons n _ ih => rw [size, size, ih]
  | swap m n s => simp only [size, Nat.mul_left_comm]
  | trans _ _ ih₁ ih₂ => exact ih₁.trans ih₂

namespace Transpose

open NdArray

variable {α : Type} [Inhabited α] {a b : NdArray α}

theorem isAxisOrder_of_permuteAxes {order : List Nat} (h : a.permuteAxes order = .ok b) :
    IsAxisOrder a.rank order := by
  unfold permuteAxes at h
  split at h
  · assumption
  · cases h

theorem size_of_encode {c : Transpose} (h : c.encode a = .ok b) : b.shape.size = a.shape.size := by
  have horder : IsAxisOrder a.rank c.order := isAxisOrder_of_permuteAxes h
  obtain ⟨b', hb', hshape, -⟩ := permuteAxes_spec horder
  obtain rfl : b' = b := Except.ok.inj (hb'.symm.trans h)
  rw [hshape, Shape.size_perm (gather_perm horder)]

theorem size_of_foldlM_encode {transposes : List Transpose}
    (h : transposes.foldlM (fun a c => c.encode a) a = .ok b) : b.shape.size = a.shape.size := by
  induction transposes generalizing a with
  | nil =>
    obtain rfl := Except.ok.inj h
    rfl
  | cons c transposes ih =>
    rw [List.foldlM_cons, Outcome.bind_eq_ok_iff] at h
    obtain ⟨first, hfirst, hrest⟩ := h
    rw [ih hrest, size_of_encode hfirst]

end Transpose

/-! ### Chains -/

namespace CodecChain

/-- The transpositions of a chain are undone in the opposite order, and the shape computed beside
them is that of what they make. -/
theorem transposes_spec {α : Type} [Inhabited α] {transposes : List Transpose} {a : NdArray α}
    (h : ∀ c ∈ transposes, NdArray.IsAxisOrder a.rank c.order) :
    ∃ b, transposes.foldlM (fun a c => c.encode a) a = .ok b ∧
      transposes.foldlM (fun s c => c.encodedShape s) a.shape = .ok b.shape ∧
      transposes.reverse.foldlM (fun a c => c.decode a) b = .ok a := by
  -- The first transposition is undone last, on what undoing the others gives.
  induction transposes generalizing a with
  | nil => exact ⟨a, rfl, rfl, rfl⟩
  | cons c transposes ih =>
    rw [List.forall_mem_cons] at h
    obtain ⟨b, hencode, hshape, hdecode⟩ := Transpose.decode_encode h.1
    have hrank : b.rank = a.rank := by
      rw [NdArray.rank, hshape, Transpose.length_gather h.1]
    obtain ⟨d, hall, hallShape, hback⟩ := ih (a := b) fun c hc => hrank ▸ h.2 c hc
    refine ⟨d, ?_, ?_, ?_⟩
    · rw [List.foldlM_cons, hencode]
      exact hall
    · rw [List.foldlM_cons, Transpose.encodedShape_eq_ok h.1, ← hshape]
      exact hallShape
    · rw [List.reverse_cons, List.foldlM_append, hback, Outcome.ok_bind, List.foldlM_cons, hdecode]
      rfl

theorem isAxisOrder_of_validate {chain : CodecChain} {t : DataType} {rank : Nat}
    (h : chain.validate t rank = .ok ()) :
    ∀ c ∈ chain.transposes, NdArray.IsAxisOrder rank c.order := by
  simp only [validate, Outcome.check_bind_eq_ok_iff] at h
  exact fun c hc => Transpose.validateFor_eq_ok_iff.1 (Outcome.forM_eq_ok_iff.1 h.1 c hc)

theorem elementBytes_of_validate {chain : CodecChain} {t : DataType} {rank : Nat}
    (h : chain.validate t rank = .ok ()) : chain.elementBytes.validate t = .ok () := by
  simp only [validate, Outcome.check_bind_eq_ok_iff] at h
  exact h.2.1

/-- A chain encodes every chunk whose axes its transpositions order, if the elements have a byte order,
their bytes are counted in a word and no custom codec refuses. -/
theorem exists_encode {chain : CodecChain} {t : DataType} {chunk : NdArray t.Element}
    (horder : ∀ c ∈ chain.transposes, NdArray.IsAxisOrder chunk.rank c.order)
    (helements : chain.elementBytes.validate t = .ok ())
    (hwords : chunk.shape.size * t.byteCount < wordLimit)
    (hcustom : ∀ c, .custom c ∈ chain.onBytes → c.Encodes) :
    ∃ bs, chain.encode chunk = .ok bs := by
  obtain ⟨transposed, htransposed, -⟩ := transposes_spec horder
  rw [← Transpose.size_of_foldlM_encode htransposed] at hwords
  obtain ⟨elements, helements⟩ := ElementBytes.exists_encode helements hwords
  obtain ⟨bs, hbytes⟩ := ByteCodec.foldlM_encode hcustom elements
  exact ⟨bs, by simp [encode, htransposed, helements, hbytes]⟩

/-- The bytes of an encoded chunk are counted in a word. -/
theorem lt_of_encode {chain : CodecChain} {t : DataType} {chunk : NdArray t.Element} {bs : Bytes}
    (h : chain.encode chunk = .ok bs) : chunk.shape.size * t.byteCount < wordLimit := by
  simp only [encode, Outcome.bind_eq_ok_iff, Checked.guarded_eq_ok_iff] at h
  obtain ⟨transposed, htransposed, elements, helements, -⟩ := h
  rw [← Transpose.size_of_foldlM_encode htransposed]
  rw [ElementBytes.encode] at helements
  split at helements
  · exact (NdArray.toBytes_eq_ok_iff.1 (Checked.guarded_eq_ok_iff.1 helements)).1
  · cases helements

/-- What a chain encodes it decodes, if its transpositions order the axes of the chunk. -/
theorem decode_encode {chain : CodecChain} {t : DataType} {chunk : NdArray t.Element} {bs : Bytes}
    (horder : ∀ c ∈ chain.transposes, NdArray.IsAxisOrder chunk.rank c.order)
    (hcustom : ∀ c, .custom c ∈ chain.onBytes → c.Lossless)
    (hencode : chain.encode chunk = .ok bs) (options : CodecOptions) :
    chain.decode options t chunk.shape bs = .ok chunk := by
  obtain ⟨transposed, htransposed, hshape, hback⟩ := transposes_spec horder
  simp only [encode, htransposed, Checked.guarded_ok, Outcome.ok_bind, Outcome.bind_eq_ok_iff,
    Checked.report_eq_ok_iff] at hencode
  obtain ⟨elements, helements, hbytes⟩ := hencode
  have hundone := ByteCodec.foldlM_decode_encode hcustom hbytes options
  rw [decode, hundone, Checked.report_ok, Outcome.ok_bind, encodedShape, hshape, Checked.guarded_ok,
    Outcome.ok_bind, ElementBytes.decode_encode helements, Outcome.ok_bind, hback,
    Checked.guarded_ok, Outcome.ok_bind, if_pos rfl]
  rfl

/-- What a validated chain encodes it decodes to the same array, bit for bit, with checksums compared
or not, if its custom codecs are lossless. -/
theorem decode_encode_of_validate {chain : CodecChain} {t : DataType} {rank : Nat}
    {chunk : NdArray t.Element} {bs : Bytes} (hvalid : chain.validate t rank = .ok ())
    (hcustom : ∀ c, .custom c ∈ chain.onBytes → c.Lossless) (hrank : chunk.rank = rank)
    (hencode : chain.encode chunk = .ok bs) (options : CodecOptions) :
    chain.decode options t chunk.shape bs = .ok chunk :=
  decode_encode (fun c hc => hrank ▸ isAxisOrder_of_validate hvalid c hc) hcustom hencode options

end CodecChain

theorem CustomCodec.lossless_mask (key : UInt8) : (mask key).Lossless := by
  intro options bs out h
  obtain rfl := Except.ok.inj h
  have hmap : (bs.map (· ^^^ key)).map (· ^^^ key) = bs := by
    rw [List.map_map]
    refine (List.map_congr_left fun b _ => ?_).trans (List.map_id bs)
    show b ^^^ key ^^^ key = b
    rw [UInt8.xor_assoc, UInt8.xor_self, UInt8.xor_zero]
  exact congrArg Except.ok hmap

theorem CustomCodec.encodes_mask (key : UInt8) : (mask key).Encodes := fun _ => ⟨_, rfl⟩

/-- Two transpositions, of which neither undoes the other, and every kind of codec on bytes. -/
theorem CodecChain.decode_encode_of_validate_mixed :
    let chain : CodecChain := ⟨[⟨[1, 2, 0]⟩, ⟨[0, 2, 1]⟩], ⟨some .big⟩,
      [.crc32c, .custom (.mask 0x5a), .gzip .default]⟩
    let chunk : NdArray (DataType.float .bits16).Element :=
      .ofFn [2, 1, 3] rfl fun i => DataType.ofPattern _ (0x7e00 + 3 * i.headD 0 + i.getLastD 0)
    ∃ bs, chain.encode chunk = .ok bs ∧
      ∀ options, chain.decode options (.float .bits16) [2, 1, 3] bs = .ok chunk := by
  intro chain chunk
  have hcustom : ∀ c, .custom c ∈ chain.onBytes → c.Lossless := by
    intro c hc
    simp only [chain, List.mem_cons, List.not_mem_nil, reduceCtorEq, or_false, false_or,
      ByteCodec.custom.injEq] at hc
    exact hc ▸ CustomCodec.lossless_mask _
  have hvalid : chain.validate (.float .bits16) 3 = .ok () := rfl
  have hrank : chunk.rank = 3 := rfl
  exact ⟨_, rfl, decode_encode_of_validate hvalid hcustom hrank rfl⟩

end ChunkedArray
