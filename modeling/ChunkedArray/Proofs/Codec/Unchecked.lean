import ChunkedArray.Proofs.Codec.Validity

/-!
# Decoding without comparing checksums

Two runs over the same codecs, one that compares stored checksums and one that only takes them off,
see the same bytes until the first reports a mismatch. So a chunk that decodes, and every error but
a mismatch, is the same in both.
-/

namespace ChunkedArray

/-! ### Codecs on bytes -/

/-- The error says that a stored checksum is not the one of the bytes. -/
def DecodeError.IsMismatch (e : DecodeError) : Prop :=
  ∃ stored computed, e = .checksumMismatch stored computed

/-- The codec decodes in the same way whatever the options. -/
def CustomCodec.IgnoresOptions (c : CustomCodec) : Prop :=
  ∀ options options' bs, c.decode options bs = c.decode options' bs

namespace ByteCodec

theorem takeChecksum_eq_or_error (bs : Bytes) :
    takeChecksum false bs = takeChecksum true bs ∨
      ∃ e, takeChecksum true bs = .error e ∧ e.IsMismatch := by
  simp only [takeChecksum, Bool.false_and, Bool.true_and, Bool.false_eq_true, if_false, bne_iff_ne,
    ne_eq, ite_not]
  by_cases hshort : bs.length < checksumLength
  · simp only [if_pos hshort, true_or]
  · simp only [if_neg hshort]
    split
    · exact .inl rfl
    · exact .inr ⟨_, rfl, _, _, rfl⟩

theorem decode_eq_or_error {c : ByteCodec}
    (hcustom : ∀ custom, c = .custom custom → custom.IgnoresOptions) (bs : Bytes) :
    c.decode ⟨false⟩ bs = c.decode ⟨true⟩ bs ∨
      ∃ e, c.decode ⟨true⟩ bs = .error e ∧ e.IsMismatch := by
  cases c with
  | crc32c => exact takeChecksum_eq_or_error bs
  | gzip level => exact .inl rfl
  | custom custom => exact .inl (hcustom custom rfl ⟨false⟩ ⟨true⟩ bs)

theorem takeChecksum_false_ne {bs : Bytes} {e : DecodeError} (he : e.IsMismatch) :
    takeChecksum false bs ≠ .error e := by
  obtain ⟨stored, computed, rfl⟩ := he
  rw [takeChecksum]
  split <;> simp

/-- Where checksums are not compared only a custom codec may report a mismatch. -/
theorem eq_custom_of_decode {c : ByteCodec} {bs : Bytes} {e : DecodeError} (he : e.IsMismatch)
    (h : c.decode ⟨false⟩ bs = .error e) : ∃ custom, c = .custom custom := by
  cases c with
  | crc32c => exact absurd h (takeChecksum_false_ne he)
  | gzip level =>
    obtain ⟨stored, computed, rfl⟩ := he
    cases hstream : Gzip.decompress bs with
    | ok out => rw [decode, hstream] at h; cases h
    | error e => rw [decode, hstream] at h; cases h
  | custom custom => exact ⟨custom, rfl⟩

end ByteCodec

theorem ElementBytes.decode_ne {c : ElementBytes} {t : DataType} {shape : Shape} {bs : Bytes}
    {e : DecodeError} (he : e.IsMismatch) : c.decode t shape bs ≠ .error (.error e) := by
  obtain ⟨stored, computed, rfl⟩ := he
  intro h
  rw [decode] at h
  split at h
  · rw [NdArray.ofBytes, Outcome.bind_eq_error_iff] at h
    obtain h | ⟨expected, -, h⟩ := h
    · exact Checked.guarded_ne_error _ _ h
    · split at h
      · simp only [Checked.report] at h
        split at h <;> cases h
      · cases h
  · cases h

/-! ### Chains -/

namespace CodecChain

variable {chain : CodecChain} {t : DataType} {shape : Shape}

/-- The chunk that is made of the bytes that the codecs on bytes give back. -/
def chunkOf (chain : CodecChain) (t : DataType) (shape : Shape) (inner : Bytes) :
    Checked DecodeError (NdArray t.Element) := do
  let encodedShape ← Checked.guarded (chain.encodedShape shape)
  let chunk ← chain.elementBytes.decode t encodedShape inner
  let chunk ← Checked.guarded (chain.transposes.reverse.foldlM (fun a c => c.decode a) chunk)
  if chunk.shape = shape then return chunk
  else Checked.fail (.shapeMismatch shape chunk.shape)

theorem decode_eq_bind (options : CodecOptions) (bs : Bytes) :
    chain.decode options t shape bs =
      (Checked.report id (chain.undone options bs) >>= chain.chunkOf t shape) := rfl

theorem undone_eq_or_error (hcustom : ∀ c, .custom c ∈ chain.onBytes → c.IgnoresOptions)
    (bs : Bytes) :
    chain.undone ⟨false⟩ bs = chain.undone ⟨true⟩ bs ∨
      ∃ e, chain.undone ⟨true⟩ bs = .error e ∧ e.IsMismatch := by
  refine Outcome.foldlM_eq_or_error (fun c hc bs => ?_) bs
  refine ByteCodec.decode_eq_or_error (fun custom he => hcustom custom ?_) bs
  exact he ▸ List.mem_reverse.1 hc

theorem decode_eq_or_error (hcustom : ∀ c, .custom c ∈ chain.onBytes → c.IgnoresOptions)
    (bs : Bytes) :
    chain.decode ⟨false⟩ t shape bs = chain.decode ⟨true⟩ t shape bs ∨
      ∃ e, chain.decode ⟨true⟩ t shape bs = .error (.error e) ∧ e.IsMismatch := by
  rw [decode_eq_bind, decode_eq_bind]
  obtain hsame | ⟨e, he, hmismatch⟩ := undone_eq_or_error hcustom bs
  · exact .inl (by rw [hsame])
  · exact .inr ⟨e, by rw [he]; rfl, hmismatch⟩

/-- Past the codecs on bytes there is no checksum left to report on. -/
theorem chunkOf_ne {e : DecodeError} (he : e.IsMismatch) (inner : Bytes) :
    chain.chunkOf t shape inner ≠ .error (.error e) := by
  intro h
  simp only [chunkOf, Outcome.bind_eq_error_iff, Checked.guarded_ne_error, false_or] at h
  obtain ⟨s, -, h | ⟨a, -, b, -, h⟩⟩ := h
  · exact ElementBytes.decode_ne he h
  · obtain ⟨stored, computed, rfl⟩ := he
    split at h <;> cases h

theorem exists_custom_of_undone {bs : Bytes} {e : DecodeError} (he : e.IsMismatch)
    (h : chain.undone ⟨false⟩ bs = .error e) :
    ∃ c inner, .custom c ∈ chain.onBytes ∧ c.decode ⟨false⟩ inner = .error e := by
  obtain ⟨before, c, after, inner, hsplit, -, hc⟩ := Outcome.foldlM_eq_error_iff.1 h
  obtain ⟨custom, rfl⟩ := ByteCodec.eq_custom_of_decode he hc
  refine ⟨custom, inner, List.mem_reverse.1 ?_, hc⟩
  exact hsplit ▸ List.mem_append_right _ List.mem_cons_self

/-- What it changes for a chain that stored checksums are no longer compared. -/
structure OnlyLosesMismatches (chain : CodecChain) (t : DataType) (shape : Shape) : Prop where
  /-- All but a mismatch stays as it is. -/
  decode_eq : ∀ bs : Bytes,
    (∀ stored computed,
      chain.decode ⟨true⟩ t shape bs ≠ .error (.error (.checksumMismatch stored computed))) →
    chain.decode ⟨false⟩ t shape bs = chain.decode ⟨true⟩ t shape bs
  decode_eq_ok : ∀ bs (chunk : NdArray t.Element), chain.decode ⟨true⟩ t shape bs = .ok chunk →
    chain.decode ⟨false⟩ t shape bs = .ok chunk
  /-- No mismatch is left, unless a custom codec reports it. -/
  custom_of_mismatch : ∀ (bs : Bytes) stored computed,
    chain.decode ⟨false⟩ t shape bs = .error (.error (.checksumMismatch stored computed)) →
    ∃ c inner, .custom c ∈ chain.onBytes ∧
      c.decode ⟨false⟩ inner = .error (.checksumMismatch stored computed)

theorem onlyLosesMismatches (hcustom : ∀ c, .custom c ∈ chain.onBytes → c.IgnoresOptions)
    (t : DataType) (shape : Shape) : chain.OnlyLosesMismatches t shape := by
  have heq (bs : Bytes) (hne : ∀ stored computed,
      chain.decode ⟨true⟩ t shape bs ≠ .error (.error (.checksumMismatch stored computed))) :
      chain.decode ⟨false⟩ t shape bs = chain.decode ⟨true⟩ t shape bs := by
    obtain hsame | ⟨_, he, stored, computed, rfl⟩ := decode_eq_or_error hcustom bs
    · exact hsame
    · exact absurd he (hne stored computed)
  constructor
  · exact heq
  · intro bs chunk h
    rw [← h]
    exact heq bs fun _ _ hmismatch => by cases h.symm.trans hmismatch
  · intro bs stored computed h
    have hmismatch : (DecodeError.checksumMismatch stored computed).IsMismatch := ⟨_, _, rfl⟩
    rw [decode_eq_bind, Outcome.bind_eq_error_iff, Checked.report_eq_error_iff] at h
    obtain h | ⟨inner, -, h⟩ := h
    · exact exists_custom_of_undone hmismatch h
    · exact absurd h (chunkOf_ne hmismatch inner)

/-- Checksums inside and outside of a compressor and a mask. Bytes too few for a checksum are reported
either way; those with a wrong one are handed on to the compressor if it is not compared. -/
theorem onlyLosesMismatches_nested :
    let chain : CodecChain :=
      ⟨[⟨[1, 0]⟩], ⟨some .big⟩, [.crc32c, .custom (.mask 0xff), .gzip .default, .crc32c]⟩
    (∀ c, .custom c ∈ chain.onBytes → c.IgnoresOptions) ∧
      chain.OnlyLosesMismatches (.float .bits32) [2, 1] ∧
      chain.decode ⟨false⟩ (.float .bits32) [2, 1] [1, 2] =
        .error (.error (.checksumTruncated 2)) ∧
      chain.decode ⟨true⟩ (.float .bits32) [2, 1] [0, 0, 0, 0, 0] =
        .error (.error (.checksumMismatch 0 0x527d5351)) ∧
      chain.decode ⟨false⟩ (.float .bits32) [2, 1] [0, 0, 0, 0, 0] =
        .error (.error (.decompress .truncated)) := by
  intro chain
  have hcustom : ∀ c, .custom c ∈ chain.onBytes → c.IgnoresOptions := by
    intro c hc
    obtain rfl : c = .mask 0xff := by simpa [chain] using hc
    exact fun _ _ _ => rfl
  have hloses := onlyLosesMismatches hcustom (.float .bits32) [2, 1]
  have htaken : ByteCodec.takeChecksum true [0, 0, 0, 0, 0] =
    .error (.checksumMismatch 0 0x527d5351) := by decide +kernel
  refine ⟨hcustom, hloses, hloses.decode_eq [1, 2] nofun, ?_, rfl⟩
  have hundone : chain.undone ⟨true⟩ [0, 0, 0, 0, 0] =
      .error (.checksumMismatch 0 0x527d5351) := by
    simp [undone, chain, ByteCodec.decode, htaken]
  rw [decode_eq_bind, hundone]
  rfl

end CodecChain

end ChunkedArray
