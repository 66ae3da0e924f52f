import ChunkedArray.Proofs.Codec.RoundTrip
import ChunkedArray.Proofs.Endings
import ChunkedArray.Proofs.NdArray.Parts

/-!
# How codec chains end

A chain whose transpositions order the axes of a chunk encodes it or reports why not, and any bytes
decode to a chunk of the shape that is asked for or are reported. Only counting the bytes of a chunk
that has no room in memory may overflow.
-/

namespace ChunkedArray

theorem Shape.isAddressable_perm {s shape : Shape} (h : s.Perm shape) :
    s.isAddressable = shape.isAddressable := by
  rw [isAddressable, isAddressable, span_perm h]

namespace DataType

variable {t : DataType} {s shape : Shape}

theorem hasRoomFor_perm (h : s.Perm shape) : t.HasRoomFor s ↔ t.HasRoomFor shape := by
  rw [HasRoomFor, HasRoomFor, Shape.isAddressable_perm h, Shape.size_perm h]

theorem HasRoomFor.countsBytes (h : t.HasRoomFor shape) : t.CountsBytes shape :=
  ⟨Word.multiplies_of_isAddressable h.1, Nat.lt_trans h.2 addressLimit_lt_wordLimit⟩

end DataType

namespace CodecChain

variable {chain : CodecChain} {t : DataType} {allowed : Violation → Prop}

theorem rank_permuteAxes {α : Type} [Inhabited α] {order : List Nat} {rank : Nat}
    (h : NdArray.IsAxisOrder rank order) (a : NdArray α) (ha : a.rank = rank) :
    ∃ b, a.permuteAxes order = .ok b ∧ b.rank = rank := by
  obtain ⟨b, hb, hshape, -⟩ := Transpose.permuteAxes_spec (a := a) (ha ▸ h)
  refine ⟨b, hb, ?_⟩
  rw [NdArray.rank, hshape, Transpose.length_gather h]

theorem encodedShape_perm {shape : Shape}
    (horder : ∀ c ∈ chain.transposes, NdArray.IsAxisOrder shape.length c.order) :
    ∃ s, chain.encodedShape shape = .ok s ∧ s.Perm shape := by
  refine Outcome.exists_foldlM_eq_ok (fun c hc s (hs : s.Perm shape) => ?_) (.refl shape)
  have hc : NdArray.IsAxisOrder s.length c.order := hs.length_eq ▸ horder c hc
  exact ⟨_, Transpose.encodedShape_eq_ok hc, (NdArray.gather_perm hc).trans hs⟩

/-- Writing the elements overflows only for an array that memory has no room for. -/
theorem ends_toBytes {ε : Type} {e : Endian} {a : NdArray t.Element}
    (hallowed : ¬ t.HasRoomFor a.shape → allowed .overflow) :
    Checked.Ends allowed (fun _ => True) (Checked.guarded (a.toBytes e) : Checked ε Bytes) := by
  refine Checked.ends_guarded_of (fun _ _ => trivial) fun v hv => ?_
  obtain rfl := NdArray.onlyOverflows_toBytes e a v hv
  refine hallowed fun hroom => ?_
  rw [NdArray.toBytes_eq_ok_iff.2 ⟨hroom.countsBytes.bytes, rfl⟩] at hv
  cases hv

theorem ends_encode {chunk : NdArray t.Element}
    (horder : ∀ c ∈ chain.transposes, NdArray.IsAxisOrder chunk.rank c.order)
    (hallowed : ¬ t.HasRoomFor chunk.shape → allowed .overflow) :
    Checked.Ends allowed (fun _ => True) (chain.encode chunk) := by
  have htranspose : ∃ b, chain.transposes.foldlM (fun a c => c.encode a) chunk = .ok b ∧
      b.shape.Perm chunk.shape := by
    refine Outcome.exists_foldlM_eq_ok (fun c hc a (ha : a.shape.Perm chunk.shape) => ?_) (.refl _)
    have hrank : a.rank = chunk.rank := ha.length_eq
    have hc : NdArray.IsAxisOrder a.rank c.order := hrank ▸ horder c hc
    obtain ⟨b, hb, hshape, -⟩ := Transpose.permuteAxes_spec hc
    exact ⟨b, hb, hshape ▸ (NdArray.gather_perm hc).trans ha⟩
  refine (Checked.ends_guarded htranspose).bind fun b hb => ?_
  have helements : Checked.Ends allowed (fun _ => True) (chain.elementBytes.encode b) := by
    unfold ElementBytes.encode
    split
    · exact ends_toBytes fun hroom => hallowed fun h => hroom ((DataType.hasRoomFor_perm hb).2 h)
    · exact Checked.ends_fail _
  exact helements.bind fun _ _ => Checked.ends_report fun _ _ => trivial

theorem ends_ofBytes {e : Endian} {shape : Shape} {bs : Bytes}
    (hallowed : ¬ t.CountsBytes shape → allowed .overflow) :
    Checked.Ends allowed (fun a => a.shape = shape) (NdArray.ofBytes t e shape bs) := by
  by_cases hcounts : t.CountsBytes shape
  · rw [NdArray.ofBytes_eq hcounts]
    split
    · refine Checked.ends_report fun a ha => ?_
      unfold NdArray.ofList at ha
      split at ha
      · split at ha
        · obtain rfl := Except.ok.inj ha
          rfl
        · cases ha
      · cases ha
    · exact Checked.ends_fail _
  · rw [NdArray.ofBytes, NdArray.bytesFor_eq_overflow hcounts]
    exact hallowed hcounts

theorem ends_decode_elements {c : ElementBytes} {shape : Shape} {bs : Bytes}
    (hallowed : ¬ t.CountsBytes shape → allowed .overflow) :
    Checked.Ends allowed (fun a => a.shape = shape) (c.decode t shape bs) := by
  unfold ElementBytes.decode
  split
  · exact ends_ofBytes hallowed
  · exact Checked.ends_fail _

/-- Any bytes decode to a chunk of the shape that is asked for, or are reported, if their number is
found. -/
theorem ends_decode {shape : Shape}
    (horder : ∀ c ∈ chain.transposes, NdArray.IsAxisOrder shape.length c.order)
    (hallowed : ¬ t.HasRoomFor shape → allowed .overflow) (options : CodecOptions) (bs : Bytes) :
    Checked.Ends allowed (fun a => a.shape = shape) (chain.decode options t shape bs) := by
  have hback (a : NdArray t.Element) (ha : a.rank = shape.length) :
      ∃ b, chain.transposes.reverse.foldlM (fun a c => c.decode a) a = .ok b ∧
        b.rank = shape.length := by
    refine Outcome.exists_foldlM_eq_ok (fun c hc a => ?_) ha
    have hc := horder c (List.mem_reverse.1 hc)
    rw [Transpose.decode_eq hc]
    exact rank_permuteAxes (Transpose.isAxisOrder_inverse hc) a
  refine (Checked.ends_report fun _ _ => trivial).bind fun bytes (_ : True) => ?_
  refine (Checked.ends_guarded (encodedShape_perm horder)).bind fun s hs => ?_
  have hroom (h : ¬ t.CountsBytes s) : allowed .overflow :=
    hallowed fun hroom => h ((DataType.hasRoomFor_perm hs).2 hroom).countsBytes
  refine (ends_decode_elements hroom).bind fun a (ha : a.shape = s) => ?_
  have hrank : a.rank = shape.length := (congrArg List.length ha).trans hs.length_eq
  refine (Checked.ends_guarded (hback a hrank)).bind fun b _ => ?_
  split
  · next hshape => exact hshape
  · exact Checked.ends_fail _

end CodecChain

end ChunkedArray
