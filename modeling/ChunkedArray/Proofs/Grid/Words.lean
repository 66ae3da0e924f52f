import ChunkedArray.Proofs.Grid.AxisParts
import ChunkedArray.Proofs.Grid.Voxel
import ChunkedArray.Proofs.Words

/-!
# Grids whose numbers are words

Cutting a run of accepted indices into its parts, the one number that may be no word is the end of
the last chunk: the check of a region looks at the last index, not at the end of its chunk. Where
that end is a word, every number is, and the computation on words gives the exact parts.
-/

namespace ChunkedArray

theorem ceilDiv_le {num den : Nat} (hden : 0 < den) : ceilDiv num den ≤ num := by
  refine Nat.not_lt.1 fun h => ?_
  have := (lt_ceilDiv_iff hden).1 h
  exact absurd (Nat.le_mul_of_pos_right num hden) (by omega)

theorem Word.ceilDiv_eq_ok_of_pos {num den : Nat} (hden : 0 < den) (hnum : num < wordLimit) :
    Word.ceilDiv num den = .ok (ChunkedArray.ceilDiv num den) := by
  have hle : ChunkedArray.ceilDiv num den ≤ num := ceilDiv_le hden
  rw [ceilDiv, div_eq_ok_iff.2 ⟨hden, rfl⟩, Outcome.ok_bind, add_eq_ok_iff]
  exact ⟨Nat.lt_of_le_of_lt hle hnum, rfl⟩

namespace Run

variable {r : Run} {length k n : Nat}

/-- The end of the last chunk that the run meets, if it meets any, is a word. -/
def EndsInWords (r : Run) (length : Nat) : Prop :=
  ∀ last, r.last? = some last → (last / length + 1) * length < wordLimit

instance : Decidable (r.EndsInWords length) :=
  inferInstanceAs (Decidable (∀ last ∈ r.last?, (last / length + 1) * length < wordLimit))

/-- The chunks that a run meets end no later than the last one. -/
theorem EndsInWords.chunkEnd_lt (h : r.EndsInWords length) (hk : k < r.count) :
    (r.index k / length + 1) * length < wordLimit := by
  refine Nat.lt_of_le_of_lt ?_ (h _ (last?_of_count_pos (by omega)))
  have hle : r.index k ≤ r.index (r.count - 1) := r.index_le_index (by omega)
  exact Nat.mul_le_mul_right _ (Nat.add_le_add_right (Nat.div_le_div_right hle) 1)

theorem endsInWords_iff : r.EndsInWords length ↔
    ∀ k < r.count, (r.index k / length + 1) * length < wordLimit := by
  constructor
  · exact fun h k hk => h.chunkEnd_lt hk
  · intro h last hlast
    by_cases hcount : r.count = 0
    · rw [last?_of_count_eq_zero hcount] at hlast
      cases hlast
    · rw [last?_of_count_pos (by omega)] at hlast
      obtain rfl := Option.some.inj hlast
      exact h _ (Nat.sub_one_lt hcount)

theorem index_lt_chunkEnd (r : Run) (k : Nat) (hlen : 0 < length) :
    r.index k < (r.index k / length + 1) * length := by
  rw [Nat.mul_comm]
  exact Nat.lt_mul_div_succ _ hlen

theorem wordIndex_eq_ok (h : r.index k < wordLimit) : r.wordIndex k = .ok (r.index k) := by
  rw [index] at h
  rw [wordIndex, Word.mul_eq_ok_iff.2 ⟨by omega, rfl⟩, Outcome.ok_bind, Word.add_eq_ok_iff]
  exact ⟨h, rfl⟩

theorem FitsAxis.wordStop_eq_ok (h : r.FitsAxis n) (hn : n < wordLimit) :
    r.wordStop = .ok r.stop := by
  by_cases hcount : r.count = 0
  · rw [wordStop, wordLast?, if_pos hcount, stop_of_count_eq_zero hcount]
    rfl
  · have hlast := h.index_lt _ (Nat.sub_one_lt hcount)
    rw [wordStop, wordLast?, if_neg hcount, wordIndex_eq_ok (by omega), stop_of_count_pos (by omega)]
    exact Word.add_eq_ok_iff.2 ⟨by omega, rfl⟩

/-- One part is computed without a stop exactly if the end of its chunk is a word. -/
theorem wordPart_eq_ok_iff (hk : k < r.count) (hlen : 0 < length) (hstep : 0 < r.step)
    {result : AxisPart × Nat} :
    r.wordPart length k = .ok result ↔ (r.index k / length + 1) * length < wordLimit ∧
      result = (AxisPart.upToNext r length k, r.nextChunk length k) := by
  constructor
  · intro h
    obtain ⟨part, next⟩ := result
    obtain ⟨-, -, hend, rfl, rfl⟩ := of_wordPart h
    exact ⟨hend, rfl⟩
  · rintro ⟨hend, rfl⟩
    have hindex := r.index_lt_chunkEnd k hlen
    have hchunk : r.index k / length + 1 ≤ (r.index k / length + 1) * length :=
      Nat.le_mul_of_pos_right _ hlen
    have hstart : r.index k / length * length ≤ r.index k := Nat.div_mul_le_self ..
    have hoffset : r.offset ≤ r.index k := Nat.le_add_right ..
    have hnext : k ≤ min r.count (ceilDiv ((r.index k / length + 1) * length - r.offset) r.step) :=
      Nat.le_of_lt (lt_nextChunk hk hlen hstep)
    have hspan : (r.index k / length + 1) * length - r.offset < wordLimit := by omega
    rw [wordPart, wordIndex_eq_ok (by omega), Outcome.ok_bind,
      Word.div_eq_ok_iff.2 ⟨hlen, rfl⟩, Outcome.ok_bind,
      Word.add_eq_ok_iff.2 ⟨by omega, rfl⟩, Outcome.ok_bind,
      Word.mul_eq_ok_iff.2 ⟨hend, rfl⟩, Outcome.ok_bind,
      Word.sub_eq_ok_iff.2 ⟨by omega, rfl⟩, Outcome.ok_bind,
      Word.ceilDiv_eq_ok_of_pos hstep hspan, Outcome.ok_bind,
      Word.mul_eq_ok_iff.2 ⟨by omega, rfl⟩, Outcome.ok_bind,
      Word.sub_eq_ok_iff.2 ⟨hstart, rfl⟩, Outcome.ok_bind,
      Word.sub_eq_ok_iff.2 ⟨hnext, rfl⟩]
    rfl

theorem wordPartsFrom_of_lt (hk : k < r.count) :
    r.wordPartsFrom length k = r.wordPart length k >>= fun (part, next) =>
      (r.wordPartsFrom length next).map (part :: ·) := by
  rw [wordPartsFrom, dif_pos hk]
  split <;> simp [*]

theorem wordPartsFrom_of_le (hk : r.count ≤ k) : r.wordPartsFrom length k = .ok [] := by
  rw [wordPartsFrom, dif_neg (Nat.not_lt.2 hk)]

/-- The loop over the parts ends without a stop exactly if every chunk that it meets ends in a
word. -/
theorem wordPartsFrom_eq_ok_iff (hlen : 0 < length) (hstep : 0 < r.step) (k : Nat)
    {parts : List AxisPart} :
    r.wordPartsFrom length k = .ok parts ↔
      (∀ j, k ≤ j → j < r.count → (r.index j / length + 1) * length < wordLimit) ∧
        parts = r.partsFrom length k := by
  induction k using partStart_induction hlen hstep generalizing parts with
  | done k hk =>
    rw [wordPartsFrom_of_le hk, partsFrom_of_le hk, Except.ok.injEq, eq_comm]
    exact (and_iff_right fun j hkj hj => by omega).symm
  | next k hk hlt ih =>
    rw [wordPartsFrom_of_lt hk, partsFrom_of_lt hk hlen hstep, Outcome.bind_eq_ok_iff]
    constructor
    · rintro ⟨result, hresult, htail⟩
      obtain ⟨hend, rfl⟩ := (wordPart_eq_ok_iff hk hlen hstep).1 hresult
      obtain ⟨rest, hrest, rfl⟩ := Outcome.map_eq_ok_iff.1 htail
      obtain ⟨hlater, rfl⟩ := ih.1 hrest
      refine ⟨fun j hkj hj => ?_, rfl⟩
      by_cases h : j < r.nextChunk length k
      · rwa [index_div_eq hlen hstep hkj h]
      · exact hlater j (Nat.not_lt.1 h) hj
    · rintro ⟨hends, rfl⟩
      have hrest := ih.2 ⟨fun j hj => hends j (by omega), rfl⟩
      refine ⟨_, (wordPart_eq_ok_iff hk hlen hstep).2 ⟨hends k (Nat.le_refl k) hk, rfl⟩, ?_⟩
      exact Outcome.map_eq_ok_iff.2 ⟨_, hrest, rfl⟩

/-- With lengths and steps that are not zero only an overflow stops the computation of the parts. -/
theorem onlyOverflows_wordPart (r : Run) (k : Nat) (hlen : 0 < length) (hstep : 0 < r.step) :
    Word.OnlyOverflows (r.wordPart length k) := by
  have hindex : Word.OnlyOverflows (r.wordIndex k) :=
    (Word.onlyOverflows_mul _ _).bind fun _ => Word.onlyOverflows_add _ _
  unfold wordPart
  apply hindex.bind
  intro index
  apply (Word.onlyOverflows_div index hlen).bind
  intro chunk
  apply (Word.onlyOverflows_add chunk 1).bind
  intro following
  apply (Word.onlyOverflows_mul following length).bind
  intro chunkEnd
  apply (Word.onlyOverflows_sub chunkEnd r.offset).bind
  intro distance
  apply (Word.onlyOverflows_ceilDiv distance hstep).bind
  intro next
  apply (Word.onlyOverflows_mul chunk length).bind
  intro start
  apply (Word.onlyOverflows_sub index start).bind
  intro place
  apply (Word.onlyOverflows_sub _ k).bind
  exact fun _ => Word.onlyOverflows_ok _

theorem onlyOverflows_wordPartsFrom (hlen : 0 < length) (hstep : 0 < r.step) (k : Nat) :
    Word.OnlyOverflows (r.wordPartsFrom length k) := by
  induction k using partStart_induction hlen hstep with
  | done k hk =>
    rw [wordPartsFrom_of_le hk]
    exact Word.onlyOverflows_ok _
  | next k hk hlt ih =>
    intro v h
    rw [wordPartsFrom_of_lt hk] at h
    rcases Outcome.bind_eq_error_iff.1 h with hround | ⟨result, hround, htail⟩
    · exact onlyOverflows_wordPart r k hlen hstep v hround
    · obtain ⟨-, rfl⟩ := (wordPart_eq_ok_iff hk hlen hstep).1 hround
      exact ih v (Outcome.map_eq_error_iff.1 htail)

theorem wordPartsFrom_zero_eq_ok_iff (hlen : 0 < length) (hstep : 0 < r.step)
    {parts : List AxisPart} : r.wordPartsFrom length 0 = .ok parts ↔
      r.EndsInWords length ∧ parts = r.partsFrom length 0 := by
  rw [wordPartsFrom_eq_ok_iff hlen hstep, endsInWords_iff]
  simp only [Nat.zero_le, true_imp_iff]

end Run

namespace RegularGrid

variable {g : RegularGrid} {idx : Index} {shape : Shape}

theorem wordExtent_eq_ok_iff {extent : Shape} : g.wordExtent idx shape = .ok extent ↔
    (∀ x ∈ (idx.zip g.chunkShape).zip shape, x.1.1 * x.1.2 < wordLimit) ∧
      extent = g.chunkExtent idx shape := by
  refine Outcome.mapM_eq_ok_iff_of_step fun x b => ?_
  simp only [Outcome.bind_eq_ok_iff, Word.mul_eq_ok_iff, Outcome.pure_eq_ok, Except.ok.injEq]
  constructor
  · rintro ⟨_, ⟨hword, rfl⟩, rfl⟩
    exact ⟨hword, rfl⟩
  · rintro ⟨hword, rfl⟩
    exact ⟨_, ⟨hword, rfl⟩, rfl⟩

/-- The end of the last chunk that the region meets is a word along every axis. -/
def EndsInWords (g : RegularGrid) (region : Region) : Prop :=
  ∀ p ∈ region.zip g.chunkShape, p.1.EndsInWords p.2

instance (region : Region) : Decidable (g.EndsInWords region) :=
  inferInstanceAs (Decidable (∀ p ∈ region.zip g.chunkShape, p.1.EndsInWords p.2))

end RegularGrid

namespace Run

variable {r : Run} {axis length : Nat}

/-! ### One axis of an array -/

/-- Every number that is computed for the parts of a run on an axis is a word, the ends and extents
of what is found included. -/
structure StaysInWords (r : Run) (axis length : Nat) : Prop where
  stop : r.wordStop = .ok r.stop
  /-- A round of the loop ends and goes on from a later position. -/
  round : ∀ k < r.count, ∃ part next, r.wordPart length k = .ok (part, next) ∧ k < next
  parts : r.wordPartsFrom length 0 = .ok (r.partsFrom length 0)
  stop_inChunk : ∀ p ∈ r.partsFrom length 0, p.inChunk.wordStop = .ok p.inChunk.stop
  stop_inRegion : ∀ p ∈ r.partsFrom length 0, p.inRegion.wordStop = .ok p.inRegion.stop
  extent : ∀ p ∈ r.partsFrom length 0, RegularGrid.wordExtent ⟨[length]⟩ [p.chunk] [axis] =
    .ok (RegularGrid.chunkExtent ⟨[length]⟩ [p.chunk] [axis])

theorem FitsAxis.count_le (h : r.FitsAxis axis) : r.count ≤ axis := by
  by_cases hcount : r.count = 0
  · omega
  · have hlast := h.index_lt _ (Nat.sub_one_lt hcount)
    have hstep : r.count - 1 ≤ (r.count - 1) * r.step := Nat.le_mul_of_pos_right _ h.step_pos
    rw [index] at hlast
    omega

theorem wordExtent_eq_ok_of_isPartOf {p : AxisPart} (hp : p.IsPartOf r length)
    (hfits : r.FitsAxis axis) (haxis : axis < wordLimit) :
    RegularGrid.wordExtent ⟨[length]⟩ [p.chunk] [axis] =
      .ok (RegularGrid.chunkExtent ⟨[length]⟩ [p.chunk] [axis]) := by
  have hfirst := hfits.index_lt _ (hp.index_lt 0 hp.count_pos)
  have hstart := Nat.div_mul_le_self (r.index (p.inRegion.index 0)) length
  rw [hp.div_eq 0 hp.count_pos] at hstart
  have hword : p.chunk * length < wordLimit := by omega
  exact RegularGrid.wordExtent_eq_ok_iff.2 ⟨List.forall_mem_singleton.2 hword, rfl⟩

/-- For an accepted run all numbers are words exactly if the last chunk that it meets ends in one. -/
theorem staysInWords_iff (haxis : axis < wordLimit) (hlen : 0 < length)
    (h : Region.checkBounds [r] [axis] = .ok ()) :
    r.StaysInWords axis length ↔ r.EndsInWords length := by
  have hword : ∀ m ∈ [axis], m < wordLimit := List.forall_mem_singleton.2 haxis
  have hregion : Region.Fits [r] [axis] := (Region.checkBounds_eq_ok_iff hword).1 h
  have hfits : r.FitsAxis axis := (List.forall₂_cons.1 hregion).1
  have hstep := hfits.step_pos
  have hpart := isPartOf_of_mem (r := r) hlen hstep 0
  constructor
  · intro hwords
    exact ((wordPartsFrom_zero_eq_ok_iff hlen hstep).1 hwords.parts).1
  · intro hends
    refine ⟨hfits.wordStop_eq_ok haxis, fun k hk => ?_,
      (wordPartsFrom_zero_eq_ok_iff hlen hstep).2 ⟨hends, rfl⟩, fun p hp => ?_, fun p hp => ?_,
      fun p hp => ?_⟩
    · refine ⟨_, _, (wordPart_eq_ok_iff hk hlen hstep).2 ⟨hends.chunkEnd_lt hk, rfl⟩, ?_⟩
      exact lt_nextChunk hk hlen hstep
    · refine ((hpart p hp).inChunk_fits hlen hfits).wordStop_eq_ok ?_
      omega
    · refine (hpart p hp).inRegion_fits.wordStop_eq_ok ?_
      exact Nat.lt_of_le_of_lt hfits.count_le haxis
    · exact wordExtent_eq_ok_of_isPartOf (hpart p hp) hfits haxis

/-- Two indices a long way from each other, in chunks of three, on the longest axis. -/
theorem staysInWords_farApart : (wordLimit - 1 < wordLimit ∧ 0 < 3 ∧
    Region.checkBounds [⟨1, 2, addressLimit⟩] [wordLimit - 1] = .ok ()) ∧
      StaysInWords ⟨1, 2, addressLimit⟩ (wordLimit - 1) 3 := by
  have hbounds : Region.checkBounds [⟨1, 2, addressLimit⟩] [wordLimit - 1] = .ok () := by decide
  refine ⟨⟨by decide, by decide, hbounds⟩, (staysInWords_iff (by decide) (by decide) hbounds).2 ?_⟩
  intro last h
  cases h
  decide

/-- The last cell of the longest axis, in chunks of two: the end of its chunk is no word. -/
theorem not_staysInWords_lastCell :
    Region.checkBounds [⟨wordLimit - 2, 1, 1⟩] [wordLimit - 1] = .ok () ∧
      wordPart ⟨wordLimit - 2, 1, 1⟩ 2 0 = .error .overflow ∧
      ¬ StaysInWords ⟨wordLimit - 2, 1, 1⟩ (wordLimit - 1) 2 := by
  have hround : wordPart ⟨wordLimit - 2, 1, 1⟩ 2 0 = .error .overflow := by decide
  refine ⟨by decide, hround, fun h => ?_⟩
  obtain ⟨part, next, hok, -⟩ := h.round 0 Nat.one_pos
  rw [hround] at hok
  cases hok

end Run

end ChunkedArray
