import ChunkedArray.Proofs.Grid.Bounds

/-!
# What the check of a region reports

A region that is refused is refused for its rank or for the first of its runs that does not fit.
The numbers in the report are exact up to the greatest word, which stands for all that are greater.
-/

namespace ChunkedArray

namespace Region

/-- What is reported of a run that does not fit axis `axis` of length `n`. -/
inductive AxisFault (axis : Nat) (r : Run) (n : Nat) : IndexError → Prop
  | zeroStep : r.step = 0 → AxisFault axis r n (.zeroStep axis)
  /-- An empty run starts after the end of the axis. -/
  | start : 0 < r.step → r.count = 0 → n < r.offset →
      AxisFault axis r n (.outOfBounds axis r.offset n)
  | last : 0 < r.step → 0 < r.count → n ≤ r.index (r.count - 1) →
      r.index (r.count - 1) < wordLimit →
      AxisFault axis r n (.outOfBounds axis (r.index (r.count - 1)) n)
  /-- The last index is no word. -/
  | beyond : 0 < r.step → 0 < r.count → wordLimit ≤ r.index (r.count - 1) →
      AxisFault axis r n (.outOfBounds axis (wordLimit - 1) n)

/-- What is reported of a region that does not fit a shape: its rank or its first misfit. -/
inductive FirstFault (region : Region) (shape : Shape) : IndexError → Prop
  | rank : region.rank ≠ shape.length → FirstFault region shape (.rank ⟨shape.length, region.rank⟩)
  | axis {before after : Region} {lengths rest : Shape} {r : Run} {n : Nat} {e : IndexError} :
      region.rank = shape.length → region = before ++ r :: after → shape = lengths ++ n :: rest →
      before.Fits lengths → AxisFault before.length r n e → FirstFault region shape e

variable {axis n : Nat} {r : Run} {region : Region} {shape : Shape} {e : IndexError}

theorem AxisFault.not_fitsAxis (h : AxisFault axis r n e) (hn : n < wordLimit) :
    ¬ r.FitsAxis n := by
  intro hfits
  cases h with
  | zeroStep hstep => exact absurd hfits.step_pos (by omega)
  | start _ _ hoffset => exact absurd hfits.offset_le (by omega)
  | last _ hcount hlast _ =>
    exact absurd (hfits.index_lt _ (Nat.sub_one_lt_of_lt hcount)) (by omega)
  | beyond _ hcount hlast =>
    exact absurd (hfits.index_lt _ (Nat.sub_one_lt_of_lt hcount)) (by omega)

theorem AxisFault.exists_eq_outOfBounds (h : AxisFault axis r n e) (hstep : 0 < r.step) :
    ∃ i, e = .outOfBounds axis i n := by
  cases h with
  | zeroStep hzero => omega
  | start | last | beyond => exact ⟨_, rfl⟩

theorem overrun?_eq_some_iff {i : Nat} (hstep : 0 < r.step) (hn : n < wordLimit) :
    overrun? r n = some i ↔ AxisFault axis r n (.outOfBounds axis i n) := by
  by_cases hcount : r.count = 0
  · rw [overrun?, saturatedLast?_of_count_eq_zero hcount]
    simp only [Option.ite_none_right_eq_some, Option.some.injEq]
    constructor
    · rintro ⟨hoffset, rfl⟩
      exact .start hstep hcount hoffset
    · intro h
      cases h with
      | start _ _ hoffset => exact ⟨hoffset, rfl⟩
      | last | beyond => omega
  · have hpos : 0 < r.count := by omega
    rw [overrun?, saturatedLast?_of_count_pos hpos]
    simp only [Option.ite_none_right_eq_some, Option.some.injEq]
    constructor
    · rintro ⟨hle, rfl⟩
      by_cases hlast : r.index (r.count - 1) < wordLimit
      · rw [if_pos hlast] at hle ⊢
        exact .last hstep hpos hle hlast
      · rw [if_neg hlast]
        exact .beyond hstep hpos (Nat.not_lt.1 hlast)
    · intro h
      cases h with
      | start => omega
      | last _ _ hle hlast =>
        rw [if_pos hlast]
        exact ⟨hle, rfl⟩
      | beyond _ _ hlast =>
        rw [if_neg (Nat.not_lt.2 hlast)]
        exact ⟨Nat.le_sub_one_of_lt hn, rfl⟩

theorem checkAxes_cons_of_fitsAxis (hn : n < wordLimit) (h : r.FitsAxis n) :
    checkAxes axis (r :: region) (n :: shape) = checkAxes (axis + 1) region shape := by
  have hstep := h.step_pos
  rw [checkAxes, if_neg (by omega), (overrun?_eq_none_iff hstep hn).2 h]

theorem checkAxes_cons_eq_error_iff (hn : n < wordLimit) (h : ¬ r.FitsAxis n) :
    checkAxes axis (r :: region) (n :: shape) = .error e ↔ AxisFault axis r n e := by
  rw [checkAxes]
  by_cases hstep : r.step = 0
  · rw [if_pos hstep]
    constructor
    · intro he
      cases he
      exact .zeroStep hstep
    · intro he
      cases he with
      | zeroStep => rfl
      | start | last | beyond => omega
  · have hpos : 0 < r.step := by omega
    obtain ⟨i, hi⟩ := Option.ne_none_iff_exists'.1 (mt (overrun?_eq_none_iff hpos hn).1 h)
    rw [if_neg hstep, hi]
    constructor
    · intro he
      cases he
      exact (overrun?_eq_some_iff hpos hn).1 hi
    · intro he
      obtain ⟨j, rfl⟩ := he.exists_eq_outOfBounds hpos
      have hj := (overrun?_eq_some_iff hpos hn).2 he
      rw [Option.some.inj (hi.symm.trans hj)]

theorem checkAxes_eq_error_iff (hlength : region.length = shape.length)
    (hword : ∀ m ∈ shape, m < wordLimit) :
    checkAxes axis region shape = .error e ↔
      ∃ before r after lengths n rest, region = before ++ r :: after ∧
        shape = lengths ++ n :: rest ∧ Fits before lengths ∧
        AxisFault (axis + before.length) r n e := by
  induction region generalizing axis shape with
  | nil => simp [checkAxes]
  | cons r region ih =>
    cases shape with
    | nil => simp at hlength
    | cons n shape =>
      have hn := hword n List.mem_cons_self
      have ih := @ih (axis + 1) shape (Nat.succ.inj hlength)
        fun m hm => hword m (List.mem_cons_of_mem _ hm)
      by_cases hr : r.FitsAxis n
      · rw [checkAxes_cons_of_fitsAxis hn hr, ih]
        constructor
        · rintro ⟨before, q, after, lengths, m, rest, rfl, rfl, hbefore, hfault⟩
          refine ⟨r :: before, q, after, n :: lengths, m, rest, rfl, rfl, .cons hr hbefore, ?_⟩
          rwa [List.length_cons, Nat.add_comm before.length, ← Nat.add_assoc]
        · rintro ⟨before, q, after, lengths, m, rest, hregion, hshape, hbefore, hfault⟩
          cases hbefore with
          | nil =>
            obtain ⟨rfl, rfl⟩ := List.cons.inj hregion
            obtain ⟨rfl, rfl⟩ := List.cons.inj hshape
            exact absurd hr (hfault.not_fitsAxis hn)
          | @cons _ _ before lengths _ hbefore =>
            obtain ⟨rfl, rfl⟩ := List.cons.inj hregion
            obtain ⟨rfl, rfl⟩ := List.cons.inj hshape
            refine ⟨before, q, after, lengths, m, rest, rfl, rfl, hbefore, ?_⟩
            rwa [List.length_cons, Nat.add_comm before.length, ← Nat.add_assoc] at hfault
      · rw [checkAxes_cons_eq_error_iff hn hr]
        constructor
        · intro hfault
          exact ⟨[], r, region, [], n, shape, rfl, rfl, .nil, hfault⟩
        · rintro ⟨before, q, after, lengths, m, rest, hregion, hshape, hbefore, hfault⟩
          cases hbefore with
          | nil =>
            obtain ⟨rfl, rfl⟩ := List.cons.inj hregion
            obtain ⟨rfl, rfl⟩ := List.cons.inj hshape
            exact hfault
          | cons hq =>
            obtain ⟨rfl, rfl⟩ := List.cons.inj hregion
            obtain ⟨rfl, rfl⟩ := List.cons.inj hshape
            exact absurd hq hr

theorem checkBounds_of_rank_eq (h : region.rank = shape.length) :
    region.checkBounds shape = checkAxes 0 region shape := by
  rw [checkBounds, RankMismatch.check_eq_ok_iff.2 h]
  rfl

theorem checkBounds_of_rank_ne (h : region.rank ≠ shape.length) :
    region.checkBounds shape = .error (.rank ⟨shape.length, region.rank⟩) := by
  rw [checkBounds, RankMismatch.check, if_neg h]
  rfl

theorem checkBounds_eq_error_iff (hword : ∀ m ∈ shape, m < wordLimit) :
    region.checkBounds shape = .error e ↔ region.FirstFault shape e := by
  by_cases hrank : region.rank = shape.length
  · rw [checkBounds_of_rank_eq hrank, checkAxes_eq_error_iff hrank hword]
    simp only [Nat.zero_add]
    constructor
    · rintro ⟨before, r, after, lengths, n, rest, hregion, hshape, hbefore, hfault⟩
      exact .axis hrank hregion hshape hbefore hfault
    · intro h
      cases h with
      | rank hne => exact absurd hrank hne
      | axis _ hregion hshape hbefore hfault =>
        exact ⟨_, _, _, _, _, _, hregion, hshape, hbefore, hfault⟩
  · rw [checkBounds_of_rank_ne hrank]
    constructor
    · intro h
      cases h
      exact .rank hrank
    · intro h
      cases h with
      | rank => rfl
      | axis heq => exact absurd heq hrank

/-- The check of a region accepts what fits a shape and otherwise reports its first fault. -/
theorem checkBounds_exact (hword : ∀ m ∈ shape, m < wordLimit) :
    (region.checkBounds shape = .ok () ↔ region.Fits shape) ∧
      ∀ e, region.checkBounds shape = .error e ↔ region.FirstFault shape e :=
  ⟨checkBounds_eq_ok_iff hword, fun _ => checkBounds_eq_error_iff hword⟩

/-- The last index of the second run is one more than the greatest word, and is refused on the
longest axis. -/
theorem checkBounds_exact_beyond : (∀ m ∈ [4, wordLimit - 1], m < wordLimit) ∧
    checkBounds [⟨0, 2, 2⟩, ⟨1, 2, wordLimit - 1⟩] [4, wordLimit - 1] =
      .error (.outOfBounds 1 (wordLimit - 1) (wordLimit - 1)) := by
  have hword : ∀ m ∈ [4, wordLimit - 1], m < wordLimit := by decide
  have hfirst : Run.FitsAxis ⟨0, 2, 2⟩ 4 := Run.fitsAxis_of_last (by decide) (by decide) (by decide)
  have hsecond : AxisFault 1 ⟨1, 2, wordLimit - 1⟩ (wordLimit - 1)
      (.outOfBounds 1 (wordLimit - 1) (wordLimit - 1)) :=
    .beyond (by decide) (by decide) (by decide)
  exact ⟨hword, ((checkBounds_exact hword).2 _).2 (.axis rfl rfl rfl (.cons hfirst .nil) hsecond)⟩

end Region

end ChunkedArray
