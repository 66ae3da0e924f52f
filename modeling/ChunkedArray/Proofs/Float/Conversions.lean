import ChunkedArray.Float.Format
import Mathlib.Algebra.Order.Ring.Nat
import Mathlib.Data.Nat.Log
import Mathlib.Tactic.Ring

/-!
# Exact conversions of floats

A magnitude pattern is told by a coefficient and a scale: the pattern `s * 2 ^ m + w`, for `m` bits
of fraction, stands for `w * 2 ^ s` units. Rounding gives back what such a pair stands for, so the
units of a finite pattern determine it. A wider format has a pattern for each finite value of a
narrower one, and narrowing that pattern undoes the conversion.
-/

namespace ChunkedArray

namespace FloatFormat

variable {f g : FloatFormat} {p q s w bits : Nat}

/-! ### Coefficients and scales -/

/-- A coefficient `w` with one bit more than the fraction has, whose leading bit is set unless the
scale is the least. -/
structure Normalized (f : FloatFormat) (s w : Nat) : Prop where
  lt : w < 2 * 2 ^ f.fractionBits
  leading : s = 0 ∨ 2 ^ f.fractionBits ≤ w

/-- Every magnitude pattern has a coefficient and a scale. -/
theorem exists_normalized (f : FloatFormat) (p : Nat) :
    ∃ s w, f.Normalized s w ∧ p = s * 2 ^ f.fractionBits + w := by
  have hpos : 0 < 2 ^ f.fractionBits := Nat.two_pow_pos _
  have hsplit := Nat.div_add_mod' p (2 ^ f.fractionBits)
  have hmod := Nat.mod_lt p hpos
  cases hexponent : p / 2 ^ f.fractionBits with
  | zero =>
    rw [hexponent] at hsplit
    exact ⟨0, p, ⟨by omega, Or.inl rfl⟩, by omega⟩
  | succ s =>
    rw [hexponent, Nat.add_mul, Nat.one_mul] at hsplit
    exact ⟨s, 2 ^ f.fractionBits + p % 2 ^ f.fractionBits, ⟨by omega, Or.inr (by omega)⟩, by omega⟩

theorem Normalized.units_eq (h : f.Normalized s w) :
    f.units (s * 2 ^ f.fractionBits + w) = w * 2 ^ s := by
  have hpos : 0 < 2 ^ f.fractionBits := Nat.two_pow_pos _
  have hdiv : (s * 2 ^ f.fractionBits + w) / 2 ^ f.fractionBits = s + w / 2 ^ f.fractionBits := by
    rw [Nat.add_comm, Nat.add_mul_div_right w s hpos, Nat.add_comm]
  have hmod : (s * 2 ^ f.fractionBits + w) % 2 ^ f.fractionBits = w % 2 ^ f.fractionBits := by
    rw [Nat.add_comm, Nat.add_mul_mod_self_right]
  simp only [units, Nat.shiftRight_eq_div_pow, Nat.shiftLeft_eq, Nat.one_mul, hdiv, hmod]
  rcases Nat.lt_or_ge w (2 ^ f.fractionBits) with hlt | hle
  · have hs : s = 0 := h.leading.resolve_right (by omega)
    simp [hs, Nat.div_eq_of_lt hlt, Nat.mod_eq_of_lt hlt]
  · have hone : w / 2 ^ f.fractionBits = 1 :=
      Nat.div_eq_of_lt_le (by omega) (by have := h.lt; omega)
    have hrest : w % 2 ^ f.fractionBits = w - 2 ^ f.fractionBits := by
      rw [Nat.mod_eq_sub_mod hle, Nat.mod_eq_of_lt (by have := h.lt; omega)]
    rw [hone, hrest, if_neg (by omega), Nat.add_sub_cancel, Nat.add_sub_cancel' hle]

/-- The scale is by how much the leading bit of the value exceeds the bits of the fraction. -/
theorem Normalized.log2_sub (h : f.Normalized s w) :
    Nat.log2 (w * 2 ^ s) - f.fractionBits = s := by
  have hlt : w < 2 ^ (f.fractionBits + 1) := by rw [Nat.pow_succ']; exact h.lt
  rcases h.leading with rfl | hle
  · have hlog : Nat.log2 w < f.fractionBits + 1 := by
      rcases Nat.eq_zero_or_pos w with rfl | hw
      · exact Nat.succ_pos _
      · exact (Nat.log2_lt hw.ne').2 hlt
    rw [Nat.pow_zero, Nat.mul_one]
    omega
  · have hw : 0 < w := (Nat.two_pow_pos _).trans_le hle
    have hlog : Nat.log2 (w * 2 ^ s) = f.fractionBits + s := by
      refine (Nat.log2_eq_iff (Nat.mul_pos hw (Nat.two_pow_pos s)).ne').2 ⟨?_, ?_⟩
      · rw [Nat.pow_add]
        exact Nat.mul_le_mul_right _ hle
      · rw [Nat.add_right_comm, Nat.pow_add]
        exact Nat.mul_lt_mul_of_pos_right hlt (Nat.two_pow_pos s)
    rw [hlog, Nat.add_sub_cancel_left]

theorem roundQuotient_mul (w : Nat) {d : Nat} (hd : 0 < d) : roundQuotient (w * d) d = w := by
  simp [roundQuotient, hd]

/-- Rounding what a coefficient and a scale stand for gives their pattern. -/
theorem Normalized.nearest_eq (h : f.Normalized s w) {d : Nat} (hd : 0 < d) :
    f.nearest (w * 2 ^ s * d) d = min (s * 2 ^ f.fractionBits + w) f.infinity := by
  have hround : roundQuotient (w * 2 ^ s * d) (d <<< s) = w := by
    rw [Nat.shiftLeft_eq, Nat.mul_comm d, Nat.mul_assoc]
    exact roundQuotient_mul w (Nat.mul_pos (Nat.two_pow_pos s) hd)
  simp only [nearest]
  rw [Nat.mul_div_cancel _ hd, h.log2_sub, hround, Nat.shiftLeft_eq]

/-- The units of a pattern, measured in any fraction of a unit, are rounded to the pattern. -/
theorem nearest_units (f : FloatFormat) (p : Nat) {d : Nat} (hd : 0 < d) :
    f.nearest (f.units p * d) d = min p f.infinity := by
  obtain ⟨s, w, h, rfl⟩ := f.exists_normalized p
  rw [h.units_eq, h.nearest_eq hd]

/-! ### Signs -/

theorem infinity_eq (f : FloatFormat) :
    f.infinity = (2 ^ f.exponentBits - 1) * 2 ^ f.fractionBits := by
  rw [infinity, Nat.shiftLeft_eq, Nat.shiftLeft_eq, Nat.one_mul]

theorem infinity_lt_signWeight (f : FloatFormat) : f.infinity < f.signWeight := by
  rw [infinity_eq, signWeight, Nat.shiftLeft_eq, Nat.one_mul, Nat.pow_add]
  have := Nat.two_pow_pos f.exponentBits
  exact Nat.mul_lt_mul_of_pos_right (by omega) (Nat.two_pow_pos _)

theorem isNegative_signed (negative : Bool) (hp : p < f.signWeight) :
    f.isNegative (f.signed negative p) = negative := by
  cases negative <;> simp [isNegative, signed, hp]

theorem magnitude_signed (negative : Bool) (hp : p < f.signWeight) :
    f.magnitude (f.signed negative p) = p := by
  cases negative <;> simp [magnitude, signed, Nat.mod_eq_of_lt hp]

/-- A pattern is its sign and its magnitude. -/
theorem signed_magnitude (hbits : bits < 2 * f.signWeight) :
    f.signed (f.isNegative bits) (f.magnitude bits) = bits := by
  unfold signed isNegative magnitude
  rcases Nat.lt_or_ge bits f.signWeight with hlt | hle
  · simp [Nat.not_le.2 hlt, Nat.mod_eq_of_lt hlt]
  · rw [Nat.mod_eq_sub_mod hle, Nat.mod_eq_of_lt (by omega)]
    simp [hle]

/-- Low bits that are zero can be cleared. -/
theorem clearLow_signed {n : Nat} (negative : Bool) (hn : n ≤ f.exponentBits + f.fractionBits)
    (hp : 2 ^ n ∣ p) : clearLow n (f.signed negative p) = f.signed negative p := by
  have hsign : 2 ^ n ∣ f.signWeight := by
    rw [signWeight, Nat.shiftLeft_eq, Nat.one_mul]
    exact Nat.pow_dvd_pow 2 hn
  have hsigned : 2 ^ n ∣ f.signed negative p := by
    cases negative
    · exact hp
    · exact Nat.dvd_add hsign hp
  rw [clearLow, Nat.shiftRight_eq_div_pow, Nat.shiftLeft_eq, Nat.div_mul_cancel hsigned]

/-! ### Finite values -/

/-- A pattern of the format that stands for a number. -/
structure IsFinite (f : FloatFormat) (bits : Nat) : Prop where
  lt : bits < 2 * f.signWeight
  magnitude_lt : f.magnitude bits < f.infinity

theorem IsFinite.isNaN (h : f.IsFinite bits) : f.isNaN bits = false :=
  decide_eq_false (Nat.not_lt.2 h.magnitude_lt.le)

theorem IsFinite.isInfinite (h : f.IsFinite bits) : f.isInfinite bits = false :=
  decide_eq_false h.magnitude_lt.ne

theorem isFinite_signed (negative : Bool) (hp : p < f.infinity) :
    f.IsFinite (f.signed negative p) := by
  have hsign := f.infinity_lt_signWeight
  refine ⟨?_, by rwa [magnitude_signed negative (hp.trans hsign)]⟩
  cases negative <;> simp only [signed] <;> simp <;> omega

/-- A pattern is no number, infinite or finite. -/
theorem isFinite_or (hbits : bits < 2 * f.signWeight) :
    f.isNaN bits = true ∨ f.isInfinite bits = true ∨ f.IsFinite bits := by
  rcases lt_trichotomy (f.magnitude bits) f.infinity with hlt | heq | hgt
  · exact Or.inr (Or.inr ⟨hbits, hlt⟩)
  · exact Or.inr (Or.inl (decide_eq_true heq))
  · exact Or.inl (decide_eq_true hgt)

/-! ### Converting -/

theorem convert_of_isNaN (target : FloatFormat) (h : f.isNaN bits = true) :
    f.convert target bits = target.quietNaN := by
  rw [convert, if_pos h]

theorem convert_signed_infinity (f target : FloatFormat) (negative : Bool) :
    f.convert target (f.signed negative f.infinity) = target.signed negative target.infinity := by
  have hmagnitude := magnitude_signed negative f.infinity_lt_signWeight
  rw [convert, isNegative_signed negative f.infinity_lt_signWeight, isNaN, isInfinite, hmagnitude]
  simp

theorem signed_infinity_of_isInfinite (hbits : bits < 2 * f.signWeight)
    (h : f.isInfinite bits = true) : bits = f.signed (f.isNegative bits) f.infinity := by
  rw [← of_decide_eq_true h, signed_magnitude hbits]

theorem convert_of_isFinite (target : FloatFormat) (h : f.IsFinite bits) :
    f.convert target bits =
      target.signed (f.isNegative bits)
        (target.nearest (f.units (f.magnitude bits) * 2 ^ target.unitScale) (2 ^ f.unitScale)) := by
  rw [convert, h.isNaN, h.isInfinite]
  simp [Nat.shiftLeft_eq]

/-- Every finite value of `f` is one of `g`, and `g` has its leading bit. -/
structure Widens (f g : FloatFormat) : Prop where
  fraction : f.fractionBits ≤ g.fractionBits
  scale : f.unitScale + g.fractionBits ≤ g.unitScale
  exponent : 2 ^ f.exponentBits + (g.unitScale - f.unitScale) < 2 ^ g.exponentBits

theorem binary16_widens : binary16.Widens binary64 := by constructor <;> decide

theorem binary32_widens : binary32.Widens binary64 := by constructor <;> decide

/-- A positive coefficient is shifted until its leading bit is the one of a wider format. -/
theorem exists_leading_shift {k n : Nat} (hw : 0 < w) (hlt : w < 2 * 2 ^ k) (hkn : k ≤ n) :
    ∃ j, n - k ≤ j ∧ j ≤ n ∧ 2 ^ n ≤ w * 2 ^ j ∧ w * 2 ^ j < 2 * 2 ^ n := by
  have hlog : Nat.log2 w ≤ k :=
    Nat.le_of_lt_succ ((Nat.log2_lt hw.ne').2 (by rwa [Nat.pow_succ']))
  obtain ⟨hself, hnext⟩ := (Nat.log2_eq_iff hw.ne').1 rfl
  have hpow : 2 ^ Nat.log2 w * 2 ^ (n - Nat.log2 w) = 2 ^ n := by
    rw [← Nat.pow_add, Nat.add_sub_cancel' (hlog.trans hkn)]
  refine ⟨n - Nat.log2 w, by omega, Nat.sub_le _ _, ?_, ?_⟩
  · rw [← hpow]
    exact Nat.mul_le_mul_right _ hself
  · rw [← hpow, ← Nat.mul_assoc, ← Nat.pow_succ']
    exact Nat.mul_lt_mul_of_pos_right hnext (Nat.two_pow_pos _)

/-- The largest exponent field is that of infinity, and the scale of a normal pattern is one less
than its field. -/
theorem scale_add_two_le (hp : s * 2 ^ f.fractionBits + w < f.infinity) :
    s + 2 ≤ 2 ^ f.exponentBits := by
  rw [infinity_eq] at hp
  have hfields : s < 2 ^ f.exponentBits - 1 :=
    Nat.lt_of_mul_lt_mul_right (Nat.lt_of_le_of_lt (Nat.le_add_right _ _) hp)
  omega

/-- The wider format has each finite magnitude, with zeros in the bits of the fraction that the
narrower one lacks. -/
theorem Widens.exists_units_eq (h : f.Widens g) (hp : p < f.infinity) :
    ∃ q < g.infinity, g.units q = f.units p * 2 ^ (g.unitScale - f.unitScale) ∧
      2 ^ (g.fractionBits - f.fractionBits) ∣ q := by
  obtain ⟨s, w, hnormalized, rfl⟩ := f.exists_normalized p
  have hfields := scale_add_two_le hp
  have hexponent := h.exponent
  have hscale := h.scale
  rw [hnormalized.units_eq, infinity_eq]
  rcases Nat.eq_zero_or_pos w with rfl | hw
  · have hzero : g.Normalized 0 0 := ⟨by have := Nat.two_pow_pos g.fractionBits; omega, Or.inl rfl⟩
    refine ⟨0, Nat.mul_pos (by omega) (Nat.two_pow_pos _), ?_, Nat.dvd_zero _⟩
    simpa using hzero.units_eq
  · obtain ⟨j, hj, hjn, hle, hlt⟩ := exists_leading_shift hw hnormalized.lt h.fraction
    have hwide : g.Normalized (s + (g.unitScale - f.unitScale) - j) (w * 2 ^ j) :=
      ⟨hlt, Or.inr hle⟩
    refine ⟨_, ?_, hwide.units_eq.trans ?_, ?_⟩
    · calc (s + (g.unitScale - f.unitScale) - j) * 2 ^ g.fractionBits + w * 2 ^ j
          < (s + (g.unitScale - f.unitScale) - j) * 2 ^ g.fractionBits + 2 * 2 ^ g.fractionBits :=
            Nat.add_lt_add_left hlt _
        _ = (s + (g.unitScale - f.unitScale) - j + 2) * 2 ^ g.fractionBits :=
            (Nat.add_mul _ _ _).symm
        _ ≤ (2 ^ g.exponentBits - 1) * 2 ^ g.fractionBits := Nat.mul_le_mul_right _ (by omega)
    · rw [Nat.mul_assoc, Nat.mul_assoc, ← Nat.pow_add, ← Nat.pow_add]
      congr 2
      omega
    · exact Nat.dvd_add (Nat.dvd_mul_left_of_dvd (Nat.pow_dvd_pow 2 (Nat.sub_le _ _)) _)
        (Nat.dvd_mul_left_of_dvd (Nat.pow_dvd_pow 2 hj) _)

/-- Widening is exact: the result has the sign and the magnitude that it was given. -/
theorem Widens.exists_convert_eq (h : f.Widens g) (hbits : f.IsFinite bits) :
    ∃ q < g.infinity, f.convert g bits = g.signed (f.isNegative bits) q ∧
      g.units q = f.units (f.magnitude bits) * 2 ^ (g.unitScale - f.unitScale) ∧
      2 ^ (g.fractionBits - f.fractionBits) ∣ q := by
  obtain ⟨q, hq, hunits, hdvd⟩ := h.exists_units_eq hbits.magnitude_lt
  have hscale := h.scale
  refine ⟨q, hq, ?_, hunits, hdvd⟩
  have hpow : 2 ^ g.unitScale = 2 ^ (g.unitScale - f.unitScale) * 2 ^ f.unitScale := by
    rw [← Nat.pow_add, Nat.sub_add_cancel (by omega)]
  rw [convert_of_isFinite g hbits, hpow, ← Nat.mul_assoc, ← hunits,
    nearest_units g q (Nat.two_pow_pos _), Nat.min_eq_left hq.le]

/-- Narrowing the pattern of a value that the narrower format has gives the pattern there. -/
theorem Widens.convert_signed (h : f.Widens g) (hp : p < f.infinity) (hq : q < g.infinity)
    (hunits : g.units q = f.units p * 2 ^ (g.unitScale - f.unitScale)) (negative : Bool) :
    g.convert f (g.signed negative q) = f.signed negative p := by
  have hscale := h.scale
  have hsign := hq.trans g.infinity_lt_signWeight
  have hpow : 2 ^ (g.unitScale - f.unitScale) * 2 ^ f.unitScale = 2 ^ g.unitScale := by
    rw [← Nat.pow_add, Nat.sub_add_cancel (by omega)]
  rw [convert_of_isFinite f (isFinite_signed negative hq), isNegative_signed negative hsign,
    magnitude_signed negative hsign, hunits, Nat.mul_assoc, hpow,
    nearest_units f p (Nat.two_pow_pos _), Nat.min_eq_left hp.le]

end FloatFormat

end ChunkedArray
