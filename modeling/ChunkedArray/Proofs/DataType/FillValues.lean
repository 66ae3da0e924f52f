import ChunkedArray.DataType.FillValue
import ChunkedArray.Proofs.Float.Conversions

/-!
# Fill values in JSON

Each element is read back from its JSON form bit by bit, only the payload of what is not a number is
lost. A type reads the JSON values of its kind alone: booleans, integers within its range, and for
floats numbers and three names.
-/

namespace ChunkedArray

/-! ### Elements that are not numbers -/

namespace Element

variable {t : DataType}

/-- A float that is not a number. -/
def isNaN (x : t.Element) : Bool :=
  match t with
  | .float s => s.format.isNaN x.val
  | _ => false

theorem sameValue_self (x : t.Element) : sameValue x x = !isNaN x := by
  cases t with
  | float s => simp [sameValue, isNaN]
  | bool | int s | uint s => simp [sameValue, isNaN]

theorem sameValue_of_isNaN (x : t.Element) {y : t.Element} (h : isNaN y = true) :
    sameValue x y = false := by
  cases t with
  | float s =>
    simp only [isNaN] at h
    simp [sameValue, h]
  | bool | int s | uint s => cases h

/-- `y` has the bits of `x`, unless `x` is not a number: then `y` is not one either. -/
def SameUpToPayload (x y : t.Element) : Prop :=
  if isNaN x then isNaN y = true else y = x

theorem sameUpToPayload_of_isNaN {x y : t.Element} (hx : isNaN x = true) (hy : isNaN y = true) :
    SameUpToPayload x y := by
  rwa [SameUpToPayload, if_pos hx]

theorem sameUpToPayload_refl (x : t.Element) : SameUpToPayload x x := by
  unfold SameUpToPayload
  split
  · assumption
  · rfl

/-! ### Integers -/

theorem signedValue_emod (x : t.Element) : signedValue x % t.patternCount = x.val := by
  have hlt := x.isLt
  unfold signedValue
  split
  · exact Int.emod_eq_of_lt (by omega) (by omega)
  · rw [Int.sub_emod_right]
    exact Int.emod_eq_of_lt (by omega) (by omega)

/-- The signed value of a pattern that stands for an integer within the signed range. -/
theorem signedValue_ofPattern {n : Int} (hlow : -(t.patternCount : Int) ≤ 2 * n)
    (hhigh : 2 * n < t.patternCount) :
    signedValue (t.ofPattern (n % t.patternCount).toNat) = n := by
  have hpos := t.patternCount_pos
  have hmod : (n % t.patternCount).toNat = if n < 0 then n + t.patternCount else n := by
    split
    · rw [← Int.add_emod_right, Int.emod_eq_of_lt (by omega) (by omega)]
      omega
    · rw [Int.emod_eq_of_lt (by omega) (by omega)]
      omega
  have hval : (t.ofPattern (n % t.patternCount).toNat).val = (n % t.patternCount).toNat :=
    Nat.mod_eq_of_lt (by split at hmod <;> omega)
  unfold signedValue
  rw [hval]
  split <;> split at hmod <;> omega

/-- Half of the patterns of two's complement are negative. -/
theorem signedValue_bounds (x : t.Element) :
    -(t.patternCount : Int) ≤ 2 * signedValue x ∧ 2 * signedValue x < t.patternCount := by
  have hlt := x.isLt
  unfold signedValue
  split <;> omega

end Element

namespace FillValue

/-! ### Floats -/

section

variable {s : FloatSize} {bits : Nat}

open FloatFormat

theorem patternCount_float (s : FloatSize) :
    (DataType.float s).patternCount = 2 * s.format.signWeight := by cases s <;> rfl

/-- The two narrower formats go through conversions; binary64 is taken as it is. -/
theorem widens_format (hs : s ≠ .bits64) : s.format.Widens binary64 := by
  cases s with
  | bits16 => exact binary16_widens
  | bits32 => exact binary32_widens
  | bits64 => exact absurd rfl hs

theorem widen_eq_convert (hs : s ≠ .bits64) : widen s bits = s.format.convert binary64 bits := by
  cases s with
  | bits16 | bits32 => rfl
  | bits64 => exact absurd rfl hs

/-- What is dropped before narrowing to binary16 is zero in all that was widened from it. -/
theorem narrow_eq_convert (hs : s ≠ .bits64) (negative : Bool) {q : Nat}
    (hdvd : s = .bits16 → 2 ^ 32 ∣ q) :
    narrow s (binary64.signed negative q) =
      binary64.convert s.format (binary64.signed negative q) := by
  cases s with
  | bits16 =>
    have hclear : clearLow 32 (binary64.signed negative q) = binary64.signed negative q :=
      clearLow_signed negative (by simp [binary64]) (hdvd rfl)
    simp only [narrow, hclear]
    split
    · next hnan => exact (convert_of_isNaN binary16 hnan).symm
    · rfl
  | bits32 => rfl
  | bits64 => exact absurd rfl hs

theorem isNaN_widen (h : s.format.isNaN bits = true) : binary64.isNaN (widen s bits) = true := by
  by_cases hs : s = .bits64
  · subst hs
    exact h
  · rw [widen_eq_convert hs, convert_of_isNaN binary64 h]
    decide

theorem isNaN_narrow_quietNaN (s : FloatSize) :
    Element.isNaN ((DataType.float s).ofPattern (narrow s binary64.quietNaN)) = true := by
  cases s <;> decide

theorem widen_signed_infinity (s : FloatSize) (negative : Bool) :
    widen s (s.format.signed negative s.format.infinity) =
      binary64.signed negative binary64.infinity := by
  by_cases hs : s = .bits64
  · subst hs
    rfl
  · rw [widen_eq_convert hs, convert_signed_infinity]

theorem narrow_signed_infinity (s : FloatSize) (negative : Bool) :
    narrow s (binary64.signed negative binary64.infinity) =
      s.format.signed negative s.format.infinity := by
  by_cases hs : s = .bits64
  · subst hs
    rfl
  · have hdvd : 2 ^ 32 ∣ binary64.infinity := by decide
    rw [narrow_eq_convert hs negative fun _ => hdvd, convert_signed_infinity]

/-- A finite element is widened to a finite number, and narrowing that gives the element. -/
theorem narrow_widen (h : s.format.IsFinite bits) :
    binary64.IsFinite (widen s bits) ∧ narrow s (widen s bits) = bits := by
  by_cases hs : s = .bits64
  · subst hs
    exact ⟨h, rfl⟩
  · obtain ⟨q, hq, hconvert, hunits, hdvd⟩ := (widens_format hs).exists_convert_eq h
    rw [widen_eq_convert hs, hconvert]
    refine ⟨isFinite_signed _ hq, ?_⟩
    have hlow : s = .bits16 → 2 ^ 32 ∣ q := by
      rintro rfl
      exact (Nat.pow_dvd_pow 2 (by decide)).trans hdvd
    rw [narrow_eq_convert hs _ hlow, (widens_format hs).convert_signed h.magnitude_lt hq hunits,
      signed_magnitude h.lt]

end

/-! ### What is accepted -/

variable {t : DataType} {v : Json}

theorem ofJson_eq_ok_iff {x : t.Element} :
    ofJson t v = .ok x ↔ ∃ n, pattern? t v = some n ∧ t.ofPattern n = x := by
  unfold ofJson
  cases pattern? t v <;> simp

theorem exists_ofJson_iff : (∃ x, ofJson t v = .ok x) ↔ (pattern? t v).isSome = true := by
  simp only [ofJson_eq_ok_iff, Option.isSome_iff_exists]
  exact ⟨fun ⟨_, n, hn, _⟩ => ⟨n, hn⟩, fun ⟨n, hn⟩ => ⟨_, n, hn, rfl⟩⟩

theorem ofJson_eq_error {e : FillValueError} (h : ofJson t v = .error e) : e = ⟨v, t⟩ := by
  unfold ofJson at h
  split at h <;> cases h
  rfl

theorem validate_eq_ok_iff : validate t v = .ok () ↔ ∃ x, ofJson t v = .ok x := by
  unfold validate
  cases ofJson t v <;> simp [Except.map]

/-! Booleans. -/

theorem ofJson_bool_eq_ok_iff {x : DataType.bool.Element} :
    ofJson .bool v = .ok x ↔ v = .bool (x.val == 1) := by
  rw [ofJson_eq_ok_iff]
  constructor
  · rintro ⟨n, hn, rfl⟩
    cases v with
    | bool b =>
      cases hn
      cases b <;> rfl
    | null | int _ | float _ | str _ | arr _ | obj _ => cases hn
  · rintro rfl
    refine ⟨_, rfl, ?_⟩
    have hx : x.val < 2 := x.isLt
    have hval : (x.val == 1).toNat = x.val := by
      rcases Nat.lt_succ_iff_lt_or_eq.1 hx with hzero | hone
      · simp [Nat.lt_one_iff.1 hzero]
      · simp [hone]
    rw [hval, DataType.ofPattern_val]

/-! Integers. -/

theorem pattern?_eq_some_iff {s : IntSize} (ht : t = .int s ∨ t = .uint s) {m : Nat} :
    pattern? t v = some m ↔
      ∃ n, v = .int n ∧ (intRange t).1 ≤ n ∧ n ≤ (intRange t).2 ∧
        (n % t.patternCount).toNat = m := by
  rcases ht with rfl | rfl <;> cases v <;> simp [pattern?, and_assoc]

theorem patternCount_int (s : IntSize) :
    ((DataType.int s).patternCount : Int) = 2 * 2 ^ (s.bitCount - 1) := by cases s <;> rfl

theorem patternCount_uint (s : IntSize) :
    ((DataType.uint s).patternCount : Int) = 2 ^ s.bitCount := by cases s <;> rfl

theorem ofJson_int_eq_ok_iff {s : IntSize} {x : (DataType.int s).Element} :
    ofJson (.int s) v = .ok x ↔
      ∃ n : Int, v = .int n ∧ -2 ^ (s.bitCount - 1) ≤ n ∧ n < 2 ^ (s.bitCount - 1) ∧
        Element.signedValue x = n := by
  have hcount := patternCount_int s
  simp only [ofJson_eq_ok_iff, pattern?_eq_some_iff (.inl rfl), intRange]
  constructor
  · rintro ⟨_, ⟨n, rfl, hlow, hhigh, rfl⟩, rfl⟩
    exact ⟨n, rfl, by omega, by omega, Element.signedValue_ofPattern (by omega) (by omega)⟩
  · rintro ⟨_, rfl, hlow, hhigh, rfl⟩
    refine ⟨x.val, ⟨_, rfl, by omega, by omega, ?_⟩, DataType.ofPattern_val _ x⟩
    rw [Element.signedValue_emod, Int.toNat_natCast]

theorem ofJson_uint_eq_ok_iff {s : IntSize} {x : (DataType.uint s).Element} :
    ofJson (.uint s) v = .ok x ↔
      ∃ n : Int, v = .int n ∧ 0 ≤ n ∧ n < 2 ^ s.bitCount ∧ (x.val : Int) = n := by
  have hcount := patternCount_uint s
  simp only [ofJson_eq_ok_iff, pattern?_eq_some_iff (.inr rfl), intRange]
  constructor
  · rintro ⟨_, ⟨n, rfl, hlow, hhigh, rfl⟩, rfl⟩
    have hmod : n % (DataType.uint s).patternCount = n := Int.emod_eq_of_lt hlow (by omega)
    have hval : ((DataType.uint s).ofPattern n.toNat).val = n.toNat := Nat.mod_eq_of_lt (by omega)
    exact ⟨n, rfl, hlow, by omega, by rw [hmod, hval, Int.toNat_of_nonneg hlow]⟩
  · rintro ⟨_, rfl, hlow, hhigh, rfl⟩
    refine ⟨x.val, ⟨_, rfl, by omega, by omega, ?_⟩, DataType.ofPattern_val _ x⟩
    rw [Int.emod_eq_of_lt (by omega) (by omega), Int.toNat_natCast]

/-! Floats. -/

theorem exists_ofJson_float_iff (s : FloatSize) :
    (∃ x, ofJson (.float s) v = .ok x) ↔
      (∃ n, v = .int n) ∨ (∃ bits, v = .float bits) ∨
        v = .str "NaN" ∨ v = .str "Infinity" ∨ v = .str "-Infinity" := by
  rw [exists_ofJson_iff, pattern?, Option.isSome_map]
  cases v with
  | str name =>
    simp only [binary64?]
    split
    · simp [*]
    · split
      · simp [*]
      · split <;> simp [*]
  | int n | float bits => simp [binary64?]
  | null | bool _ | arr _ | obj _ => simp [binary64?]

section

variable {s : FloatSize} {x : (DataType.float s).Element}

theorem toJson_of_isNaN (h : s.format.isNaN x.val = true) : toJson x = .str "NaN" :=
  if_pos (isNaN_widen h)

theorem toJson_of_isInfinite (hx : x.val < 2 * s.format.signWeight)
    (h : s.format.isInfinite x.val = true) :
    toJson x = .str (if s.format.isNegative x.val then "-Infinity" else "Infinity") := by
  have hwiden := widen_signed_infinity s (s.format.isNegative x.val)
  rw [← FloatFormat.signed_infinity_of_isInfinite hx h] at hwiden
  rw [toJson, hwiden]
  cases s.format.isNegative x.val <;> rfl

theorem toJson_of_isFinite (h : s.format.IsFinite x.val) : toJson x = .float (widen s x.val) := by
  have hfinite := (narrow_widen h).1
  rw [toJson, ofBinary64, hfinite.isNaN, hfinite.isInfinite]
  rfl

/-- What is not a number loses its payload; every other float is read back as it was. -/
theorem exists_ofJson_toJson_float (x : (DataType.float s).Element) :
    ∃ y, ofJson (.float s) (toJson x) = .ok y ∧ Element.SameUpToPayload x y := by
  have hx : x.val < 2 * s.format.signWeight := x.isLt.trans_eq (patternCount_float s)
  rcases FloatFormat.isFinite_or hx with hnan | hinfinite | hfinite
  · rw [toJson_of_isNaN hnan]
    exact ⟨_, rfl, Element.sameUpToPayload_of_isNaN hnan (isNaN_narrow_quietNaN s)⟩
  · have hread (negative : Bool) :
        ofJson (.float s) (.str (if negative then "-Infinity" else "Infinity")) =
          .ok (DataType.ofPattern _ (s.format.signed negative s.format.infinity)) := by
      rw [← narrow_signed_infinity]
      cases negative <;> rfl
    rw [toJson_of_isInfinite hx hinfinite, hread,
      ← FloatFormat.signed_infinity_of_isInfinite hx hinfinite, DataType.ofPattern_val]
    exact ⟨x, rfl, Element.sameUpToPayload_refl x⟩
  · have hread : ofJson (.float s) (.float (widen s x.val)) =
        .ok (DataType.ofPattern _ (narrow s (widen s x.val))) := rfl
    rw [toJson_of_isFinite hfinite, hread, (narrow_widen hfinite).2, DataType.ofPattern_val]
    exact ⟨x, rfl, Element.sameUpToPayload_refl x⟩

end

/-! ### Every type -/

/-- Every element is read back from its JSON form. -/
theorem exists_ofJson_toJson (x : t.Element) :
    ∃ y, ofJson t (toJson x) = .ok y ∧ Element.SameUpToPayload x y := by
  cases t with
  | bool => exact ⟨x, ofJson_bool_eq_ok_iff.2 rfl, Element.sameUpToPayload_refl x⟩
  | int s =>
    have hcount := patternCount_int s
    obtain ⟨hlow, hhigh⟩ := Element.signedValue_bounds x
    have hread : ofJson (.int s) (toJson x) = .ok x :=
      ofJson_int_eq_ok_iff.2 ⟨_, rfl, by omega, by omega, rfl⟩
    exact ⟨x, hread, Element.sameUpToPayload_refl x⟩
  | uint s =>
    have hcount := patternCount_uint s
    have hlt := x.isLt
    have hread : ofJson (.uint s) (toJson x) = .ok x :=
      ofJson_uint_eq_ok_iff.2 ⟨_, rfl, by omega, by omega, rfl⟩
    exact ⟨x, hread, Element.sameUpToPayload_refl x⟩
  | float s => exact exists_ofJson_toJson_float x

/-- No type has a fill value that is null, and so no element is written as null. -/
theorem toJson_ne_null (x : t.Element) : toJson x ≠ .null := by
  intro hnull
  obtain ⟨y, hread, -⟩ := exists_ofJson_toJson x
  rw [hnull] at hread
  have haccepted := exists_ofJson_iff.1 ⟨y, hread⟩
  cases t <;> cases haccepted

/-- A float that is written as a number is a finite one: JSON has no others. -/
theorem isFinite_of_toJson {x : t.Element} {bits : Nat} (h : toJson x = .float bits) :
    FloatFormat.binary64.IsFinite bits := by
  cases t with
  | bool | int _ | uint _ => cases h
  | float s =>
    have hx : x.val < 2 * s.format.signWeight := x.isLt.trans_eq (patternCount_float s)
    rcases FloatFormat.isFinite_or hx with hnan | hinfinite | hfinite
    · cases (toJson_of_isNaN hnan).symm.trans h
    · cases (toJson_of_isInfinite hx hinfinite).symm.trans h
    · cases (toJson_of_isFinite hfinite).symm.trans h
      exact (narrow_widen hfinite).1

/-- What stands for a fill value that was not chosen is zero or false. -/
theorem ofJson_default (t : DataType) : ofJson t (default t) = .ok (t.ofPattern 0) := by
  cases t with
  | bool => rfl
  | int s | uint s | float s => cases s <;> rfl

/-- What fill values of every type are in JSON. -/
structure ReadsExactly : Prop where
  survives : ∀ (t : DataType) (x : t.Element),
    ∃ y, ofJson t (toJson x) = .ok y ∧ Element.SameUpToPayload x y
  neverNull : ∀ (t : DataType) (x : t.Element), toJson x ≠ .null
  finite : ∀ (t : DataType) (x : t.Element) (bits : Nat), toJson x = .float bits →
    FloatFormat.binary64.IsFinite bits
  bool : ∀ (v : Json) (x : DataType.bool.Element),
    ofJson .bool v = .ok x ↔ v = .bool (x.val == 1)
  int : ∀ (s : IntSize) (v : Json) (x : (DataType.int s).Element), ofJson (.int s) v = .ok x ↔
    ∃ n : Int, v = .int n ∧ -2 ^ (s.bitCount - 1) ≤ n ∧ n < 2 ^ (s.bitCount - 1) ∧
      Element.signedValue x = n
  uint : ∀ (s : IntSize) (v : Json) (x : (DataType.uint s).Element), ofJson (.uint s) v = .ok x ↔
    ∃ n : Int, v = .int n ∧ 0 ≤ n ∧ n < 2 ^ s.bitCount ∧ (x.val : Int) = n
  float : ∀ (s : FloatSize) (v : Json), (∃ x, ofJson (.float s) v = .ok x) ↔
    (∃ n, v = .int n) ∨ (∃ bits, v = .float bits) ∨
      v = .str "NaN" ∨ v = .str "Infinity" ∨ v = .str "-Infinity"
  refused : ∀ (t : DataType) (v : Json) (e : FillValueError), ofJson t v = .error e → e = ⟨v, t⟩
  validated : ∀ (t : DataType) (v : Json), validate t v = .ok () ↔ ∃ x, ofJson t v = .ok x

/-- Fill values survive their JSON form, and each type accepts the values of its kind alone. -/
theorem readsExactly : ReadsExactly where
  survives _ := exists_ofJson_toJson
  neverNull _ := toJson_ne_null
  finite _ _ _ := isFinite_of_toJson
  bool _ _ := ofJson_bool_eq_ok_iff
  int _ _ _ := ofJson_int_eq_ok_iff
  uint _ _ _ := ofJson_uint_eq_ok_iff
  float s _ := exists_ofJson_float_iff s
  refused _ _ _ := ofJson_eq_error
  validated _ _ := validate_eq_ok_iff

end FillValue

end ChunkedArray
