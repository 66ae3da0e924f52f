import ChunkedArray.Proofs.Metadata.Documents
import ChunkedArray.Proofs.Outcome
import Mathlib.Data.Nat.Digits.Defs
import Mathlib.Data.Char
import Mathlib.Data.List.Induction
import Mathlib.Data.List.TakeWhile
import Mathlib.Data.String.Basic

/-!
# Names of data types

Which texts are read as a data type. The number of a name is read as a word, so zeros before it make
no difference, and what follows a kind and is no word counts as no number at all.
-/

namespace ChunkedArray

/-! ### Sizes -/

theorem IntSize.ofBitCount?_eq_some_iff {n : Nat} {s : IntSize} :
    ofBitCount? n = some s ↔ n = s.bitCount := by
  rw [ofBitCount?]
  cases s <;> simp only [bitCount, byteCount] <;> grind

theorem FloatSize.ofBitCount?_eq_some_iff {n : Nat} {s : FloatSize} :
    ofBitCount? n = some s ↔ n = s.bitCount := by
  rw [ofBitCount?]
  cases s <;> simp only [bitCount, byteCount] <;> grind

namespace DataType

/-! ### Numbers -/

theorem isNameDigit_eq_isDigit (c : Char) : isNameDigit c = c.isDigit := by
  simp [isNameDigit, Char.isDigit, Char.le_def]

theorem isNameDigit_of_mem_toDigits {n : Nat} {c : Char} (h : c ∈ Nat.toDigits 10 n) :
    isNameDigit c = true := by
  rw [isNameDigit_eq_isDigit]
  exact Nat.isDigit_of_mem_toDigits (by decide) (by decide) h

/-- A digit is what writes its own value. -/
theorem toDigits_of_isNameDigit {c : Char} (h : isNameDigit c = true) :
    c.toNat - 48 < 10 ∧ Nat.toDigits 10 (c.toNat - 48) = [c] := by
  have hdigitChar : ∀ d < 10, Nat.digitChar d = Char.ofNat (48 + d) := by decide
  rw [isNameDigit_eq_isDigit] at h
  have hbounds : 48 ≤ c.toNat ∧ c.toNat ≤ 57 := Char.isDigit_iff_toNat.1 h
  have hlt : c.toNat - 48 < 10 := by omega
  refine ⟨hlt, ?_⟩
  rw [Nat.toDigits_of_lt_base hlt, hdigitChar _ hlt, Nat.add_sub_cancel' hbounds.1, Char.ofNat_toNat]

/-- Digits write their number, after some zeros. -/
theorem eq_replicate_append_toDigits {cs : List Char} (h : ∀ c ∈ cs, isNameDigit c = true) :
    ∃ zeros, cs = List.replicate zeros '0' ++
      if Nat.ofDigitChars 10 cs 0 = 0 then [] else Nat.toDigits 10 (Nat.ofDigitChars 10 cs 0) := by
  -- Digits are added at the end, so the number before the last is that of the induction.
  induction cs using List.reverseRecOn with
  | nil => exact ⟨0, rfl⟩
  | append_singleton cs c ih =>
    rw [List.forall_mem_append, List.forall_mem_singleton] at h
    obtain ⟨zeros, hcs⟩ := ih h.1
    obtain ⟨hlt, hdigit⟩ := toDigits_of_isNameDigit h.2
    have hvalue : Nat.ofDigitChars 10 (cs ++ [c]) 0 =
        10 * Nat.ofDigitChars 10 cs 0 + (c.toNat - 48) := by
      rw [Nat.ofDigitChars_append, Nat.ofDigitChars_cons, Nat.ofDigitChars_nil]
      rfl
    rw [hvalue]
    by_cases hzero : Nat.ofDigitChars 10 cs 0 = 0
    · rw [if_pos hzero, List.append_nil] at hcs
      by_cases hc : c.toNat - 48 = 0
      · rw [hc] at hdigit
        obtain rfl : '0' = c := List.cons.inj hdigit |>.1
        refine ⟨zeros + 1, ?_⟩
        rw [hzero, if_pos (by rw [hc]), List.append_nil, List.replicate_succ', ← hcs]
      · refine ⟨zeros, ?_⟩
        rw [hzero, if_neg (by omega), Nat.mul_zero, Nat.zero_add, hdigit, ← hcs]
    · rw [if_neg hzero] at hcs
      refine ⟨zeros, ?_⟩
      rw [if_neg (by omega), ← Nat.toDigits_append_toDigits (by decide) (by omega) hlt, hdigit,
        ← List.append_assoc, ← hcs]

theorem numberOfDigits?_eq {cs : List Char} :
    numberOfDigits? cs =
      if cs ≠ [] ∧ cs.all isNameDigit ∧ Nat.ofDigitChars 10 cs 0 < wordLimit then
        some (Nat.ofDigitChars 10 cs 0) else none := by
  have hfold : cs.foldl (fun n c => n * 10 + (c.toNat - 48)) 0 = Nat.ofDigitChars 10 cs 0 := by
    rw [Nat.ofDigitChars_eq_foldl]
    simp only [Nat.mul_comm]
    rfl
  simp only [numberOfDigits?, hfold]
  grind

theorem numberOfDigits?_eq_some_iff {cs : List Char} {n : Nat} (hpos : 0 < n) (hn : n < wordLimit) :
    numberOfDigits? cs = some n ↔ ∃ zeros, cs = List.replicate zeros '0' ++ Nat.toDigits 10 n := by
  rw [numberOfDigits?_eq]
  constructor
  · intro h
    split at h
    · next hcs =>
      obtain rfl := Option.some.inj h
      obtain ⟨zeros, he⟩ := eq_replicate_append_toDigits (List.all_eq_true.1 hcs.2.1)
      rw [if_neg (by omega)] at he
      exact ⟨zeros, he⟩
    · cases h
  · rintro ⟨zeros, rfl⟩
    have hvalue : Nat.ofDigitChars 10 (List.replicate zeros '0' ++ Nat.toDigits 10 n) 0 = n := by
      rw [Nat.ofDigitChars_append, Nat.ofDigitChars_replicate_zero, Nat.mul_zero,
        Nat.ofDigitChars_ten_toDigits]
    have hdigits : ∀ c ∈ List.replicate zeros '0' ++ Nat.toDigits 10 n, isNameDigit c = true := by
      rw [List.forall_mem_append]
      refine ⟨fun c hc => ?_, fun c => isNameDigit_of_mem_toDigits⟩
      rw [List.eq_of_mem_replicate hc]
      rfl
    have hne := List.append_ne_nil_of_right_ne_nil (List.replicate zeros '0')
      (Nat.toDigits_ne_nil (n := n) (b := 10))
    rw [hvalue, if_pos ⟨hne, List.all_eq_true.2 hdigits, hn⟩]

/-- What begins with a digit is no number for a character that is no digit, or because it is too
large. -/
theorem numberOfDigits?_cons_eq_none_iff {c : Char} {cs : List Char} (hc : isNameDigit c = true) :
    numberOfDigits? (c :: cs) = none ↔
      (∃ d ∈ cs, isNameDigit d = false) ∨ wordLimit ≤ Nat.ofDigitChars 10 (c :: cs) 0 := by
  rw [numberOfDigits?_eq, ite_eq_right_iff, List.all_eq_true, List.forall_mem_cons]
  simp only [ne_eq, reduceCtorEq, not_false_eq_true, hc, true_and, imp_false, not_and_or, not_forall,
    not_lt, Bool.not_eq_true, exists_prop]

/-! ### Kinds -/

/-- What stands before the number in the name of a type. -/
def kind : DataType → String
  | .bool => "bool"
  | .int _ => "int"
  | .uint _ => "uint"
  | .float _ => "float"

/-- The number in the name of a type. -/
def number? : DataType → Option Nat
  | .bool => none
  | t => some t.bitCount

theorem ofName_eq_ok_iff_splitName {s : String} {t : DataType} :
    ofName s = .ok t ↔ splitName s = (t.kind, t.number?) := by
  have helim (x : Option DataType) :
      x.elim (.error ⟨s⟩) .ok = (.ok t : Except UnknownName DataType) ↔ x = some t := by
    cases x <;> simp
  simp only [ofName, helim]
  split
  · next h => cases t <;> simp [h, kind, number?]
  · next h =>
    rw [Option.map_eq_some_iff]
    simp only [IntSize.ofBitCount?_eq_some_iff]
    cases t <;> simp [h, kind, number?, bitCount, byteCount, IntSize.bitCount]
  · next h =>
    rw [Option.map_eq_some_iff]
    simp only [IntSize.ofBitCount?_eq_some_iff]
    cases t <;> simp [h, kind, number?, bitCount, byteCount, IntSize.bitCount]
  · next h =>
    rw [Option.map_eq_some_iff]
    simp only [FloatSize.ofBitCount?_eq_some_iff]
    cases t <;> simp [h, kind, number?, bitCount, byteCount, FloatSize.bitCount]
  · cases t <;> simp_all [kind, number?]

/-- A kind and what stands after it, which begins with a digit unless it is empty. -/
theorem splitName_eq_iff {s kind : String} {n : Option Nat} :
    splitName s = (kind, n) ↔ ∃ rest : List Char, s = kind ++ String.ofList rest ∧
      (∀ c ∈ kind.toList, isNameDigit c = false) ∧ (∀ c ∈ rest.head?, isNameDigit c = true) ∧
      numberOfDigits? rest = n := by
  simp only [splitName, Prod.mk.injEq]
  constructor
  · rintro ⟨rfl, hn⟩
    refine ⟨_, ?_, fun c hc => ?_, fun c hc => ?_, hn⟩
    · rw [← String.ofList_append, List.takeWhile_append_dropWhile, String.ofList_toList]
    · rw [String.toList_ofList] at hc
      simpa using List.mem_takeWhile_imp hc
    · have hhead := List.head?_dropWhile_not (fun c => !isNameDigit c) s.toList
      rw [Option.mem_def.1 hc] at hhead
      simpa using hhead
  · rintro ⟨rest, rfl, hkind, hrest, hn⟩
    have hkind' : ∀ c ∈ kind.toList, (!isNameDigit c) = true := fun c hc => by rw [hkind c hc]; rfl
    rw [String.toList_append, String.toList_ofList, List.takeWhile_append_of_pos hkind',
      List.dropWhile_append_of_pos hkind']
    cases rest with
    | nil => exact ⟨by simp, hn⟩
    | cons c rest =>
      have hc : (!isNameDigit c) = false := by rw [hrest c rfl]; rfl
      rw [List.takeWhile_cons_of_neg (by simp [hc]), List.dropWhile_cons_of_neg (by simp [hc])]
      exact ⟨by simp, hn⟩

/-- The name of a type with zeros before its number. -/
def IsPadded (t : DataType) (s : String) : Prop :=
  ∃ n ∈ t.number?, ∃ zeros, 0 < zeros ∧
    s = t.kind ++ String.ofList (List.replicate zeros '0') ++ toString n

/-- The name of booleans, and after it something that begins with a digit and is no word. -/
def IsBoolWithRest (t : DataType) (s : String) : Prop :=
  t = .bool ∧ ∃ c rest, s = "bool" ++ String.ofList (c :: rest) ∧ isNameDigit c = true ∧
    ((∃ d ∈ rest, isNameDigit d = false) ∨ wordLimit ≤ Nat.ofDigitChars 10 (c :: rest) 0)

theorem name_eq {t : DataType} : t.name = t.kind ++ (t.number?.elim "" toString) := by
  cases t with
  | bool => rfl
  | int s | uint s | float s => cases s <;> decide

theorem isNameDigit_of_mem_kind (t : DataType) : ∀ c ∈ t.kind.toList, isNameDigit c = false := by
  cases t <;> simp [kind, isNameDigit]

theorem number?_pos {t : DataType} {n : Nat} (h : t.number? = some n) : 0 < n ∧ n < wordLimit := by
  cases t with
  | bool => cases h
  | int s | uint s | float s =>
    obtain rfl := Option.some.inj h
    cases s <;> decide

/-- The number of a type with zeros before it is read as the number. -/
theorem splitName_eq_iff_of_number? {s : String} {t : DataType} {n : Nat} (hn : t.number? = some n) :
    splitName s = (t.kind, some n) ↔
      ∃ zeros, s = t.kind ++ String.ofList (List.replicate zeros '0') ++ toString n := by
  obtain ⟨hpos, hlt⟩ := number?_pos hn
  simp only [splitName_eq_iff, numberOfDigits?_eq_some_iff hpos hlt, Nat.toString_eq_ofList_toDigits,
    String.append_assoc, ← String.ofList_append]
  constructor
  · rintro ⟨_, rfl, -, -, zeros, rfl⟩
    exact ⟨zeros, rfl⟩
  · rintro ⟨zeros, rfl⟩
    refine ⟨_, rfl, isNameDigit_of_mem_kind t, fun c hc => ?_, zeros, rfl⟩
    rcases List.mem_append.1 (List.mem_of_head? hc) with hc | hc
    · rw [List.eq_of_mem_replicate hc]
      rfl
    · exact isNameDigit_of_mem_toDigits hc

theorem splitName_eq_bool_iff {s : String} :
    splitName s = ("bool", none) ↔ s = "bool" ∨ IsBoolWithRest .bool s := by
  rw [splitName_eq_iff]
  constructor
  · rintro ⟨rest, rfl, -, hhead, hnone⟩
    cases rest with
    | nil => exact .inl (by simp)
    | cons c rest =>
      have hc : isNameDigit c = true := hhead c rfl
      exact .inr ⟨rfl, c, rest, rfl, hc, (numberOfDigits?_cons_eq_none_iff hc).1 hnone⟩
  · rintro (rfl | ⟨-, c, rest, rfl, hc, hrest⟩)
    · exact ⟨[], by simp, isNameDigit_of_mem_kind .bool, by simp, rfl⟩
    · exact ⟨_, rfl, isNameDigit_of_mem_kind .bool, by simpa using hc,
        (numberOfDigits?_cons_eq_none_iff hc).2 hrest⟩

theorem ofName_eq_ok_iff {s : String} {t : DataType} :
    ofName s = .ok t ↔ s = t.name ∨ t.IsPadded s ∨ t.IsBoolWithRest s := by
  rw [ofName_eq_ok_iff_splitName, name_eq]
  cases hn : t.number? with
  | none =>
    obtain rfl : t = .bool := by cases t <;> first | rfl | cases hn
    rw [kind, splitName_eq_bool_iff]
    simp [IsPadded, hn]
  | some n =>
    have hnot : ¬ t.IsBoolWithRest s := by
      rintro ⟨rfl, -⟩
      cases hn
    rw [splitName_eq_iff_of_number? hn, IsPadded]
    simp only [hn, hnot, or_false, Option.mem_some_iff, exists_eq_left', Option.elim_some]
    constructor
    · rintro ⟨zeros, rfl⟩
      cases zeros with
      | zero => exact .inl (by simp)
      | succ zeros => exact .inr ⟨zeros + 1, Nat.succ_pos _, rfl⟩
    · rintro (rfl | ⟨zeros, -, rfl⟩)
      · exact ⟨0, by simp⟩
      · exact ⟨zeros, rfl⟩

theorem ofName_ok_or_error (s : String) : (∃ t, ofName s = .ok t) ∨ ofName s = .error ⟨s⟩ := by
  have helim (x : Option DataType) :
      (∃ t, x.elim (.error ⟨s⟩) .ok = (.ok t : Except UnknownName DataType)) ∨
        x.elim (.error ⟨s⟩) .ok = (.error ⟨s⟩ : Except UnknownName DataType) := by
    cases x with
    | none => exact .inr rfl
    | some t => exact .inl ⟨t, rfl⟩
  exact helim _

/-- What is read of a text that may name a type. -/
structure ReadsNames (s : String) : Prop where
  ok_iff : ∀ t, ofName s = .ok t ↔ s = t.name ∨ t.IsPadded s ∨ t.IsBoolWithRest s
  unknown : (∀ t, ofName s ≠ .ok t) → ofName s = .error ⟨s⟩
  /-- Metadata have the type that their document names. -/
  metadata : ∀ x fields m, x.fields? ArrayMetadata.fieldNames = some fields →
    fields.lookup "data_type" = some (.str s) → ArrayMetadata.ofRaw? x = some m →
    ofName s = .ok m.dataType

theorem readsNames (s : String) : ReadsNames s := by
  constructor
  · exact fun t => ofName_eq_ok_iff
  · intro hnot
    obtain ⟨t, ht⟩ | herror := ofName_ok_or_error s
    · exact absurd ht (hnot t)
    · exact herror
  · intro x fields m hfields hname hm
    obtain ⟨_, hsame, -, -, htype, -⟩ := ArrayMetadata.exists_fields_of_ofRaw? hm
    obtain rfl := Option.some.inj (hfields.symm.trans hsame)
    obtain ⟨_, hfound, ht⟩ := RawJson.required_eq_some_iff.1 htype
    obtain rfl := Option.some.inj (hname.symm.trans hfound)
    exact Outcome.toOption_eq_some_iff.1 ht

/-- A name that is no word after all, and a number that begins with a zero. -/
theorem ofName_not_canonical : ofName "bool8x" = .ok .bool ∧ ofName "int08" = .ok (.int .bits8) ∧
    ¬ ∀ s t, ofName s = .ok t → t.name = s := by
  have hbool : ofName "bool8x" = .ok .bool := by decide
  refine ⟨hbool, by decide, fun h => ?_⟩
  have := h _ _ hbool
  exact absurd this (by decide)

end DataType

end ChunkedArray
