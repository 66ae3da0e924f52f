import ChunkedArray.Proofs.ChunkKeys
import ChunkedArray.Proofs.Store.DirectoryReads

/-!
# The text of a key

A key whose components are valid can be read back from its text. A text that can be read is the text
of the key that is read, but for the empty segments.
-/

namespace ChunkedArray

namespace KeyComponent

variable {c : KeyComponent} {cs : List Char} {s : String}

theorem startsReserved_iff : startsReserved cs = true ↔ ['_', '_'] <+: cs := by
  constructor
  · intro h
    unfold startsReserved at h
    split at h
    · exact ⟨_, rfl⟩
    · cases h
  · rintro ⟨rest, rfl⟩
    rfl

theorem valid_iff : c.Valid ↔ c.text.toList ≠ [] ∧ ¬ ['_', '_'] <+: c.text.toList ∧
    (∃ x ∈ c.text.toList, x ≠ '.') ∧ '/' ∉ c.text.toList := by
  have hperiods : c.text.toList.all (· == '.') = true ↔ ¬ ∃ x ∈ c.text.toList, x ≠ '.' := by simp
  rw [Valid, fault?]
  split
  · next h => simp [h]
  · next hne =>
    split
    · next h => simp [startsReserved_iff.1 h]
    · next hreserved =>
      rw [startsReserved_iff] at hreserved
      split
      · next h => simp only [hperiods.1 h, false_and, and_false, reduceCtorEq]
      · next h =>
        have hother := not_not.1 (mt hperiods.2 h)
        split
        · next h => simp [List.contains_iff_mem.1 h]
        · next h =>
          have hslash : '/' ∉ c.text.toList := fun hmem => h (List.contains_iff_mem.2 hmem)
          simp only [ne_eq, hne, hreserved, hother, hslash, not_false_iff, and_self]

theorem Valid.ne_nil (h : c.Valid) : c.text.toList ≠ [] := (valid_iff.1 h).1

theorem Valid.slash_notMem (h : c.Valid) : '/' ∉ c.text.toList := (valid_iff.1 h).2.2.2

theorem parse_eq_ok : parse s = .ok c ↔ s = c.text ∧ c.Valid := by
  rw [← Outcome.toOption_eq_some_iff, parse_eq_ok_iff]

theorem mapM_parse_eq_ok_iff {parts : List (List Char)} {cs : List KeyComponent} :
    (parts.mapM fun part => parse (String.ofList part)) = .ok cs ↔
      parts = cs.map (·.text.toList) ∧ ∀ c ∈ cs, c.Valid := by
  induction parts generalizing cs with
  | nil => cases cs <;> simp
  | cons part parts ih =>
    rw [List.mapM_cons, Outcome.bind_eq_ok_iff]
    simp only [Outcome.bind_eq_ok_iff, ih, parse_eq_ok, Outcome.pure_eq_ok, Except.ok.injEq]
    constructor
    · rintro ⟨c, ⟨hc, hvalid⟩, cs, ⟨rfl, hcs⟩, rfl⟩
      rw [List.map_cons, ← hc, String.toList_ofList]
      exact ⟨rfl, List.forall_mem_cons.2 ⟨hvalid, hcs⟩⟩
    · rintro ⟨hparts, hvalid⟩
      cases cs with
      | nil => cases hparts
      | cons c cs =>
        obtain ⟨rfl, rfl⟩ := List.cons.inj hparts
        rw [List.forall_mem_cons] at hvalid
        exact ⟨c, ⟨String.ofList_toList, hvalid.1⟩, cs, ⟨rfl, hvalid.2⟩, rfl⟩

end KeyComponent

/-- What starts with the letter `c` or a digit starts neither with a period nor with an underscore. -/
theorem ChunkKeyEncoding.IsPart.valid {c : KeyComponent} (h : IsPart c.text.toList) : c.Valid := by
  obtain ⟨⟨x, hx, hstart⟩, hslash⟩ := h
  obtain ⟨rest, hrest⟩ := List.head?_eq_some_iff.1 hx
  rw [KeyComponent.valid_iff]
  refine ⟨by simp [hrest], ?_, ⟨x, by simp [hrest], ?_⟩, hslash⟩
  · intro hreserved
    rw [hrest, List.cons_prefix_cons] at hreserved
    obtain rfl := hreserved.1
    exact absurd hstart (by decide)
  · rintro rfl
    exact absurd hstart (by decide)

namespace Key

variable {k k' : Key} {s : String}

/-- The texts of the components. -/
def texts (k : Key) : List (List Char) := k.components.map (·.text.toList)

/-- A text with its empty segments taken out. -/
def withoutEmptySegments (s : String) : String :=
  String.ofList (List.intercalate [separator] ((segments s.toList).filter (· ≠ [])))

theorem toText_eq (k : Key) : k.toText = String.ofList (List.intercalate [separator] k.texts) := rfl

theorem parse_eq_ok_iff :
    parse s = .ok k ↔ (segments s.toList).filter (· ≠ []) = k.texts ∧ k.Valid := by
  rw [parse, Outcome.bind_eq_ok_iff]
  simp only [KeyComponent.mapM_parse_eq_ok_iff, Outcome.pure_eq_ok, Except.ok.injEq]
  constructor
  · rintro ⟨cs, ⟨hparts, hvalid⟩, rfl⟩
    exact ⟨hparts, hvalid⟩
  · rintro ⟨hparts, hvalid⟩
    exact ⟨k.components, ⟨hparts, hvalid⟩, rfl⟩

theorem segments_intercalate {parts : List (List Char)} (hparts : parts ≠ [])
    (h : ∀ part ∈ parts, separator ∉ part) :
    segments (List.intercalate [separator] parts) = parts :=
  List.splitOn_intercalate separator h hparts

theorem Valid.texts_ne_nil (h : k.Valid) : ∀ part ∈ k.texts, part ≠ [] := by
  intro part hpart
  obtain ⟨c, hc, rfl⟩ := List.mem_map.1 hpart
  exact (h c hc).ne_nil

theorem Valid.separator_notMem (h : k.Valid) : ∀ part ∈ k.texts, separator ∉ part := by
  intro part hpart
  obtain ⟨c, hc, rfl⟩ := List.mem_map.1 hpart
  exact (h c hc).slash_notMem

theorem Valid.segments_toText (h : k.Valid) : (segments k.toText.toList).filter (· ≠ []) = k.texts := by
  rw [toText_eq, String.toList_ofList]
  by_cases hnil : k.texts = []
  · rw [hnil]
    rfl
  · rw [segments_intercalate hnil h.separator_notMem, List.filter_eq_self]
    intro part hpart
    simp [h.texts_ne_nil part hpart]

theorem Valid.parse_toText (h : k.Valid) : parse k.toText = .ok k :=
  parse_eq_ok_iff.2 ⟨h.segments_toText, h⟩

theorem toText_of_parse (h : parse s = .ok k) : k.toText = withoutEmptySegments s := by
  rw [toText_eq, withoutEmptySegments, (parse_eq_ok_iff.1 h).1]

/-! ### Keys from keys -/

theorem valid_of_parse (h : parse s = .ok k) : k.Valid := (parse_eq_ok_iff.1 h).2

theorem Valid.append {cs : List KeyComponent} (h : k.Valid) (hcs : ∀ c ∈ cs, c.Valid) :
    (k.append cs).Valid := by
  intro c hc
  rcases List.mem_append.1 hc with hc | hc
  · exact h c hc
  · exact hcs c hc

theorem Valid.push {c : KeyComponent} (h : k.Valid) (hc : c.Valid) : (k.push c).Valid :=
  h.append fun _ hc' => List.mem_singleton.1 hc' ▸ hc

theorem Valid.pop {c : KeyComponent} {parent : Key} (h : k.Valid) (hpop : k.pop? = some (c, parent)) :
    parent.Valid := by
  rw [pop?, Option.map_eq_some_iff] at hpop
  obtain ⟨c', -, heq⟩ := hpop
  obtain ⟨-, rfl⟩ := Prod.mk.inj heq
  exact fun c hc => h c (List.dropLast_subset _ hc)

theorem Valid.metadata (h : k.Valid) : k.metadata.Valid := h.push (by decide)

theorem Valid.relative {steps : List String} (h : k.Valid) (hk' : k.relative steps = .ok (some k')) :
    k'.Valid := by
  induction steps generalizing k with
  | nil =>
    obtain rfl := Option.some.inj (Except.ok.inj hk')
    exact h
  | cons step steps ih =>
    rw [Key.relative] at hk'
    split at hk'
    · exact ih h hk'
    · split at hk'
      · cases hpop : k.pop? with
        | none =>
          rw [hpop] at hk'
          cases Except.ok.inj hk'
        | some popped =>
          rw [hpop] at hk'
          exact ih (h.pop hpop) hk'
      · obtain ⟨c, hc, hk'⟩ := Outcome.bind_eq_ok_iff.1 hk'
        exact ih (h.push (KeyComponent.parse_eq_ok.1 hc).2) hk'

end Key

end ChunkedArray
