import ChunkedArray.ChunkKey
import Mathlib.Data.List.Basic

/-!
# Keys of different chunks

Decimal numbers can be read back, and so can the parts between separators; so two chunks of one rank
have different keys.
-/

namespace ChunkedArray

namespace Separator

/-- Parts without periods are told apart by the components that they make up. -/
theorem components_injective {s : Separator} {xs ys : List (List Char)} (hxs : xs ≠ [])
    (hys : ys ≠ []) (hx : ∀ cs ∈ xs, '.' ∉ cs) (hy : ∀ cs ∈ ys, '.' ∉ cs)
    (h : s.components xs = s.components ys) : xs = ys := by
  cases s with
  | slash =>
    refine List.map_injective_iff.2 (fun cs ds he => ?_) h
    exact String.ofList_injective (KeyComponent.mk.inj he)
  | dot =>
    have htext := String.ofList_injective (KeyComponent.mk.inj (List.cons.inj h).1)
    rw [← List.splitOn_intercalate '.' hx hxs, htext, List.splitOn_intercalate '.' hy hys]

end Separator

namespace ChunkKeyEncoding

theorem coordText_injective {m n : Nat} (h : coordText m = coordText n) : m = n := by
  have hread := congrArg (fun cs => Nat.ofDigitChars 10 cs 0) h
  simpa only [coordText, Nat.ofDigitChars_ten_toDigits] using hread

theorem dot_notMem_coordText (n : Nat) : '.' ∉ coordText n := by
  intro h
  have := Nat.isDigit_of_mem_toDigits (by decide) (by decide) h
  exact absurd this (by decide)

theorem map_coordText_injective {chunk other : Index}
    (h : chunk.map coordText = other.map coordText) : chunk = other :=
  List.map_injective_iff.2 (fun _ _ => coordText_injective) h

theorem dot_notMem_of_mem_map {chunk : Index} : ∀ cs ∈ chunk.map coordText, '.' ∉ cs := by
  intro cs hcs
  obtain ⟨n, -, rfl⟩ := List.mem_map.1 hcs
  exact dot_notMem_coordText n

/-- Chunks of one rank have different keys. -/
theorem chunkKey_injective {e : ChunkKeyEncoding} {array : Key} {chunk other : Index}
    (hlength : chunk.length = other.length)
    (h : e.chunkKey array chunk = e.chunkKey array other) : chunk = other := by
  have hcomponents : e.components chunk = e.components other :=
    List.append_cancel_left (Key.mk.inj h)
  cases e with
  | default s =>
    have hdot (chunk : Index) : ∀ cs ∈ ['c'] :: chunk.map coordText, '.' ∉ cs :=
      List.forall_mem_cons.2 ⟨by decide, dot_notMem_of_mem_map⟩
    have := Separator.components_injective (List.cons_ne_nil _ _) (List.cons_ne_nil _ _)
      (hdot chunk) (hdot other) hcomponents
    exact map_coordText_injective (List.cons.inj this).2
  | v2 s =>
    cases chunk with
    | nil => exact (List.eq_nil_of_length_eq_zero hlength.symm).symm
    | cons i chunk =>
      cases other with
      | nil => cases hlength
      | cons k other =>
        exact map_coordText_injective (Separator.components_injective (List.cons_ne_nil _ _)
          (List.cons_ne_nil _ _) dot_notMem_of_mem_map dot_notMem_of_mem_map hcomponents)

/-! ### What the components look like -/

/-- A text that starts with the letter `c` or a digit, and holds no slash. -/
structure IsPart (cs : List Char) : Prop where
  head : ∃ x, cs.head? = some x ∧ (x = 'c' ∨ x.isDigit = true)
  slash_notMem : '/' ∉ cs

theorem isPart_letter : IsPart ['c'] := ⟨⟨'c', rfl, .inl rfl⟩, by decide⟩

theorem isPart_coordText (n : Nat) : IsPart (coordText n) := by
  have hdigit : ∀ x ∈ coordText n, x.isDigit = true :=
    fun x hx => Nat.isDigit_of_mem_toDigits (by decide) (by decide) hx
  constructor
  · obtain ⟨x, rest, hcs⟩ := List.exists_cons_of_ne_nil (Nat.toDigits_ne_nil (n := n) (b := 10))
    have hx : x ∈ coordText n := by
      rw [coordText, hcs]
      exact List.mem_cons_self
    refine ⟨x, ?_, .inr (hdigit x hx)⟩
    rw [coordText, hcs]
    rfl
  · intro h
    exact absurd (hdigit _ h) (by decide)

theorem isPart_intercalate {parts : List (List Char)} (hne : parts ≠ [])
    (hparts : ∀ cs ∈ parts, IsPart cs) : IsPart (List.intercalate ['.'] parts) := by
  induction parts with
  | nil => exact absurd rfl hne
  | cons cs parts ih =>
    rw [List.forall_mem_cons] at hparts
    cases parts with
    | nil =>
      rw [List.intercalate_singleton]
      exact hparts.1
    | cons cs' parts =>
      have hrest := ih (List.cons_ne_nil _ _) hparts.2
      obtain ⟨x, hx, hstart⟩ := hparts.1.head
      rw [List.intercalate_cons_cons]
      constructor
      · exact ⟨x, by rw [List.append_assoc, List.head?_append, hx, Option.some_or], hstart⟩
      · simp [hparts.1.slash_notMem, hrest.slash_notMem]

theorem isPart_of_mem_separated {s : Separator} {parts : List (List Char)} (hne : parts ≠ [])
    (hparts : ∀ cs ∈ parts, IsPart cs) {c : KeyComponent} (hc : c ∈ s.components parts) :
    IsPart c.text.toList := by
  cases s with
  | slash =>
    obtain ⟨cs, hcs, rfl⟩ := List.mem_map.1 hc
    rw [String.toList_ofList]
    exact hparts cs hcs
  | dot =>
    obtain rfl := List.mem_singleton.1 hc
    rw [String.toList_ofList]
    exact isPart_intercalate hne hparts

theorem isPart_of_mem_map {chunk : Index} : ∀ cs ∈ chunk.map coordText, IsPart cs := by
  intro cs hcs
  obtain ⟨n, -, rfl⟩ := List.mem_map.1 hcs
  exact isPart_coordText n

theorem isPart_of_mem_components {e : ChunkKeyEncoding} {chunk : Index} {c : KeyComponent}
    (hc : c ∈ e.components chunk) : IsPart c.text.toList := by
  cases e with
  | default s =>
    exact isPart_of_mem_separated (List.cons_ne_nil _ _)
      (List.forall_mem_cons.2 ⟨isPart_letter, isPart_of_mem_map⟩) hc
  | v2 s =>
    cases chunk with
    | nil =>
      obtain rfl := List.mem_singleton.1 hc
      exact isPart_coordText 0
    | cons i chunk =>
      have hparts : ∀ cs ∈ (i :: chunk).map coordText, IsPart cs := isPart_of_mem_map
      exact isPart_of_mem_separated (List.cons_ne_nil _ _) hparts hc

theorem not_isPart_metadataName : ¬ IsPart Key.metadataName.text.toList := by
  rintro ⟨⟨x, hx, hstart⟩, -⟩
  obtain rfl : 'z' = x := Option.some.inj hx
  exact absurd hstart (by decide)

/-- No chunk is stored under the key of the metadata document. -/
theorem chunkKey_ne_metadata (e : ChunkKeyEncoding) (array : Key) (chunk : Index) :
    e.chunkKey array chunk ≠ array.metadata := by
  intro h
  have hcomponents : e.components chunk = [Key.metadataName] :=
    List.append_cancel_left (Key.mk.inj h)
  have hmem : Key.metadataName ∈ e.components chunk := by
    rw [hcomponents]
    exact List.mem_singleton_self _
  exact not_isPart_metadataName (isPart_of_mem_components hmem)

end ChunkKeyEncoding

end ChunkedArray
