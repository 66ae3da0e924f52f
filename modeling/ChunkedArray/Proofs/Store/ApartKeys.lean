import ChunkedArray.Proofs.Store.Agreement
import ChunkedArray.Proofs.Store.SafeKeys

/-!
# Keys of chunks side by side

The keys of the chunks of an array have the same length, so where one starts with another they are
equal, and then so are the chunks. The document of the array stands apart from all of them.
-/

namespace ChunkedArray

/-! ### Keys below one key -/

namespace Key

variable {k : Key} {cs ds : List KeyComponent}

theorem append_startsWith_append :
    (k.append cs).startsWith (k.append ds) = true ↔ ds <+: cs :=
  List.isPrefixOf_iff_prefix.trans (List.prefix_append_right_inj k.components)

theorem apart_append (h : ¬ cs <+: ds) (h' : ¬ ds <+: cs) : (k.append cs).Apart (k.append ds) :=
  ⟨Bool.eq_false_iff.2 (mt append_startsWith_append.1 h'),
    Bool.eq_false_iff.2 (mt append_startsWith_append.1 h)⟩

end Key

namespace ChunkKeyEncoding

variable {e : ChunkKeyEncoding} {array : Key} {chunk other : Index}

/-! ### Components -/

theorem length_separated {s : Separator} {parts others : List (List Char)}
    (h : parts.length = others.length) :
    (s.components parts).length = (s.components others).length := by
  cases s with
  | slash => rw [Separator.components, Separator.components, List.length_map, List.length_map, h]
  | dot => rfl

theorem length_components (h : chunk.length = other.length) :
    (e.components chunk).length = (e.components other).length := by
  have hparts : (chunk.map coordText).length = (other.map coordText).length := by
    rw [List.length_map, List.length_map, h]
  cases e with
  | default s => exact length_separated (congrArg Nat.succ hparts)
  | v2 s =>
    cases chunk with
    | nil => rw [List.eq_nil_of_length_eq_zero h.symm]
    | cons i chunk =>
      cases other with
      | nil => cases h
      | cons k other => exact length_separated hparts

theorem components_ne_nil : e.components chunk ≠ [] := by
  have hseparated {s : Separator} {parts : List (List Char)} (h : parts ≠ []) :
      s.components parts ≠ [] := by
    cases s with
    | slash => exact mt List.map_eq_nil_iff.1 h
    | dot => exact List.cons_ne_nil _ _
  cases e with
  | default s => exact hseparated (List.cons_ne_nil _ _)
  | v2 s =>
    cases chunk with
    | nil => exact List.cons_ne_nil _ _
    | cons i chunk => exact hseparated (List.cons_ne_nil _ _)

theorem metadataName_notMem : Key.metadataName ∉ e.components chunk := fun h =>
  not_isPart_metadataName (isPart_of_mem_components h)

/-! ### Keys -/

theorem chunkKey_apart (hlength : chunk.length = other.length) (hne : chunk ≠ other) :
    (e.chunkKey array chunk).Apart (e.chunkKey array other) := by
  have hcomponents : e.components chunk ≠ e.components other := by
    intro h
    have hkey : e.chunkKey array chunk = e.chunkKey array other := congrArg array.append h
    exact hne (chunkKey_injective hlength hkey)
  have hlengths := length_components (e := e) hlength
  exact Key.apart_append (fun h => hcomponents (h.eq_of_length hlengths))
    (fun h => hcomponents (h.eq_of_length hlengths.symm).symm)

theorem chunkKey_apart_metadata : (e.chunkKey array chunk).Apart array.metadata := by
  refine Key.apart_append (fun h => ?_) (fun h => ?_)
  · have hne : e.components chunk ≠ [] := components_ne_nil
    obtain ⟨c, hc⟩ := List.exists_mem_of_ne_nil _ hne
    obtain rfl := List.mem_singleton.1 (h.subset hc)
    exact metadataName_notMem hc
  · exact metadataName_notMem (h.subset (List.mem_singleton_self _))

/-- Chunks have keys below that of their array, which can be read back and are told apart, from each
other if the chunks are of one rank, and from the document of the array. -/
structure TellsApart (e : ChunkKeyEncoding) (array : Key) : Prop where
  chunkKey_eq_iff : ∀ chunk other : Index, chunk.length = other.length →
    (e.chunkKey array chunk = e.chunkKey array other ↔ chunk = other)
  apart : ∀ chunk other : Index, chunk.length = other.length → chunk ≠ other →
    (e.chunkKey array chunk).Apart (e.chunkKey array other)
  ne_metadata : ∀ chunk, e.chunkKey array chunk ≠ array.metadata
  apart_metadata : ∀ chunk, (e.chunkKey array chunk).Apart array.metadata
  startsWith_array : ∀ chunk, (e.chunkKey array chunk).startsWith array = true
  parse_component : ∀ chunk, ∀ c ∈ e.components chunk, KeyComponent.parse c.text = .ok c
  parse_toText : ∀ chunk, Key.parse (e.chunkKey array chunk).toText = .ok (e.chunkKey array chunk)

theorem tellsApart_of_obtainable (harray : array.Obtainable) (e : ChunkKeyEncoding) :
    e.TellsApart array where
  chunkKey_eq_iff _ _ hlength := ⟨chunkKey_injective hlength, congrArg (e.chunkKey array)⟩
  apart _ _ := chunkKey_apart
  ne_metadata := chunkKey_ne_metadata e array
  apart_metadata _ := chunkKey_apart_metadata
  startsWith_array _ := Key.startsWith_append array _
  parse_component _ _ hc := KeyComponent.parse_eq_ok.2 ⟨rfl, (isPart_of_mem_components hc).valid⟩
  parse_toText chunk := (harray.valid.chunkKey e chunk).parse_toText

/-- With a period between the coordinates, the keys of these chunks are made of the same characters. -/
theorem tellsApart_dot :
    Key.Obtainable ⟨[⟨"a"⟩, ⟨"b"⟩]⟩ ∧ (v2 .dot).TellsApart ⟨[⟨"a"⟩, ⟨"b"⟩]⟩ := by
  have hparsed : Key.parse "/a//b" = .ok ⟨[⟨"a"⟩, ⟨"b"⟩]⟩ := rfl
  exact ⟨.parse hparsed, tellsApart_of_obtainable (.parse hparsed) (v2 .dot)⟩

example : (v2 .dot).encode [1, 23] = "1.23" ∧ (v2 .dot).encode [12, 3] = "12.3" := by decide

end ChunkKeyEncoding

end ChunkedArray
