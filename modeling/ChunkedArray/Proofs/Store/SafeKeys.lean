import ChunkedArray.Proofs.Store.KeyText
import ChunkedArray.Proofs.Store.PathText

/-!
# Keys that are safe

However a key was made, its components are valid. So it can be read back from its text, and in a
directory its path goes down from the root, to a place that no other key has.
-/

namespace ChunkedArray

/-- A key that can be made: read from a text, or from another one by any of the ways to make keys
from keys. -/
inductive Key.Obtainable : Key → Prop
  | parse {s : String} {k : Key} : Key.parse s = .ok k → Obtainable k
  | push {k : Key} {s : String} {c : KeyComponent} :
    Obtainable k → KeyComponent.parse s = .ok c → Obtainable (k.push c)
  | pop {k parent : Key} {c : KeyComponent} :
    Obtainable k → k.pop? = some (c, parent) → Obtainable parent
  | relative {k k' : Key} {steps : List String} :
    Obtainable k → k.relative steps = .ok (some k') → Obtainable k'
  | metadata {k : Key} : Obtainable k → Obtainable k.metadata
  | chunkKey {k : Key} (e : ChunkKeyEncoding) (chunk : Index) :
    Obtainable k → Obtainable (e.chunkKey k chunk)

/-- The components of the key are names that nothing can be hidden in, and the key and its text stand
for each other. -/
structure Key.IsSafe (k : Key) : Prop where
  ne_empty : ∀ c ∈ k.components, c.text ≠ ""
  slash_notMem : ∀ c ∈ k.components, '/' ∉ c.text.toList
  not_periods : ∀ c ∈ k.components, ∃ x ∈ c.text.toList, x ≠ '.'
  not_reserved : ∀ c ∈ k.components, c.text.startsWith "__" = false
  parse_toText : Key.parse k.toText = .ok k
  toText_of_parse : ∀ s, Key.parse s = .ok k → k.toText = Key.withoutEmptySegments s

/-- The path of the key stays below the root of the store and is that of no other key. If the names
of the root are proper, the same holds of its text, cut at the slashes: it leads down from the root
and, whatever the tree holds, ends at the path. -/
structure DirectoryStore.Encloses (d : DirectoryStore) (k : Key) : Prop where
  root_prefix : d.root <+: d.pathOf k
  pathOf_eq_root_iff : d.pathOf k = d.root ↔ k = .root
  pathOf_injective : ∀ k', d.pathOf k' = d.pathOf k → k' = k
  keyOf?_pathOf : d.keyOf? (d.pathOf k) = some k
  ofText_toText : (∀ name ∈ d.root, IsProperName name) → d.pathOf k ≠ [] →
    Pathname.ofText (d.pathOf k).toText = d.pathnameOf k
  toText_injective : (∀ name ∈ d.root, IsProperName name) → ∀ k' : Key, k'.Obtainable →
    (d.pathOf k').toText = (d.pathOf k).toText → k' = k
  path_of_resolve : (∀ name ∈ d.root, IsProperName name) → d.pathOf k ≠ [] → ∀ place,
    d.tree.resolve (.ofText (d.pathOf k).toText) = .ok place → place.path = d.pathOf k

namespace KeyComponent

variable {c : KeyComponent}

theorem Valid.isProperName (h : c.Valid) : IsProperName c.text := by
  obtain ⟨hne, -, ⟨x, hx, hperiod⟩, hslash⟩ := valid_iff.1 h
  have hperiods (s : String) (hs : ∀ y ∈ s.toList, y = '.') : c.text ≠ s := by
    rintro rfl
    exact hperiod (hs x hx)
  constructor
  · exact fun h => hne (String.toList_eq_nil_iff.2 h)
  · exact hperiods "." (by simp)
  · exact hperiods ".." (by simp)
  · exact hslash

end KeyComponent

namespace Path

/-- Paths of proper names have different texts. -/
theorem toText_injective {p q : Path} (hp : ∀ name ∈ p, IsProperName name)
    (hq : ∀ name ∈ q, IsProperName name) (h : p.toText = q.toText) : p = q := by
  have hsplit := splitOnP_toText hp
  rw [h, splitOnP_toText hq] at hsplit
  exact List.map_injective_iff.2 (fun _ _ => String.toList_inj.1) (List.cons.inj hsplit).2.symm

end Path

namespace Key

variable {k : Key}

theorem Valid.chunkKey (h : k.Valid) (e : ChunkKeyEncoding) (chunk : Index) :
    (e.chunkKey k chunk).Valid :=
  h.append fun _ hc => (ChunkKeyEncoding.isPart_of_mem_components hc).valid

theorem Obtainable.valid (h : k.Obtainable) : k.Valid := by
  induction h with
  | parse h => exact valid_of_parse h
  | push _ hc ih => exact ih.push (KeyComponent.parse_eq_ok.1 hc).2
  | pop _ hpop ih => exact ih.pop hpop
  | relative _ hk' ih => exact ih.relative hk'
  | metadata _ ih => exact ih.metadata
  | chunkKey e chunk _ ih => exact ih.chunkKey e chunk

theorem Valid.isSafe (h : k.Valid) : k.IsSafe where
  ne_empty c hc := (h c hc).isProperName.ne_empty
  slash_notMem c hc := (h c hc).slash_notMem
  not_periods c hc := (KeyComponent.valid_iff.1 (h c hc)).2.2.1
  not_reserved c hc := by
    rw [String.startsWith_string_eq_false_iff]
    exact (KeyComponent.valid_iff.1 (h c hc)).2.1
  parse_toText := h.parse_toText
  toText_of_parse _ := toText_of_parse

end Key

namespace DirectoryStore

variable {d : DirectoryStore} {k k' : Key}

theorem pathOf_injective (h : d.pathOf k' = d.pathOf k) : k' = k :=
  Key.names_injective (List.append_cancel_left h)

theorem isProperName_pathOf (hroot : ∀ name ∈ d.root, IsProperName name) (hk : k.Valid) :
    ∀ name ∈ d.pathOf k, IsProperName name := by
  intro name hname
  rcases List.mem_append.1 hname with hname | hname
  · exact hroot name hname
  · obtain ⟨c, hc, rfl⟩ := List.mem_map.1 hname
    exact (hk c hc).isProperName

theorem encloses_of_valid (d : DirectoryStore) (hk : k.Valid) : d.Encloses k := by
  have hroot : d.pathOf .root = d.root := List.append_nil d.root
  have htext (hroot : ∀ name ∈ d.root, IsProperName name) (hne : d.pathOf k ≠ []) :
      Pathname.ofText (d.pathOf k).toText = d.pathnameOf k :=
    Path.ofText_toText (isProperName_pathOf hroot hk) hne
  constructor
  · exact List.prefix_append d.root k.names
  · constructor
    · exact fun h => pathOf_injective (h.trans hroot.symm)
    · rintro rfl
      exact hroot
  · exact fun k' => pathOf_injective
  · exact keyOf?_eq_some_iff.2 ⟨rfl, hk⟩
  · exact htext
  · intro hroot k' hk' h
    exact pathOf_injective (Path.toText_injective (isProperName_pathOf hroot hk'.valid)
      (isProperName_pathOf hroot hk) h)
  · intro hroot hne place hplace
    rw [htext hroot hne] at hplace
    exact (FileTree.of_resolve_ofPath hplace).2

end DirectoryStore

/-- Whatever way a key was made, it is safe, and no directory store looks for it outside its root or
in the place of another key. -/
theorem Key.isSafe_of_obtainable {k : Key} (h : k.Obtainable) :
    k.IsSafe ∧ ∀ d : DirectoryStore, d.Encloses k :=
  ⟨h.valid.isSafe, fun d => d.encloses_of_valid h.valid⟩

/-- A chunk of an array whose key was found by going up and down from a key with empty segments. -/
def Key.roundabout : Key :=
  (ChunkKeyEncoding.default .dot).chunkKey ⟨[⟨"a"⟩, ⟨"..b"⟩, ⟨"_c"⟩]⟩ [3, 0]

theorem Key.obtainable_roundabout : roundabout.Obtainable := by
  have hparsed : Key.parse "//a///x/" = .ok ⟨[⟨"a"⟩, ⟨"x"⟩]⟩ := rfl
  have hpushed := (Obtainable.parse hparsed).push (show KeyComponent.parse "y" = .ok ⟨"y"⟩ from rfl)
  have hpopped := hpushed.metadata.pop (show _ = some (metadataName, _) from rfl)
  have hmoved : Key.relative ⟨[⟨"a"⟩, ⟨"x"⟩, ⟨"y"⟩]⟩ ["..", ".", "..", "..b", "_c"] =
      .ok (some ⟨[⟨"a"⟩, ⟨"..b"⟩, ⟨"_c"⟩]⟩) := rfl
  exact (hpopped.relative hmoved).chunkKey _ _

theorem Key.isSafe_roundabout :
    roundabout.Obtainable ∧ roundabout.IsSafe ∧ ∀ d : DirectoryStore, d.Encloses roundabout :=
  ⟨obtainable_roundabout, isSafe_of_obtainable obtainable_roundabout⟩

example : Key.roundabout.toText = "a/..b/_c/c.3.0" := by decide

end ChunkedArray
