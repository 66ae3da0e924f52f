import ChunkedArray.Proofs.Store.DirectoryReads

/-!
# Calls of a directory store

A store that can be written to does to its tree what its calls are made of. Where every path below the
root is short enough, all under a key can be listed and erased, whatever keys there are. What is
erased under a key is told by the paths below it, with a value or without.
-/

namespace ChunkedArray

namespace DirectoryStore

open FileTree

variable {d : DirectoryStore} {k base : Key} {value : Bytes}

/-- The names of files under way are reserved, so no key has them. -/
theorem numberedName_notMem (hk : k.Valid) : numberedName 0 ∉ k.names := by
  intro hmem
  obtain ⟨c, hc, htext⟩ := List.mem_map.1 hmem
  have hvalid := hk c hc
  rw [KeyComponent.Valid, htext] at hvalid
  exact absurd hvalid (by decide)

/-! ### Running changes -/

theorem requireWritable_ok (h : d.mode ≠ .readOnly) : requireWritable d = (.ok (), d) := by
  rw [requireWritable, StoreAction.get_bind_apply, if_neg h]
  rfl

theorem onTree_ok {α : Type} {a : FileAction α} {x : α} {t : FileTree}
    (h : a d.tree = (.ok x, t)) : onTree a d = (.ok x, { d with tree := t }) := by
  show ((a d.tree).1.mapError StoreError.file, { d with tree := (a d.tree).2 }) = _
  rw [h]
  rfl

theorem set_eq (h : d.mode ≠ .readOnly) :
    (Store.set k value : StoreAction DirectoryStore StoreError Unit) d =
      onTree (writeValue (d.pathOf k) value) d := StoreAction.bind_apply (requireWritable_ok h) _

theorem erase_eq (h : d.mode ≠ .readOnly) :
    (Store.erase k : StoreAction DirectoryStore StoreError Bool) d =
      onTree (removeValue (d.pathnameOf k)) d := StoreAction.bind_apply (requireWritable_ok h) _

theorem eraseUnder_eq (h : d.mode ≠ .readOnly) :
    (Store.eraseUnder base : StoreAction DirectoryStore StoreError Bool) d =
      (if base.isRoot then onTree (clearDirectory d.root) else onTree (removeTree (d.pathOf base)) :
        StoreAction DirectoryStore StoreError Bool) d :=
  StoreAction.bind_apply (requireWritable_ok h) _

/-! ### Stores in order -/

theorem pathOf_root (d : DirectoryStore) : d.pathOf .root = d.root := List.append_nil d.root

/-- The store can be written to, its root is there, and what is below the root can be reached by its
pathname. -/
structure InOrder (d : DirectoryStore) : Prop where
  mode_ne : d.mode ≠ .readOnly
  tidy : d.tree.Tidy
  look_root : d.tree.look d.root = some none
  isShort : ∀ p, d.tree.look (d.root ++ p) ≠ none → Path.IsShort (d.root ++ p)

theorem InOrder.isShort_root (h : d.InOrder) : d.root.IsShort := by
  have hshort := h.isShort []
  rw [List.append_nil, h.look_root] at hshort
  exact hshort (Option.some_ne_none _)

/-- Under the root all but the directory itself is taken away. -/
theorem InOrder.eraseUnder_ok (h : d.InOrder) (base : Key) :
    ∃ found t, (Store.eraseUnder base : StoreAction DirectoryStore StoreError Bool) d =
      (.ok found, { d with tree := t }) ∧ t.Tidy ∧
      (found = true ↔ ∃ p, p ≠ [] ∧ base.names <+: p ∧ d.tree.look (d.root ++ p) ≠ none) ∧
      ∀ p, t.look (d.root ++ p) =
        if base.names <+: p ∧ p ≠ [] then none else d.tree.look (d.root ++ p) := by
  rw [eraseUnder_eq h.mode_ne]
  split
  · next hroot =>
    obtain rfl : base = .root := congrArg Key.mk (List.isEmpty_iff.1 hroot)
    obtain ⟨found, t, ht, hfound, hlook⟩ := clearDirectory_ok h.tidy h.look_root h.isShort_root
      fun name => h.isShort [name]
    have htidy := keepsTidy_clearDirectory.tidy h.tidy ht
    refine ⟨found, t, onTree_ok ht, htidy, ?_, fun p => ?_⟩
    · rw [hfound]
      simp [Key.names, Key.root]
    · rw [hlook]
      simp [Key.names, Key.root]
  · next hroot =>
    have hne : base.names ≠ [] := fun hnil => hroot (by simpa [Key.names, Key.isRoot] using hnil)
    have hnil (p : Path) (hpre : base.names <+: p) : p ≠ [] := by
      rintro rfl
      exact hne (List.prefix_nil.1 hpre)
    have hpath : d.pathOf base ≠ [] := by simp [pathOf_eq, hne]
    obtain ⟨t, ht, hlook⟩ := removeTree_ok hpath (h.isShort base.names)
    have htidy := keepsTidy_removeTree.tidy h.tidy ht
    refine ⟨_, t, onTree_ok ht, htidy, ?_, fun p => ?_⟩
    · rw [Option.isSome_iff_ne_none]
      constructor
      · intro hthere
        exact ⟨base.names, hne, List.prefix_refl _, hthere⟩
      · rintro ⟨p, -, hpre, hthere⟩ hnone
        exact hthere (look_eq_none_below hnone ((List.prefix_append_right_inj d.root).2 hpre))
    · rw [hlook]
      simp only [pathOf_eq, List.prefix_append_right_inj, and_iff_left_of_imp (hnil p)]

end DirectoryStore

end ChunkedArray
