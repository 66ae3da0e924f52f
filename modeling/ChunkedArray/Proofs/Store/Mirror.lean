import ChunkedArray.Proofs.Store.DirectoryCalls
import ChunkedArray.Store.Memory

/-!
# Directories that mirror a store in memory

A directory mirrors a store in memory if its files are the values, and its directories are on the way
to values that there may be. Directories that are left empty do no harm: none of them is in the way
of a value, and no listing has them.
-/

namespace ChunkedArray

theorem MemoryStore.mem_keysUnder_iff {m : MemoryStore} {k base : Key} :
    k ∈ m.keysUnder base ↔ k.startsWith base = true ∧ m.get? k ≠ none := by
  rw [keysUnder, Key.mem_sort, List.mem_filter, ← Assoc.find?_isSome_iff,
    Option.isSome_iff_ne_none, and_comm]
  rfl

theorem MemoryStore.nodup_keys_restrict (m : MemoryStore) (keep : Key → Bool)
    (h : (Assoc.keys m.entries).Nodup) : (Assoc.keys (m.restrict keep).entries).Nodup :=
  Assoc.nodup_keys_restrict keep h

namespace DirectoryStore

open FileTree

/-- None of the keys starts with another, and all have paths below the root that are short enough, also
with the name of a file under way. -/
structure SuitsKeys (root : Path) (keys : Key → Prop) : Prop where
  ne_root : ∀ k, keys k → k ≠ .root
  eq_of_startsWith : ∀ k k', keys k → keys k' → k'.startsWith k = true → k = k'
  valid : ∀ k, keys k → k.Valid
  isShortName : ∀ k, keys k → ∀ name ∈ k.names, IsShortName name
  size_le : ∀ k, keys k → (Pathname.ofPath (root ++ k.names)).size ≤ maxPathnameSize
  partial_size_le : ∀ k, keys k →
    (Pathname.ofPath (root ++ k.names.dropLast ++ [numberedName 0])).size ≤ maxPathnameSize

structure Mirrors (keys : Key → Prop) (d : DirectoryStore) (m : MemoryStore) : Prop where
  mode_ne : d.mode ≠ .readOnly
  isShort_root : d.root.IsShort
  tidy : d.tree.Tidy
  look_root : d.tree.look d.root = some none
  nodup : (Assoc.keys m.entries).Nodup
  keys_of_get? : ∀ k, m.get? k ≠ none → keys k
  file_iff : ∀ p value, d.tree.look (d.root ++ p) = some (some value) ↔
    ∃ k : Key, p = k.names ∧ m.get? k = some value
  directory : ∀ p, d.tree.look (d.root ++ p) = some none →
    p = [] ∨ ∃ k, keys k ∧ p <+: k.names ∧ p ≠ k.names

variable {keys : Key → Prop} {root : Path} {d : DirectoryStore} {m : MemoryStore} {k k' base : Key}
  {p : Path} {value : Bytes}

/-! ### Keys -/

theorem SuitsKeys.names_ne_nil (hs : SuitsKeys root keys) (hk : keys k) : k.names ≠ [] :=
  Key.names_ne_nil (hs.ne_root k hk)

theorem SuitsKeys.eq_of_prefix (hs : SuitsKeys root keys) (hk : keys k) (hk' : keys k')
    (hpre : k.names <+: k'.names) : k = k' :=
  hs.eq_of_startsWith k k' hk hk' (Key.startsWith_iff.2 hpre)

/-- The directory of a value is not at or below another one. -/
theorem SuitsKeys.not_prefix_dropLast (hs : SuitsKeys root keys) (hk : keys k) (hk' : keys k') :
    ¬ k'.names <+: k.names.dropLast := by
  intro hpre
  obtain rfl := hs.eq_of_prefix hk' hk (hpre.trans (List.dropLast_prefix _))
  have hlength := hpre.length_le
  have hpos := List.length_pos_of_ne_nil (hs.names_ne_nil hk)
  rw [List.length_dropLast] at hlength
  omega

/-! ### Where there are files -/

theorem Mirrors.exists_key (h : Mirrors keys d m)
    (hfile : d.tree.look (d.root ++ p) = some (some value)) :
    ∃ k : Key, keys k ∧ p = k.names ∧ m.get? k = some value := by
  obtain ⟨k, hp, hvalue⟩ := (h.file_iff p value).1 hfile
  exact ⟨k, h.keys_of_get? k (Option.ne_none_iff_exists'.2 ⟨_, hvalue⟩), hp, hvalue⟩

theorem Mirrors.isShort_pathOf (h : Mirrors keys d m) (hs : SuitsKeys d.root keys) (hk : keys k) :
    (d.pathOf k).IsShort := by
  refine ⟨hs.size_le k hk, fun name hname => ?_⟩
  rcases List.mem_append.1 hname with hname | hname
  · exact h.isShort_root.isShortName name hname
  · exact hs.isShortName k hk name hname

theorem Mirrors.isShort_partial (h : Mirrors keys d m) (hs : SuitsKeys d.root keys) (hk : keys k) :
    Path.IsShort (d.root ++ k.names.dropLast ++ [numberedName 0]) := by
  refine ⟨hs.partial_size_le k hk, fun name hname => ?_⟩
  rcases List.mem_append.1 hname with hname | hname
  · have hmem := (List.mem_append.1 hname).imp_right fun hname => List.dropLast_subset _ hname
    exact (h.isShort_pathOf hs hk).isShortName name (List.mem_append.2 hmem)
  · rw [List.mem_singleton.1 hname]
    decide

theorem Mirrors.isShort_of_look (h : Mirrors keys d m) (hs : SuitsKeys d.root keys)
    (hlook : d.tree.look (d.root ++ p) ≠ none) : Path.IsShort (d.root ++ p) := by
  rcases hx : d.tree.look (d.root ++ p) with _ | _ | value
  · exact absurd hx hlook
  · rcases h.directory p hx with rfl | ⟨k, hk, ⟨r, hr⟩, -⟩
    · rw [List.append_nil]
      exact h.isShort_root
    · have hshort := h.isShort_pathOf hs hk
      rw [pathOf_eq, ← hr, ← List.append_assoc] at hshort
      exact hshort.of_append
  · obtain ⟨k, hk, rfl, -⟩ := h.exists_key hx
    exact h.isShort_pathOf hs hk

theorem Mirrors.inOrder (h : Mirrors keys d m) (hs : SuitsKeys d.root keys) : d.InOrder :=
  ⟨h.mode_ne, h.tidy, h.look_root, fun _ => h.isShort_of_look hs⟩

/-- At the path of a key there is its value or nothing. -/
theorem Mirrors.look_pathOf (h : Mirrors keys d m) (hs : SuitsKeys d.root keys) (hk : keys k) :
    d.tree.look (d.pathOf k) = (m.get? k).map some := by
  cases hvalue : m.get? k with
  | some value => exact (h.file_iff k.names value).2 ⟨k, rfl, hvalue⟩
  | none =>
    rcases hlook : d.tree.look (d.pathOf k) with _ | _ | value
    · rfl
    · rcases h.directory k.names hlook with hnil | ⟨k', hk', hpre, hne⟩
      · exact absurd hnil (hs.names_ne_nil hk)
      · exact absurd (congrArg Key.names (hs.eq_of_prefix hk hk' hpre)) hne
    · obtain ⟨k', -, hnames, hvalue'⟩ := h.exists_key hlook
      obtain rfl := Key.names_injective hnames
      rw [hvalue] at hvalue'
      cases hvalue'

/-- No file is on the way to where no key with a value leads. -/
theorem Mirrors.clear (h : Mirrors keys d m)
    (hp : ∀ k : Key, keys k → m.get? k ≠ none → ¬ k.names <+: p) : d.tree.Clear (d.root ++ p) := by
  intro q contents hq hfile
  -- The file is above or at the root, which is a directory, or it has the path of a key.
  rcases List.prefix_or_prefix_of_prefix hq (List.prefix_append d.root p) with hq' | hq'
  · obtain ⟨r, hr⟩ := hq'
    by_cases hnil : r = []
    · obtain rfl : q = d.root := by rw [← hr, hnil, List.append_nil]
      rw [h.look_root] at hfile
      cases hfile
    · rw [look_of_append (hr ▸ h.look_root) hnil] at hfile
      cases hfile
  · obtain ⟨r, rfl⟩ := hq'
    obtain ⟨k, hk, rfl, hvalue⟩ := h.exists_key hfile
    have hpre := (List.prefix_append_right_inj d.root).1 hq
    exact hp k hk (Option.ne_none_iff_exists'.2 ⟨_, hvalue⟩) hpre

/-- The directory of a value has nothing under the name of a file under way. -/
theorem Mirrors.look_partial (h : Mirrors keys d m) (hs : SuitsKeys d.root keys) (dir : Path) :
    d.tree.look (d.root ++ dir ++ [numberedName 0]) = none := by
  -- The name is reserved, so no key has it.
  have hname {k : Key} (hk : keys k) : ¬ dir ++ [numberedName 0] <+: k.names := fun hpre =>
    numberedName_notMem (hs.valid k hk) (hpre.subset (List.mem_append_right dir List.mem_cons_self))
  rw [List.append_assoc]
  rcases hlook : d.tree.look (d.root ++ (dir ++ [numberedName 0])) with _ | _ | value
  · rfl
  · rcases h.directory _ hlook with hnil | ⟨k, hk, hpre, -⟩
    · exact absurd hnil (by simp)
    · exact absurd hpre (hname hk)
  · obtain ⟨k, hk, hnames, -⟩ := h.exists_key hlook
    exact absurd (hnames ▸ List.prefix_refl _) (hname hk)

/-! ### Reading -/

theorem Mirrors.get?_root (h : Mirrors keys d m) (hs : SuitsKeys d.root keys) :
    m.get? .root = none := by
  by_contra hne
  exact hs.ne_root .root (h.keys_of_get? .root hne) rfl

/-- The root itself may be asked for as well; it has no value. -/
theorem Mirrors.look_join (h : Mirrors keys d m) (hs : SuitsKeys d.root keys)
    (hk : k = .root ∨ keys k) : (d.tree.look (d.pathOf k)).join = m.get? k := by
  rcases hk with rfl | hk
  · rw [pathOf_root, h.look_root, h.get?_root hs]
    rfl
  · rw [h.look_pathOf hs hk]
    cases m.get? k <;> rfl

theorem Mirrors.isShort_asked (h : Mirrors keys d m) (hs : SuitsKeys d.root keys)
    (hk : k = .root ∨ keys k) : (d.pathOf k).IsShort := by
  rcases hk with rfl | hk
  · rw [pathOf_root]
    exact h.isShort_root
  · exact h.isShort_pathOf hs hk

theorem Mirrors.clear_pathOf (h : Mirrors keys d m) (hs : SuitsKeys d.root keys) (hk : keys k)
    (hnone : m.get? k = none) : d.tree.Clear (d.pathOf k) := by
  refine h.clear fun k' hk' hvalue hpre => hvalue ?_
  obtain rfl := hs.eq_of_prefix hk' hk hpre
  exact hnone

theorem Mirrors.get (h : Mirrors keys d m) (hs : SuitsKeys d.root keys)
    (hk : k = .root ∨ keys k) : Store.get k d = Store.get k m := by
  refine (read_eq (h.isShort_asked hs hk) fun hnone => ?_).trans
    (congrArg Except.ok (h.look_join hs hk))
  rcases hk with rfl | hk
  · rw [pathOf_root, h.look_root] at hnone
    cases hnone
  · rw [h.look_pathOf hs hk, Option.map_eq_none_iff] at hnone
    exact h.clear_pathOf hs hk hnone

theorem Mirrors.has (h : Mirrors keys d m) (hs : SuitsKeys d.root keys)
    (hk : k = .root ∨ keys k) : Store.has k d = Store.has k m := by
  refine congrArg Except.ok ?_
  rw [pathnameOf, isFile_eq (h.isShort_asked hs hk).means, ← h.look_join hs hk]
  cases d.tree.look (d.pathOf k) <;> rfl

theorem Mirrors.keysUnder (h : Mirrors keys d m) (hs : SuitsKeys d.root keys) (base : Key) :
    Store.keysUnder base d = Store.keysUnder base m := by
  obtain ⟨l, hl, hnodup, hmem⟩ := keysUnder_ok h.tidy
    (fun p hp => (h.isShort_of_look hs hp).size_le) (h.isShort_of_look hs)
  refine hl.trans (congrArg Except.ok (Key.sort_eq_sort_of_perm ?_))
  refine (List.perm_ext_iff_of_nodup hnodup (h.nodup.filter _)).2 fun k => ?_
  rw [hmem, List.mem_filter, ← Assoc.find?_isSome_iff, Option.isSome_iff_exists]
  constructor
  · rintro ⟨hk, -, value, hvalue⟩
    obtain ⟨k', -, hnames, hvalue'⟩ := h.exists_key hvalue
    obtain rfl := Key.names_injective hnames
    exact ⟨⟨value, hvalue'⟩, hk⟩
  · rintro ⟨⟨value, hvalue⟩, hk⟩
    have hkey := h.keys_of_get? k (Option.ne_none_iff_exists'.2 ⟨_, hvalue⟩)
    exact ⟨hk, hs.valid k hkey, value, (h.file_iff k.names value).2 ⟨k, rfl, hvalue⟩⟩

/-! ### Writing -/

/-- Setting a value adds a file, in the place of a file or of nothing, and directories above it. -/
theorem Mirrors.writeValue_ok (h : Mirrors keys d m) (hs : SuitsKeys d.root keys) (hk : keys k)
    (value : Bytes) : ∃ t, writeValue (d.pathOf k) value d.tree = (.ok (), t) ∧
      ∀ p, t.look (d.root ++ p) = if p = k.names then some (some value)
        else if p <+: k.names.dropLast then some none else d.tree.look (d.root ++ p) := by
  have hshort := h.isShort_pathOf hs hk
  have hpartial := h.isShort_partial hs hk
  have hold : d.tree.look (d.pathOf k) ≠ some none := by
    rw [h.look_pathOf hs hk]
    cases m.get? k <;> simp
  have hclear : d.tree.Clear (d.root ++ k.names.dropLast) :=
    h.clear fun k' hk' _ => hs.not_prefix_dropLast hk hk'
  obtain ⟨dir, name, hnames⟩ := (List.eq_nil_or_concat' k.names).resolve_left (hs.names_ne_nil hk)
  rw [pathOf_eq, hnames, ← List.append_assoc] at hshort hold
  rw [hnames, List.dropLast_concat] at hpartial hclear
  rw [pathOf_eq, hnames, List.dropLast_concat, ← List.append_assoc]
  obtain ⟨t, ht, hlook⟩ := DirectoryStore.writeValue_ok hshort hpartial hclear hold
    (h.look_partial hs dir)
  refine ⟨t, ht, fun p => ?_⟩
  rw [hlook]
  simp only [List.append_assoc, List.append_cancel_left_eq, List.prefix_append_right_inj]

theorem Mirrors.grow {t : FileTree} (h : Mirrors keys d m) (hs : SuitsKeys d.root keys)
    (hk : keys k) (htidy : t.Tidy) (hlook : ∀ p, t.look (d.root ++ p) =
      if p = k.names then some (some value)
      else if p <+: k.names.dropLast then some none else d.tree.look (d.root ++ p)) :
    Mirrors keys { d with tree := t } (m.insert k value) where
  mode_ne := h.mode_ne
  isShort_root := h.isShort_root
  tidy := htidy
  look_root := by
    have hroot := hlook []
    rwa [if_neg (hs.names_ne_nil hk).symm, if_pos List.nil_prefix, List.append_nil] at hroot
  nodup := Assoc.nodup_keys_set h.nodup
  keys_of_get? k' hvalue := by
    rw [MemoryStore.get?_insert] at hvalue
    split at hvalue
    · next he => exact he ▸ hk
    · exact h.keys_of_get? k' hvalue
  file_iff p value' := by
    rw [hlook]
    simp only [MemoryStore.get?_insert]
    constructor
    · intro hp
      split at hp
      · next hnames => exact ⟨k, hnames, (if_pos rfl).trans (Option.some.inj hp)⟩
      · next hne =>
        split at hp
        · cases hp
        · obtain ⟨k', rfl, hvalue⟩ := (h.file_iff p value').1 hp
          have he : k ≠ k' := fun he => hne (congrArg Key.names he).symm
          exact ⟨k', rfl, (if_neg he).trans hvalue⟩
    · rintro ⟨k', rfl, hvalue⟩
      split at hvalue
      · next he => exact he ▸ (if_pos rfl).trans (congrArg some hvalue)
      · next he =>
        have hk' := h.keys_of_get? k' (Option.ne_none_iff_exists'.2 ⟨_, hvalue⟩)
        rw [if_neg fun hnames => he (Key.names_injective hnames).symm,
          if_neg (hs.not_prefix_dropLast hk hk')]
        exact (h.file_iff k'.names value').2 ⟨k', rfl, hvalue⟩
  directory p hp := by
    rw [hlook] at hp
    split at hp
    · cases hp
    · next hne =>
      split at hp
      · next hpre => exact .inr ⟨k, hk, hpre.trans (List.dropLast_prefix _), hne⟩
      · exact h.directory p hp

theorem Mirrors.set (h : Mirrors keys d m) (hs : SuitsKeys d.root keys) (hk : keys k)
    (value : Bytes) : ∃ t, (Store.set k value : StoreAction DirectoryStore StoreError Unit) d =
      (.ok (), { d with tree := t }) ∧ Mirrors keys { d with tree := t } (m.insert k value) := by
  obtain ⟨t, ht, hlook⟩ := h.writeValue_ok hs hk value
  have htidy := keepsTidy_writeValue.tidy h.tidy ht
  exact ⟨t, (set_eq h.mode_ne).trans (onTree_ok ht), h.grow hs hk htidy hlook⟩

/-! ### Taking away -/

/-- Below some paths everything is taken away, from the directory as from the store in memory. -/
theorem Mirrors.shrink {t : FileTree} {m' : MemoryStore} {gone : Path → Prop} [DecidablePred gone]
    (h : Mirrors keys d m) (htidy : t.Tidy) (hnodup : (Assoc.keys m'.entries).Nodup)
    (hroot : ¬ gone [])
    (hlook : ∀ p, t.look (d.root ++ p) = if gone p then none else d.tree.look (d.root ++ p))
    (hget : ∀ k, m'.get? k = if gone k.names then none else m.get? k) :
    Mirrors keys { d with tree := t } m' where
  mode_ne := h.mode_ne
  isShort_root := h.isShort_root
  tidy := htidy
  look_root := by
    have hkept := hlook []
    rwa [if_neg hroot, List.append_nil, h.look_root] at hkept
  nodup := hnodup
  keys_of_get? k hk := by
    rw [hget] at hk
    split at hk
    · exact absurd rfl hk
    · exact h.keys_of_get? k hk
  file_iff p value := by
    rw [hlook]
    constructor
    · intro hp
      split at hp
      · cases hp
      · next hnot =>
        obtain ⟨k, rfl, hvalue⟩ := (h.file_iff p value).1 hp
        exact ⟨k, rfl, by rw [hget, if_neg hnot, hvalue]⟩
    · rintro ⟨k, rfl, hvalue⟩
      rw [hget] at hvalue
      split at hvalue
      · cases hvalue
      · next hnot =>
        rw [if_neg hnot]
        exact (h.file_iff k.names value).2 ⟨k, rfl, hvalue⟩
  directory p hp := by
    rw [hlook] at hp
    split at hp
    · cases hp
    · exact h.directory p hp

theorem Mirrors.removeValue_ok (h : Mirrors keys d m) (hs : SuitsKeys d.root keys) (hk : keys k) :
    ∃ t, removeValue (d.pathnameOf k) d.tree = (.ok (m.get? k).isSome, t) ∧
      ∀ q, t.look q = if d.pathOf k <+: q then none else d.tree.look q := by
  have hshort := h.isShort_pathOf hs hk
  have hpath := h.look_pathOf hs hk
  cases hvalue : m.get? k with
  | some value =>
    rw [hvalue] at hpath
    refine removeValue_file hshort ?_ hpath
    simp [pathOf_eq, hs.names_ne_nil hk]
  | none =>
    rw [hvalue] at hpath
    refine ⟨d.tree, removeValue_none hshort hpath (h.clear_pathOf hs hk hvalue), fun q => ?_⟩
    split
    · next hq => exact look_eq_none_below hpath hq
    · rfl

theorem Mirrors.get?_without (h : Mirrors keys d m) (hs : SuitsKeys d.root keys) (hk : keys k)
    (k' : Key) : (m.restrict (· ≠ k)).get? k' =
      if k.names <+: k'.names then none else m.get? k' := by
  rw [MemoryStore.get?_restrict]
  by_cases he : k' = k
  · simp [he]
  · simp only [he, ne_eq, not_false_eq_true, decide_true, if_true]
    split
    · next hpre =>
      by_contra hvalue
      exact he (hs.eq_of_prefix hk (h.keys_of_get? k' hvalue) hpre).symm
    · rfl

theorem Mirrors.erase (h : Mirrors keys d m) (hs : SuitsKeys d.root keys) (hk : keys k) :
    ∃ t, (Store.erase k : StoreAction DirectoryStore StoreError Bool) d =
      (.ok (m.get? k).isSome, { d with tree := t }) ∧
        Mirrors keys { d with tree := t } (m.restrict (· ≠ k)) := by
  obtain ⟨t, ht, hlook⟩ := h.removeValue_ok hs hk
  have hnil : ¬ k.names <+: [] := fun hpre => hs.names_ne_nil hk (List.prefix_nil.1 hpre)
  have hbelow (p : Path) : t.look (d.root ++ p) =
      if k.names <+: p then none else d.tree.look (d.root ++ p) := by
    rw [hlook]
    simp only [pathOf_eq, List.prefix_append_right_inj]
  refine ⟨t, (erase_eq h.mode_ne).trans (onTree_ok ht), ?_⟩
  exact h.shrink (keepsTidy_removeValue.tidy h.tidy ht)
    (m.nodup_keys_restrict _ h.nodup) hnil hbelow (h.get?_without hs hk)

/-! ### Taking away all under a key -/

theorem Mirrors.get?_withoutUnder (h : Mirrors keys d m) (hs : SuitsKeys d.root keys) (k : Key) :
    (m.restrict fun k => !k.startsWith base).get? k =
      if base.names <+: k.names ∧ k.names ≠ [] then none else m.get? k := by
  rw [MemoryStore.get?_restrict]
  by_cases hk : k.names = []
  · obtain rfl : k = .root := Key.names_injective hk
    rw [h.get?_root hs, ite_self, ite_self]
  · by_cases hstarts : k.startsWith base = true
    · simp [hstarts, Key.startsWith_iff.1 hstarts, hk]
    · have hnot : ¬ base.names <+: k.names := fun hpre => hstarts (Key.startsWith_iff.2 hpre)
      simp [hstarts, hnot]

theorem Mirrors.eraseUnder (h : Mirrors keys d m) (hs : SuitsKeys d.root keys) (base : Key) :
    ∃ found t, (Store.eraseUnder base : StoreAction DirectoryStore StoreError Bool) d =
      (.ok found, { d with tree := t }) ∧
        Mirrors keys { d with tree := t } (m.restrict fun k => !k.startsWith base) := by
  obtain ⟨found, t, ht, htidy, -, hlook⟩ := (h.inOrder hs).eraseUnder_ok base
  refine ⟨found, t, ht, ?_⟩
  exact h.shrink htidy (m.nodup_keys_restrict _ h.nodup) (fun hnil => hnil.2 rfl) hlook
    (h.get?_withoutUnder hs)

end DirectoryStore

end ChunkedArray
