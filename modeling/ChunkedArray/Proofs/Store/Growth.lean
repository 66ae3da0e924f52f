import ChunkedArray.Proofs.Store.DirectoryReads
import ChunkedArray.Proofs.Store.Walks

/-!
# Reading directories that have grown

A tree may get new directories, and files that no key leads to, without a reader of the store noticing:
neither a value nor a key is added. There is one thing that a reader may notice. A key with a component
that is too long for a name is met in a directory that was not there before, and then asking for its
value is an error.
-/

namespace ChunkedArray

/-- From the root of a store some valid key leads to the path or to something below it. -/
def Path.SeenFrom (q root : Path) : Prop := ∃ k : Key, k.Valid ∧ q <+: root ++ k.names

theorem Path.SeenFrom.of_prefix {root p q : Path} (h : p.SeenFrom root) (hq : q <+: p) :
    q.SeenFrom root :=
  let ⟨k, hk, hp⟩ := h
  ⟨k, hk, hq.trans hp⟩

/-- Where keys lead nothing has changed but that there are new directories, on the way to `dir`. There
may be other files where no key leads. -/
structure FileTree.Grown (root dir : Path) (t t' : FileTree) : Prop where
  grows : ∀ q : Path, q.SeenFrom root → Grows (t.look q) (t'.look q)
  kept : ∀ q, t.look q = some none → t'.look q = some none
  made : ∀ q, t'.look q = some none →
    t.look q = some none ∨ t.look q = none ∧ q <+: dir ∧ q.IsShort

theorem FileTree.Grown.refl (root dir : Path) (t : FileTree) : Grown root dir t t :=
  ⟨fun _ _ => .inl rfl, fun _ h => h, fun _ h => .inl h⟩

/-- No component is too long for the name of a file. -/
def Key.FitsNames (k : Key) : Prop := ∀ c ∈ k.components, c.byteLength ≤ Place.maxNameSize

namespace DirectoryStore

open FileTree

variable {d d' : DirectoryStore} {dir : Path} {k base : Key} {s : Place}

/-- The store was opened. Its root need not be there any more. -/
structure IsOpen (d : DirectoryStore) : Prop where
  isShort_root : d.root.IsShort
  tidy : d.tree.Tidy

/-- Whoever reads the second store instead of the first gets the same answers, but that a key which
cannot be that of a file may have an error instead of no value. -/
structure Unchanged (d d' : DirectoryStore) : Prop where
  get : ∀ k : Key, k.Valid → Store.get k d' = Store.get k d ∨ ¬ k.FitsNames ∧
    Store.get k d = .ok none ∧ Store.get k d' = .error (.file .nameTooLong)
  has : ∀ k : Key, k.Valid → Store.has k d' = Store.has k d
  keysUnder : ∀ base : Key, base.Valid → Store.keysUnder base d' = Store.keysUnder base d
  keys : Store.keys d' = Store.keys d

theorem Unchanged.antisymm (h : Unchanged d d') (h' : Unchanged d' d) (hk : k.Valid) :
    Store.get k d' = Store.get k d := by
  rcases h.get k hk with hsame | ⟨-, hnone, herror⟩
  · exact hsame
  · rcases h'.get k hk with hsame | ⟨-, hnone', -⟩
    · exact hsame.symm
    · rw [herror] at hnone'
      cases hnone'

/-! ### Values -/

/-- The value that is found where a pathname leads. -/
def valueAt : Except FileError Place → Except StoreError (Option Bytes)
  | .ok s => .ok s.node.contents?
  | .error .noEntry => .ok none
  | .error e => .error (.file e)

theorem read_eq_valueAt : d.read k = valueAt (d.tree.resolve (d.pathnameOf k)) := by
  rw [DirectoryStore.read, FileTree.isDirectory, FileTree.read]
  cases d.tree.resolve (d.pathnameOf k) with
  | error e => cases e <;> rfl
  | ok s => cases hs : s.node <;> simp [hs, valueAt, Except.toOption, Node.isDirectory, Node.contents?]

theorem valueAt_follows {p : Path} {x y : Except FileError Place} (h : Place.Follows p x y) :
    valueAt y = valueAt x ∨ (∃ name ∈ p, Place.maxNameSize < name.utf8ByteSize) ∧
      valueAt x = .ok none ∧ valueAt y = .error (.file .nameTooLong) := by
  cases h with
  | ok h => exact .inl (congrArg Except.ok h)
  | error e => exact .inl rfl
  | directory h => exact .inl (congrArg Except.ok h)
  | tooLong h => exact .inr ⟨h, rfl, rfl⟩

theorem isFile_follows {p : Path} {x y : Except FileError Place} (h : Place.Follows p x y) :
    y.toOption.any (·.node.isFile) = x.toOption.any (·.node.isFile) := by
  have hfile (s : Place) : s.node.isFile = s.node.contents?.isSome := by cases s.node <;> rfl
  cases h with
  | ok h => simp [Except.toOption, hfile, h]
  | error e => rfl
  | directory h => simp [Except.toOption, hfile, h]
  | tooLong h => rfl

/-! ### Listing -/

/-- At or below the path of a key there is a directory that cannot be opened by its pathname. -/
def HasLongDirectory (d : DirectoryStore) (base : Key) : Prop :=
  ∃ q, d.tree.look (d.pathOf base ++ q) = some none ∧
    maxPathnameSize < (Pathname.ofPath (d.pathOf base ++ q)).size

theorem keysUnder_of_error {e : FileError} (hs : d.tree.resolve (d.pathnameOf base) = .error e) :
    d.keysUnder base = .ok [] := by
  rw [DirectoryStore.keysUnder, hs]

section

variable (htidy : d.tree.Tidy) (hs : d.tree.resolve (d.pathnameOf base) = .ok s)

include htidy hs

theorem any_tooLong_iff : ((s.node.within (d.pathOf base)).any fun (p, n) =>
      n.isDirectory && decide ((Pathname.ofPath p).size > maxPathnameSize)) = true ↔
    d.HasLongDirectory base := by
  have hat := (of_resolve_ofPath hs).1
  have hlook (q : Path) : d.tree.look (d.pathOf base ++ q) = s.node.look q := by
    rw [look, Node.look_append, hat, Option.bind_some]
  simp only [HasLongDirectory, hlook, List.any_eq_true, Prod.exists, Bool.and_eq_true,
    decide_eq_true_eq, Node.mem_within_iff _ (htidy.at? hat), Node.look_eq_some_iff,
    Node.isDirectory_iff]
  constructor
  · rintro ⟨_, n, ⟨q, rfl, hn⟩, hdir, hlong⟩
    exact ⟨q, ⟨n, hn, hdir⟩, hlong⟩
  · rintro ⟨q, ⟨n, hn, hdir⟩, hlong⟩
    exact ⟨_, n, ⟨q, rfl, hn⟩, hdir, hlong⟩

theorem keysUnder_of_long (h : d.HasLongDirectory base) :
    d.keysUnder base = .error (.file .derivedNameTooLong) := by
  rw [DirectoryStore.keysUnder, hs]
  exact if_pos ((any_tooLong_iff htidy hs).2 h)

theorem keysUnder_of_not_long (h : ¬ d.HasLongDirectory base) :
    d.keysUnder base = .ok (Key.sort (d.fileKeys (s.node.within (d.pathOf base)))) := by
  rw [DirectoryStore.keysUnder, hs]
  exact if_neg fun hany => h ((any_tooLong_iff htidy hs).1 hany)

end

/-! ### A store that has grown -/

variable (hroot : d'.root = d.root) (h : Grown d.root dir d.tree d'.tree)

include hroot

theorem pathOf_of_root_eq (k : Key) : d'.pathOf k = d.pathOf k := by
  rw [pathOf_eq, pathOf_eq, hroot]

include h

theorem follows_pathnameOf (hk : k.Valid) : Place.Follows (d.pathOf k)
    (d.tree.resolve (d.pathnameOf k)) (d'.tree.resolve (d'.pathnameOf k)) := by
  rw [pathnameOf, pathnameOf, pathOf_of_root_eq hroot]
  exact follows_resolve fun q hq => h.grows q ⟨k, hk, hq⟩

theorem hasLongDirectory_iff : d'.HasLongDirectory base ↔ d.HasLongDirectory base := by
  simp only [HasLongDirectory, pathOf_of_root_eq hroot]
  constructor
  · rintro ⟨q, hdir, hlong⟩
    refine ⟨q, (h.made _ hdir).resolve_right fun hnew => ?_, hlong⟩
    exact absurd hnew.2.2.size_le (Nat.not_le.2 hlong)
  · rintro ⟨q, hdir, hlong⟩
    exact ⟨q, h.kept _ hdir, hlong⟩

/-- Where a key leads in the tree that has grown there is a file only if it was there before. -/
theorem look_file_iff {value : Bytes} (hk : k.Valid) :
    d'.tree.look (d'.pathOf k) = some (some value) ↔ d.tree.look (d.pathOf k) = some (some value) := by
  have hgrows := h.grows (d.pathOf k) ⟨k, hk, List.prefix_refl _⟩
  rw [pathOf_of_root_eq hroot]
  constructor
  · intro hfile
    rcases hgrows with hsame | ⟨-, hdir⟩
    · exact hsame ▸ hfile
    · rw [hfile] at hdir
      cases hdir
  · intro hfile
    rw [hgrows.eq (by simp [hfile]), hfile]

/-- A new directory has no file that a key leads to, and its pathname is short. -/
theorem keysUnder_of_new (htidy' : d'.tree.Tidy) (hnone : d.tree.look (d.pathOf base) = none) :
    d'.keysUnder base = .ok [] := by
  cases hs' : d'.tree.resolve (d'.pathnameOf base) with
  | error e => exact keysUnder_of_error hs'
  | ok s' =>
    have hbelow (q : Path) (hq : d.pathOf base <+: q) : d.tree.look q = none :=
      look_eq_none_below hnone hq
    have hshort : ¬ d.HasLongDirectory base := by
      rintro ⟨q, hdir, -⟩
      rw [hbelow _ (List.prefix_append _ q)] at hdir
      cases hdir
    have hempty : d'.fileKeys (s'.node.within (d'.pathOf base)) = [] := by
      have hat' := (of_resolve_ofPath hs').1
      refine List.eq_nil_iff_forall_not_mem.2 fun k hk => ?_
      obtain ⟨hstarts, hvalid, value, hvalue⟩ :=
        (mem_fileKeys_within_iff hat' (htidy'.at? hat')).1 hk
      rw [look_file_iff hroot h hvalid, hbelow] at hvalue
      · cases hvalue
      · exact (List.prefix_append_right_inj d.root).2 (Key.startsWith_iff.1 hstarts)
    rw [keysUnder_of_not_long htidy' hs' (mt (hasLongDirectory_iff hroot h).1 hshort), hempty]
    exact congrArg Except.ok List.mergeSort_nil

theorem keysUnder_grown (htidy : d.tree.Tidy) (htidy' : d'.tree.Tidy) (hbase : base.Valid) :
    d'.keysUnder base = d.keysUnder base := by
  have hfollows := follows_pathnameOf hroot h hbase
  by_cases hnone : d.tree.look (d.pathOf base) = none
  · rw [keysUnder_of_none hnone, keysUnder_of_new hroot h htidy' hnone]
  · cases hs' : d'.tree.resolve (d'.pathnameOf base) with
    | error e' =>
      rw [hs'] at hfollows
      cases hs : d.tree.resolve (d.pathnameOf base) with
      | error e => rw [keysUnder_of_error hs, keysUnder_of_error hs']
      | ok s =>
        rw [hs] at hfollows
        cases hfollows
    | ok s' =>
      have hmeans := means_of_resolve (Pathname.leadsTo_ofPath _) hs'
      obtain ⟨m, hm⟩ := Option.ne_none_iff_exists'.1 (mt look_eq_none_iff.2 hnone)
      rw [pathOf_of_root_eq hroot] at hmeans
      obtain ⟨s, hs, -⟩ := resolve_ok hmeans hm
      have hat := (of_resolve_ofPath hs).1
      have hat' := (of_resolve_ofPath hs').1
      have hperm : (d'.fileKeys (s'.node.within (d'.pathOf base))).Perm
          (d.fileKeys (s.node.within (d.pathOf base))) := by
        refine (List.perm_ext_iff_of_nodup (nodup_fileKeys (Node.nodup_within _ (htidy'.at? hat') _))
          (nodup_fileKeys (Node.nodup_within _ (htidy.at? hat) _))).2 fun k => ?_
        rw [mem_fileKeys_within_iff hat' (htidy'.at? hat'),
          mem_fileKeys_within_iff hat (htidy.at? hat)]
        refine and_congr_right fun _ => and_congr_right fun hk => ?_
        exact exists_congr fun value => look_file_iff hroot h hk
      have hlong : d'.HasLongDirectory base ↔ d.HasLongDirectory base := hasLongDirectory_iff hroot h
      by_cases hl : d.HasLongDirectory base
      · rw [keysUnder_of_long htidy hs hl, keysUnder_of_long htidy' hs' (hlong.2 hl)]
      · rw [keysUnder_of_not_long htidy hs hl, keysUnder_of_not_long htidy' hs' (mt hlong.1 hl),
          Key.sort_eq_sort_of_perm hperm]

theorem IsOpen.unchanged (hd : d.IsOpen) (htidy' : d'.tree.Tidy) : d.Unchanged d' := by
  have hlisted (base : Key) (hbase : base.Valid) : d'.keysUnder base = d.keysUnder base :=
    keysUnder_grown hroot h hd.tidy htidy' hbase
  refine ⟨fun k hk => ?_, fun k hk => ?_, hlisted, hlisted .root fun _ hc => by cases hc⟩
  · show d'.read k = d.read k ∨ _ ∧ d.read k = _ ∧ d'.read k = _
    rw [read_eq_valueAt, read_eq_valueAt]
    refine (valueAt_follows (follows_pathnameOf hroot h hk)).imp_right (And.imp_left ?_)
    rintro ⟨name, hname, hlong⟩ hfits
    rcases List.mem_append.1 hname with hname | hname
    · exact absurd (hd.isShort_root.isShortName name hname).1 (Nat.not_le.2 hlong)
    · obtain ⟨c, hc, rfl⟩ := List.mem_map.1 hname
      exact absurd (hfits c hc) (Nat.not_le.2 hlong)
  · exact congrArg Except.ok (isFile_follows (follows_pathnameOf hroot h hk))

end DirectoryStore

end ChunkedArray
