import ChunkedArray.Proofs.Store.DirectoryChanges
import ChunkedArray.Proofs.Store.KeyOrder

/-!
# What a directory store reads from its tree

A key has the value that is in the file at its path. The keys under a key are those of the files at
and below its path.
-/

namespace ChunkedArray

def Key.Valid (k : Key) : Prop := ∀ c ∈ k.components, c.Valid

theorem KeyComponent.parse_eq_ok_iff {name : String} {c : KeyComponent} :
    (parse name).toOption = some c ↔ name = c.text ∧ c.Valid := by
  rw [parse, Valid]
  cases hfault : fault? name.toList with
  | some e =>
    refine ⟨fun h => (by cases h), ?_⟩
    rintro ⟨rfl, hvalid⟩
    rw [hfault] at hvalid
    cases hvalid
  | none =>
    constructor
    · intro h
      obtain rfl := Option.some.inj h
      exact ⟨rfl, hfault⟩
    · rintro ⟨rfl, -⟩
      rfl

theorem KeyComponent.mapM_parse_eq_some_iff {names : List String} {cs : List KeyComponent} :
    (names.mapM fun name => (parse name).toOption) = some cs ↔
      names = cs.map text ∧ ∀ c ∈ cs, c.Valid := by
  induction names generalizing cs with
  | nil => cases cs <;> simp
  | cons name names ih =>
    simp only [List.mapM_cons, Option.bind_eq_bind, Option.bind_eq_some_iff, parse_eq_ok_iff, ih,
      Option.pure_def, Option.some.injEq]
    constructor
    · rintro ⟨c, ⟨rfl, hc⟩, cs, ⟨rfl, hcs⟩, rfl⟩
      exact ⟨rfl, List.forall_mem_cons.2 ⟨hc, hcs⟩⟩
    · rintro ⟨hnames, hvalid⟩
      cases cs with
      | nil => cases hnames
      | cons c cs =>
        obtain ⟨rfl, rfl⟩ := List.cons.inj hnames
        rw [List.forall_mem_cons] at hvalid
        exact ⟨c, ⟨rfl, hvalid.1⟩, cs, ⟨rfl, hvalid.2⟩, rfl⟩

namespace DirectoryStore

open FileTree

variable {d : DirectoryStore} {k base : Key} {p : Path} {value : Bytes}

theorem pathOf_eq (d : DirectoryStore) (k : Key) : d.pathOf k = d.root ++ k.names := rfl

theorem keyOf?_eq_some_iff : d.keyOf? p = some k ↔ p = d.pathOf k ∧ k.Valid := by
  rw [keyOf?]
  split
  · next hroot =>
    obtain ⟨names, rfl⟩ := List.isPrefixOf_iff_prefix.1 hroot
    rw [List.drop_left, Option.map_eq_some_iff]
    simp only [KeyComponent.mapM_parse_eq_some_iff]
    constructor
    · rintro ⟨cs, ⟨rfl, hvalid⟩, rfl⟩
      exact ⟨rfl, hvalid⟩
    · rintro ⟨hpath, hvalid⟩
      exact ⟨k.components, ⟨List.append_cancel_left hpath, hvalid⟩, rfl⟩
  · next hroot =>
    refine ⟨fun h => (by cases h), ?_⟩
    rintro ⟨rfl, -⟩
    exact absurd (List.isPrefixOf_iff_prefix.2 (List.prefix_append d.root k.names)) hroot

/-! ### Values -/

theorem read_eq (hshort : (d.pathOf k).IsShort)
    (hclear : d.tree.look (d.pathOf k) = none → d.tree.Clear (d.pathOf k)) :
    d.read k = .ok (d.tree.look (d.pathOf k)).join := by
  have hdirectory := isDirectory_iff (t := d.tree) hshort.means
  rw [read, pathnameOf]
  cases hlook : d.tree.look (d.pathOf k) with
  | none =>
    rw [hlook] at hdirectory
    simp [hdirectory, read_noEntry hshort.means hlook (hclear hlook)]
  | some x =>
    rw [hlook] at hdirectory
    cases x with
    | none => simp [hdirectory]
    | some value => simp [hdirectory, read_file hshort.means hlook]

/-! ### Listing -/

/-- The keys of the files among some nodes. -/
def fileKeys (d : DirectoryStore) (nodes : List (Path × Node)) : List Key :=
  nodes.filterMap fun (p, n) => if n.isFile then d.keyOf? p else none

theorem mem_fileKeys_iff {nodes : List (Path × Node)} :
    k ∈ d.fileKeys nodes ↔ ∃ n, (d.pathOf k, n) ∈ nodes ∧ n.isFile = true ∧ k.Valid := by
  simp only [fileKeys, List.mem_filterMap, Prod.exists, Option.ite_none_right_eq_some,
    keyOf?_eq_some_iff]
  constructor
  · rintro ⟨_, n, hn, hfile, rfl, hvalid⟩
    exact ⟨n, hn, hfile, hvalid⟩
  · rintro ⟨n, hn, hfile, hvalid⟩
    exact ⟨_, n, hn, hfile, rfl, hvalid⟩

theorem nodup_fileKeys {nodes : List (Path × Node)} (h : (nodes.map Prod.fst).Nodup) :
    (d.fileKeys nodes).Nodup := by
  refine List.pairwise_filterMap.2 ((List.pairwise_map.1 h).imp ?_)
  rintro ⟨p, n⟩ ⟨p', n'⟩ hne k hk k' hk' rfl
  rw [Option.ite_none_right_eq_some, keyOf?_eq_some_iff] at hk hk'
  exact hne (hk.2.1.trans hk'.2.1.symm)

section

variable {m : Node} (hm : d.tree.top.at? (d.pathOf base) = some m) (hbelow : m.Tidy)

include hm

theorem look_pathOf_append (q : Path) : d.tree.look (d.root ++ (base.names ++ q)) = m.look q := by
  rw [← List.append_assoc, ← pathOf_eq, look, Node.look_append, hm, Option.bind_some]

include hbelow

theorem mem_fileKeys_within_iff : k ∈ d.fileKeys (m.within (d.pathOf base)) ↔
    k.startsWith base = true ∧ k.Valid ∧ ∃ value, d.tree.look (d.pathOf k) = some (some value) := by
  simp only [mem_fileKeys_iff, Node.mem_within_iff m hbelow, Key.startsWith_iff, pathOf_eq,
    List.append_assoc, List.append_cancel_left_eq]
  constructor
  · rintro ⟨n, ⟨q, hnames, hq⟩, hfile, hvalid⟩
    refine ⟨hnames ▸ List.prefix_append _ _, hvalid, ?_⟩
    rw [hnames, look_pathOf_append hm, Node.look, hq]
    cases n with
    | file contents w => exact ⟨contents, rfl⟩
    | directory => cases hfile
  · rintro ⟨⟨q, hnames⟩, hvalid, value, hvalue⟩
    rw [← hnames, look_pathOf_append hm] at hvalue
    obtain ⟨n, hn, hcontents⟩ := Node.look_eq_some_iff.1 hvalue
    refine ⟨n, ⟨q, hnames.symm, hn⟩, ?_, hvalid⟩
    cases n with
    | file => rfl
    | directory => cases hcontents

end

theorem keysUnder_of_none (hnone : d.tree.look (d.pathOf base) = none) :
    d.keysUnder base = .ok [] := by
  rw [keysUnder, pathnameOf]
  cases hs : d.tree.resolve (.ofPath (d.pathOf base)) with
  | error => rfl
  | ok s =>
    have hat := (of_resolve_ofPath hs).1
    rw [look_eq_none_iff.1 hnone] at hat
    cases hat

/-- All directories at and below a place can be opened if their pathnames are short enough. -/
theorem keysUnder_of_resolve {s : Place} (hs : d.tree.resolve (d.pathnameOf base) = .ok s)
    (hsize : ∀ p n, (p, n) ∈ s.node.within (d.pathOf base) →
      (Pathname.ofPath p).size ≤ maxPathnameSize) :
    d.keysUnder base = .ok (Key.sort (d.fileKeys (s.node.within (d.pathOf base)))) := by
  rw [keysUnder, hs]
  refine if_neg fun hlong => ?_
  obtain ⟨⟨p, n⟩, hn, hlong⟩ := List.any_eq_true.1 hlong
  have hle := hsize p n hn
  simp [Nat.not_lt.2 hle] at hlong

theorem keysUnder_ok (htidy : d.tree.Tidy)
    (hsize : ∀ p, d.tree.look (d.root ++ p) ≠ none →
      (Pathname.ofPath (d.root ++ p)).size ≤ maxPathnameSize)
    (hbase : d.tree.look (d.pathOf base) ≠ none → (d.pathOf base).IsShort) :
    ∃ l : List Key, d.keysUnder base = .ok (Key.sort l) ∧ l.Nodup ∧ ∀ k, k ∈ l ↔
      k.startsWith base = true ∧ k.Valid ∧ ∃ value, d.tree.look (d.pathOf k) = some (some value) := by
  cases hlook : d.tree.look (d.pathOf base) with
  | none =>
    have hempty : Key.sort [] = [] := List.mergeSort_nil
    refine ⟨[], hempty.symm ▸ keysUnder_of_none hlook, List.nodup_nil, fun k => ?_⟩
    simp only [List.not_mem_nil, false_iff]
    rintro ⟨hk, -, value, hvalue⟩
    have hpre : d.pathOf base <+: d.pathOf k :=
      (List.prefix_append_right_inj d.root).2 (Key.startsWith_iff.1 hk)
    rw [look_eq_none_below hlook hpre] at hvalue
    cases hvalue
  | some x =>
    obtain ⟨m, hm, -⟩ := look_eq_some_iff.1 hlook
    obtain ⟨s, hs, rfl, -⟩ := resolve_ok (hbase (Option.ne_none_iff_exists'.2 ⟨x, hlook⟩)).means hm
    have hbelow := htidy.at? hm
    refine ⟨d.fileKeys (s.node.within (d.pathOf base)), keysUnder_of_resolve hs fun p n hn => ?_,
      nodup_fileKeys (Node.nodup_within _ hbelow _), fun k => mem_fileKeys_within_iff hm hbelow⟩
    obtain ⟨q, rfl, hq⟩ := (Node.mem_within_iff _ hbelow _).1 hn
    have hthere : d.tree.look (d.root ++ (base.names ++ q)) ≠ none := by
      rw [look_pathOf_append hm, Node.look, hq]
      exact Option.some_ne_none _
    have hle := hsize _ hthere
    rwa [← List.append_assoc, ← pathOf_eq] at hle

end DirectoryStore

end ChunkedArray
