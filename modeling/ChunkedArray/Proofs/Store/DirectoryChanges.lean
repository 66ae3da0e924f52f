import ChunkedArray.Proofs.Assoc
import ChunkedArray.Proofs.Store.TidyTrees
import ChunkedArray.Proofs.Store.TreeChanges

/-!
# What a directory store does to its tree

Writing and removing values are each an equation for what is at every path afterwards; of the file
that is written first nothing stays.
-/

namespace ChunkedArray

/-! ### Short paths -/

namespace Path

/-- The names and the pathname of the path are short enough. -/
structure IsShort (p : Path) : Prop where
  size_le : (Pathname.ofPath p).size ≤ FileTree.maxPathnameSize
  isShortName : ∀ name ∈ p, IsShortName name

theorem foldl_size (p : Path) (size : Nat) :
    p.foldl (fun size name => size + 1 + name.utf8ByteSize) size =
      size + p.foldl (fun size name => size + 1 + name.utf8ByteSize) 0 := by
  induction p generalizing size with
  | nil => rfl
  | cons name p ih =>
    rw [List.foldl_cons, List.foldl_cons, ih, ih (0 + 1 + name.utf8ByteSize)]
    omega

theorem size_ofPath_append (p q : Path) :
    (Pathname.ofPath (p ++ q)).size = (Pathname.ofPath p).size + (Pathname.ofPath q).size := by
  simp only [Pathname.ofPath, List.foldl_append]
  exact foldl_size q _

theorem IsShort.of_append {p q : Path} (h : IsShort (p ++ q)) : IsShort p := by
  have hsize := h.size_le
  rw [size_ofPath_append] at hsize
  exact ⟨by omega, fun name hname => h.isShortName name (List.mem_append_left _ hname)⟩

theorem IsShort.means {p : Path} (h : IsShort p) : (Pathname.ofPath p).Means p :=
  ⟨rfl, rfl, rfl, h.size_le, h.isShortName⟩

end Path

namespace DirectoryStore

open FileAction FileTree

variable {t : FileTree} {p : Path} {name : String} {value : Bytes}

/-! ### Writing -/

/-- A directory that has no file under way gets the first name for one. -/
theorem freshName_eq {names : List String} (h : numberedName 0 ∉ names) :
    freshName names = numberedName 0 := by
  have hfirst : (List.range (names.length + 1)).find? (fun n => !names.contains (numberedName n)) =
      some 0 := by
    rw [List.range_succ_eq_map]
    exact List.find?_cons_of_pos (by simpa using h)
  rw [freshName]
  simp only [hfirst, Option.getD_some]

theorem look_concat_ne_none_iff {m : Node} (hm : t.top.at? p = some m) :
    t.look (p ++ [name]) ≠ none ↔ name ∈ Assoc.keys m.children := by
  rw [← Assoc.find?_isSome_iff, ← Option.isSome_iff_ne_none, look, Node.look_append, hm,
    Option.bind_some, Node.look_cons, Node.child?]
  cases Assoc.find? name m.children <;> simp [Node.look_nil]

theorem notMem_names {dir : Path} (h : t.look (dir ++ [name]) = none) :
    name ∉ (t.top.at? dir).elim [] fun n => Assoc.keys n.children := by
  cases hdir : t.top.at? dir with
  | none => exact List.not_mem_nil
  | some n => exact fun hmem => (look_concat_ne_none_iff hdir).2 hmem h

theorem makePartial_ok {n : Pathname} {t' : FileTree} (h : t.writeFile n [] = .ok t') :
    makePartial n t = (.ok (), t') := by
  rw [makePartial, change_apply, h]
  rfl

theorem moveIntoPlace_ok {source target : Pathname} {t' : FileTree}
    (h : t.moveFile source target = .ok t') : moveIntoPlace source target t = (.ok (), t') := by
  rw [moveIntoPlace, StoreAction.get_bind_apply, h]
  rfl

/-- The file that was made is written, and nothing else is new. -/
theorem fillPartial_ok {dir : Path} {n : Pathname} {t₁ : FileTree} (hn : n.Means (dir ++ [name]))
    (hdir : t.look dir = some none)
    (hmade : ∀ q, t₁.look q = if q = dir ++ [name] then some (some []) else t.look q) :
    ∃ t₂, change (·.writeFile n value) t₁ = (.ok (), t₂) ∧
      ∀ q, t₂.look q = if q = dir ++ [name] then some (some value) else t.look q := by
  have hdir₁ : t₁.look dir = some none := by rw [hmade, if_neg (by simp), hdir]
  obtain ⟨t₂, h₂, hlook₂⟩ := writeFile_ok hn hdir₁ (by simp [hmade])
  refine ⟨t₂, by rw [change_apply, h₂], fun q => ?_⟩
  rw [hlook₂, hmade]
  split <;> rfl

/-- A file is written where there was a file or nothing; of the one that is written first nothing
stays. -/
theorem replaceFile_ok {dir : Path} {target : Pathname} (htarget : target.Means (dir ++ [name]))
    (hshort : Path.IsShort (dir ++ [numberedName 0])) (hdir : t.look dir = some none)
    (hold : t.look (dir ++ [name]) ≠ some none) (hfresh : t.look (dir ++ [numberedName 0]) = none) :
    ∃ t', replaceFile dir target value t = (.ok (), t') ∧
      ∀ q, t'.look q = if q = dir ++ [name] then some (some value) else t.look q := by
  obtain ⟨t₁, h₁, hlook₁⟩ := writeFile_ok hshort.means hdir (by simp [hfresh])
  obtain ⟨t₂, h₂, hlook₂⟩ := fillPartial_ok hshort.means hdir hlook₁
  have hold₂ : t₂.look (dir ++ [name]) ≠ some none := by
    rw [hlook₂]
    split
    · simp
    · exact hold
  obtain ⟨t₃, h₃, hlook₃⟩ := moveFile_ok hshort.means htarget (by rw [hlook₂, if_pos rfl]) hold₂
  refine ⟨t₃, ?_, fun q => ?_⟩
  · have hname := freshName_eq (notMem_names hfresh)
    rw [replaceFile, StoreAction.get_bind_apply, hname]
    refine StoreAction.bind_eq_ok_iff.2 ⟨(), t₁, makePartial_ok h₁, ?_⟩
    exact StoreAction.bind_eq_ok_iff.2 ⟨(), t₂, h₂, moveIntoPlace_ok h₃⟩
  · rw [hlook₃, hlook₂]
    by_cases hpartial : dir ++ [numberedName 0] <+: q
    · rw [if_pos hpartial, look_eq_none_below hfresh hpartial]
    · have hne : q ≠ dir ++ [numberedName 0] := fun h => hpartial (h ▸ List.prefix_refl _)
      rw [if_neg hpartial, if_neg hne]

theorem writeValue_ok {dir : Path} (hshort : Path.IsShort (dir ++ [name]))
    (hshort' : Path.IsShort (dir ++ [numberedName 0])) (hclear : t.Clear dir)
    (hold : t.look (dir ++ [name]) ≠ some none) (hfresh : t.look (dir ++ [numberedName 0]) = none) :
    ∃ t', writeValue (dir ++ [name]) value t = (.ok (), t') ∧ ∀ q, t'.look q =
      if q = dir ++ [name] then some (some value)
      else if q <+: dir then some none else t.look q := by
  obtain ⟨t₁, h₁, hensured⟩ := makeDirectories_ok hshort.of_append.means hclear
  have hnot (name : String) : ¬ dir ++ [name] <+: dir := fun h => absurd h.length_le (by simp)
  have hdir₁ : t₁.look dir = some none := by rw [hensured, if_pos (List.prefix_refl dir)]
  have hold₁ : t₁.look (dir ++ [name]) ≠ some none := by
    rw [hensured, if_neg (hnot _)]
    exact hold
  have hfresh₁ : t₁.look (dir ++ [numberedName 0]) = none := by
    rw [hensured, if_neg (hnot _), hfresh]
  obtain ⟨t', ht', hlook⟩ := replaceFile_ok hshort.means hshort' hdir₁ hold₁ hfresh₁
  refine ⟨t', ?_, fun q => by rw [hlook, hensured]⟩
  rw [writeValue, List.dropLast_concat]
  exact StoreAction.bind_eq_ok_iff.2 ⟨(), t₁, h₁, ht'⟩

/-! ### Taking away -/

/-- Taking a file away takes away all that is at its path, also where there was nothing. -/
theorem removeValue_file (hshort : p.IsShort) (hp : p ≠ []) (hfile : t.look p = some (some value)) :
    ∃ t', removeValue (.ofPath p) t = (.ok true, t') ∧
      ∀ q, t'.look q = if p <+: q then none else t.look q := by
  obtain ⟨t', ht', hlook⟩ := removeFile_ok hshort.means hp hfile
  refine ⟨t', ?_, hlook⟩
  rw [removeValue, StoreAction.get_bind_apply, ht']
  rfl

theorem removeValue_none (hshort : p.IsShort) (hnone : t.look p = none) (hclear : t.Clear p) :
    removeValue (.ofPath p) t = (.ok false, t) := by
  rw [removeValue, StoreAction.get_bind_apply, removeFile_noEntry hshort.means hnone hclear]
  rfl

theorem removeTree_ok (hp : p ≠ []) (hshort : t.look p ≠ none → p.IsShort) :
    ∃ t', removeTree p t = (.ok (t.look p).isSome, t') ∧
      ∀ q, t'.look q = if p <+: q then none else t.look q := by
  have happly : removeTree p t =
      if t.contains (.ofPath p) then (.ok true, t.prune p) else (.ok false, t) := by
    rw [removeTree, StoreAction.get_bind_apply]
    split <;> rfl
  rw [happly]
  cases hlook : t.look p with
  | some x =>
    obtain ⟨m, hm, -⟩ := look_eq_some_iff.1 hlook
    obtain ⟨s, hs, -⟩ := resolve_ok (hshort (Option.ne_none_iff_exists'.2 ⟨x, hlook⟩)).means hm
    have hcontains : t.contains (.ofPath p) = true := by rw [contains, hs]; rfl
    exact ⟨t.prune p, if_pos hcontains, fun q => look_prune hp⟩
  | none =>
    have hcontains : ¬ t.contains (.ofPath p) = true := by
      rw [contains]
      cases hs : t.resolve (.ofPath p) with
      | error => exact Bool.false_ne_true
      | ok s =>
        have hat := (of_resolve_ofPath hs).1
        rw [look_eq_none_iff.1 hlook] at hat
        cases hat
    refine ⟨t, if_neg hcontains, fun q => ?_⟩
    split
    · next hq => exact look_eq_none_below hlook hq
    · rfl

theorem removeEntry_ok {x : Option Bytes} (hshort : Path.IsShort (p ++ [name]))
    (hlook : t.look (p ++ [name]) = some x) :
    removeEntry p name t = (.ok (), t.prune (p ++ [name])) := by
  obtain ⟨m, hm, -⟩ := look_eq_some_iff.1 hlook
  obtain ⟨s, hs, -, hpath⟩ := resolve_ok hshort.means hm
  rw [removeEntry, change_apply, hs, Outcome.ok_bind, hpath]
  rfl

/-- Entries are taken away one after the other; by then those that are left are still there. -/
theorem removeEntries_ok {names : List String} (hnodup : names.Nodup)
    (hshort : ∀ name ∈ names, Path.IsShort (p ++ [name]))
    (hthere : ∀ name ∈ names, t.look (p ++ [name]) ≠ none) :
    ∃ t', names.forM (removeEntry p) t = (.ok (), t') ∧
      ∀ q, t'.look q = if ∃ name ∈ names, p ++ [name] <+: q then none else t.look q := by
  induction names generalizing t with
  | nil => exact ⟨t, rfl, fun q => by simp⟩
  | cons name names ih =>
    obtain ⟨hnew, hnodup⟩ := List.nodup_cons.1 hnodup
    rw [List.forall_mem_cons] at hshort hthere
    obtain ⟨x, hx⟩ := Option.ne_none_iff_exists'.1 hthere.1
    have hpruned (q : Path) : (t.prune (p ++ [name])).look q =
        if p ++ [name] <+: q then none else t.look q := look_prune (by simp)
    have hthere' : ∀ name' ∈ names, (t.prune (p ++ [name])).look (p ++ [name']) ≠ none := by
      intro name' hname'
      rw [hpruned, if_neg]
      · exact hthere.2 name' hname'
      · intro hpre
        obtain rfl : name = name' := by simpa using hpre
        exact hnew hname'
    obtain ⟨t', ht', hlook⟩ := ih hnodup hshort.2 hthere'
    refine ⟨t', StoreAction.forM_cons_eq_ok_iff.2 ⟨_, removeEntry_ok hshort.1 hx, ht'⟩, fun q => ?_⟩
    rw [hlook, hpruned]
    by_cases hq : p ++ [name] <+: q
    · simp [hq]
    · simp [hq]

/-- What is below a directory is at or below one of its entries. -/
theorem look_eq_none_of_not_entry {m : Node} {q : Path} (hm : t.top.at? p = some m) (hq : p <+: q)
    (hne : q ≠ p) (hnot : ¬ ∃ name ∈ Assoc.keys m.children, p ++ [name] <+: q) :
    t.look q = none := by
  obtain ⟨r, rfl⟩ := hq
  cases r with
  | nil => exact absurd (List.append_nil p) hne
  | cons name rest =>
    have hpre : p ++ [name] <+: p ++ name :: rest := by simp
    refine look_eq_none_below (not_not.1 fun hx => hnot ?_) hpre
    exact ⟨name, (look_concat_ne_none_iff hm).1 hx, hpre⟩

/-- A directory has an entry exactly if there is something below it. -/
theorem isEmpty_children_eq_false_iff {m : Node} (hm : t.top.at? p = some m) :
    m.children.isEmpty = false ↔ ∃ q, q ≠ [] ∧ t.look (p ++ q) ≠ none := by
  rw [List.isEmpty_eq_false_iff_exists_mem]
  constructor
  · rintro ⟨⟨name, c⟩, hc⟩
    have hname : name ∈ Assoc.keys m.children := List.mem_map_of_mem hc
    exact ⟨[name], List.cons_ne_nil _ _, (look_concat_ne_none_iff hm).2 hname⟩
  · rintro ⟨q, hq, hlook⟩
    obtain ⟨name, rest, rfl⟩ := List.exists_cons_of_ne_nil hq
    have hentry : t.look (p ++ [name]) ≠ none := fun hnone =>
      hlook (look_eq_none_below hnone (by simp))
    obtain ⟨e, he, -⟩ := List.mem_map.1 ((look_concat_ne_none_iff hm).1 hentry)
    exact ⟨e, he⟩

theorem clearDirectory_ok (htidy : t.Tidy) (hdir : t.look p = some none) (hp : p.IsShort)
    (hshort : ∀ name, t.look (p ++ [name]) ≠ none → Path.IsShort (p ++ [name])) :
    ∃ found t', clearDirectory p t = (.ok found, t') ∧
      (found = true ↔ ∃ q, q ≠ [] ∧ t.look (p ++ q) ≠ none) ∧
      ∀ q, t'.look q = if p <+: q ∧ q ≠ p then none else t.look q := by
  obtain ⟨m, hm, hcontents⟩ := look_eq_some_iff.1 hdir
  obtain ⟨s, hs, rfl, -⟩ := resolve_ok hp.means hm
  have hthere (name : String) (hname : name ∈ Assoc.keys s.node.children) :
      t.look (p ++ [name]) ≠ none := (look_concat_ne_none_iff hm).2 hname
  obtain ⟨t', ht', hlook⟩ := removeEntries_ok (htidy p _ hm)
    (fun name hname => hshort name (hthere name hname)) hthere
  refine ⟨!s.node.children.isEmpty, t', ?_, ?_, fun q => ?_⟩
  · rw [clearDirectory, StoreAction.get_bind_apply, hs]
    obtain ⟨node, above⟩ := s
    cases node with
    | file => cases hcontents
    | directory children w => exact StoreAction.bind_eq_ok_iff.2 ⟨(), t', ht', rfl⟩
  · rw [Bool.not_eq_true', isEmpty_children_eq_false_iff hm]
  · rw [hlook]
    by_cases hentry : ∃ name ∈ Assoc.keys s.node.children, p ++ [name] <+: q
    · obtain ⟨name, -, hpre⟩ := id hentry
      have hne : q ≠ p := by
        rintro rfl
        exact absurd hpre.length_le (by simp)
      rw [if_pos hentry, if_pos ⟨(List.prefix_append p [name]).trans hpre, hne⟩]
    · rw [if_neg hentry]
      split
      · next hq => exact look_eq_none_of_not_entry hm hq.1 hq.2 hentry
      · rfl

end DirectoryStore

end ChunkedArray
