import ChunkedArray.Proofs.Store.DirectoryChanges

/-!
# The text of a path

A path whose names are proper is what its text means, when this is cut at the slashes.
-/

namespace ChunkedArray

/-- A name that leads down, and not to the directory itself or above it. -/
structure IsProperName (name : String) : Prop where
  ne_empty : name ≠ ""
  ne_dot : name ≠ "."
  ne_dots : name ≠ ".."
  slash_notMem : '/' ∉ name.toList

theorem IsProperName.ofText {name : String} (h : IsProperName name) : Step.ofText name = .down name := by
  rw [Step.ofText, if_neg (not_or.2 ⟨h.ne_empty, h.ne_dot⟩), if_neg h.ne_dots]

namespace Path

variable {p : Path}

theorem toList_toText (p : Path) : p.toText.toList = p.flatMap fun name => '/' :: name.toList := by
  rw [toText, String.toList_join, List.flatMap_map]
  simp

theorem utf8ByteSize_toText (p : Path) : p.toText.utf8ByteSize = (Pathname.ofPath p).size := by
  have hjoin (s : String) : ((p.map ("/" ++ ·)).foldl (· ++ ·) s).utf8ByteSize =
      p.foldl (fun size name => size + 1 + name.utf8ByteSize) s.utf8ByteSize := by
    induction p generalizing s with
    | nil => rfl
    | cons name p ih =>
      have hone : "/".utf8ByteSize = 1 := by decide
      rw [List.map_cons, List.foldl_cons, ih, List.foldl_cons, String.utf8ByteSize_append,
        String.utf8ByteSize_append, hone, Nat.add_assoc]
  exact hjoin ""

theorem intercalate_cons (cs : List Char) (parts : List (List Char)) :
    List.intercalate ['/'] (cs :: parts) = cs ++ parts.flatMap ('/' :: ·) := by
  induction parts generalizing cs with
  | nil => simp
  | cons part parts ih =>
    rw [List.intercalate_cons_cons, ih, List.flatMap_cons]
    simp

theorem splitOnP_toText (hp : ∀ name ∈ p, IsProperName name) :
    p.toText.toList.splitOnP (· == '/') = [] :: p.map String.toList := by
  have hjoined : p.toText.toList = List.intercalate ['/'] ([] :: p.map String.toList) := by
    rw [toList_toText, intercalate_cons, List.flatMap_map]
    rfl
  rw [hjoined]
  refine List.splitOn_intercalate '/' (List.forall_mem_cons.2 ⟨List.not_mem_nil, ?_⟩)
    (List.cons_ne_nil _ _)
  intro cs hcs
  obtain ⟨name, hname, rfl⟩ := List.mem_map.1 hcs
  exact (hp name hname).slash_notMem

theorem startsWith_toText (hne : p ≠ []) : p.toText.startsWith "/" = true := by
  rw [String.startsWith_string_iff, toList_toText]
  obtain ⟨name, p, rfl⟩ := List.exists_cons_of_ne_nil hne
  exact ⟨name.toList ++ p.flatMap fun name => '/' :: name.toList, rfl⟩

theorem endsWith_toText (hp : ∀ name ∈ p, IsProperName name) (hne : p ≠ []) :
    p.toText.endsWith "/" = false := by
  rw [String.endsWith_eq_endsWith_toSlice, String.Slice.endsWith_string_eq_false_iff,
    String.copy_toSlice, toList_toText]
  rcases List.eq_nil_or_concat p with rfl | ⟨p, name, rfl⟩
  · exact absurd rfl hne
  · have hname := hp name (by simp)
    rw [List.concat_eq_append, List.flatMap_append, List.flatMap_singleton]
    rintro ⟨before, hbefore⟩
    rcases List.eq_nil_or_concat name.toList with hnil | ⟨cs, x, hcs⟩
    · exact hname.ne_empty (String.toList_eq_nil_iff.1 hnil)
    · -- the last character is the last one of the last name
      rw [hcs, List.concat_eq_append, ← List.cons_append, ← List.append_assoc] at hbefore
      have hx : ['/'] = [x] := List.append_inj_right' hbefore rfl
      refine hname.slash_notMem ?_
      rw [hcs, ← List.singleton_inj.1 hx]
      simp

theorem ofText_toText (hp : ∀ name ∈ p, IsProperName name) (hne : p ≠ []) :
    Pathname.ofText p.toText = Pathname.ofPath p := by
  have hsteps : ((p.reverse.dropWhile (· == "")).reverse.map Step.ofText) = p.map .down := by
    have hkept : p.reverse.dropWhile (· == "") = p.reverse := by
      cases hlast : p.reverse with
      | nil => rfl
      | cons name q =>
        have hname := hp name (List.mem_reverse.1 (hlast ▸ List.mem_cons_self))
        exact List.dropWhile_cons_of_neg (by simpa using hname.ne_empty)
    rw [hkept, List.reverse_reverse]
    exact List.map_congr_left fun name hname => (hp name hname).ofText
  have hnames : (p.map String.toList).map String.ofList = p := by
    rw [List.map_map]
    exact List.map_id'' (fun name => String.ofList_toList) p
  rw [Pathname.ofText, splitOnP_toText hp, startsWith_toText hne, endsWith_toText hp hne,
    utf8ByteSize_toText]
  simp only [List.map_cons, hnames, if_true, List.drop_succ_cons, List.drop_zero, hsteps]
  rfl

end Path

end ChunkedArray
