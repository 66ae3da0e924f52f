import ChunkedArray.Store.FileTree
import Mathlib.Data.List.Infix

/-!
# What is where in a tree

A tree is seen as a map from paths: at a path there is a file with its contents, a directory, or
nothing. What the changes of a tree do is said by what they do to this map.
-/

namespace ChunkedArray

namespace Node

/-- The contents of a file; a directory has none. -/
def contents? : Node → Option Bytes
  | .file contents _ => some contents
  | .directory .. => none

/-- What some names lead to: a file with its contents, or a directory. -/
def look (n : Node) (p : Path) : Option (Option Bytes) := (n.at? p).map contents?

variable {n m c : Node} {name name' : String} {p q : Path} {f : Node → Node}

theorem isDirectory_iff : n.isDirectory = true ↔ n.contents? = none := by
  cases n <;> simp [isDirectory, contents?]

theorem isDirectory_of_child? (h : n.child? name = some c) : n.isDirectory = true := by
  cases n with
  | file => cases h
  | directory => rfl

theorem at?_cons : n.at? (name :: p) = (n.child? name).bind (·.at? p) := rfl

theorem at?_append : n.at? (p ++ q) = (n.at? p).bind (·.at? q) := by
  induction p generalizing n with
  | nil => rfl
  | cons name p ih =>
    rw [List.cons_append, at?_cons, at?_cons, Option.bind_assoc]
    exact congrArg _ (funext fun _ => ih)

theorem look_nil : n.look [] = some n.contents? := rfl

theorem look_cons : n.look (name :: p) = (n.child? name).bind (·.look p) := by
  rw [look, at?_cons, Option.map_bind]
  rfl

theorem look_append : n.look (p ++ q) = (n.at? p).bind (·.look q) := by
  rw [look, at?_append, Option.map_bind]
  rfl

theorem look_eq_some_iff {x : Option Bytes} :
    n.look p = some x ↔ ∃ m, n.at? p = some m ∧ m.contents? = x := Option.map_eq_some_iff

theorem look_file {contents : Bytes} {w : Bool} :
    (Node.file contents w).look p = if p = [] then some (some contents) else none := by
  cases p <;> rfl

theorem look_emptyDirectory : emptyDirectory.look p = if p = [] then some none else none := by
  cases p <;> rfl

/-- What is above something is a directory. -/
theorem look_of_append {x : Option Bytes} (h : n.look (p ++ q) = some x) (hq : q ≠ []) :
    n.look p = some none := by
  rw [look_append] at h
  obtain ⟨m, hm, hx⟩ := Option.bind_eq_some_iff.1 h
  obtain ⟨name, rest, rfl⟩ := List.exists_cons_of_ne_nil hq
  rw [look_cons] at hx
  obtain ⟨c, hc, -⟩ := Option.bind_eq_some_iff.1 hx
  exact look_eq_some_iff.2 ⟨m, hm, isDirectory_iff.1 (isDirectory_of_child? hc)⟩

/-! ### Changes of one directory -/

theorem child?_setChild (hn : n.isDirectory = true) :
    (n.setChild name c).child? name' = if name = name' then some c else n.child? name' := by
  cases n with
  | file => cases hn
  | directory children w => exact Assoc.find?_set name name' c children

theorem contents?_setChild : (n.setChild name c).contents? = n.contents? := by cases n <;> rfl

theorem child?_removeChild :
    (n.removeChild name).child? name' = if name' = name then none else n.child? name' := by
  cases n with
  | file => simp [removeChild, child?, children, Assoc.find?]
  | directory children w =>
    rw [removeChild, child?, Node.children, Assoc.find?_restrict]
    simp only [decide_eq_true_eq, ne_eq, ite_not]
    rfl

theorem contents?_removeChild : (n.removeChild name).contents? = n.contents? := by cases n <;> rfl

theorem look_setChild (hn : n.isDirectory = true) :
    (n.setChild name c).look p =
      if [name] <+: p then c.look p.tail else n.look p := by
  cases p with
  | nil => simp [look_nil, contents?_setChild]
  | cons name' p =>
    rw [look_cons, look_cons, child?_setChild hn]
    by_cases h : name = name'
    · simp [h]
    · simp [h]

theorem look_removeChild : (n.removeChild name).look p = if [name] <+: p then none else n.look p := by
  cases p with
  | nil => simp [look_nil, contents?_removeChild]
  | cons name' p =>
    rw [look_cons, look_cons, child?_removeChild]
    by_cases h : name = name'
    · simp [h]
    · simp [h, Ne.symm h]

/-! ### Changes below -/

theorem look_modify_append (h : n.at? p = some m) : (n.modify f p).look (p ++ q) = (f m).look q := by
  induction p generalizing n with
  | nil =>
    obtain rfl := Option.some.inj h
    rfl
  | cons name p ih =>
    obtain ⟨c, hc, hm⟩ := Option.bind_eq_some_iff.1 h
    have hn := isDirectory_of_child? hc
    rw [List.cons_append, look_cons, modify, hc]
    simp only [child?_setChild hn, if_true]
    exact ih hm

theorem look_modify_elsewhere (h : ¬ p <+: q) : (n.modify f p).look q = n.look q := by
  induction p generalizing n q with
  | nil => exact absurd List.nil_prefix h
  | cons name p ih =>
    cases hc : n.child? name with
    | none => rw [modify, hc]
    | some c =>
      have hn := isDirectory_of_child? hc
      rw [modify, hc]
      cases q with
      | nil => simp only [look_nil, contents?_setChild]
      | cons name' q =>
        simp only [look_cons, child?_setChild hn]
        by_cases hname : name = name'
        · subst hname
          have hrest : ¬ p <+: q := fun hp => h (List.cons_prefix_cons.2 ⟨rfl, hp⟩)
          simp only [if_true, hc, Option.bind_some, ih hrest]
        · simp only [hname, if_false]

theorem look_modify_of_at?_eq_none (h : n.at? p = none) : (n.modify f p).look q = n.look q := by
  by_cases hq : p <+: q
  · induction p generalizing n q with
    | nil => cases h
    | cons name p ih =>
      cases hc : n.child? name with
      | none => rw [modify, hc]
      | some c =>
        have hn := isDirectory_of_child? hc
        rw [at?_cons, hc] at h
        obtain ⟨rest, rfl⟩ := hq
        rw [modify, hc, List.cons_append]
        simp only [look_cons, child?_setChild hn, if_true, hc, Option.bind_some]
        exact ih h (List.prefix_append p rest)
  · exact look_modify_elsewhere hq

end Node

namespace FileTree

variable {t : FileTree} {p q : Path} {name : String} {c : Node} {x : Option Bytes}

def look (t : FileTree) (p : Path) : Option (Option Bytes) := t.top.look p

theorem look_eq_some_iff : t.look p = some x ↔ ∃ n, t.top.at? p = some n ∧ n.contents? = x :=
  Node.look_eq_some_iff

theorem look_eq_none_iff : t.look p = none ↔ t.top.at? p = none := Option.map_eq_none_iff

theorem look_of_append (h : t.look (p ++ q) = some x) (hq : q ≠ []) : t.look p = some none :=
  Node.look_of_append h hq

/-- There is nothing below nothing, and nothing below a file. -/
theorem look_append_eq_none (h : t.look p ≠ some none) (hq : q ≠ []) : t.look (p ++ q) = none := by
  cases hx : t.look (p ++ q) with
  | none => rfl
  | some x => exact absurd (look_of_append hx hq) h

theorem look_eq_none_below (h : t.look p = none) (hq : p <+: q) : t.look q = none := by
  obtain ⟨r, rfl⟩ := hq
  by_cases hr : r = []
  · rw [hr, List.append_nil, h]
  · exact look_append_eq_none (by simp [h]) hr

theorem look_modify_setChild (h : t.look p = some none) :
    (t.modify p (·.setChild name c)).look q =
      if p ++ [name] <+: q then c.look (q.drop (p.length + 1)) else t.look q := by
  obtain ⟨n, hn, hdir⟩ := look_eq_some_iff.1 h
  by_cases hq : p <+: q
  · obtain ⟨r, rfl⟩ := hq
    have hleft := Node.look_modify_append (f := (·.setChild name c)) (q := r) hn
    have hright : t.look (p ++ r) = n.look r := by rw [look, Node.look_append, hn, Option.bind_some]
    rw [look, modify, hleft, Node.look_setChild (Node.isDirectory_iff.2 hdir), hright]
    have hdrop : (p ++ r).drop (p.length + 1) = r.tail := by
      rw [← List.drop_drop, List.drop_left, List.drop_one]
    simp only [List.prefix_append_right_inj, hdrop]
  · have hq' : ¬ p ++ [name] <+: q := fun h => hq ((List.prefix_append p [name]).trans h)
    rw [if_neg hq']
    exact Node.look_modify_elsewhere hq

theorem look_prune (hp : p ≠ []) : (t.prune p).look q = if p <+: q then none else t.look q := by
  obtain ⟨above, name, rfl⟩ := (List.eq_nil_or_concat' p).resolve_left hp
  rw [prune, List.getLast?_concat, List.dropLast_concat]
  by_cases hq : above <+: q
  · obtain ⟨r, rfl⟩ := hq
    simp only [List.prefix_append_right_inj]
    cases hn : t.top.at? above with
    | none =>
      have hkept : (t.modify above (·.removeChild name)).look (above ++ r) = t.look (above ++ r) :=
        Node.look_modify_of_at?_eq_none hn
      have hnone : t.look (above ++ r) = none := by
        rw [look, Node.look_append, hn, Option.bind_none]
      rw [hkept, hnone, ite_self]
    | some n =>
      have hleft := Node.look_modify_append (f := (·.removeChild name)) (q := r) hn
      have hright : t.look (above ++ r) = n.look r := by
        rw [look, Node.look_append, hn, Option.bind_some]
      rw [look, modify, hleft, Node.look_removeChild, hright]
  · have hq' : ¬ above ++ [name] <+: q := fun h => hq ((List.prefix_append above [name]).trans h)
    rw [if_neg hq']
    exact Node.look_modify_elsewhere hq

end FileTree

end ChunkedArray
