import ChunkedArray.Proofs.Assoc
import ChunkedArray.Proofs.Store.TreeView

/-!
# Listing a tree

In a tidy tree no directory has a name twice. All changes of a tree leave it tidy, and the listing of
a tidy tree has everything that is in it once.
-/

namespace ChunkedArray

namespace Node

/-- No directory at or below the node has a name twice. -/
def Tidy (n : Node) : Prop := ∀ p m, n.at? p = some m → (Assoc.keys m.children).Nodup

/-- No name is twice among the children, or in a directory at or below one of them. -/
structure AllTidy (children : List (String × Node)) : Prop where
  nodup : (Assoc.keys children).Nodup
  tidy : ∀ name c, Assoc.find? name children = some c → c.Tidy

variable {n m c : Node} {name : String} {p here : Path} {f : Node → Node}
  {children : List (String × Node)}

theorem tidy_iff : n.Tidy ↔ AllTidy n.children := by
  constructor
  · intro h
    refine ⟨h [] n rfl, fun name c hc p m hm => h (name :: p) m ?_⟩
    rw [at?_cons, child?, hc]
    exact hm
  · intro h p m hm
    cases p with
    | nil => exact Option.some.inj hm ▸ h.nodup
    | cons name p =>
      obtain ⟨c, hc, hm⟩ := Option.bind_eq_some_iff.1 hm
      exact h.tidy name c hc p m hm

theorem AllTidy.first (h : AllTidy ((name, n) :: children)) : n.Tidy := h.tidy name n (if_pos rfl)

theorem AllTidy.later (h : AllTidy ((name, n) :: children)) : AllTidy children where
  nodup := (List.nodup_cons.1 h.nodup).2
  tidy name' c hc := h.tidy name' c (Assoc.find?_later h.nodup hc)

theorem Tidy.child (h : n.Tidy) (hc : n.child? name = some c) : c.Tidy :=
  (tidy_iff.1 h).tidy name c hc

theorem tidy_file {contents : Bytes} {w : Bool} : (Node.file contents w).Tidy :=
  tidy_iff.2 ⟨List.nodup_nil, fun _ _ h => by cases h⟩

theorem tidy_emptyDirectory : emptyDirectory.Tidy :=
  tidy_iff.2 ⟨List.nodup_nil, fun _ _ h => by cases h⟩

theorem Tidy.setChild (h : n.Tidy) (hc : c.Tidy) : (n.setChild name c).Tidy := by
  cases n with
  | file => exact h
  | directory children w =>
    refine tidy_iff.2 ⟨Assoc.nodup_keys_set (tidy_iff.1 h).nodup, fun name' c' hc' => ?_⟩
    rw [← child?, child?_setChild rfl] at hc'
    split at hc'
    · exact Option.some.inj hc' ▸ hc
    · exact h.child hc'

theorem Tidy.removeChild (h : n.Tidy) : (n.removeChild name).Tidy := by
  cases n with
  | file => exact h
  | directory children w =>
    have hkeys := Assoc.nodup_keys_restrict (· ≠ name) (tidy_iff.1 h).nodup
    refine tidy_iff.2 ⟨hkeys, fun name' c' hc' => ?_⟩
    rw [← child?, child?_removeChild] at hc'
    split at hc'
    · cases hc'
    · exact h.child hc'

theorem Tidy.modify (h : n.Tidy) (hf : ∀ m : Node, m.Tidy → (f m).Tidy) : (n.modify f p).Tidy := by
  induction p generalizing n with
  | nil => exact hf n h
  | cons name p ih =>
    rw [Node.modify]
    cases hc : n.child? name with
    | none => exact h
    | some c => exact h.setChild (ih (h.child hc))

/-! ### Everything at and below a node -/

mutual

theorem mem_within_iff (n : Node) (h : n.Tidy) (here : Path) :
    (p, m) ∈ n.within here ↔ ∃ q, p = here ++ q ∧ n.at? q = some m := by
  cases n with
  | file contents w =>
    rw [within, List.mem_singleton, Prod.mk.injEq]
    constructor
    · rintro ⟨rfl, rfl⟩
      exact ⟨[], (List.append_nil _).symm, rfl⟩
    · rintro ⟨q, rfl, hq⟩
      cases q with
      | nil => exact ⟨List.append_nil _, (Option.some.inj hq).symm⟩
      | cons => cases hq
  | directory children w =>
    rw [within, List.mem_cons, Prod.mk.injEq, mem_allWithin_iff children (tidy_iff.1 h) here]
    constructor
    · rintro (⟨rfl, rfl⟩ | ⟨name, c, q, hc, rfl, hq⟩)
      · exact ⟨[], (List.append_nil _).symm, rfl⟩
      · refine ⟨name :: q, rfl, ?_⟩
        rw [at?_cons, child?, Node.children, hc]
        exact hq
    · rintro ⟨q, rfl, hq⟩
      cases q with
      | nil => exact .inl ⟨List.append_nil _, (Option.some.inj hq).symm⟩
      | cons name q =>
        obtain ⟨c, hc, hq⟩ := Option.bind_eq_some_iff.1 hq
        exact .inr ⟨name, c, q, hc, rfl, hq⟩

theorem mem_allWithin_iff (children : List (String × Node)) (h : AllTidy children) (here : Path) :
    (p, m) ∈ allWithin here children ↔ ∃ name c q, Assoc.find? name children = some c ∧
      p = here ++ name :: q ∧ c.at? q = some m := by
  cases children with
  | nil => simp [allWithin, Assoc.find?]
  | cons e later =>
    obtain ⟨name, n⟩ := e
    rw [allWithin, List.mem_append, mem_within_iff n h.first, mem_allWithin_iff later h.later]
    constructor
    · rintro (⟨q, rfl, hq⟩ | ⟨name', c, q, hc, rfl, hq⟩)
      · exact ⟨name, n, q, if_pos rfl, by simp, hq⟩
      · exact ⟨name', c, q, Assoc.find?_later h.nodup hc, rfl, hq⟩
    · rintro ⟨name', c, q, hc, rfl, hq⟩
      rw [Assoc.find?] at hc
      split at hc
      · next he =>
        obtain rfl := Option.some.inj hc
        exact .inl ⟨q, by simp [he], hq⟩
      · exact .inr ⟨name', c, q, hc, rfl, hq⟩

end

mutual

theorem nodup_within (n : Node) (h : n.Tidy) (here : Path) : ((n.within here).map Prod.fst).Nodup := by
  cases n with
  | file contents w => exact List.nodup_singleton here
  | directory children w =>
    have hall := tidy_iff.1 h
    refine List.nodup_cons.2 ⟨fun hmem => ?_, nodup_allWithin children hall here⟩
    obtain ⟨⟨p, m⟩, hp, rfl⟩ := List.mem_map.1 hmem
    obtain ⟨name, c, q, -, he, -⟩ := (mem_allWithin_iff children hall p).1 hp
    exact absurd (congrArg List.length he) (by simp)

theorem nodup_allWithin (children : List (String × Node)) (h : AllTidy children) (here : Path) :
    ((allWithin here children).map Prod.fst).Nodup := by
  cases children with
  | nil => exact List.nodup_nil
  | cons e later =>
    obtain ⟨name, n⟩ := e
    rw [allWithin, List.map_append]
    refine List.Nodup.append (nodup_within n h.first _) (nodup_allWithin later h.later here) ?_
    -- Paths of different children differ in the name after `here`.
    intro p hp hp'
    obtain ⟨⟨_, m⟩, hm, rfl⟩ := List.mem_map.1 hp
    obtain ⟨⟨_, m'⟩, hm', he⟩ := List.mem_map.1 hp'
    obtain ⟨q, rfl, -⟩ := (mem_within_iff n h.first _).1 hm
    obtain ⟨name', c, q', hc, rfl, -⟩ := (mem_allWithin_iff later h.later here).1 hm'
    simp only [List.append_assoc, List.singleton_append, List.append_cancel_left_eq,
      List.cons.injEq] at he
    exact Assoc.ne_of_find?_later h.nodup hc he.1.symm

end

end Node

end ChunkedArray
