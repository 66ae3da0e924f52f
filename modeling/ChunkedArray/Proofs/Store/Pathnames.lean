import ChunkedArray.Proofs.Outcome
import ChunkedArray.Proofs.Store.TreeView

/-!
# Walking along a path

The pathname of a path whose names are short leads to what is at the path. Where nothing is there and
no file is on the way, what it gives is that there is no entry.
-/

namespace ChunkedArray

/-- A name that a directory may have for a file. -/
def IsShortName (name : String) : Prop :=
  name.utf8ByteSize ≤ Place.maxNameSize ∧ '\x00' ∉ name.toList

instance (name : String) : Decidable (IsShortName name) := inferInstanceAs (Decidable (_ ∧ _))

namespace Place

variable {s s' : Place} {name : String} {p : Path} {m : Node}

/-- The place is reached from the top of a tree by names that are not too long. -/
inductive IsIn (top : Node) : Place → Prop
  | top : IsIn top ⟨top, []⟩
  | down {n c : Node} {above : List (String × Node)} {name : String} :
    IsIn top ⟨n, above⟩ → name.utf8ByteSize ≤ maxNameSize → n.child? name = some c →
    IsIn top ⟨c, (name, n) :: above⟩

theorem path_cons {c n : Node} {above : List (String × Node)} :
    (Place.mk c ((name, n) :: above)).path = (Place.mk n above).path ++ [name] := by
  simp [path]

theorem IsIn.at?_path {top : Node} (h : IsIn top s) :
    top.at? s.path = some s.node ∧ ∀ name ∈ s.path, name.utf8ByteSize ≤ maxNameSize := by
  induction h with
  | top => exact ⟨rfl, fun _ h => by cases h⟩
  | @down n c above name _ hname hc ih =>
    rw [path_cons, Node.at?_append, ih.1]
    refine ⟨by rw [Option.bind_some, Node.at?_cons, hc]; rfl, fun name' h' => ?_⟩
    rcases List.mem_append.1 h' with h' | h'
    · exact ih.2 name' h'
    · exact List.mem_singleton.1 h' ▸ hname

theorem step_down_eq_ok_iff : s.step (.down name) = .ok s' ↔ name.utf8ByteSize ≤ maxNameSize ∧
    ∃ c, s.node.child? name = some c ∧ s' = ⟨c, (name, s.node) :: s.above⟩ := by
  constructor
  · intro h
    unfold Place.step at h
    split at h
    · cases h
    · simp only at h
      split at h
      · cases h
      · next hname =>
        split at h
        · next c hc => exact ⟨Nat.le_of_not_lt hname, c, hc, (Except.ok.inj h).symm⟩
        · cases h
  · rintro ⟨hname, c, hc, rfl⟩
    have hdir : s.node.isFile = false := by simp [Node.isFile, Node.isDirectory_of_child? hc]
    simp [Place.step, hdir, Nat.not_lt.2 hname, hc]

theorem IsIn.step {top : Node} (h : IsIn top s) {st : Step} (hs : s.step st = .ok s') :
    IsIn top s' := by
  cases st with
  | down name =>
    obtain ⟨hname, c, hc, rfl⟩ := step_down_eq_ok_iff.1 hs
    exact .down h hname hc
  | stay =>
    unfold Place.step at hs
    split at hs
    · cases hs
    · exact Except.ok.inj hs ▸ h
  | up =>
    unfold Place.step at hs
    split at hs
    · cases hs
    · obtain rfl := Except.ok.inj hs
      cases h with
      | top => exact .top
      | down h => exact h

theorem IsIn.foldlM {top : Node} {steps : List Step} (h : IsIn top s)
    (hs : steps.foldlM Place.step s = .ok s') : IsIn top s' := by
  induction steps generalizing s with
  | nil => exact Except.ok.inj hs ▸ h
  | cons st steps ih =>
    rw [List.foldlM_cons] at hs
    obtain ⟨s₁, hfirst, hrest⟩ := Outcome.bind_eq_ok_iff.1 hs
    exact ih (h.step hfirst) hrest

theorem step_stay (h : s.node.isDirectory = true) : s.step .stay = .ok s := by
  simp [Place.step, Node.isFile, h]

theorem step_down_of_none (hname : name.utf8ByteSize ≤ maxNameSize)
    (hdir : s.node.isDirectory = true) (hc : s.node.child? name = none) :
    s.step (.down name) = .error .noEntry := by
  simp [Place.step, Node.isFile, hdir, Nat.not_lt.2 hname, hc]

/-! ### Walking down -/

theorem walk_ok (hp : ∀ name ∈ p, name.utf8ByteSize ≤ maxNameSize) (hm : s.node.at? p = some m) :
    ∃ s', (p.map Step.down).foldlM Place.step s = .ok s' ∧ s'.node = m ∧ s'.path = s.path ++ p := by
  induction p generalizing s with
  | nil => exact ⟨s, rfl, Option.some.inj hm, (List.append_nil _).symm⟩
  | cons name p ih =>
    rw [List.forall_mem_cons] at hp
    obtain ⟨c, hc, hm⟩ := Option.bind_eq_some_iff.1 hm
    obtain ⟨s', hs', hnode, hpath⟩ := ih (s := ⟨c, (name, s.node) :: s.above⟩) hp.2 hm
    refine ⟨s', ?_, hnode, ?_⟩
    · rw [List.map_cons, List.foldlM_cons, step_down_eq_ok_iff.2 ⟨hp.1, c, hc, rfl⟩]
      exact hs'
    · rw [hpath, path_cons, List.append_assoc]
      rfl

theorem walk_noEntry (hp : ∀ name ∈ p, name.utf8ByteSize ≤ maxNameSize) (hnone : s.node.at? p = none)
    (hclear : ∀ q contents, q <+: p → s.node.look q ≠ some (some contents)) :
    (p.map Step.down).foldlM Place.step s = .error .noEntry := by
  induction p generalizing s with
  | nil => cases hnone
  | cons name p ih =>
    rw [List.forall_mem_cons] at hp
    have hdir : s.node.isDirectory = true := by
      cases hn : s.node with
      | directory => rfl
      | file contents w => exact absurd (by rw [hn]; rfl) (hclear [] contents List.nil_prefix)
    rw [List.map_cons, List.foldlM_cons]
    cases hc : s.node.child? name with
    | none =>
      rw [step_down_of_none hp.1 hdir hc]
      rfl
    | some c =>
      rw [step_down_eq_ok_iff.2 ⟨hp.1, c, hc, rfl⟩, Outcome.ok_bind]
      rw [Node.at?_cons, hc] at hnone
      refine ih hp.2 hnone fun q contents hq hlook => ?_
      refine hclear (name :: q) contents (List.cons_prefix_cons.2 ⟨rfl, hq⟩) ?_
      rw [Node.look_cons, hc]
      exact hlook

theorem of_walk {s' : Place} (h : (p.map Step.down).foldlM Place.step s = .ok s') :
    s.node.at? p = some s'.node ∧ s'.path = s.path ++ p := by
  induction p generalizing s with
  | nil =>
    obtain rfl := Except.ok.inj h
    exact ⟨rfl, (List.append_nil _).symm⟩
  | cons name p ih =>
    rw [List.map_cons, List.foldlM_cons] at h
    obtain ⟨s₁, hfirst, hrest⟩ := Outcome.bind_eq_ok_iff.1 h
    obtain ⟨-, c, hc, rfl⟩ := step_down_eq_ok_iff.1 hfirst
    obtain ⟨hm, hpath⟩ := ih hrest
    rw [Node.at?_cons, hc, hpath, path_cons, List.append_assoc]
    exact ⟨hm, rfl⟩

end Place

/-! ### Pathnames of paths -/

/-- The pathname leads from the top down along a path of short names, and is not too long. -/
structure Pathname.Means (n : Pathname) (p : Path) : Prop where
  absolute : n.absolute = true
  steps : n.steps = p.map .down
  trailingSlash : n.trailingSlash = false
  size_le : n.size ≤ FileTree.maxPathnameSize
  isShortName : ∀ name ∈ p, IsShortName name

theorem Pathname.Means.hasZero_eq_false {n : Pathname} {p : Path} (h : n.Means p) :
    n.hasZero = false := by
  rw [hasZero, h.steps, List.any_map, List.any_eq_false]
  intro name hname hz
  exact (h.isShortName name hname).2 (List.contains_iff_mem.1 hz)

namespace FileTree

variable {t : FileTree} {n : Pathname} {p : Path} {name : String} {m : Node} {s : Place}

/-- There is no file at the path or above it. -/
def Clear (t : FileTree) (p : Path) : Prop :=
  ∀ q contents, q <+: p → t.look q ≠ some (some contents)

theorem Clear.of_append {q : Path} (h : t.Clear (p ++ q)) : t.Clear p :=
  fun r contents hr => h r contents (hr.trans (List.prefix_append p q))

theorem Clear.look_nil (h : t.Clear []) : t.look [] = some none := by
  cases htop : t.top with
  | directory => rw [look, htop]; rfl
  | file contents w => exact absurd (by rw [look, htop]; rfl) (h [] contents List.nil_prefix)

theorem checkPathname_of_means (h : n.Means p) : checkPathname n = .ok () := by
  have hsize := Nat.not_lt.2 h.size_le
  simp [checkPathname, h.hasZero_eq_false, hsize, Pathname.isEmpty, h.absolute]

theorem resolve_of_means (h : n.Means p) :
    t.resolve n = (p.map Step.down).foldlM Place.step ⟨t.top, []⟩ := by
  rw [resolve, checkPathname_of_means h, Outcome.ok_bind, start, h.absolute, if_pos rfl,
    Outcome.ok_bind, h.steps, h.trailingSlash]
  exact bind_pure _

theorem resolve_ok (h : n.Means p) (hm : t.top.at? p = some m) :
    ∃ s, t.resolve n = .ok s ∧ s.node = m ∧ s.path = p := by
  rw [resolve_of_means h]
  exact Place.walk_ok (fun name hname => (h.isShortName name hname).1) hm

theorem resolve_noEntry (h : n.Means p) (hnone : t.look p = none) (hclear : t.Clear p) :
    t.resolve n = .error .noEntry := by
  rw [resolve_of_means h]
  exact Place.walk_noEntry (fun name hname => (h.isShortName name hname).1)
    (look_eq_none_iff.1 hnone) hclear

theorem isIn_start (h : t.start n = .ok s) : Place.IsIn t.top s := by
  unfold start at h
  split at h
  · exact Except.ok.inj h ▸ .top
  · exact Place.IsIn.top.foldlM h

theorem of_resolve (h : t.resolve n = .ok s) :
    t.top.at? s.path = some s.node ∧ ∀ name ∈ s.path, name.utf8ByteSize ≤ Place.maxNameSize := by
  obtain ⟨-, h⟩ := Outcome.check_bind_eq_ok_iff.1 h
  obtain ⟨s₀, hstart, h⟩ := Outcome.bind_eq_ok_iff.1 h
  obtain ⟨s₁, hwalk, h⟩ := Outcome.bind_eq_ok_iff.1 h
  have hin := (isIn_start hstart).foldlM hwalk
  split at h
  · exact (hin.step h).at?_path
  · exact Except.ok.inj h ▸ hin.at?_path

theorem of_resolve_ofPath (h : t.resolve (.ofPath p) = .ok s) :
    t.top.at? p = some s.node ∧ s.path = p := by
  obtain ⟨-, h⟩ := Outcome.check_bind_eq_ok_iff.1 h
  obtain ⟨s₀, hstart, h⟩ := Outcome.bind_eq_ok_iff.1 h
  obtain ⟨s₁, hwalk, hend⟩ := Outcome.bind_eq_ok_iff.1 h
  obtain rfl := Except.ok.inj hstart
  obtain rfl := Except.ok.inj hend
  exact Place.of_walk hwalk

/-! ### The last name of a pathname -/

theorem resolveLast_of_means (h : n.Means (p ++ [name])) : t.resolveLast n = (do
    let s ← (p.map Step.down).foldlM Place.step ⟨t.top, []⟩
    return (← s.step .stay, some name)) := by
  rw [resolveLast, checkPathname_of_means h, Outcome.ok_bind, start, h.absolute, if_pos rfl,
    Outcome.ok_bind, h.steps, List.map_append, List.map_singleton, List.dropLast_concat,
    List.getLast?_concat]

theorem resolveLast_ok (h : n.Means (p ++ [name])) (hdir : t.look p = some none) :
    ∃ s, t.resolveLast n = .ok (s, some name) ∧ t.top.at? p = some s.node ∧ s.path = p := by
  obtain ⟨m, hm, hcontents⟩ := look_eq_some_iff.1 hdir
  have hshort : ∀ name ∈ p, name.utf8ByteSize ≤ Place.maxNameSize :=
    fun name hname => (h.isShortName name (List.mem_append_left _ hname)).1
  obtain ⟨s, hwalk, rfl, hpath⟩ := Place.walk_ok (s := ⟨t.top, []⟩) hshort hm
  have hstay := Place.step_stay (Node.isDirectory_iff.2 hcontents)
  refine ⟨s, ?_, hm, hpath⟩
  rw [resolveLast_of_means h, hwalk, Outcome.ok_bind, hstay]
  rfl

theorem resolveLast_noEntry (h : n.Means (p ++ [name])) (hnone : t.look p = none)
    (hclear : t.Clear p) : t.resolveLast n = .error .noEntry := by
  have hshort : ∀ name ∈ p, name.utf8ByteSize ≤ Place.maxNameSize :=
    fun name hname => (h.isShortName name (List.mem_append_left _ hname)).1
  have hwalk := Place.walk_noEntry (s := ⟨t.top, []⟩) hshort (look_eq_none_iff.1 hnone) hclear
  rw [resolveLast_of_means h, hwalk]
  rfl

theorem resolveLast_top (h : n.Means []) : t.resolveLast n = .ok (⟨t.top, []⟩, none) := by
  rw [resolveLast, checkPathname_of_means h, Outcome.ok_bind, start, h.absolute, if_pos rfl,
    Outcome.ok_bind, h.steps]
  rfl

end FileTree

end ChunkedArray
