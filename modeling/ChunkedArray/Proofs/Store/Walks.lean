import ChunkedArray.Proofs.Store.TreeChanges

/-!
# Walking in a tree that has grown

How a walk along a path ends depends on what is at the path and above it alone. Where directories are
new, a walk that ended with no entry may get further: to a directory, or to a name that is too long. No
other end changes. An operation that succeeds tells what there was along its pathname.
-/

namespace ChunkedArray

/-- What is at a path stays as it is, or is a new directory. -/
def Grows (before after : Option (Option Bytes)) : Prop :=
  after = before ∨ before = none ∧ after = some none

theorem Grows.eq {x y : Option (Option Bytes)} (h : Grows x y) (hx : x ≠ none) : y = x :=
  h.resolve_right fun hnew => hx hnew.1

namespace Place

variable {s s' : Place} {name : String} {p p' : Path}

/-- How a walk along a path may end once the tree has grown, by how it ended before. -/
inductive Follows (p : Path) : Except FileError Place → Except FileError Place → Prop
  | ok {s s' : Place} : s'.node.contents? = s.node.contents? → Follows p (.ok s) (.ok s')
  | error (e : FileError) : Follows p (.error e) (.error e)
  | directory {s' : Place} : s'.node.contents? = none → Follows p (.error .noEntry) (.ok s')
  | tooLong : (∃ name ∈ p, maxNameSize < name.utf8ByteSize) →
    Follows p (.error .noEntry) (.error .nameTooLong)

theorem Follows.mono {x y : Except FileError Place} (h : Follows p x y) (hp : p ⊆ p') :
    Follows p' x y := by
  cases h with
  | ok h => exact .ok h
  | error e => exact .error e
  | directory h => exact .directory h
  | tooLong h => exact .tooLong (h.imp fun name hname => ⟨hp hname.1, hname.2⟩)

theorem step_down_file (hfile : s.node.isDirectory = false) :
    s.step (.down name) = .error .notDirectory := by
  simp [Place.step, Node.isFile, hfile]

theorem step_down_tooLong (hdir : s.node.isDirectory = true)
    (hname : maxNameSize < name.utf8ByteSize) : s.step (.down name) = .error .nameTooLong := by
  simp [Place.step, Node.isFile, hdir, hname]

theorem look_child {c : Node} (hc : s.node.child? name = some c) (q : Path) :
    s.node.look (name :: q) = c.look q := by
  rw [Node.look_cons, hc, Option.bind_some]

/-- Among directories without files a walk ends in one of them, with no entry, or at a name that is
too long. -/
theorem follows_directories
    (h : ∀ q, q <+: p → s.node.look q = none ∨ s.node.look q = some none) :
    Follows p (.error .noEntry) ((p.map Step.down).foldlM Place.step s) := by
  induction p generalizing s with
  | nil =>
    have hdir := (h [] List.nil_prefix).resolve_left (Option.some_ne_none _)
    exact .directory (Option.some.inj hdir)
  | cons name p ih =>
    have hroot := (h [] List.nil_prefix).resolve_left (Option.some_ne_none _)
    have hdir := Node.isDirectory_iff.2 (Option.some.inj hroot)
    rw [List.map_cons, List.foldlM_cons]
    by_cases hname : maxNameSize < name.utf8ByteSize
    · rw [step_down_tooLong hdir hname]
      exact .tooLong ⟨name, List.mem_cons_self, hname⟩
    · have hshort := Nat.le_of_not_lt hname
      cases hc : s.node.child? name with
      | none =>
        rw [step_down_of_none hshort hdir hc]
        exact .error _
      | some c =>
        rw [step_down_eq_ok_iff.2 ⟨hshort, c, hc, rfl⟩, Outcome.ok_bind]
        refine Follows.mono (p := p) (ih fun q hq => ?_) (List.subset_cons_self name p)
        rw [← look_child hc]
        exact h (name :: q) (List.cons_prefix_cons.2 ⟨rfl, hq⟩)

/-- The same names are walked along from two places, of which one has grown out of the other. -/
theorem follows_walk (h : ∀ q, q <+: p → Grows (s.node.look q) (s'.node.look q)) :
    Follows p ((p.map Step.down).foldlM Place.step s) ((p.map Step.down).foldlM Place.step s') := by
  induction p generalizing s s' with
  | nil => exact .ok (Option.some.inj ((h [] List.nil_prefix).eq (Option.some_ne_none _)))
  | cons name p ih =>
    have hnode : s'.node.contents? = s.node.contents? :=
      Option.some.inj ((h [] List.nil_prefix).eq (Option.some_ne_none _))
    have hcons (q : Path) (hq : q <+: p) :
        Grows (s.node.look (name :: q)) (s'.node.look (name :: q)) :=
      h (name :: q) (List.cons_prefix_cons.2 ⟨rfl, hq⟩)
    rw [List.map_cons, List.foldlM_cons, List.foldlM_cons]
    have hkind : s'.node.isDirectory = s.node.isDirectory := by
      rw [Bool.eq_iff_iff, Node.isDirectory_iff, Node.isDirectory_iff, hnode]
    cases hdir : s.node.isDirectory with
    | false =>
      rw [step_down_file hdir, step_down_file (hkind.trans hdir)]
      exact .error _
    | true =>
      have hdir' : s'.node.isDirectory = true := hkind.trans hdir
      by_cases hname : maxNameSize < name.utf8ByteSize
      · rw [step_down_tooLong hdir hname, step_down_tooLong hdir' hname]
        exact .error _
      · have hshort := Nat.le_of_not_lt hname
        cases hc' : s'.node.child? name with
        | none =>
          have hc : s.node.child? name = none := by
            have hgrows := hcons [] List.nil_prefix
            rw [Node.look_cons, Node.look_cons, hc', Option.bind_none] at hgrows
            cases hc : s.node.child? name with
            | none => rfl
            | some c =>
              rw [hc] at hgrows
              cases hgrows.eq (Option.some_ne_none _)
          rw [step_down_of_none hshort hdir hc, step_down_of_none hshort hdir' hc']
          exact .error _
        | some c' =>
          rw [step_down_eq_ok_iff.2 ⟨hshort, c', hc', rfl⟩, Outcome.ok_bind]
          refine Follows.mono (p := p) ?_ (List.subset_cons_self name p)
          cases hc : s.node.child? name with
          | none =>
            -- All that is here is new.
            rw [step_down_of_none hshort hdir hc]
            refine follows_directories fun q hq => ?_
            have hgrows := hcons q hq
            rw [look_child hc', Node.look_cons, hc, Option.bind_none] at hgrows
            exact hgrows.imp id And.right
          | some c =>
            rw [step_down_eq_ok_iff.2 ⟨hshort, c, hc, rfl⟩, Outcome.ok_bind]
            refine ih fun q hq => ?_
            have hgrows := hcons q hq
            rwa [look_child hc', look_child hc] at hgrows

end Place

/-! ### Pathnames of paths -/

/-- The pathname goes from the top down along a path. -/
structure Pathname.LeadsTo (n : Pathname) (p : Path) : Prop where
  absolute : n.absolute = true
  steps : n.steps = p.map .down
  trailingSlash : n.trailingSlash = false

theorem Pathname.leadsTo_ofPath (p : Path) : (ofPath p).LeadsTo p := ⟨rfl, rfl, rfl⟩

namespace FileTree

variable {t t' : FileTree} {n source target : Pathname} {p : Path} {name : String} {s : Place}
  {contents : Bytes}

theorem resolve_of_leadsTo (h : n.LeadsTo p) : t.resolve n = (do
    checkPathname n
    (p.map Step.down).foldlM Place.step ⟨t.top, []⟩) := by
  rw [resolve, start, h.absolute, if_pos rfl, h.steps, h.trailingSlash]
  refine congrArg _ (funext fun _ => ?_)
  rw [Outcome.ok_bind]
  exact bind_pure _

theorem follows_resolve (h : ∀ q, q <+: p → Grows (t.look q) (t'.look q)) :
    Place.Follows p (t.resolve (.ofPath p)) (t'.resolve (.ofPath p)) := by
  rw [resolve_of_leadsTo (Pathname.leadsTo_ofPath p), resolve_of_leadsTo (Pathname.leadsTo_ofPath p)]
  cases checkPathname (.ofPath p) with
  | error e => exact .error e
  | ok _ => exact Place.follows_walk h

/-! ### What a success tells -/

theorem of_checkPathname (h : checkPathname n = .ok ()) :
    n.size ≤ maxPathnameSize ∧ n.hasZero = false := by
  obtain ⟨hzero, h⟩ := Outcome.guard_eq_ok_iff.1 h
  obtain ⟨hsize, -⟩ := Outcome.guard_eq_ok_iff.1 h
  exact ⟨Nat.le_of_not_lt hsize, Bool.eq_false_iff.2 hzero⟩

theorem means_of_checkPathname (h : n.LeadsTo p) (hcheck : checkPathname n = .ok ())
    (hnames : ∀ name ∈ p, name.utf8ByteSize ≤ Place.maxNameSize) : n.Means p := by
  obtain ⟨hsize, hzero⟩ := of_checkPathname hcheck
  refine ⟨h.absolute, h.steps, h.trailingSlash, hsize, fun name hname => ⟨hnames name hname, ?_⟩⟩
  intro hmem
  rw [Pathname.hasZero, h.steps, List.any_map, List.any_eq_false] at hzero
  exact hzero name hname (List.contains_iff_mem.2 hmem)

theorem means_of_resolve (h : n.LeadsTo p) (hs : t.resolve n = .ok s) : n.Means p := by
  rw [resolve_of_leadsTo h] at hs
  obtain ⟨hcheck, hwalk⟩ := Outcome.check_bind_eq_ok_iff.1 hs
  refine means_of_checkPathname h hcheck fun name hname => ?_
  have hpath : s.path = p := (Place.of_walk hwalk).2
  exact (Place.IsIn.top.foldlM hwalk).at?_path.2 name (hpath.symm ▸ hname)

theorem resolveLast_of_leadsTo_nil (h : n.LeadsTo []) {last : Option String}
    (hs : t.resolveLast n = .ok (s, last)) : last = none := by
  rw [resolveLast, start, h.absolute, if_pos rfl, h.steps] at hs
  obtain ⟨-, hs⟩ := Outcome.check_bind_eq_ok_iff.1 hs
  cases hs
  rfl

/-- The directory of the last name is there. -/
theorem of_resolveLast (h : n.LeadsTo (p ++ [name])) {last : Option String}
    (hs : t.resolveLast n = .ok (s, last)) :
    last = some name ∧ t.top.at? p = some s.node ∧ s.node.isDirectory = true ∧
      (name.utf8ByteSize ≤ Place.maxNameSize → n.Means (p ++ [name])) := by
  rw [resolveLast, start, h.absolute, if_pos rfl, h.steps, List.map_append, List.map_singleton,
    List.dropLast_concat, List.getLast?_concat] at hs
  obtain ⟨hcheck, hs⟩ := Outcome.check_bind_eq_ok_iff.1 hs
  rw [Outcome.ok_bind] at hs
  obtain ⟨s₁, hwalk, hs⟩ := Outcome.bind_eq_ok_iff.1 hs
  obtain ⟨s₂, hstay, hs⟩ := Outcome.bind_eq_ok_iff.1 hs
  obtain ⟨rfl, rfl⟩ := Prod.mk.inj (Except.ok.inj hs)
  have hin := (Place.IsIn.top.foldlM hwalk).at?_path
  obtain ⟨hat, hpath⟩ := Place.of_walk hwalk
  have hpath : s₁.path = p := hpath
  unfold Place.step at hstay
  split at hstay
  · cases hstay
  · next hdir =>
    obtain rfl := Except.ok.inj hstay
    refine ⟨rfl, hat, by simpa [Node.isFile] using hdir, fun hname => ?_⟩
    refine means_of_checkPathname h hcheck fun name' hname' => ?_
    rcases List.mem_append.1 hname' with hname' | hname'
    · exact hin.2 name' (hpath.symm ▸ hname')
    · exact List.mem_singleton.1 hname' ▸ hname

/-- The last name was looked up: it can be that of a file, and what it leads to is known. -/
theorem of_step (hat : t.top.at? p = some s.node) (hdir : s.node.isDirectory = true) :
    (∀ s', s.step (.down name) = .ok s' → name.utf8ByteSize ≤ Place.maxNameSize ∧
      t.look (p ++ [name]) = some s'.node.contents?) ∧
    (s.step (.down name) = .error .noEntry → name.utf8ByteSize ≤ Place.maxNameSize ∧
      t.look (p ++ [name]) = none) := by
  have hlook : t.look (p ++ [name]) = (s.node.child? name).bind (·.look []) := by
    rw [look, Node.look_append, hat, Option.bind_some, Node.look_cons]
  rw [hlook]
  constructor
  · intro s' hs'
    obtain ⟨hname, c, hc, rfl⟩ := Place.step_down_eq_ok_iff.1 hs'
    exact ⟨hname, by rw [hc]; rfl⟩
  · intro hs'
    by_cases hname : Place.maxNameSize < name.utf8ByteSize
    · rw [Place.step_down_tooLong hdir hname] at hs'
      cases hs'
    · have hshort := Nat.le_of_not_lt hname
      refine ⟨hshort, ?_⟩
      cases hc : s.node.child? name with
      | none => rfl
      | some c =>
        rw [Place.step_down_eq_ok_iff.2 ⟨hshort, c, hc, rfl⟩] at hs'
        cases hs'

theorem of_makeDirectory (h : n.LeadsTo p) (ht : t.makeDirectory n = .ok t') :
    n.Means p ∧ t.look p = none ∧ ∀ q, t'.look q = if q = p then some none else t.look q := by
  obtain ⟨⟨s, last⟩, hs, hmade⟩ := Outcome.bind_eq_ok_iff.1 ht
  rcases List.eq_nil_or_concat' p with rfl | ⟨above, name, rfl⟩
  · rw [resolveLast_of_leadsTo_nil h hs] at hmade
    cases hmade
  · obtain ⟨rfl, hat, hdir, hmeans⟩ := of_resolveLast h hs
    simp only at hmade
    split at hmade
    · cases hmade
    · next hstep =>
      obtain ⟨hname, hnew⟩ := (of_step hat hdir).2 hstep
      have habove : t.look above = some none :=
        look_eq_some_iff.2 ⟨_, hat, Node.isDirectory_iff.1 hdir⟩
      obtain ⟨t₁, ht₁, hlook⟩ := makeDirectory_ok (hmeans hname) habove hnew
      obtain rfl := Except.ok.inj (ht.symm.trans ht₁)
      exact ⟨hmeans hname, hnew, hlook⟩
    · cases hmade

theorem of_writeFile (h : n.LeadsTo (p ++ [name])) (ht : t.writeFile n contents = .ok t') :
    n.Means (p ++ [name]) ∧ t.look p = some none ∧ t.look (p ++ [name]) ≠ some none ∧
      ∀ q, t'.look q = if q = p ++ [name] then some (some contents) else t.look q := by
  obtain ⟨⟨s, last⟩, hs, hwritten⟩ := Outcome.bind_eq_ok_iff.1 ht
  obtain ⟨rfl, hat, hdir, hmeans⟩ := of_resolveLast h hs
  have habove : t.look p = some none := look_eq_some_iff.2 ⟨_, hat, Node.isDirectory_iff.1 hdir⟩
  have hfound : name.utf8ByteSize ≤ Place.maxNameSize ∧ t.look (p ++ [name]) ≠ some none := by
    obtain ⟨-, hwritten⟩ := Outcome.guard_eq_ok_iff.1 hwritten
    split at hwritten
    · cases hwritten
    · next hstep =>
      obtain ⟨hname, hold⟩ := (of_step hat hdir).1 _ hstep
      exact ⟨hname, by simp [hold, Node.contents?]⟩
    · next hstep =>
      obtain ⟨hname, hold⟩ := (of_step hat hdir).2 hstep
      exact ⟨hname, by simp [hold]⟩
    · cases hwritten
  obtain ⟨t₁, ht₁, hlook⟩ := writeFile_ok (hmeans hfound.1) habove hfound.2
  obtain rfl := Except.ok.inj (ht.symm.trans ht₁)
  exact ⟨hmeans hfound.1, habove, hfound.2, hlook⟩

theorem of_removeFile (h : n.LeadsTo (p ++ [name])) (ht : t.removeFile n = .ok t') (q : Path) :
    t'.look q = if p ++ [name] <+: q then none else t.look q := by
  obtain ⟨s, hs, hremoved⟩ := Outcome.bind_eq_ok_iff.1 ht
  obtain ⟨-, hremoved⟩ := Outcome.guard_eq_ok_iff.1 hremoved
  obtain rfl := Except.ok.inj hremoved
  rw [(of_resolve_of_means (means_of_resolve h hs) hs).2]
  exact look_prune (by simp)

/-- Nothing is moved into the place of a directory. -/
theorem of_moveFile (h : target.LeadsTo p) (ht : t.moveFile source target = .ok t') :
    p ≠ [] ∧ target.Means p ∧ t.look p ≠ some none := by
  obtain ⟨-, hmoved⟩ := Outcome.guard_eq_ok_iff.1 ht
  obtain ⟨file, -, hmoved⟩ := Outcome.bind_eq_ok_iff.1 hmoved
  obtain ⟨⟨s, last⟩, hs, hmoved⟩ := Outcome.bind_eq_ok_iff.1 hmoved
  rcases List.eq_nil_or_concat' p with rfl | ⟨above, name, rfl⟩
  · rw [resolveLast_of_leadsTo_nil h hs] at hmoved
    cases hmoved
  · obtain ⟨rfl, hat, hdir, hmeans⟩ := of_resolveLast h hs
    refine ⟨by simp, ?_⟩
    simp only at hmoved
    split at hmoved
    · next old hstep =>
      obtain ⟨hname, hold⟩ := (of_step hat hdir).1 _ hstep
      split at hmoved
      · cases hmoved
      · next hfile =>
        refine ⟨hmeans hname, ?_⟩
        rwa [hold, ne_eq, Option.some.injEq, ← Node.isDirectory_iff]
    · next hstep =>
      obtain ⟨hname, hold⟩ := (of_step hat hdir).2 hstep
      exact ⟨hmeans hname, by simp [hold]⟩
    · cases hmoved

end FileTree

end ChunkedArray
