import ChunkedArray.Proofs.Store.Pathnames

/-!
# Changes along a path

For the pathname of a path of short names each operation of the operating system is an equation for
what is at every path afterwards.
-/

namespace ChunkedArray

namespace FileTree

variable {t t' : FileTree} {n : Pathname} {p q : Path} {name : String} {s : Place} {c : Node}
  {contents : Bytes}

/-! ### What a pathname means -/

theorem of_resolve_of_means (h : n.Means p) (hs : t.resolve n = .ok s) :
    t.top.at? p = some s.node ∧ s.path = p := by
  rw [resolve_of_means h] at hs
  exact Place.of_walk hs

theorem resolve_of_look_eq_none (h : n.Means p) (hnone : t.look p = none) :
    ∃ e, t.resolve n = .error e := by
  cases hs : t.resolve n with
  | error e => exact ⟨e, rfl⟩
  | ok s =>
    have hat := (of_resolve_of_means h hs).1
    rw [look_eq_none_iff.1 hnone] at hat
    cases hat

theorem isDirectory_iff (h : n.Means p) : t.isDirectory n = true ↔ t.look p = some none := by
  cases hlook : t.look p with
  | none =>
    obtain ⟨e, he⟩ := resolve_of_look_eq_none h hlook
    rw [isDirectory, he]
    simp [Except.toOption]
  | some x =>
    obtain ⟨m, hm, rfl⟩ := look_eq_some_iff.1 hlook
    obtain ⟨s, hs, rfl, -⟩ := resolve_ok h hm
    rw [isDirectory, hs]
    simp [Except.toOption, Node.isDirectory_iff]

theorem isFile_eq (h : n.Means p) : t.isFile n = (t.look p).any Option.isSome := by
  cases hlook : t.look p with
  | none =>
    obtain ⟨e, he⟩ := resolve_of_look_eq_none h hlook
    rw [isFile, he]
    rfl
  | some x =>
    obtain ⟨m, hm, rfl⟩ := look_eq_some_iff.1 hlook
    obtain ⟨s, hs, rfl, -⟩ := resolve_ok h hm
    rw [isFile, hs]
    show s.node.isFile = s.node.contents?.isSome
    cases s.node <;> rfl

theorem read_file (h : n.Means p) (hfile : t.look p = some (some contents)) :
    t.read n = .ok contents := by
  obtain ⟨m, hm, hcontents⟩ := look_eq_some_iff.1 hfile
  obtain ⟨s, hs, rfl, -⟩ := resolve_ok h hm
  rw [read, hs, Outcome.ok_bind]
  cases hnode : s.node with
  | directory => rw [hnode] at hcontents; cases hcontents
  | file contents' w =>
    rw [hnode] at hcontents
    exact congrArg Except.ok (Option.some.inj hcontents)

theorem read_noEntry (h : n.Means p) (hnone : t.look p = none) (hclear : t.Clear p) :
    t.read n = .error .noEntry := by
  rw [read, resolve_noEntry h hnone hclear]
  rfl

/-! ### Putting something into a directory -/

/-- What has nothing below it replaces a file or nothing. -/
theorem look_setLeaf (hc : ∀ r, r ≠ [] → c.look r = none) (hdir : t.look p = some none)
    (hold : t.look (p ++ [name]) ≠ some none) :
    (t.modify p (·.setChild name c)).look q = if q = p ++ [name] then c.look [] else t.look q := by
  rw [look_modify_setChild hdir]
  by_cases hq : p ++ [name] <+: q
  · obtain ⟨r, rfl⟩ := hq
    have hdrop : (p ++ [name] ++ r).drop (p.length + 1) = r := List.drop_left' (by simp)
    rw [if_pos (List.prefix_append _ r), hdrop]
    by_cases hr : r = []
    · subst hr
      rw [List.append_nil, if_pos rfl]
    · have hne : p ++ [name] ++ r ≠ p ++ [name] := fun h => hr (List.append_right_eq_self.1 h)
      rw [if_neg hne, hc r hr, look_append_eq_none hold hr]
  · have hne : q ≠ p ++ [name] := fun h => hq (h ▸ List.prefix_refl _)
    rw [if_neg hq, if_neg hne]

theorem look_setFile {w : Bool} (hdir : t.look p = some none)
    (hold : t.look (p ++ [name]) ≠ some none) :
    (t.modify p (·.setChild name (.file contents w))).look q =
      if q = p ++ [name] then some (some contents) else t.look q :=
  look_setLeaf (fun r hr => by rw [Node.look_file, if_neg hr]) hdir hold

/-! ### Single changes -/

theorem step_noEntry (hname : IsShortName name) (hs : t.top.at? s.path = some s.node)
    (hdir : t.look s.path = some none) (hnew : t.look (s.path ++ [name]) = none) :
    s.step (.down name) = .error .noEntry := by
  obtain ⟨m, hm, hcontents⟩ := look_eq_some_iff.1 hdir
  obtain rfl := Option.some.inj (hs.symm.trans hm)
  rw [look_eq_none_iff, Node.at?_append, hs, Option.bind_some, Node.at?_cons] at hnew
  refine Place.step_down_of_none hname.1 (Node.isDirectory_iff.2 hcontents) ?_
  simpa [Node.at?] using hnew

theorem step_ok {x : Option Bytes} (hname : IsShortName name) (hs : t.top.at? s.path = some s.node)
    (hlook : t.look (s.path ++ [name]) = some x) :
    ∃ c, s.step (.down name) = .ok ⟨c, (name, s.node) :: s.above⟩ ∧ c.contents? = x := by
  obtain ⟨c, hc, hx⟩ := look_eq_some_iff.1 hlook
  rw [Node.at?_append, hs, Option.bind_some, Node.at?_cons] at hc
  obtain ⟨c', hc', he⟩ := Option.bind_eq_some_iff.1 hc
  obtain rfl := Option.some.inj he
  exact ⟨c', Place.step_down_eq_ok_iff.2 ⟨hname.1, c', hc', rfl⟩, hx⟩

theorem makeDirectory_ok (h : n.Means (p ++ [name])) (hdir : t.look p = some none)
    (hnew : t.look (p ++ [name]) = none) :
    ∃ t', t.makeDirectory n = .ok t' ∧
      ∀ q, t'.look q = if q = p ++ [name] then some none else t.look q := by
  obtain ⟨s, hs, hat, rfl⟩ := resolveLast_ok h hdir
  have hstep := step_noEntry (h.isShortName name (by simp)) hat hdir hnew
  have hold : t.look (s.path ++ [name]) ≠ some none := by
    rw [hnew]
    exact (Option.some_ne_none _).symm
  have hempty (r : Path) (hr : r ≠ []) : Node.emptyDirectory.look r = none := by
    rw [Node.look_emptyDirectory, if_neg hr]
  refine ⟨_, ?_, fun q => look_setLeaf hempty hdir hold⟩
  rw [makeDirectory, hs, Outcome.ok_bind]
  simp only [hstep]
  rfl

theorem makeDirectory_exists (h : n.Means p) (hthere : t.look p = some none) :
    t.makeDirectory n = .error .entryExists := by
  rcases List.eq_nil_or_concat' p with rfl | ⟨above, name, rfl⟩
  · rw [makeDirectory, resolveLast_top h]
    rfl
  · obtain ⟨s, hs, hat, rfl⟩ := resolveLast_ok h (look_of_append hthere (by simp))
    obtain ⟨c, hstep, -⟩ := step_ok (h.isShortName name (by simp)) hat hthere
    rw [makeDirectory, hs, Outcome.ok_bind]
    simp only [hstep]
    rfl

theorem makeDirectory_noEntry (h : n.Means (p ++ [name])) (hnone : t.look p = none)
    (hclear : t.Clear p) : t.makeDirectory n = .error .noEntry := by
  rw [makeDirectory, resolveLast_noEntry h hnone hclear]
  rfl

theorem writeFile_ok (h : n.Means (p ++ [name])) (hdir : t.look p = some none)
    (hold : t.look (p ++ [name]) ≠ some none) :
    ∃ t', t.writeFile n contents = .ok t' ∧
      ∀ q, t'.look q = if q = p ++ [name] then some (some contents) else t.look q := by
  obtain ⟨s, hs, hat, rfl⟩ := resolveLast_ok h hdir
  have hshort := h.isShortName name (by simp)
  have hwrite : ∃ w, t.writeFile n contents =
      .ok (t.modify s.path (·.setChild name (.file contents w))) := by
    rw [writeFile, hs, Outcome.ok_bind]
    simp only [h.trailingSlash]
    cases hlook : t.look (s.path ++ [name]) with
    | none =>
      rw [step_noEntry hshort hat hdir hlook]
      exact ⟨true, rfl⟩
    | some x =>
      obtain ⟨c, hstep, rfl⟩ := step_ok hshort hat hlook
      rw [hstep]
      cases c with
      | directory => exact absurd hlook hold
      | file old w => exact ⟨w, rfl⟩
  obtain ⟨w, hw⟩ := hwrite
  exact ⟨_, hw, fun q => look_setFile hdir hold⟩

theorem removeFile_ok (h : n.Means p) (hp : p ≠ []) (hfile : t.look p = some (some contents)) :
    ∃ t', t.removeFile n = .ok t' ∧ ∀ q, t'.look q = if p <+: q then none else t.look q := by
  obtain ⟨m, hm, hcontents⟩ := look_eq_some_iff.1 hfile
  obtain ⟨s, hs, rfl, rfl⟩ := resolve_ok h hm
  have hdir : s.node.isDirectory = false := by
    rw [← Bool.not_eq_true, Node.isDirectory_iff, hcontents]
    exact Option.some_ne_none _
  refine ⟨_, ?_, fun q => look_prune hp⟩
  rw [removeFile, hs, Outcome.ok_bind, hdir]
  rfl

theorem removeFile_noEntry (h : n.Means p) (hnone : t.look p = none) (hclear : t.Clear p) :
    t.removeFile n = .error .noEntry := by
  rw [removeFile, resolve_noEntry h hnone hclear]
  rfl

/-- A file is moved within a directory, in the place of a file or of nothing. -/
theorem moveFile_ok {source target : Pathname} {old new : String}
    (hsource : source.Means (p ++ [old])) (htarget : target.Means (p ++ [new]))
    (hfile : t.look (p ++ [old]) = some (some contents))
    (hnew : t.look (p ++ [new]) ≠ some none) :
    ∃ t', t.moveFile source target = .ok t' ∧ ∀ q, t'.look q =
      if q = p ++ [new] then some (some contents)
      else if p ++ [old] <+: q then none else t.look q := by
  have hdir : t.look p = some none := look_of_append hfile (by simp)
  obtain ⟨m, hm, hcontents⟩ := look_eq_some_iff.1 hfile
  obtain ⟨file, hres, rfl, hpath⟩ := resolve_ok hsource hm
  obtain ⟨s, hs, hat, rfl⟩ := resolveLast_ok htarget hdir
  have hshort := htarget.isShortName new (by simp)
  have hzero := htarget.hasZero_eq_false
  have hmove : t.moveFile source target =
      .ok ((t.prune file.path).modify s.path (·.setChild new file.node)) := by
    rw [moveFile, hres, hs, hzero]
    cases hlook : t.look (s.path ++ [new]) with
    | none =>
      simp [step_noEntry hshort hat hdir hlook]
    | some x =>
      obtain ⟨c, hstep, rfl⟩ := step_ok hshort hat hlook
      cases c with
      | directory => exact absurd hlook hnew
      | file => simp [hstep, Node.isDirectory]
  -- The file is gone before it is put in its new place; its directory is still there.
  have hpruned (q : Path) : (t.prune (s.path ++ [old])).look q =
      if s.path ++ [old] <+: q then none else t.look q := look_prune (by simp)
  have hkept : (t.prune (s.path ++ [old])).look s.path = some none := by
    rw [hpruned, if_neg, hdir]
    exact fun hpre => absurd hpre.length_le (by simp)
  have hnew' : (t.prune (s.path ++ [old])).look (s.path ++ [new]) ≠ some none := by
    rw [hpruned]
    split
    · exact (Option.some_ne_none _).symm
    · exact hnew
  have hleaf (r : Path) (hr : r ≠ []) : file.node.look r = none := by
    cases hnode : file.node with
    | file => rw [Node.look_file, if_neg hr]
    | directory => rw [hnode] at hcontents; cases hcontents
  refine ⟨_, hmove, fun q => ?_⟩
  rw [hpath, look_setLeaf hleaf hkept hnew', hpruned, Node.look_nil, hcontents]

end FileTree

namespace FileAction

open FileTree

variable {t t₁ : FileTree} {n : Pathname} {p : Path} {name : String} {above : FileAction Unit}

theorem change_apply {f : FileTree → Except FileError FileTree} :
    change f t = match f t with
      | .ok t' => (.ok (), t')
      | .error e => (.error e, t) := by
  rw [change, StoreAction.get_bind_apply]
  cases f t <;> rfl

/-! ### Making directories -/

theorem ensureDirectory_apply : ensureDirectory n t = match t.makeDirectory n with
    | .ok t' => (.ok (), t')
    | .error e => if t.isDirectory n then (.ok (), t) else (.error e, t) := by
  rw [ensureDirectory, StoreAction.get_bind_apply]
  cases t.makeDirectory n with
  | ok => rfl
  | error e =>
    simp only [StoreAction.get_bind_apply]
    split <;> rfl

theorem ensureBelow_of_ne (h : t.makeDirectory n ≠ .error .noEntry) :
    ensureBelow n above t = ensureDirectory n t := by
  rw [ensureBelow, StoreAction.get_bind_apply]
  cases hmade : t.makeDirectory n with
  | ok => rfl
  | error e =>
    cases e with
    | noEntry => exact absurd hmade h
    | _ => rfl

theorem ensureBelow_of_noEntry (h : t.makeDirectory n = .error .noEntry)
    (habove : above t = (.ok (), t₁)) : ensureBelow n above t = ensureDirectory n t₁ := by
  rw [ensureBelow, StoreAction.get_bind_apply, h]
  exact StoreAction.bind_apply habove _

theorem ensureDirectory_new (h : n.Means (p ++ [name])) (hdir : t.look p = some none)
    (hnew : t.look (p ++ [name]) = none) :
    ∃ t', ensureDirectory n t = (.ok (), t') ∧
      ∀ q, t'.look q = if q = p ++ [name] then some none else t.look q := by
  obtain ⟨t', ht', hlook⟩ := makeDirectory_ok h hdir hnew
  refine ⟨t', ?_, hlook⟩
  rw [ensureDirectory_apply, ht']

theorem ensureDirectory_exists (h : n.Means p) (hthere : t.look p = some none) :
    ensureDirectory n t = (.ok (), t) := by
  rw [ensureDirectory_apply, makeDirectory_exists h hthere]
  exact if_pos ((isDirectory_iff h).2 hthere)

/-- The tree has directories at the path and above it, and is else as it was. -/
def Ensured (p : Path) (t t' : FileTree) : Prop :=
  ∀ q, t'.look q = if q <+: p then some none else t.look q

theorem ensured_of_exists (hthere : t.look p = some none) : Ensured p t t := by
  intro q
  split
  · next hq =>
    obtain ⟨r, rfl⟩ := hq
    by_cases hr : r = []
    · rw [hr, List.append_nil] at hthere
      exact hthere
    · exact look_of_append hthere hr
  · rfl

theorem Ensured.push {t' : FileTree} (h : Ensured p t t₁)
    (hlook : ∀ q, t'.look q = if q = p ++ [name] then some none else t₁.look q) :
    Ensured (p ++ [name]) t t' := by
  intro q
  rw [hlook, h q]
  simp only [List.prefix_concat_iff]
  by_cases hq : q = p ++ [name]
  · simp [hq]
  · simp [hq]

theorem ensureBelow_ok (h : n.Means (p ++ [name])) (hclear : t.Clear (p ++ [name]))
    (habove : ∃ t₁, above t = (.ok (), t₁) ∧ Ensured p t t₁) :
    ∃ t', ensureBelow n above t = (.ok (), t') ∧ Ensured (p ++ [name]) t t' := by
  rcases hthere : t.look (p ++ [name]) with _ | _ | contents
  · rcases hdir : t.look p with _ | _ | contents
    · obtain ⟨t₁, ht₁, hensured⟩ := habove
      have hdir₁ : t₁.look p = some none := by rw [hensured, if_pos (List.prefix_refl p)]
      have hnew₁ : t₁.look (p ++ [name]) = none := by
        rw [hensured, if_neg, hthere]
        exact fun hpre => absurd hpre.length_le (by simp)
      obtain ⟨t', ht', hlook⟩ := ensureDirectory_new h hdir₁ hnew₁
      refine ⟨t', ?_, hensured.push hlook⟩
      rw [ensureBelow_of_noEntry (makeDirectory_noEntry h hdir hclear.of_append) ht₁, ht']
    · obtain ⟨t', ht', hlook⟩ := ensureDirectory_new h hdir hthere
      obtain ⟨_, hmade, -⟩ := makeDirectory_ok h hdir hthere
      refine ⟨t', ?_, (ensured_of_exists hdir).push hlook⟩
      rw [ensureBelow_of_ne (by simp [hmade]), ht']
    · exact absurd hdir (hclear p contents (List.prefix_append p [name]))
  · refine ⟨t, ?_, ensured_of_exists hthere⟩
    rw [ensureBelow_of_ne (by simp [makeDirectory_exists h hthere])]
    exact ensureDirectory_exists h hthere
  · exact absurd hthere (hclear _ contents (List.prefix_refl _))

theorem ensureSteps_ok (habsolute : n.absolute = true) (hsize : n.size ≤ maxPathnameSize)
    (hshort : ∀ name ∈ p, IsShortName name) (hclear : t.Clear p) :
    ∃ t', ensureSteps n (p.map Step.down).reverse t = (.ok (), t') ∧ Ensured p t t' := by
  -- From the end of the path: each directory is made after the one above it.
  induction p using List.reverseRecOn with
  | nil => exact ⟨t, rfl, ensured_of_exists hclear.look_nil⟩
  | append_singleton p name ih =>
    have hmeans : Pathname.Means
        { n with steps := (p ++ [name]).map .down, trailingSlash := false } (p ++ [name]) :=
      ⟨habsolute, rfl, rfl, hsize, hshort⟩
    have habove := ih (fun name hname => hshort name (List.mem_append_left _ hname)) hclear.of_append
    obtain ⟨t', ht', hensured⟩ := ensureBelow_ok hmeans hclear habove
    refine ⟨t', ?_, hensured⟩
    rw [List.map_append, List.reverse_append, List.map_singleton, List.reverse_singleton,
      List.singleton_append, ensureSteps, List.reverse_cons, List.reverse_reverse,
      ← List.map_singleton, ← List.map_append]
    · exact ht'
    · simp

theorem makeDirectories_ok (h : n.Means p) (hclear : t.Clear p) :
    ∃ t', makeDirectories n t = (.ok (), t') ∧ Ensured p t t' := by
  have hempty : n.isEmpty = false := by simp [Pathname.isEmpty, h.absolute]
  rw [makeDirectories, hempty]
  rcases List.eq_nil_or_concat' p with rfl | ⟨above, name, rfl⟩
  · have hthere := hclear.look_nil
    refine ⟨t, ?_, ensured_of_exists hthere⟩
    rw [if_neg Bool.false_ne_true,
      ensureBelow_of_ne (by simp [makeDirectory_exists h hthere])]
    exact ensureDirectory_exists h hthere
  · have hparent : n.parentSteps.reverse = (above.map Step.down).reverse := by
      simp [Pathname.parentSteps, h.steps]
    have hshort : ∀ name ∈ above, IsShortName name :=
      fun name hname => h.isShortName name (List.mem_append_left _ hname)
    rw [if_neg Bool.false_ne_true, hparent]
    exact ensureBelow_ok h hclear (ensureSteps_ok h.absolute h.size_le hshort hclear.of_append)

end FileAction

end ChunkedArray
