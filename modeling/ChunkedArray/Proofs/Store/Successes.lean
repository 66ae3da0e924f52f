import ChunkedArray.Proofs.Store.AtomicSet

/-!
# What a success tells

A value that was written has a file at its path, directories above it, and all else is as it was. A
value that was removed was a file. Nothing needs to be known of the tree but that the name of the file
under way was free.
-/

namespace ChunkedArray

open FileTree

namespace FileAction

variable {t t' t₁ : FileTree} {dir q : Path}

theorem change_eq_ok_iff {f : FileTree → Except FileError FileTree} :
    change f t = (.ok (), t') ↔ f t = .ok t' := by
  rw [change_apply]
  cases f t with
  | ok t₁ =>
    constructor
    · intro h
      exact congrArg Except.ok (congrArg Prod.snd h)
    · rintro ⟨⟩
      rfl
  | error e =>
    constructor
    · intro h
      cases congrArg Prod.fst h
    · nofun

/-- What is there when directories are made stays as it is. -/
theorem look_of_makeDirectories (h : makeDirectories (.ofPath dir) t = (.ok (), t₁))
    (hq : t.look q ≠ none) : t₁.look q = t.look q := by
  have hkeeps : (FileProgram.makeDirectories (.ofPath dir)).Keeps (fun t₁ => t₁.look q = t.look q)
      (fun t₁ => t₁.look q = t.look q) t := by
    refine FileProgram.keeps_makeDirectories (fun n p t₁ t₂ hn _ _ hsame ht₂ => ?_) rfl
    obtain ⟨-, hnew, hlook⟩ := of_makeDirectory hn ht₂
    have hne : q ≠ p := fun he => hq (hsame.symm.trans (he ▸ hnew))
    rw [hlook, if_neg hne, hsame]
  have hreaches := FileProgram.reaches_run (FileProgram.makeDirectories (.ofPath dir)) t
  rw [FileProgram.runsAs_makeDirectories, h] at hreaches
  exact hkeeps.reaches hreaches

end FileAction

namespace DirectoryStore

open FileAction

variable {t t' : FileTree} {p : Path} {value : Bytes}

theorem of_moveIntoPlace {source target : Pathname}
    (h : moveIntoPlace source target t = (.ok (), t')) : t.moveFile source target = .ok t' := by
  rw [moveIntoPlace, StoreAction.get_bind_apply] at h
  cases hmoved : t.moveFile source target with
  | ok t₁ =>
    rw [hmoved] at h
    exact congrArg Except.ok (congrArg Prod.snd h)
  | error e =>
    rw [hmoved] at h
    obtain ⟨_, _, -, hthrow⟩ := StoreAction.bind_eq_ok_iff.1 h
    cases hthrow

theorem of_writeValue (h : writeValue p value t = (.ok (), t')) :
    p ≠ [] ∧ p.IsShort ∧ t.look p ≠ some none ∧
      (t.look (p.dropLast ++ [numberedName 0]) = none → ∀ q, t'.look q =
        if q = p then some (some value) else if q <+: p.dropLast then some none else t.look q) := by
  obtain ⟨_, t₁, hmade, hreplaced⟩ := StoreAction.bind_eq_ok_iff.1 h
  rw [replaceFile, StoreAction.get_bind_apply] at hreplaced
  obtain ⟨_, t₂, hpartial, hfilled⟩ := StoreAction.bind_eq_ok_iff.1 hreplaced
  obtain ⟨_, t₃, hwritten, hmoved⟩ := StoreAction.bind_eq_ok_iff.1 hfilled
  have hcreated := Outcome.mapError_eq_ok_iff.1 (change_eq_ok_iff.1 hpartial)
  obtain ⟨hsource, hdir, hold₁, hlook₂⟩ := of_writeFile (Pathname.leadsTo_ofPath _) hcreated
  obtain ⟨-, -, -, hlook₃⟩ :=
    of_writeFile (Pathname.leadsTo_ofPath _) (change_eq_ok_iff.1 hwritten)
  obtain ⟨hne, hmeans, hold₃⟩ := of_moveFile (Pathname.leadsTo_ofPath p) (of_moveIntoPlace hmoved)
  have hshort : p.IsShort := ⟨hmeans.size_le, hmeans.isShortName⟩
  -- A directory at the path would still be there when the file is moved.
  have hold : t.look p ≠ some none := by
    intro hthere
    have hthere₁ : t₁.look p = some none := by
      rw [look_of_makeDirectories hmade (by simp [hthere]), hthere]
    have hother : p ≠ p.dropLast ++ [freshName ((t₁.top.at? p.dropLast).elim [] fun n =>
        Assoc.keys n.children)] := fun he => hold₁ (he ▸ hthere₁)
    exact hold₃ (by rw [hlook₃, if_neg hother, hlook₂, if_neg hother, hthere₁])
  refine ⟨hne, hshort, hold, fun hfresh => ?_⟩
  obtain ⟨dir, name, rfl⟩ := (List.eq_nil_or_concat' p).resolve_left hne
  rw [List.dropLast_concat] at hmade hsource hdir hfresh ⊢
  -- Nor was there a file above it.
  have hclear : t.Clear dir := by
    intro q contents hq hfile
    have hfile₁ := look_of_makeDirectories hmade (q := q) (by simp [hfile])
    rw [look_directory_above hdir hq, hfile] at hfile₁
    cases hfile₁
  obtain ⟨t₁', hmade', hensured⟩ := makeDirectories_ok hshort.of_append.means hclear
  obtain rfl : t₁' = t₁ := congrArg Prod.snd (hmade'.symm.trans hmade)
  have hfresh₁ : t₁'.look (dir ++ [numberedName 0]) = none := by
    rw [hensured, if_neg (fun hpre => absurd hpre.length_le (by simp)), hfresh]
  rw [freshName_eq (notMem_names hfresh₁)] at hsource
  have hpartial : Path.IsShort (dir ++ [numberedName 0]) := ⟨hsource.size_le, hsource.isShortName⟩
  obtain ⟨t₄, hrun, hlook⟩ := writeValue_ok hshort hpartial hclear hold hfresh
  obtain rfl : t₄ = t' := congrArg Prod.snd (hrun.symm.trans h)
  exact hlook

/-- Removing a value succeeds where there is a file, or nothing is done. -/
theorem of_removeValue {found : Bool} (h : removeValue (.ofPath p) t = (.ok found, t')) :
    t' = t ∨ (∃ contents, t.look p = some (some contents)) ∧ t' = t.prune p := by
  rw [removeValue, StoreAction.get_bind_apply] at h
  cases hremoved : t.removeFile (.ofPath p) with
  | error e =>
    rw [hremoved] at h
    cases e with
    | noEntry => exact .inl (congrArg Prod.snd h).symm
    | _ => cases congrArg Prod.fst h
  | ok t₁ =>
    rw [hremoved] at h
    obtain rfl : t₁ = t' := congrArg Prod.snd h
    obtain ⟨s, hs, hremoved⟩ := Outcome.bind_eq_ok_iff.1 hremoved
    obtain ⟨hfile, hremoved⟩ := Outcome.guard_eq_ok_iff.1 hremoved
    obtain ⟨hat, hpath⟩ := of_resolve_ofPath hs
    obtain rfl := Except.ok.inj hremoved
    refine .inr ⟨?_, by rw [hpath]⟩
    cases hnode : s.node with
    | file contents w => exact ⟨contents, look_eq_some_iff.2 ⟨_, hat, by rw [hnode]; rfl⟩⟩
    | directory => exact absurd (by rw [hnode]; rfl) hfile

end DirectoryStore

end ChunkedArray
