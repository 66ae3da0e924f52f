import ChunkedArray.Proofs.Store.Mirror
import ChunkedArray.Proofs.Store.Walks

/-!
# Values at the root

A store in memory may have a value under the root key. In a directory there is none, since the root is
a directory: to set it or to erase it fails, and leaves all that is below the root as it is.
-/

namespace ChunkedArray

namespace FileAction

open FileTree

theorem makeDirectories_exists {n : Pathname} {p : Path} {t : FileTree} (h : n.Means p)
    (hthere : t.look p = some none) : makeDirectories n t = (.ok (), t) := by
  have hmade := makeDirectory_exists h hthere
  have hempty : n.isEmpty = false := by simp [Pathname.isEmpty, h.absolute]
  rw [makeDirectories, hempty]
  refine (ensureBelow_of_ne ?_).trans (ensureDirectory_exists h hthere)
  intro hmissing
  rw [hmade] at hmissing
  cases hmissing

end FileAction

namespace DirectoryStore

open FileAction FileTree

variable {d : DirectoryStore} {t t' : FileTree} {p dir : Path} {name : String} {value : Bytes}

/-! ### Directories in the place of files -/

theorem removeValue_directory (hshort : p.IsShort) (hdir : t.look p = some none) :
    removeValue (.ofPath p) t = (.error .isDirectory, t) := by
  obtain ⟨m, hm, hcontents⟩ := look_eq_some_iff.1 hdir
  obtain ⟨s, hs, rfl, -⟩ := resolve_ok hshort.means hm
  have hremoved : t.removeFile (.ofPath p) = .error .isDirectory := by
    rw [removeFile, hs, Outcome.ok_bind, if_pos (Node.isDirectory_iff.2 hcontents)]
    rfl
  rw [removeValue, StoreAction.get_bind_apply, hremoved]
  rfl

theorem moveFile_directory (source : Pathname) (hdir : t.look p = some none) :
    ∃ e, t.moveFile source (.ofPath p) = .error e := by
  cases hmoved : t.moveFile source (.ofPath p) with
  | ok t' => exact absurd hdir (of_moveFile (Pathname.leadsTo_ofPath p) hmoved).2.2
  | error e => exact ⟨e, rfl⟩

/-- The file that could not be moved is taken away. -/
theorem moveIntoPlace_directory {source : Pathname} {contents : Bytes}
    (hsource : source.Means (dir ++ [name])) (hfile : t.look (dir ++ [name]) = some (some contents))
    (hdir : t.look p = some none) : ∃ e t', moveIntoPlace source (.ofPath p) t = (.error e, t') ∧
      ∀ q, t'.look q = if dir ++ [name] <+: q then none else t.look q := by
  obtain ⟨e, he⟩ := moveFile_directory source hdir
  obtain ⟨t', ht', hlook⟩ := removeFile_ok hsource (by simp) hfile
  have hremove : change (·.removeFile source) t = (.ok (), t') := by rw [change_apply, ht']
  refine ⟨e, t', ?_, hlook⟩
  rw [moveIntoPlace, StoreAction.get_bind_apply, he]
  exact StoreAction.bind_apply hremove _

/-- A file that is written first is beside the directory, or has a new name in the directory at the
top. -/
theorem look_below_partial {q : Path} (hdir : t.look p = some none)
    (hfresh : p = [] → t.look [name] = none) (hold : t.look (p.dropLast ++ [name]) ≠ some none)
    (hp : p <+: q) (hq : p.dropLast ++ [name] <+: q) : t.look q = none := by
  rcases List.eq_nil_or_concat' p with rfl | ⟨above, last, rfl⟩
  · exact look_eq_none_below (hfresh rfl) hq
  · rw [List.dropLast_concat] at hold hq
    have hsame : above ++ [last] = above ++ [name] :=
      (List.prefix_of_prefix_length_le hp hq (by simp)).eq_of_length (by simp)
    exact absurd (hsame ▸ hdir) hold

/-- Where the first of the new names is not used, it is the one that is taken. -/
theorem look_freshName (h : t.look [numberedName 0] = none) :
    t.look [freshName ((t.top.at? []).elim [] fun n => Assoc.keys n.children)] = none := by
  have hnew : numberedName 0 ∉ (t.top.at? []).elim [] fun n => Assoc.keys n.children := notMem_names h
  rw [freshName_eq hnew]
  exact h

/-- The new file is written, but not moved, and what is at the target or below stays. -/
theorem fillAndMove_directory {t₁ : FileTree} (hdir : t.look p = some none)
    (hfresh : p = [] → t.look [name] = none)
    (hmade : t.writeFile (.ofPath (p.dropLast ++ [name])) [] = .ok t₁) (value : Bytes) :
    ∃ e t', (do
        change (·.writeFile (.ofPath (p.dropLast ++ [name])) value)
        moveIntoPlace (.ofPath (p.dropLast ++ [name])) (.ofPath p) : FileAction Unit) t₁ =
          (.error e, t') ∧ ∀ q, p <+: q → t'.look q = t.look q := by
  obtain ⟨hmeans, habove, hold, hlook₁⟩ := of_writeFile (Pathname.leadsTo_ofPath _) hmade
  obtain ⟨t₂, hwritten, hlook₂⟩ := fillPartial_ok hmeans habove hlook₁
  have hdir₂ : t₂.look p = some none := by
    have hne : p ≠ p.dropLast ++ [name] := fun he => hold (he ▸ hdir)
    rw [hlook₂, if_neg hne, hdir]
  obtain ⟨e, t', hmoved, hlook⟩ :=
    moveIntoPlace_directory hmeans ((hlook₂ _).trans (if_pos rfl)) hdir₂
  refine ⟨e, t', (StoreAction.bind_apply hwritten _).trans hmoved, fun q hq => ?_⟩
  rw [hlook]
  split
  · next hpre => exact (look_below_partial hdir hfresh hold hq hpre).symm
  · next hpre =>
    have hne : q ≠ p.dropLast ++ [name] := fun he => hpre (he ▸ List.prefix_refl _)
    rw [hlook₂, if_neg hne]

theorem replaceFile_directory (hdir : t.look p = some none)
    (hfresh : p = [] → t.look [numberedName 0] = none) (value : Bytes) :
    ∃ e t', replaceFile p.dropLast (.ofPath p) value t = (.error e, t') ∧
      ∀ q, p <+: q → t'.look q = t.look q := by
  rw [replaceFile, StoreAction.get_bind_apply]
  generalize hname : freshName _ = name
  have hfresh' (hnil : p = []) : t.look [name] = none := by
    subst hnil
    rw [← hname]
    exact look_freshName (hfresh rfl)
  cases hmade : t.writeFile (.ofPath (p.dropLast ++ [name])) [] with
  | error e =>
    have hpartial : ∃ e, makePartial (.ofPath (p.dropLast ++ [name])) t = (.error e, t) := by
      rw [makePartial, change_apply, hmade]
      exact ⟨_, rfl⟩
    obtain ⟨e, he⟩ := hpartial
    exact ⟨e, t, StoreAction.bind_apply_error he _, fun _ _ => rfl⟩
  | ok t₁ =>
    obtain ⟨e, t', hmoved, hlook⟩ := fillAndMove_directory hdir hfresh' hmade value
    exact ⟨e, t', (StoreAction.bind_apply (makePartial_ok hmade) _).trans hmoved, hlook⟩

theorem writeValue_directory (hshort : p.IsShort) (hdir : t.look p = some none)
    (hfresh : p = [] → t.look [numberedName 0] = none) (value : Bytes) :
    ∃ e t', writeValue p value t = (.error e, t') ∧ ∀ q, p <+: q → t'.look q = t.look q := by
  have habove : Path.IsShort p.dropLast ∧ t.look p.dropLast = some none := by
    rcases List.eq_nil_or_concat' p with rfl | ⟨above, last, rfl⟩
    · exact ⟨hshort, hdir⟩
    · rw [List.dropLast_concat]
      exact ⟨hshort.of_append, look_of_append hdir (by simp)⟩
  obtain ⟨e, t', hreplaced, hlook⟩ := replaceFile_directory hdir hfresh value
  refine ⟨e, t', ?_, hlook⟩
  exact (StoreAction.bind_apply (makeDirectories_exists habove.1.means habove.2) _).trans hreplaced

/-! ### Calls for the root -/

variable {keys : Key → Prop} {m : MemoryStore}

theorem onTree_error {α : Type} {a : FileAction α} {e : FileError}
    (h : a d.tree = (.error e, t)) : onTree a d = (.error (.file e), { d with tree := t }) := by
  show ((a d.tree).1.mapError StoreError.file, { d with tree := (a d.tree).2 }) = _
  rw [h]
  rfl

theorem Mirrors.set_root (h : Mirrors keys d m) (hs : SuitsKeys d.root keys) (value : Bytes) :
    ∃ e t, (Store.set .root value : StoreAction DirectoryStore StoreError Unit) d =
      (.error (.file e), { d with tree := t }) ∧ Mirrors keys { d with tree := t } m := by
  have hfresh (hroot : d.root = []) : d.tree.look [numberedName 0] = none := by
    have hnone := h.look_partial hs []
    rwa [hroot] at hnone
  obtain ⟨e, t, hwritten, hlook⟩ := writeValue_directory h.isShort_root h.look_root hfresh value
  have htidy : t.Tidy := by
    have hkeeps : KeepsTidy (writeValue d.root value) := keepsTidy_writeValue
    exact hkeeps.tidy h.tidy hwritten
  refine ⟨e, t, ?_, ?_⟩
  · rw [set_eq h.mode_ne, pathOf_root]
    exact onTree_error hwritten
  · -- Nothing below the root is gone.
    have hsame (p : Path) : t.look (d.root ++ p) = if False then none else d.tree.look (d.root ++ p) :=
      (hlook _ (List.prefix_append _ _)).trans (if_neg id).symm
    exact h.shrink htidy h.nodup id hsame fun k => (if_neg id).symm

theorem Mirrors.erase_root (h : Mirrors keys d m) :
    (Store.erase .root : StoreAction DirectoryStore StoreError Bool) d =
      (.error (.file .isDirectory), d) := by
  rw [erase_eq h.mode_ne, pathnameOf, pathOf_root]
  exact onTree_error (removeValue_directory h.isShort_root h.look_root)

end DirectoryStore

end ChunkedArray
