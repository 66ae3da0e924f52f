import ChunkedArray.Proofs.Store.Pathnames
import ChunkedArray.Proofs.Store.TreeListing
import ChunkedArray.Store.Directory

/-!
# Operations leave trees tidy

Whether it succeeds or fails, no operation gives a directory a name twice.
-/

namespace ChunkedArray

namespace FileTree

def Tidy (t : FileTree) : Prop := t.top.Tidy

variable {t t' : FileTree} {n source target : Pathname} {p : Path} {contents : Bytes}

theorem tidy_empty (home : Path) : (empty home).Tidy := by
  show Node.Tidy (home.foldr (fun name n => .directory [(name, n)] true) .emptyDirectory)
  induction home with
  | nil => exact Node.tidy_emptyDirectory
  | cons name home ih => exact Node.tidy_emptyDirectory.setChild ih

theorem Tidy.modify {f : Node → Node} (h : t.Tidy) (hf : ∀ m : Node, m.Tidy → (f m).Tidy) :
    (t.modify p f).Tidy := Node.Tidy.modify h hf

theorem Tidy.setChild {c : Node} {name : String} (h : t.Tidy) (hc : c.Tidy) :
    (t.modify p (·.setChild name c)).Tidy := h.modify fun _ hm => hm.setChild hc

theorem Tidy.prune (h : t.Tidy) : (t.prune p).Tidy := by
  rw [FileTree.prune]
  split
  · exact h.modify fun _ hm => hm.removeChild
  · exact h

theorem Tidy.makeDirectory (h : t.Tidy) (ht : t.makeDirectory n = .ok t') : t'.Tidy := by
  obtain ⟨⟨s, last⟩, -, ht⟩ := Outcome.bind_eq_ok_iff.1 ht
  cases last with
  | none => cases ht
  | some name =>
    simp only at ht
    split at ht
    · cases ht
    · exact Except.ok.inj ht ▸ h.setChild Node.tidy_emptyDirectory
    · cases ht

theorem Tidy.writeFile (h : t.Tidy) (ht : t.writeFile n contents = .ok t') : t'.Tidy := by
  obtain ⟨⟨s, last⟩, -, ht⟩ := Outcome.bind_eq_ok_iff.1 ht
  cases last with
  | none => cases ht
  | some name =>
    obtain ⟨-, ht⟩ := Outcome.guard_eq_ok_iff.1 ht
    split at ht
    · cases ht
    · exact Except.ok.inj ht ▸ h.setChild Node.tidy_file
    · exact Except.ok.inj ht ▸ h.setChild Node.tidy_file
    · cases ht

theorem Tidy.removeFile (h : t.Tidy) (ht : t.removeFile n = .ok t') : t'.Tidy := by
  obtain ⟨s, -, ht⟩ := Outcome.bind_eq_ok_iff.1 ht
  obtain ⟨-, ht⟩ := Outcome.guard_eq_ok_iff.1 ht
  exact Except.ok.inj ht ▸ h.prune

theorem Tidy.at? {m : Node} (h : t.Tidy) (hm : t.top.at? p = some m) : m.Tidy := by
  intro q m' hm'
  refine h (p ++ q) m' ?_
  rw [Node.at?_append, hm]
  exact hm'

theorem Tidy.moveFile (h : t.Tidy) (ht : t.moveFile source target = .ok t') : t'.Tidy := by
  obtain ⟨-, ht⟩ := Outcome.guard_eq_ok_iff.1 ht
  obtain ⟨file, hfile, ht⟩ := Outcome.bind_eq_ok_iff.1 ht
  obtain ⟨⟨s, last⟩, -, ht⟩ := Outcome.bind_eq_ok_iff.1 ht
  have hmoved (name : String) :
      ((t.prune file.path).modify s.path (·.setChild name file.node)).Tidy :=
    h.prune.setChild (h.at? (of_resolve hfile).1)
  cases last with
  | none => cases ht
  | some name =>
    simp only at ht
    split at ht
    · split at ht
      · cases ht
      · exact Except.ok.inj ht ▸ hmoved name
    · exact Except.ok.inj ht ▸ hmoved name
    · cases ht

end FileTree

namespace FileAction

/-- Whatever the action gives, it leaves a tidy tree tidy. -/
def KeepsTidy {α : Type} (a : FileAction α) : Prop := ∀ t : FileTree, t.Tidy → (a t).2.Tidy

variable {α β : Type} {a : FileAction α} {n : Pathname} {p : Path}

theorem KeepsTidy.tidy {t t' : FileTree} {r : Except FileError α} (ha : KeepsTidy a) (ht : t.Tidy)
    (h : a t = (r, t')) : t'.Tidy := by
  have hafter := ha t ht
  rwa [h] at hafter

theorem keepsTidy_pure (x : α) : KeepsTidy (pure x : FileAction α) := fun _ h => h

theorem keepsTidy_throw (e : FileError) : KeepsTidy (throw e : FileAction α) := fun _ h => h

theorem KeepsTidy.bind {f : α → FileAction β} (ha : KeepsTidy a) (hf : ∀ x, KeepsTidy (f x)) :
    KeepsTidy (a >>= f) := by
  intro t ht
  have hbind : (a >>= f) t = ExceptT.bindCont f (a t).1 (a t).2 := rfl
  have hfirst := ha t ht
  rw [hbind]
  cases hr : (a t).1 with
  | ok x => exact hf x _ hfirst
  | error e => exact hfirst

theorem keepsTidy_get {f : FileTree → FileAction α} (h : ∀ t : FileTree, t.Tidy → (f t t).2.Tidy) :
    KeepsTidy (get >>= f) := h

theorem keepsTidy_change {f : FileTree → Except FileError FileTree}
    (h : ∀ t t' : FileTree, t.Tidy → f t = .ok t' → t'.Tidy) : KeepsTidy (change f) := by
  refine keepsTidy_get fun t ht => ?_
  cases hf : f t with
  | ok t' => exact h t t' ht hf
  | error e => exact ht

theorem keepsTidy_forM {l : List β} {f : β → FileAction Unit} (h : ∀ x, KeepsTidy (f x)) :
    KeepsTidy (l.forM f) := by
  induction l with
  | nil => exact keepsTidy_pure ()
  | cons x l ih => exact (h x).bind fun _ => ih

theorem keepsTidy_ensureDirectory : KeepsTidy (ensureDirectory n) := by
  refine keepsTidy_get fun t ht => ?_
  cases hmade : t.makeDirectory n with
  | ok t' => exact ht.makeDirectory hmade
  | error e =>
    show ((if t.isDirectory n then pure () else throw e : FileAction Unit) t).2.Tidy
    split <;> exact ht

theorem keepsTidy_ensureBelow {above : FileAction Unit} (habove : KeepsTidy above) :
    KeepsTidy (ensureBelow n above) := by
  refine keepsTidy_get fun t ht => ?_
  cases hmade : t.makeDirectory n with
  | ok t' => exact keepsTidy_ensureDirectory t ht
  | error e =>
    cases e with
    | noEntry => exact (habove.bind fun _ => keepsTidy_ensureDirectory) t ht
    | _ => exact keepsTidy_ensureDirectory t ht

theorem keepsTidy_ensureSteps {steps : List Step} : KeepsTidy (ensureSteps n steps) := by
  induction steps with
  | nil => exact keepsTidy_pure ()
  | cons st steps ih =>
    cases st with
    | stay => exact ih
    | up | down => exact keepsTidy_ensureBelow ih

theorem keepsTidy_makeDirectories : KeepsTidy (makeDirectories n) := by
  rw [makeDirectories]
  split
  · exact keepsTidy_pure ()
  · exact keepsTidy_ensureBelow keepsTidy_ensureSteps

end FileAction

namespace DirectoryStore

open FileAction

variable {n source target : Pathname} {p : Path} {value : Bytes}

theorem keepsTidy_moveIntoPlace : KeepsTidy (moveIntoPlace source target) := by
  refine keepsTidy_get fun t ht => ?_
  cases hmoved : t.moveFile source target with
  | ok t' => exact ht.moveFile hmoved
  | error e =>
    have hremove : KeepsTidy (change (·.removeFile source)) :=
      keepsTidy_change fun _ _ ht hf => ht.removeFile hf
    exact (hremove.bind fun _ => keepsTidy_throw e) t ht

theorem keepsTidy_makePartial : KeepsTidy (makePartial source) :=
  keepsTidy_change fun _ _ ht hf => ht.writeFile (Outcome.mapError_eq_ok_iff.1 hf)

theorem keepsTidy_replaceFile : KeepsTidy (replaceFile p target value) := by
  have hwrite (n : Pathname) : KeepsTidy (change (·.writeFile n value)) :=
    keepsTidy_change fun _ _ ht hf => ht.writeFile hf
  refine keepsTidy_get fun t ht => ?_
  exact (keepsTidy_makePartial.bind fun _ => (hwrite _).bind fun _ => keepsTidy_moveIntoPlace) t ht

theorem keepsTidy_writeValue : KeepsTidy (writeValue p value) :=
  keepsTidy_makeDirectories.bind fun _ => keepsTidy_replaceFile

theorem keepsTidy_removeValue : KeepsTidy (removeValue n) := by
  refine keepsTidy_get fun t ht => ?_
  cases hremoved : t.removeFile n with
  | ok t' => exact ht.removeFile hremoved
  | error e => cases e <;> exact ht

theorem keepsTidy_removeTree : KeepsTidy (removeTree p) := by
  refine keepsTidy_get fun t ht => ?_
  split
  · exact ht.prune
  · exact ht

theorem keepsTidy_removeEntry {name : String} : KeepsTidy (removeEntry p name) := by
  refine keepsTidy_change fun t t' ht hf => ?_
  obtain ⟨s, -, hs⟩ := Outcome.bind_eq_ok_iff.1 hf
  exact Except.ok.inj hs ▸ ht.prune

theorem keepsTidy_clearDirectory : KeepsTidy (clearDirectory p) := by
  refine keepsTidy_get fun t ht => ?_
  cases t.resolve (.ofPath p) with
  | error e => exact ht
  | ok s =>
    obtain ⟨node, above⟩ := s
    cases node with
    | file => exact ht
    | directory children w =>
      exact ((keepsTidy_forM fun _ => keepsTidy_removeEntry).bind fun _ => keepsTidy_pure _) t ht

end DirectoryStore

end ChunkedArray
