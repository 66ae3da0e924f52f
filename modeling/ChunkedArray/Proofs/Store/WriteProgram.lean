import ChunkedArray.Proofs.Store.FilePrograms
import ChunkedArray.Proofs.Store.Mirror
import ChunkedArray.Proofs.Store.Walks

/-!
# Setting a value, operation by operation

Setting a value makes the directories above it, makes a file of a new name, writes the contents into
it piece by piece, has it written to the disk, and moves it to its place. Where something is refused
after the file was made, the file is taken away, if that is not refused as well. Run without such
refusals, and writing the contents at once, this is what the store does.
-/

namespace ChunkedArray

namespace FileTree

/-- The names in a directory. -/
def entryNames (t : FileTree) (dir : Path) : List String :=
  (t.top.at? dir).elim [] fun n => Assoc.keys n.children

/-- Makes the file that is written first. -/
def createPartial (source : Pathname) (t : FileTree) : Except FileError FileTree :=
  (t.writeFile source []).mapError fun e => if e = .nameTooLong then .derivedNameTooLong else e

end FileTree

namespace FileProgram

/-! ### Making directories -/

/-- Ends after a directory was to be made: if it is there the failure does no harm. -/
def settle (n : Pathname) : Except FileError Unit → FileProgram
  | .ok () => .finish (.ok ())
  | .error e => .look fun t => .finish (if t.isDirectory n then .ok () else .error (.file e))

def ensureDirectory (n : Pathname) : FileProgram := .change (·.makeDirectory n) (settle n)

/-- Makes a directory, after `above` if one above it is missing. -/
def ensureBelow (n : Pathname) (above : FileProgram) : FileProgram :=
  .change (·.makeDirectory n) fun
    | .error .noEntry => above.andThen (ensureDirectory n)
    | r => settle n r

/-- Makes the directories that some steps lead to, given from the last to the first. -/
def ensureSteps (n : Pathname) : List Step → FileProgram
  | [] => .finish (.ok ())
  | .stay :: above => ensureSteps n above
  | st :: above =>
    ensureBelow { n with steps := (st :: above).reverse, trailingSlash := false }
      (ensureSteps n above)

def makeDirectories (n : Pathname) : FileProgram :=
  if n.isEmpty then .finish (.ok ()) else ensureBelow n (ensureSteps n n.parentSteps.reverse)

/-! ### Writing -/

/-- Takes the file away that was to be written, and fails whether or not that can be done. -/
def giveUp (source : Pathname) (e : FileError) : FileProgram :=
  .change (·.removeFile source) fun _ => .finish (.error (.file e))

/-- Goes on after a change, or gives up if it is refused. -/
def orGiveUp (source : Pathname) (f : FileTree → Except FileError FileTree) (next : FileProgram) :
    FileProgram :=
  .change f fun
    | .ok () => next
    | .error e => giveUp source e

/-- Has the file written to the disk, which changes nothing that can be seen, and moves it. -/
def syncAndMove (source target : Pathname) : FileProgram :=
  orGiveUp source .ok (orGiveUp source (·.moveFile source target) (.finish (.ok ())))

/-- Writes first parts of the value, of the sizes that are given, then all of it, and moves the file. -/
def fill (source target : Pathname) (value : Bytes) : List Nat → FileProgram
  | [] => orGiveUp source (·.writeFile source value) (syncAndMove source target)
  | size :: sizes =>
    orGiveUp source (·.writeFile source (value.take size)) (fill source target value sizes)

/-- Writes a file of a directory. The name of the file that is written first is picked by the names
that the directory has. -/
def replaceFile (pick : List String → String) (sizes : List Nat) (dir : Path) (target : Pathname)
    (value : Bytes) : FileProgram :=
  .look fun t =>
    let source := Pathname.ofPath (dir ++ [pick (t.entryNames dir)])
    .change (FileTree.createPartial source) fun
      | .ok () => fill source target value sizes
      | .error e => .finish (.error (.file e))

def writeValue (pick : List String → String) (sizes : List Nat) (p : Path) (value : Bytes) :
    FileProgram :=
  (makeDirectories (.ofPath p.dropLast)).andThen
    (replaceFile pick sizes p.dropLast (.ofPath p) value)

end FileProgram

/-- What is asked of the operating system for setting a value. -/
def DirectoryStore.setProgram (d : DirectoryStore) (pick : List String → String) (sizes : List Nat)
    (k : Key) (value : Bytes) : FileProgram :=
  if d.mode = .readOnly then .finish (.error .readOnly)
  else .writeValue pick sizes (d.pathOf k) value

/-! ### Runs -/

namespace FileProgram

open FileAction FileTree

variable {t t' : FileTree} {n source target : Pathname} {value : Bytes}

theorem run_settle_error {e : FileError} : (settle n (.error e)).run t =
    (if t.isDirectory n then .ok () else .error (.file e), t) := rfl

theorem runsAs_ensureDirectory : (ensureDirectory n).RunsAs (FileAction.ensureDirectory n) t := by
  have ha := ensureDirectory_apply (n := n) (t := t)
  cases hmade : t.makeDirectory n with
  | ok t' =>
    rw [hmade] at ha
    exact runsAs_ok (run_change_ok hmade) ha
  | error e =>
    rw [hmade] at ha
    have hc : (ensureDirectory n).run t = _ := run_change_error hmade
    rw [run_settle_error] at hc
    by_cases hdir : t.isDirectory n = true
    · simp only [hdir, if_true] at ha hc
      exact runsAs_ok hc ha
    · simp only [hdir] at ha hc
      exact runsAs_error hc ha

theorem runsAs_ensureBelow {above : FileProgram} {a : FileAction Unit}
    (h : ∀ t, above.RunsAs a t) : (ensureBelow n above).RunsAs (FileAction.ensureBelow n a) t := by
  by_cases hmissing : t.makeDirectory n = .error .noEntry
  · have hrest := (h t).andThen (fun t' => runsAs_ensureDirectory (n := n) (t := t'))
    have ha : FileAction.ensureBelow n a t = (a >>= fun _ => FileAction.ensureDirectory n) t := by
      rw [FileAction.ensureBelow, StoreAction.get_bind_apply, hmissing]
    rw [RunsAs, ensureBelow, run_change_error hmissing, ha]
    exact hrest
  · have hrun : (ensureBelow n above).run t = (ensureDirectory n).run t := by
      rw [ensureBelow, ensureDirectory]
      cases hmade : t.makeDirectory n with
      | ok t' => rw [run_change_ok hmade, run_change_ok hmade]
      | error e =>
        rw [run_change_error hmade, run_change_error hmade]
        cases e with
        | noEntry => exact absurd hmade hmissing
        | _ => rfl
    rw [RunsAs, hrun, ensureBelow_of_ne hmissing]
    exact runsAs_ensureDirectory

theorem runsAs_ensureSteps {steps : List Step} :
    (ensureSteps n steps).RunsAs (FileAction.ensureSteps n steps) t := by
  induction steps generalizing t with
  | nil => rfl
  | cons st steps ih =>
    cases st with
    | stay => exact ih
    | up | down => exact runsAs_ensureBelow fun _ => ih

theorem runsAs_makeDirectories : (makeDirectories n).RunsAs (FileAction.makeDirectories n) t := by
  rw [makeDirectories, FileAction.makeDirectories]
  split
  · rfl
  · exact runsAs_ensureBelow fun _ => runsAs_ensureSteps

theorem RunsAs.change {f : FileTree → Except FileError FileTree}
    {next : Except FileError Unit → FileProgram} {a : FileAction Unit}
    (hok : ∀ t', f t = .ok t' → (next (.ok ())).RunsAs a t')
    (herror : ∀ e, f t = .error e → (next (.error e)).run t = (.error (.file e), t)) :
    (FileProgram.change f next).RunsAs (FileAction.change f >>= fun _ => a) t := by
  have happly := change_apply (f := f) (t := t)
  cases hf : f t with
  | ok t' =>
    rw [hf] at happly
    rw [RunsAs, run_change_ok hf, StoreAction.bind_apply happly]
    exact hok t' hf
  | error e =>
    rw [hf] at happly
    exact runsAs_error ((run_change_error hf).trans (herror e hf))
      (StoreAction.bind_apply_error happly _)

theorem runsAs_syncAndMove (hremove : ∃ t', t.removeFile source = .ok t') :
    (syncAndMove source target).RunsAs (DirectoryStore.moveIntoPlace source target) t := by
  have hsync : (syncAndMove source target).run t =
      (orGiveUp source (·.moveFile source target) (.finish (.ok ()))).run t := run_change_ok rfl
  cases hmoved : t.moveFile source target with
  | ok t' => exact runsAs_ok (hsync.trans (run_change_ok hmoved)) (DirectoryStore.moveIntoPlace_ok hmoved)
  | error e =>
    obtain ⟨t', hremoved⟩ := hremove
    have hgiveUp : (giveUp source e).run t = (.error (.file e), t') := run_change_ok hremoved
    refine runsAs_error (hsync.trans ((run_change_error hmoved).trans hgiveUp)) ?_
    have hremove : FileAction.change (·.removeFile source) t = (.ok (), t') := by
      rw [change_apply, hremoved]
    rw [DirectoryStore.moveIntoPlace, StoreAction.get_bind_apply, hmoved]
    exact StoreAction.bind_apply hremove _

/-- Once the file is there it can be written to and taken away. -/
theorem runsAs_replaceFile {dir : Path} :
    (replaceFile DirectoryStore.freshName [] dir target value).RunsAs
      (DirectoryStore.replaceFile dir target value) t := by
  rw [RunsAs, DirectoryStore.replaceFile, StoreAction.get_bind_apply]
  refine RunsAs.change (fun t₁ hmade => ?_) fun e _ => rfl
  have hleads := Pathname.leadsTo_ofPath (dir ++ [DirectoryStore.freshName (t.entryNames dir)])
  obtain ⟨hmeans, hdir, -, hlook₁⟩ := of_writeFile hleads (Outcome.mapError_eq_ok_iff.1 hmade)
  have hdir₁ : t₁.look dir = some none := by rw [hlook₁, if_neg (by simp), hdir]
  obtain ⟨t₂, hwritten, hlook₂⟩ : ∃ t₂, t₁.writeFile _ value = .ok t₂ ∧ ∀ q, t₂.look q = _ :=
    writeFile_ok hmeans hdir₁ (by simp [hlook₁])
  refine RunsAs.change (fun t' ht' => ?_) fun e he => ?_
  · obtain rfl := Except.ok.inj (ht'.symm.trans hwritten)
    obtain ⟨t₃, hremoved, -⟩ := removeFile_ok hmeans (by simp) ((hlook₂ _).trans (if_pos rfl))
    exact runsAs_syncAndMove ⟨t₃, hremoved⟩
  · cases he.symm.trans hwritten

theorem runsAs_writeValue {p : Path} : (writeValue DirectoryStore.freshName [] p value).RunsAs
    (DirectoryStore.writeValue p value) t :=
  runsAs_makeDirectories.andThen fun _ => runsAs_replaceFile

end FileProgram

/-- What a store does to set a value is a run of the program. -/
theorem DirectoryStore.run_setProgram (d : DirectoryStore) (k : Key) (value : Bytes) :
    (Store.set k value : StoreAction DirectoryStore StoreError Unit) d =
      (((d.setProgram freshName [] k value).run d.tree).1,
        { d with tree := ((d.setProgram freshName [] k value).run d.tree).2 }) := by
  rw [setProgram]
  by_cases hmode : d.mode = .readOnly
  · have hrefused : requireWritable d = (.error .readOnly, d) := by
      rw [requireWritable, StoreAction.get_bind_apply, if_pos hmode]
      rfl
    rw [if_pos hmode]
    exact StoreAction.bind_apply_error hrefused _
  · rw [if_neg hmode, set_eq hmode, FileProgram.runsAs_writeValue]
    rfl

end ChunkedArray
