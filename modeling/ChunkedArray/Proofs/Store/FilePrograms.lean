import ChunkedArray.Proofs.Outcome
import ChunkedArray.Store.Directory
import Mathlib.Logic.Relation

/-!
# Programs of file operations

An operation on a store is a program of operations on files. Others may look at the tree between any
two of these, and the operating system may refuse any of them. What holds all the time is shown along
the program, once for both ends of each operation.
-/

namespace ChunkedArray

inductive FileProgram where
  | finish (r : Except StoreError Unit)
  | look (next : FileTree → FileProgram)
  /-- Changes the tree at once, and goes on with how that ended. -/
  | change (f : FileTree → Except FileError FileTree) (next : Except FileError Unit → FileProgram)

namespace FileProgram

/-- Runs a program to its end, where nothing is refused without a reason in the tree. -/
def run : FileProgram → FileTree → Except StoreError Unit × FileTree
  | .finish r, t => (r, t)
  | .look next, t => (next t).run t
  | .change f next, t =>
    match f t with
    | .ok t' => (next (.ok ())).run t'
    | .error e => (next (.error e)).run t

/-- The next program and tree. A change may be refused for any reason, and then does nothing. -/
inductive Next : FileProgram × FileTree → FileProgram × FileTree → Prop
  | look {next : FileTree → FileProgram} {t : FileTree} : Next (.look next, t) (next t, t)
  | made {f : FileTree → Except FileError FileTree} {next : Except FileError Unit → FileProgram}
    {t t' : FileTree} : f t = .ok t' → Next (.change f next, t) (next (.ok ()), t')
  | refused {f : FileTree → Except FileError FileTree} {next : Except FileError Unit → FileProgram}
    {t : FileTree} (e : FileError) : Next (.change f next, t) (next (.error e), t)

abbrev Reaches : FileProgram × FileTree → FileProgram × FileTree → Prop := Relation.ReflTransGen Next

/-- Goes on with another program if the first one succeeds. -/
def andThen : FileProgram → FileProgram → FileProgram
  | .finish (.ok ()), c => c
  | .finish (.error e), _ => .finish (.error e)
  | .look next, c => .look fun t => (next t).andThen c
  | .change f next, c => .change f fun r => (next r).andThen c

/-- Until the program has succeeded the tree is as `during` says, also where the program fails, and
then as `done` says. -/
def Keeps (during done : FileTree → Prop) : FileProgram → FileTree → Prop
  | .finish (.ok ()), t => done t
  | .finish (.error _), t => during t
  | .look next, t => during t ∧ (next t).Keeps during done t
  | .change f next, t => during t ∧
    (∀ t', f t = .ok t' → (next (.ok ())).Keeps during done t') ∧
    ∀ e, (next (.error e)).Keeps during done t

variable {c c' : FileProgram} {t t' : FileTree} {during between done : FileTree → Prop}

/-! ### All executions -/

theorem Keeps.next (h : c.Keeps during done t) (hnext : Next (c, t) (c', t')) :
    c'.Keeps during done t' := by
  cases hnext with
  | look => exact h.2
  | made hmade => exact h.2.1 _ hmade
  | refused e => exact h.2.2 e

theorem Keeps.reaches (h : c.Keeps during done t) (hreaches : Reaches (c, t) (c', t')) :
    c'.Keeps during done t' := by
  have hall (s : FileProgram × FileTree) (hs : Reaches (c, t) s) : s.1.Keeps during done s.2 := by
    induction hs with
    | refl => exact h
    | tail _ hnext ih => exact ih.next hnext
  exact hall _ hreaches

theorem Keeps.of_unfinished (h : c.Keeps during done t) (hc : c ≠ .finish (.ok ())) : during t := by
  cases c with
  | finish r =>
    cases r with
    | ok => exact absurd rfl hc
    | error e => exact h
  | look => exact h.1
  | change => exact h.1

theorem Keeps.andThen (h : c.Keeps during between t)
    (hrest : ∀ t', between t' → c'.Keeps during done t') :
    (c.andThen c').Keeps during done t := by
  induction c generalizing t with
  | finish r =>
    cases r with
    | ok => exact hrest t h
    | error e => exact h
  | look next ih => exact ⟨h.1, ih t h.2⟩
  | change f next ih => exact ⟨h.1, fun t' hmade => ih _ (h.2.1 t' hmade), fun e => ih _ (h.2.2 e)⟩

/-! ### Runs -/

theorem run_change_ok {f : FileTree → Except FileError FileTree}
    {next : Except FileError Unit → FileProgram} (h : f t = .ok t') :
    (change f next).run t = (next (.ok ())).run t' := by
  rw [run, h]

theorem run_change_error {f : FileTree → Except FileError FileTree}
    {next : Except FileError Unit → FileProgram} {e : FileError} (h : f t = .error e) :
    (change f next).run t = (next (.error e)).run t := by
  rw [run, h]

/-- A run is one of the executions. -/
theorem reaches_run (c : FileProgram) (t : FileTree) :
    Reaches (c, t) (.finish (c.run t).1, (c.run t).2) := by
  induction c generalizing t with
  | finish r => exact .refl
  | look next ih => exact (Relation.ReflTransGen.single .look).trans (ih t t)
  | change f next ih =>
    cases hf : f t with
    | ok t' =>
      rw [run_change_ok hf]
      exact (Relation.ReflTransGen.single (.made hf)).trans (ih _ t')
    | error e =>
      rw [run_change_error hf]
      exact (Relation.ReflTransGen.single (.refused e)).trans (ih _ t)

/-- On the tree the program runs as the action does. -/
def RunsAs (c : FileProgram) (a : FileAction Unit) (t : FileTree) : Prop :=
  c.run t = ((a t).1.mapError .file, (a t).2)

theorem runsAs_ok {a : FileAction Unit} (hc : c.run t = (.ok (), t')) (ha : a t = (.ok (), t')) :
    c.RunsAs a t := by
  rw [RunsAs, hc, ha]
  rfl

theorem runsAs_error {a : FileAction Unit} {e : FileError}
    (hc : c.run t = (.error (.file e), t')) (ha : a t = (.error e, t')) : c.RunsAs a t := by
  rw [RunsAs, hc, ha]
  rfl

/-- Runs a program where another one has ended, if that succeeded. -/
def resume (c : FileProgram) : Except StoreError Unit × FileTree → Except StoreError Unit × FileTree
  | (.ok (), t) => c.run t
  | (.error e, t) => (.error e, t)

theorem run_andThen : (c.andThen c').run t = c'.resume (c.run t) := by
  induction c generalizing t with
  | finish r => cases r <;> rfl
  | look next ih => exact ih t
  | change f next ih =>
    rw [FileProgram.andThen]
    cases hf : f t with
    | ok t' => rw [run_change_ok hf, run_change_ok hf, ih]
    | error e => rw [run_change_error hf, run_change_error hf, ih]

theorem RunsAs.andThen {a b : FileAction Unit} (h : c.RunsAs a t) (h' : ∀ t', c'.RunsAs b t') :
    (c.andThen c').RunsAs (a >>= fun _ => b) t := by
  rw [RunsAs] at h
  cases hr : (a t).1 with
  | error e =>
    have ha : a t = (.error e, (a t).2) := Prod.ext hr rfl
    rw [hr] at h
    refine runsAs_error ?_ (StoreAction.bind_apply_error ha _)
    rw [run_andThen, h]
    rfl
  | ok x =>
    have ha : a t = (.ok x, (a t).2) := Prod.ext hr rfl
    rw [hr] at h
    rw [RunsAs, StoreAction.bind_apply ha, run_andThen, h]
    exact h' (a t).2

end FileProgram

end ChunkedArray
