import ChunkedArray.Assoc
import ChunkedArray.Bytes
import ChunkedArray.Store.Pathname

/-!
# Directory trees

A tree of directories and files, with the operations that an operating system offers on one and the
errors that they give. A pathname is resolved step by step, each step out of a directory, so a
missing directory, a file in the place of a directory and a name that is too long are told apart by
which of them is met first.
-/

namespace ChunkedArray

inductive FileError where
  | noEntry
  | entryExists
  | notDirectory
  | isDirectory
  /-- A pathname that cannot be the target of a move. -/
  | invalidTarget
  | nameTooLong
  /-- A name holds a zero character, which is found before the operating system is asked. -/
  | zeroInName
  /-- A pathname that was made on the way and not asked for is too long. -/
  | derivedNameTooLong
deriving DecidableEq

/-- The error number of the operating system, for the errors that keep it. -/
def FileError.number? : FileError → Option Nat
  | .noEntry => some 2
  | .entryExists => some 17
  | .notDirectory => some 20
  | .isDirectory => some 21
  | .invalidTarget => some 22
  | .nameTooLong => some 36
  | .zeroInName | .derivedNameTooLong => none

/-- A file or directory, and whether anyone may write to it. -/
inductive Node where
  | file (contents : Bytes) (writable : Bool)
  | directory (children : List (String × Node)) (writable : Bool)

namespace Node

def emptyDirectory : Node := .directory [] true

def isDirectory : Node → Bool
  | .directory .. => true
  | .file .. => false

def isFile (n : Node) : Bool := !n.isDirectory

def writable : Node → Bool
  | .file _ w | .directory _ w => w

def setWritable (n : Node) (w : Bool) : Node :=
  match n with
  | .file contents _ => .file contents w
  | .directory children _ => .directory children w

def children : Node → List (String × Node)
  | .directory children _ => children
  | .file .. => []

def child? (n : Node) (name : String) : Option Node := Assoc.find? name n.children

def setChild (n : Node) (name : String) (child : Node) : Node :=
  match n with
  | .directory children w => .directory (Assoc.set name child children) w
  | n => n

def removeChild (n : Node) (name : String) : Node :=
  match n with
  | .directory children w => .directory (Assoc.restrict (· ≠ name) children) w
  | n => n

/-- The node that some names lead to. -/
def at? : Node → Path → Option Node
  | n, [] => some n
  | n, name :: rest => (n.child? name).bind (·.at? rest)

/-- Changes the node that some names lead to. -/
def modify (f : Node → Node) : Path → Node → Node
  | [], n => f n
  | name :: rest, n =>
    match n.child? name with
    | some c => n.setChild name (modify f rest c)
    | none => n

mutual

/-- A node and all below it, with their paths, where `here` is its own. -/
def within (here : Path) (n : Node) : List (Path × Node) :=
  match n with
  | .file contents w => [(here, .file contents w)]
  | .directory children w => (here, .directory children w) :: allWithin here children

def allWithin (here : Path) : List (String × Node) → List (Path × Node)
  | [] => []
  | (name, n) :: rest => within (here ++ [name]) n ++ allWithin here rest

end

end Node

/-- A node together with the directories above it. -/
structure Place where
  node : Node
  /-- The directories above, innermost first, each with its name for the next one below. -/
  above : List (String × Node)

namespace Place

def path (s : Place) : Path := (s.above.map Prod.fst).reverse

/-- The place above; the top is above itself. -/
def up (s : Place) : Place :=
  match s.above with
  | [] => s
  | (_, parent) :: above => ⟨parent, above⟩

def maxNameSize : Nat := 255

/-- Takes a step out of a directory. -/
def step (s : Place) (st : Step) : Except FileError Place :=
  if s.node.isFile then .error .notDirectory
  else
    match st with
    | .stay => .ok s
    | .up => .ok s.up
    | .down name =>
      if name.utf8ByteSize > maxNameSize then .error .nameTooLong
      else
        match s.node.child? name with
        | some child => .ok ⟨child, (name, s.node) :: s.above⟩
        | none => .error .noEntry

end Place

structure FileTree where
  top : Node
  /-- The working directory. -/
  home : Path

/-- An operation on a tree, which may leave changes behind even where it fails. -/
abbrev FileAction := ExceptT FileError (StateM FileTree)

namespace FileTree

/-- A tree that has only the working directory and those above it. -/
def empty (home : Path) : FileTree :=
  ⟨home.foldr (fun name n => .directory [(name, n)] true) .emptyDirectory, home⟩

/-! ### Pathnames -/

def maxPathnameSize : Nat := 4095

def checkPathname (n : Pathname) : Except FileError Unit := do
  if n.hasZero then throw .zeroInName
  if n.size > maxPathnameSize then throw .nameTooLong
  if n.isEmpty then throw .noEntry

/-- The place where a pathname starts. -/
def start (t : FileTree) (n : Pathname) : Except FileError Place :=
  let top : Place := ⟨t.top, []⟩
  if n.absolute then .ok top else (t.home.map Step.down).foldlM Place.step top

/-- The place that a pathname means. -/
def resolve (t : FileTree) (n : Pathname) : Except FileError Place := do
  checkPathname n
  let s ← n.steps.foldlM Place.step (← t.start n)
  if n.trailingSlash then s.step .stay else return s

/-- The directory in which a pathname has its last name, and the name, which need not be there. A
pathname whose last step is no name means a directory that is there. -/
def resolveLast (t : FileTree) (n : Pathname) : Except FileError (Place × Option String) := do
  checkPathname n
  let s ← n.steps.dropLast.foldlM Place.step (← t.start n)
  match n.steps.getLast? with
  | some (.down name) => return (← s.step .stay, some name)
  | some st => return (← s.step st, none)
  | none => return (s, none)

def contains (t : FileTree) (n : Pathname) : Bool := (t.resolve n).toOption.isSome

def isDirectory (t : FileTree) (n : Pathname) : Bool :=
  (t.resolve n).toOption.any (·.node.isDirectory)

def isFile (t : FileTree) (n : Pathname) : Bool := (t.resolve n).toOption.any (·.node.isFile)

/-- The path of what a pathname means; its own pathname may be too long. -/
def canonicalPath (t : FileTree) (n : Pathname) : Except FileError Path := do
  let p := (← t.resolve n).path
  checkPathname (.ofPath p)
  return p

def read (t : FileTree) (n : Pathname) : Except FileError Bytes := do
  match (← t.resolve n).node with
  | .file contents _ => return contents
  | .directory .. => throw .isDirectory

/-! ### Changes -/

def modify (t : FileTree) (p : Path) (f : Node → Node) : FileTree :=
  { t with top := t.top.modify f p }

/-- Takes away what is at a path and below it. -/
def prune (t : FileTree) (p : Path) : FileTree :=
  match p.getLast? with
  | some name => t.modify p.dropLast (·.removeChild name)
  | none => t

/-- Makes a directory in one that is there. -/
def makeDirectory (t : FileTree) (n : Pathname) : Except FileError FileTree := do
  match ← t.resolveLast n with
  | (_, none) => throw .entryExists
  | (s, some name) =>
    match s.step (.down name) with
    | .ok _ => throw .entryExists
    | .error .noEntry => return t.modify s.path (·.setChild name .emptyDirectory)
    | .error e => throw e

/-- Puts a new file, or new contents into a file, in a directory that is there. -/
def writeFile (t : FileTree) (n : Pathname) (contents : Bytes) : Except FileError FileTree := do
  match ← t.resolveLast n with
  | (_, none) => throw .isDirectory
  | (s, some name) =>
    if n.trailingSlash then throw .isDirectory
    match s.step (.down name) with
    | .ok ⟨.directory .., _⟩ => throw .isDirectory
    | .ok ⟨.file _ w, _⟩ => return t.modify s.path (·.setChild name (.file contents w))
    | .error .noEntry => return t.modify s.path (·.setChild name (.file contents true))
    | .error e => throw e

def removeFile (t : FileTree) (n : Pathname) : Except FileError FileTree := do
  let s ← t.resolve n
  if s.node.isDirectory then throw .isDirectory
  return t.prune s.path

/-- Moves a file to another place at once, instead of a file that is there. -/
def moveFile (t : FileTree) (source target : Pathname) : Except FileError FileTree := do
  if target.hasZero then throw .invalidTarget
  let file ← t.resolve source
  match ← t.resolveLast target with
  | (_, none) => throw .isDirectory
  | (s, some name) =>
    let moved := (t.prune file.path).modify s.path (·.setChild name file.node)
    match s.step (.down name) with
    | .ok old => if old.node.isDirectory then throw .isDirectory else return moved
    | .error .noEntry => return moved
    | .error e => throw e

/-- Sets whether anyone may write to a file or directory. -/
def setWritable (t : FileTree) (n : Pathname) (writable : Bool) : Except FileError FileTree := do
  return t.modify (← t.resolve n).path (·.setWritable writable)

end FileTree

namespace FileAction

/-- Runs a change; where it fails the tree stays as it is. -/
def change (f : FileTree → Except FileError FileTree) : FileAction Unit := do
  match f (← get) with
  | .ok t => set t
  | .error e => throw e

/-- Makes a directory, or does nothing if there is one. -/
def ensureDirectory (n : Pathname) : FileAction Unit := do
  match (← get).makeDirectory n with
  | .ok t => set t
  | .error e => if (← get).isDirectory n then pure () else throw e

/-- Makes a directory, after `ensureAbove` if one above it is missing. -/
def ensureBelow (n : Pathname) (ensureAbove : FileAction Unit) : FileAction Unit := do
  match (← get).makeDirectory n with
  | .error .noEntry => do
    ensureAbove
    ensureDirectory n
  | _ => ensureDirectory n

/-- Makes the directory that some steps lead to from where `n` starts, given from the last to the
first, and those above it that are missing. -/
def ensureSteps (n : Pathname) : List Step → FileAction Unit
  | [] => pure ()
  | .stay :: above => ensureSteps n above
  | st :: above =>
    ensureBelow { n with steps := (st :: above).reverse, trailingSlash := false }
      (ensureSteps n above)

/-- Makes a directory and those above it that are missing; the empty pathname needs none. -/
def makeDirectories (n : Pathname) : FileAction Unit :=
  if n.isEmpty then pure () else ensureBelow n (ensureSteps n n.parentSteps.reverse)

end FileAction

end ChunkedArray
