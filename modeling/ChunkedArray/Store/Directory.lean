import ChunkedArray.Store.Basic

/-!
# Stores in a directory

Each key is the path of a file below a root directory. Only files whose names are valid components
count, so files with reserved names are never listed. A value is written to a file of a reserved
name first and then moved to its place at once, so nobody sees a part of it.
-/

namespace ChunkedArray

/-- What may be done with a store: read it, or write to it as well, making the root if needed or
requiring one that can be written to. -/
inductive AccessMode where
  | readOnly
  | create
  | existing
deriving DecidableEq

namespace AccessMode

/-- The mode of stores that do not choose one. -/
def default : AccessMode := .create

def name : AccessMode → String
  | .readOnly => "r"
  | .create => "w"
  | .existing => "r+"

def ofName? (s : String) : Option AccessMode :=
  if s = "r" then some .readOnly
  else if s = "w" then some .create
  else if s = "r+" then some .existing
  else none

def parse (s : String) : Except StoreError AccessMode :=
  (ofName? s).elim (.error (.invalidMode s)) .ok

end AccessMode

/-- A root directory in a tree. -/
structure DirectoryStore where
  /-- From the top of the tree. -/
  root : Path
  mode : AccessMode
  tree : FileTree

namespace DirectoryStore

/-! ### Keys and paths -/

/-- The path of the file that holds the value of a key. -/
def pathOf (s : DirectoryStore) (k : Key) : Path := s.root ++ k.components.map KeyComponent.text

def pathnameOf (s : DirectoryStore) (k : Key) : Pathname := .ofPath (s.pathOf k)

/-- The key whose value a file holds, if its path is that of a key. -/
def keyOf? (s : DirectoryStore) (p : Path) : Option Key :=
  if s.root.isPrefixOf p then
    ((p.drop s.root.length).mapM fun name => (KeyComponent.parse name).toOption).map Key.mk
  else none

/-- Runs an action on the tree. -/
def onTree {α : Type} (a : FileAction α) : StoreAction DirectoryStore StoreError α := fun s =>
  let (r, tree) := a s.tree
  (r.mapError .file, { s with tree })

/-! ### Reading -/

/-- A directory in the place of a file, and nothing, have no value. -/
def read (s : DirectoryStore) (k : Key) : Except StoreError (Option Bytes) :=
  let n := s.pathnameOf k
  if s.tree.isDirectory n then .ok none
  else
    match s.tree.read n with
    | .ok value => .ok (some value)
    | .error .noEntry => .ok none
    | .error e => .error (.file e)

/-- The keys of the files at and below a path, each directory being opened by its pathname. -/
def keysUnder (s : DirectoryStore) (base : Key) : Except StoreError (List Key) :=
  match s.tree.resolve (s.pathnameOf base) with
  | .error _ => .ok []
  | .ok place =>
    let nodes := place.node.within (s.pathOf base)
    let tooLong (p : Path) : Bool := (Pathname.ofPath p).size > FileTree.maxPathnameSize
    if nodes.any fun (p, n) => n.isDirectory && tooLong p then .error (.file .derivedNameTooLong)
    else .ok (Key.sort (nodes.filterMap fun (p, n) => if n.isFile then s.keyOf? p else none))

/-! ### Writing -/

def requireWritable : StoreAction DirectoryStore StoreError Unit := do
  if (← get).mode = .readOnly then throw .readOnly

/-- What the names of files that are being written start with. -/
def partialName : String := "__partial"

/-- A name for a file that is being written: the number has six digits or more. -/
def numberedName (n : Nat) : String :=
  let digits := Nat.toDigits 10 n
  partialName ++ String.ofList (List.replicate (6 - digits.length) '0' ++ digits)

/-- A name of a file to be written that the directory does not have. -/
def freshName (names : List String) : String :=
  let free (n : Nat) : Bool := !names.contains (numberedName n)
  numberedName (((List.range (names.length + 1)).find? free).getD 0)

/-- Moves a file to its place, or takes it away if it cannot be moved. -/
def moveIntoPlace (source target : Pathname) : FileAction Unit := do
  match (← get).moveFile source target with
  | .ok t => set t
  | .error e => do
    FileAction.change (·.removeFile source)
    throw e

/-- Makes the file that is written first. -/
def makePartial (source : Pathname) : FileAction Unit :=
  FileAction.change fun t => (t.writeFile source []).mapError fun e =>
    if e = .nameTooLong then .derivedNameTooLong else e

/-- Writes a file of a directory: the contents go to a new file there, and this is moved to its
place. -/
def replaceFile (directory : Path) (target : Pathname) (value : Bytes) : FileAction Unit := do
  let names := ((← get).top.at? directory).elim [] fun n => Assoc.keys n.children
  let source := Pathname.ofPath (directory ++ [freshName names])
  makePartial source
  FileAction.change (·.writeFile source value)
  moveIntoPlace source target

def writeValue (p : Path) (value : Bytes) : FileAction Unit := do
  FileAction.makeDirectories (.ofPath p.dropLast)
  replaceFile p.dropLast (.ofPath p) value

/-- Takes a file away and tells whether there was one. -/
def removeValue (n : Pathname) : FileAction Bool := do
  match (← get).removeFile n with
  | .ok t => do
    set t
    return true
  | .error .noEntry => return false
  | .error e => throw e

def removeEntry (p : Path) (name : String) : FileAction Unit :=
  FileAction.change fun t => do return t.prune (← t.resolve (.ofPath (p ++ [name]))).path

/-- Takes everything out of a directory and tells whether there was anything. -/
def clearDirectory (p : Path) : FileAction Bool := do
  match (← get).resolve (.ofPath p) with
  | .ok ⟨.directory children _, _⟩ => do
    (Assoc.keys children).forM (removeEntry p)
    return !children.isEmpty
  | .ok ⟨.file .., _⟩ => throw .notDirectory
  | .error e => throw e

/-- Takes a directory or a file away and tells whether there was one. -/
def removeTree (p : Path) : FileAction Bool := do
  let t ← get
  if t.contains (.ofPath p) then
    set (t.prune p)
    return true
  else return false

instance : Store DirectoryStore where
  get k s := s.read k
  has k s := .ok (s.tree.isFile (s.pathnameOf k))
  keysUnder base s := s.keysUnder base
  set k value := do
    requireWritable
    onTree (writeValue ((← get).pathOf k) value)
  erase k := do
    requireWritable
    onTree (removeValue ((← get).pathnameOf k))
  eraseUnder base := do
    requireWritable
    let s ← get
    if base.isRoot then onTree (clearDirectory s.root) else onTree (removeTree (s.pathOf base))

/-! ### Opening -/

/-- Makes the root if it is missing and the mode says so. -/
def ensureRoot (text : String) (mode : AccessMode) : StoreAction FileTree StoreError Unit := do
  if !(← get).contains (.ofText text) then
    if mode = .create then StoreAction.rename .file (FileAction.makeDirectories (.ofText text))
    else throw (.notFound text)

/-- The store in a directory that is there. -/
def openRoot (n : Pathname) (mode : AccessMode) (t : FileTree) :
    Except StoreError DirectoryStore := do
  let root ← (t.canonicalPath n).mapError .file
  let place ← (t.resolve n).mapError .file
  if place.node.isFile then throw (.notADirectory root.toText)
  if mode = .existing ∧ !place.node.writable then throw (.rootReadOnly root.toText)
  return ⟨root, mode, t⟩

/-- Opens a store in the directory that a text names. -/
def openAt (text : String) (mode : AccessMode) :
    StoreAction FileTree StoreError DirectoryStore := do
  ensureRoot text mode
  StoreAction.reading (openRoot (.ofText text) mode)

end DirectoryStore

end ChunkedArray
