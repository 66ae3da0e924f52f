import ChunkedArray.Json.Record
import ChunkedArray.Store.Host
import ChunkedArray.Text

/-!
# Store configurations

A store is named with a configuration, and a registry knows how to open stores by their names: one
in memory, and one in a directory, which has a root and an access mode.
-/

namespace ChunkedArray

structure StoreConfig where
  name : String
  configuration : Option Json

namespace StoreConfig

def memory : StoreConfig := ⟨"memory", none⟩

/-- A store in a directory. -/
def file (root : String) (mode : AccessMode) : StoreConfig :=
  ⟨"file", some (.ofMembers [("root", .str root), ("mode", .str mode.name)])⟩

def toRaw (c : StoreConfig) : RawJson :=
  .obj (("name", .str c.name) :: c.configuration.toList.map fun x => ("configuration", x.toRaw))

def ofRaw? (x : RawJson) : Option StoreConfig := do
  let fields ← x.fields? ["name", "configuration"]
  let name ← RawJson.required fields "name" RawJson.string?
  let configuration ←
    RawJson.defaulted fields "configuration" none (RawJson.optional? RawJson.value?)
  return ⟨name, configuration⟩

end StoreConfig

abbrev StoreOpener := Option Json → StoreAction FileTree StoreError Backend

structure StoreRegistry where
  /-- In increasing order of the names. -/
  openers : List (String × StoreOpener)

namespace StoreRegistry

def empty : StoreRegistry := ⟨[]⟩

def register (r : StoreRegistry) (name : String) (opener : StoreOpener) : StoreRegistry :=
  ⟨Json.insertMember name opener r.openers⟩

def openMemory : StoreOpener := fun _ => pure (.memory .empty)

/-- The root and the access mode in the configuration of a store in a directory. -/
def fileSettings? (x : RawJson) : Option (String × AccessMode) := do
  let fields ← x.fields? ["root", "mode"]
  let root ← RawJson.required fields "root" RawJson.string?
  let mode? (x : RawJson) : Option AccessMode := (x.caseName? false).bind AccessMode.ofName?
  return (root, ← RawJson.defaulted fields "mode" AccessMode.default mode?)

def openFile : StoreOpener := fun configuration => do
  match fileSettings? (configuration.getD .null).toRaw with
  | some (root, mode) => return .directory (← DirectoryStore.openAt root mode)
  | none => throw (.configuration "file")

/-- The registry of the stores in memory and in a directory. -/
def default : StoreRegistry := empty |>.register "memory" openMemory |>.register "file" openFile

/-- The registry in one line: the names it knows. -/
def describe (r : StoreRegistry) : String :=
  "StoreRegistry \x7b stores: " ++ Text.list (r.openers.map fun e => Text.quoted e.1) ++ " \x7d"

def openStore (r : StoreRegistry) (c : StoreConfig) : StoreAction FileTree StoreError Backend :=
  match r.openers.lookup c.name with
  | some opener => opener c.configuration
  | none => throw (.unknownStore c.name)

end StoreRegistry

end ChunkedArray
