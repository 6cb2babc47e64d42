import Intertext.Compile.Library
import Intertext.Store
import Intertext.Store.Address
/-!
Workspaces.

A workspace is a disk together with the stores that are kept on it, and the store that is open: a
file, or one that is only remembered. The open store can be asked, and it can be changed unless it
was opened to be looked at. A file that holds something else is no store.
-/

namespace Intertext

open Corpus
open Index (Tables Fault)
open Store (Opening)

/-- A store that is kept in a file. -/
structure KeptStore where
  store : Store
  /-- Changes are noted beside the file first, of which others must be told. -/
  noted : Bool

/-- Where the open store is. -/
inductive StorePlace where
  /-- In the file that names lead to. -/
  | file (names : List String)
  /-- Nowhere: it is only remembered, perhaps under a name of the medium. -/
  | memory (name : Option (Store.Medium × String))
deriving DecidableEq, Repr

/-- A disk, the stores kept on it, and the open store. -/
structure Workspace where
  disk : Disk
  /-- The stores kept in files, each with the names that lead to its file. -/
  kept : List (List String × KeptStore)
  place : StorePlace
  /-- The store that is only remembered, if it is open. -/
  remembered : Store
  /-- Whether the open store can be changed. -/
  changeable : Bool

namespace Workspace

/-- A workspace whose open store is a blank one that is only remembered. -/
def ofDisk (disk : Disk) : Workspace := ⟨disk, [], .memory none, .blank, true⟩

/-! ## 1. The open store -/

/-- The open store. -/
def store (workspace : Workspace) : Store :=
  match workspace.place with
  | .memory _ => workspace.remembered
  | .file names => ((workspace.kept.lookup names).map (·.store)).getD .blank

/-- Keeps a store in a place, instead of the one that is kept there. -/
def keepAt (names : List String) (store : KeptStore) (kept : List (List String × KeptStore)) :
    List (List String × KeptStore) :=
  (names, store) :: kept.filter (·.1 ≠ names)

/-- Puts a store in the place of the open one. -/
def setStore (workspace : Workspace) (store : Store) : Workspace :=
  match workspace.place with
  | .memory _ => { workspace with remembered := store }
  | .file names =>
    let noted := (workspace.kept.lookup names).any (·.noted)
    { workspace with kept := keepAt names ⟨store, noted⟩ workspace.kept }

/-- Gives the open store tables, if it has none. -/
def prepare (workspace : Workspace) : Except Fault Workspace :=
  if workspace.store.isSome then .ok workspace
  else if workspace.changeable then .ok (workspace.setStore workspace.store.prepare)
  else .error (.store .fixed)

/-- Writes to the tables of the open store. -/
def change {α : Type} (workspace : Workspace) (write : Tables → α × Tables) :
    Except Fault (α × Workspace) := do
  let tables ← workspace.store.tables
  if !workspace.changeable then throw (.store .fixed)
  let (value, tables) := write tables
  return (value, workspace.setStore (some tables))

/-- Writes what is out of date to the tables of the open store. A store that cannot be changed has
to be up to date. -/
def update {α : Type} (workspace : Workspace) (isCurrent : Tables → Bool)
    (write : Tables → α × Tables) : Except Fault (α × Workspace) := do
  let tables ← workspace.store.tables
  if !workspace.changeable && isCurrent tables then return ((write tables).1, workspace)
  workspace.change write

/-! ## 2. The index -/

/-- Scans a file into the open store. -/
def indexFile (workspace : Workspace) (now : Nat) (base : String) (file : SourceFile) :
    Except Fault (Nat × Workspace) :=
  workspace.change (·.indexFile workspace.disk now base file)

/-- Scans all files of a project into the open store; where there are none, the store is not looked
at. -/
def indexProject (workspace : Workspace) (now : Nat) (base project : String) :
    Except Fault (Nat × Workspace) := do
  let names ← Index.projectFiles workspace.disk base project
  if names.isEmpty then return (0, workspace)
  workspace.change (·.indexFiles workspace.disk now base project names)

/-- Brings a file of the open store up to date. -/
def syncFile (workspace : Workspace) (now : Nat) (base : String) (file : SourceFile) :
    Except Fault (Index.FileSync × Workspace) :=
  workspace.update (·.isCurrentFile workspace.disk base file)
    (·.syncFile workspace.disk now base file)

/-- Brings a project of the open store up to date. -/
def syncProject (workspace : Workspace) (now : Nat) (base project : String) :
    Except Fault (Index.ProjectSync × Workspace) :=
  workspace.update (·.isCurrentProject workspace.disk base project)
    (·.syncProject workspace.disk now base project)

/-- Brings the open store up to date with a corpus. -/
def syncCorpus (workspace : Workspace) (now : Nat) (base : String) :
    Except Fault (Index.CorpusSync × Workspace) := do
  let projects ← Index.corpusProjects workspace.disk base
  workspace.update (·.isCurrentCorpus workspace.disk base projects)
    (·.syncCorpus workspace.disk now base projects)

/-- What a compilation works on. -/
def library (workspace : Workspace) (cache : Compile.Cache) (settings : Settings) (base : String) :
    Compile.Library :=
  ⟨settings, workspace.store, cache.document workspace.disk base⟩

/-! ## 3. Opening stores -/

/-- Opens a store that is only remembered: a blank one, or the open one if it has the name. -/
def openRemembered (workspace : Workspace) (name : Option (Store.Medium × String))
    (changeable : Bool) : Workspace :=
  if name.isSome && workspace.place = .memory name then workspace
  else { workspace with place := .memory name, remembered := .blank, changeable }

/-- What stands in the file of a store that is kept here. It is no text. -/
def storeMark : ByteArray := ⟨#[0x73, 0x74, 0x6f, 0x72, 0x65, 0xff]⟩

/-- How many bytes the name of a store's file can have: beside it there must be room for files whose
names are a little longer. -/
def storeNameLimit : Nat := 247

/-- How many bytes the path of a store's file can have. -/
def storePathLimit : Nat := 504

/-- Looks for a store in the file that names lead to; there is none yet in a file without contents,
or in one that is to be made. -/
def findStore (workspace : Workspace) (names : List String) (opening : Opening) :
    Except StoreFault (Option KeptStore) :=
  if opening.sample.any (!workspace.disk.pathExists ·) then .error .unreadable
  else
    match workspace.disk.entryAt names with
    | none =>
      if opening.mode = .create && workspace.disk.folderAt names.dropLast then .ok none
      else .error (.unopened opening.name)
    | some (.folder _) =>
      .error (if opening.mode = .look then .unreadable else .unopened opening.name)
    | some (.file bytes _) =>
      if bytes.isEmpty then .ok none
      else if bytes.data = storeMark.data then .ok (workspace.kept.lookup names)
      else .error .foreign

/-- Keeps a store in the file that names lead to. -/
def keep (workspace : Workspace) (names : List String) (store : KeptStore) : Workspace :=
  { workspace with
    disk := workspace.disk.putAt names (.file storeMark 0)
    kept := keepAt names store workspace.kept }

/-- Opens a store that is kept in a file. If it can be changed, a new store begins there, and the
way in which changes are made is that of this opening from then on. -/
def openFile (workspace : Workspace) (names : List String) (opening : Opening) :
    Except StoreFault Workspace := do
  if names.getLast?.any (storeNameLimit < ·.utf8ByteSize) ∨
      storePathLimit < (Path.ofNames names).utf8ByteSize then throw (.unopened opening.name)
  let found ← workspace.findStore names opening
  let opened := { workspace with place := .file names, changeable := opening.isChangeable }
  if found.any (·.noted) then
    if opening.isNoted || opening.still then return opened
    else throw .unshared
  else if opening.isNoted && opening.mode = .look then throw .fixed
  else if opening.isChangeable then
    return opened.keep names ⟨(found.map (·.store)).getD .blank, opening.isNoted⟩
  else if found.isSome then return opened
  else return { opened with disk := opened.disk.putAt names (.file .empty 0) }

/-- Opens a store. -/
def openWith (workspace : Workspace) (opening : Opening) : Except StoreFault Workspace :=
  if opening.isKept then workspace.openFile (Path.names opening.path) opening
  else
    let name := if opening.isShared then some (opening.medium, opening.path) else none
    .ok (workspace.openRemembered name opening.isChangeable)

/-- Opens the store with an address, making folders on the way to it; those stay if it cannot be
opened. The way to a store is read off its address as it is written. -/
def openAt (workspace : Workspace) (address : String) : Except Fault Unit × Workspace :=
  let (reached, disk) := workspace.disk.reach (Path.folder address)
  let paved := { workspace with disk }
  match reached with
  | .error fault => (.error (.unmade fault), paved)
  | .ok () =>
    match (Opening.ofText address).bind paved.openWith with
    | .ok opened => (.ok (), opened)
    | .error fault => (.error (.store fault), paved)

end Workspace

end Intertext
