import Intertext.Corpus.Disk
import Intertext.Index.Fault
import Intertext.Index.Scan
import Intertext.Index.Tables
import Intertext.Markup.Reader
/-!
Keeping the index in step with the corpus.

The corpus is a folder with one folder for each project, and the files of a project are those right
inside its folder whose extension is `xml`. Syncing a file scans it if it is new or was changed
after it was last recorded, and removes its rows if it is gone. Syncing a project does so for every
file it has or is known to have had; syncing the corpus does so for every project, and removes the
rows of projects that are gone. A file that is no document is recorded without rows.
-/

namespace Intertext.Index

open Corpus

/-! ## 1. Reports -/

/-- What syncing did to a file. -/
inductive FileAction where
  | added
  | updated
  | removed
  | skipped
deriving DecidableEq, Repr

def FileAction.label : FileAction → String
  | added => "added"
  | updated => "updated"
  | removed => "removed"
  | skipped => "skipped"

/-- What syncing did to a file, and how many rows it wrote or removed. -/
structure FileSync where
  action : FileAction
  rows : Nat
deriving DecidableEq, Repr

/-- Totals of syncing: rows, and of what was skipped, files. -/
structure Totals where
  added : Nat
  updated : Nat
  removed : Nat
  skipped : Nat
deriving DecidableEq, Repr

namespace Totals

def zero : Totals := ⟨0, 0, 0, 0⟩

def add (a b : Totals) : Totals :=
  ⟨a.added + b.added, a.updated + b.updated, a.removed + b.removed, a.skipped + b.skipped⟩

/-- Counts what syncing did to a file. -/
def record (totals : Totals) (file : FileSync) : Totals :=
  match file.action with
  | .added => { totals with added := totals.added + file.rows }
  | .updated => { totals with updated := totals.updated + file.rows }
  | .removed => { totals with removed := totals.removed + file.rows }
  | .skipped => { totals with skipped := totals.skipped + 1 }

end Totals

/-- What syncing did to a project. -/
structure ProjectSync where
  /-- The project is gone, and its rows were removed. -/
  gone : Bool
  totals : Totals
deriving DecidableEq, Repr

def ProjectSync.label (project : ProjectSync) : String :=
  if project.gone then "removed" else "synced"

/-- What syncing did to the corpus. -/
structure CorpusSync where
  totals : Totals
  /-- How many projects were known that are gone. -/
  orphans : Nat
  /-- The projects there are, in order. -/
  projects : List (String × ProjectSync)
deriving DecidableEq, Repr

/-! ## 2. The corpus -/

/-- The folder of a project. -/
def projectPath (base project : String) : String := Path.join base project

/-- The path of a file. -/
def filePath (base : String) (file : SourceFile) : String :=
  Path.join (projectPath base file.project) file.name

/-- What is in a folder that must be there. -/
def listFolder (disk : Disk) (path : String) : Except Fault (List (String × Entry)) :=
  if !disk.pathExists path then .error (.missingFolder path)
  else
    match disk.list? path with
    | some entries => .ok entries
    | none => .error (.notFolder path)

/-- The names of the files of a corpus right inside a folder, in order. -/
def sourceNames (entries : List (String × Entry)) : List String :=
  ((entries.filter fun (name, entry) => entry.isFile && Path.hasExtension "xml" name).map
    (·.1)).mergeSort Text.le

/-- The names of the projects in a folder, in order. -/
def projectNames (entries : List (String × Entry)) : List String :=
  ((entries.filter fun (name, entry) => entry.isFolder && !Path.isHidden name).map
    (·.1)).mergeSort Text.le

/-- The names of the files of a project, in order. -/
def projectFiles (disk : Disk) (base project : String) : Except Fault (List String) :=
  (listFolder disk (projectPath base project)).map sourceNames

/-- The names of the projects of a corpus, in order. -/
def corpusProjects (disk : Disk) (base : String) : Except Fault (List String) :=
  (listFolder disk base).map projectNames

/-- What a file contributes; nothing if it is no document. -/
def scanFile (disk : Disk) (base : String) (file : SourceFile) : Scan :=
  match disk.bytes? (filePath base file) with
  | none => ⟨[], []⟩
  | some bytes =>
    match Markup.Document.ofBytes bytes with
    | .ok document => scan document file
    | .error _ => ⟨[], []⟩

/-! ## 3. Indexing and syncing -/

namespace Tables

/-- Scans a file into the index; the number counts the rows written. Rows the file had before stay,
but for the identifiers it defines again. -/
def indexFile (tables : Tables) (disk : Disk) (now : Nat) (base : String) (file : SourceFile) :
    Nat × Tables :=
  let found := scanFile disk base file
  (found.mappings.length + found.references.length,
    tables.storeFile now file found.mappings found.references)

/-- Scans files of a project in order. -/
def indexFiles (tables : Tables) (disk : Disk) (now : Nat) (base project : String)
    (names : List String) : Nat × Tables :=
  names.foldl (fun (count, tables) name =>
    let (rows, tables) := tables.indexFile disk now base ⟨project, name⟩
    (count + rows, tables)) (0, tables)

/-- Brings one file of the index up to date. -/
def syncFile (tables : Tables) (disk : Disk) (now : Nat) (base : String) (file : SourceFile) :
    FileSync × Tables :=
  match disk.modified? (filePath base file) with
  | none =>
    let (rows, tables) := tables.removeFile file
    (⟨.removed, rows⟩, tables)
  | some modified =>
    match tables.lastIndexed? file with
    | none =>
      let (rows, tables) := tables.indexFile disk now base file
      (⟨.added, rows⟩, tables)
    | some indexed =>
      if indexed < modified then
        let (rows, tables) := (tables.removeFile file).2.indexFile disk now base file
        (⟨.updated, rows⟩, tables)
      else (⟨.skipped, 0⟩, tables)

/-- Whether a file is there and was recorded after its last change. -/
def isCurrentFile (tables : Tables) (disk : Disk) (base : String) (file : SourceFile) : Bool :=
  match disk.modified? (filePath base file), tables.lastIndexed? file with
  | some modified, some indexed => modified ≤ indexed
  | _, _ => false

/-- Brings files of a project up to date in order, and counts what was done. -/
def syncFiles (tables : Tables) (disk : Disk) (now : Nat) (base project : String)
    (names : List String) (totals : Totals) : Totals × Tables :=
  names.foldl (fun (totals, tables) name =>
    let (file, tables) := tables.syncFile disk now base ⟨project, name⟩
    (totals.record file, tables)) (totals, tables)

/-- The files of a project that are known but gone from its folder, given those that are there. -/
def goneFiles (tables : Tables) (project : String) (names : List String) : List String :=
  (tables.files project).filter (· ∉ names)

/-- Whether a project is there and all its files, and all it was known to have, are up to date. -/
def isCurrentProject (tables : Tables) (disk : Disk) (base project : String) : Bool :=
  match disk.list? (projectPath base project) with
  | none => false
  | some entries =>
    let names := sourceNames entries
    (tables.goneFiles project names ++ names).all fun name =>
      tables.isCurrentFile disk base ⟨project, name⟩

/-- Brings a project up to date: first the files that are known but gone, then those that are
there. -/
def syncProject (tables : Tables) (disk : Disk) (now : Nat) (base project : String) :
    ProjectSync × Tables :=
  match disk.list? (projectPath base project) with
  | none =>
    let (rows, tables) := tables.removeProject project
    (⟨true, { Totals.zero with removed := rows }⟩, tables)
  | some entries =>
    let names := sourceNames entries
    let gone := tables.goneFiles project names
    let (totals, tables) := tables.syncFiles disk now base project gone Totals.zero
    let (totals, tables) := tables.syncFiles disk now base project names totals
    (⟨false, totals⟩, tables)

/-- Whether no other projects are known, and all projects are up to date. -/
def isCurrentCorpus (tables : Tables) (disk : Disk) (base : String) (projects : List String) :
    Bool :=
  tables.projects.all (· ∈ projects) && projects.all (tables.isCurrentProject disk base)

/-- Removes the rows of projects in order. -/
def removeProjects (tables : Tables) (projects : List String) : Nat × Tables :=
  projects.foldl (fun (count, tables) project =>
    let (rows, tables) := tables.removeProject project
    (count + rows, tables)) (0, tables)

/-- Brings projects up to date in order, and adds up what was done. -/
def syncProjects (tables : Tables) (disk : Disk) (now : Nat) (base : String)
    (projects : List String) (report : CorpusSync) : CorpusSync × Tables :=
  projects.foldl (fun (report, tables) project =>
    let (synced, tables) := tables.syncProject disk now base project
    ({ report with
        totals := report.totals.add synced.totals
        projects := report.projects ++ [(project, synced)] }, tables)) (report, tables)

/-- Brings the index up to date with a corpus that has those projects. -/
def syncCorpus (tables : Tables) (disk : Disk) (now : Nat) (base : String)
    (projects : List String) : CorpusSync × Tables :=
  let orphans := tables.projects.filter (· ∉ projects)
  let (rows, tables) := tables.removeProjects orphans
  tables.syncProjects disk now base projects
    ⟨{ Totals.zero with removed := rows }, orphans.length, []⟩

end Tables

end Intertext.Index
