import Intertext.Index.Row
import Intertext.Text.Order
/-!
The tables of the index.

There are three: where identifiers are defined, what refers to what, and when each file was last
scanned. A project defines an identifier once; a later definition takes the place of the earlier
one. References are kept in the order in which they were recorded, and the answers of every query
have a fixed order. Every row has the time at which it was written, so that it can be told whether a
file was changed after it was last recorded.
-/

namespace Intertext.Index

/-- A row and the time at which it was written. -/
structure Stamped (α : Type) where
  row : α
  stamp : Nat
deriving DecidableEq, Repr

/-- The tables of the index. -/
structure Tables where
  mappings : List (Stamped Mapping)
  references : List (Stamped Reference)
  ledger : List (Stamped SourceFile)
deriving DecidableEq, Repr

namespace Tables

/-- Tables without rows. -/
def empty : Tables := ⟨[], [], []⟩

/-! ## 1. Writing -/

/-- Puts a row in the place of the first one with the same key, or else at the end. -/
def upsert {α : Type} (same : α → Bool) (row : Stamped α) : List (Stamped α) → List (Stamped α)
  | [] => [row]
  | old :: rest => if same old.row then row :: rest else old :: upsert same row rest

/-- Whether two mappings are the claim of one project to one identifier. -/
def sameClaim (a b : Mapping) : Bool := a.urn = b.urn && a.file.project = b.file.project

/-- Records a definition in place of the project's earlier one. -/
def addMapping (tables : Tables) (now : Nat) (mapping : Mapping) : Tables :=
  { tables with mappings := upsert (sameClaim mapping) ⟨mapping, now⟩ tables.mappings }

/-- Records a reference after all others. -/
def addReference (tables : Tables) (now : Nat) (reference : Reference) : Tables :=
  { tables with references := tables.references ++ [⟨reference, now⟩] }

/-- Records that a file was scanned. -/
def addFile (tables : Tables) (now : Nat) (file : SourceFile) : Tables :=
  { tables with ledger := upsert (· = file) ⟨file, now⟩ tables.ledger }

/-- Records everything scanned from one file, and the file itself. -/
def storeFile (tables : Tables) (now : Nat) (file : SourceFile) (mappings : List Mapping)
    (references : List Reference) : Tables :=
  let tables := mappings.foldl (addMapping · now) tables
  let tables := references.foldl (addReference · now) tables
  tables.addFile now file

/-! ## 2. Removing -/

/-- How many mappings and references belong to the files with a property. -/
def countWhere (tables : Tables) (p : SourceFile → Bool) : Nat :=
  tables.mappings.countP (p ·.row.file) + tables.references.countP (p ·.row.file)

/-- Removes every row of the files with a property. -/
def removeWhere (tables : Tables) (p : SourceFile → Bool) : Tables where
  mappings := tables.mappings.filter (!p ·.row.file)
  references := tables.references.filter (!p ·.row.file)
  ledger := tables.ledger.filter (!p ·.row)

/-- Removes every row of a file; the number counts mappings and references. -/
def removeFile (tables : Tables) (file : SourceFile) : Nat × Tables :=
  (tables.countWhere (· = file), tables.removeWhere (· = file))

/-- Removes every row of a project; the number counts mappings and references. -/
def removeProject (tables : Tables) (project : String) : Nat × Tables :=
  (tables.countWhere (·.project = project), tables.removeWhere (·.project = project))

/-! ## 3. Asking for rows -/

/-- The definitions of an identifier, or of all, in one project or in all: by project, then by
identifier. -/
def mappingsOf (tables : Tables) (urn project : Option String) : List Mapping :=
  ((tables.mappings.map (·.row)).filter fun mapping =>
      urn.all (mapping.urn = ·) && project.all (mapping.file.project = ·))
    |>.mergeSort fun a b => Text.lePair (a.file.project, a.urn) (b.file.project, b.urn)

/-- The identifiers a project defines, in order. -/
def urns (tables : Tables) (project : String) : List String :=
  (tables.mappingsOf none (some project)).map (·.urn)

/-- The references with a property: by project, then by file, then as they were recorded. -/
def referencesWhere (tables : Tables) (p : Reference → Bool) : List Reference :=
  ((tables.references.map (·.row)).filter p).mergeSort fun a b =>
    Text.lePair (a.file.project, a.file.name) (b.file.project, b.file.name)

/-- Whether two references are made by one element. -/
def sameElement (a b : Reference) : Bool := a.file = b.file && a.path = b.path

/-- Adds the references of elements that have none in the list yet. -/
def addNew (found : List Reference) (more : List Reference) : List Reference :=
  more.foldl (fun found reference =>
    if found.any (sameElement reference) then found else found ++ [reference]) found

/-- A name within a file as a target; a hash sign in front may be given or not. -/
def fragmentTarget (id : String) : String :=
  if id.toList.head? = some '#' then id else "#" ++ id

/-- The references to an identifier, and after them those that name a fragment from within its
file. An element found by its identifier is not found again by the fragment. -/
def referencesTo (tables : Tables) (urn : Option String) (fragment : Option (String × SourceFile)) :
    List Reference :=
  let byUrn :=
    match urn with
    | some urn => tables.referencesWhere (·.targetStart = urn)
    | none => []
  match fragment with
  | some (id, file) =>
    addNew byUrn (tables.referencesWhere fun reference =>
      reference.targetStart = fragmentTarget id && reference.isLocal && reference.file = file)
  | none => byUrn

/-- The references of a project: by the path of the element, then as they were recorded. -/
def projectReferences (tables : Tables) (project : String) : List Reference :=
  ((tables.references.map (·.row)).filter (·.file.project = project)).mergeSort fun a b =>
    Text.le a.path b.path

/-! ## 4. Asking for files -/

/-- The file of every row. -/
def rowFiles (tables : Tables) : List SourceFile :=
  tables.mappings.map (·.row.file) ++ tables.references.map (·.row.file) ++
    tables.ledger.map (·.row)

/-- The projects with any row, in order. -/
def projects (tables : Tables) : List String :=
  Text.sortedDistinct (tables.rowFiles.map (·.project))

/-- The files of a project with any row, in order. -/
def files (tables : Tables) (project : String) : List String :=
  Text.sortedDistinct ((tables.rowFiles.filter (·.project = project)).map (·.name))

/-- The file of every row, with the time the row was written. -/
def stamps (tables : Tables) : List (SourceFile × Nat) :=
  tables.mappings.map (fun row => (row.row.file, row.stamp)) ++
    tables.references.map (fun row => (row.row.file, row.stamp)) ++
    tables.ledger.map (fun row => (row.row, row.stamp))

/-- When a file was last recorded, if ever. -/
def lastIndexed? (tables : Tables) (file : SourceFile) : Option Nat :=
  ((tables.stamps.filter (·.1 = file)).map (·.2)).max?

/-- How much is recorded of a project. -/
structure Stats where
  project : String
  files : Nat
  urns : Nat
  references : Nat
deriving DecidableEq, Repr

def stats (tables : Tables) (project : String) : Stats where
  project := project
  files := (tables.files project).length
  urns := tables.mappings.countP (·.row.file.project = project)
  references := tables.references.countP (·.row.file.project = project)

end Tables

end Intertext.Index
