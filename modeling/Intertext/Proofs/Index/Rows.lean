import Intertext.Index.Sync
import Intertext.Proofs.Markup.Numbering
/-!
Where the rows of the index come from.

Tables that were filled by scanning and syncing alone have no row of their own making: every
mapping and every reference was scanned from a node of a document that was read
(`Synced.scanned`). The document need not be the one that the file holds now. All syncing is made of
recording what was scanned from a file and of removing files, so what these two keep holds of all
synced tables (`Synced.holds`).
-/

namespace Intertext.Index

open Corpus (Disk)
open Markup (Document Node)

/-! ## 1. Scanned rows

A row is told by the file and the node that it was scanned from. A scan keeps the last definition of
an identifier, and so it drops rows but makes none. -/

/-- Whether a mapping was scanned from a document of its file. -/
def Mapping.Scanned (mapping : Mapping) : Prop :=
  ∃ text document, Document.parse text = .ok document ∧
    ∃ node ∈ document.nodes, mappingOf? mapping.file node = some mapping

/-- Whether a reference was scanned from a document of its file. -/
def Reference.Scanned (reference : Reference) : Prop :=
  ∃ text document, Document.parse text = .ok document ∧
    ∃ node ∈ document.nodes, reference ∈ referencesOf reference.file node

/-- What the row of a mapping tells of the node that makes it. -/
theorem mappingOf?_eq_some {file : SourceFile} {node : Node} {mapping : Mapping}
    (h : mappingOf? file node = some mapping) :
    mapping.file = file ∧ mapping.path = some node.path ∧ mapping.tag = some node.name.clark := by
  obtain ⟨urn, -, rfl⟩ := Option.map_eq_some_iff.mp h
  exact ⟨rfl, rfl, rfl⟩

/-- What the row of a reference tells of the node that makes it. -/
theorem of_mem_referencesOf {file : SourceFile} {node : Node} {reference : Reference}
    (h : reference ∈ referencesOf file node) :
    reference.file = file ∧ reference.path = node.path ∧ reference.tag = node.name.clark := by
  unfold referencesOf at h
  split at h
  · cases h
  · obtain ⟨word, -, rfl⟩ := List.mem_map.mp h
    exact ⟨rfl, rfl, rfl⟩

/-- Recording a mapping adds that mapping and no other. -/
theorem mem_of_mem_recordMapping {mappings : List Mapping} {mapping other : Mapping}
    (h : other ∈ recordMapping mappings mapping) : other ∈ mappings ∨ other = mapping := by
  rcases List.mem_append.mp h with h | h
  · exact Or.inl (List.mem_filter.mp h).1
  · exact Or.inr (List.mem_singleton.mp h)

/-- The mappings of a scan are made by nodes. -/
theorem exists_of_mem_scan_mappings {document : Document} {file : SourceFile} {mapping : Mapping}
    (h : mapping ∈ (scan document file).mappings) :
    ∃ node ∈ document.nodes, mappingOf? file node = some mapping := by
  have made : ∀ mapping ∈ (document.nodes.filterMap (mappingOf? file)).foldl recordMapping [],
      mapping ∈ document.nodes.filterMap (mappingOf? file) := by
    refine List.foldlRecOn (motive := fun recorded => ∀ mapping ∈ recorded,
      mapping ∈ document.nodes.filterMap (mappingOf? file)) _ recordMapping
      (fun mapping none => by cases none) fun recorded all next isNext mapping member => ?_
    rcases mem_of_mem_recordMapping member with member | rfl
    · exact all mapping member
    · exact isNext
  exact List.mem_filterMap.mp (made mapping h)

/-- Scanning a file finds nothing, or what is in the document that the file holds. -/
theorem scanFile_cases (disk : Disk) (base : String) (file : SourceFile) :
    scanFile disk base file = ⟨[], []⟩ ∨ ∃ bytes document,
      disk.bytes? (filePath base file) = some bytes ∧ Document.ofBytes bytes = .ok document ∧
        scanFile disk base file = scan document file := by
  unfold scanFile
  cases disk.bytes? (filePath base file) with
  | none => exact Or.inl rfl
  | some bytes =>
    dsimp only
    cases read : Document.ofBytes bytes with
    | error fault => exact Or.inl rfl
    | ok document => exact Or.inr ⟨bytes, document, rfl, read, rfl⟩

/-- The mappings that scanning a file gives were scanned. -/
theorem scanned_of_mem_scanFile_mappings {disk : Disk} {base : String} {file : SourceFile}
    {mapping : Mapping} (h : mapping ∈ (scanFile disk base file).mappings) : mapping.Scanned := by
  rcases scanFile_cases disk base file with none | ⟨bytes, document, -, read, same⟩
  · rw [none] at h
    cases h
  · obtain ⟨text, parsed⟩ := Document.exists_text_of_ofBytes read
    obtain ⟨node, isNode, made⟩ := exists_of_mem_scan_mappings (same ▸ h)
    exact ⟨text, document, parsed, node, isNode, (mappingOf?_eq_some made).1.symm ▸ made⟩

/-- The references that scanning a file gives were scanned. -/
theorem scanned_of_mem_scanFile_references {disk : Disk} {base : String} {file : SourceFile}
    {reference : Reference} (h : reference ∈ (scanFile disk base file).references) :
    reference.Scanned := by
  rcases scanFile_cases disk base file with none | ⟨bytes, document, -, read, same⟩
  · rw [none] at h
    cases h
  · obtain ⟨text, parsed⟩ := Document.exists_text_of_ofBytes read
    obtain ⟨node, isNode, made⟩ := List.mem_flatMap.mp (same ▸ h)
    exact ⟨text, document, parsed, node, isNode, (of_mem_referencesOf made).1.symm ▸ made⟩

/-! ## 2. What scanning and removing keep

Storing adds rows that were scanned or replaces others by them, and removing only takes rows away.
So neither brings in a row from elsewhere. -/

namespace Tables

variable {tables : Tables}

/-- Whether all mappings and references were scanned. -/
structure Scanned (tables : Tables) : Prop where
  mappings : ∀ row ∈ tables.mappings, row.row.Scanned
  references : ∀ row ∈ tables.references, row.row.Scanned

/-- Empty tables have no row at all. -/
theorem scanned_empty : empty.Scanned := ⟨by simp [empty], by simp [empty]⟩

/-- Replacing a row adds that row and no other. -/
theorem mem_of_mem_upsert {α : Type} {same : α → Bool} {row other : Stamped α} :
    ∀ {rows : List (Stamped α)}, other ∈ upsert same row rows → other = row ∨ other ∈ rows
  | [], h => Or.inl (List.mem_singleton.mp h)
  | first :: rest, h => by
    unfold upsert at h
    split at h
    · rcases List.mem_cons.mp h with rfl | h
      · exact Or.inl rfl
      · exact Or.inr (List.mem_cons_of_mem _ h)
    · rcases List.mem_cons.mp h with rfl | h
      · exact Or.inr List.mem_cons_self
      · exact (mem_of_mem_upsert h).imp_right (List.mem_cons_of_mem _)

/-- Recording a scanned mapping keeps the tables so. -/
theorem Scanned.addMapping (scanned : tables.Scanned) (now : Nat) {mapping : Mapping}
    (found : mapping.Scanned) : (tables.addMapping now mapping).Scanned := by
  refine ⟨fun row member => ?_, scanned.references⟩
  rcases mem_of_mem_upsert member with rfl | member
  · exact found
  · exact scanned.mappings row member

/-- Recording a scanned reference keeps the tables so. -/
theorem Scanned.addReference (scanned : tables.Scanned) (now : Nat) {reference : Reference}
    (found : reference.Scanned) : (tables.addReference now reference).Scanned := by
  refine ⟨scanned.mappings, ?_⟩
  intro row member
  rcases List.mem_append.mp member with member | member
  · exact scanned.references row member
  · cases List.mem_singleton.mp member
    exact found

/-- Removing rows keeps the tables so. -/
theorem Scanned.removeWhere (scanned : tables.Scanned) (p : SourceFile → Bool) :
    (tables.removeWhere p).Scanned :=
  ⟨fun row member => scanned.mappings row (List.mem_filter.mp member).1,
    fun row member => scanned.references row (List.mem_filter.mp member).1⟩

/-- Indexing a file keeps the tables so. -/
theorem Scanned.indexFile (scanned : tables.Scanned) (disk : Disk) (now : Nat) (base : String)
    (file : SourceFile) : (tables.indexFile disk now base file).2.Scanned := by
  have mapped :
      ((scanFile disk base file).mappings.foldl (Tables.addMapping · now) tables).Scanned :=
    List.foldlRecOn _ _ scanned fun _ before _ member =>
      before.addMapping now (scanned_of_mem_scanFile_mappings member)
  have referred : ((scanFile disk base file).references.foldl (Tables.addReference · now)
      ((scanFile disk base file).mappings.foldl (Tables.addMapping · now) tables)).Scanned :=
    List.foldlRecOn _ _ mapped fun _ before _ member =>
      before.addReference now (scanned_of_mem_scanFile_references member)
  exact ⟨referred.mappings, referred.references⟩

/-! ## 3. Synced tables

Every operation that syncs is made of scans and removals, one after another. What both keep is
therefore kept by all of them, and it is enough to show that of the two. -/

/-- Tables that were filled by scanning and syncing alone, whatever was on disk at the time. -/
inductive Synced : Tables → Prop where
  | empty : Synced .empty
  | indexFiles {tables : Tables} (before : Synced tables) (disk : Disk) (now : Nat)
    (base project : String) (names : List String) :
    Synced (tables.indexFiles disk now base project names).2
  | syncFile {tables : Tables} (before : Synced tables) (disk : Disk) (now : Nat) (base : String)
    (file : SourceFile) : Synced (tables.syncFile disk now base file).2
  | syncProject {tables : Tables} (before : Synced tables) (disk : Disk) (now : Nat)
    (base project : String) : Synced (tables.syncProject disk now base project).2
  | syncCorpus {tables : Tables} (before : Synced tables) (disk : Disk) (now : Nat) (base : String)
    (projects : List String) : Synced (tables.syncCorpus disk now base projects).2

/-- Whether a property of tables is kept by what syncing is made of: recording what was scanned from
a file, and removing the rows of files. -/
structure Kept (P : Tables → Prop) : Prop where
  index : ∀ {tables : Tables}, P tables → ∀ disk now base file,
    P (tables.indexFile disk now base file).2
  remove : ∀ {tables : Tables}, P tables → ∀ p, P (tables.removeWhere p)

section Kept

variable {P : Tables → Prop}

theorem Kept.indexFiles (kept : Kept P) (holds : P tables) (disk : Disk) (now : Nat)
    (base project : String) (names : List String) :
    P (tables.indexFiles disk now base project names).2 := by
  unfold Tables.indexFiles
  exact List.foldlRecOn (motive := fun (state : Nat × Tables) => P state.2) names _ holds
    fun _ before name _ => kept.index before disk now base ⟨project, name⟩

theorem Kept.syncFile (kept : Kept P) (holds : P tables) (disk : Disk) (now : Nat) (base : String)
    (file : SourceFile) : P (tables.syncFile disk now base file).2 := by
  unfold Tables.syncFile
  split
  · exact kept.remove holds (· = file)
  · split
    · exact kept.index holds ..
    · split
      · exact kept.index (kept.remove holds (· = file)) disk now base file
      · exact holds

theorem Kept.syncFiles (kept : Kept P) (holds : P tables) (disk : Disk) (now : Nat)
    (base project : String) (names : List String) (totals : Totals) :
    P (tables.syncFiles disk now base project names totals).2 := by
  unfold Tables.syncFiles
  exact List.foldlRecOn (motive := fun (state : Totals × Tables) => P state.2) names _ holds
    fun _ before name _ => kept.syncFile before disk now base ⟨project, name⟩

theorem Kept.syncProject (kept : Kept P) (holds : P tables) (disk : Disk) (now : Nat)
    (base project : String) : P (tables.syncProject disk now base project).2 := by
  unfold Tables.syncProject
  split
  · exact kept.remove holds (·.project = project)
  · exact kept.syncFiles (kept.syncFiles holds ..) ..

theorem Kept.syncCorpus (kept : Kept P) (holds : P tables) (disk : Disk) (now : Nat)
    (base : String) (projects : List String) :
    P (tables.syncCorpus disk now base projects).2 := by
  have removed (orphans : List String) : P (tables.removeProjects orphans).2 := by
    unfold Tables.removeProjects
    refine List.foldlRecOn (motive := fun (state : Nat × Tables) => P state.2) orphans _ holds ?_
    intro _ before project _
    exact kept.remove before (·.project = project)
  unfold Tables.syncCorpus Tables.syncProjects
  refine List.foldlRecOn (motive := fun (state : CorpusSync × Tables) => P state.2) projects _
    (removed _) ?_
  intro _ before project _
  exact kept.syncProject before disk now base project

/-- What holds of empty tables and is kept by the steps of syncing holds of synced tables. -/
theorem Synced.holds (synced : tables.Synced) (kept : Kept P) (start : P .empty) : P tables := by
  induction synced with
  | empty => exact start
  | indexFiles before disk now base project names ih => exact kept.indexFiles ih ..
  | syncFile before disk now base file ih => exact kept.syncFile ih ..
  | syncProject before disk now base project ih => exact kept.syncProject ih ..
  | syncCorpus before disk now base projects ih => exact kept.syncCorpus ih ..

end Kept

/-- Every row of synced tables was scanned from a document that was read. -/
theorem Synced.scanned (synced : tables.Synced) : tables.Scanned :=
  synced.holds ⟨Scanned.indexFile, Scanned.removeWhere⟩ scanned_empty

end Tables

end Intertext.Index
