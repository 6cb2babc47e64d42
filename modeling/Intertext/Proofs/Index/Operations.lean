import Intertext.Proofs.Index.Turns
/-!
Whatever is done to the index.

Rows can be entered one by one, what was scanned from a file can be stored, and the rows of a file
or of a project can be removed. After any such operations, in any order and at any times, a project
has one definition of an identifier at most. It is the one that was written last, if it was not
removed since (`mem_mappings_run`). Writing leaves every row as it was and where it was, but for the
definitions that are claimed again and the entry of the file in the ledger
(`keepsOthers_storeFile`); removing takes the rows of its files and leaves all others in their order
(`removesOnly_removeWhere`). The projects and files that are listed are those of the rows that there
are, and those are the files for which a time is known (`mem_projects_iff`, `mem_files_iff`).
-/

namespace Intertext.Index

open Tables (claimOf sameClaim sameClaim_eq upsert)

/-! ## 1. Operations -/

/-- What can be done to the tables. -/
inductive Operation where
  | addMapping (mapping : Mapping)
  | addReference (reference : Reference)
  | storeFile (file : SourceFile) (mappings : List Mapping) (references : List Reference)
  | removeFile (file : SourceFile)
  | removeProject (project : String)
deriving DecidableEq, Repr

namespace Tables

variable {tables : Tables}

/-- Performs an operation. -/
def perform (tables : Tables) (now : Nat) : Operation → Tables
  | .addMapping mapping => tables.addMapping now mapping
  | .addReference reference => tables.addReference now reference
  | .storeFile file mappings references => tables.storeFile now file mappings references
  | .removeFile file => (tables.removeFile file).2
  | .removeProject project => (tables.removeProject project).2

/-- The tables after some operations, each at its time. -/
def run (history : List (Nat × Operation)) : Tables :=
  history.foldl (fun tables item => tables.perform item.1 item.2) .empty

theorem Keyed.perform (keyed : tables.Keyed) (now : Nat) :
    ∀ operation, (tables.perform now operation).Keyed
  | .addMapping mapping => keyed.addMapping now mapping
  | .addReference _ => ⟨keyed.claims, keyed.files⟩
  | .storeFile file mappings references => keyed.storeFile now file mappings references
  | .removeFile file => keyed.removeWhere (· = file)
  | .removeProject project => keyed.removeWhere (·.project = project)

theorem keyed_run (history : List (Nat × Operation)) : (run history).Keyed :=
  List.foldlRecOn history _ keyed_empty fun _ keyed item _ => keyed.perform item.1 item.2

/-! ## 2. The last definition that was written -/

end Tables

/-- What can happen to the definitions: a row is written, or those of some files are removed. -/
inductive Change where
  | write (row : Stamped Mapping)
  | remove (files : SourceFile → Bool)

namespace Change

/-- The definitions after a change. -/
def apply (rows : List (Stamped Mapping)) : Change → List (Stamped Mapping)
  | write row => upsert (sameClaim row.row) row rows
  | remove files => rows.filter (!files ·.row.file)

/-- Whether a change leaves a definition as it is: it writes none of the same claim, and it does not
remove those of the file. -/
def Spares (row : Stamped Mapping) : Change → Prop
  | write other => claimOf other.row ≠ claimOf row.row
  | remove files => files row.row.file = false

variable {rows : List (Stamped Mapping)} {row : Stamped Mapping} {change : Change}

theorem nodup_apply (distinct : (rows.map fun row => claimOf row.row).Nodup) (change : Change) :
    ((change.apply rows).map fun row => claimOf row.row).Nodup := by
  cases change with
  | write row =>
    rw [apply, sameClaim_eq]
    exact Tables.nodup_upsert distinct
  | remove files => exact distinct.sublist (List.filter_sublist.map _)

theorem mem_apply (distinct : (rows.map fun row => claimOf row.row).Nodup) :
    row ∈ change.apply rows ↔ change = write row ∨ row ∈ rows ∧ change.Spares row := by
  cases change with
  | write other =>
    rw [apply, sameClaim_eq, Tables.mem_upsert_iff distinct, write.injEq, eq_comm]
    rfl
  | remove files => simp [apply, Spares]

/-- A definition is there after some changes if it was written and spared from then on, or if it was
there and was spared by all of them. -/
theorem mem_foldl_apply : ∀ {changes : List Change} {rows : List (Stamped Mapping)},
    (rows.map fun row => claimOf row.row).Nodup →
      (row ∈ changes.foldl apply rows ↔
        (∃ before after, changes = before ++ write row :: after ∧
          ∀ change ∈ after, change.Spares row) ∨
        row ∈ rows ∧ ∀ change ∈ changes, change.Spares row)
  | [], rows, _ => by simp
  | first :: rest, rows, distinct => by
    -- A row is there if some write of it was spared by all that follows, be it in the rest or at
    -- the start.
    rw [List.foldl_cons, mem_foldl_apply (nodup_apply distinct first), mem_apply distinct]
    constructor
    · rintro (⟨before, after, rfl, spared⟩ | ⟨rfl | ⟨isThere, isSpared⟩, spared⟩)
      · exact Or.inl ⟨first :: before, after, rfl, spared⟩
      · exact Or.inl ⟨[], rest, rfl, spared⟩
      · exact Or.inr ⟨isThere, List.forall_mem_cons.mpr ⟨isSpared, spared⟩⟩
    · rintro (⟨before, after, whole, spared⟩ | ⟨isThere, spared⟩)
      · cases before with
        | nil =>
          obtain ⟨rfl, rfl⟩ := List.cons.inj whole
          exact Or.inr ⟨Or.inl rfl, spared⟩
        | cons _ before =>
          obtain ⟨rfl, rfl⟩ := List.cons.inj whole
          exact Or.inl ⟨before, after, rfl, spared⟩
      · obtain ⟨isSpared, spared⟩ := List.forall_mem_cons.mp spared
        exact Or.inr ⟨Or.inr ⟨isThere, isSpared⟩, spared⟩

end Change

/-- What an operation does to the definitions, in order. -/
def Operation.changes (now : Nat) : Operation → List Change
  | addMapping mapping => [.write ⟨mapping, now⟩]
  | addReference _ => []
  | storeFile _ mappings _ => mappings.map fun mapping => .write ⟨mapping, now⟩
  | removeFile file => [.remove (· = file)]
  | removeProject project => [.remove (·.project = project)]

/-- What operations do to the definitions, in order. -/
def changesOf (history : List (Nat × Operation)) : List Change :=
  history.flatMap fun item => item.2.changes item.1

namespace Tables

variable {tables : Tables}

theorem mappings_addMappings (now : Nat) (mappings : List Mapping) (tables : Tables) :
    (mappings.foldl (addMapping · now) tables).mappings =
      (mappings.map fun mapping => Change.write ⟨mapping, now⟩).foldl Change.apply
        tables.mappings := by
  rw [List.foldl_map]
  exact (List.foldl_hom Tables.mappings fun _ _ => rfl).symm

theorem mappings_perform (now : Nat) (operation : Operation) :
    (tables.perform now operation).mappings =
      (operation.changes now).foldl Change.apply tables.mappings := by
  cases operation with
  | storeFile file mappings references =>
    exact (mappings_storeFile now file mappings references).trans (mappings_addMappings now _ _)
  | addMapping _ => rfl
  | addReference _ => rfl
  | removeFile _ => rfl
  | removeProject _ => rfl

theorem mappings_run (history : List (Nat × Operation)) :
    (run history).mappings = (changesOf history).foldl Change.apply [] := by
  rw [changesOf, List.foldl_flatMap]
  exact (List.foldl_hom Tables.mappings fun _ _ => (mappings_perform ..).symm).symm

/-- *What is defined was written last and has not been removed since.* -/
theorem mem_mappings_run {history : List (Nat × Operation)} {row : Stamped Mapping} :
    row ∈ (run history).mappings ↔
      ∃ before after, changesOf history = before ++ .write row :: after ∧
        ∀ change ∈ after, change.Spares row := by
  rw [mappings_run, Change.mem_foldl_apply (by simp)]
  simp

/-- A definition that another file took over does not come back when that file is removed. -/
example : (run [
    (0, .addMapping ⟨"urn:x-opensiddur:u", ⟨"A", "a.xml"⟩, none, none, none⟩),
    (1, .addMapping ⟨"urn:x-opensiddur:u", ⟨"A", "b.xml"⟩, none, none, none⟩),
    (2, .removeFile ⟨"A", "b.xml"⟩)]).mappings = [] := by
  decide

/-! ## 3. What writing keeps -/

/-- Whether every row is where it was, except definitions with some claims and the entries of some
files; nothing need be said of rows that come after all that there were. -/
structure KeepsOthers (claims : List (String × String)) (files : List SourceFile)
    (tables after : Tables) : Prop where
  mappings : ∀ (i : Nat) (row : Stamped Mapping), tables.mappings[i]? = some row →
    claimOf row.row ∉ claims → after.mappings[i]? = some row
  references : tables.references <+: after.references
  ledger : ∀ (i : Nat) (row : Stamped SourceFile), tables.ledger[i]? = some row →
    row.row ∉ files → after.ledger[i]? = some row

theorem getElem?_addMapping (now : Nat) {mapping : Mapping} {row : Stamped Mapping} {i : Nat}
    (isThere : tables.mappings[i]? = some row) (other : claimOf row.row ≠ claimOf mapping) :
    (tables.addMapping now mapping).mappings[i]? = some row := by
  unfold addMapping
  rw [sameClaim_eq]
  exact @getElem?_upsert Mapping _ _ claimOf ⟨mapping, now⟩ _ other _ _ isThere

theorem keepsOthers_addMapping (now : Nat) (mapping : Mapping) :
    tables.KeepsOthers [claimOf mapping] [] (tables.addMapping now mapping) where
  mappings _ _ isThere other := getElem?_addMapping now isThere (by simpa using other)
  references := List.prefix_refl _
  ledger _ _ isThere _ := isThere

theorem keepsOthers_addReference (now : Nat) (reference : Reference) :
    tables.KeepsOthers [] [] (tables.addReference now reference) where
  mappings _ _ isThere _ := isThere
  references := List.prefix_append ..
  ledger _ _ isThere _ := isThere

theorem keepsOthers_storeFile (now : Nat) (file : SourceFile) (mappings : List Mapping)
    (references : List Reference) :
    tables.KeepsOthers (mappings.map claimOf) [file]
      (tables.storeFile now file mappings references) where
  mappings i row isThere other := by
    rw [mappings_storeFile]
    refine List.foldlRecOn (motive := fun after : Tables => after.mappings[i]? = some row)
      mappings _ isThere fun _ stays mapping isMapping => ?_
    exact getElem?_addMapping now stays fun same =>
      other (same ▸ List.mem_map_of_mem isMapping)
  references := by
    rw [references_storeFile]
    exact List.prefix_append ..
  ledger i row isThere other := by
    rw [ledger_storeFile]
    exact @getElem?_upsert SourceFile _ _ id ⟨file, now⟩ _ (by simpa using other) _ _ isThere

/-! ## 4. What removing leaves -/

/-- Whether the rows of some files, and no others, were removed, and the mappings and references
among them were counted. -/
structure RemovesOnly (files : SourceFile → Bool) (tables : Tables) (result : Nat × Tables) :
    Prop where
  mappings : result.2.mappings = tables.mappings.filter (!files ·.row.file)
  references : result.2.references = tables.references.filter (!files ·.row.file)
  ledger : result.2.ledger = tables.ledger.filter (!files ·.row)
  count : result.1 + (result.2.mappings.length + result.2.references.length) =
    tables.mappings.length + tables.references.length

theorem removesOnly_removeWhere (files : SourceFile → Bool) :
    tables.RemovesOnly files (tables.countWhere files, tables.removeWhere files) where
  mappings := rfl
  references := rfl
  ledger := rfl
  count := by
    have split {α : Type} (rows : List α) (p : α → Bool) :
        rows.countP p + (rows.filter (!p ·)).length = rows.length := by
      rw [← List.countP_eq_length_filter, List.length_eq_countP_add_countP p]
      simp
    have mappings := split tables.mappings (files ·.row.file)
    have references := split tables.references (files ·.row.file)
    dsimp only [countWhere, removeWhere]
    omega

/-! ## 5. What is listed -/

/-- Whether any of the three tables has a row of a file with a property. -/
def HasRow (tables : Tables) (p : SourceFile → Prop) : Prop :=
  (∃ row ∈ tables.mappings, p row.row.file) ∨ (∃ row ∈ tables.references, p row.row.file) ∨
    ∃ row ∈ tables.ledger, p row.row

theorem hasRow_iff {p : SourceFile → Prop} :
    tables.HasRow p ↔ ∃ file ∈ tables.rowFiles, p file := by
  simp only [HasRow, rowFiles, List.mem_append, List.mem_map, or_and_right, exists_or,
    exists_exists_and_eq_and, or_assoc]

/-! ## 6. Any history -/

/-- *After any operations the definitions are the last ones that were written, every operation
touches its own rows only, and what is listed is what has rows.* -/
theorem run_operations (history : List (Nat × Operation)) :
    let tables := run history
    (tables.mappings.map fun row => claimOf row.row).Nodup ∧
    (∀ row, row ∈ tables.mappings ↔
      ∃ before after, changesOf history = before ++ .write row :: after ∧
        ∀ change ∈ after, change.Spares row) ∧
    (∀ file, tables.RemovesOnly (· = file) (tables.removeFile file)) ∧
    (∀ project, tables.RemovesOnly (·.project = project) (tables.removeProject project)) ∧
    (∀ now mapping, tables.KeepsOthers [claimOf mapping] [] (tables.addMapping now mapping)) ∧
    (∀ now reference, tables.KeepsOthers [] [] (tables.addReference now reference)) ∧
    (∀ now file mappings references, tables.KeepsOthers (mappings.map claimOf) [file]
      (tables.storeFile now file mappings references)) ∧
    tables.projects.Pairwise (· < ·) ∧
    (∀ project, project ∈ tables.projects ↔ tables.HasRow (·.project = project)) ∧
    ∀ project, (tables.files project).Pairwise (· < ·) ∧
      ∀ name, (name ∈ tables.files project ↔ tables.HasRow (· = ⟨project, name⟩)) ∧
        ((tables.lastIndexed? ⟨project, name⟩).isSome ↔ name ∈ tables.files project) := by
  intro tables
  refine ⟨(keyed_run history).claims, fun row => mem_mappings_run,
    fun file => removesOnly_removeWhere _, fun project => removesOnly_removeWhere _,
    keepsOthers_addMapping, keepsOthers_addReference, keepsOthers_storeFile,
    Text.pairwise_lt_sortedDistinct _, fun project => mem_projects_iff.trans hasRow_iff.symm,
    fun project => ⟨Text.pairwise_lt_sortedDistinct _, fun name => ⟨?_, ?_⟩⟩⟩
  · rw [mem_files_iff, hasRow_iff]
    simp
  · rw [lastIndexed?_isSome, mem_files_iff]

end Tables

end Intertext.Index
