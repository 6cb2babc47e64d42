import Intertext.Proofs.Index.Turns
import Intertext.Proofs.Index.Visible
/-!
Projects are synced apart from each other.

What syncing a project does is told by the rows of the project alone, and of their times only those
of files that were not synced yet count: each file is synced once, and what is written at its turn
is not looked at again. So the tables are outlined, for one project, without the times of the files
that were synced (`Tables.outline`), and one turn leaves the same outlines behind wherever it begins
with the same ones (`outline_syncFile`). Together with `removeWhere_syncProject`, by which the rows
of other projects stay, this gives that two projects can be synced in either order, at any times
(`syncProject_comm`): the tables then have the same rows of each project, if not in the same order
among the projects, and the answers of every query are in an order of their own.
-/

namespace Intertext.Index

open Corpus
open Priority (ofProjects)

variable {disk : Disk} {now later : Nat} {base project : String} {tables other : Tables}
  {file : SourceFile}

/-! ## 1. Outlines

An outline keeps the rows of one project and blanks the times of all files but those that are still
to be synced. Everything that syncing asks about a file of the project can be asked of an outline in
which the file keeps its times. -/

namespace Tables

section Rows

variable {α : Type} (fileOf : α → SourceFile) (project : String) (timed : SourceFile → Bool)

/-- A row without its time, unless the times of its file count. -/
def blank (row : Stamped α) : Stamped α :=
  ⟨row.row, if timed (fileOf row.row) then row.stamp else 0⟩

/-- The rows of a project, with the times that count. -/
def outlineRows (rows : List (Stamped α)) : List (Stamped α) :=
  (rows.filter fun row => (fileOf row.row).project = project).map (blank fileOf timed)

variable {fileOf project timed} {rows : List (Stamped α)}

/-- Rows that are chosen by file may be chosen before or after outlining. -/
theorem outlineRows_filter (p : SourceFile → Bool) :
    outlineRows fileOf project timed (rows.filter fun row => p (fileOf row.row)) =
      (outlineRows fileOf project timed rows).filter fun row => p (fileOf row.row) := by
  simp only [outlineRows, List.filter_map, List.filter_filter, Function.comp_def, blank,
    Bool.and_comm]

theorem outlineRows_append (more : List (Stamped α)) :
    outlineRows fileOf project timed (rows ++ more) =
      outlineRows fileOf project timed rows ++ outlineRows fileOf project timed more := by
  simp [outlineRows]

/-- A row whose time is blanked is put in its place in the outline as well. -/
theorem outlineRows_upsert {same : α → Bool} {row : Stamped α}
    (own : (fileOf row.row).project = project) (untimed : timed (fileOf row.row) = false)
    (alike : ∀ old, same old = true → (fileOf old).project = project) :
    outlineRows fileOf project timed (upsert same row rows) =
      upsert same ⟨row.row, 0⟩ (outlineRows fileOf project timed rows) := by
  have isBlank : blank fileOf timed row = ⟨row.row, 0⟩ := by simp [blank, untimed]
  unfold outlineRows
  induction rows with
  | nil => simp [upsert, own, isBlank]
  | cons old rest ih =>
    by_cases isSame : same old.row = true
    · have isOwn := alike old.row isSame
      rw [upsert, if_pos isSame, List.filter_cons_of_pos (by simpa using own),
        List.filter_cons_of_pos (by simpa using isOwn), List.map_cons, List.map_cons, isBlank]
      simp [upsert, blank, isSame]
    · rw [upsert, if_neg isSame]
      by_cases isOwn : (fileOf old.row).project = project
      · rw [List.filter_cons_of_pos (by simpa using isOwn),
          List.filter_cons_of_pos (by simpa using isOwn), List.map_cons, List.map_cons, ih]
        simp [upsert, blank, isSame]
      · rw [List.filter_cons_of_neg (by simpa using isOwn),
          List.filter_cons_of_neg (by simpa using isOwn), ih]

/-- Without times, an outline has the rows of the project in their order. -/
theorem map_row_outlineRows :
    (outlineRows fileOf project timed rows).map (·.row) =
      (rows.map (·.row)).filter fun row => (fileOf row).project = project := by
  rw [outlineRows, List.map_map, List.filter_map]
  rfl

/-- Rows of the project are counted alike in an outline. -/
theorem countP_outlineRows {p : SourceFile → Bool}
    (own : ∀ file, p file = true → file.project = project) :
    (outlineRows fileOf project timed rows).countP (fun row => p (fileOf row.row)) =
      rows.countP fun row => p (fileOf row.row) := by
  rw [outlineRows, List.countP_map, List.countP_filter]
  refine List.countP_congr fun row _ => ?_
  simp only [Function.comp_apply, blank, Bool.and_eq_true, decide_eq_true_eq]
  exact and_iff_left_of_imp (own _)

/-- Of an outline fewer times can be kept. -/
theorem outlineRows_outlineRows {fewer : SourceFile → Bool}
    (within : ∀ file, fewer file = true → timed file = true) :
    outlineRows fileOf project fewer (outlineRows fileOf project timed rows) =
      outlineRows fileOf project fewer rows := by
  unfold outlineRows
  rw [List.filter_map, List.map_map, List.filter_filter]
  congr 1
  · funext row
    have stays := within (fileOf row.row)
    by_cases isTimed : fewer (fileOf row.row) = true <;> simp_all [blank]
  · refine List.filter_congr fun row _ => ?_
    exact Bool.and_self _

end Rows

/-- The rows of a project, with the times that count. -/
def outline (tables : Tables) (project : String) (timed : SourceFile → Bool) : Tables where
  mappings := outlineRows Mapping.file project timed tables.mappings
  references := outlineRows Reference.file project timed tables.references
  ledger := outlineRows id project timed tables.ledger

section Outline

variable {timed fewer : SourceFile → Bool}

/-- Blanking more times later is blanking them at once. -/
theorem outline_outline (within : ∀ file, fewer file = true → timed file = true) :
    (tables.outline project timed).outline project fewer = tables.outline project fewer := by
  simp only [outline, outlineRows_outlineRows within]

/-- Removing files commutes with outlining. -/
theorem outline_removeWhere (p : SourceFile → Bool) :
    (tables.removeWhere p).outline project timed =
      (tables.outline project timed).removeWhere p := by
  unfold outline removeWhere
  rw [outlineRows_filter (!p ·), outlineRows_filter (!p ·)]
  exact congrArg _ (@outlineRows_filter _ id _ _ _ (!p ·))

/-- A mapping whose time is blanked may be added to the outline, at any time. -/
theorem outline_addMapping {mapping : Mapping} (own : mapping.file.project = project)
    (untimed : timed mapping.file = false) :
    (tables.addMapping now mapping).outline project timed =
      (tables.outline project timed).addMapping 0 mapping := by
  have alike (old : Mapping) (same : sameClaim mapping old = true) :
      old.file.project = project := by
    simp only [sameClaim, Bool.and_eq_true, decide_eq_true_eq] at same
    exact same.2.symm.trans own
  unfold outline addMapping
  rw [outlineRows_upsert own untimed alike]

theorem outline_addReference {reference : Reference} (own : reference.file.project = project)
    (untimed : timed reference.file = false) :
    (tables.addReference now reference).outline project timed =
      (tables.outline project timed).addReference 0 reference := by
  unfold outline addReference
  rw [outlineRows_append]
  simp [outlineRows, blank, own, untimed]

theorem outline_addFile (own : file.project = project) (untimed : timed file = false) :
    (tables.addFile now file).outline project timed =
      (tables.outline project timed).addFile 0 file := by
  have alike (old : SourceFile) (same : decide (old = file) = true) : (id old).project = project :=
    of_decide_eq_true same ▸ own
  unfold outline addFile
  rw [outlineRows_upsert own untimed alike]

/-- What commutes with outlining row by row does so for all rows that are added. -/
theorem outline_foldl {α : Type} (add : Nat → Tables → α → Tables) {items : List α}
    (commutes : ∀ item ∈ items, ∀ tables : Tables, (add now tables item).outline project timed =
      add 0 (tables.outline project timed) item) :
    (items.foldl (add now) tables).outline project timed =
      items.foldl (add 0) (tables.outline project timed) := by
  induction items generalizing tables with
  | nil => rfl
  | cons item rest ih =>
    rw [List.foldl_cons, ih fun other member => commutes other (List.mem_cons_of_mem _ member),
      commutes item List.mem_cons_self, List.foldl_cons]

/-- The outline of what was recorded does not tell when it was, if the times of the file do not
count. -/
theorem outline_indexFile (own : file.project = project) (untimed : timed file = false) :
    (tables.indexFile disk now base file).2.outline project timed =
      ((tables.outline project timed).indexFile disk 0 base file).2 := by
  have ofMapping : ∀ mapping ∈ (scanFile disk base file).mappings, ∀ tables : Tables,
      (tables.addMapping now mapping).outline project timed =
        (tables.outline project timed).addMapping 0 mapping := fun mapping member tables => by
    have isOwn := file_of_mem_scanFile member
    exact outline_addMapping (isOwn ▸ own) (isOwn ▸ untimed)
  have ofReference : ∀ reference ∈ (scanFile disk base file).references, ∀ tables : Tables,
      (tables.addReference now reference).outline project timed =
        (tables.outline project timed).addReference 0 reference := fun reference member tables => by
    have isOwn := file_of_mem_scanFile_references member
    exact outline_addReference (isOwn ▸ own) (isOwn ▸ untimed)
  unfold indexFile storeFile
  dsimp only
  rw [outline_addFile own untimed,
    outline_foldl (fun now tables reference => tables.addReference now reference)
      ofReference,
    outline_foldl (fun now tables mapping => tables.addMapping now mapping) ofMapping]

theorem countWhere_outline {p : SourceFile → Bool}
    (own : ∀ file, p file = true → file.project = project) :
    (tables.outline project timed).countWhere p = tables.countWhere p := by
  rw [countWhere, countWhere, outline, countP_outlineRows own, countP_outlineRows own]

/-- An outline knows the files of its project. -/
theorem rowFiles_outline :
    (tables.outline project timed).rowFiles = tables.rowFiles.filter (·.project = project) := by
  have files {α : Type} (fileOf : α → SourceFile) (rows : List (Stamped α)) :
      (outlineRows fileOf project timed rows).map (fun row => fileOf row.row) =
        (rows.map (fun row => fileOf row.row)).filter (·.project = project) := by
    rw [outlineRows, List.map_map, List.filter_map]
    rfl
  unfold rowFiles
  rw [List.filter_append, List.filter_append, ← files Mapping.file, ← files Reference.file]
  exact congrArg _ (files id _)

theorem mem_rowFiles_outline (timed : SourceFile → Bool) (own : file.project = project) :
    file ∈ (tables.outline project timed).rowFiles ↔ file ∈ tables.rowFiles := by
  rw [rowFiles_outline, List.mem_filter, decide_eq_true own, and_iff_left rfl]

/-- An outline lists the same files for its project. -/
theorem files_outline (timed : SourceFile → Bool) :
    (tables.outline project timed).files project = tables.files project := by
  rw [files, files, rowFiles_outline, List.filter_filter]
  simp only [Bool.and_self]

/-- An outline lists the same references for its project. -/
theorem projectReferences_outline (timed : SourceFile → Bool) :
    (tables.outline project timed).projectReferences project =
      tables.projectReferences project := by
  rw [projectReferences, projectReferences, outline, map_row_outlineRows, List.filter_filter]
  simp only [Bool.and_self]

/-- An outline counts its project alike. -/
theorem stats_outline (timed : SourceFile → Bool) :
    (tables.outline project timed).stats project = tables.stats project := by
  have own (file : SourceFile) (isOwn : decide (file.project = project) = true) :
      file.project = project := of_decide_eq_true isOwn
  rw [stats, stats, files_outline, outline, countP_outlineRows own, countP_outlineRows own]

/-- A file that keeps its times was last indexed when it was. -/
theorem lastIndexed?_outline (timed : SourceFile → Bool) (own : file.project = project)
    (isTimed : timed file = true) :
    (tables.outline project timed).lastIndexed? file = tables.lastIndexed? file := by
  have stamps {α : Type} (fileOf : α → SourceFile) (rows : List (Stamped α)) :
      ((outlineRows fileOf project timed rows).map fun row => (fileOf row.row, row.stamp)).filter
          (·.1 = file) =
        (rows.map fun row => (fileOf row.row, row.stamp)).filter (·.1 = file) := by
    have ofFile : rows.filter (fun row => decide (fileOf row.row = file) &&
        decide ((fileOf row.row).project = project)) =
          rows.filter fun row => fileOf row.row = file := by
      refine List.filter_congr fun row _ => ?_
      rw [Bool.and_eq_left_iff_imp]
      exact fun same => decide_eq_true (of_decide_eq_true same ▸ own)
    rw [outlineRows, List.map_map, List.filter_map, List.filter_map, List.filter_filter]
    refine (congrArg _ ofFile).trans (List.map_congr_left fun row member => ?_)
    have isFile : fileOf row.row = file := of_decide_eq_true (List.mem_filter.mp member).2
    simp [blank, isFile, isTimed]
  unfold lastIndexed? Tables.stamps
  simp only [List.filter_append]
  rw [outline, stamps Mapping.file, stamps Reference.file]
  exact congrArg _ (congrArg _ (congrArg _ (stamps id _)))

/-! ## 2. Syncing in outline

One turn reads the times of its file and writes rows of that file, whose times are blanked from then
on. So the outlines after the turn are the same if those before it were, and by induction those
after a run, which comes to each file once. -/

/-- What syncing a file does is told by the outline of its project with the time of the file, and
does not depend on when it is synced but for that time. -/
theorem outline_syncFile (own : file.project = project) (isTimed : timed file = true)
    (untimed : fewer file = false) (within : ∀ other, fewer other = true → timed other = true) :
    (tables.syncFile disk now base file).1 =
        ((tables.outline project timed).syncFile disk 0 base file).1 ∧
      (tables.syncFile disk now base file).2.outline project fewer =
        ((tables.outline project timed).syncFile disk 0 base file).2.outline project fewer := by
  have counted : (tables.outline project timed).countWhere (· = file) =
      tables.countWhere (· = file) :=
    countWhere_outline fun other same => of_decide_eq_true same ▸ own
  have removed : ((tables.outline project timed).removeWhere (· = file)).outline project fewer =
      (tables.removeWhere (· = file)).outline project fewer := by
    rw [outline_removeWhere, outline_removeWhere, outline_outline within]
  -- Both turns read the same time of the file, and with it take the same branch.
  unfold syncFile
  rw [lastIndexed?_outline _ own isTimed]
  cases disk.modified? (filePath base file) with
  | none => exact ⟨by simp only [removeFile, counted], removed.symm⟩
  | some modified =>
    cases tables.lastIndexed? file with
    | none =>
      refine ⟨rfl, ?_⟩
      dsimp only
      rw [outline_indexFile own untimed, outline_indexFile own untimed, outline_outline within]
    | some indexed =>
      dsimp only [removeFile]
      by_cases outdated : indexed < modified
      · rw [if_pos outdated, if_pos outdated]
        refine ⟨rfl, ?_⟩
        dsimp only
        rw [outline_indexFile own untimed, outline_indexFile own untimed, removed]
      · rw [if_neg outdated, if_neg outdated]
        exact ⟨rfl, (outline_outline within).symm⟩

/-- Files that are each synced once are synced alike from the same outlines, whenever that is. -/
theorem outline_syncFiles {names : List String} (distinct : names.Nodup) (totals : Totals)
    (areTimed : ∀ name ∈ names, timed ⟨project, name⟩ = true)
    (same : tables.outline project timed = other.outline project timed) :
    (tables.syncFiles disk now base project names totals).1 =
        (other.syncFiles disk later base project names totals).1 ∧
      (tables.syncFiles disk now base project names totals).2.outline project (fun _ => false) =
        (other.syncFiles disk later base project names totals).2.outline project
          fun _ => false := by
  induction names generalizing tables other timed totals with
  | nil =>
    have none : ∀ file : SourceFile, false = true → timed file = true := by simp
    refine ⟨rfl, ?_⟩
    show tables.outline project _ = other.outline project _
    rw [← outline_outline none, same, outline_outline none]
  | cons name rest ih =>
    rw [List.nodup_cons] at distinct
    -- the time of the first file does not count any more when its turn is over
    let fewer : SourceFile → Bool := fun file => timed file && file ≠ ⟨project, name⟩
    have within (file : SourceFile) (isTimed : fewer file = true) : timed file = true :=
      (Bool.and_eq_true_iff.mp isTimed).1
    have untimed : fewer ⟨project, name⟩ = false := by simp [fewer]
    have stillTimed (later : String) (member : later ∈ rest) : fewer ⟨project, later⟩ = true := by
      have apart : later ≠ name := fun isFirst => distinct.1 (isFirst ▸ member)
      simp [fewer, areTimed later (List.mem_cons_of_mem _ member), apart]
    have isTimed := areTimed name List.mem_cons_self
    have first := @outline_syncFile disk now base project tables _ timed fewer rfl isTimed untimed
      within
    have second := @outline_syncFile disk later base project other _ timed fewer rfl isTimed untimed
      within
    rw [same, ← second.1, ← second.2] at first
    rw [syncFiles_cons, syncFiles_cons, first.1]
    exact ih distinct.2 _ stillTimed first.2

/-- A project with a folder is synced by a run over the files that are gone and those in the
folder. -/
theorem syncProject_eq_syncFiles {entries : List (String × Entry)}
    (found : disk.list? (projectPath base project) = some entries) :
    tables.syncProject disk now base project =
      (⟨false, (tables.syncFiles disk now base project
          (tables.goneFiles project (sourceNames entries) ++ sourceNames entries) .zero).1⟩,
        (tables.syncFiles disk now base project
          (tables.goneFiles project (sourceNames entries) ++ sourceNames entries) .zero).2) := by
  unfold syncProject
  rw [found]
  simp only [syncFiles, List.foldl_append]

/-- A project is synced alike from the same outlines, whenever that is. -/
theorem outline_syncProject (named : disk.Named)
    (same : tables.outline project (fun _ => true) = other.outline project fun _ => true) :
    (tables.syncProject disk now base project).1 = (other.syncProject disk later base project).1 ∧
      (tables.syncProject disk now base project).2.outline project (fun _ => false) =
        (other.syncProject disk later base project).2.outline project fun _ => false := by
  cases found : disk.list? (projectPath base project) with
  | none =>
    have counted : tables.countWhere (·.project = project) =
        other.countWhere (·.project = project) := by
      have own (file : SourceFile) (isOwn : decide (file.project = project) = true) :
          file.project = project := of_decide_eq_true isOwn
      rw [← countWhere_outline own, same, countWhere_outline own]
    unfold syncProject
    rw [found]
    dsimp only [removeProject]
    rw [counted, outline_removeWhere, outline_removeWhere,
      ← outline_outline fun _ _ => rfl, same, outline_outline fun _ _ => rfl]
    exact ⟨rfl, rfl⟩
  | some entries =>
    -- The run is over the same files in both tables, and comes to each of them once.
    have files : tables.goneFiles project (sourceNames entries) =
        other.goneFiles project (sourceNames entries) := by
      rw [goneFiles, goneFiles, ← files_outline, same, files_outline]
    have distinct :
        (other.goneFiles project (sourceNames entries) ++ sourceNames entries).Nodup := by
      rw [List.nodup_append]
      refine ⟨(other.nodup_files project).filter _, nodup_sourceNames named found, ?_⟩
      rintro name isGone _ isThere rfl
      exact of_decide_eq_true (List.mem_filter.mp isGone).2 isThere
    rw [syncProject_eq_syncFiles found, syncProject_eq_syncFiles found, files]
    obtain ⟨totals, outlines⟩ := @outline_syncFiles disk now later base project tables other
      (fun _ => true) _ distinct .zero (fun _ _ => rfl) same
    exact ⟨congrArg (ProjectSync.mk false) totals, outlines⟩

/-- The outline of a project does not tell of the rows of another one. -/
theorem outline_removeWhere_of_ne {owner : String} (apart : owner ≠ project) :
    (tables.removeWhere (·.project = project)).outline owner timed =
      tables.outline owner timed := by
  have rows {α : Type} (fileOf : α → SourceFile) (rows : List (Stamped α)) :
      outlineRows fileOf owner timed (rows.filter fun row =>
        !decide ((fileOf row.row).project = project)) = outlineRows fileOf owner timed rows := by
    unfold outlineRows
    rw [List.filter_filter]
    refine congrArg _ (List.filter_congr fun row _ => ?_)
    rw [Bool.and_eq_left_iff_imp]
    intro isOwn
    simp [of_decide_eq_true isOwn, apart]
  unfold outline removeWhere
  rw [rows Mapping.file, rows Reference.file]
  exact congrArg _ (rows id _)

/-- Other projects have the same outlines when a project was synced. -/
theorem outline_syncProject_of_ne {owner : String} (apart : owner ≠ project) :
    (tables.syncProject disk now base project).2.outline owner timed =
      tables.outline owner timed := by
  rw [← outline_removeWhere_of_ne apart, removeWhere_syncProject, outline_removeWhere_of_ne apart]

end Outline

/-! ## 3. The same answers

Tables that have the same outlines for every project, with no times, hold the same rows of each
project in the same order. Queries about one project answer alike, and queries about several go
through them in an order of their own. -/

/-- Rows in the order of their projects are told by the rows of each project. -/
theorem eq_of_ofProjects {α : Type} [Owned α] {rows others : List α}
    (inOrder : rows.Pairwise fun a b => Text.le (Owned.project a) (Owned.project b) = true)
    (othersInOrder : others.Pairwise fun a b => Text.le (Owned.project a) (Owned.project b) = true)
    (same : ∀ project, ofProjects [project] rows = ofProjects [project] others) :
    rows = others := by
  refine @Text.eq_of_keys α String _ Owned.project (fun one two => Text.le one two = true)
    (fun project => ?_) (fun one two before after => ?_) _ _ inOrder othersInOrder fun project => ?_
  · simp [Text.le]
  · exact String.le_antisymm (of_decide_eq_true before) (of_decide_eq_true after)
  · simpa only [ofProjects, List.mem_singleton] using same project

/-- Whether two indexes have the same rows of each project, at whatever times these were written and
in whatever order among the projects. -/
def SameOutlines (tables other : Tables) : Prop :=
  ∀ project, (tables.outline project fun _ => false) = other.outline project fun _ => false

section Same

variable (same : tables.SameOutlines other)

include same

/-- The same outlines have the same rows of each project. -/
theorem SameOutlines.sameRows (project : String) : tables.SameRows other [project] := by
  have rows (tables : Tables) :
      ofProjects [project] (tables.mappings.map (·.row)) =
          (tables.outline project fun _ => false).mappings.map (·.row) ∧
        ofProjects [project] (tables.references.map (·.row)) =
          (tables.outline project fun _ => false).references.map (·.row) := by
    constructor
    · rw [outline, map_row_outlineRows]
      exact List.filter_congr fun row _ => by simp [Owned.project]
    · rw [outline, map_row_outlineRows]
      exact List.filter_congr fun row _ => by simp [Owned.project]
  constructor
  · rw [(rows tables).1, (rows other).1, same project]
  · rw [(rows tables).2, (rows other).2, same project]

/-- The same outlines know the same files. -/
theorem SameOutlines.mem_rowFiles (file : SourceFile) :
    file ∈ tables.rowFiles ↔ file ∈ other.rowFiles := by
  rw [← mem_rowFiles_outline (fun _ => false) rfl, same, mem_rowFiles_outline _ rfl]

/-- The same outlines have the same references, whatever is asked of them. -/
theorem SameOutlines.referencesWhere (p : Reference → Bool) :
    tables.referencesWhere p = other.referencesWhere p := by
  have inOrder (tables : Tables) : (tables.referencesWhere p).Pairwise
      fun a b => Text.le (Owned.project a) (Owned.project b) = true :=
    Text.pairwise_mergeSort_lePair Owned.project
      (fun reference : Reference => reference.file.name) _
  exact eq_of_ofProjects (inOrder tables) (inOrder other) fun project =>
    (same.sameRows project).referencesWhere p

/-- Queries answer alike from the same rows of each project. -/
theorem SameOutlines.answersAlike : tables.AnswersAlike other := by
  have files (project : String) : tables.files project = other.files project := by
    rw [← files_outline fun _ => false, same, files_outline]
  refine ⟨fun urn project => ?_, fun urn fragment => ?_, fun project => ?_, ?_, files,
    fun project => ?_⟩
  · have inOrder (tables : Tables) : (tables.mappingsOf urn project).Pairwise
        fun a b => Text.le (Owned.project a) (Owned.project b) = true :=
      Text.pairwise_mergeSort_lePair Owned.project Mapping.urn _
    exact eq_of_ofProjects (inOrder tables) (inOrder other) fun owner =>
      (same.sameRows owner).mappingsOf urn project
  · unfold referencesTo
    cases urn <;> cases fragment <;> simp only [same.referencesWhere]
  · rw [← projectReferences_outline fun _ => false, same, projectReferences_outline]
  · refine Text.sortedDistinct_congr fun project => ?_
    simp only [List.mem_map, same.mem_rowFiles]
  · rw [← stats_outline fun _ => false, same, stats_outline]

end Same

/-- Whether two indexes answer alike as far as some projects go: what all projects are asked for has
the same answers that belong to these, and what is asked about one of them has the same answer. -/
structure AlikeIn (projects : List String) (tables other : Tables) : Prop where
  mappings : ∀ urn project, ofProjects projects (tables.mappingsOf urn project) =
    ofProjects projects (other.mappingsOf urn project)
  references : ∀ urn fragment, ofProjects projects (tables.referencesTo urn fragment) =
    ofProjects projects (other.referencesTo urn fragment)
  ofProject : ∀ project ∈ projects,
    tables.projectReferences project = other.projectReferences project
  listed : ∀ project ∈ projects, (project ∈ tables.projects ↔ project ∈ other.projects)
  files : ∀ project ∈ projects, tables.files project = other.files project
  stats : ∀ project ∈ projects, tables.stats project = other.stats project
  indexed : ∀ file : SourceFile, file.project ∈ projects →
    tables.lastIndexed? file = other.lastIndexed? file

/-- Tables that differ in the rows of one project alone answer alike as far as others go. -/
theorem alikeIn_of_removeWhere {projects : List String}
    (same : tables.removeWhere (·.project = project) = other.removeWhere (·.project = project))
    (absent : project ∉ projects) : AlikeIn projects tables other := by
  -- What is asked about projects other than the synced one does not see its rows.
  have unseen {α : Type} [Owned α] (rows : List (Stamped α)) :
      ofProjects projects ((rows.filter fun row =>
          !decide (Owned.project row.row = project)).map (·.row)) =
        ofProjects projects (rows.map (·.row)) := by
    have hides : (rows.filter fun row => !decide (Owned.project row.row = project)).map (·.row) =
        (rows.map (·.row)).filter fun row => !decide (Owned.project row = project) := by
      rw [List.filter_map]
      rfl
    rw [hides, ofProjects, List.filter_filter]
    refine List.filter_congr fun row _ => ?_
    rw [Bool.and_eq_left_iff_imp]
    intro seen
    have apart : Owned.project row ≠ project := fun own => absent (own ▸ of_decide_eq_true seen)
    simp [apart]
  have rows : tables.SameRows other projects := by
    constructor
    · rw [← unseen tables.mappings, ← unseen other.mappings]
      exact congrArg (fun tables => ofProjects projects (tables.mappings.map (·.row))) same
    · rw [← unseen tables.references, ← unseen other.references]
      exact congrArg (fun tables => ofProjects projects (tables.references.map (·.row))) same
  have outlines {owner : String} (member : owner ∈ projects) :
      (tables.outline owner fun _ => true) = other.outline owner fun _ => true := by
    have apart : owner ≠ project := fun isOwn => absent (isOwn ▸ member)
    rw [← outline_removeWhere_of_ne apart, same, outline_removeWhere_of_ne apart]
  refine ⟨rows.mappingsOf, rows.referencesTo, fun owner member => ?_, fun owner member => ?_,
    fun owner member => ?_, fun owner member => ?_, fun file member => ?_⟩
  · rw [← projectReferences_outline, outlines member, projectReferences_outline]
  · rw [mem_projects_iff, mem_projects_iff]
    refine exists_congr fun file => and_congr_left fun own => ?_
    rw [← mem_rowFiles_outline _ own, outlines member, mem_rowFiles_outline _ own]
  · rw [← files_outline, outlines member, files_outline]
  · rw [← stats_outline, outlines member, stats_outline]
  · rw [← lastIndexed?_outline (fun _ => true) rfl rfl, outlines member,
      lastIndexed?_outline _ rfl rfl]

end Tables

/-! ## 4. Two projects -/

/-- Two projects can be synced in either order, and at any times: the reports are the same, and so
are the answers to every question afterwards. Syncing one of them changes no answer about other
projects, nor what belongs to these in the answers about all. -/
theorem syncProject_comm (tables : Tables) (named : disk.Named) {one two : String}
    (apart : one ≠ two) (oneFirst twoSecond twoFirst oneSecond : Nat) :
    let afterOne := tables.syncProject disk oneFirst base one
    let afterBoth := afterOne.2.syncProject disk twoSecond base two
    let afterTwo := tables.syncProject disk twoFirst base two
    let afterBoth' := afterTwo.2.syncProject disk oneSecond base one
    (afterOne.1 = afterBoth'.1 ∧ afterBoth.1 = afterTwo.1) ∧
      afterBoth.2.AnswersAlike afterBoth'.2 ∧
      (∀ file, (afterBoth.2.lastIndexed? file).isSome = (afterBoth'.2.lastIndexed? file).isSome) ∧
      ∀ projects, one ∉ projects → Tables.AlikeIn projects afterOne.2 tables := by
  intro afterOne afterBoth afterTwo afterBoth'
  obtain ⟨sameOne, outlinesOne⟩ :=
    @Tables.outline_syncProject disk oneFirst oneSecond base one tables afterTwo.2 named
      (Tables.outline_syncProject_of_ne apart).symm
  obtain ⟨sameTwo, outlinesTwo⟩ :=
    @Tables.outline_syncProject disk twoSecond twoFirst base two afterOne.2 tables named
      (Tables.outline_syncProject_of_ne apart.symm)
  -- Each project was synced once on either way, and the other sync left its outline alone.
  have same : afterBoth.2.SameOutlines afterBoth'.2 := by
    intro project
    by_cases isOne : project = one
    · subst isOne
      rw [Tables.outline_syncProject_of_ne apart, outlinesOne]
    · by_cases isTwo : project = two
      · subst isTwo
        rw [outlinesTwo, Tables.outline_syncProject_of_ne isOne]
      · rw [Tables.outline_syncProject_of_ne isTwo, Tables.outline_syncProject_of_ne isOne,
          Tables.outline_syncProject_of_ne isOne, Tables.outline_syncProject_of_ne isTwo]
  refine ⟨⟨sameOne, sameTwo⟩, same.answersAlike, fun file => ?_, fun projects absent => ?_⟩
  · rw [Bool.eq_iff_iff, Tables.lastIndexed?_isSome, Tables.lastIndexed?_isSome,
      same.mem_rowFiles]
  · exact Tables.alikeIn_of_removeWhere removeWhere_syncProject absent

/-- The file of a project that defines the identifier. -/
def sharedFile (project : String) : SourceFile := ⟨project, "a.xml"⟩

/-- A disk with two projects that define the same identifier. -/
def sharedShelf : Disk :=
  (Disk.empty.write "project/A/a.xml" contestedText.toUTF8 0).write "project/B/a.xml"
    contestedText.toUTF8 0

theorem named_sharedShelf : sharedShelf.Named :=
  (Disk.named_empty.write _ _ _).write _ _ _

/-- Syncing one of the projects adds what its file contributes, if nothing is known of it. -/
theorem syncProject_sharedShelf (isOne : project = "A" ∨ project = "B")
    (unknown : ∀ file ∈ tables.rowFiles, file.project ≠ project) :
    tables.syncProject sharedShelf now "project" project =
      (⟨false, ⟨2, 0, 0, 0⟩⟩, tables.storeFile now (sharedFile project)
        (contestedRows (sharedFile project)).mappings
        (contestedRows (sharedFile project)).references) := by
  have list : sharedShelf.list? (projectPath "project" project) =
      some [("a.xml", .file contestedText.toUTF8 0)] := by
    rcases isOne with rfl | rfl <;> rfl
  have names : sourceNames [("a.xml", .file contestedText.toUTF8 0)] = ["a.xml"] := by
    decide +kernel
  have noneGone : tables.goneFiles project ["a.xml"] = [] := by
    refine List.filter_eq_nil_iff.mpr fun name isKnown _ => ?_
    exact unknown _ (Tables.mem_files_iff.mp isKnown) rfl
  have file : tables.syncFile sharedShelf now "project" (sharedFile project) =
      (⟨.added, 2⟩, tables.storeFile now (sharedFile project)
        (contestedRows (sharedFile project)).mappings
        (contestedRows (sharedFile project)).references) := by
    have present : sharedShelf.bytes? (filePath "project" (sharedFile project)) =
        some contestedText.toUTF8 := by
      rcases isOne with rfl | rfl <;> rfl
    have absent : tables.lastIndexed? (sharedFile project) = none :=
      Tables.lastIndexed?_eq_none.mpr fun isKnown => unknown _ isKnown rfl
    rw [syncFile_of_new absent present, contribution_contestedText]
    rfl
  rw [Tables.syncProject_eq_syncFiles list, names, noneGone, List.nil_append,
    Tables.syncFiles_cons, show (⟨project, "a.xml"⟩ : SourceFile) = sharedFile project from rfl,
    file]
  rfl

/-- Two projects that define the same identifier can be synced in either order. In both orders two
rows are added for each of them, and each of them has its claim to the identifier. -/
theorem syncProject_comm_shared :
    let afterA := Tables.empty.syncProject sharedShelf 1 "project" "A"
    let afterBoth := afterA.2.syncProject sharedShelf 2 "project" "B"
    let afterB := Tables.empty.syncProject sharedShelf 1 "project" "B"
    let afterBoth' := afterB.2.syncProject sharedShelf 2 "project" "A"
    (afterA.1 = afterBoth'.1 ∧ afterBoth.1 = afterB.1) ∧ afterBoth.2.AnswersAlike afterBoth'.2 ∧
      (afterA.1 = ⟨false, ⟨2, 0, 0, 0⟩⟩ ∧ afterBoth.1 = ⟨false, ⟨2, 0, 0, 0⟩⟩) ∧
      afterBoth.2.mappingsOf (some "urn:x-opensiddur:u") none =
        (contestedRows (sharedFile "A")).mappings ++ (contestedRows (sharedFile "B")).mappings ∧
      Tables.AlikeIn ["B"] afterA.2 .empty := by
  intro afterA afterBoth afterB afterBoth'
  obtain ⟨reports, answers, -, untouched⟩ := @syncProject_comm _ "project" Tables.empty
    named_sharedShelf "A" "B" (by decide) 1 2 1 2
  have first : afterA = _ := syncProject_sharedShelf (.inl rfl) fun _ isKnown => nomatch isKnown
  have second : afterBoth = _ := syncProject_sharedShelf (.inr rfl) (by rw [first]; decide)
  have claims : afterBoth.2.mappings.map (·.row) =
      (contestedRows (sharedFile "A")).mappings ++ (contestedRows (sharedFile "B")).mappings := by
    rw [second, first]
    rfl
  refine ⟨reports, answers, ⟨congrArg Prod.fst first, congrArg Prod.fst second⟩, ?_,
    untouched ["B"] (by decide)⟩
  unfold Tables.mappingsOf
  rw [claims]
  exact List.mergeSort_of_pairwise (by decide)

end Intertext.Index
