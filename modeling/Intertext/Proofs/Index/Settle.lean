import Intertext.Proofs.Index.Turns
/-!
Syncing the corpus a second time.

After the corpus was synced, and if no file is changed later than that, a second sync should have
nothing to do. It has nothing to do exactly if every file that it attends to is up to date
(`Tables.IsSettled`), and that need not be so: the first sync skips a file on the strength of any
row that is as new as the file, and a row that makes a definition can be taken over by another file
that is scanned in the same sync. The file is then forgotten, or known by older rows alone, and the
second sync scans it. `syncCorpus_settles_iff` says that this is the only way in which a second sync
finds something to do, whatever the tables held before, and `skipped_forgotten` is such a case.
-/

namespace Intertext.Index

open Corpus

variable {disk : Disk} {now later : Nat} {base : String} {tables : Tables} {file : SourceFile}
  {projects : List String}

/-! ## 1. Tables that were filled in any way -/

namespace Tables

/-- Tables that were filled in any way: by hand, by scanning files or by syncing. -/
inductive Reached : Tables → Prop where
  | empty : Reached .empty
  | addMapping {tables : Tables} (before : Reached tables) (now : Nat) (mapping : Mapping) :
    Reached (tables.addMapping now mapping)
  | addReference {tables : Tables} (before : Reached tables) (now : Nat) (reference : Reference) :
    Reached (tables.addReference now reference)
  | storeFile {tables : Tables} (before : Reached tables) (now : Nat) (file : SourceFile)
    (mappings : List Mapping) (references : List Reference) :
    Reached (tables.storeFile now file mappings references)
  | removeFile {tables : Tables} (before : Reached tables) (file : SourceFile) :
    Reached (tables.removeFile file).2
  | removeProject {tables : Tables} (before : Reached tables) (project : String) :
    Reached (tables.removeProject project).2
  | indexFile {tables : Tables} (before : Reached tables) (disk : Disk) (now : Nat) (base : String)
    (file : SourceFile) : Reached (tables.indexFile disk now base file).2
  | indexFiles {tables : Tables} (before : Reached tables) (disk : Disk) (now : Nat)
    (base project : String) (names : List String) :
    Reached (tables.indexFiles disk now base project names).2
  | syncFile {tables : Tables} (before : Reached tables) (disk : Disk) (now : Nat) (base : String)
    (file : SourceFile) : Reached (tables.syncFile disk now base file).2
  | syncProject {tables : Tables} (before : Reached tables) (disk : Disk) (now : Nat)
    (base project : String) : Reached (tables.syncProject disk now base project).2
  | syncCorpus {tables : Tables} (before : Reached tables) (disk : Disk) (now : Nat)
    (base : String) (projects : List String) :
    Reached (tables.syncCorpus disk now base projects).2

/-- In whatever way tables were filled, they have one row for each claim and one for each file. -/
theorem Reached.keyed (reached : tables.Reached) : tables.Keyed := by
  induction reached with
  | empty => exact keyed_empty
  | addMapping before now mapping ih => exact ih.addMapping now mapping
  | addReference before now reference ih => exact ⟨ih.claims, ih.files⟩
  | storeFile before now file mappings references ih => exact ih.storeFile now file _ _
  | removeFile before file ih => exact ih.removeWhere (· = file)
  | removeProject before project ih => exact ih.removeWhere (·.project = project)
  | indexFile before disk now base file ih => exact ih.indexFile disk now base file
  | indexFiles before disk now base project names ih => exact kept_keyed.indexFiles ih ..
  | syncFile before disk now base file ih => exact kept_keyed.syncFile ih ..
  | syncProject before disk now base project ih => exact kept_keyed.syncProject ih ..
  | syncCorpus before disk now base projects ih => exact kept_keyed.syncCorpus ih ..

/-- The files that are known, by project and by name. -/
def knownFiles (tables : Tables) : List SourceFile :=
  tables.projects.flatMap fun project => (tables.files project).map (⟨project, ·⟩)

/-- Whether syncing the corpus comes to a file: the folder of its project is there, and it is in the
folder or known. -/
def Attends (tables : Tables) (disk : Disk) (base : String) (projects : List String)
    (file : SourceFile) : Prop :=
  file.project ∈ projects ∧ ∃ entries, disk.list? (projectPath base file.project) = some entries ∧
    file ∈ tables.filesToSync file.project entries

/-- Whether a file has a row as new as its last change that no scan takes over. -/
def Secures (tables : Tables) (scans : Scans) (file : SourceFile) (modified : Nat) : Prop :=
  (∃ row ∈ tables.mappings, row.row.file = file ∧ modified ≤ row.stamp ∧ ¬ IsTaken scans row.row) ∨
  (∃ row ∈ tables.references, row.row.file = file ∧ modified ≤ row.stamp) ∨
  ∃ row ∈ tables.ledger, row.row = file ∧ modified ≤ row.stamp

/-- A file whose rows are kept but for what was taken over is up to date afterwards if it had
another row as new as it is. -/
theorem Retains.isCurrentFile_iff {scans : Scans} {after : Tables} {modified : Nat}
    (retains : Retains file scans tables after)
    (changed : disk.modified? (filePath base file) = some modified) :
    after.isCurrentFile disk base file = true ↔ tables.Secures scans file modified := by
  have current : after.isCurrentFile disk base file = true ↔
      ∃ stamp, (file, stamp) ∈ after.stamps ∧ modified ≤ stamp := by
    rw [Tables.isCurrentFile_iff, changed]
    simp
  rw [current, Secures]
  constructor
  · rintro ⟨stamp, member, isLater⟩
    rw [mem_stamps] at member
    -- A row as new as the file is a mapping that nothing took over, a reference or a line of the
    -- ledger.
    rcases member with ⟨row, isRow, own, rfl⟩ | ⟨row, isRow, own, rfl⟩ | isRow
    · obtain ⟨before, untaken⟩ := (retains.mappings row own).mp isRow
      exact .inl ⟨row, before, own, isLater, untaken⟩
    · exact .inr (.inl ⟨row, (retains.references row own).mp isRow, own, isLater⟩)
    · exact .inr (.inr ⟨_, (retains.ledger _ rfl).mp isRow, rfl, isLater⟩)
  · rintro (⟨row, isRow, own, isLater, untaken⟩ | ⟨row, isRow, own, isLater⟩ |
      ⟨row, isRow, rfl, isLater⟩)
    · exact ⟨row.stamp, mem_stamps.mpr
        (.inl ⟨row, (retains.mappings row own).mpr ⟨isRow, untaken⟩, own, rfl⟩), isLater⟩
    · exact ⟨row.stamp, mem_stamps.mpr
        (.inr (.inl ⟨row, (retains.references row own).mpr isRow, own, rfl⟩)), isLater⟩
    · exact ⟨row.stamp, mem_stamps.mpr
        (.inr (.inr ((retains.ledger row rfl).mpr isRow))), isLater⟩

end Tables

/-! ## 2. Runs over projects

The facts about one turn are carried over runs of turns and of projects. A file belongs to the run
of one project; all others leave its rows alone, so that each induction has one project that
matters. -/

section Runs

variable {project : String}

/-- Syncing a project keeps the rows of a file that is there and is not scanned, be it of the
project or not. -/
theorem retains_syncProject (keyed : tables.Keyed)
    (folder : (disk.list? (projectPath base file.project)).isSome)
    (present : disk.bytes? (filePath base file) ≠ none)
    (unscanned : ∀ scan ∈ scannedProject disk now base tables project, scan.1 ≠ file) :
    tables.Retains file (scannedProject disk now base tables project)
      (tables.syncProject disk now base project).2 := by
  by_cases own : file.project = project
  · subst own
    obtain ⟨entries, found⟩ := Option.isSome_iff_exists.mp folder
    rw [scannedProject_eq found] at unscanned ⊢
    rw [Tables.syncProject_eq found]
    exact retains_syncEach keyed present unscanned
  · exact retains_syncProject_of_ne own

theorem retains_syncProjects (keyed : tables.Keyed) (report : CorpusSync)
    (folder : (disk.list? (projectPath base file.project)).isSome)
    (present : disk.bytes? (filePath base file) ≠ none)
    (unscanned : ∀ scan ∈ scannedProjects disk now base tables projects, scan.1 ≠ file) :
    tables.Retains file (scannedProjects disk now base tables projects)
      (tables.syncProjects disk now base projects report).2 := by
  induction projects generalizing tables report with
  | nil => exact .refl file tables
  | cons project rest ih =>
    simp only [scannedProjects, List.mem_append] at unscanned
    obtain ⟨next, same⟩ := @Tables.syncProjects_cons disk now base project rest report tables
    rw [same]
    exact (retains_syncProject keyed folder present fun scan member =>
        unscanned scan (.inr member)).trans
      (ih (Tables.kept_keyed.syncProject keyed ..) next fun scan member =>
        unscanned scan (.inl member))

/-- A file that syncing comes to, that is there and is not scanned, was up to date before. -/
theorem isCurrentFile_of_syncProjects (keyed : tables.Keyed)
    (attends : tables.Attends disk base projects file)
    (present : disk.bytes? (filePath base file) ≠ none)
    (unscanned : ∀ scan ∈ scannedProjects disk now base tables projects, scan.1 ≠ file) :
    tables.isCurrentFile disk base file = true := by
  induction projects generalizing tables with
  | nil => cases attends.1
  | cons project rest ih =>
    obtain ⟨member, entries, found, listed⟩ := attends
    simp only [scannedProjects, List.mem_append] at unscanned
    by_cases own : file.project = project
    · subst own
      rw [scannedProject_eq found] at unscanned
      exact isCurrentFile_of_syncEach keyed listed present fun scan isScanned =>
        unscanned scan (.inr isScanned)
    · refine (@retains_syncProject_of_ne disk now base tables file project own).isCurrentFile ?_
      refine ih (Tables.kept_keyed.syncProject keyed ..)
        ⟨(List.mem_cons.mp member).resolve_left own, entries, found, ?_⟩
        fun scan isScanned => unscanned scan (.inl isScanned)
      rw [Tables.mem_filesToSync] at listed ⊢
      rwa [mem_rowFiles_syncProject_of_ne own]

/-- A file that is scanned in a run over projects is recorded now after the run. -/
theorem recorded_syncProjects (keyed : tables.Keyed) (report : CorpusSync)
    (timely : ∀ modified, disk.modified? (filePath base file) = some modified → modified ≤ now)
    (folder : (disk.list? (projectPath base file.project)).isSome)
    (present : disk.bytes? (filePath base file) ≠ none)
    (scanned : ⟨file, now⟩ ∈ tables.ledger ∨
      ∃ scan ∈ scannedProjects disk now base tables projects, scan.1 = file) :
    ⟨file, now⟩ ∈ (tables.syncProjects disk now base projects report).2.ledger := by
  induction projects generalizing tables report with
  | nil =>
    refine scanned.resolve_right ?_
    rintro ⟨scan, member, -⟩
    cases member
  | cons project rest ih =>
    obtain ⟨next, same⟩ := @Tables.syncProjects_cons disk now base project rest report tables
    rw [same]
    refine ih (Tables.kept_keyed.syncProject keyed ..) next ?_
    simp only [scannedProjects, List.mem_append, or_and_right, exists_or] at scanned
    -- Only the run over the file's own project comes to it.
    by_cases own : file.project = project
    · subst own
      obtain ⟨entries, found⟩ := Option.isSome_iff_exists.mp folder
      rw [scannedProject_eq found] at scanned
      rw [Tables.syncProject_eq found] at scanned ⊢
      rcases scanned with recorded | inRest | isFirst
      · exact .inl (recorded_syncEach keyed timely present (.inl recorded))
      · exact .inr inRest
      · exact .inl (recorded_syncEach keyed timely present (.inr isFirst))
    · rcases scanned with recorded | inRest | ⟨scan, isScanned, rfl⟩
      · exact .inl (((retains_syncProject_of_ne own).ledger _ rfl).mpr recorded)
      · exact .inr inRest
      · exact absurd (project_of_mem_scannedProject isScanned) own

/-- A file that is gone, or whose folder is, is unknown after its project was synced. -/
theorem unknown_syncProject (gone : (disk.list? (projectPath base file.project)).isSome →
      disk.bytes? (filePath base file) = none) :
    file ∉ (tables.syncProject disk now base file.project).2.rowFiles := by
  cases found : disk.list? (projectPath base file.project) with
  | none =>
    rw [Tables.syncProject_of_missing found, Tables.rowFiles_removeWhere]
    simp
  | some entries =>
    rw [Tables.syncProject_eq found]
    exact unknown_syncEach (gone (by rw [found]; rfl)) fun known =>
      Tables.mem_filesToSync.mpr (.inl known)

/-- A file that is known after a run over projects was known before, if it is of no project of the
run; and if it is of one, it is there. -/
theorem known_syncProjects_iff (report : CorpusSync)
    (known : file ∈ (tables.syncProjects disk now base projects report).2.rowFiles) :
    (file.project ∈ projects ∧ (disk.list? (projectPath base file.project)).isSome ∧
      disk.bytes? (filePath base file) ≠ none) ∨
    file.project ∉ projects ∧ file ∈ tables.rowFiles := by
  induction projects generalizing tables report with
  | nil => exact .inr ⟨List.not_mem_nil, known⟩
  | cons project rest ih =>
    obtain ⟨next, same⟩ := @Tables.syncProjects_cons disk now base project rest report tables
    rw [same] at known
    rcases ih next known with ⟨member, isThere⟩ | ⟨absent, before⟩
    · exact .inl ⟨List.mem_cons_of_mem _ member, isThere⟩
    · by_cases own : file.project = project
      · subst own
        by_contra none
        refine unknown_syncProject (fun folder => ?_) before
        by_contra present
        exact none (.inl ⟨List.mem_cons_self, folder, present⟩)
      · rw [mem_rowFiles_syncProject_of_ne own] at before
        exact .inr ⟨by simp [own, absent], before⟩

end Runs

/-! ## 3. Syncing the corpus once

Syncing the corpus removes the projects that are gone and syncs the others. The removal takes no row
of a project that is still there, so everything about the run holds of tables from which nothing was
removed. -/

/-- Without the projects that are gone there are only rows of the others. -/
theorem withoutOrphans_eq : withoutOrphans tables projects =
    tables.removeWhere (·.project ∈ tables.projects.filter (· ∉ projects)) :=
  Tables.removeProjects_eq _ _

/-- A file is still known if its project is one of the corpus. -/
theorem mem_rowFiles_withoutOrphans :
    file ∈ (withoutOrphans tables projects).rowFiles ↔
      file ∈ tables.rowFiles ∧ file.project ∈ projects := by
  rw [withoutOrphans_eq, Tables.rowFiles_removeWhere, List.mem_filter]
  refine and_congr_right fun known => ?_
  have isProject : file.project ∈ tables.projects := Tables.mem_projects_iff.mpr ⟨file, known, rfl⟩
  simp [isProject]

/-- A file of the corpus keeps its rows when the projects that are gone are removed. -/
theorem retains_withoutOrphans (member : file.project ∈ projects) :
    tables.Retains file [] (withoutOrphans tables projects) := by
  rw [withoutOrphans_eq]
  exact Tables.retains_removeWhere (by simp [member])

/-- What a sync of the corpus scans. -/
def scannedCorpus (disk : Disk) (now : Nat) (base : String) (tables : Tables)
    (projects : List String) : Scans :=
  scannedProjects disk now base (withoutOrphans tables projects) projects

theorem syncCorpus_eq : ∃ report, tables.syncCorpus disk now base projects =
    (withoutOrphans tables projects).syncProjects disk now base projects report :=
  ⟨_, rfl⟩

/-- A file that is known after the corpus was synced is there, in a project there is. -/
theorem known_syncCorpus
    (known : file ∈ (tables.syncCorpus disk now base projects).2.rowFiles) :
    file.project ∈ projects ∧ (disk.list? (projectPath base file.project)).isSome ∧
      disk.bytes? (filePath base file) ≠ none := by
  obtain ⟨report, same⟩ := @syncCorpus_eq disk now base tables projects
  rw [same] at known
  refine (known_syncProjects_iff report known).resolve_right ?_
  rintro ⟨absent, before⟩
  exact absent (mem_rowFiles_withoutOrphans.mp before).2

section Once

variable (keyed : tables.Keyed)
  (timely : ∀ modified, disk.modified? (filePath base file) = some modified → modified ≤ now)

include keyed

theorem keyed_withoutOrphans : (withoutOrphans tables projects).Keyed := by
  rw [withoutOrphans_eq]
  exact keyed.removeWhere _

theorem retains_syncCorpus (member : file.project ∈ projects)
    (folder : (disk.list? (projectPath base file.project)).isSome)
    (present : disk.bytes? (filePath base file) ≠ none)
    (unscanned : ∀ scan ∈ scannedCorpus disk now base tables projects, scan.1 ≠ file) :
    tables.Retains file (scannedCorpus disk now base tables projects)
      (tables.syncCorpus disk now base projects).2 := by
  obtain ⟨report, same⟩ := @syncCorpus_eq disk now base tables projects
  have kept : tables.Retains file [] (withoutOrphans tables projects) :=
    retains_withoutOrphans member
  have retains := kept.trans
    (retains_syncProjects (keyed_withoutOrphans keyed) report folder present unscanned)
  rwa [List.append_nil, ← same] at retains

include timely

/-- A file that is there and that syncing comes to is up to date after the corpus was synced exactly
if it was scanned or had a row as new as it is that no scan took over. -/
theorem isCurrentFile_syncCorpus_iff {modified : Nat}
    (attends : (tables.syncCorpus disk now base projects).2.Attends disk base projects file)
    (changed : disk.modified? (filePath base file) = some modified) :
    (tables.syncCorpus disk now base projects).2.isCurrentFile disk base file = true ↔
      ((∀ scan ∈ scannedCorpus disk now base tables projects, scan.1 ≠ file) →
        tables.Secures (scannedCorpus disk now base tables projects) file modified) := by
  obtain ⟨member, entries, found, listed⟩ := attends
  have folder : (disk.list? (projectPath base file.project)).isSome := by rw [found]; rfl
  have present : disk.bytes? (filePath base file) ≠ none := by
    rw [ne_eq, ← modified?_eq_none, changed]
    simp
  by_cases unscanned : ∀ scan ∈ scannedCorpus disk now base tables projects, scan.1 ≠ file
  · have retains := retains_syncCorpus keyed member folder present unscanned
    rw [retains.isCurrentFile_iff changed]
    exact ⟨fun secures _ => secures, fun secures => secures unscanned⟩
  · refine iff_of_true ?_ fun none => absurd none unscanned
    push Not at unscanned
    obtain ⟨report, same⟩ := @syncCorpus_eq disk now base tables projects
    have recorded := recorded_syncProjects (keyed_withoutOrphans keyed) report timely folder present
      (.inr unscanned)
    rw [← same] at recorded
    exact Tables.isCurrentFile_iff.mpr ⟨modified, changed, now,
      Tables.mem_stamps.mpr (.inr (.inr recorded)), timely modified changed⟩

end Once

/-! ## 4. Tables for which there is nothing to do

If each file that is attended to is up to date, a sync skips all of them and leaves the tables as
they are, and its report counts the known files as skipped. The other direction is read off the
report: what was not skipped would be counted elsewhere. -/

namespace Tables

/-- Whether every known file is there, in a project there is, and every file that is there and that
syncing comes to is up to date. -/
structure IsSettled (tables : Tables) (disk : Disk) (base : String) (projects : List String) :
    Prop where
  present : ∀ file ∈ tables.rowFiles, file.project ∈ projects ∧
    (disk.list? (projectPath base file.project)).isSome ∧ disk.bytes? (filePath base file) ≠ none
  current : ∀ file modified, tables.Attends disk base projects file →
    disk.modified? (filePath base file) = some modified →
      tables.isCurrentFile disk base file = true

/-- Of the names in two lists without repetition those of the first one are counted once. -/
theorem length_eq_countP_gone {known names : List String} (distinctKnown : known.Nodup)
    (distinct : names.Nodup) :
    known.length = (known.filter (· ∉ names)).countP (· ∈ known) + names.countP (· ∈ known) := by
  have gone : (known.filter (· ∉ names)).countP (· ∈ known) =
      (known.filter (· ∉ names)).length :=
    List.countP_eq_length.mpr fun name member => by simpa using (List.mem_filter.mp member).1
  have there : (names.filter (· ∈ known)).Perm (known.filter (· ∈ names)) := by
    rw [List.perm_ext_iff_of_nodup (distinct.filter _) (distinctKnown.filter _)]
    intro name
    simp only [List.mem_filter, decide_eq_true_eq, and_comm]
  rw [gone, List.countP_eq_length_filter, there.length_eq, ← List.countP_eq_length_filter,
    ← List.countP_eq_length_filter, Nat.add_comm, List.length_eq_countP_add_countP (· ∈ names)]
  simp

section Settled

variable {project : String} (settled : tables.IsSettled disk base projects)

include settled

/-- Syncing comes to known files and skips them, and to others that are not there. -/
theorem IsSettled.syncFile (attends : tables.Attends disk base projects file) :
    tables.syncFile disk now base file =
      (if file ∈ tables.rowFiles then ⟨.skipped, 0⟩ else ⟨.removed, 0⟩, tables) := by
  cases changed : disk.modified? (filePath base file) with
  | none =>
    have missing := modified?_eq_none.mp changed
    have unknown : file ∉ tables.rowFiles := fun known => (settled.present file known).2.2 missing
    rw [syncFile_of_gone missing unknown, if_neg unknown]
  | some modified =>
    have current := settled.current file modified attends changed
    obtain ⟨-, -, stamp, member, -⟩ := isCurrentFile_iff.mp current
    rw [syncFile_of_current current, if_pos (mem_rowFiles_iff_stamps.mpr ⟨stamp, member⟩)]

/-- Files that are attended to are all skipped, the known ones among them. -/
theorem IsSettled.syncFiles {names : List String} (totals : Totals)
    (attended : ∀ name ∈ names, tables.Attends disk base projects ⟨project, name⟩) :
    tables.syncFiles disk now base project names totals =
      ({ totals with
          skipped := totals.skipped + names.countP (· ∈ tables.files project) }, tables) := by
  induction names generalizing totals with
  | nil => rfl
  | cons name rest ih =>
    rw [syncFiles_cons, settled.syncFile (attended name List.mem_cons_self),
      ih _ fun other member => attended other (List.mem_cons_of_mem _ member), List.countP_cons]
    by_cases known : (⟨project, name⟩ : SourceFile) ∈ tables.rowFiles
    · simp only [known, mem_files_iff, Totals.record, if_true, decide_true]
      rw [Nat.add_assoc, Nat.add_comm 1]
    · simp [known, mem_files_iff, Totals.record]

/-- Of the files of a project those that are known are skipped, and each is come to once. -/
theorem IsSettled.syncProject (named : disk.Named) (member : project ∈ projects) :
    (tables.syncProject disk now base project).2 = tables ∧
      (tables.syncProject disk now base project).1.totals =
        ⟨0, 0, 0, (tables.files project).length⟩ := by
  cases found : disk.list? (projectPath base project) with
  | none =>
    -- Known files have a folder, so a project without one has none.
    have nothing (file : SourceFile) (known : file ∈ tables.rowFiles) :
        decide (file.project = project) = false := by
      refine decide_eq_false ?_
      rintro rfl
      have folder := (settled.present file known).2.1
      rw [found] at folder
      cases folder
    have noFiles : tables.files project = [] := by
      refine List.eq_nil_iff_forall_not_mem.mpr fun name isFile => ?_
      have none := of_decide_eq_false (nothing _ (mem_files_iff.mp isFile))
      exact none rfl
    unfold Tables.syncProject
    rw [found]
    dsimp only [removeProject]
    rw [removeWhere_of_unknown nothing, countWhere_of_unknown nothing, noFiles]
    exact ⟨rfl, rfl⟩
  | some entries =>
    have attended {name : String} (listed : name ∈ tables.goneFiles project (sourceNames entries) ++
        sourceNames entries) : tables.Attends disk base projects ⟨project, name⟩ :=
      ⟨member, entries, found, List.mem_map.mpr ⟨name, listed, rfl⟩⟩
    have distinct := nodup_sourceNames named found
    unfold Tables.syncProject
    rw [found]
    dsimp only
    rw [settled.syncFiles Totals.zero fun name listed => attended (List.mem_append_left _ listed)]
    dsimp only
    rw [settled.syncFiles _ fun name listed => attended (List.mem_append_right _ listed)]
    refine ⟨rfl, ?_⟩
    have counted := length_eq_countP_gone (tables.nodup_files project) distinct
    simp only [Totals.zero, Totals.mk.injEq, true_and, Nat.zero_add]
    rw [counted]
    rfl

/-- In a run over projects of the corpus every file is skipped. -/
theorem IsSettled.syncProjects (named : disk.Named) {rest : List String}
    (within : ∀ project ∈ rest, project ∈ projects) (report : CorpusSync) :
    (tables.syncProjects disk now base rest report).2 = tables ∧
      (tables.syncProjects disk now base rest report).1.totals = report.totals.add
        ⟨0, 0, 0, (rest.flatMap tables.files).length⟩ ∧
      (tables.syncProjects disk now base rest report).1.orphans = report.orphans := by
  induction rest generalizing report with
  | nil => exact ⟨rfl, rfl, rfl⟩
  | cons project rest ih =>
    obtain ⟨unchanged, totals⟩ := @IsSettled.syncProject disk now base tables projects project
      settled named (within project List.mem_cons_self)
    have later := ih fun other member => within other (List.mem_cons_of_mem _ member)
    rw [syncProjects_cons_eq, unchanged]
    refine ⟨(later _).1, (later _).2.1.trans ?_, (later _).2.2⟩
    rw [totals]
    simp [Totals.add, Nat.add_assoc]

end Settled

/-- The known files are counted by the projects of any list without repetition that has all of
theirs. -/
theorem length_knownFiles (distinct : projects.Nodup)
    (within : ∀ file ∈ tables.rowFiles, file.project ∈ projects) :
    tables.knownFiles.length = (projects.flatMap tables.files).length := by
  -- Both lists go through the known projects, one of them in the order of the corpus.
  have known : tables.projects.Perm (projects.filter (· ∈ tables.projects)) := by
    rw [List.perm_ext_iff_of_nodup tables.nodup_projects (distinct.filter _)]
    intro project
    rw [List.mem_filter, decide_eq_true_iff, iff_and_self]
    intro isKnown
    obtain ⟨file, member, rfl⟩ := mem_projects_iff.mp isKnown
    exact within file member
  have others (project : String) (unknown : project ∉ tables.projects) :
      tables.files project = [] := by
    rw [List.eq_nil_iff_forall_not_mem]
    intro name isFile
    exact unknown (mem_projects_iff.mpr ⟨_, mem_files_iff.mp isFile, rfl⟩)
  have named (listed : List String) :
      (listed.flatMap fun project => (tables.files project).map (SourceFile.mk project)).length =
        (listed.flatMap tables.files).length := by
    induction listed with
    | nil => rfl
    | cons project rest ih => simp [ih]
  rw [knownFiles, named, (known.flatMap_right _).length_eq]
  clear known within distinct
  induction projects with
  | nil => rfl
  | cons project rest ih =>
    by_cases isKnown : project ∈ tables.projects
    · simp [isKnown, ih]
    · simp [isKnown, ih, others project isKnown]

/-- Where there is nothing to do, syncing the corpus does nothing, and says so. -/
theorem IsSettled.syncCorpus (settled : tables.IsSettled disk base projects) (named : disk.Named)
    (distinct : projects.Nodup) :
    (tables.syncCorpus disk now base projects).2 = tables ∧
      (tables.syncCorpus disk now base projects).1.totals =
        ⟨0, 0, 0, tables.knownFiles.length⟩ ∧
      (tables.syncCorpus disk now base projects).1.orphans = 0 := by
  have noOrphans : tables.projects.filter (· ∉ projects) = [] := by
    refine List.filter_eq_nil_iff.mpr fun project isKnown => ?_
    obtain ⟨file, member, rfl⟩ := mem_projects_iff.mp isKnown
    simp [(settled.present file member).1]
  unfold Tables.syncCorpus
  rw [noOrphans]
  obtain ⟨unchanged, totals, orphans⟩ := @IsSettled.syncProjects disk now base tables projects
    settled named projects (fun _ member => member) ⟨{ Totals.zero with removed := 0 }, 0, []⟩
  refine ⟨unchanged, totals.trans ?_, orphans⟩
  rw [length_knownFiles distinct fun file known => (settled.present file known).1]
  simp [Totals.add, Totals.zero]

/-- If syncing the corpus changes nothing, there was nothing to do. -/
theorem current_of_syncCorpus_eq (keyed : tables.Keyed)
    (unchanged : (tables.syncCorpus disk now base projects).2 = tables) {modified : Nat}
    (timely : ∀ modified, disk.modified? (filePath base file) = some modified → modified ≤ now)
    (attends : tables.Attends disk base projects file)
    (changed : disk.modified? (filePath base file) = some modified) :
    tables.isCurrentFile disk base file = true := by
  have still := attends
  rw [← unchanged] at still
  rw [← unchanged, isCurrentFile_syncCorpus_iff keyed timely still changed]
  intro unscanned
  have present : disk.bytes? (filePath base file) ≠ none := by
    rw [ne_eq, ← modified?_eq_none, changed]
    simp
  have current : (withoutOrphans tables projects).isCurrentFile disk base file = true := by
    refine isCurrentFile_of_syncProjects (keyed_withoutOrphans keyed) ?_ present unscanned
    obtain ⟨member, entries, found, listed⟩ := attends
    refine ⟨member, entries, found, ?_⟩
    rw [mem_filesToSync] at listed ⊢
    rwa [mem_rowFiles_withoutOrphans, and_iff_left member]
  have before := (retains_withoutOrphans attends.1).isCurrentFile current
  rw [← unchanged, isCurrentFile_syncCorpus_iff keyed timely still changed] at before
  exact before unscanned

end Tables

/-! ## 5. A second sync -/

/-- After the corpus was synced, and if no file was changed later than that, a second sync leaves
the tables as they are and reports nothing but that the known files were skipped, exactly if every
file that the first sync did not scan although it is there had a row as new as its last change that
none of the files that were scanned took over. -/
theorem syncCorpus_settles_iff (reached : tables.Reached) (named : disk.Named)
    (listed : corpusProjects disk base = .ok projects)
    (timely : ∀ file modified, disk.modified? (filePath base file) = some modified →
      modified ≤ now) (inOrder : now ≤ later) :
    let first := tables.syncCorpus disk now base projects
    let second := first.2.syncCorpus disk later base projects
    let scans := scannedCorpus disk now base tables projects
    (second.2 = first.2 ∧ second.1.totals = ⟨0, 0, 0, first.2.knownFiles.length⟩ ∧
        second.1.orphans = 0) ↔
      ∀ file modified, first.2.Attends disk base projects file →
        disk.modified? (filePath base file) = some modified →
        (∀ scan ∈ scans, scan.1 ≠ file) → tables.Secures scans file modified := by
  intro first second scans
  -- After the first sync a file is up to date exactly if it was scanned or is secured.
  have current (file : SourceFile) {modified : Nat}
      (attends : first.2.Attends disk base projects file)
      (changed : disk.modified? (filePath base file) = some modified) :=
    isCurrentFile_syncCorpus_iff reached.keyed (timely file) attends changed
  constructor
  · rintro ⟨unchanged, -, -⟩ file modified attends changed
    refine (current file attends changed).mp ?_
    refine Tables.current_of_syncCorpus_eq (reached.syncCorpus ..).keyed unchanged
      (fun modified changed => ?_) attends changed
    exact (timely file modified changed).trans inOrder
  · intro secured
    have settled : first.2.IsSettled disk base projects :=
      ⟨fun file known => known_syncCorpus known, fun file modified attends changed =>
        (current file attends changed).mpr (secured file modified attends changed)⟩
    exact settled.syncCorpus named (nodup_of_corpusProjects named listed)

/-! ## 6. Disks whose files are old

That no file is later than the sync is asked of every path. It is enough that no file on the disk
is, wherever it stands. -/

/-- Whether no file of an entry was changed later than at some time. -/
inductive NoLater (now : Nat) : Entry → Prop where
  | file {bytes : ByteArray} {modified : Nat} (isEarlier : modified ≤ now) :
    NoLater now (.file bytes modified)
  | folder {entries : List (String × Entry)} (inside : ∀ item ∈ entries, NoLater now item.2) :
    NoLater now (.folder entries)

/-- What stands inside an entry is no later than the entry. -/
theorem NoLater.descend {entry found : Entry} {names : List String} (noLater : NoLater now entry)
    (leads : entry.descend names = some found) : NoLater now found := by
  induction names generalizing entry with
  | nil =>
    cases leads
    exact noLater
  | cons first rest ih =>
    obtain ⟨child, isChild, leadsOn⟩ := Option.bind_eq_some_iff.mp leads
    cases noLater with
    | file isEarlier => cases isChild
    | folder inside => exact ih (inside _ (mem_of_lookup isChild)) leadsOn

/-- A file of a disk was not changed later than any file of its top folders. -/
theorem modified?_le {path : String} {modified : Nat}
    (noLater : ∀ item ∈ disk.tops, NoLater now item.2)
    (changed : disk.modified? path = some modified) : modified ≤ now := by
  unfold Disk.modified? at changed
  split at changed
  · rename_i isThere
    cases changed
    obtain ⟨place, -, found⟩ := Disk.entry?_eq_some.mp isThere
    cases place with
    | nil => cases found
    | cons top names =>
      have isTop : NoLater now ((disk.tops.lookup top).getD (.folder [])) := by
        cases isTop : disk.tops.lookup top with
        | none => exact .folder (by simp)
        | some entry => exact noLater _ (mem_of_lookup isTop)
      cases isTop.descend found with
      | file isEarlier => exact isEarlier
  · cases changed

/-! ## 7. A row entered by hand

One row is entered for a file, later than the file. If the row is for the identifier that both files
define, the other file takes it over and the file is forgotten; if it is for another, the row stays
and the file is skipped again. -/

/-- A disk with a project of two files that define the same identifier. -/
def pairShelf : Disk :=
  shelfOf [("a.xml", .file contestedText.toUTF8 0), ("b.xml", .file contestedText.toUTF8 0)]

/-- A definition by the first file was entered by hand, and nothing else. -/
def enteredTables (urn : String) : Tables :=
  Tables.empty.addMapping 1 ⟨urn, firstFile, none, none, none⟩

/-- A row may be entered by hand. -/
theorem reached_enteredTables (urn : String) : (enteredTables urn).Reached :=
  .addMapping .empty ..

theorem noLater_pairShelf : ∀ item ∈ pairShelf.tops, NoLater 0 item.2 := by
  have file : NoLater 0 (.file contestedText.toUTF8 0) := .file (Nat.le_refl 0)
  simp only [pairShelf, shelfOf, List.mem_singleton, forall_eq]
  refine .folder fun item member => ?_
  cases List.mem_singleton.mp member
  refine .folder fun item member => ?_
  cases List.mem_singleton.mp member
  refine .folder fun item member => ?_
  rcases List.mem_pair.mp member with rfl | rfl <;> exact file

theorem timely_pairShelf (file : SourceFile) (modified : Nat)
    (changed : pairShelf.modified? (filePath "project" file) = some modified) : modified ≤ 2 :=
  (modified?_le noLater_pairShelf changed).trans (by decide)

theorem listed_pairShelf : corpusProjects pairShelf "project" = .ok ["A"] := by
  decide +kernel

theorem named_pairShelf : pairShelf.Named := by
  have written : pairShelf = (Disk.empty.write "project/A/a.xml" contestedText.toUTF8 0).write
      "project/A/b.xml" contestedText.toUTF8 0 := rfl
  rw [written]
  exact (Disk.named_empty.write _ _ _).write _ _ _

theorem list?_pairShelf : pairShelf.list? (projectPath "project" "A") =
    some [("a.xml", .file contestedText.toUTF8 0), ("b.xml", .file contestedText.toUTF8 0)] :=
  rfl

theorem names_pairShelf : sourceNames [("a.xml", .file contestedText.toUTF8 0),
    ("b.xml", .file contestedText.toUTF8 0)] = ["a.xml", "b.xml"] := by
  rw [sourceNames, show List.map _ _ = ["a.xml", "b.xml"] by decide +kernel]
  exact List.mergeSort_of_pairwise (by decide)

/-- Syncing the corpus syncs its two files, if nothing else is known. -/
theorem syncCorpus_pairShelf (noOrphans : tables.projects.filter (· ∉ ["A"]) = [])
    (noneGone : tables.goneFiles "A" ["a.xml", "b.xml"] = []) :
    let first := tables.syncFile pairShelf now "project" firstFile
    let second := first.2.syncFile pairShelf now "project" secondFile
    (tables.syncCorpus pairShelf now "project" ["A"]).2 = second.2 ∧
      (tables.syncCorpus pairShelf now "project" ["A"]).1.totals =
        Totals.zero.add ((Totals.zero.record first.1).record second.1) ∧
      scannedCorpus pairShelf now "project" tables ["A"] =
        scanned pairShelf "project" first.2 secondFile ++
          scanned pairShelf "project" tables firstFile := by
  have project : tables.syncProject pairShelf now "project" "A" =
      (⟨false, (tables.syncFiles pairShelf now "project" "A" ["a.xml", "b.xml"] Totals.zero).1⟩,
        (tables.syncFiles pairShelf now "project" "A" ["a.xml", "b.xml"] Totals.zero).2) := by
    unfold Tables.syncProject
    rw [list?_pairShelf]
    dsimp only
    rw [names_pairShelf, noneGone]
    rfl
  have kept : withoutOrphans tables ["A"] = tables := by
    rw [withoutOrphans, noOrphans]
    rfl
  have corpus : tables.syncCorpus pairShelf now "project" ["A"] =
      tables.syncProjects pairShelf now "project" ["A"] ⟨Totals.zero, 0, []⟩ := by
    unfold Tables.syncCorpus
    rw [noOrphans]
    rfl
  rw [corpus, Tables.syncProjects_cons_eq, project]
  refine ⟨rfl, rfl, ?_⟩
  · rw [scannedCorpus, kept, scannedProjects, scannedProjects, scannedProject_eq list?_pairShelf,
      Tables.filesToSync, names_pairShelf, noneGone]
    rfl

theorem bytes?_pairShelf (file : SourceFile) (isOne : file = firstFile ∨ file = secondFile) :
    pairShelf.bytes? (filePath "project" file) = some contestedText.toUTF8 := by
  rcases isOne with rfl | rfl <;> rfl

/-- The first file is skipped for its row, and the second one is scanned. -/
theorem syncCorpus_enteredTables (urn : String) :
    ((enteredTables urn).syncCorpus pairShelf 2 "project" ["A"]).2 =
        (enteredTables urn).storeFile 2 secondFile (contestedRows secondFile).mappings
          (contestedRows secondFile).references ∧
      scannedCorpus pairShelf 2 "project" (enteredTables urn) ["A"] =
        [(secondFile, contestedText.toUTF8)] := by
  have noOrphans : (enteredTables urn).projects.filter (· ∉ ["A"]) = [] := by
    have projects : (enteredTables urn).projects = ["A"] := by cbv
    rw [projects]
    rfl
  have noneGone : (enteredTables urn).goneFiles "A" ["a.xml", "b.xml"] = [] := by
    have files : (enteredTables urn).files "A" = ["a.xml"] := by cbv
    rw [Tables.goneFiles, files]
    rfl
  -- The entered row is later than the file, whatever it is a row of.
  have current : (enteredTables urn).isCurrentFile pairShelf "project" firstFile = true :=
    Tables.isCurrentFile_iff.mpr ⟨0, rfl, 1, Tables.mem_stamps.mpr (.inl
      ⟨_, List.mem_singleton_self _, rfl, rfl⟩), by omega⟩
  have unknown : (enteredTables urn).lastIndexed? secondFile = none := by
    rw [Tables.lastIndexed?_eq_none]
    show secondFile ∉ [firstFile]
    decide
  obtain ⟨tables, -, scans⟩ := @syncCorpus_pairShelf 2 (enteredTables urn) noOrphans noneGone
  obtain ⟨stored, isScanned⟩ := @syncFile_of_unknown pairShelf 2 "project" _ secondFile _ unknown
    (bytes?_pairShelf _ (.inr rfl))
  rw [syncFile_of_current current] at tables scans
  rw [contribution_contestedText] at stored
  refine ⟨tables.trans stored, scans.trans ?_⟩
  rw [isScanned, scanned, if_pos current]
  rfl

/-- What the tables hold when the second file took the identifier over. -/
def takenTables : Tables :=
  ⟨(contestedRows secondFile).mappings.map (⟨·, 2⟩),
    (contestedRows secondFile).references.map (⟨·, 2⟩), [⟨secondFile, 2⟩]⟩

/-- The first file is forgotten, and scanned when the corpus is synced again. -/
theorem syncCorpus_takenTables :
    (takenTables.syncCorpus pairShelf 3 "project" ["A"]).2 ≠ takenTables ∧
      (takenTables.syncCorpus pairShelf 3 "project" ["A"]).1.totals = ⟨2, 0, 0, 1⟩ := by
  have noOrphans : takenTables.projects.filter (· ∉ ["A"]) = [] := by
    have projects : takenTables.projects = ["A"] := by cbv
    rw [projects]
    rfl
  have noneGone : takenTables.goneFiles "A" ["a.xml", "b.xml"] = [] := by
    have files : takenTables.files "A" = ["b.xml"] := by cbv
    rw [Tables.goneFiles, files]
    rfl
  -- The first file has no row left, so it counts as new.
  have first : takenTables.syncFile pairShelf 3 "project" firstFile = (⟨.added, 2⟩,
      takenTables.storeFile 3 firstFile (contestedRows firstFile).mappings
        (contestedRows firstFile).references) := by
    have unknown : takenTables.lastIndexed? firstFile = none := by
      rw [Tables.lastIndexed?_eq_none]
      show firstFile ∉ [secondFile, secondFile, secondFile]
      decide
    rw [syncFile_of_new unknown (bytes?_pairShelf _ (.inl rfl)), contribution_contestedText]
    rfl
  have second : (takenTables.storeFile 3 firstFile (contestedRows firstFile).mappings
      (contestedRows firstFile).references).isCurrentFile pairShelf "project" secondFile = true :=
    Tables.isCurrentFile_iff.mpr ⟨0, rfl, 2, by decide, by omega⟩
  obtain ⟨tables, totals, -⟩ := @syncCorpus_pairShelf 3 takenTables noOrphans noneGone
  rw [first, syncFile_of_current second] at tables totals
  rw [tables, totals]
  exact ⟨by decide, rfl⟩

/-- The first sync skips a file for a row that was entered by hand, and a file that it scans takes
that row over. So the first file is unknown afterwards, and the second sync scans it. -/
theorem skipped_forgotten :
    (enteredTables "urn:x-opensiddur:u").Reached ∧ pairShelf.Named ∧
    corpusProjects pairShelf "project" = .ok ["A"] ∧
    (∀ file modified, pairShelf.modified? (filePath "project" file) = some modified →
      modified ≤ 2) ∧
    let first :=
      ((enteredTables "urn:x-opensiddur:u").syncCorpus pairShelf 2 "project" ["A"]).2
    let second := first.syncCorpus pairShelf 3 "project" ["A"]
    first.knownFiles = [secondFile] ∧ second.2 ≠ first ∧ second.1.totals = ⟨2, 0, 0, 1⟩ := by
  have taken :
      ((enteredTables "urn:x-opensiddur:u").syncCorpus pairShelf 2 "project" ["A"]).2 =
        takenTables := by
    rw [(syncCorpus_enteredTables _).1]
    decide
  refine ⟨reached_enteredTables _, named_pairShelf, listed_pairShelf, timely_pairShelf, ?_⟩
  dsimp only
  rw [taken]
  exact ⟨by cbv, syncCorpus_takenTables⟩

/-- What the tables hold when the second file took nothing over. -/
def keptTables : Tables :=
  ⟨⟨⟨"urn:x-opensiddur:v", firstFile, none, none, none⟩, 1⟩ ::
      (contestedRows secondFile).mappings.map (⟨·, 2⟩),
    (contestedRows secondFile).references.map (⟨·, 2⟩), [⟨secondFile, 2⟩]⟩

/-- A file that is skipped for a row that no other file takes over stays known, and a second sync
does nothing. -/
theorem skipped_kept :
    let first :=
      ((enteredTables "urn:x-opensiddur:v").syncCorpus pairShelf 2 "project" ["A"]).2
    let second := first.syncCorpus pairShelf 3 "project" ["A"]
    second.2 = first ∧ second.1.totals = ⟨0, 0, 0, 2⟩ ∧ second.1.orphans = 0 := by
  intro first second
  have held : first = keptTables :=
    (syncCorpus_enteredTables _).1.trans (by decide)
  have counted : first.knownFiles.length = 2 := by
    have known : keptTables.knownFiles = [firstFile, secondFile] := by cbv
    rw [held, known]
    rfl
  rw [← counted]
  refine (syncCorpus_settles_iff (reached_enteredTables _) named_pairShelf listed_pairShelf
    timely_pairShelf (by decide)).mpr ?_
  rw [(syncCorpus_enteredTables _).2]
  intro file modified attends changed unscanned
  -- the second file was scanned, and no other file is known or there
  have isFirst : file = firstFile := by
    have known : file ∈ first.rowFiles → file = firstFile ∨ file = secondFile := by
      rw [held]
      simp [keptTables, Tables.rowFiles, contestedRows]
    obtain ⟨isOwn, entries, found, listed⟩ := attends
    obtain ⟨project, name⟩ := file
    obtain rfl : project = "A" := List.mem_singleton.mp isOwn
    obtain rfl := Option.some.inj (list?_pairShelf.symm.trans found)
    rw [Tables.mem_filesToSync, names_pairShelf] at listed
    have isOne : SourceFile.mk "A" name = firstFile ∨ SourceFile.mk "A" name = secondFile := by
      rcases listed with isKnown | isListed
      · exact known isKnown
      · simpa [firstFile, secondFile] using isListed
    exact isOne.resolve_right fun same => unscanned _ (List.mem_singleton_self _) same.symm
  subst isFirst
  refine .inl ⟨_, List.mem_singleton_self _, rfl, ?_, ?_⟩
  · exact (modified?_le noLater_pairShelf changed).trans (by decide)
  · rintro ⟨scan, member, -, isDefined⟩
    cases List.mem_singleton.mp member
    rw [definition?, contribution_contestedText] at isDefined
    revert isDefined
    decide

end Intertext.Index
