import Intertext.Proofs.Index.Reindex
/-!
What syncing does to one file at a time, whatever the tables hold.

Rows that were entered by hand, or indexed outright, carry times that the ledger knows nothing of,
so nothing here asks for `Tables.Dated`. Whichever turn the syncing of a file takes (`SyncTurn`),
rows of other files stay as they were, but for the definitions that the scanned file takes over
(`Tables.Retains`), and rows of other projects stay in every case (`removeWhere_syncProject`).
-/

namespace Intertext.Index

open Corpus

variable {disk : Disk} {now : Nat} {base : String} {tables : Tables} {file other : SourceFile}

/-! ## 1. Rows of other files

A row of another file goes in two ways only: a removal that is meant for its file, which the turns
of this file never make, and a definition that is taken over. The times of a file are those of its
rows, so a file whose rows are retained is up to date afterwards only if it was before. -/

/-- Whether one of the scans takes over a definition of its project. -/
def IsTaken (scans : Scans) (mapping : Mapping) : Prop :=
  ∃ scan ∈ scans, scan.1.project = mapping.file.project ∧
    (definition? scan.1 scan.2 mapping.urn).isSome

theorem not_isTaken_nil (mapping : Mapping) : ¬ IsTaken [] mapping := by
  rintro ⟨scan, member, -⟩
  cases member

/-- A definition is taken over by scans if it is by the earlier ones or by the later ones. -/
theorem isTaken_append {later scans : Scans} {mapping : Mapping} :
    IsTaken (later ++ scans) mapping ↔ IsTaken later mapping ∨ IsTaken scans mapping := by
  simp only [IsTaken, List.mem_append, or_and_right, exists_or]

namespace Tables

/-- Whether of the rows of a file those stay that no scan takes over, and no others come. -/
structure Retains (file : SourceFile) (scans : Scans) (before after : Tables) : Prop where
  mappings : ∀ row, row.row.file = file →
    (row ∈ after.mappings ↔ row ∈ before.mappings ∧ ¬ IsTaken scans row.row)
  references : ∀ row, row.row.file = file → (row ∈ after.references ↔ row ∈ before.references)
  ledger : ∀ row, row.row = file → (row ∈ after.ledger ↔ row ∈ before.ledger)

theorem Retains.refl (file : SourceFile) (tables : Tables) : Retains file [] tables tables :=
  ⟨fun row _ => by simp [not_isTaken_nil], fun _ _ => Iff.rfl, fun _ _ => Iff.rfl⟩

/-- What is retained twice is retained, up to the definitions that either time took over. -/
theorem Retains.trans {scans later : Scans} {before between after : Tables}
    (first : Retains file scans before between) (second : Retains file later between after) :
    Retains file (later ++ scans) before after := by
  refine ⟨fun row own => ?_, fun row own => ?_, fun row own => ?_⟩
  · rw [second.mappings row own, first.mappings row own, isTaken_append]
    tauto
  · rw [second.references row own, first.references row own]
  · rw [second.ledger row own, first.ledger row own]

/-- A file has no row that it did not have. -/
theorem Retains.stamps_subset {scans : Scans} {after : Tables} {stamp : Nat}
    (retains : Retains file scans tables after) (member : (file, stamp) ∈ after.stamps) :
    (file, stamp) ∈ tables.stamps := by
  rw [mem_stamps] at member ⊢
  rcases member with ⟨row, isRow, own, stamped⟩ | ⟨row, isRow, own, stamped⟩ | isRow
  · exact .inl ⟨row, ((retains.mappings row own).mp isRow).1, own, stamped⟩
  · exact .inr (.inl ⟨row, (retains.references row own).mp isRow, own, stamped⟩)
  · exact .inr (.inr ((retains.ledger _ rfl).mp isRow))

/-- A file that is up to date afterwards was so before. -/
theorem Retains.isCurrentFile {scans : Scans} {after : Tables}
    (retains : Retains file scans tables after)
    (current : after.isCurrentFile disk base file = true) :
    tables.isCurrentFile disk base file = true := by
  obtain ⟨modified, changed, stamp, member, isLater⟩ := isCurrentFile_iff.mp current
  exact isCurrentFile_iff.mpr ⟨modified, changed, stamp, retains.stamps_subset member, isLater⟩

/-- Removing files retains the rows of every other file. -/
theorem retains_removeWhere {p : SourceFile → Bool} (kept : p file = false) :
    Retains file [] tables (tables.removeWhere p) := by
  refine ⟨fun row own => ?_, fun row own => ?_, fun row own => ?_⟩ <;>
    simp [removeWhere, own, kept, not_isTaken_nil]

/-- A mapping that is there after others were added was there before or is one of them. -/
theorem mem_addMappings {mappings : List Mapping} {row : Stamped Mapping}
    (member : row ∈ (mappings.foldl (addMapping · now) tables).mappings) :
    row ∈ tables.mappings ∨ row.row ∈ mappings := by
  induction mappings generalizing tables with
  | nil => exact .inl member
  | cons first rest ih =>
    rcases ih member with before | isLater
    · rcases mem_of_mem_upsert before with rfl | before
      · exact .inr List.mem_cons_self
      · exact .inl before
    · exact .inr (List.mem_cons_of_mem _ isLater)

/-- Storing what was scanned from a file makes no other file known. -/
theorem mem_rowFiles_storeFile {bytes : ByteArray}
    (known : other ∈ (tables.storeFile now file (contribution file bytes).mappings
      (contribution file bytes).references).rowFiles) : other = file ∨ other ∈ tables.rowFiles := by
  simp only [rowFiles, List.append_assoc, List.mem_append, List.mem_map] at known ⊢
  rcases known with ⟨row, member, rfl⟩ | ⟨row, member, rfl⟩ | ⟨row, member, rfl⟩
  · rw [mappings_storeFile] at member
    rcases mem_addMappings member with before | made
    · exact .inr (.inl ⟨row, before, rfl⟩)
    · exact .inl (file_of_mem_contribution made)
  · rw [references_storeFile, List.mem_append] at member
    rcases member with before | new
    · exact .inr (.inr (.inl ⟨row, before, rfl⟩))
    · obtain ⟨reference, made, rfl⟩ := List.mem_map.mp new
      exact .inl (file_of_mem_contribution_references made)
  · rw [ledger_storeFile] at member
    rcases mem_of_mem_upsert member with rfl | before
    · exact .inl rfl
    · exact .inr (.inr (.inr ⟨row, before, rfl⟩))

/-- A row that is put in its place is not seen by those that see neither it nor the rows of its
kind. -/
theorem filter_upsert_of_hidden {α : Type} {same : α → Bool} {row : Stamped α}
    {seen : Stamped α → Bool} (hidden : seen row = false)
    (alike : ∀ old : Stamped α, same old.row = true → seen old = false) :
    ∀ rows : List (Stamped α), (upsert same row rows).filter seen = rows.filter seen
  | [] => by simp [upsert, hidden]
  | old :: rest => by
    unfold upsert
    split
    · rename_i isSame
      rw [List.filter_cons_of_neg (by simp [hidden]),
        List.filter_cons_of_neg (by simp [alike old isSame])]
    · rw [List.filter_cons, List.filter_cons, filter_upsert_of_hidden hidden alike rest]

/-- A mapping of a project is seen by no query about other projects. -/
theorem removeWhere_addMapping {mapping : Mapping} :
    (tables.addMapping now mapping).removeWhere (·.project = mapping.file.project) =
      tables.removeWhere (·.project = mapping.file.project) := by
  unfold removeWhere addMapping
  congr 1
  refine filter_upsert_of_hidden (by simp) (fun old same => ?_) _
  have isOwner : mapping.file.project = old.row.file.project := by
    simp only [sameClaim, Bool.and_eq_true, decide_eq_true_eq] at same
    exact same.2
  simp [isOwner]

/-- Storing what was scanned from a file leaves the rows of other projects as they are. -/
theorem removeWhere_storeFile {bytes : ByteArray} :
    (tables.storeFile now file (contribution file bytes).mappings
        (contribution file bytes).references).removeWhere (·.project = file.project) =
      tables.removeWhere (·.project = file.project) := by
  have mapped : ((contribution file bytes).mappings.foldl (addMapping · now) tables).removeWhere
      (·.project = file.project) = tables.removeWhere (·.project = file.project) :=
    List.foldlRecOn (motive := fun (after : Tables) =>
      after.removeWhere (·.project = file.project) =
        tables.removeWhere (·.project = file.project)) _ _ rfl fun after same mapping member => by
          rw [← same, ← file_of_mem_contribution member]
          exact removeWhere_addMapping
  -- Each of the three tables is the same without the project.
  have ofMappings := congrArg (·.mappings) mapped
  dsimp only [removeWhere] at ofMappings
  unfold removeWhere
  congr 1
  · rw [mappings_storeFile, ofMappings]
  · rw [references_storeFile, List.filter_append]
    refine (congrArg _ (List.filter_eq_nil_iff.mpr fun row member => ?_)).trans
      (List.append_nil _)
    obtain ⟨reference, made, rfl⟩ := List.mem_map.mp member
    simp [file_of_mem_contribution_references made]
  · rw [ledger_storeFile]
    refine filter_upsert_of_hidden (by simp) (fun old same => ?_) _
    simp [of_decide_eq_true same]

/-- Storing what was scanned from another file takes over what that file defines. -/
theorem retains_storeFile (keyed : tables.Keyed) (apart : other ≠ file) {bytes : ByteArray} :
    Retains other [(file, bytes)] tables
      (tables.storeFile now file (contribution file bytes).mappings
        (contribution file bytes).references) := by
  refine ⟨fun row own => ?_, fun row own => ?_, fun row own => ?_⟩
  · have after := keyed.storeFile now file (contribution file bytes).mappings
      (contribution file bytes).references
    have held : ∀ {tables : Tables}, tables.Keyed → (row ∈ tables.mappings ↔
        tables.claim? row.row.file.project row.row.urn = some row) := fun keyed => by
      rw [keyed.claim?_eq_some]
      exact (and_iff_left rfl).symm
    have taken : IsTaken [(file, bytes)] row.row ↔ file.project = row.row.file.project ∧
        (definition? file bytes row.row.urn).isSome := by simp [IsTaken]
    -- A row stands at its claim, so that it is there after the turn exactly if the claim was not
    -- made anew.
    rw [held after, held keyed, claim?_storeFile nodup_contribution, find?_contribution, taken]
    by_cases sameProject : file.project = row.row.file.project
    · rw [if_pos sameProject]
      cases made : definition? file bytes row.row.urn with
      | none => simp
      | some mapping =>
        -- The row that is put in is of the scanned file, not of the other.
        have foreign : (⟨mapping, now⟩ : Stamped Mapping) ≠ row := by
          rintro rfl
          exact apart (own.symm.trans (definition?_eq_some made).2.1)
        simp [foreign, sameProject]
    · simp [sameProject]
  · rw [references_storeFile, List.mem_append, or_iff_left]
    intro member
    obtain ⟨reference, made, rfl⟩ := List.mem_map.mp member
    exact apart (own.symm.trans (file_of_mem_contribution_references made))
  · obtain ⟨row, stamp⟩ := row
    obtain rfl : row = other := own
    have after := keyed.storeFile now file (contribution file bytes).mappings
      (contribution file bytes).references
    rw [← after.recorded?_eq_some, ← keyed.recorded?_eq_some, recorded?_storeFile,
      if_neg (Ne.symm apart)]

end Tables

section Turns

variable {after : Tables} {more : Scans}

/-- A turn keeps the rows of a file that is there and is not scanned. -/
theorem SyncTurn.retains (turn : SyncTurn disk now base tables file after more)
    (keyed : tables.Keyed) (present : disk.bytes? (filePath base other) ≠ none)
    (unscanned : ∀ scan ∈ more, scan.1 ≠ other) : tables.Retains other more after := by
  cases turn with
  | skipped current => exact .refl other tables
  | removed missing =>
    refine Tables.retains_removeWhere (decide_eq_false ?_)
    rintro rfl
    exact present missing
  | stored outdated found =>
    have apart : other ≠ file := Ne.symm (unscanned _ List.mem_cons_self)
    have kept : Tables.Retains other [] tables (tables.removeWhere (· = file)) :=
      Tables.retains_removeWhere (decide_eq_false apart)
    exact kept.trans (Tables.retains_storeFile (keyed.removeWhere _) apart)

/-- A file that is there and is not scanned at its turn is up to date. -/
theorem SyncTurn.isCurrentFile (turn : SyncTurn disk now base tables file after more)
    (present : disk.bytes? (filePath base file) ≠ none)
    (unscanned : ∀ scan ∈ more, scan.1 ≠ file) :
    tables.isCurrentFile disk base file = true := by
  cases turn with
  | skipped current => exact current
  | removed missing => exact absurd missing present
  | stored outdated found => exact absurd rfl (unscanned _ List.mem_cons_self)

/-- A file is recorded when it is scanned. -/
theorem SyncTurn.records (turn : SyncTurn disk now base tables file after more)
    (keyed : tables.Keyed) {scan : SourceFile × ByteArray} (isScanned : scan ∈ more) :
    ⟨scan.1, now⟩ ∈ after.ledger := by
  cases turn with
  | skipped current => cases isScanned
  | removed missing => cases isScanned
  | @stored bytes outdated found =>
    cases List.mem_singleton.mp isScanned
    have after := (keyed.removeWhere (· = file)).storeFile now file
      (contribution file bytes).mappings (contribution file bytes).references
    rw [← after.recorded?_eq_some, Tables.recorded?_storeFile, if_pos rfl]

/-- A record of now stays, since no file that was recorded now is scanned again. -/
theorem SyncTurn.stays (turn : SyncTurn disk now base tables file after more)
    (keyed : tables.Keyed)
    (timely : ∀ modified, disk.modified? (filePath base other) = some modified → modified ≤ now)
    (present : disk.bytes? (filePath base other) ≠ none)
    (recorded : ⟨other, now⟩ ∈ tables.ledger) : ⟨other, now⟩ ∈ after.ledger := by
  -- Nothing on the disk is later than now, so a file that was recorded now is skipped at its turn.
  have current : tables.isCurrentFile disk base other = true := by
    obtain ⟨modified, changed⟩ : ∃ modified,
        disk.modified? (filePath base other) = some modified := by
      rwa [← Option.ne_none_iff_exists', ne_eq, modified?_eq_none]
    exact Tables.isCurrentFile_iff.mpr ⟨modified, changed, now,
      Tables.mem_stamps.mpr (.inr (.inr recorded)), timely modified changed⟩
  refine ((turn.retains keyed present fun scan member same => ?_).ledger _ rfl).mpr recorded
  cases turn with
  | skipped isCurrent => cases member
  | removed missing => cases member
  | stored outdated found =>
    cases List.mem_singleton.mp member
    obtain rfl : file = other := same
    cases current.symm.trans outdated

/-- A file that is gone is known after a turn only if it was before, and it was not its turn. -/
theorem SyncTurn.known_of_missing (turn : SyncTurn disk now base tables file after more)
    (missing : disk.bytes? (filePath base other) = none) (known : other ∈ after.rowFiles) :
    other ∈ tables.rowFiles ∧ other ≠ file := by
  cases turn with
  | skipped current =>
    refine ⟨known, ?_⟩
    rintro rfl
    obtain ⟨modified, changed, -⟩ := Tables.isCurrentFile_iff.mp current
    cases changed.symm.trans (modified?_eq_none.mpr missing)
  | removed isMissing =>
    rw [Tables.rowFiles_removeWhere, List.mem_filter] at known
    exact ⟨known.1, by simpa using known.2⟩
  | stored outdated found =>
    have apart : other ≠ file := by
      rintro rfl
      cases found.symm.trans missing
    have before := (Tables.mem_rowFiles_storeFile known).resolve_left apart
    rw [Tables.rowFiles_removeWhere, List.mem_filter] at before
    exact ⟨before.1, apart⟩

/-- A turn leaves the rows of other projects as they are. -/
theorem SyncTurn.removeWhere_eq (turn : SyncTurn disk now base tables file after more) :
    after.removeWhere (·.project = file.project) =
      tables.removeWhere (·.project = file.project) := by
  have removed : (tables.removeWhere (· = file)).removeWhere (·.project = file.project) =
      tables.removeWhere (·.project = file.project) := by
    rw [Tables.removeWhere_removeWhere]
    congr 1
    funext other
    by_cases same : other = file <;> simp [same]
  cases turn with
  | skipped current => rfl
  | removed missing => exact removed
  | stored outdated found => rw [Tables.removeWhere_storeFile, removed]

end Turns

/-! ## 2. Runs of turns

A run takes turns one after another, each with the tables that the last one left. The inductions
follow the files of the run; the scans of a run stand last one first, and those of the first turn at
the end. -/

/-- Syncing files is a turn for the first and a run for the rest. -/
theorem Tables.syncFiles_cons (project name : String) (names : List String) (totals : Totals) :
    tables.syncFiles disk now base project (name :: names) totals =
      (tables.syncFile disk now base ⟨project, name⟩).2.syncFiles disk now base project names
        (totals.record (tables.syncFile disk now base ⟨project, name⟩).1) := by
  rw [Tables.syncFiles, Tables.syncFiles, List.foldl_cons]

section Runs

variable {files : List SourceFile}

/-- A run keeps the rows of a file that is there and is not scanned. -/
theorem retains_syncEach (keyed : tables.Keyed)
    (present : disk.bytes? (filePath base file) ≠ none)
    (unscanned : ∀ scan ∈ scannedFiles disk now base tables files, scan.1 ≠ file) :
    tables.Retains file (scannedFiles disk now base tables files)
      (tables.syncEach disk now base files) := by
  induction files generalizing tables with
  | nil => exact .refl file tables
  | cons first rest ih =>
    simp only [scannedFiles, List.mem_append] at unscanned
    -- The file stays in place at the first turn, and the rest of the run does not scan it either.
    have turn := @syncTurn disk now base tables first
    exact (turn.retains keyed present fun scan member => unscanned scan (.inr member)).trans
      (ih (Tables.kept_keyed.syncFile keyed disk now base first)
        fun scan member => unscanned scan (.inl member))

/-- A file of a run that is there and is not scanned was up to date before. -/
theorem isCurrentFile_of_syncEach (keyed : tables.Keyed) (member : file ∈ files)
    (present : disk.bytes? (filePath base file) ≠ none)
    (unscanned : ∀ scan ∈ scannedFiles disk now base tables files, scan.1 ≠ file) :
    tables.isCurrentFile disk base file = true := by
  induction files generalizing tables with
  | nil => cases member
  | cons first rest ih =>
    simp only [scannedFiles, List.mem_append] at unscanned
    have turn := @syncTurn disk now base tables first
    by_cases own : file = first
    · subst own
      exact turn.isCurrentFile present fun scan isScanned => unscanned scan (.inr isScanned)
    · refine (turn.retains keyed present fun scan isScanned =>
        unscanned scan (.inr isScanned)).isCurrentFile ?_
      exact ih (Tables.kept_keyed.syncFile keyed disk now base first)
        ((List.mem_cons.mp member).resolve_left own)
        fun scan isScanned => unscanned scan (.inl isScanned)

/-- A file that was recorded now, or is scanned in a run, is recorded now after the run. -/
theorem recorded_syncEach (keyed : tables.Keyed)
    (timely : ∀ modified, disk.modified? (filePath base file) = some modified → modified ≤ now)
    (present : disk.bytes? (filePath base file) ≠ none)
    (scanned : ⟨file, now⟩ ∈ tables.ledger ∨
      ∃ scan ∈ scannedFiles disk now base tables files, scan.1 = file) :
    ⟨file, now⟩ ∈ (tables.syncEach disk now base files).ledger := by
  induction files generalizing tables with
  | nil =>
    refine scanned.resolve_right ?_
    rintro ⟨scan, member, -⟩
    cases member
  | cons first rest ih =>
    have turn := @syncTurn disk now base tables first
    refine ih (Tables.kept_keyed.syncFile keyed disk now base first) ?_
    rcases scanned with recorded | ⟨scan, member, rfl⟩
    · exact .inl (turn.stays keyed timely present recorded)
    · rcases List.mem_append.mp member with later | isFirst
      · exact .inr ⟨scan, later, rfl⟩
      · exact .inl (turn.records keyed isFirst)

/-- A file that is gone is unknown after a run, if it was known only as a file of the run. -/
theorem unknown_syncEach (missing : disk.bytes? (filePath base file) = none)
    (listed : file ∈ tables.rowFiles → file ∈ files) :
    file ∉ (tables.syncEach disk now base files).rowFiles := by
  induction files generalizing tables with
  | nil => exact fun known => nomatch listed known
  | cons first rest ih =>
    refine ih fun known => ?_
    obtain ⟨before, apart⟩ := syncTurn.known_of_missing missing known
    exact (List.mem_cons.mp (listed before)).resolve_left apart

/-- A run over files of one project leaves the rows of other projects as they are. -/
theorem removeWhere_syncEach {project : String} (own : ∀ file ∈ files, file.project = project) :
    (tables.syncEach disk now base files).removeWhere (·.project = project) =
      tables.removeWhere (·.project = project) := by
  induction files generalizing tables with
  | nil => rfl
  | cons first rest ih =>
    obtain rfl := own first List.mem_cons_self
    rw [← (@syncTurn disk now base tables first).removeWhere_eq]
    exact ih fun file member => own file (List.mem_cons_of_mem _ member)

end Runs

/-! ## 3. Projects

A project is synced by a run over the files that are known or in its folder; without a folder, its
rows are removed. -/

section Projects

variable {project : String}

/-- Syncing projects adds up what was done in each, in their order. -/
theorem Tables.syncProjects_cons_eq (rest : List String) (report : CorpusSync) :
    tables.syncProjects disk now base (project :: rest) report =
      (tables.syncProject disk now base project).2.syncProjects disk now base rest
        { report with
          totals := report.totals.add (tables.syncProject disk now base project).1.totals
          projects := report.projects ++
            [(project, (tables.syncProject disk now base project).1)] } := by
  rw [Tables.syncProjects, Tables.syncProjects, List.foldl_cons]

/-- A folder has a file under a name once. -/
theorem nodup_sourceNames {entries : List (String × Entry)} (named : disk.Named)
    (found : disk.list? (projectPath base project) = some entries) :
    (sourceNames entries).Nodup := by
  rw [sourceNames, (List.mergeSort_perm _ _).nodup_iff]
  exact (named.names_of_list? found).2.sublist (List.filter_sublist.map _)

/-- The files of the run are those that are known and those in the folder. -/
theorem Tables.mem_filesToSync {entries : List (String × Entry)} :
    file ∈ tables.filesToSync file.project entries ↔
      file ∈ tables.rowFiles ∨ file.name ∈ sourceNames entries := by
  have named : file ∈ tables.filesToSync file.project entries ↔
      file.name ∈ tables.goneFiles file.project (sourceNames entries) ++ sourceNames entries := by
    rw [filesToSync, List.mem_map]
    refine ⟨?_, fun member => ⟨_, member, rfl⟩⟩
    rintro ⟨name, member, same⟩
    rwa [← same]
  rw [named, List.mem_append, goneFiles, List.mem_filter, mem_files_iff, decide_eq_true_iff]
  tauto

/-- Syncing a project leaves the rows of other projects as they are. -/
theorem removeWhere_syncProject :
    (tables.syncProject disk now base project).2.removeWhere (·.project = project) =
      tables.removeWhere (·.project = project) := by
  cases found : disk.list? (projectPath base project) with
  | none =>
    rw [Tables.syncProject_of_missing found, Tables.removeWhere_removeWhere]
    simp only [Bool.or_self]
  | some entries =>
    rw [Tables.syncProject_eq found]
    refine removeWhere_syncEach fun file member => ?_
    obtain ⟨name, -, rfl⟩ := List.mem_map.mp member
    rfl

/-- Syncing a project keeps the rows of files of other projects. -/
theorem retains_syncProject_of_ne (apart : file.project ≠ project) :
    tables.Retains file (scannedProject disk now base tables project)
      (tables.syncProject disk now base project).2 := by
  have same := @removeWhere_syncProject disk now base tables project
  have untaken {row : Stamped Mapping} (own : row.row.file = file) :
      ¬ IsTaken (scannedProject disk now base tables project) row.row := by
    rintro ⟨scan, member, isOwner, -⟩
    rw [project_of_mem_scannedProject member, own] at isOwner
    exact apart isOwner.symm
  -- All three tables are the same once the rows of the project are left out.
  refine ⟨fun row own => ?_, fun row own => ?_, fun row own => ?_⟩
  · have rows := congrArg (row ∈ ·.mappings) same
    simp only [Tables.removeWhere, List.mem_filter, own, apart, decide_false, Bool.not_false,
      and_true, eq_iff_iff] at rows
    rw [rows, and_iff_left (untaken own)]
  · have rows := congrArg (row ∈ ·.references) same
    simpa only [Tables.removeWhere, List.mem_filter, own, apart, decide_false, Bool.not_false,
      and_true, eq_iff_iff] using rows
  · have rows := congrArg (row ∈ ·.ledger) same
    simpa only [Tables.removeWhere, List.mem_filter, own, apart, decide_false, Bool.not_false,
      and_true, eq_iff_iff] using rows

/-- Syncing a project makes no file of another project known or unknown. -/
theorem mem_rowFiles_syncProject_of_ne (apart : file.project ≠ project) :
    file ∈ (tables.syncProject disk now base project).2.rowFiles ↔ file ∈ tables.rowFiles := by
  have same := congrArg (file ∈ ·.rowFiles) (@removeWhere_syncProject disk now base tables project)
  simpa only [Tables.rowFiles_removeWhere, List.mem_filter, apart, decide_false, Bool.not_false,
    and_true, eq_iff_iff] using same

end Projects

end Intertext.Index
