import Intertext.Proofs.Corpus.Folders
import Intertext.Proofs.Index.Claims
/-!
Histories of a corpus and its index.

A history is a list of actions: files are written and removed, folders are made, and files, projects
or the whole corpus are synced. Beside the disk and the tables that the actions leave behind, a
`Moment` keeps every scan there has been, last one first, so that one can speak of what a file held
when it was last scanned and of which file was the last to claim an identifier.

The scans and the ledger determine the tables (`Tables.Reflects`): the references of a recorded file
are those of its last scan, and a project has a definition of an identifier exactly if the file that
was the last to claim it is recorded and claimed it in its last scan. Every action keeps this
(`Moment.sound_run`), because every action is made of steps that sync one file and of steps that
remove files. Syncing a file is one of three turns, whatever the tables hold (`SyncTurn`): the file
is skipped, its rows are removed, or it is scanned and stored.
-/

namespace Intertext.Index

open Corpus

/-! ## 1. Actions -/

/-- Whether a name is that of a file of a corpus. -/
def IsSourceName (name : String) : Prop := Path.IsName name ∧ Path.hasExtension "xml" name = true

instance (name : String) : Decidable (IsSourceName name) := inferInstanceAs (Decidable (_ ∧ _))

/-- What is done to a corpus or its index; syncing has the time at which it is done. -/
inductive Action where
  | write (path : String) (bytes : ByteArray) (modified : Nat)
  | delete (path : String)
  | makeFolder (path : String)
  | syncFile (now : Nat) (file : SourceFile) (isSource : IsSourceName file.name)
  | syncProject (now : Nat) (project : String)
  | syncCorpus (now : Nat)

/-- Scanned files with their contents, last scan first. -/
abbrev Scans := List (SourceFile × ByteArray)

section Scanning

variable (disk : Disk) (now : Nat) (base : String)

/-- What syncing a file scans: the file, if it is there and not up to date. -/
def scanned (tables : Tables) (file : SourceFile) : Scans :=
  if tables.isCurrentFile disk base file then []
  else (disk.bytes? (filePath base file)).toList.map (file, ·)

/-- What syncing files in order scans. -/
def scannedFiles : Tables → List SourceFile → Scans
  | _, [] => []
  | tables, file :: rest =>
    scannedFiles (tables.syncFile disk now base file).2 rest ++ scanned disk base tables file

/-- What syncing a project scans. -/
def scannedProject (tables : Tables) (project : String) : Scans :=
  match disk.list? (projectPath base project) with
  | none => []
  | some entries =>
    let names := sourceNames entries
    scannedFiles disk now base tables ((tables.goneFiles project names ++ names).map (⟨project, ·⟩))

/-- What syncing projects in order scans. -/
def scannedProjects : Tables → List String → Scans
  | _, [] => []
  | tables, project :: rest =>
    scannedProjects (tables.syncProject disk now base project).2 rest ++
      scannedProject disk now base tables project

/-- The tables without the projects that are not among those there are. -/
def withoutOrphans (tables : Tables) (projects : List String) : Tables :=
  (tables.removeProjects (tables.projects.filter (· ∉ projects))).2

end Scanning

/-- The disk and the tables at a moment, and all scans before it. -/
structure Moment where
  disk : Disk
  tables : Tables
  scans : Scans

namespace Moment

/-- Nothing is there, and nothing was scanned. -/
def start : Moment := ⟨.empty, .empty, []⟩

/-- The same disk with tables that were never filled. -/
def fresh (moment : Moment) : Moment := ⟨moment.disk, .empty, []⟩

/-- What an action leaves behind. The corpus cannot be synced if its folder is not there. -/
def act (base : String) (moment : Moment) : Action → Moment
  | .write path bytes modified => { moment with disk := moment.disk.write path bytes modified }
  | .delete path => { moment with disk := moment.disk.delete path }
  | .makeFolder path => { moment with disk := moment.disk.makeFolder path }
  | .syncFile now file _ =>
    { moment with
      tables := (moment.tables.syncFile moment.disk now base file).2
      scans := scanned moment.disk base moment.tables file ++ moment.scans }
  | .syncProject now project =>
    { moment with
      tables := (moment.tables.syncProject moment.disk now base project).2
      scans := scannedProject moment.disk now base moment.tables project ++ moment.scans }
  | .syncCorpus now =>
    match corpusProjects moment.disk base with
    | .error _ => moment
    | .ok projects =>
      { moment with
        tables := (moment.tables.syncCorpus moment.disk now base projects).2
        scans := scannedProjects moment.disk now base (withoutOrphans moment.tables projects)
          projects ++ moment.scans }

/-- What a history leaves behind. -/
def run (base : String) (history : List Action) : Moment := history.foldl (act base) start

end Moment

/-! ## 2. Steps of syncing

What happens at a file is decided by two questions to the disk and one to the tables: whether the
file is there, when it was changed, and when it was last indexed. For tables whose rows are dated by
the ledger the three turns become steps that speak of the ledger alone. -/

variable {disk : Disk} {now : Nat} {base : String} {tables : Tables} {file : SourceFile}
  {scans : Scans}

/-- A file has a time of change exactly if it has bytes. -/
theorem modified?_eq_none {path : String} :
    disk.modified? path = none ↔ disk.bytes? path = none := by
  unfold Disk.modified? Disk.bytes?
  cases disk.entry? path with
  | none => simp
  | some entry => cases entry <;> simp

theorem exists_bytes {path : String} {modified : Nat}
    (changed : disk.modified? path = some modified) :
    ∃ bytes, disk.bytes? path = some bytes := by
  rw [← Option.ne_none_iff_exists', ne_eq, ← modified?_eq_none, changed]
  simp

namespace Tables

/-- A file is up to date if it is there and any of its rows is as new as it is. -/
theorem isCurrentFile_iff :
    tables.isCurrentFile disk base file = true ↔
      ∃ modified, disk.modified? (filePath base file) = some modified ∧
        ∃ stamp, (file, stamp) ∈ tables.stamps ∧ modified ≤ stamp := by
  simp only [← le_lastIndexed?_iff]
  unfold isCurrentFile
  cases disk.modified? (filePath base file) <;> cases tables.lastIndexed? file <;> simp

end Tables

/-- What syncing a file can do, and what it scans. -/
inductive SyncTurn (disk : Disk) (now : Nat) (base : String) (tables : Tables)
    (file : SourceFile) : Tables → Scans → Prop where
  | skipped (current : tables.isCurrentFile disk base file = true) :
    SyncTurn disk now base tables file tables []
  | removed (missing : disk.bytes? (filePath base file) = none) :
    SyncTurn disk now base tables file (tables.removeWhere (· = file)) []
  | stored {bytes : ByteArray} (outdated : tables.isCurrentFile disk base file = false)
    (found : disk.bytes? (filePath base file) = some bytes) :
    SyncTurn disk now base tables file
      ((tables.removeWhere (· = file)).storeFile now file (contribution file bytes).mappings
        (contribution file bytes).references) [(file, bytes)]

/-- A file that is up to date is skipped. -/
theorem syncFile_of_current (current : tables.isCurrentFile disk base file = true) :
    tables.syncFile disk now base file = (⟨.skipped, 0⟩, tables) := by
  unfold Tables.isCurrentFile at current
  unfold Tables.syncFile
  split at current
  · rename_i modified indexed changed isKnown
    rw [changed, isKnown]
    simp only [decide_eq_true_eq] at current
    simp [Nat.not_lt.mpr current]
  · cases current

/-- Of a file that is gone and unknown there is nothing to remove. -/
theorem syncFile_of_gone (missing : disk.bytes? (filePath base file) = none)
    (unknown : file ∉ tables.rowFiles) :
    tables.syncFile disk now base file = (⟨.removed, 0⟩, tables) := by
  have nothing := Tables.ne_of_unknown unknown
  unfold Tables.syncFile
  rw [modified?_eq_none.mpr missing]
  dsimp only [Tables.removeFile]
  rw [Tables.removeWhere_of_unknown nothing, Tables.countWhere_of_unknown nothing]

/-- Indexing a file stores what its bytes contribute. -/
theorem indexFile_eq {bytes : ByteArray} (found : disk.bytes? (filePath base file) = some bytes) :
    tables.indexFile disk now base file =
      ((contribution file bytes).mappings.length + (contribution file bytes).references.length,
        tables.storeFile now file (contribution file bytes).mappings
          (contribution file bytes).references) := by
  rw [Tables.indexFile, scanFile_eq found]

/-- A file that is there and not recorded is added. -/
theorem syncFile_of_new {bytes : ByteArray} (unknown : tables.lastIndexed? file = none)
    (found : disk.bytes? (filePath base file) = some bytes) :
    tables.syncFile disk now base file =
      (⟨.added, (contribution file bytes).mappings.length +
          (contribution file bytes).references.length⟩,
        tables.storeFile now file (contribution file bytes).mappings
          (contribution file bytes).references) := by
  unfold Tables.syncFile
  cases changed : disk.modified? (filePath base file) with
  | none => cases found.symm.trans (modified?_eq_none.mp changed)
  | some modified => simp only [unknown, indexFile_eq found]

/-- A file that was changed after it was recorded loses its rows and is scanned again. -/
theorem syncFile_of_changed {bytes : ByteArray} {indexed modified : Nat}
    (isKnown : tables.lastIndexed? file = some indexed)
    (changed : disk.modified? (filePath base file) = some modified) (outdated : indexed < modified)
    (found : disk.bytes? (filePath base file) = some bytes) :
    tables.syncFile disk now base file =
      (⟨.updated, (contribution file bytes).mappings.length +
          (contribution file bytes).references.length⟩,
        (tables.removeWhere (· = file)).storeFile now file (contribution file bytes).mappings
          (contribution file bytes).references) := by
  unfold Tables.syncFile
  simp only [changed, isKnown, if_pos outdated, Tables.removeFile, indexFile_eq found]

/-- Syncing a file is one of the three turns. -/
theorem syncTurn : SyncTurn disk now base tables file (tables.syncFile disk now base file).2
    (scanned disk base tables file) := by
  unfold scanned
  cases current : tables.isCurrentFile disk base file with
  | true =>
    rw [syncFile_of_current current]
    exact .skipped current
  | false =>
    cases changed : disk.modified? (filePath base file) with
    | none =>
      unfold Tables.syncFile
      rw [changed, modified?_eq_none.mp changed]
      exact .removed (modified?_eq_none.mp changed)
    | some modified =>
      obtain ⟨bytes, found⟩ := exists_bytes changed
      -- A file that is not known is stored as it is; a known one first loses its rows, and for the
      -- other that changes nothing.
      have turn := @SyncTurn.stored disk now base tables file bytes current found
      rw [found]
      cases isKnown : tables.lastIndexed? file with
      | none =>
        have unknown := Tables.lastIndexed?_eq_none.mp isKnown
        rw [Tables.removeWhere_of_unknown (Tables.ne_of_unknown unknown)] at turn
        rw [syncFile_of_new isKnown found]
        exact turn
      | some indexed =>
        unfold Tables.isCurrentFile at current
        rw [changed, isKnown] at current
        have outdated : indexed < modified := by simpa using current
        rw [syncFile_of_changed isKnown changed outdated found]
        exact turn

/-- What syncing a file can do where the rows were written when their files were recorded, and what
it scans. -/
inductive SyncStep (disk : Disk) (now : Nat) (base : String) (tables : Tables)
    (file : SourceFile) : Tables → Scans → Prop where
  | removed (missing : disk.bytes? (filePath base file) = none) :
    SyncStep disk now base tables file (tables.removeWhere (· = file)) []
  | skipped {indexed modified : Nat} (known : tables.recorded? file = some indexed)
    (changed : disk.modified? (filePath base file) = some modified)
    (isCurrent : ¬ indexed < modified) : SyncStep disk now base tables file tables []
  | stored {bytes : ByteArray} (found : disk.bytes? (filePath base file) = some bytes) :
    SyncStep disk now base tables file
      ((tables.removeWhere (· = file)).storeFile now file (contribution file bytes).mappings
        (contribution file bytes).references) [(file, bytes)]

/-- Syncing a file is one of the three steps, where rows are dated by the ledger. -/
theorem syncStep (dated : tables.Dated) (keyed : tables.Keyed) :
    SyncStep disk now base tables file (tables.syncFile disk now base file).2
      (scanned disk base tables file) := by
  have turn := @syncTurn disk now base tables file
  generalize (tables.syncFile disk now base file).2 = after at turn ⊢
  generalize scanned disk base tables file = more at turn ⊢
  cases turn with
  | skipped current =>
    unfold Tables.isCurrentFile at current
    split at current
    · rename_i modified indexed changed isKnown
      rw [dated.lastIndexed?_eq keyed] at isKnown
      exact .skipped isKnown changed (Nat.not_lt.mpr (of_decide_eq_true current))
    · cases current
  | removed missing => exact .removed missing
  | stored _ found => exact .stored found

/-- A file that is not recorded is scanned if it is there. -/
theorem syncFile_of_unknown {bytes : ByteArray} (unknown : tables.lastIndexed? file = none)
    (found : disk.bytes? (filePath base file) = some bytes) :
    (tables.syncFile disk now base file).2 =
        tables.storeFile now file (contribution file bytes).mappings
          (contribution file bytes).references ∧
      scanned disk base tables file = [(file, bytes)] := by
  refine ⟨congrArg Prod.snd (syncFile_of_new unknown found), ?_⟩
  unfold scanned Tables.isCurrentFile
  cases disk.modified? (filePath base file) <;> simp [unknown, found]

/-! ## 3. What the scans say of the tables

The scans are kept last one first, so that the claimant of an identifier is found by looking for the
first scan that defines it. `Tables.Reflects` ties tables and scans together; removing files and
storing a scan keep it, and a sync of a file is made of these two. -/

/-- The file of the project that was the last to claim an identifier. -/
def claimant? (scans : Scans) (project urn : String) : Option SourceFile :=
  (scans.find? fun scan =>
    scan.1.project = project && (definition? scan.1 scan.2 urn).isSome).map (·.1)

/-- What a recorded file held when it was last scanned. -/
def lastScan? (scans : Scans) (tables : Tables) (file : SourceFile) : Option ByteArray :=
  (tables.recorded? file).bind fun _ => scans.lookup file

/-- Whether tables are what the scans make of them. -/
structure Tables.Reflects (tables : Tables) (scans : Scans) : Prop where
  keyed : tables.Keyed
  dated : tables.Dated
  references : ∀ file, tables.referencesIn file =
    ((lastScan? scans tables file).map fun bytes => (contribution file bytes).references).getD []
  claims : ∀ project urn, (tables.claim? project urn).map (·.row) =
    (claimant? scans project urn).bind fun file =>
      (lastScan? scans tables file).bind (definition? file · urn)
  sources : ∀ file, (tables.recorded? file).isSome → IsSourceName file.name

/-- Empty tables reflect that nothing was scanned. -/
theorem reflects_empty : Tables.empty.Reflects [] where
  keyed := Tables.keyed_empty
  dated := Tables.dated_empty
  references _ := rfl
  claims _ _ := rfl
  sources file known := by cases known

/-- The latest scan claims what it defines, and leaves the rest to the earlier ones. -/
theorem claimant?_cons (scans : Scans) (file : SourceFile) (bytes : ByteArray)
    (project urn : String) :
    claimant? ((file, bytes) :: scans) project urn =
      if file.project = project ∧ (definition? file bytes urn).isSome then some file
      else claimant? scans project urn := by
  unfold claimant?
  rw [List.find?_cons]
  by_cases claims : file.project = project ∧ (definition? file bytes urn).isSome
  · simp [claims]
  · have other :
        (decide (file.project = project) && (definition? file bytes urn).isSome) = false := by
      simpa using claims
    rw [if_neg claims]
    simp [other]

/-- An identifier of a project is claimed by a file of the project. -/
theorem project_of_claimant? {project urn : String}
    (found : claimant? scans project urn = some file) : file.project = project := by
  obtain ⟨⟨other, bytes⟩, isFirst, rfl⟩ := Option.map_eq_some_iff.mp found
  have claims := List.find?_some isFirst
  simp only [Bool.and_eq_true, decide_eq_true_eq] at claims
  exact claims.1

/-- The row of an identifier is from the file that was the last to claim it. -/
theorem Tables.Reflects.claim?_file (reflects : tables.Reflects scans) {project urn : String}
    {row : Stamped Mapping} (found : tables.claim? project urn = some row) :
    claimant? scans project urn = some row.row.file := by
  have claims := reflects.claims project urn
  rw [found, Option.map_some, eq_comm, Option.bind_eq_some_iff] at claims
  obtain ⟨file, isLast, claims⟩ := claims
  obtain ⟨bytes, -, made⟩ := Option.bind_eq_some_iff.mp claims
  rw [isLast, (definition?_eq_some made).2.1]

/-- Removing files leaves the other rows dated. -/
theorem dated_removeWhere (keyed : tables.Keyed) (dated : tables.Dated) (p : SourceFile → Bool) :
    (tables.removeWhere p).Dated := by
  have kept (file : SourceFile) (remains : (!p file) = true) :
      (tables.removeWhere p).recorded? file = tables.recorded? file := by
    rw [Tables.recorded?_removeWhere keyed, if_neg (by simpa using remains)]
  constructor
  · intro row member
    obtain ⟨member, remains⟩ := List.mem_filter.mp member
    exact (kept _ remains).trans (dated.mappings row member)
  · intro row member
    obtain ⟨member, remains⟩ := List.mem_filter.mp member
    exact (kept _ remains).trans (dated.references row member)

/-- Removing the rows of files does not ask for scans. -/
theorem Tables.Reflects.removeWhere (reflects : tables.Reflects scans) (p : SourceFile → Bool) :
    (tables.removeWhere p).Reflects scans := by
  have recorded := recorded?_removeWhere reflects.keyed p
  have last (file : SourceFile) : lastScan? scans (tables.removeWhere p) file =
      if p file then none else lastScan? scans tables file := by
    unfold lastScan?
    rw [recorded]
    split <;> simp
  refine ⟨reflects.keyed.removeWhere p, dated_removeWhere reflects.keyed reflects.dated p, ?_, ?_,
    ?_⟩
  · intro file
    rw [referencesIn_removeWhere, reflects.references, last]
    split <;> simp
  · intro project urn
    rw [claim?_removeWhere reflects.keyed]
    have claims := reflects.claims project urn
    cases found : tables.claim? project urn with
    | none =>
      rw [found, Option.map_none, eq_comm, Option.bind_eq_none_iff] at claims
      rw [Option.filter_none, Option.map_none, eq_comm, Option.bind_eq_none_iff]
      intro file isLast
      rw [last]
      split
      · rfl
      · exact claims file isLast
    | some row =>
      -- The row goes or stays with the file that claimed the identifier last.
      have isLast := reflects.claim?_file found
      rw [found, isLast, Option.map_some, Option.bind_some] at claims
      rw [isLast, Option.bind_some, last]
      by_cases removed : p row.row.file
      · simp [removed, Option.filter]
      · simp [removed, Option.filter, claims]
  · intro file known
    refine reflects.sources file ?_
    rw [recorded] at known
    split at known
    · cases known
    · exact known

/-- Storing a file that was not recorded dates its rows by its line in the ledger. -/
theorem dated_storeFile (dated : tables.Dated) (keyed : tables.Keyed) {bytes : ByteArray}
    (unknown : tables.recorded? file = none) :
    (tables.storeFile now file (contribution file bytes).mappings
      (contribution file bytes).references).Dated := by
  have recorded := @Tables.recorded?_storeFile tables now file
  -- A file that has been recorded is not this one.
  have other {known : SourceFile} {stamp : Nat} (isKnown : tables.recorded? known = some stamp) :
      file ≠ known := by
    rintro rfl
    cases unknown.symm.trans isKnown
  constructor
  · intro row member
    have stored := (keyed.storeFile now file (contribution file bytes).mappings
      (contribution file bytes).references).claim?_eq_some.mpr ⟨member, rfl⟩
    rw [Tables.claim?_storeFile nodup_contribution, find?_contribution] at stored
    rw [recorded]
    rcases Option.or_eq_some_iff.mp stored with stored | ⟨-, stored⟩
    · obtain ⟨mapping, made, rfl⟩ := Option.map_eq_some_iff.mp stored
      split at made
      · rw [if_pos (definition?_eq_some made).2.1.symm]
      · cases made
    · have known := dated.mappings row (keyed.claim?_eq_some.mp stored).1
      rw [if_neg (other known), known]
  · intro row member
    rw [Tables.references_storeFile] at member
    rw [recorded]
    rcases List.mem_append.mp member with member | member
    · have known := dated.references row member
      rw [if_neg (other known), known]
    · obtain ⟨reference, isReference, rfl⟩ := List.mem_map.mp member
      rw [if_pos (file_of_mem_contribution_references isReference).symm]

/-- The last scan of a stored file is the one that was stored. -/
theorem lastScan?_storeFile (bytes : ByteArray) (other : SourceFile) :
    lastScan? ((file, bytes) :: scans) (tables.storeFile now file
      (contribution file bytes).mappings (contribution file bytes).references) other =
      if file = other then some bytes else lastScan? scans tables other := by
  unfold lastScan?
  rw [Tables.recorded?_storeFile]
  by_cases same : file = other
  · subst same
    simp
  · have apart : (other == file) = false := by simpa using Ne.symm same
    simp [same, List.lookup_cons, apart]

/-- Storing what was scanned from a file without rows adds a scan. -/
theorem Tables.Reflects.storeFile (reflects : tables.Reflects scans)
    (unknown : tables.recorded? file = none) (isSource : IsSourceName file.name)
    (bytes : ByteArray) :
    (tables.storeFile now file (contribution file bytes).mappings
      (contribution file bytes).references).Reflects ((file, bytes) :: scans) := by
  refine ⟨reflects.keyed.storeFile .., dated_storeFile reflects.dated reflects.keyed unknown, ?_,
    ?_, ?_⟩
  · intro other
    rw [referencesIn_storeFile fun _ => file_of_mem_contribution_references, lastScan?_storeFile,
      reflects.references]
    by_cases same : file = other
    · subst same
      simp [lastScan?, unknown]
    · simp [same]
  · intro project urn
    rw [claim?_storeFile nodup_contribution, find?_contribution, claimant?_cons]
    by_cases claims : file.project = project ∧ (definition? file bytes urn).isSome
    · obtain ⟨mapping, made⟩ := Option.isSome_iff_exists.mp claims.2
      rw [if_pos claims, if_pos claims.1, made]
      simp [lastScan?_storeFile, made]
    -- The claimant stays, unless it is the stored file in an earlier scan; but then it was not
    -- recorded and held no claim.
    · have nothing : (if file.project = project then definition? file bytes urn else none) =
          none := by
        split
        · rename_i same
          exact Option.not_isSome_iff_eq_none.mp fun isSome => claims ⟨same, isSome⟩
        · rfl
      rw [nothing, if_neg claims, Option.map_none, Option.none_or, reflects.claims]
      refine Option.bind_congr fun other isLast => ?_
      rw [lastScan?_storeFile]
      by_cases same : file = other
      · subst same
        rw [if_pos (project_of_claimant? isLast)] at nothing
        simp [lastScan?, unknown, nothing]
      · rw [if_neg same]
  · intro other known
    rw [recorded?_storeFile] at known
    split at known
    · rename_i same
      exact same ▸ isSource
    · exact reflects.sources other known

/-- Syncing a file keeps the tables to what the scans make of them. -/
theorem Tables.Reflects.syncFile (reflects : tables.Reflects scans)
    (isSource : IsSourceName file.name) :
    (tables.syncFile disk now base file).2.Reflects (scanned disk base tables file ++ scans) := by
  generalize outcome : (tables.syncFile disk now base file).2 = after
  generalize isScanned : scanned disk base tables file = more
  have step := @syncStep disk now base tables file reflects.dated reflects.keyed
  rw [outcome, isScanned] at step
  cases step with
  | removed missing => exact reflects.removeWhere _
  | skipped known changed isCurrent => exact reflects
  | stored found =>
    refine (reflects.removeWhere _).storeFile ?_ isSource _
    rw [recorded?_removeWhere reflects.keyed]
    simp

/-! ## 4. Runs

Projects are synced by runs over their files, and the corpus by runs over its projects. That the
scans are reflected is carried through each run by induction, one turn after another. -/

namespace Tables

/-- Brings files up to date in order. -/
def syncEach (disk : Disk) (now : Nat) (base : String) (tables : Tables)
    (files : List SourceFile) : Tables :=
  files.foldl (fun tables file => (tables.syncFile disk now base file).2) tables

/-- The files of a project that is there: those known but gone, and then those there are. -/
def filesToSync (tables : Tables) (project : String) (entries : List (String × Entry)) :
    List SourceFile :=
  (tables.goneFiles project (sourceNames entries) ++ sourceNames entries).map (⟨project, ·⟩)

theorem syncFiles_eq (project : String) (names : List String) (totals : Totals)
    (tables : Tables) :
    (tables.syncFiles disk now base project names totals).2 =
      tables.syncEach disk now base (names.map (⟨project, ·⟩)) := by
  induction names generalizing totals tables with
  | nil => rfl
  | cons name rest ih => exact ih _ _

/-- A project with a folder is synced by a run over the known and the present files. -/
theorem syncProject_eq {project : String} {entries : List (String × Entry)}
    (found : disk.list? (projectPath base project) = some entries) :
    (tables.syncProject disk now base project).2 =
      tables.syncEach disk now base (tables.filesToSync project entries) := by
  unfold syncProject filesToSync
  rw [found]
  simp only [syncFiles_eq, List.map_append, syncEach, List.foldl_append]

/-- A project without a folder loses its rows. -/
theorem syncProject_of_missing {project : String}
    (missing : disk.list? (projectPath base project) = none) :
    (tables.syncProject disk now base project).2 = tables.removeWhere (·.project = project) := by
  unfold syncProject
  rw [missing]
  rfl

/-- Files that are removed in two goes are removed in one. -/
theorem removeWhere_removeWhere (p q : SourceFile → Bool) :
    (tables.removeWhere p).removeWhere q = tables.removeWhere fun file => q file || p file := by
  simp [removeWhere, List.filter_filter]

/-- Removing projects in order removes the rows of their files. -/
theorem removeProjects_eq (projects : List String) (tables : Tables) :
    (tables.removeProjects projects).2 = tables.removeWhere (·.project ∈ projects) := by
  have folded : (tables.removeProjects projects).2 =
      projects.foldl (fun tables project => tables.removeWhere (·.project = project)) tables :=
    (List.foldl_hom Prod.snd fun _ _ => rfl).symm
  rw [folded]
  clear folded
  induction projects generalizing tables with
  | nil => simp [removeWhere]
  | cons project rest ih =>
    rw [List.foldl_cons, ih, removeWhere_removeWhere]
    congr
    funext file
    by_cases first : file.project = project <;> simp [first]

/-- Syncing projects is syncing the first and then the rest. -/
theorem syncProjects_cons (project : String) (rest : List String) (report : CorpusSync)
    (tables : Tables) :
    ∃ later, tables.syncProjects disk now base (project :: rest) report =
      (tables.syncProject disk now base project).2.syncProjects disk now base rest later :=
  ⟨_, rfl⟩

/-- Where rows are dated by the ledger, a file has rows exactly if it was recorded. -/
theorem mem_rowFiles (keyed : tables.Keyed) (dated : tables.Dated) :
    file ∈ tables.rowFiles ↔ (tables.recorded? file).isSome := by
  rw [← dated.lastIndexed?_eq keyed, lastIndexed?_isSome]

theorem mem_files (keyed : tables.Keyed) (dated : tables.Dated) {project name : String} :
    name ∈ tables.files project ↔ (tables.recorded? ⟨project, name⟩).isSome :=
  mem_files_iff.trans (mem_rowFiles keyed dated)

theorem mem_projects (keyed : tables.Keyed) (dated : tables.Dated)
    (known : (tables.recorded? file).isSome) : file.project ∈ tables.projects :=
  mem_projects_iff.mpr ⟨file, (mem_rowFiles keyed dated).mpr known, rfl⟩

end Tables

/-- The scans of a project are those of the run over its files. -/
theorem scannedProject_eq {project : String} {entries : List (String × Entry)}
    (found : disk.list? (projectPath base project) = some entries) :
    scannedProject disk now base tables project =
      scannedFiles disk now base tables (tables.filesToSync project entries) := by
  unfold scannedProject
  rw [found]
  rfl

theorem scannedProject_of_missing {project : String}
    (missing : disk.list? (projectPath base project) = none) :
    scannedProject disk now base tables project = [] := by
  unfold scannedProject
  rw [missing]

/-- The sources in a folder are its files with the extension of a source. -/
theorem mem_sourceNames {entries : List (String × Entry)} {name : String} :
    name ∈ sourceNames entries ↔
      ∃ entry, (name, entry) ∈ entries ∧ entry.isFile ∧ Path.hasExtension "xml" name := by
  simp only [sourceNames, List.mem_mergeSort, List.mem_map, List.mem_filter, Bool.and_eq_true]
  constructor
  · rintro ⟨⟨other, entry⟩, ⟨member, isFile, isXml⟩, rfl⟩
    exact ⟨entry, member, isFile, isXml⟩
  · rintro ⟨entry, member, isFile, isXml⟩
    exact ⟨(name, entry), ⟨member, isFile, isXml⟩, rfl⟩

/-- All files of a project that are synced have the names of such files. -/
theorem Tables.Reflects.isSourceName_of_mem (reflects : tables.Reflects scans)
    (named : disk.Named) {project : String} {entries : List (String × Entry)}
    (found : disk.list? (projectPath base project) = some entries)
    (member : file ∈ tables.filesToSync project entries) : IsSourceName file.name := by
  obtain ⟨name, isListed, rfl⟩ := List.mem_map.mp member
  rcases List.mem_append.mp isListed with gone | present
  · have known := (mem_files reflects.keyed reflects.dated).mp (List.mem_filter.mp gone).1
    exact reflects.sources _ known
  · obtain ⟨entry, member, -, isXml⟩ := mem_sourceNames.mp present
    exact ⟨(named.names_of_list? found).1 _ member, isXml⟩

/-- A run over sources keeps the scans reflected. -/
theorem Tables.Reflects.syncEach {files : List SourceFile} (reflects : tables.Reflects scans)
    (areSources : ∀ file ∈ files, IsSourceName file.name) :
    (tables.syncEach disk now base files).Reflects
      (scannedFiles disk now base tables files ++ scans) := by
  induction files generalizing tables scans with
  | nil => exact reflects
  | cons file rest ih =>
    have first := @syncFile disk now base tables file scans reflects
      (areSources file List.mem_cons_self)
    have later := ih first fun other member => areSources other (List.mem_cons_of_mem _ member)
    rwa [scannedFiles, List.append_assoc]

theorem Tables.Reflects.syncProject (reflects : tables.Reflects scans) (named : disk.Named)
    (project : String) :
    (tables.syncProject disk now base project).2.Reflects
      (scannedProject disk now base tables project ++ scans) := by
  cases found : disk.list? (projectPath base project) with
  | none =>
    rw [syncProject_of_missing found, scannedProject_of_missing found]
    exact reflects.removeWhere _
  | some entries =>
    rw [syncProject_eq found, scannedProject_eq found]
    exact reflects.syncEach fun file => reflects.isSourceName_of_mem named found

theorem Tables.Reflects.syncProjects (named : disk.Named) {projects : List String}
    (reflects : tables.Reflects scans) (report : CorpusSync) :
    (tables.syncProjects disk now base projects report).2.Reflects
      (scannedProjects disk now base tables projects ++ scans) := by
  induction projects generalizing tables scans report with
  | nil => exact reflects
  | cons project rest ih =>
    obtain ⟨later, same⟩ := @syncProjects_cons disk now base project rest report tables
    rw [same, scannedProjects, List.append_assoc]
    exact ih (reflects.syncProject named project) later

/-- Syncing the corpus keeps the scans reflected; the removal of projects that are gone scans
nothing. -/
theorem Tables.Reflects.syncCorpus (reflects : tables.Reflects scans) (named : disk.Named)
    (projects : List String) :
    (tables.syncCorpus disk now base projects).2.Reflects
      (scannedProjects disk now base (withoutOrphans tables projects) projects ++ scans) :=
  Tables.Reflects.syncProjects named
    (removeProjects_eq (tables.projects.filter (· ∉ projects)) tables ▸ reflects.removeWhere _) _

namespace Moment

/-- Whether the disk stands under names, and the tables are what the scans make of them. -/
structure Sound (moment : Moment) : Prop where
  named : moment.disk.Named
  reflects : moment.tables.Reflects moment.scans

theorem sound_start : start.Sound := ⟨Disk.named_empty, reflects_empty⟩

/-- Every action keeps the tables to what the scans make of them. -/
theorem Sound.act {moment : Moment} (sound : moment.Sound) (base : String) (action : Action) :
    (act base moment action).Sound := by
  obtain ⟨named, reflects⟩ := sound
  cases action with
  | write path bytes modified => exact ⟨named.write path bytes modified, reflects⟩
  | delete path => exact ⟨named.delete path, reflects⟩
  | makeFolder path => exact ⟨named.makeFolder path, reflects⟩
  | syncFile now file isSource => exact ⟨named, reflects.syncFile isSource⟩
  | syncProject now project => exact ⟨named, reflects.syncProject named project⟩
  | syncCorpus now =>
    unfold Moment.act
    cases corpusProjects moment.disk base with
    | error fault => exact ⟨named, reflects⟩
    | ok projects => exact ⟨named, reflects.syncCorpus named projects⟩

/-- Every history keeps the scans reflected and the names on the disk single. -/
theorem sound_run (base : String) (history : List Action) : (run base history).Sound :=
  List.foldlRecOn history _ sound_start fun _ sound action _ => sound.act base action

end Moment

end Intertext.Index
