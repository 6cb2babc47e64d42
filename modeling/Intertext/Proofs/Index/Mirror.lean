import Intertext.Proofs.Index.History
/-!
A synced index mirrors the corpus.

Syncing goes by the times of changes: a file that was recorded and not changed since is not scanned
again. So what syncing the corpus leaves behind is right as long as every file whose contents are
no longer those of its last scan was changed after it was recorded (`Moment.Timely`). Then the
tables have rows of the files of the corpus and of no other, and every row comes from what its file
holds now (`Tables.Mirrors`), whatever was done to the corpus and the index before.

The proof follows one file through the sync. What is known of a file, when it was recorded and what
it held when it was last scanned, changes only when that file is synced or its project removed. Once
it was synced, it is recorded exactly if it is there, and what it held is what it holds.
-/

namespace Intertext.Index

open Corpus

/-! ## 1. The files of a corpus -/

/-- Whether a file is one of the corpus: it is right inside the folder of a project that is not
hidden, and has the name of such a file. -/
structure IsSource (disk : Disk) (base : String) (file : SourceFile) : Prop where
  project : Path.IsName file.project
  visible : Path.isHidden file.project = false
  name : IsSourceName file.name
  present : disk.isFile (filePath base file) = true

variable {disk : Disk} {now : Nat} {base : String} {tables : Tables} {file : SourceFile}
  {scans : Scans}

theorem isFile_eq {path : String} : disk.isFile path = (disk.bytes? path).isSome := by
  unfold Disk.isFile Disk.bytes?
  cases disk.entry? path with
  | none => rfl
  | some entry => cases entry <;> rfl

theorem mem_projectNames {entries : List (String × Entry)} {project : String} :
    project ∈ projectNames entries ↔
      ∃ entry, (project, entry) ∈ entries ∧ entry.isFolder ∧ Path.isHidden project = false := by
  simp only [projectNames, List.mem_mergeSort, List.mem_map, List.mem_filter, Bool.and_eq_true,
    Bool.not_eq_true']
  constructor
  · rintro ⟨⟨other, entry⟩, ⟨member, isFolder, visible⟩, rfl⟩
    exact ⟨entry, member, isFolder, visible⟩
  · rintro ⟨entry, member, isFolder, visible⟩
    exact ⟨(project, entry), ⟨member, isFolder, visible⟩, rfl⟩

theorem exists_of_corpusProjects {projects : List String}
    (listed : corpusProjects disk base = .ok projects) :
    ∃ entries, disk.list? base = some entries ∧ projectNames entries = projects := by
  unfold corpusProjects listFolder at listed
  split at listed
  · cases listed
  · split at listed
    · rename_i entries found
      exact ⟨entries, found, Except.ok.inj listed⟩
    · cases listed

theorem ne_empty_of_list? {path : String} {entries : List (String × Entry)}
    (found : disk.list? path = some entries) : path ≠ "" := by
  rintro rfl
  cases found

theorem projectPath_ne_empty (notEmpty : base ≠ "") (project : String) :
    projectPath base project ≠ "" := by
  unfold projectPath Path.join
  split
  · rename_i isAbsolute
    rintro rfl
    cases isAbsolute
  · split
    · exact fun none => notEmpty (String.append_eq_empty_iff.mp none).1
    · exact fun none => notEmpty (String.append_eq_empty_iff.mp
        (String.append_eq_empty_iff.mp none).1).1

/-- A file of a folder that is listed is in the list. -/
theorem mem_sourceNames_of_bytes? (notEmpty : base ≠ "") (isName : IsSourceName file.name)
    (present : (disk.bytes? (filePath base file)).isSome) :
    ∃ entries, disk.list? (projectPath base file.project) = some entries ∧
      file.name ∈ sourceNames entries := by
  obtain ⟨bytes, found⟩ := Option.isSome_iff_exists.mp present
  unfold Disk.bytes? at found
  split at found
  · rename_i isThere
    obtain ⟨entries, listed, member⟩ :=
      Disk.exists_of_entry?_join isName.1 (projectPath_ne_empty notEmpty _) isThere
    exact ⟨entries, listed, mem_sourceNames.mpr ⟨_, member, rfl, isName.2⟩⟩
  · cases found

/-- The files of a corpus are those that are right inside a project there is. -/
theorem isSource_iff (named : disk.Named) {projects : List String}
    (listed : corpusProjects disk base = .ok projects) :
    IsSource disk base file ↔ file.project ∈ projects ∧ IsSourceName file.name ∧
      (disk.bytes? (filePath base file)).isSome := by
  obtain ⟨entries, found, rfl⟩ := exists_of_corpusProjects listed
  have notEmpty := ne_empty_of_list? found
  constructor
  · rintro ⟨isProject, visible, isName, present⟩
    rw [isFile_eq] at present
    obtain ⟨inside, isListed, -⟩ := mem_sourceNames_of_bytes? notEmpty isName present
    refine ⟨?_, isName, present⟩
    unfold Disk.list? at isListed
    split at isListed
    · rename_i isThere
      obtain ⟨others, same, member⟩ := Disk.exists_of_entry?_join isProject notEmpty isThere
      obtain rfl : entries = others := Option.some.inj (found.symm.trans same)
      exact mem_projectNames.mpr ⟨_, member, rfl, visible⟩
    · cases isListed
  · rintro ⟨member, isName, present⟩
    obtain ⟨entry, member, -, visible⟩ := mem_projectNames.mp member
    exact ⟨(named.names_of_list? found).1 _ member, visible, isName, isFile_eq.trans present⟩

/-! ## 2. What is known of a file -/

/-- When a file was recorded, and what it held when it was last scanned. -/
def known (tables : Tables) (scans : Scans) (file : SourceFile) : Option Nat × Option ByteArray :=
  (tables.recorded? file, scans.lookup file)

/-- Whether a file was changed after it was recorded if it does not hold what it held then. -/
def IsTimely (disk : Disk) (base : String) (file : SourceFile)
    (known : Option Nat × Option ByteArray) : Prop :=
  ∀ indexed modified, known.1 = some indexed → disk.modified? (filePath base file) = some modified →
    modified ≤ indexed → known.2 = disk.bytes? (filePath base file)

/-- Whether a file holds what it held when it was last scanned, if it is recorded. -/
def IsSettled (disk : Disk) (base : String) (file : SourceFile)
    (known : Option Nat × Option ByteArray) : Prop :=
  known.1.isSome → known.2 = disk.bytes? (filePath base file)

theorem IsSettled.timely {view : Option Nat × Option ByteArray}
    (settled : IsSettled disk base file view) : IsTimely disk base file view :=
  fun _ _ isKnown _ _ => settled (by rw [isKnown]; rfl)

section Steps

variable {after : Tables} {more : Scans} {other : SourceFile}

theorem SyncStep.known_other (step : SyncStep disk now base tables file after more)
    (keyed : tables.Keyed) (apart : other ≠ file) :
    known after (more ++ scans) other = known tables scans other := by
  cases step with
  | removed missing => simp [known, Tables.recorded?_removeWhere keyed, apart]
  | skipped isKnown changed isCurrent => rfl
  | stored found =>
    have differs : (other == file) = false := by simpa using apart
    simp [known, Tables.recorded?_storeFile, Tables.recorded?_removeWhere keyed, apart, apart.symm,
      List.lookup_cons, differs]

theorem SyncStep.recorded (step : SyncStep disk now base tables file after more)
    (keyed : tables.Keyed) :
    (after.recorded? file).isSome = (disk.bytes? (filePath base file)).isSome := by
  cases step with
  | removed missing => simp [Tables.recorded?_removeWhere keyed, missing]
  | skipped isKnown changed isCurrent =>
    have present : disk.bytes? (filePath base file) ≠ none := by
      rw [ne_eq, ← modified?_eq_none, changed]
      simp
    rw [isKnown, Option.isSome_some, eq_comm, Option.isSome_iff_ne_none]
    exact present
  | stored found => simp [Tables.recorded?_storeFile, found]

theorem SyncStep.settled (step : SyncStep disk now base tables file after more)
    (keyed : tables.Keyed) (timely : IsTimely disk base file (known tables scans file)) :
    IsSettled disk base file (known after (more ++ scans) file) := by
  intro isRecorded
  cases step with
  | removed missing => simp [known, Tables.recorded?_removeWhere keyed] at isRecorded
  | skipped isKnown changed isCurrent => exact timely _ _ isKnown changed (by omega)
  | stored found => simp [known, found]

end Steps

/-! ## 3. Syncing files and projects -/

theorem known_syncEach {files : List SourceFile} (reflects : tables.Reflects scans)
    (areSources : ∀ file ∈ files, IsSourceName file.name) (absent : file ∉ files) :
    known (tables.syncEach disk now base files) (scannedFiles disk now base tables files ++ scans)
      file = known tables scans file := by
  induction files generalizing tables scans with
  | nil => rfl
  | cons first rest ih =>
    rw [List.mem_cons, not_or] at absent
    have synced := @Tables.Reflects.syncFile disk now base tables first scans reflects
      (areSources first List.mem_cons_self)
    have step := @syncStep disk now base tables first reflects.dated reflects.keyed
    rw [scannedFiles, List.append_assoc, ← step.known_other reflects.keyed absent.1]
    exact ih synced (fun other member => areSources other (List.mem_cons_of_mem _ member)) absent.2

/-- A file that was synced is recorded exactly if it is there, and holds what it held when it was
last scanned. -/
theorem settled_syncEach {files : List SourceFile} (reflects : tables.Reflects scans)
    (areSources : ∀ file ∈ files, IsSourceName file.name) (member : file ∈ files)
    (timely : IsTimely disk base file (known tables scans file)) :
    ((tables.syncEach disk now base files).recorded? file).isSome =
        (disk.bytes? (filePath base file)).isSome ∧
      IsSettled disk base file (known (tables.syncEach disk now base files)
        (scannedFiles disk now base tables files ++ scans) file) := by
  induction files generalizing tables scans with
  | nil => cases member
  | cons first rest ih =>
    have synced := @Tables.Reflects.syncFile disk now base tables first scans reflects
      (areSources first List.mem_cons_self)
    have step := @syncStep disk now base tables first reflects.dated reflects.keyed
    have later := fun other member => areSources other (List.mem_cons_of_mem first member)
    rw [scannedFiles, List.append_assoc]
    -- It is the last turn of the file that settles it; the rest of the run leaves it alone.
    by_cases again : file ∈ rest
    · refine ih synced later again ?_
      by_cases same : file = first
      · subst same
        exact (step.settled reflects.keyed timely).timely
      · rwa [step.known_other reflects.keyed same]
    · obtain rfl : file = first := (List.mem_cons.mp member).resolve_right again
      have unchanged := @known_syncEach disk now base _ file _ rest synced later again
      have settled := step.settled reflects.keyed timely
      rw [← unchanged] at settled
      refine ⟨?_, settled⟩
      rw [← step.recorded reflects.keyed]
      exact congrArg (·.1.isSome) unchanged

/-- What is known of a file does not change when another project is synced. -/
theorem known_syncProject (reflects : tables.Reflects scans) (named : disk.Named)
    {project : String} (apart : file.project ≠ project) :
    known (tables.syncProject disk now base project).2
      (scannedProject disk now base tables project ++ scans) file = known tables scans file := by
  cases found : disk.list? (projectPath base project) with
  | none =>
    rw [Tables.syncProject_of_missing found, scannedProject_of_missing found]
    simp [known, Tables.recorded?_removeWhere reflects.keyed, apart]
  | some entries =>
    rw [Tables.syncProject_eq found, scannedProject_eq found]
    refine known_syncEach reflects (fun other => reflects.isSourceName_of_mem named found) ?_
    intro member
    obtain ⟨name, -, rfl⟩ := List.mem_map.mp member
    exact apart rfl

/-- A file of a project that was synced is recorded exactly if it is there, and holds what it held
when it was last scanned. -/
theorem settled_syncProject (reflects : tables.Reflects scans) (named : disk.Named)
    (notEmpty : base ≠ "") (timely : IsTimely disk base file (known tables scans file)) :
    (((tables.syncProject disk now base file.project).2.recorded? file).isSome ↔
        IsSourceName file.name ∧ (disk.bytes? (filePath base file)).isSome) ∧
      IsSettled disk base file (known (tables.syncProject disk now base file.project).2
        (scannedProject disk now base tables file.project ++ scans) file) := by
  cases found : disk.list? (projectPath base file.project) with
  | none =>
    have removed : (tables.syncProject disk now base file.project).2.recorded? file = none := by
      rw [Tables.syncProject_of_missing found, Tables.recorded?_removeWhere reflects.keyed]
      simp
    refine ⟨⟨fun isRecorded => ?_, fun isSource => ?_⟩, fun isRecorded => ?_⟩
    · simp [removed] at isRecorded
    · obtain ⟨entries, listed, -⟩ := mem_sourceNames_of_bytes? notEmpty isSource.1 isSource.2
      cases found.symm.trans listed
    · simp [known, removed] at isRecorded
  | some entries =>
    have areSources (other : SourceFile) := @Tables.Reflects.isSourceName_of_mem disk base tables
      other scans reflects named file.project entries found
    -- A file that the run does not come to is neither known nor there, and stays unknown.
    by_cases member : file ∈ tables.filesToSync file.project entries
    · have synced := @settled_syncEach disk now base _ _ _ _ reflects areSources member timely
      rw [Tables.syncProject_eq found, scannedProject_eq found, synced.1]
      exact ⟨⟨fun present => ⟨areSources file member, present⟩, And.right⟩, synced.2⟩
    · have unchanged := @known_syncEach disk now base _ _ _ _ reflects areSources member
      have unlisted (name : String) (isName : file.name = name) :
          name ∉ tables.goneFiles file.project (sourceNames entries) ++ sourceNames entries :=
        fun isListed => member (List.mem_map.mpr ⟨name, isListed, by rw [← isName]⟩)
      have notThere := unlisted file.name rfl
      rw [List.mem_append, not_or] at notThere
      have unknown : tables.recorded? file = none := by
        rw [← Option.not_isSome_iff_eq_none]
        intro isRecorded
        refine notThere.1 (List.mem_filter.mpr ⟨?_, by simpa using notThere.2⟩)
        exact (Tables.mem_files reflects.keyed reflects.dated).mpr isRecorded
      have never : (tables.syncProject disk now base file.project).2.recorded? file = none := by
        rw [Tables.syncProject_eq found, ← unknown]
        exact congrArg (·.1) unchanged
      refine ⟨⟨fun isRecorded => ?_, fun isSource => ?_⟩, fun isRecorded => ?_⟩
      · simp [never] at isRecorded
      · obtain ⟨others, listed, isListed⟩ :=
          mem_sourceNames_of_bytes? notEmpty isSource.1 isSource.2
        obtain rfl : entries = others := Option.some.inj (found.symm.trans listed)
        exact absurd isListed notThere.2
      · simp [known, never] at isRecorded

/-! ## 4. Syncing the corpus -/

theorem known_syncProjects {projects : List String} (reflects : tables.Reflects scans)
    (named : disk.Named) (report : CorpusSync) (absent : file.project ∉ projects) :
    known (tables.syncProjects disk now base projects report).2
      (scannedProjects disk now base tables projects ++ scans) file = known tables scans file := by
  induction projects generalizing tables scans report with
  | nil => rfl
  | cons project rest ih =>
    rw [List.mem_cons, not_or] at absent
    obtain ⟨later, same⟩ := @Tables.syncProjects_cons disk now base project rest report tables
    rw [same, scannedProjects, List.append_assoc,
      ← @known_syncProject disk now base tables file scans reflects named project absent.1]
    exact ih (reflects.syncProject named project) later absent.2

theorem settled_syncProjects {projects : List String} (reflects : tables.Reflects scans)
    (named : disk.Named) (notEmpty : base ≠ "") (report : CorpusSync)
    (member : file.project ∈ projects)
    (timely : IsTimely disk base file (known tables scans file)) :
    (((tables.syncProjects disk now base projects report).2.recorded? file).isSome ↔
        IsSourceName file.name ∧ (disk.bytes? (filePath base file)).isSome) ∧
      IsSettled disk base file (known (tables.syncProjects disk now base projects report).2
        (scannedProjects disk now base tables projects ++ scans) file) := by
  induction projects generalizing tables scans report with
  | nil => cases member
  | cons project rest ih =>
    have synced := @Tables.Reflects.syncProject disk now base tables scans reflects named project
    obtain ⟨later, same⟩ := @Tables.syncProjects_cons disk now base project rest report tables
    rw [same, scannedProjects, List.append_assoc]
    by_cases own : file.project = project
    · have settled := @settled_syncProject disk now base tables file scans reflects named notEmpty
        timely
      rw [own] at settled
      -- If the project comes again, its turn then is a sync of a file that is settled, so timely.
      by_cases again : file.project ∈ rest
      · exact ih synced later again settled.2.timely
      · have unchanged := @known_syncProjects disk now base _ file _ rest synced named later again
        refine ⟨?_, unchanged ▸ settled.2⟩
        rw [← settled.1]
        exact Iff.of_eq (congrArg (·.1.isSome = true) unchanged)
    · refine ih synced later ((List.mem_cons.mp member).resolve_left own) ?_
      rwa [known_syncProject reflects named own]

/-- After the corpus was synced, the recorded files are those of the corpus, and hold what they held
when they were last scanned. -/
theorem settled_syncCorpus {projects : List String} (reflects : tables.Reflects scans)
    (named : disk.Named) (listed : corpusProjects disk base = .ok projects)
    (timely : IsTimely disk base file (known tables scans file)) :
    (((tables.syncCorpus disk now base projects).2.recorded? file).isSome ↔
        IsSource disk base file) ∧
      IsSettled disk base file (known (tables.syncCorpus disk now base projects).2
        (scannedProjects disk now base (withoutOrphans tables projects) projects ++ scans)
        file) := by
  have orphaned : withoutOrphans tables projects =
      tables.removeWhere (·.project ∈ tables.projects.filter (· ∉ projects)) :=
    Tables.removeProjects_eq _ _
  have kept : (withoutOrphans tables projects).Reflects scans :=
    orphaned ▸ reflects.removeWhere _
  -- The removal of projects that are gone forgets the files of these and no others.
  have recorded : (withoutOrphans tables projects).recorded? file =
      if file.project ∈ projects then tables.recorded? file else none := by
    rw [orphaned, Tables.recorded?_removeWhere reflects.keyed]
    by_cases member : file.project ∈ projects
    · simp [member]
    · cases isRecorded : tables.recorded? file with
      | none => simp
      | some stamp =>
        have isKnown := Tables.mem_projects reflects.keyed reflects.dated
          (show (tables.recorded? file).isSome by rw [isRecorded]; rfl)
        simp [member, isKnown]
  obtain ⟨report, synced⟩ : ∃ report, tables.syncCorpus disk now base projects =
      (withoutOrphans tables projects).syncProjects disk now base projects report := ⟨_, rfl⟩
  rw [isSource_iff named listed, synced]
  by_cases member : file.project ∈ projects
  · have notEmpty : base ≠ "" := by
      obtain ⟨entries, found, -⟩ := exists_of_corpusProjects listed
      exact ne_empty_of_list? found
    have still : IsTimely disk base file (known (withoutOrphans tables projects) scans file) := by
      rw [known, recorded, if_pos member]
      exact timely
    have settled := @settled_syncProjects disk now base _ file _ projects kept named notEmpty
      report member still
    exact ⟨settled.1.trans (by simp [member]), settled.2⟩
  · have unchanged := @known_syncProjects disk now base _ file _ projects kept named report member
    rw [known, known, recorded, if_neg member] at unchanged
    have unknown := congrArg (·.1) unchanged
    dsimp only at unknown
    refine ⟨⟨fun isRecorded => ?_, fun isSource => absurd isSource.1 member⟩, fun isRecorded => ?_⟩
    · simp [unknown] at isRecorded
    · simp [known, unknown] at isRecorded

/-! ## 5. What a synced index holds -/

/-- Whether tables have the files of a corpus and what these hold, and nothing else. -/
structure Tables.Mirrors (tables : Tables) (disk : Disk) (base : String) : Prop where
  /-- Each file of the corpus is recorded, once, and no other file is. -/
  files : ∀ file, file ∈ tables.ledger.map (·.row) ↔ IsSource disk base file
  distinct : (tables.ledger.map (·.row)).Nodup
  /-- The references of each file are those it makes now, in their order. -/
  references : ∀ file, tables.referencesIn file =
    if file ∈ tables.ledger.map (·.row) then (scanFile disk base file).references else []
  /-- Every definition is one that its file, which is one of the corpus, makes now. -/
  mappings : ∀ row ∈ tables.mappings, IsSource disk base row.row.file ∧
    row.row ∈ (scanFile disk base row.row.file).mappings
  /-- A project defines an identifier once. -/
  claims : (tables.mappings.map fun row => (row.row.file.project, row.row.urn)).Nodup

/-- What reflects scans that tell what the files of a corpus hold mirrors the corpus. -/
theorem Tables.Reflects.mirrors (reflects : tables.Reflects scans)
    (settled : ∀ file, ((tables.recorded? file).isSome ↔ IsSource disk base file) ∧
      IsSettled disk base file (known tables scans file)) : tables.Mirrors disk base := by
  -- What a recorded file contributed in its last scan is what it contributes now.
  have current {file : SourceFile} {bytes : ByteArray}
      (last : lastScan? scans tables file = some bytes) :
      IsSource disk base file ∧ scanFile disk base file = contribution file bytes := by
    obtain ⟨stamp, isRecorded, isScanned⟩ := Option.bind_eq_some_iff.mp last
    have isThere : (tables.recorded? file).isSome := by rw [isRecorded]; rfl
    refine ⟨(settled file).1.mp isThere, scanFile_eq ?_⟩
    rw [← (settled file).2 isThere]
    exact isScanned
  have files (file : SourceFile) :
      file ∈ tables.ledger.map (·.row) ↔ IsSource disk base file := by
    rw [← reflects.keyed.recorded?_isSome]
    exact (settled file).1
  refine ⟨files, reflects.keyed.files, fun file => ?_, fun row member => ?_, reflects.keyed.claims⟩
  · rw [reflects.references]
    split
    · rename_i isListed
      have isRecorded := reflects.keyed.recorded?_isSome.mpr isListed
      have present := ((files file).mp isListed).present
      rw [isFile_eq] at present
      obtain ⟨bytes, found⟩ := Option.isSome_iff_exists.mp present
      obtain ⟨stamp, isStamp⟩ := Option.isSome_iff_exists.mp isRecorded
      have last : lastScan? scans tables file = some bytes := by
        rw [lastScan?, isStamp, Option.bind_some, ← found]
        exact (settled file).2 isRecorded
      rw [last, (current last).2]
      rfl
    · rename_i unlisted
      have unknown : tables.recorded? file = none := by
        rwa [← Option.not_isSome_iff_eq_none, reflects.keyed.recorded?_isSome]
      simp [lastScan?, unknown]
  · have claims := reflects.claims row.row.file.project row.row.urn
    rw [reflects.keyed.claim?_eq_some.mpr ⟨member, rfl⟩, Option.map_some, eq_comm,
      Option.bind_eq_some_iff] at claims
    obtain ⟨file, -, claims⟩ := claims
    obtain ⟨bytes, last, made⟩ := Option.bind_eq_some_iff.mp claims
    obtain ⟨isMapping, same, -⟩ := definition?_eq_some made
    rw [same, (current last).2]
    exact ⟨(current last).1, isMapping⟩

namespace Moment

/-- Whether every recorded file that no longer holds what it held when it was last scanned was
changed after it was recorded. -/
def Timely (moment : Moment) (base : String) : Prop :=
  ∀ file indexed modified, moment.tables.lastIndexed? file = some indexed →
    moment.disk.modified? (filePath base file) = some modified →
    moment.scans.lookup file ≠ moment.disk.bytes? (filePath base file) → indexed < modified

theorem Timely.isTimely {moment : Moment} (timely : moment.Timely base) (sound : moment.Sound)
    (file : SourceFile) :
    IsTimely moment.disk base file (known moment.tables moment.scans file) := by
  intro indexed modified isRecorded changed isCurrent
  by_contra differs
  have indexedAt := sound.reflects.dated.lastIndexed?_eq sound.reflects.keyed file
  have later := timely file indexed modified (indexedAt.trans isRecorded) changed differs
  omega

theorem Sound.fresh {moment : Moment} (sound : moment.Sound) : moment.fresh.Sound :=
  ⟨sound.named, reflects_empty⟩

theorem timely_fresh (moment : Moment) (base : String) : moment.fresh.Timely base := by
  intro file indexed modified isIndexed
  cases isIndexed

/-- After the corpus was synced, the recorded files are those of the corpus, and hold what they held
when they were last scanned. -/
theorem Sound.settled {moment : Moment} (now : Nat) (sound : moment.Sound)
    (timely : moment.Timely base) {projects : List String}
    (listed : corpusProjects moment.disk base = .ok projects) (file : SourceFile) :
    (((moment.act base (.syncCorpus now)).tables.recorded? file).isSome ↔
        IsSource moment.disk base file) ∧
      IsSettled moment.disk base file (known (moment.act base (.syncCorpus now)).tables
        (moment.act base (.syncCorpus now)).scans file) := by
  unfold Moment.act
  rw [listed]
  exact settled_syncCorpus sound.reflects sound.named listed (timely.isTimely sound file)

/-- After the corpus was synced, the tables mirror it. -/
theorem Sound.mirrors {moment : Moment} (now : Nat) (sound : moment.Sound)
    (timely : moment.Timely base) {projects : List String}
    (listed : corpusProjects moment.disk base = .ok projects) :
    (moment.act base (.syncCorpus now)).tables.Mirrors moment.disk base :=
  (sound.act base (.syncCorpus now)).reflects.mirrors (sound.settled now timely listed)

/-- Syncing the corpus leaves the disk as it is. -/
theorem disk_syncCorpus (moment : Moment) (base : String) (now : Nat) :
    (moment.act base (.syncCorpus now)).disk = moment.disk := by
  unfold act
  cases corpusProjects moment.disk base <;> rfl

theorem run_append (base : String) (history more : List Action) :
    run base (history ++ more) = more.foldl (act base) (run base history) :=
  List.foldl_append

/-- Whatever was done to a corpus and its index, after the corpus was synced its files are recorded
and no others, the references of each file are those it makes now, and every definition is one that
its file makes now, even where files of a project define the same identifier. -/
theorem mirrors_of_history {base : String} {history : List Action} {projects : List String}
    (now : Nat) (timely : (run base history).Timely base)
    (listed : corpusProjects (run base history).disk base = .ok projects) :
    (run base (history ++ [.syncCorpus now])).tables.Mirrors
      (run base (history ++ [.syncCorpus now])).disk base := by
  rw [run_append, List.foldl_cons, List.foldl_nil, disk_syncCorpus]
  exact (sound_run base history).mirrors now timely listed

end Moment

/-! ## 6. A contested identifier -/

/-- The text of a file that defines an identifier and refers to a part of itself. -/
def contestedText : String := "<p corresp=\"urn:x-opensiddur:u\" target=\"#x\"/>"

/-- The document of that text. -/
def contestedDocument : Markup.Document where
  root := ⟨0, "/p", .plain "p", [(.plain "corresp", "urn:x-opensiddur:u"), (.plain "target", "#x")],
    "", [], ""⟩
  namespaces := []

/-- What a file with that text contributes. -/
def contestedRows (file : SourceFile) : Scan :=
  ⟨[⟨"urn:x-opensiddur:u", file, some "/p", some "p", none⟩],
    [⟨"/p", "p", none, "#x", "#x", true, some "urn:x-opensiddur:u", file⟩]⟩

/-- The file of a project that is scanned first. -/
def firstFile : SourceFile := ⟨"A", "a.xml"⟩

/-- The file of the project that is scanned second. -/
def secondFile : SourceFile := ⟨"A", "b.xml"⟩

/-- Two files of a project define an identifier; the one that was scanned last is removed. -/
def contested : List Action :=
  [.write "project/A/a.xml" contestedText.toUTF8 0, .write "project/A/b.xml" contestedText.toUTF8 0,
    .syncFile 1 firstFile (by decide), .syncFile 2 secondFile (by decide),
    .delete "project/A/b.xml"]

/-- A disk with a project of these entries. -/
def shelfOf (entries : List (String × Entry)) : Disk :=
  ⟨[("", .folder [("project", .folder [("A", .folder entries)])])]⟩

/-- What the tables hold when both files were scanned. -/
def contestedTables : Tables :=
  ⟨(contestedRows secondFile).mappings.map (⟨·, 2⟩),
    (contestedRows firstFile).references.map (⟨·, 1⟩) ++
      (contestedRows secondFile).references.map (⟨·, 2⟩),
    [⟨firstFile, 1⟩, ⟨secondFile, 2⟩]⟩

theorem contested_parse : Markup.Document.parse contestedText = .ok contestedDocument := by
  cbv

theorem contribution_contestedText (file : SourceFile) :
    contribution file contestedText.toUTF8 = contestedRows file := by
  rw [contribution, Markup.Document.ofBytes_toUTF8, contested_parse]
  rfl

theorem run_contested : Moment.run "project" contested =
    ⟨shelfOf [("a.xml", .file contestedText.toUTF8 0)], contestedTables,
      [(secondFile, contestedText.toUTF8), (firstFile, contestedText.toUTF8)]⟩ := by
  have written : (Moment.start.disk.write "project/A/a.xml" contestedText.toUTF8 0).write
      "project/A/b.xml" contestedText.toUTF8 0 = shelfOf [("a.xml", .file contestedText.toUTF8 0),
        ("b.xml", .file contestedText.toUTF8 0)] := rfl
  have synced (now : Nat) (tables : Tables) (file : SourceFile)
      (unknown : tables.lastIndexed? file = none)
      (found : (shelfOf [("a.xml", .file contestedText.toUTF8 0),
        ("b.xml", .file contestedText.toUTF8 0)]).bytes? (filePath "project" file) =
          some contestedText.toUTF8) :=
    @syncFile_of_unknown _ now "project" tables file _ unknown found
  obtain ⟨first, firstScan⟩ := synced 1 .empty firstFile rfl rfl
  obtain ⟨second, secondScan⟩ := synced 2 (Tables.storeFile .empty 1 firstFile
    (contestedRows firstFile).mappings (contestedRows firstFile).references) secondFile rfl rfl
  rw [contribution_contestedText] at first second
  simp only [Moment.run, contested, List.foldl_cons, List.foldl_nil, Moment.act]
  rw [written, show Moment.start.tables = .empty from rfl, first, second, firstScan, secondScan]
  rfl

theorem lastIndexed?_contestedTables {file : SourceFile} {indexed : Nat}
    (isIndexed : contestedTables.lastIndexed? file = some indexed) :
    file = firstFile ∧ indexed = 1 ∨ file = secondFile ∧ indexed = 2 := by
  have member : (file, indexed) ∈ contestedTables.stamps := by
    obtain ⟨⟨other, stamp⟩, isLast, rfl⟩ := List.mem_map.mp (List.max?_mem isIndexed)
    obtain ⟨isStamp, same⟩ := List.mem_filter.mp isLast
    rw [← of_decide_eq_true same]
    exact isStamp
  have stamps : contestedTables.stamps =
      [(secondFile, 2), (firstFile, 1), (secondFile, 2), (firstFile, 1), (secondFile, 2)] := rfl
  simp only [stamps, List.mem_cons, List.not_mem_nil, Prod.mk.injEq, or_false] at member
  tauto

/-- There are rows of one project. -/
theorem projects_contestedTables : contestedTables.projects = ["A"] := by
  refine Text.sortedDistinct_eq (by decide) fun project => ?_
  rw [show contestedTables.rowFiles.map (·.project) = ["A", "A", "A", "A", "A"] from rfl]
  simp

/-- There are rows of both files. -/
theorem files_contestedTables : contestedTables.files "A" = ["a.xml", "b.xml"] := by
  refine Text.sortedDistinct_eq (by decide) fun name => ?_
  rw [show contestedTables.rowFiles.filter (·.project = "A") =
    [secondFile, firstFile, secondFile, firstFile, secondFile] from rfl]
  simp only [List.map_cons, List.map_nil, firstFile, secondFile, List.mem_cons, List.not_mem_nil,
    or_false]
  tauto

/-! ## 7. A corpus that was changed -/

/-- The text to which the first file is changed. It still defines the identifier. -/
def partText : String := "<p corresp=\"urn:x-opensiddur:u\"/>"

/-- The text of a file that is added: a note about what the identifier stands for, with a directive
that points at nothing. -/
def noteText : String :=
  "<note xmlns=\"http://www.tei-c.org/ns/1.0\" target=\"urn:x-opensiddur:u\">" ++
    "<transclude xmlns=\"http://jewishliturgy.org/ns/jlptei/2\" target=\"v\"/></note>"

/-- The text of a file that is added: a directive that points at what the identifier stands for. -/
def pointerText : String :=
  "<transclude xmlns=\"http://jewishliturgy.org/ns/jlptei/2\" target=\"urn:x-opensiddur:u\"/>"

/-- The document of the changed file. -/
def partDocument : Markup.Document where
  root := ⟨0, "/p", .plain "p", [(.plain "corresp", "urn:x-opensiddur:u")], "", [], ""⟩
  namespaces := []

/-- The document of the note. -/
def noteDocument : Markup.Document where
  root := ⟨0, "/note", .tei "note", [(.plain "target", "urn:x-opensiddur:u")], "",
    [⟨1, "/note/transclude[1]", .link "transclude", [(.plain "target", "v")], "", [], ""⟩], ""⟩
  namespaces := [(none, "http://www.tei-c.org/ns/1.0")]

/-- The document of the directive. -/
def pointerDocument : Markup.Document where
  root := ⟨0, "/transclude", .link "transclude", [(.plain "target", "urn:x-opensiddur:u")], "", [],
    ""⟩
  namespaces := [(none, "http://jewishliturgy.org/ns/jlptei/2")]

/-- The file of the note. -/
def noteFile : SourceFile := ⟨"A", "c.xml"⟩

/-- The file of the directive. -/
def pointerFile : SourceFile := ⟨"A", "d.xml"⟩

/-- The definition that the changed file makes. -/
def partMapping : Mapping := ⟨"urn:x-opensiddur:u", firstFile, some "/p", some "p", none⟩

/-- The reference that the note makes. -/
def noteReference : Reference :=
  ⟨"/note", (Markup.Name.tei "note").clark, none, "urn:x-opensiddur:u", "urn:x-opensiddur:u", false,
    none, noteFile⟩

/-- The reference that the directive in the note makes. -/
def innerReference : Reference :=
  ⟨"/note/transclude[1]", (Markup.Name.link "transclude").clark, none, "v", "v", false, none,
    noteFile⟩

/-- The reference that the other directive makes. -/
def pointerReference : Reference :=
  ⟨"/transclude", (Markup.Name.link "transclude").clark, none, "urn:x-opensiddur:u",
    "urn:x-opensiddur:u", false, none, pointerFile⟩

/-- After both files were recorded and the second one was removed, the first one is changed and two
others are added. -/
def edited : List Action :=
  contested ++ [.write "project/A/a.xml" partText.toUTF8 3,
    .write "project/A/c.xml" noteText.toUTF8 3, .write "project/A/d.xml" pointerText.toUTF8 3]

/-- The disk that is left. -/
def editedShelf : Disk :=
  shelfOf [("a.xml", .file partText.toUTF8 3), ("c.xml", .file noteText.toUTF8 3),
    ("d.xml", .file pointerText.toUTF8 3)]

/-- What the tables hold when the corpus was synced after that. -/
def editedTables : Tables :=
  ⟨[⟨partMapping, 4⟩], [⟨noteReference, 4⟩, ⟨innerReference, 4⟩, ⟨pointerReference, 4⟩],
    [⟨firstFile, 4⟩, ⟨noteFile, 4⟩, ⟨pointerFile, 4⟩]⟩

theorem part_parse : Markup.Document.parse partText = .ok partDocument := by
  cbv

theorem note_parse : Markup.Document.parse noteText = .ok noteDocument := by
  cbv

theorem pointer_parse : Markup.Document.parse pointerText = .ok pointerDocument := by
  cbv

theorem contribution_partText : contribution firstFile partText.toUTF8 = ⟨[partMapping], []⟩ := by
  rw [contribution, Markup.Document.ofBytes_toUTF8, part_parse]
  decide +kernel

theorem contribution_noteText :
    contribution noteFile noteText.toUTF8 = ⟨[], [noteReference, innerReference]⟩ := by
  rw [contribution, Markup.Document.ofBytes_toUTF8, note_parse]
  decide +kernel

theorem contribution_pointerText :
    contribution pointerFile pointerText.toUTF8 = ⟨[], [pointerReference]⟩ := by
  rw [contribution, Markup.Document.ofBytes_toUTF8, pointer_parse]
  decide +kernel

theorem run_edited : Moment.run "project" edited =
    ⟨editedShelf, contestedTables,
      [(secondFile, contestedText.toUTF8), (firstFile, contestedText.toUTF8)]⟩ := by
  rw [edited, Moment.run_append, run_contested]
  rfl

theorem timely_edited : (Moment.run "project" edited).Timely "project" := by
  rw [run_edited]
  intro file indexed modified isIndexed changed _
  obtain ⟨rfl, rfl⟩ | ⟨rfl, rfl⟩ := lastIndexed?_contestedTables isIndexed
  · cases changed
    decide
  · cases changed

theorem listed_edited :
    corpusProjects (Moment.run "project" edited).disk "project" = .ok ["A"] := by
  rw [run_edited]
  decide +kernel

/-- The second file is gone and its rows are removed, the first one was changed and is scanned
again, and the others are new and are scanned. -/
theorem syncEach_edited :
    contestedTables.syncEach editedShelf 4 "project"
      [secondFile, firstFile, noteFile, pointerFile] = editedTables := by
  let first : Tables := Tables.empty.storeFile 4 firstFile [partMapping] []
  let second : Tables := first.storeFile 4 noteFile [] [noteReference, innerReference]
  -- The four turns: a file that is gone, one that was changed, and two that are new.
  have gone : (contestedTables.syncFile editedShelf 4 "project" secondFile).2 =
      contestedTables.removeWhere (· = secondFile) := rfl
  have changed : ((contestedTables.removeWhere (· = secondFile)).syncFile editedShelf 4 "project"
      firstFile).2 = first := by
    have indexed : (contestedTables.removeWhere (· = secondFile)).lastIndexed? firstFile =
        some 1 := by
      decide +kernel
    have isThere : editedShelf.bytes? (filePath "project" firstFile) = some partText.toUTF8 := rfl
    rw [syncFile_of_changed indexed (show editedShelf.modified? _ = some 3 from rfl) (by decide)
      isThere, contribution_partText]
    rfl
  obtain ⟨third, -⟩ := @syncFile_of_unknown editedShelf 4 "project" first noteFile
    noteText.toUTF8 rfl rfl
  obtain ⟨last, -⟩ := @syncFile_of_unknown editedShelf 4 "project" second pointerFile
    pointerText.toUTF8 rfl rfl
  rw [contribution_noteText] at third
  rw [contribution_pointerText] at last
  rw [Tables.syncEach, List.foldl_cons, gone, List.foldl_cons, changed, List.foldl_cons, third,
    List.foldl_cons]
  exact last

theorem tables_edited :
    (Moment.run "project" (edited ++ [.syncCorpus 4])).tables = editedTables := by
  have orphans : contestedTables.projects.filter (· ∉ ["A"]) = [] := by
    rw [projects_contestedTables]
    rfl
  have names : sourceNames [("a.xml", .file partText.toUTF8 3), ("c.xml", .file noteText.toUTF8 3),
      ("d.xml", .file pointerText.toUTF8 3)] = ["a.xml", "c.xml", "d.xml"] := by
    rw [sourceNames, show List.map _ _ = ["a.xml", "c.xml", "d.xml"] by decide +kernel]
    exact List.mergeSort_of_pairwise (by decide)
  have gone : contestedTables.goneFiles "A" ["a.xml", "c.xml", "d.xml"] = ["b.xml"] := by
    rw [Tables.goneFiles, files_contestedTables]
    rfl
  have listed := listed_edited
  rw [run_edited] at listed
  rw [Moment.run_append, run_edited]
  simp only [List.foldl_cons, List.foldl_nil, Moment.act]
  rw [listed]
  dsimp only [Tables.syncCorpus]
  rw [orphans]
  show (contestedTables.syncProject editedShelf 4 "project" "A").2 = editedTables
  rw [Tables.syncProject_eq rfl, Tables.filesToSync, names, gone]
  exact syncEach_edited

/-- Where two files defined an identifier, the one that took it over was removed, the other one was
changed and further ones were added, the tables mirror what is left: the definition that the changed
file makes now and the references of the new files, and nothing of what was recorded before. -/
theorem mirrors_edited :
    let synced := Moment.run "project" (edited ++ [.syncCorpus 4])
    synced.tables.Mirrors synced.disk "project" ∧
      synced.tables.mappings.map (·.row) = [partMapping] ∧
      synced.tables.references.map (·.row) = [noteReference, innerReference, pointerReference] ∧
      synced.tables.ledger.map (·.row) = [firstFile, noteFile, pointerFile] := by
  intro synced
  have mirrors := Moment.mirrors_of_history 4 timely_edited listed_edited
  have tables : synced.tables = editedTables := tables_edited
  refine ⟨mirrors, ?_, ?_, ?_⟩ <;> rw [tables] <;> rfl

end Intertext.Index
