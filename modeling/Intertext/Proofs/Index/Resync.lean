import Mathlib.Data.List.Permutation
import Intertext.Proofs.Index.Mirror
import Intertext.Proofs.Text.Order
/-!
What an index owes to its history.

Syncing an index again and filling an empty one come to the same files and the same references. They
need not come to the same definitions: where files of one project define the same identifier, the
one that was scanned last takes the row over, and the row is lost when that file is gone or defines
the identifier no more, because the files that still define it are up to date and not scanned again.
An index that was filled anew has the row from the last of them by name (`claimant?_fresh`). So the
two agree exactly if in the history, too, the last one by name was the last to claim the identifier
(`resync_agrees_iff`).
-/

namespace Intertext.Index

open Corpus

variable {disk : Disk} {now : Nat} {base : String} {tables : Tables} {file : SourceFile}
  {scans : Scans} {urn : String}

/-! ## 1. Definitions of a corpus -/

/-- Whether a file of the corpus defines an identifier. -/
def Defines (disk : Disk) (base : String) (file : SourceFile) (urn : String) : Prop :=
  IsSource disk base file ∧ ∃ mapping ∈ (scanFile disk base file).mappings, mapping.urn = urn

/-- Whether a file defines an identifier and no other file of its project that defines it comes
after it by name. -/
def IsLastDefinition (disk : Disk) (base : String) (file : SourceFile) (urn : String) : Prop :=
  Defines disk base file urn ∧
    ∀ other, Defines disk base other urn → other.project = file.project →
      Text.le other.name file.name = true

/-- A file defines an identifier if it contributes a mapping for it. -/
theorem definition?_isSome {bytes : ByteArray} :
    (definition? file bytes urn).isSome ↔
      ∃ mapping ∈ (contribution file bytes).mappings, mapping.urn = urn := by
  simp [definition?, List.find?_isSome]

/-- A file that holds some bytes defines what they define. -/
theorem definition?_isSome_of_defines {bytes : ByteArray} (defines : Defines disk base file urn)
    (found : disk.bytes? (filePath base file) = some bytes) :
    (definition? file bytes urn).isSome := by
  rw [definition?_isSome, ← scanFile_eq found]
  exact defines.2

/-! ## 2. The order of the scans

In one sync the projects are scanned in their order and the files of a project in the order of their
names, each at most once. So the last scan that claims an identifier is that of the last file by
name which was scanned and claims it. -/

/-- Whether the later of two scans of one project is of a file that does not come before the other
by name. -/
def Orderly (later earlier : SourceFile × ByteArray) : Prop :=
  later.1.project = earlier.1.project → Text.le earlier.1.name later.1.name = true

/-- Files are scanned in the order of the run, each at most once. -/
theorem scannedFiles_sublist (files : List SourceFile) :
    ((scannedFiles disk now base tables files).map (·.1)).Sublist files.reverse := by
  induction files generalizing tables with
  | nil => simp [scannedFiles]
  | cons first rest ih =>
    rw [scannedFiles, List.map_append, List.reverse_cons]
    refine ih.append ?_
    unfold scanned
    split
    · simp
    · cases disk.bytes? (filePath base first) <;> simp

theorem bytes?_of_mem_scannedFiles {files : List SourceFile} {bytes : ByteArray}
    (member : (file, bytes) ∈ scannedFiles disk now base tables files) :
    disk.bytes? (filePath base file) = some bytes := by
  induction files generalizing tables with
  | nil => cases member
  | cons first rest ih =>
    rcases List.mem_append.mp member with later | isFirst
    · exact ih later
    · unfold scanned at isFirst
      split at isFirst
      · cases isFirst
      · obtain ⟨content, found, same⟩ := List.mem_map.mp isFirst
        cases same
        exact Option.mem_toList.mp found

/-- What syncing a project scans, is among the files that it syncs. -/
theorem exists_of_mem_scannedProject {project : String} {bytes : ByteArray}
    (member : (file, bytes) ∈ scannedProject disk now base tables project) :
    ∃ entries, disk.list? (projectPath base project) = some entries ∧
      file ∈ tables.filesToSync project entries ∧
      disk.bytes? (filePath base file) = some bytes := by
  cases found : disk.list? (projectPath base project) with
  | none =>
    rw [scannedProject_of_missing found] at member
    cases member
  | some entries =>
    rw [scannedProject_eq found] at member
    have isSynced : file ∈ tables.filesToSync project entries :=
      List.mem_reverse.mp
        ((scannedFiles_sublist _).subset (List.mem_map.mpr ⟨_, member, rfl⟩))
    exact ⟨entries, rfl, isSynced, bytes?_of_mem_scannedFiles member⟩

/-- Syncing a project scans files of it only. -/
theorem project_of_mem_scannedProject {project : String} {bytes : ByteArray}
    (member : (file, bytes) ∈ scannedProject disk now base tables project) :
    file.project = project := by
  obtain ⟨entries, -, isSynced, -⟩ := exists_of_mem_scannedProject member
  obtain ⟨name, -, rfl⟩ := List.mem_map.mp isSynced
  rfl

/-- What syncing a project scans, are contents of its files. -/
theorem of_mem_scannedProject (reflects : tables.Reflects scans) (named : disk.Named)
    {project : String} {bytes : ByteArray}
    (member : (file, bytes) ∈ scannedProject disk now base tables project) :
    file.project = project ∧ IsSourceName file.name ∧
      disk.bytes? (filePath base file) = some bytes := by
  obtain ⟨entries, found, isSynced, holds⟩ := exists_of_mem_scannedProject member
  exact ⟨project_of_mem_scannedProject member, reflects.isSourceName_of_mem named found isSynced,
    holds⟩

/-- What is scanned in a run over projects is a file of one of them, with its bytes. -/
theorem of_mem_scannedProjects {projects : List String} (reflects : tables.Reflects scans)
    (named : disk.Named) {bytes : ByteArray}
    (member : (file, bytes) ∈ scannedProjects disk now base tables projects) :
    file.project ∈ projects ∧ IsSourceName file.name ∧
      disk.bytes? (filePath base file) = some bytes := by
  induction projects generalizing tables scans with
  | nil => cases member
  | cons project rest ih =>
    rcases List.mem_append.mp member with later | isFirst
    · have others := ih (reflects.syncProject named project) later
      exact ⟨List.mem_cons_of_mem _ others.1, others.2⟩
    · obtain ⟨rfl, source⟩ := of_mem_scannedProject reflects named isFirst
      exact ⟨List.mem_cons_self, source⟩

/-- The names in a folder are gone through in the order of texts. -/
theorem pairwise_sourceNames (entries : List (String × Entry)) :
    (sourceNames entries).Pairwise (Text.le · · = true) :=
  List.pairwise_mergeSort Text.le_trans Text.le_total _

/-- A project of which nothing is recorded is scanned in the order of the names. -/
theorem pairwise_scannedProject (keyed : tables.Keyed) (dated : tables.Dated) {project : String}
    (unknown : ∀ name, tables.recorded? ⟨project, name⟩ = none) :
    (scannedProject disk now base tables project).Pairwise Orderly := by
  cases found : disk.list? (projectPath base project) with
  | none =>
    rw [scannedProject_of_missing found]
    exact .nil
  | some entries =>
    have none : tables.goneFiles project (sourceNames entries) = [] := by
      refine List.filter_eq_nil_iff.mpr fun name member => ?_
      have isKnown := (Tables.mem_files keyed dated).mp member
      simp [unknown] at isKnown
    rw [scannedProject_eq found, Tables.filesToSync, none, List.nil_append]
    have inOrder : ((sourceNames entries).map (SourceFile.mk project)).reverse.Pairwise
        fun later earlier => later.project = earlier.project →
          Text.le earlier.name later.name = true := by
      rw [List.pairwise_reverse, List.pairwise_map]
      refine (pairwise_sourceNames entries).imp ?_
      intro earlier later before _
      exact before
    have scanned := inOrder.sublist (@scannedFiles_sublist disk now base tables _)
    rw [List.pairwise_map] at scanned
    exact scanned

/-- Projects of which nothing is recorded are scanned in the order of the names. -/
theorem pairwise_scannedProjects {projects : List String} (reflects : tables.Reflects scans)
    (named : disk.Named) (distinct : projects.Nodup)
    (unknown : ∀ file : SourceFile, file.project ∈ projects → tables.recorded? file = none) :
    (scannedProjects disk now base tables projects).Pairwise Orderly := by
  induction projects generalizing tables scans with
  | nil => exact .nil
  | cons project rest ih =>
    rw [List.nodup_cons] at distinct
    have synced := @Tables.Reflects.syncProject disk now base tables scans reflects named project
    rw [scannedProjects, List.pairwise_append]
    refine ⟨?_, ?_, ?_⟩
    · refine ih synced distinct.2 fun file member => ?_
      have apart : file.project ≠ project := fun same => distinct.1 (same ▸ member)
      rw [← unknown file (List.mem_cons_of_mem _ member)]
      have kept := @known_syncProject disk now base tables file scans reflects named project apart
      exact congrArg (·.1) kept
    · exact pairwise_scannedProject reflects.keyed reflects.dated
        fun name => unknown _ List.mem_cons_self
    · intro later isLater earlier isEarlier same
      have inRest := (of_mem_scannedProjects synced named isLater).1
      rw [same, (of_mem_scannedProject reflects named isEarlier).1] at inRest
      exact absurd inRest distinct.1

/-! ## 3. An index that was filled anew

With empty tables no file is known, so that every file is scanned. The last claim of an identifier
is then that of the last file by name which defines it. -/

theorem nodup_of_corpusProjects (named : disk.Named) {projects : List String}
    (listed : corpusProjects disk base = .ok projects) : projects.Nodup := by
  obtain ⟨entries, found, rfl⟩ := exists_of_corpusProjects listed
  rw [projectNames, (List.mergeSort_perm _ _).nodup_iff]
  exact (named.names_of_list? found).2.sublist (List.filter_sublist.map _)

/-- The files that were scanned last define what they claim, unless they changed since. -/
theorem claim?_eq_some_iff (reflects : tables.Reflects scans)
    (settled : ∀ file, ((tables.recorded? file).isSome ↔ IsSource disk base file) ∧
      IsSettled disk base file (known tables scans file)) {project : String} {mapping : Mapping} :
    (tables.claim? project urn).map (·.row) = some mapping ↔
      ∃ file, claimant? scans project urn = some file ∧ IsSource disk base file ∧
        (scanFile disk base file).mappings.find? (·.urn = urn) = some mapping := by
  rw [reflects.claims, Option.bind_eq_some_iff]
  refine exists_congr fun file => and_congr_right fun _ => ?_
  -- Settled means that the last scan of a recorded file holds what the file has on disk.
  constructor
  · intro claims
    obtain ⟨bytes, last, made⟩ := Option.bind_eq_some_iff.mp claims
    obtain ⟨stamp, isRecorded, isScanned⟩ := Option.bind_eq_some_iff.mp last
    have isThere : (tables.recorded? file).isSome := by rw [isRecorded]; rfl
    have found := ((settled file).2 isThere).symm.trans isScanned
    refine ⟨(settled file).1.mp isThere, ?_⟩
    rw [scanFile_eq found]
    exact made
  · rintro ⟨isSource, made⟩
    have isThere := (settled file).1.mpr isSource
    have present := isSource.present
    rw [isFile_eq] at present
    obtain ⟨bytes, found⟩ := Option.isSome_iff_exists.mp present
    obtain ⟨stamp, isRecorded⟩ := Option.isSome_iff_exists.mp isThere
    have isScanned : scans.lookup file = some bytes := ((settled file).2 isThere).trans found
    rw [scanFile_eq found] at made
    rw [lastScan?, isRecorded, Option.bind_some, isScanned, Option.bind_some]
    exact made

theorem withoutOrphans_empty (projects : List String) : withoutOrphans .empty projects = .empty :=
  Tables.removeProjects_eq _ _

section Fresh

variable {projects : List String}

/-- Filling an index scans every file that defines something. -/
theorem exists_scan_of_defines (now : Nat) (named : disk.Named)
    (listed : corpusProjects disk base = .ok projects) (defines : Defines disk base file urn) :
    ∃ bytes, (file, bytes) ∈ scannedProjects disk now base .empty projects ∧
      (definition? file bytes urn).isSome := by
  have settled := @settled_syncCorpus disk now base .empty file [] projects reflects_empty named
    listed fun _ _ isRecorded _ _ => by cases isRecorded
  have present := defines.1.present
  rw [isFile_eq] at present
  obtain ⟨bytes, found⟩ := Option.isSome_iff_exists.mp present
  have isScanned := settled.2 (settled.1.mpr defines.1)
  rw [withoutOrphans_empty, found, known, List.append_nil] at isScanned
  obtain ⟨before, after, same, -⟩ := List.lookup_eq_some_iff.mp isScanned
  exact ⟨bytes, by simp [same], definition?_isSome_of_defines defines found⟩

/-- Filling an index scans the files of the corpus. -/
theorem isSource_of_scan {bytes : ByteArray} (named : disk.Named)
    (listed : corpusProjects disk base = .ok projects)
    (member : (file, bytes) ∈ scannedProjects disk now base .empty projects) :
    IsSource disk base file ∧ disk.bytes? (filePath base file) = some bytes := by
  obtain ⟨isProject, isName, found⟩ := of_mem_scannedProjects reflects_empty named member
  exact ⟨(isSource_iff named listed).mpr ⟨isProject, isName, by rw [found]; rfl⟩, found⟩

/-- Whichever file claimed an identifier last is the last by name to define it. -/
theorem isLastDefinition_of_claimant? {project : String} (named : disk.Named)
    (listed : corpusProjects disk base = .ok projects)
    (claims : claimant? (scannedProjects disk now base .empty projects) project urn = some file) :
    IsLastDefinition disk base file urn ∧ file.project = project := by
  have inOrder := @pairwise_scannedProjects disk now base .empty [] projects reflects_empty named
    (nodup_of_corpusProjects named listed) fun _ _ => rfl
  obtain ⟨⟨first, bytes⟩, found, rfl⟩ := Option.map_eq_some_iff.mp claims
  obtain ⟨holds, before, after, same, misses⟩ := List.find?_eq_some_iff_append.mp found
  simp only [Bool.and_eq_true, decide_eq_true_eq] at holds
  have isSource := isSource_of_scan named listed (List.mem_of_find?_eq_some found)
  refine ⟨⟨⟨isSource.1, ?_⟩, fun other defines sameProject => ?_⟩, holds.1⟩
  · rw [scanFile_eq isSource.2, ← definition?_isSome]
    exact holds.2
  · obtain ⟨content, member, isDefined⟩ := exists_scan_of_defines now named listed defines
    rw [same] at member inOrder
    -- A scan that is later than the claim misses the identifier, and one that is earlier is of a
    -- file before by name.
    rcases List.mem_append.mp member with later | earlier
    · have misses := misses _ later
      simp [sameProject, holds.1, isDefined] at misses
    · rcases List.mem_cons.mp earlier with isFirst | earlier
      · cases isFirst
        exact decide_eq_true (String.le_refl _)
      · have apart := (List.pairwise_append.mp inOrder).2.1
        have orderly := (List.pairwise_cons.mp apart).1 _ earlier
        exact orderly sameProject.symm

/-- If any file of a project defines an identifier, there is one that claims it last. -/
theorem exists_claimant?_fresh (now : Nat) (named : disk.Named)
    (listed : corpusProjects disk base = .ok projects) (defines : Defines disk base file urn) :
    ∃ last, claimant? (scannedProjects disk now base .empty projects) file.project urn =
      some last := by
  obtain ⟨bytes, member, isDefined⟩ := exists_scan_of_defines now named listed defines
  rw [← Option.isSome_iff_exists, claimant?, Option.isSome_map, List.find?_isSome]
  exact ⟨(file, bytes), member, by simp [isDefined]⟩

/-- The file that claimed an identifier last in an index that was filled anew is the last one by
name that defines it. -/
theorem claimant?_fresh (now : Nat) (named : disk.Named)
    (listed : corpusProjects disk base = .ok projects) :
    claimant? (scannedProjects disk now base .empty projects) file.project urn = some file ↔
      IsLastDefinition disk base file urn := by
  refine ⟨fun claims => (isLastDefinition_of_claimant? named listed claims).1, fun last => ?_⟩
  obtain ⟨other, claims⟩ := exists_claimant?_fresh now named listed last.1
  obtain ⟨otherLast, sameProject⟩ := isLastDefinition_of_claimant? named listed claims
  have sameName : other.name = file.name :=
    String.le_antisymm (of_decide_eq_true (last.2 other otherLast.1 sameProject))
      (of_decide_eq_true (otherLast.2 file last.1 sameProject.symm))
  rw [claims, Option.some_inj]
  cases other
  cases file
  rw [SourceFile.mk.injEq]
  exact ⟨sameProject, sameName⟩

end Fresh

/-! ## 4. Syncing again and filling anew

Both indexes reflect their scans, and both have a row of an identifier from whichever file claimed
it last. So they have the same rows exactly if these files are the same, for every identifier that
is still defined. -/

/-- Two tables that have one row for each claim have the same definitions if they answer alike. -/
theorem Tables.Keyed.perm_mappings_iff {others : Tables} (keyed : tables.Keyed)
    (keyedOthers : others.Keyed) :
    (tables.mappings.map (·.row)).Perm (others.mappings.map (·.row)) ↔
      ∀ project urn, (tables.claim? project urn).map (·.row) =
        (others.claim? project urn).map (·.row) := by
  have nodup {tables : Tables} (keyed : tables.Keyed) : (tables.mappings.map (·.row)).Nodup := by
    refine List.Nodup.of_map claimOf ?_
    rw [List.map_map]
    exact keyed.claims
  have member {tables : Tables} (keyed : tables.Keyed) (mapping : Mapping) :
      mapping ∈ tables.mappings.map (·.row) ↔
        (tables.claim? mapping.file.project mapping.urn).map (·.row) = some mapping := by
    rw [List.mem_map, Option.map_eq_some_iff]
    refine exists_congr fun row => ⟨fun ⟨member, same⟩ => ?_, fun ⟨found, same⟩ => ?_⟩
    · subst same
      exact ⟨keyed.claim?_eq_some.mpr ⟨member, rfl⟩, rfl⟩
    · exact ⟨(keyed.claim?_eq_some.mp found).1, same⟩
  -- A row answers for the one claim that it makes.
  have owner {tables : Tables} (keyed : tables.Keyed) {project urn : String} {mapping : Mapping}
      (found : (tables.claim? project urn).map (·.row) = some mapping) :
      mapping.file.project = project ∧ mapping.urn = urn := by
    obtain ⟨row, isRow, rfl⟩ := Option.map_eq_some_iff.mp found
    exact Prod.mk.inj (keyed.claim?_eq_some.mp isRow).2
  rw [List.perm_ext_iff_of_nodup (nodup keyed) (nodup keyedOthers)]
  constructor
  · intro same project urn
    ext mapping
    constructor
    · intro found
      obtain ⟨rfl, rfl⟩ := owner keyed found
      exact (member keyedOthers mapping).mp ((same mapping).mp ((member keyed mapping).mpr found))
    · intro found
      obtain ⟨rfl, rfl⟩ := owner keyedOthers found
      exact (member keyed mapping).mp ((same mapping).mpr ((member keyedOthers mapping).mpr found))
  · intro same mapping
    rw [member keyed, member keyedOthers, same]

/-- A source that contributes a mapping for an identifier defines it. -/
theorem defines_of_find? {mapping : Mapping} (isSource : IsSource disk base file)
    (made : (scanFile disk base file).mappings.find? (·.urn = urn) = some mapping) :
    Defines disk base file urn :=
  ⟨isSource, mapping, List.mem_of_find?_eq_some made, by simpa using List.find?_some made⟩

/-- A file that defines an identifier contributes a mapping for it. -/
theorem Defines.find? (defines : Defines disk base file urn) :
    ∃ mapping, (scanFile disk base file).mappings.find? (·.urn = urn) = some mapping := by
  rw [← Option.isSome_iff_exists, List.find?_isSome]
  obtain ⟨mapping, member, same⟩ := defines.2
  exact ⟨mapping, member, by simpa using same⟩

/-- Definitions come from the file that makes them. -/
theorem file_of_find? {mapping : Mapping}
    (made : (scanFile disk base file).mappings.find? (·.urn = urn) = some mapping) :
    mapping.file = file :=
  file_of_mem_scanFile (List.mem_of_find?_eq_some made)

namespace Moment

variable {moment : Moment} {projects : List String}

/-- An index that is filled anew scans the whole corpus. -/
theorem scans_fresh (listed : corpusProjects moment.disk base = .ok projects) :
    (moment.fresh.act base (.syncCorpus now)).scans =
      scannedProjects moment.disk now base .empty projects := by
  have listed : corpusProjects moment.fresh.disk base = .ok projects := listed
  unfold act
  rw [listed]
  show scannedProjects moment.disk now base (withoutOrphans .empty projects) projects ++ [] = _
  rw [withoutOrphans_empty, List.append_nil]

/-- An index that was filled anew has the definitions of the last files by name. -/
theorem Sound.claim?_fresh (now : Nat) (sound : moment.Sound)
    (listed : corpusProjects moment.disk base = .ok projects) {project : String}
    {mapping : Mapping} :
    ((moment.fresh.act base (.syncCorpus now)).tables.claim? project urn).map (·.row) =
        some mapping ↔
      ∃ file, (IsLastDefinition moment.disk base file urn ∧ file.project = project) ∧
        (scanFile moment.disk base file).mappings.find? (·.urn = urn) = some mapping := by
  rw [claim?_eq_some_iff (sound.fresh.act base (.syncCorpus now)).reflects
    (sound.fresh.settled now (timely_fresh moment base) listed), scans_fresh listed]
  refine exists_congr fun file => ?_
  constructor
  · rintro ⟨claims, -, made⟩
    exact ⟨isLastDefinition_of_claimant? sound.named listed claims, made⟩
  · rintro ⟨⟨last, rfl⟩, made⟩
    exact ⟨(claimant?_fresh now sound.named listed).mpr last, last.1.1, made⟩

/-- The definitions are those of an index that was filled anew exactly if each was claimed last by
the last file by name. -/
theorem Sound.perm_fresh_iff (now later : Nat) (sound : moment.Sound) (timely : moment.Timely base)
    (listed : corpusProjects moment.disk base = .ok projects) :
    ((moment.act base (.syncCorpus now)).tables.mappings.map (·.row)).Perm
        ((moment.fresh.act base (.syncCorpus later)).tables.mappings.map (·.row)) ↔
      ∀ file urn, IsLastDefinition moment.disk base file urn →
        claimant? (moment.act base (.syncCorpus now)).scans file.project urn = some file := by
  have reflects := (sound.act base (.syncCorpus now)).reflects
  have settled := sound.settled now timely listed
  rw [reflects.keyed.perm_mappings_iff (sound.fresh.act base (.syncCorpus later)).reflects.keyed]
  constructor
  · intro same file urn last
    obtain ⟨mapping, made⟩ := last.1.find?
    have isFresh := (sound.claim?_fresh later listed).mpr ⟨file, ⟨last, rfl⟩, made⟩
    rw [← same, claim?_eq_some_iff reflects settled] at isFresh
    obtain ⟨other, claims, -, madeByOther⟩ := isFresh
    rw [claims, ← file_of_find? made, file_of_find? madeByOther]
  · intro agree project urn
    ext mapping
    rw [claim?_eq_some_iff reflects settled, sound.claim?_fresh later listed]
    refine exists_congr fun file => ?_
    constructor
    · rintro ⟨claims, isSource, made⟩
      -- The identifier is still defined, so that filled anew it has a claimant, which is the last
      -- by name.
      obtain ⟨last, claimsFresh⟩ :=
        exists_claimant?_fresh later sound.named listed (defines_of_find? isSource made)
      obtain ⟨isLast, sameProject⟩ := isLastDefinition_of_claimant? sound.named listed claimsFresh
      have ofProject := project_of_claimant? claims
      have claimsLast := agree last urn isLast
      rw [sameProject, ofProject, claims] at claimsLast
      cases claimsLast
      exact ⟨⟨isLast, ofProject⟩, made⟩
    · rintro ⟨⟨last, rfl⟩, made⟩
      exact ⟨agree file urn last, last.1.1, made⟩

/-- An identifier is defined exactly if the file that claimed it last still defines it. -/
theorem Sound.claim?_isSome_iff (now : Nat) (sound : moment.Sound) (timely : moment.Timely base)
    (listed : corpusProjects moment.disk base = .ok projects) (project urn : String) :
    ((moment.act base (.syncCorpus now)).tables.claim? project urn).isSome ↔
      ∃ file, claimant? (moment.act base (.syncCorpus now)).scans project urn = some file ∧
        Defines moment.disk base file urn := by
  have claims {mapping : Mapping} := @claim?_eq_some_iff _ base _ _ urn
    (sound.act base (.syncCorpus now)).reflects (sound.settled now timely listed) project mapping
  rw [← Option.isSome_map, Option.isSome_iff_exists]
  constructor
  · rintro ⟨mapping, found⟩
    obtain ⟨file, isLast, isSource, made⟩ := claims.mp found
    exact ⟨file, isLast, defines_of_find? isSource made⟩
  · rintro ⟨file, isLast, defines⟩
    obtain ⟨mapping, made⟩ := defines.find?
    exact ⟨mapping, claims.mpr ⟨file, isLast, defines.1, made⟩⟩

end Moment

/-- Syncing an index again comes to the files and the references of an index that is filled anew.
It comes to the same definitions exactly if, in the history, each identifier was claimed last by the
last file by name that defines it; and an identifier is defined exactly if the file that was the
last to claim it is one of the corpus that still defines it. -/
theorem resync_agrees_iff {base : String} {history : List Action} {projects : List String}
    (now later : Nat) (timely : (Moment.run base history).Timely base)
    (listed : corpusProjects (Moment.run base history).disk base = .ok projects) :
    let before := Moment.run base history
    let synced := before.act base (.syncCorpus now)
    let fresh := before.fresh.act base (.syncCorpus later)
    (synced.tables.ledger.map (·.row)).Perm (fresh.tables.ledger.map (·.row)) ∧
    (∀ file, synced.tables.referencesIn file = fresh.tables.referencesIn file) ∧
    ((synced.tables.mappings.map (·.row)).Perm (fresh.tables.mappings.map (·.row)) ↔
      ∀ file urn, IsLastDefinition before.disk base file urn →
        claimant? synced.scans file.project urn = some file) ∧
    ∀ project urn, (synced.tables.claim? project urn).isSome ↔
      ∃ file, claimant? synced.scans project urn = some file ∧
        Defines before.disk base file urn := by
  intro before synced fresh
  have sound : before.Sound := Moment.sound_run base history
  have mirrors := sound.mirrors now timely listed
  have mirrorsFresh := sound.fresh.mirrors later (Moment.timely_fresh before base) listed
  -- Both indexes mirror the one corpus, and it says which files there are.
  have sameFiles (file : SourceFile) :
      file ∈ synced.tables.ledger.map (·.row) ↔ file ∈ fresh.tables.ledger.map (·.row) := by
    rw [mirrors.files, mirrorsFresh.files]
    rfl
  refine ⟨?_, ?_, ?_, ?_⟩
  · exact (List.perm_ext_iff_of_nodup mirrors.distinct mirrorsFresh.distinct).mpr sameFiles
  · intro file
    rw [mirrors.references, mirrorsFresh.references, if_congr (sameFiles file) rfl rfl]
    rfl
  · exact sound.perm_fresh_iff now later timely listed
  · exact sound.claim?_isSome_iff now timely listed

/-! ## 5. A contested identifier

Two files define an identifier, and the one that was scanned last is removed. It claimed the
identifier last, so the row goes with it, and the first file is up to date and is not scanned. -/

theorem timely_contested : (Moment.run "project" contested).Timely "project" := by
  rw [run_contested]
  intro file indexed modified isIndexed changed differs
  obtain ⟨rfl, rfl⟩ | ⟨rfl, rfl⟩ := lastIndexed?_contestedTables isIndexed
  · exact absurd rfl differs
  · cases changed

theorem listed_contested :
    corpusProjects (Moment.run "project" contested).disk "project" = .ok ["A"] := by
  rw [run_contested]
  decide +kernel

/-- The file that is left still defines the identifier, but it is up to date and not scanned. -/
theorem scannedProjects_contested :
    scannedProjects (shelfOf [("a.xml", .file contestedText.toUTF8 0)]) 3 "project"
      (withoutOrphans contestedTables ["A"]) ["A"] = [] := by
  have orphans : contestedTables.projects.filter (· ∉ ["A"]) = [] := by
    rw [projects_contestedTables]
    rfl
  have kept : withoutOrphans contestedTables ["A"] = contestedTables := by
    rw [withoutOrphans, orphans]
    rfl
  have listed : (shelfOf [("a.xml", .file contestedText.toUTF8 0)]).list?
      (projectPath "project" "A") = some [("a.xml", .file contestedText.toUTF8 0)] := rfl
  have names : sourceNames [("a.xml", .file contestedText.toUTF8 0)] = ["a.xml"] := by
    decide +kernel
  -- The run comes to both files: to the one that is gone, since it is known, and to the one in the
  -- folder.
  have gone : contestedTables.goneFiles "A" ["a.xml"] = ["b.xml"] := by
    rw [Tables.goneFiles, files_contestedTables]
    rfl
  rw [kept, scannedProjects, scannedProjects, scannedProject_eq listed, Tables.filesToSync, names,
    gone]
  rfl

/-- The first file defines the identifier still. -/
theorem defines_firstFile :
    Defines (Moment.run "project" contested).disk "project" firstFile "urn:x-opensiddur:u" := by
  rw [run_contested]
  refine ⟨⟨by decide, by decide, by decide, rfl⟩, ?_⟩
  rw [scanFile_eq (show _ = some contestedText.toUTF8 from rfl), contribution_contestedText]
  exact ⟨_, List.mem_cons_self, rfl⟩

/-- The last sync scans nothing: both scans were made by earlier ones. -/
theorem scans_contested :
    ((Moment.run "project" contested).act "project" (.syncCorpus 3)).scans =
      [(secondFile, contestedText.toUTF8), (firstFile, contestedText.toUTF8)] := by
  have listed := listed_contested
  unfold Moment.act
  rw [listed, run_contested]
  show scannedProjects _ _ _ _ _ ++ _ = _
  rw [scannedProjects_contested]
  rfl

theorem not_defines_secondFile : ¬ Defines (Moment.run "project" contested).disk "project"
    secondFile "urn:x-opensiddur:u" := by
  rw [run_contested]
  intro defines
  cases defines.1.present

/-- The removed file was the last to claim the identifier. -/
theorem claimant?_contested :
    claimant? ((Moment.run "project" contested).act "project" (.syncCorpus 3)).scans "A"
      "urn:x-opensiddur:u" = some secondFile := by
  have isDefined : (definition? secondFile contestedText.toUTF8 "urn:x-opensiddur:u").isSome := by
    rw [definition?_isSome, contribution_contestedText]
    exact ⟨_, List.mem_cons_self, rfl⟩
  rw [scans_contested, claimant?_cons, if_pos ⟨rfl, isDefined⟩]

/-- The identifier is forgotten although a file of the corpus defines it, and an index that is
filled anew has it. -/
theorem contested_forgotten :
    (Moment.run "project" contested).Timely "project" ∧
    corpusProjects (Moment.run "project" contested).disk "project" = .ok ["A"] ∧
    Defines (Moment.run "project" contested).disk "project" firstFile "urn:x-opensiddur:u" ∧
    ((Moment.run "project" contested).act "project" (.syncCorpus 3)).tables.claim? "A"
      "urn:x-opensiddur:u" = none ∧
    ¬ (((Moment.run "project" contested).act "project" (.syncCorpus 3)).tables.mappings.map
        (·.row)).Perm
      (((Moment.run "project" contested).fresh.act "project" (.syncCorpus 3)).tables.mappings.map
        (·.row)) := by
  have sound := Moment.sound_run "project" contested
  refine ⟨timely_contested, listed_contested, defines_firstFile, ?_, fun same => ?_⟩
  · rw [← Option.not_isSome_iff_eq_none,
      sound.claim?_isSome_iff 3 timely_contested listed_contested]
    rintro ⟨file, isLast, defines⟩
    cases claimant?_contested.symm.trans isLast
    exact not_defines_secondFile defines
  · have agree := (sound.perm_fresh_iff 3 3 timely_contested listed_contested).mp same
    -- Filled anew, the index has the identifier from a file that still defines it.
    obtain ⟨last, claims⟩ :=
      exists_claimant?_fresh 3 sound.named listed_contested defines_firstFile
    obtain ⟨isLast, sameProject⟩ :=
      isLastDefinition_of_claimant? sound.named listed_contested claims
    have claimsLast := agree last _ isLast
    rw [sameProject] at claimsLast
    cases claimant?_contested.symm.trans claimsLast
    exact not_defines_secondFile isLast.1

/-- In the history of the contested identifier the files and references agree, and the identifier is
defined no more. -/
theorem resync_contested :
    (((Moment.run "project" contested).act "project" (.syncCorpus 3)).tables.ledger.map
        (·.row)).Perm
      (((Moment.run "project" contested).fresh.act "project" (.syncCorpus 3)).tables.ledger.map
        (·.row)) ∧
    (∀ file,
      ((Moment.run "project" contested).act "project" (.syncCorpus 3)).tables.referencesIn file =
      ((Moment.run "project" contested).fresh.act "project" (.syncCorpus 3)).tables.referencesIn
        file) ∧
    ¬ (((Moment.run "project" contested).act "project" (.syncCorpus 3)).tables.claim? "A"
      "urn:x-opensiddur:u").isSome := by
  obtain ⟨files, references, -, defined⟩ :=
    resync_agrees_iff 3 3 timely_contested listed_contested
  refine ⟨files, references, fun isDefined => ?_⟩
  obtain ⟨file, isLast, defines⟩ := (defined "A" "urn:x-opensiddur:u").mp isDefined
  cases claimant?_contested.symm.trans isLast
  exact not_defines_secondFile defines

end Intertext.Index
