import Intertext.Index.Resolve
import Intertext.Proofs.Index.Claims
import Intertext.Proofs.Urn.Qualified
/-!
What targets denote.

The tables of the index map identifiers to files. A target denotes an identifier, and so it is in
every file that the tables map this identifier to, of every project or of the one that qualifies it;
a target that denotes a range is in a file if both ends are (`Tables.Resolves`). This is what
resolving finds (`resolves_of_mem`, `exists_resolution`). Whatever was written to the tables and
removed from them, a project defines an identifier in one file only (`Reachable.keyed`), so a target
is in one file of a project at most (`Keyed.resolves_unique`).
-/

namespace Intertext.Index

namespace Tables

variable {tables : Tables}

/-! ## 1. Tables that come about -/

/-- Tables that come about by entering rows, storing what was scanned from a file and removing the
rows of files, in any order and at any times. -/
inductive Reachable : Tables → Prop where
  | empty : Reachable .empty
  | addMapping {tables : Tables} (before : Reachable tables) (now : Nat) (mapping : Mapping) :
    Reachable (tables.addMapping now mapping)
  | addReference {tables : Tables} (before : Reachable tables) (now : Nat)
    (reference : Reference) : Reachable (tables.addReference now reference)
  | storeFile {tables : Tables} (before : Reachable tables) (now : Nat) (file : SourceFile)
    (mappings : List Mapping) (references : List Reference) :
    Reachable (tables.storeFile now file mappings references)
  | removeWhere {tables : Tables} (before : Reachable tables) (p : SourceFile → Bool) :
    Reachable (tables.removeWhere p)

/-- Whatever was done to tables, they have one row for each claim and one for each file. -/
theorem Reachable.keyed (reachable : tables.Reachable) : tables.Keyed := by
  induction reachable with
  | empty => exact keyed_empty
  | addMapping before now mapping ih => exact ih.addMapping now mapping
  | addReference before now reference ih => exact ⟨ih.claims, ih.files⟩
  | storeFile before now file mappings references ih =>
    exact ih.storeFile now file mappings references
  | removeWhere before p ih => exact ih.removeWhere p

/-- Syncing and indexing come down to storing what was scanned and to removing. So what is proved of
reachable tables holds of those that any syncing leaves behind. -/
theorem Synced.reachable (synced : tables.Synced) : tables.Reachable := by
  refine synced.holds ⟨fun before disk now base file => ?_, fun before p => .removeWhere before p⟩
    .empty
  exact .storeFile before now file _ _

/-! ## 2. What a target denotes -/

/-- Whether the tables map an identifier to a file. -/
def Maps (tables : Tables) (urn : String) (file : SourceFile) : Prop :=
  ∃ row ∈ tables.mappings, row.row.urn = urn ∧ row.row.file = file

/-- Whether a target denotes an identifier that is defined in a file. -/
def Places (tables : Tables) (target urn : String) (file : SourceFile) : Prop :=
  Urn.Denotes target urn file.project ∧ tables.Maps urn file

/-- Whether a target is resolved in a file, and to which identifiers: to one that the file defines,
or to the two ends of a range, both of which it defines. -/
inductive Resolves (tables : Tables) (target : String) (file : SourceFile) :
    String → String → Prop where
  | single {urn : String} (plain : Urn.splitRange? target = none)
    (here : tables.Places target urn file) : Resolves tables target file urn urn
  | range {range : Urn.Range} {start stop : String} (split : Urn.splitRange? target = some range)
    (first : tables.Places range.start start file) (last : tables.Places range.stop stop file) :
    Resolves tables target file start stop

variable {target urn start stop : String} {file : SourceFile}

theorem Resolves.maps (resolves : tables.Resolves target file start stop) :
    tables.Maps start file ∧ tables.Maps stop file := by
  cases resolves with
  | single _ here => exact ⟨here.2, here.2⟩
  | range _ first last => exact ⟨first.2, last.2⟩

/-- What looking an identifier up finds. -/
theorem exists_location_iff :
    (∃ location ∈ tables.resolve target, location.file = file ∧ location.urn = urn) ↔
      tables.Places target urn file := by
  constructor
  · rintro ⟨location, member, rfl, rfl⟩
    obtain ⟨mapping, isMapping, rfl⟩ := List.mem_map.mp member
    obtain ⟨isRow, passes⟩ := List.mem_filter.mp (List.mem_mergeSort.mp isMapping)
    obtain ⟨row, inTables, rfl⟩ := List.mem_map.mp isRow
    obtain ⟨named, qualified⟩ := Bool.and_eq_true_iff.mp passes
    refine ⟨Urn.denotes_iff.mpr ⟨of_decide_eq_true named, fun qualifier isQualifier => ?_⟩,
      row, inTables, rfl, rfl⟩
    rw [isQualifier] at qualified
    exact of_decide_eq_true qualified
  · rintro ⟨denotes, row, inTables, rfl, rfl⟩
    obtain ⟨named, qualified⟩ := Urn.denotes_iff.mp denotes
    refine ⟨locationOf row.row, List.mem_map_of_mem ?_, rfl, rfl⟩
    rw [mappingsOf, List.mem_mergeSort, List.mem_filter, Bool.and_eq_true, Option.all_some]
    refine ⟨List.mem_map_of_mem inTables, decide_eq_true named, ?_⟩
    cases isQualifier : (Urn.Qualified.ofList target.toList).project with
    | none => rfl
    | some qualifier => exact decide_eq_true (qualified qualifier isQualifier)

/-- What a target is resolved to is what it denotes. -/
theorem resolves_of_mem {resolution : Resolution}
    (member : resolution ∈ tables.resolveRange target) :
    tables.Resolves target resolution.file resolution.start.urn resolution.stop.urn ∧
      resolution.isRange = (Urn.splitRange? target).isSome := by
  unfold resolveRange at member
  split at member
  · rename_i plain
    obtain ⟨location, isThere, rfl⟩ := List.mem_map.mp member
    exact ⟨.single plain (exists_location_iff.mp ⟨location, isThere, rfl, rfl⟩), by rw [plain]; rfl⟩
  · rename_i range split
    obtain ⟨start, isStart, found⟩ := List.mem_filterMap.mp member
    obtain ⟨stop, isStop, rfl⟩ := Option.map_eq_some_iff.mp found
    have sameFile : stop.file = start.file := by simpa using List.find?_some isStop
    refine ⟨.range split (exists_location_iff.mp ⟨start, isStart, rfl, rfl⟩)
      (exists_location_iff.mp ⟨stop, List.mem_of_find?_eq_some isStop, sameFile, rfl⟩),
      by rw [split]; rfl⟩

/-- What a target denotes it is resolved to. -/
theorem exists_resolution (resolves : tables.Resolves target file start stop) :
    ∃ resolution ∈ tables.resolveRange target, resolution.file = file ∧
      resolution.start.urn = start ∧ resolution.stop.urn = stop := by
  unfold resolveRange
  cases resolves with
  | single plain here =>
    obtain ⟨location, isThere, inFile, named⟩ := exists_location_iff.mpr here
    rw [plain]
    exact ⟨.single location, List.mem_map_of_mem isThere, inFile, named, named⟩
  | @range range _ _ split first last =>
    obtain ⟨location, isThere, inFile, named⟩ := exists_location_iff.mpr first
    obtain ⟨other, isOther, inFile', -⟩ := exists_location_iff.mpr last
    have isSome : ((tables.resolve range.stop).find? (·.file = location.file)).isSome :=
      List.find?_isSome.mpr ⟨other, isOther, by simp [inFile, inFile']⟩
    obtain ⟨found, isFound⟩ := Option.isSome_iff_exists.mp isSome
    -- all places of the end of the range go by one identifier
    have places := exists_location_iff.mp
      ⟨found, List.mem_of_find?_eq_some isFound, rfl, rfl⟩
    have sameUrn : found.urn = stop :=
      (Urn.denotes_iff.mp places.1).1.trans (Urn.denotes_iff.mp last.1).1.symm
    rw [split]
    refine ⟨.range location found, List.mem_filterMap.mpr ⟨location, isThere, ?_⟩, inFile, named,
      sameUrn⟩
    rw [isFound]
    rfl

/-! ## 3. One file of a project -/

/-- A project defines an identifier in one file. -/
theorem Keyed.maps_unique (keyed : tables.Keyed) {other : SourceFile} (maps : tables.Maps urn file)
    (mapsOther : tables.Maps urn other) (same : other.project = file.project) : other = file := by
  obtain ⟨row, isRow, rfl, rfl⟩ := maps
  obtain ⟨row', isRow', sameUrn, rfl⟩ := mapsOther
  have sameClaim : claimOf row'.row = claimOf row.row := by
    rw [claimOf, claimOf, same, sameUrn]
  rw [List.inj_on_of_nodup_map keyed.claims isRow' isRow sameClaim]

/-- A target is in one file of a project, and there it is one identifier or one range. -/
theorem Keyed.resolves_unique (keyed : tables.Keyed) {other : SourceFile} {start' stop' : String}
    (resolves : tables.Resolves target file start stop)
    (resolvesOther : tables.Resolves target other start' stop')
    (same : other.project = file.project) : other = file ∧ start' = start ∧ stop' = stop := by
  -- A project has one file for an identifier, and the target tells both identifiers.
  have sameUrn {target urn urn' : String} (here : tables.Places target urn file)
      (there : tables.Places target urn' other) : urn' = urn :=
    (Urn.denotes_iff.mp there.1).1.trans (Urn.denotes_iff.mp here.1).1.symm
  cases resolves with
  | single plain here =>
    cases resolvesOther with
    | single _ there =>
      obtain rfl := sameUrn here there
      exact ⟨keyed.maps_unique here.2 there.2 same, rfl, rfl⟩
    | range split _ _ =>
      rw [plain] at split
      cases split
  | range split first last =>
    cases resolvesOther with
    | single plain _ =>
      rw [plain] at split
      cases split
    | range split' first' last' =>
      rw [split] at split'
      cases split'
      obtain rfl := sameUrn first first'
      exact ⟨keyed.maps_unique first.2 first'.2 same, rfl, sameUrn last last'⟩

end Tables

end Intertext.Index
