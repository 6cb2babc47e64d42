import Mathlib.Data.List.Nodup
import Intertext.Proofs.Index.Rows
import Intertext.Proofs.Text.Order
/-!
What tables answer by key.

A file is known if any row is of it, and then a time is known at which it was last indexed. A
project has at most one row for an identifier, and the ledger one for each file. What writing and
removing do to these rows is told by `Tables.claim?`, `Tables.recorded?` and `Tables.referencesIn`
alone: a definition takes the place of the project's earlier one and no other, a file is recorded
under the time of its last scan, and references are added after those of the file. Where the order
of the rows matters, it is the one in which their keys came first.
-/

namespace Intertext.Index

open Markup (Document Node)

/-! ## 1. Rows by key

An upsert replaces the first row of the key or appends. The lemmas read it as a map from keys to
rows, and for rows whose keys are distinct the map says all there is to say about membership. -/

namespace Tables

section Keys

variable {α κ : Type} [DecidableEq κ] {key : α → κ}

/-- The row of a key, once a row has been put in its place. -/
theorem find?_upsert (row : Stamped α) (k : κ) :
    ∀ rows : List (Stamped α),
      (upsert (fun old => key old = key row.row) row rows).find? (fun old => key old.row = k) =
        if key row.row = k then some row else rows.find? fun old => key old.row = k
  | [] => by by_cases same : key row.row = k <;> simp [upsert, same]
  | old :: rest => by
    have ih := find?_upsert row k rest
    unfold upsert
    by_cases isOld : key old.row = key row.row
    · by_cases same : key row.row = k <;> simp [isOld, same]
    · rw [if_neg (by simpa using isOld), List.find?_cons, List.find?_cons, ih]
      -- The old row stays in front, and it has the key only if the new one does not.
      by_cases same : key row.row = k
      · have other : key old.row ≠ k := fun h => isOld (h.trans same.symm)
        simp [same, other]
      · simp [same]

/-- Putting a row in its place adds no key but its own. -/
theorem mem_keys_upsert {row : Stamped α} {k : κ} :
    ∀ {rows : List (Stamped α)},
      k ∈ (upsert (fun old => key old = key row.row) row rows).map (fun old => key old.row) →
        k = key row.row ∨ k ∈ rows.map fun old => key old.row
  | [], h => Or.inl (by simpa [upsert] using h)
  | old :: rest, h => by
    unfold upsert at h
    split at h
    · rcases List.mem_cons.mp h with h | h
      · exact Or.inl h
      · exact Or.inr (List.mem_cons_of_mem _ h)
    · rcases List.mem_cons.mp h with rfl | h
      · exact Or.inr List.mem_cons_self
      · exact (mem_keys_upsert h).imp_right (List.mem_cons_of_mem _)

/-- Rows that have distinct keys have them after an upsert. -/
theorem nodup_upsert {row : Stamped α} :
    ∀ {rows : List (Stamped α)}, (rows.map fun old => key old.row).Nodup →
      ((upsert (fun old => key old = key row.row) row rows).map fun old => key old.row).Nodup
  | [], _ => by simp [upsert]
  | old :: rest, distinct => by
    rw [List.map_cons, List.nodup_cons] at distinct
    unfold upsert
    split
    · rename_i same
      rw [List.map_cons, List.nodup_cons, ← of_decide_eq_true same]
      exact distinct
    · rename_i other
      rw [List.map_cons, List.nodup_cons]
      refine ⟨fun member => ?_, nodup_upsert distinct.2⟩
      rcases mem_keys_upsert member with same | member
      · exact other (decide_eq_true same)
      · exact distinct.1 member

/-- Where no two rows have one key, the row of a key is any row that has it. -/
theorem find?_eq_some_iff {row : Stamped α} {k : κ} {rows : List (Stamped α)}
    (distinct : (rows.map fun old => key old.row).Nodup) :
    rows.find? (fun old => key old.row = k) = some row ↔ row ∈ rows ∧ key row.row = k := by
  constructor
  · intro found
    exact ⟨List.mem_of_find?_eq_some found, by simpa using List.find?_some found⟩
  · rintro ⟨member, rfl⟩
    have isSome : (rows.find? fun old => key old.row = key row.row).isSome :=
      List.find?_isSome.mpr ⟨row, member, by simp⟩
    obtain ⟨found, isFound⟩ := Option.isSome_iff_exists.mp isSome
    have same : key found.row = key row.row := by simpa using List.find?_some isFound
    rw [isFound, List.inj_on_of_nodup_map distinct (List.mem_of_find?_eq_some isFound) member same]

/-- The rows after an upsert are the new one and those of other keys. -/
theorem mem_upsert_iff {row other : Stamped α} {rows : List (Stamped α)}
    (distinct : (rows.map fun old => key old.row).Nodup) :
    other ∈ upsert (fun old => key old = key row.row) row rows ↔
      other = row ∨ other ∈ rows ∧ key row.row ≠ key other.row := by
  have isFound : (upsert (fun old => key old = key row.row) row rows).find?
      (fun old => key old.row = key other.row) = some other ↔
        other ∈ upsert (fun old => key old = key row.row) row rows ∧
          key other.row = key other.row :=
    find?_eq_some_iff (nodup_upsert distinct)
  rw [and_iff_left rfl] at isFound
  -- Keys are distinct after the upsert as well, so that being a row is being the row of one's key.
  rw [← isFound, find?_upsert]
  by_cases same : key row.row = key other.row
  · simp [same, eq_comm]
  · rw [if_neg same, find?_eq_some_iff distinct, and_iff_left rfl, and_iff_left same]
    refine ⟨Or.inr, fun found => found.resolve_left ?_⟩
    rintro rfl
    exact same rfl

/-- The row of another key stays where it is. -/
theorem getElem?_upsert {row old : Stamped α} (other : key old.row ≠ key row.row) :
    ∀ {rows : List (Stamped α)} {i : Nat}, rows[i]? = some old →
      (upsert (fun old => key old = key row.row) row rows)[i]? = some old
  | first :: rest, 0, isThere => by
    cases isThere
    rw [upsert, if_neg (by simpa using other)]
    rfl
  | first :: rest, i + 1, isThere => by
    rw [List.getElem?_cons_succ] at isThere
    unfold upsert
    split
    · exact isThere
    · exact getElem?_upsert other isThere

/-- A row with a new key comes after all others. -/
theorem upsert_of_new {same : α → Bool} {row : Stamped α} :
    ∀ {rows : List (Stamped α)}, (∀ old ∈ rows, same old.row = false) →
      upsert same row rows = rows ++ [row]
  | [], _ => rfl
  | first :: rest, new => by
    rw [upsert, new first List.mem_cons_self, if_neg Bool.false_ne_true,
      upsert_of_new fun old member => new old (List.mem_cons_of_mem _ member), List.cons_append]

/-- Removing rows removes the row of a key or leaves it. -/
theorem find?_filter {p : Stamped α → Bool} {k : κ} {rows : List (Stamped α)}
    (distinct : (rows.map fun old => key old.row).Nodup) :
    (rows.filter p).find? (fun old => key old.row = k) =
      (rows.find? fun old => key old.row = k).filter p := by
  have kept : ((rows.filter p).map fun old => key old.row).Nodup :=
    distinct.sublist (List.filter_sublist.map _)
  ext row
  rw [find?_eq_some_iff kept, List.mem_filter, Option.filter_eq_some_iff,
    find?_eq_some_iff distinct]
  constructor
  · rintro ⟨⟨member, remains⟩, isKey⟩
    exact ⟨⟨member, isKey⟩, remains⟩
  · rintro ⟨⟨member, isKey⟩, remains⟩
    exact ⟨⟨member, remains⟩, isKey⟩

end Keys

/-! ## 2. Files that are known

Three tables hold rows of files, and `rowFiles` and `stamps` gather them. What the queries answer
depends on the times alone, and a file has a time exactly if it has a row. -/

variable {tables : Tables} {file : SourceFile}

/-- A time is one of a file if a mapping, a reference or a line of the ledger has it. -/
theorem mem_stamps {stamp : Nat} :
    (file, stamp) ∈ tables.stamps ↔
      (∃ row ∈ tables.mappings, row.row.file = file ∧ row.stamp = stamp) ∨
      (∃ row ∈ tables.references, row.row.file = file ∧ row.stamp = stamp) ∨
      ⟨file, stamp⟩ ∈ tables.ledger := by
  have inLedger : (∃ row ∈ tables.ledger, row.row = file ∧ row.stamp = stamp) ↔
      ⟨file, stamp⟩ ∈ tables.ledger :=
    ⟨fun ⟨_, member, same, stamped⟩ => same ▸ stamped ▸ member, fun member => ⟨_, member, rfl, rfl⟩⟩
  simp only [stamps, List.append_assoc, List.mem_append, List.mem_map, Prod.mk.injEq, inLedger]

/-- A file is known if any row is one of it. -/
theorem mem_rowFiles_iff_stamps :
    file ∈ tables.rowFiles ↔ ∃ stamp, (file, stamp) ∈ tables.stamps := by
  have files : tables.rowFiles = tables.stamps.map (·.1) := by
    simp [rowFiles, stamps, Function.comp_def]
  rw [files, List.mem_map]
  constructor
  · rintro ⟨⟨other, stamp⟩, member, rfl⟩
    exact ⟨stamp, member⟩
  · rintro ⟨stamp, member⟩
    exact ⟨_, member, rfl⟩

/-- The times among which the latest is taken are those of the file's rows. -/
theorem mem_rowStamps {stamp : Nat} :
    stamp ∈ (tables.stamps.filter (·.1 = file)).map (·.2) ↔ (file, stamp) ∈ tables.stamps := by
  constructor
  · intro member
    obtain ⟨⟨owner, stamp⟩, isRow, rfl⟩ := List.mem_map.mp member
    obtain ⟨isRow, same⟩ := List.mem_filter.mp isRow
    exact of_decide_eq_true same ▸ isRow
  · exact fun member => List.mem_map.mpr ⟨_, List.mem_filter.mpr ⟨member, by simp⟩, rfl⟩

/-- A file without rows has not been indexed. -/
theorem lastIndexed?_eq_none : tables.lastIndexed? file = none ↔ file ∉ tables.rowFiles := by
  rw [lastIndexed?, List.max?_eq_none_iff, List.eq_nil_iff_forall_not_mem, mem_rowFiles_iff_stamps]
  simp only [mem_rowStamps, not_exists]

theorem lastIndexed?_isSome : (tables.lastIndexed? file).isSome ↔ file ∈ tables.rowFiles := by
  rw [← not_iff_not, ← lastIndexed?_eq_none, Option.not_isSome_iff_eq_none]

/-- The last time is late enough exactly if some row's time is, the last being the greatest. -/
theorem le_lastIndexed?_iff {modified : Nat} :
    (∃ indexed, tables.lastIndexed? file = some indexed ∧ modified ≤ indexed) ↔
      ∃ stamp, (file, stamp) ∈ tables.stamps ∧ modified ≤ stamp := by
  constructor
  · rintro ⟨indexed, isLast, isLater⟩
    exact ⟨indexed, mem_rowStamps.mp (List.max?_mem isLast), isLater⟩
  · rintro ⟨stamp, member, isLater⟩
    have isKnown := lastIndexed?_isSome.mpr (mem_rowFiles_iff_stamps.mpr ⟨stamp, member⟩)
    obtain ⟨indexed, isLast⟩ := Option.isSome_iff_exists.mp isKnown
    have most := (List.max?_eq_some_iff.mp isLast).2 stamp (mem_rowStamps.mpr member)
    exact ⟨indexed, isLast, by omega⟩

/-- The files listed for a project are those of it that have a row. -/
theorem mem_files_iff {project name : String} :
    name ∈ tables.files project ↔ (⟨project, name⟩ : SourceFile) ∈ tables.rowFiles := by
  rw [files, Text.mem_sortedDistinct, List.mem_map]
  constructor
  · rintro ⟨⟨other, name⟩, member, rfl⟩
    obtain ⟨isRow, same⟩ := List.mem_filter.mp member
    obtain rfl : other = project := of_decide_eq_true same
    exact isRow
  · intro member
    exact ⟨_, List.mem_filter.mpr ⟨member, by simp⟩, rfl⟩

theorem nodup_files (tables : Tables) (project : String) : (tables.files project).Nodup :=
  Text.nodup_sortedDistinct _

theorem nodup_projects (tables : Tables) : tables.projects.Nodup :=
  Text.nodup_sortedDistinct _

/-- The projects listed are those of the files that have a row. -/
theorem mem_projects_iff {project : String} :
    project ∈ tables.projects ↔ ∃ file ∈ tables.rowFiles, file.project = project := by
  rw [projects, Text.mem_sortedDistinct, List.mem_map]

/-! ## 3. What tables answer

The order of rows and the columns that only identify them are left out of these three answers. They
are what later results on syncing compare tables by. -/

/-- The project and the identifier that a mapping is about. -/
def claimOf (mapping : Mapping) : String × String := (mapping.file.project, mapping.urn)

/-- The row of an identifier in a project. -/
def claim? (tables : Tables) (project urn : String) : Option (Stamped Mapping) :=
  tables.mappings.find? fun row => claimOf row.row = (project, urn)

/-- When a file was recorded in the ledger. -/
def recorded? (tables : Tables) (file : SourceFile) : Option Nat :=
  (tables.ledger.find? fun row => row.row = file).map (·.stamp)

/-- The references of a file, in the order in which they were recorded. -/
def referencesIn (tables : Tables) (file : SourceFile) : List Reference :=
  (tables.references.map (·.row)).filter (·.file = file)

/-- Whether no two rows have one key: claims of projects, and files of the ledger. -/
structure Keyed (tables : Tables) : Prop where
  claims : (tables.mappings.map fun row => claimOf row.row).Nodup
  files : (tables.ledger.map (·.row)).Nodup

/-- Whether every row was written when its file was recorded. -/
structure Dated (tables : Tables) : Prop where
  mappings : ∀ row ∈ tables.mappings, tables.recorded? row.row.file = some row.stamp
  references : ∀ row ∈ tables.references, tables.recorded? row.row.file = some row.stamp

/-- Mappings are told apart by project and identifier. -/
theorem sameClaim_eq (mapping : Mapping) :
    sameClaim mapping = fun old => decide (claimOf old = claimOf mapping) := by
  funext old
  rw [Bool.eq_iff_iff]
  simp only [sameClaim, claimOf, Bool.and_eq_true, decide_eq_true_eq, Prod.mk.injEq]
  constructor
  · rintro ⟨urn, project⟩
    exact ⟨project.symm, urn.symm⟩
  · rintro ⟨project, urn⟩
    exact ⟨urn.symm, project.symm⟩

/-- The row of an identifier in a project is any row that is of both. -/
theorem Keyed.claim?_eq_some (keyed : tables.Keyed) {project urn : String}
    {row : Stamped Mapping} :
    tables.claim? project urn = some row ↔
      row ∈ tables.mappings ∧ claimOf row.row = (project, urn) :=
  find?_eq_some_iff keyed.claims

/-- A file was recorded at the time that its line of the ledger has. -/
theorem Keyed.recorded?_eq_some (keyed : tables.Keyed) {file : SourceFile} {stamp : Nat} :
    tables.recorded? file = some stamp ↔ ⟨file, stamp⟩ ∈ tables.ledger := by
  have found := @find?_eq_some_iff SourceFile SourceFile _ id
  rw [recorded?, Option.map_eq_some_iff]
  constructor
  · rintro ⟨⟨row, other⟩, isRow, rfl⟩
    obtain ⟨member, rfl⟩ := (found keyed.files).mp isRow
    exact member
  · intro member
    exact ⟨⟨file, stamp⟩, (found keyed.files).mpr ⟨member, rfl⟩, rfl⟩

theorem Keyed.recorded?_isSome (keyed : tables.Keyed) {file : SourceFile} :
    (tables.recorded? file).isSome ↔ file ∈ tables.ledger.map (·.row) := by
  rw [Option.isSome_iff_exists]
  constructor
  · rintro ⟨stamp, found⟩
    exact List.mem_map.mpr ⟨_, keyed.recorded?_eq_some.mp found, rfl⟩
  · intro member
    obtain ⟨row, isRow, rfl⟩ := List.mem_map.mp member
    exact ⟨row.stamp, keyed.recorded?_eq_some.mpr isRow⟩

/-- When rows of a file were last written, is when it was recorded. -/
theorem Dated.lastIndexed?_eq (dated : tables.Dated) (keyed : tables.Keyed) (file : SourceFile) :
    tables.lastIndexed? file = tables.recorded? file := by
  have stamped {stamp : Nat} (member : (file, stamp) ∈ tables.stamps) :
      tables.recorded? file = some stamp := by
    rcases mem_stamps.mp member with ⟨row, isRow, rfl, rfl⟩ | ⟨row, isRow, rfl, rfl⟩ | isRow
    · exact dated.mappings row isRow
    · exact dated.references row isRow
    · exact keyed.recorded?_eq_some.mpr isRow
  -- Each of the file's rows has the one time of the ledger, so that the latest of them is it.
  cases found : tables.recorded? file with
  | none =>
    rw [lastIndexed?_eq_none, mem_rowFiles_iff_stamps]
    rintro ⟨stamp, member⟩
    cases found.symm.trans (stamped member)
  | some stamp =>
    have isRow := mem_stamps.mpr (Or.inr (Or.inr (keyed.recorded?_eq_some.mp found)))
    refine List.max?_eq_some_iff.mpr ⟨mem_rowStamps.mpr isRow, fun other member => ?_⟩
    cases found.symm.trans (stamped (mem_rowStamps.mp member))
    exact Nat.le_refl _

/-! ## 4. Writing

Storing a file adds its mappings, then its references, then its line of the ledger. Each of the
three writes one table and leaves the other two alone: mappings take the places of earlier ones,
references go after all that are there, and the ledger has the latest time. So each answer is told
by one of the writes. -/

theorem keyed_empty : empty.Keyed := ⟨by simp [empty], by simp [empty]⟩

theorem dated_empty : empty.Dated := ⟨by simp [empty], by simp [empty]⟩

theorem claim?_addMapping (now : Nat) (mapping : Mapping) (project urn : String) :
    (tables.addMapping now mapping).claim? project urn =
      if claimOf mapping = (project, urn) then some ⟨mapping, now⟩
      else tables.claim? project urn := by
  unfold addMapping claim?
  rw [sameClaim_eq]
  exact find?_upsert ⟨mapping, now⟩ (project, urn) tables.mappings

/-- Definitions that are recorded in order take the places of the project's earlier ones. -/
theorem claim?_addMappings (now : Nat) (project urn : String) :
    ∀ (mappings : List Mapping) (tables : Tables), (mappings.map claimOf).Nodup →
      (mappings.foldl (addMapping · now) tables).claim? project urn =
        ((mappings.find? (claimOf · = (project, urn))).map (⟨·, now⟩)).or
          (tables.claim? project urn)
  | [], tables, _ => by simp
  | first :: rest, tables, distinct => by
    rw [List.map_cons, List.nodup_cons] at distinct
    rw [List.foldl_cons, claim?_addMappings now project urn rest _ distinct.2, claim?_addMapping]
    by_cases same : claimOf first = (project, urn)
    -- No later definition is of the same identifier, so the first one keeps its place.
    · have alone : rest.find? (claimOf · = (project, urn)) = none := by
        rw [List.find?_eq_none]
        intro other member isSame
        exact distinct.1 (List.mem_map.mpr ⟨other, member,
          (of_decide_eq_true isSame).trans same.symm⟩)
      simp [same, alone]
    · simp [same]

theorem mappings_addReferences (now : Nat) (references : List Reference) (tables : Tables) :
    (references.foldl (addReference · now) tables).mappings = tables.mappings := by
  induction references generalizing tables with
  | nil => rfl
  | cons first rest ih => exact ih _

theorem ledger_addReferences (now : Nat) (references : List Reference) (tables : Tables) :
    (references.foldl (addReference · now) tables).ledger = tables.ledger := by
  induction references generalizing tables with
  | nil => rfl
  | cons first rest ih => exact ih _

theorem references_addReferences (now : Nat) (references : List Reference) (tables : Tables) :
    (references.foldl (addReference · now) tables).references =
      tables.references ++ references.map (⟨·, now⟩) := by
  induction references generalizing tables with
  | nil => simp
  | cons first rest ih =>
    rw [List.foldl_cons, ih]
    simp [addReference]

theorem references_addMappings (now : Nat) (mappings : List Mapping) (tables : Tables) :
    (mappings.foldl (addMapping · now) tables).references = tables.references := by
  induction mappings generalizing tables with
  | nil => rfl
  | cons first rest ih => exact ih _

theorem ledger_addMappings (now : Nat) (mappings : List Mapping) (tables : Tables) :
    (mappings.foldl (addMapping · now) tables).ledger = tables.ledger := by
  induction mappings generalizing tables with
  | nil => rfl
  | cons first rest ih => exact ih _

theorem mappings_storeFile (now : Nat) (file : SourceFile) (mappings : List Mapping)
    (references : List Reference) :
    (tables.storeFile now file mappings references).mappings =
      (mappings.foldl (addMapping · now) tables).mappings :=
  mappings_addReferences now references _

theorem references_storeFile (now : Nat) (file : SourceFile) (mappings : List Mapping)
    (references : List Reference) :
    (tables.storeFile now file mappings references).references =
      tables.references ++ references.map (⟨·, now⟩) := by
  rw [← references_addMappings now mappings tables]
  exact references_addReferences now references _

theorem ledger_storeFile (now : Nat) (file : SourceFile) (mappings : List Mapping)
    (references : List Reference) :
    (tables.storeFile now file mappings references).ledger =
      upsert (fun old => old = file) ⟨file, now⟩ tables.ledger := by
  simp only [storeFile, addFile, ledger_addReferences, ledger_addMappings]

/-- A stored file holds the claims that it makes; all others are as they were. -/
theorem claim?_storeFile {now : Nat} {file : SourceFile} {mappings : List Mapping}
    {references : List Reference} (distinct : (mappings.map claimOf).Nodup)
    (project urn : String) :
    (tables.storeFile now file mappings references).claim? project urn =
      ((mappings.find? (claimOf · = (project, urn))).map (⟨·, now⟩)).or
        (tables.claim? project urn) := by
  rw [← claim?_addMappings now project urn mappings tables distinct]
  unfold claim?
  rw [mappings_storeFile]

/-- A stored file is recorded now, and every other when it was. -/
theorem recorded?_storeFile (now : Nat) (file other : SourceFile) (mappings : List Mapping)
    (references : List Reference) :
    (tables.storeFile now file mappings references).recorded? other =
      if file = other then some now else tables.recorded? other := by
  have found := @find?_upsert SourceFile SourceFile _ id ⟨file, now⟩ other tables.ledger
  unfold recorded?
  rw [ledger_storeFile]
  refine (congrArg (Option.map _) found).trans ?_
  by_cases same : file = other <;> simp [same]

/-- A stored file has its new references after its earlier ones: storing does not remove. -/
theorem referencesIn_storeFile {now : Nat} {file : SourceFile} {mappings : List Mapping}
    {references : List Reference} (own : ∀ reference ∈ references, reference.file = file)
    (other : SourceFile) :
    (tables.storeFile now file mappings references).referencesIn other =
      tables.referencesIn other ++ if file = other then references else [] := by
  unfold referencesIn
  rw [references_storeFile, List.map_append, List.filter_append, List.map_map]
  congr 1
  have rows : references.map ((fun row : Stamped Reference => row.row) ∘ (⟨·, now⟩)) =
      references := by
    simp [Function.comp_def]
  rw [rows]
  -- The new references are all of the stored file: it gets every one of them and any other file
  -- none.
  split
  · rename_i same
    exact List.filter_eq_self.mpr fun reference member =>
      decide_eq_true ((own reference member).trans same)
  · rename_i apart
    refine List.filter_eq_nil_iff.mpr fun reference member isOther => ?_
    exact apart ((own reference member).symm.trans (of_decide_eq_true isOther))

theorem Keyed.addMapping (keyed : tables.Keyed) (now : Nat) (mapping : Mapping) :
    (tables.addMapping now mapping).Keyed := by
  refine ⟨?_, keyed.files⟩
  unfold Tables.addMapping
  rw [sameClaim_eq]
  exact @nodup_upsert Mapping _ _ claimOf ⟨mapping, now⟩ _ keyed.claims

/-- Storing a file gives no key a second row. -/
theorem Keyed.storeFile (keyed : tables.Keyed) (now : Nat) (file : SourceFile)
    (mappings : List Mapping) (references : List Reference) :
    (tables.storeFile now file mappings references).Keyed := by
  have mapped : (mappings.foldl (Tables.addMapping · now) tables).Keyed :=
    List.foldlRecOn mappings _ keyed fun _ before mapping _ => before.addMapping now mapping
  refine ⟨?_, ?_⟩
  · rw [mappings_storeFile]
    exact mapped.claims
  · rw [ledger_storeFile]
    exact @nodup_upsert SourceFile _ _ id ⟨file, now⟩ _ keyed.files

/-! ## 5. Removing

Rows are removed by file and from all three tables at once. A claim goes with the file that holds
it, whoever else defines the identifier. -/

/-- Removing gives no key a second row. -/
theorem Keyed.removeWhere (keyed : tables.Keyed) (p : SourceFile → Bool) :
    (tables.removeWhere p).Keyed :=
  ⟨keyed.claims.sublist (List.filter_sublist.map _),
    keyed.files.sublist (List.filter_sublist.map _)⟩

/-- A claim is left if the file that holds it is. -/
theorem claim?_removeWhere (keyed : tables.Keyed) (p : SourceFile → Bool) (project urn : String) :
    (tables.removeWhere p).claim? project urn =
      (tables.claim? project urn).filter (!p ·.row.file) :=
  find?_filter keyed.claims

/-- A removed file is not recorded, and every other when it was. -/
theorem recorded?_removeWhere (keyed : tables.Keyed) (p : SourceFile → Bool)
    (file : SourceFile) :
    (tables.removeWhere p).recorded? file =
      if p file then none else tables.recorded? file := by
  have found := @find?_filter SourceFile SourceFile _ id (!p ·.row) file tables.ledger keyed.files
  refine (congrArg (Option.map _) found).trans ?_
  unfold recorded?
  cases isRow : tables.ledger.find? fun row => row.row = file with
  | none => simp [isRow]
  | some row =>
    have same : row.row = file := by simpa using List.find?_some isRow
    by_cases removed : p file <;> simp [isRow, same, removed, Option.filter]

/-- The files that have rows are those that are not removed. -/
theorem rowFiles_removeWhere (p : SourceFile → Bool) :
    (tables.removeWhere p).rowFiles = tables.rowFiles.filter (!p ·) := by
  simp only [rowFiles, removeWhere, List.filter_append, List.filter_map, Function.comp_def]

/-- Removing the rows of files of which there are none removes nothing. -/
theorem removeWhere_of_unknown {p : SourceFile → Bool}
    (unknown : ∀ file ∈ tables.rowFiles, p file = false) : tables.removeWhere p = tables := by
  simp only [rowFiles, List.append_assoc, List.mem_append, List.mem_map] at unknown
  unfold removeWhere
  congr
  · refine List.filter_eq_self.mpr fun row member => ?_
    rw [unknown _ (.inl ⟨row, member, rfl⟩)]
    rfl
  · refine List.filter_eq_self.mpr fun row member => ?_
    rw [unknown _ (.inr (.inl ⟨row, member, rfl⟩))]
    rfl
  · refine List.filter_eq_self.mpr fun row member => ?_
    rw [unknown _ (.inr (.inr ⟨row, member, rfl⟩))]
    rfl

/-- No row is of a file that is not known. -/
theorem ne_of_unknown (unknown : file ∉ tables.rowFiles) (other : SourceFile)
    (member : other ∈ tables.rowFiles) : decide (other = file) = false :=
  decide_eq_false fun same => unknown (same ▸ member)

/-- There are no rows to count of files of which there are none. -/
theorem countWhere_of_unknown {p : SourceFile → Bool}
    (unknown : ∀ file ∈ tables.rowFiles, p file = false) : tables.countWhere p = 0 := by
  simp only [rowFiles, List.append_assoc, List.mem_append, List.mem_map] at unknown
  rw [countWhere, Nat.add_eq_zero_iff, List.countP_eq_zero, List.countP_eq_zero]
  constructor
  · intro row member
    simp [unknown _ (.inl ⟨row, member, rfl⟩)]
  · intro row member
    simp [unknown _ (.inr (.inl ⟨row, member, rfl⟩))]

/-- A removed file has no references, and every other has its own. -/
theorem referencesIn_removeWhere (p : SourceFile → Bool) (file : SourceFile) :
    (tables.removeWhere p).referencesIn file =
      if p file then [] else tables.referencesIn file := by
  unfold referencesIn removeWhere
  rw [List.filter_map, List.filter_map, List.filter_filter]
  -- The references of one file are removed together or not at all.
  by_cases removed : p file
  · rw [if_pos removed, List.map_eq_nil_iff, List.filter_eq_nil_iff]
    intro row _ kept
    simp only [Function.comp_apply, Bool.and_eq_true, decide_eq_true_eq] at kept
    simp [kept.1, removed] at kept
  · rw [if_neg removed]
    congr 1
    refine List.filter_congr fun row _ => ?_
    by_cases same : row.row.file = file <;> simp [same, removed]

end Tables

/-! ## 6. What scanning gives

A scan depends on the bytes alone and on the name under which they are scanned. Everything in it is
of that file, and it defines an identifier at most once, so that what it does to the tables is told
by `definition?`. -/

/-- What bytes contribute as the contents of a file; nothing if they are no document. -/
def contribution (file : SourceFile) (bytes : ByteArray) : Scan :=
  match Document.ofBytes bytes with
  | .ok document => scan document file
  | .error _ => ⟨[], []⟩

/-- How a file defines an identifier, given its contents. -/
def definition? (file : SourceFile) (bytes : ByteArray) (urn : String) : Option Mapping :=
  (contribution file bytes).mappings.find? (·.urn = urn)

/-- Scanning a file that is there gives what its bytes contribute. -/
theorem scanFile_eq {disk : Corpus.Disk} {base : String} {file : SourceFile} {bytes : ByteArray}
    (found : disk.bytes? (filePath base file) = some bytes) :
    scanFile disk base file = contribution file bytes := by
  unfold scanFile
  rw [found]
  rfl

/-- A definition that is met later removes the earlier one of its identifier. -/
theorem nodup_recordMapping {mappings : List Mapping} (mapping : Mapping)
    (distinct : (mappings.map (·.urn)).Nodup) :
    ((recordMapping mappings mapping).map (·.urn)).Nodup := by
  unfold recordMapping
  rw [List.map_append, List.nodup_append]
  -- The earlier ones that are kept are about other identifiers.
  refine ⟨distinct.sublist (List.filter_sublist.map _), by simp, ?_⟩
  intro urn member other isLast same
  obtain ⟨earlier, isEarlier, rfl⟩ := List.mem_map.mp member
  have differs := of_decide_eq_true (List.mem_filter.mp isEarlier).2
  exact differs (same.trans (by simpa using isLast))

/-- A scan defines an identifier once. -/
theorem nodup_scan (document : Document) (file : SourceFile) :
    ((scan document file).mappings.map (·.urn)).Nodup :=
  List.foldlRecOn (motive := fun mappings => (mappings.map Mapping.urn).Nodup) _ recordMapping
    (by simp) fun _ distinct mapping _ => nodup_recordMapping mapping distinct

/-- A scan makes a claim once, all of its claims being in one project. -/
theorem nodup_claims_scan (document : Document) (file : SourceFile) :
    ((scan document file).mappings.map Tables.claimOf).Nodup := by
  refine List.Nodup.of_map Prod.snd ?_
  rw [List.map_map]
  exact nodup_scan document file

variable {document : Document} {file : SourceFile} {bytes : ByteArray}

/-- A definition is recorded for the file that was scanned. -/
theorem file_of_mem_scan {mapping : Mapping} (scanned : mapping ∈ (scan document file).mappings) :
    mapping.file = file := by
  obtain ⟨node, -, made⟩ := exists_of_mem_scan_mappings scanned
  exact (mappingOf?_eq_some made).1

theorem file_of_mem_scan_references {reference : Reference}
    (scanned : reference ∈ (scan document file).references) : reference.file = file := by
  obtain ⟨node, -, made⟩ := List.mem_flatMap.mp scanned
  exact (of_mem_referencesOf made).1

theorem file_of_mem_contribution {mapping : Mapping}
    (member : mapping ∈ (contribution file bytes).mappings) : mapping.file = file := by
  unfold contribution at member
  split at member
  · exact file_of_mem_scan member
  · cases member

theorem file_of_mem_contribution_references {reference : Reference}
    (member : reference ∈ (contribution file bytes).references) : reference.file = file := by
  unfold contribution at member
  split at member
  · exact file_of_mem_scan_references member
  · cases member

/-- Bytes make a claim once. -/
theorem nodup_contribution : ((contribution file bytes).mappings.map Tables.claimOf).Nodup := by
  unfold contribution
  split
  · exact nodup_claims_scan _ _
  · simp

/-- The contents of a file define an identifier in the file's project and in no other. -/
theorem find?_contribution (project urn : String) :
    (contribution file bytes).mappings.find? (Tables.claimOf · = (project, urn)) =
      if file.project = project then definition? file bytes urn else none := by
  split
  -- The project is the file's for every mapping, so that being about the identifier is all that is
  -- left to ask.
  · rename_i same
    rw [definition?, ← List.head?_filter, ← List.head?_filter]
    refine congrArg _ (List.filter_congr fun mapping member => ?_)
    rw [Tables.claimOf, file_of_mem_contribution member, same]
    simp
  · rename_i apart
    rw [List.find?_eq_none]
    intro mapping member isSame
    rw [Tables.claimOf, file_of_mem_contribution member] at isSame
    exact apart (Prod.mk.inj (of_decide_eq_true isSame)).1

/-- How a file defines an identifier is among its mappings and names both. -/
theorem definition?_eq_some {urn : String} {mapping : Mapping}
    (found : definition? file bytes urn = some mapping) :
    mapping ∈ (contribution file bytes).mappings ∧ mapping.file = file ∧ mapping.urn = urn :=
  ⟨List.mem_of_find?_eq_some found, file_of_mem_contribution (List.mem_of_find?_eq_some found),
    by simpa using List.find?_some found⟩

section Disk

variable {disk : Corpus.Disk} {base : String}

theorem scanFile_of_missing (missing : disk.bytes? (filePath base file) = none) :
    scanFile disk base file = ⟨[], []⟩ := by
  unfold scanFile
  rw [missing]

/-- What a scan of the disk defines is defined by the scanned file. -/
theorem file_of_mem_scanFile {mapping : Mapping}
    (member : mapping ∈ (scanFile disk base file).mappings) : mapping.file = file := by
  rcases scanFile_cases disk base file with none | ⟨bytes, document, -, -, same⟩
  · rw [none] at member
    cases member
  · exact file_of_mem_scan (same ▸ member)

theorem file_of_mem_scanFile_references {reference : Reference}
    (member : reference ∈ (scanFile disk base file).references) : reference.file = file := by
  rcases scanFile_cases disk base file with none | ⟨bytes, document, -, -, same⟩
  · rw [none] at member
    cases member
  · exact file_of_mem_scan_references (same ▸ member)

theorem nodup_scanFile : ((scanFile disk base file).mappings.map Tables.claimOf).Nodup := by
  rcases scanFile_cases disk base file with none | ⟨bytes, document, -, -, same⟩
  · simp [none]
  · exact same ▸ nodup_claims_scan document file

end Disk

end Intertext.Index
