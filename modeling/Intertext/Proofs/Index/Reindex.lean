import Intertext.Proofs.Index.Denoted
import Intertext.Proofs.Index.Resync
/-!
Indexing a project outright.

Indexing scans the files of a project whether or not they were recorded before, and removes nothing.
A definition takes the place of the project's earlier one, so of the definitions only those are left
over that no file of the project makes any more (`mappings_indexFiles_iff`). References are added to
those that were recorded before, so a file has the references it makes exactly if none were recorded
of it (`references_indexFiles_iff`), and indexing twice answers as indexing once exactly if there
are no references to repeat (`answersAlike_indexFiles_iff`).

A history may index projects outright at any point (`Deed`). Its tables still have one row for each
claim and one for each file (`Moment.keyed_reach`), but their rows may have been written at several
times, so that nothing can be said of them by way of `Tables.Dated`.
-/

namespace Intertext.Index

open Corpus

variable {disk : Disk} {now : Nat} {base project : String} {tables : Tables} {file : SourceFile}
  {names : List String}

/-! ## 1. What scanning a file on disk gives

Indexing goes through names of files, and a later file takes over what an earlier one defined. So of
several files the last one that defines an identifier is the one to ask. -/

/-- The definition of an identifier that the last of some files of a project makes. -/
def lastDefinition? (disk : Disk) (base project : String) (names : List String) (urn : String) :
    Option Mapping :=
  names.reverse.findSome? fun name =>
    (scanFile disk base ⟨project, name⟩).mappings.find? (Tables.claimOf · = (project, urn))

/-- The last definition of an identifier is made by one of the files. -/
theorem lastDefinition?_eq_some {urn : String} {mapping : Mapping}
    (found : lastDefinition? disk base project names urn = some mapping) :
    ∃ name ∈ names, mapping ∈ (scanFile disk base ⟨project, name⟩).mappings ∧
      Tables.claimOf mapping = (project, urn) := by
  obtain ⟨name, member, isFirst⟩ := List.exists_of_findSome?_eq_some found
  exact ⟨name, List.mem_reverse.mp member, List.mem_of_find?_eq_some isFirst,
    by simpa using List.find?_some isFirst⟩

/-- There is a last definition exactly if some file makes one. -/
theorem lastDefinition?_isSome {urn : String} :
    (lastDefinition? disk base project names urn).isSome ↔
      ∃ name ∈ names, ∃ mapping ∈ (scanFile disk base ⟨project, name⟩).mappings,
        mapping.urn = urn := by
  unfold lastDefinition?
  rw [List.findSome?_isSome_iff]
  simp only [List.mem_reverse, List.find?_isSome, decide_eq_true_eq]
  refine exists_congr fun name => and_congr_right fun _ => exists_congr fun mapping =>
    and_congr_right fun member => ?_
  rw [Tables.claimOf, file_of_mem_scanFile member, Prod.mk.injEq]
  exact ⟨And.right, fun same => ⟨rfl, same⟩⟩

/-! ## 2. Indexing files

What the three answers of the tables are after indexing is told for one file and then, by induction,
for a list of them. -/

namespace Tables

theorem Keyed.indexFile (keyed : tables.Keyed) (disk : Disk) (now : Nat) (base : String)
    (file : SourceFile) : (tables.indexFile disk now base file).2.Keyed :=
  keyed.storeFile ..

/-- Whatever is done to files gives no key a second row. -/
theorem kept_keyed : Kept Keyed := ⟨Keyed.indexFile, Keyed.removeWhere⟩

/-- Synced tables have one row for each claim and one for each file, as all reachable ones. -/
theorem Synced.keyed (synced : tables.Synced) : tables.Keyed :=
  synced.reachable.keyed

theorem indexFiles_cons (name : String) :
    (tables.indexFiles disk now base project (name :: names)).2 =
      ((tables.indexFile disk now base ⟨project, name⟩).2.indexFiles disk now base project
        names).2 := by
  have folded (names : List String) (tables : Tables) :
      (tables.indexFiles disk now base project names).2 = names.foldl
        (fun tables name => (tables.indexFile disk now base ⟨project, name⟩).2) tables :=
    (List.foldl_hom Prod.snd fun _ _ => rfl).symm
  rw [folded, folded, List.foldl_cons]

/-- A definition that is made again takes the place of the earlier one. -/
theorem claim?_indexFile (project urn : String) :
    (tables.indexFile disk now base file).2.claim? project urn =
      (((scanFile disk base file).mappings.find? (claimOf · = (project, urn))).map (⟨·, now⟩)).or
        (tables.claim? project urn) :=
  claim?_storeFile nodup_scanFile project urn

/-- The last file that defines an identifier has it; if none does, it stays as it was. -/
theorem claim?_indexFiles (urn : String) :
    (tables.indexFiles disk now base project names).2.claim? project urn =
      ((lastDefinition? disk base project names urn).map (⟨·, now⟩)).or
        (tables.claim? project urn) := by
  induction names generalizing tables with
  | nil => simp [indexFiles, lastDefinition?]
  | cons name rest ih =>
    rw [indexFiles_cons, ih, claim?_indexFile]
    have split : lastDefinition? disk base project (name :: rest) urn =
        (lastDefinition? disk base project rest urn).or
          ((scanFile disk base ⟨project, name⟩).mappings.find?
            (claimOf · = (project, urn))) := by
      simp [lastDefinition?]
    rw [split, Option.map_or, Option.or_assoc]

/-- Indexing files of a project makes no claims in another. -/
theorem claim?_indexFiles_of_ne {other : String} (apart : project ≠ other) (urn : String) :
    (tables.indexFiles disk now base project names).2.claim? other urn =
      tables.claim? other urn := by
  induction names generalizing tables with
  | nil => rfl
  | cons name rest ih =>
    have nothing : (scanFile disk base ⟨project, name⟩).mappings.find?
        (claimOf · = (other, urn)) = none := by
      rw [List.find?_eq_none]
      intro mapping member claims
      rw [claimOf, file_of_mem_scanFile member] at claims
      exact apart (Prod.mk.inj (of_decide_eq_true claims)).1
    rw [indexFiles_cons, ih, claim?_indexFile, nothing]
    rfl

/-- References are added to those that were recorded before. -/
theorem referencesIn_indexFiles (distinct : names.Nodup) :
    (tables.indexFiles disk now base project names).2.referencesIn file =
      tables.referencesIn file ++
        if file.project = project ∧ file.name ∈ names then (scanFile disk base file).references
        else [] := by
  induction names generalizing tables with
  | nil => simp [indexFiles]
  | cons name rest ih =>
    rw [List.nodup_cons] at distinct
    rw [indexFiles_cons, ih distinct.2, indexFile,
      referencesIn_storeFile fun _ => file_of_mem_scanFile_references, List.append_assoc]
    congr 1
    by_cases same : (⟨project, name⟩ : SourceFile) = file
    · subst same
      simp [distinct.1]
    · have isOther : file.project = project → file.name ≠ name := by
        rintro rfl rfl
        exact same rfl
      by_cases own : file.project = project
      · simp [same, own, isOther own]
      · simp [same, own]

/-- The files that were indexed are recorded now, all others when they were. -/
theorem recorded?_indexFiles :
    (tables.indexFiles disk now base project names).2.recorded? file =
      if file.project = project ∧ file.name ∈ names then some now else tables.recorded? file := by
  induction names generalizing tables with
  | nil => simp [indexFiles]
  | cons name rest ih =>
    rw [indexFiles_cons, ih, indexFile, recorded?_storeFile]
    obtain ⟨owner, called⟩ := file
    by_cases own : owner = project
    · subst own
      by_cases first : called = name
      · simp [first]
      · simp [first, Ne.symm first]
    · simp [own, Ne.symm own]

/-! ## 3. What is left over

Nothing is removed, so rows are left over from earlier scans of the files: claims that no file makes
any more, and references beside the new ones. -/

/-- After indexing, a file has the references it makes exactly if none were recorded of it. -/
theorem references_indexFiles_iff (distinct : names.Nodup) :
    (∀ name ∈ names, (tables.indexFiles disk now base project names).2.referencesIn
        ⟨project, name⟩ = (scanFile disk base ⟨project, name⟩).references) ↔
      ∀ name ∈ names, tables.referencesIn ⟨project, name⟩ = [] := by
  refine forall₂_congr fun name member => ?_
  rw [referencesIn_indexFiles distinct, if_pos ⟨rfl, member⟩, List.append_left_eq_self]

/-- After indexing, the definitions that are held of the files are those they make exactly if some
file makes each of those that were held before. -/
theorem mappings_indexFiles_iff (keyed : tables.Keyed) :
    (∀ row ∈ (tables.indexFiles disk now base project names).2.mappings,
        row.row.file.project = project → row.row.file.name ∈ names →
          row.row ∈ (scanFile disk base row.row.file).mappings) ↔
      ∀ row ∈ tables.mappings, row.row.file.project = project → row.row.file.name ∈ names →
        ∃ name ∈ names, ∃ mapping ∈ (scanFile disk base ⟨project, name⟩).mappings,
          mapping.urn = row.row.urn := by
  have after : (tables.indexFiles disk now base project names).2.Keyed :=
    kept_keyed.indexFiles keyed ..
  constructor
  · rintro current row member rfl isFile
    cases made : lastDefinition? disk base row.row.file.project names row.row.urn with
    | some mapping => exact lastDefinition?_isSome.mp (by rw [made]; rfl)
    | none =>
      -- no file takes the row over, so it is there afterwards and has to be one of its file
      have still := @claim?_indexFiles disk now base row.row.file.project tables names row.row.urn
      rw [made, keyed.claim?_eq_some.mpr ⟨member, rfl⟩] at still
      have isCurrent := current row (after.claim?_eq_some.mp still).1 rfl isFile
      exact ⟨_, isFile, _, isCurrent, rfl⟩
  · rintro covered row member rfl isFile
    have held := after.claim?_eq_some.mpr ⟨member, rfl⟩
    rw [claim?_indexFiles] at held
    rcases Option.or_eq_some_iff.mp held with new | ⟨none, old⟩
    · obtain ⟨mapping, made, rfl⟩ := Option.map_eq_some_iff.mp new
      obtain ⟨name, -, isScanned, -⟩ := lastDefinition?_eq_some made
      rwa [file_of_mem_scanFile isScanned]
    · have made := lastDefinition?_isSome.mpr
        (covered row (keyed.claim?_eq_some.mp old).1 rfl isFile)
      rw [Option.map_eq_none_iff.mp none] at made
      cases made

/-! ## 4. The same answers

Queries show neither the times of rows nor, of a claim, more than its row. Tables of the same
contents answer alike, and the references of a file can be counted from the answers. -/

/-- Whether two indexes have the same rows, at whatever times these were written. -/
structure SameContents (tables other : Tables) : Prop where
  mappings : tables.mappings.map (·.row) = other.mappings.map (·.row)
  references : tables.references.map (·.row) = other.references.map (·.row)
  ledger : tables.ledger.map (·.row) = other.ledger.map (·.row)

/-- Whether two indexes answer every question about rows and files alike. -/
structure AnswersAlike (tables other : Tables) : Prop where
  mappings : ∀ urn project, tables.mappingsOf urn project = other.mappingsOf urn project
  references : ∀ urn fragment, tables.referencesTo urn fragment = other.referencesTo urn fragment
  ofProject : ∀ project, tables.projectReferences project = other.projectReferences project
  projects : tables.projects = other.projects
  files : ∀ project, tables.files project = other.files project
  stats : ∀ project, tables.stats project = other.stats project

/-- Tables of the same contents answer every query alike. -/
theorem SameContents.answersAlike {other : Tables} (same : tables.SameContents other) :
    tables.AnswersAlike other := by
  have rowFiles : tables.rowFiles = other.rowFiles := by
    have ofMappings := congrArg (List.map Mapping.file) same.mappings
    have ofReferences := congrArg (List.map Reference.file) same.references
    simp only [List.map_map] at ofMappings ofReferences
    unfold Tables.rowFiles
    rw [same.ledger]
    exact congrArg₂ (fun some more => some ++ more ++ _) ofMappings ofReferences
  -- Both lookups of references choose rows by what is in them.
  have asked (p : Reference → Bool) : tables.referencesWhere p = other.referencesWhere p := by
    unfold referencesWhere
    rw [same.references]
  refine ⟨fun urn project => ?_, fun urn fragment => ?_, fun project => ?_, ?_, fun project => ?_,
    fun project => ?_⟩
  · unfold mappingsOf
    rw [same.mappings]
  · unfold referencesTo
    cases urn <;> cases fragment <;> simp only [asked]
  · unfold projectReferences
    rw [same.references]
  · unfold Tables.projects
    rw [rowFiles]
  · unfold Tables.files
    rw [rowFiles]
  · have ofMappings := congrArg (List.countP (·.file.project = project)) same.mappings
    have ofReferences := congrArg (List.countP (·.file.project = project)) same.references
    simp only [List.countP_map, Function.comp_def] at ofMappings ofReferences
    unfold Tables.stats Tables.files
    rw [rowFiles, ofMappings, ofReferences]

/-- Indexes that answer alike hold as many references of every file. -/
theorem AnswersAlike.length_referencesIn {other : Tables} (alike : tables.AnswersAlike other)
    (file : SourceFile) :
    (tables.referencesIn file).length = (other.referencesIn file).length := by
  have counted (tables : Tables) : (tables.referencesIn file).length =
      (tables.projectReferences file.project).countP (·.file = file) := by
    unfold referencesIn projectReferences
    rw [(List.mergeSort_perm _ _).countP_eq, List.countP_filter, List.countP_eq_length_filter]
    congr 1
    refine List.filter_congr fun reference _ => ?_
    by_cases same : reference.file = file <;> simp [same]
  rw [counted, counted, alike.ofProject]

/-! ## 5. Indexing twice

The second time every claim finds its row there and writes the same in it, so that the mappings stay
as they are. References are added a second time, and the number of them shows it. -/

section Keys

variable {α κ : Type} [DecidableEq κ] {key : α → κ}

/-- A row that takes the place of another one leaves the keys as they are. -/
theorem map_key_upsert {row : Stamped α} :
    ∀ {rows : List (Stamped α)}, key row.row ∈ rows.map (fun old => key old.row) →
      (upsert (fun old => key old = key row.row) row rows).map (fun old => key old.row) =
        rows.map fun old => key old.row
  | [], member => by cases member
  | old :: rest, member => by
    unfold upsert
    split
    · rename_i same
      rw [List.map_cons, List.map_cons, ← of_decide_eq_true same]
    · rename_i other
      rw [List.map_cons, List.map_cons, map_key_upsert]
      refine (List.mem_cons.mp member).resolve_left fun same => other (decide_eq_true same.symm)

/-- Rows with the same keys in the same order, no two of them alike, are the same if each key has
the same row. -/
theorem map_row_eq_of_keys :
    ∀ {rows others : List (Stamped α)},
      rows.map (fun row => key row.row) = others.map (fun row => key row.row) →
      (rows.map fun row => key row.row).Nodup →
      (∀ k, (rows.find? fun row => key row.row = k).map (·.row) =
        (others.find? fun row => key row.row = k).map (·.row)) →
      rows.map (·.row) = others.map (·.row)
  | [], others, same, _, _ => by
    rw [List.map_nil, eq_comm, List.map_eq_nil_iff] at same
    rw [same]
  | row :: rows, [], same, _, _ => by cases same
  | row :: rows, other :: others, same, distinct, agree => by
    rw [List.map_cons, List.map_cons, List.cons.injEq] at same
    rw [List.map_cons, List.nodup_cons] at distinct
    obtain ⟨sameKey, sameKeys⟩ := same
    have first := agree (key row.row)
    rw [List.find?_cons_of_pos (by simp), List.find?_cons_of_pos (by simp [sameKey])] at first
    have rest : rows.map (·.row) = others.map (·.row) := by
      refine map_row_eq_of_keys sameKeys distinct.2 fun k => ?_
      -- The key of the first row is not among the others, so that the rest agrees on it too.
      by_cases isFirst : key row.row = k
      · have absent {list : List (Stamped α)}
            (notThere : key row.row ∉ list.map fun row => key row.row) :
            (list.find? fun row => key row.row = k) = none := by
          rw [List.find?_eq_none]
          intro item member isKey
          exact notThere (List.mem_map.mpr ⟨item, member,
            (of_decide_eq_true isKey).trans isFirst.symm⟩)
        rw [absent distinct.1, absent (sameKeys ▸ distinct.1)]
      · have later := agree k
        rwa [List.find?_cons_of_neg (by simpa using isFirst),
          List.find?_cons_of_neg (by simpa [← sameKey] using isFirst)] at later
    rw [List.map_cons, List.map_cons, rest]
    exact congrArg (· :: _) (Option.some.inj first)

end Keys

/-- Whether everything that files of a project make is recorded already, but for references. -/
structure Covers (tables : Tables) (disk : Disk) (base project : String) (names : List String) :
    Prop where
  claims : ∀ name ∈ names, ∀ mapping ∈ (scanFile disk base ⟨project, name⟩).mappings,
    claimOf mapping ∈ tables.mappings.map fun row => claimOf row.row
  files : ∀ name ∈ names, (⟨project, name⟩ : SourceFile) ∈ tables.ledger.map (·.row)

/-- Definitions that take the places of others leave the claims as they are. -/
theorem claims_addMappings {mappings : List Mapping}
    (known : ∀ mapping ∈ mappings,
      claimOf mapping ∈ tables.mappings.map fun row => claimOf row.row) :
    ((mappings.foldl (addMapping · now) tables).mappings.map fun row => claimOf row.row) =
      tables.mappings.map fun row => claimOf row.row := by
  induction mappings generalizing tables with
  | nil => rfl
  | cons first rest ih =>
    have replaced : ((tables.addMapping now first).mappings.map fun row => claimOf row.row) =
        tables.mappings.map fun row => claimOf row.row := by
      unfold addMapping
      rw [sameClaim_eq]
      exact @map_key_upsert Mapping _ _ claimOf ⟨first, now⟩ _ (known first List.mem_cons_self)
    rw [List.foldl_cons, ih, replaced]
    intro mapping member
    rw [replaced]
    exact known mapping (List.mem_cons_of_mem _ member)

/-- Files that are covered keep the order of the claims and of the files. -/
theorem Covers.indexFiles (covers : tables.Covers disk base project names) :
    ((tables.indexFiles disk now base project names).2.mappings.map fun row => claimOf row.row) =
        tables.mappings.map (fun row => claimOf row.row) ∧
      (tables.indexFiles disk now base project names).2.ledger.map (·.row) =
        tables.ledger.map (·.row) := by
  induction names generalizing tables with
  | nil => exact ⟨rfl, rfl⟩
  | cons name rest ih =>
    have claims : ((tables.indexFile disk now base ⟨project, name⟩).2.mappings.map
        fun row => claimOf row.row) = tables.mappings.map fun row => claimOf row.row := by
      rw [indexFile, mappings_storeFile]
      exact claims_addMappings (covers.claims name List.mem_cons_self)
    have files : (tables.indexFile disk now base ⟨project, name⟩).2.ledger.map (·.row) =
        tables.ledger.map (·.row) := by
      rw [indexFile, ledger_storeFile]
      exact @map_key_upsert SourceFile _ _ id ⟨⟨project, name⟩, now⟩ _
        (covers.files name List.mem_cons_self)
    rw [indexFiles_cons, ← claims, ← files]
    refine ih ⟨fun other member => ?_, fun other member => ?_⟩
    · rw [claims]
      exact covers.claims other (List.mem_cons_of_mem _ member)
    · rw [files]
      exact covers.files other (List.mem_cons_of_mem _ member)

/-- What was indexed is covered. -/
theorem covers_indexFiles (keyed : tables.Keyed) :
    (tables.indexFiles disk now base project names).2.Covers disk base project names := by
  have after : (tables.indexFiles disk now base project names).2.Keyed :=
    kept_keyed.indexFiles keyed ..
  constructor
  · intro name member mapping made
    have isDefined := lastDefinition?_isSome.mpr ⟨name, member, mapping, made, rfl⟩
    obtain ⟨last, isLast⟩ := Option.isSome_iff_exists.mp isDefined
    have held := @claim?_indexFiles disk now base project tables names mapping.urn
    rw [isLast, Option.map_some, Option.some_or] at held
    obtain ⟨isRow, sameClaim⟩ := after.claim?_eq_some.mp held
    refine List.mem_map.mpr ⟨_, isRow, sameClaim.trans ?_⟩
    rw [claimOf, file_of_mem_scanFile made]
  · intro name member
    rw [← after.recorded?_isSome, recorded?_indexFiles, if_pos ⟨rfl, member⟩]
    rfl

/-- Indexing files twice leaves every definition as it was. -/
theorem claim?_indexFiles_twice (later : Nat) (owner urn : String) :
    (((tables.indexFiles disk now base project names).2.indexFiles disk later base project
        names).2.claim? owner urn).map (·.row) =
      ((tables.indexFiles disk now base project names).2.claim? owner urn).map (·.row) := by
  by_cases own : project = owner
  · subst own
    rw [claim?_indexFiles, claim?_indexFiles]
    cases lastDefinition? disk base project names urn <;> rfl
  · rw [claim?_indexFiles_of_ne own]

/-- Files that make no references leave the references as they are. -/
theorem references_indexFiles_of_nil
    (nothing : ∀ name ∈ names, (scanFile disk base ⟨project, name⟩).references = []) :
    (tables.indexFiles disk now base project names).2.references = tables.references := by
  induction names generalizing tables with
  | nil => rfl
  | cons name rest ih =>
    rw [indexFiles_cons, ih fun other member => nothing other (List.mem_cons_of_mem _ member),
      indexFile, references_storeFile, nothing name List.mem_cons_self, List.map_nil,
      List.append_nil]

/-- Files that make no references can be indexed twice. -/
theorem sameContents_indexFiles (keyed : tables.Keyed) (later : Nat)
    (nothing : ∀ name ∈ names, (scanFile disk base ⟨project, name⟩).references = []) :
    ((tables.indexFiles disk now base project names).2.indexFiles disk later base project
      names).2.SameContents (tables.indexFiles disk now base project names).2 := by
  have once : (tables.indexFiles disk now base project names).2.Keyed :=
    kept_keyed.indexFiles keyed ..
  have twice := kept_keyed.indexFiles once disk later base project names
  obtain ⟨claims, files⟩ :=
    @Covers.indexFiles disk later base project _ names (covers_indexFiles keyed)
  refine ⟨?_, congrArg _ (references_indexFiles_of_nil nothing), files⟩
  exact map_row_eq_of_keys claims twice.claims fun claim =>
    claim?_indexFiles_twice later claim.1 claim.2

/-- Indexing files twice answers as indexing them once exactly if they make no references. -/
theorem answersAlike_indexFiles_iff (keyed : tables.Keyed) (distinct : names.Nodup)
    (later : Nat) :
    ((tables.indexFiles disk now base project names).2.indexFiles disk later base project
        names).2.AnswersAlike (tables.indexFiles disk now base project names).2 ↔
      ∀ name ∈ names, (scanFile disk base ⟨project, name⟩).references = [] := by
  constructor
  · intro alike name member
    have counted := alike.length_referencesIn ⟨project, name⟩
    rw [referencesIn_indexFiles distinct, if_pos ⟨rfl, member⟩, List.length_append] at counted
    exact List.length_eq_zero_iff.mp (by omega)
  · exact fun nothing => (sameContents_indexFiles keyed later nothing).answersAlike

end Tables

/-! ## 6. Histories that index outright

After indexing outright the ledger does not date every row, and the scans do not determine the
tables. What is left is that rows are told apart by their keys, which every deed keeps. -/

/-- What is done to a corpus or its index: an action, or indexing a project outright. -/
inductive Deed where
  | act (action : Action)
  | indexProject (now : Nat) (project : String)

namespace Moment

/-- What indexing a project outright leaves behind. It cannot be indexed if it is not there. -/
def index (base : String) (moment : Moment) (now : Nat) (project : String) : Moment :=
  match projectFiles moment.disk base project with
  | .error _ => moment
  | .ok names =>
    { moment with
      tables := (moment.tables.indexFiles moment.disk now base project names).2
      scans := (names.reverse.filterMap fun name =>
        (moment.disk.bytes? (filePath base ⟨project, name⟩)).map (⟨project, name⟩, ·)) ++
          moment.scans }

/-- What a deed leaves behind. -/
def perform (base : String) (moment : Moment) : Deed → Moment
  | .act action => moment.act base action
  | .indexProject now project => moment.index base now project

/-- What a history that may index outright leaves behind. -/
def reach (base : String) (deeds : List Deed) : Moment := deeds.foldl (perform base) start

variable {moment : Moment}

theorem disk_index (moment : Moment) (base : String) (now : Nat) (project : String) :
    (moment.index base now project).disk = moment.disk := by
  unfold index
  cases projectFiles moment.disk base project <;> rfl

theorem tables_index (present : projectFiles moment.disk base project = .ok names) :
    (moment.index base now project).tables =
      (moment.tables.indexFiles moment.disk now base project names).2 := by
  unfold index
  rw [present]

/-- Every action leaves the names on the disk single. -/
theorem named_act (named : moment.disk.Named) (action : Action) :
    (moment.act base action).disk.Named := by
  cases action with
  | write path bytes modified => exact named.write path bytes modified
  | delete path => exact named.delete path
  | makeFolder path => exact named.makeFolder path
  | syncFile now file isSource => exact named
  | syncProject now project => exact named
  | syncCorpus now =>
    rw [disk_syncCorpus]
    exact named

/-- The tables after an action are made of the same operations as before. -/
theorem synced_act (synced : moment.tables.Synced) (action : Action) :
    (moment.act base action).tables.Synced := by
  cases action with
  | write path bytes modified => exact synced
  | delete path => exact synced
  | makeFolder path => exact synced
  | syncFile now file isSource => exact synced.syncFile ..
  | syncProject now project => exact synced.syncProject ..
  | syncCorpus now =>
    unfold act
    cases corpusProjects moment.disk base with
    | error fault => exact synced
    | ok projects => exact synced.syncCorpus ..

theorem synced_index (synced : moment.tables.Synced) (now : Nat) (project : String) :
    (moment.index base now project).tables.Synced := by
  unfold index
  split
  · exact synced
  · exact synced.indexFiles ..

/-- Whatever was done, the disk stands under names, and the tables were filled by scanning. -/
theorem sound_reach (base : String) (deeds : List Deed) :
    (reach base deeds).disk.Named ∧ (reach base deeds).tables.Synced := by
  refine List.foldlRecOn (motive := fun (moment : Moment) =>
    moment.disk.Named ∧ moment.tables.Synced) deeds _ ⟨Disk.named_empty, .empty⟩ ?_
  intro moment sound deed _
  cases deed with
  | act action => exact ⟨named_act sound.1 action, synced_act sound.2 action⟩
  | indexProject now project =>
    refine ⟨?_, synced_index sound.2 now project⟩
    rw [perform, disk_index]
    exact sound.1

/-- Whatever was done, no key has two rows. -/
theorem keyed_reach (base : String) (deeds : List Deed) : (reach base deeds).tables.Keyed :=
  (sound_reach base deeds).2.keyed

end Moment

/-- A project has one file of a name. -/
theorem nodup_of_projectFiles (named : disk.Named)
    (present : projectFiles disk base project = .ok names) : names.Nodup := by
  unfold projectFiles listFolder at present
  split at present
  · cases present
  · split at present
    · rename_i entries found
      cases present
      rw [sourceNames, (List.mergeSort_perm _ _).nodup_iff]
      exact (named.names_of_list? found).2.sublist (List.filter_sublist.map _)
    · cases present

end Intertext.Index
