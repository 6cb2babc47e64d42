import Mathlib.Data.List.Pairwise
import Intertext.Proofs.Index.Claims
import Intertext.Proofs.Text.Cutting
/-!
What scanning records.

Every identifier of the corpus that a document has is recorded once, as the last element defines it
that has it, and the definitions are in the order of these elements
(`exists_definitions`). Every word of a target is recorded as one reference, in document order
(`references_scan`). If the project of the file claims none of the identifiers yet, and nothing is
recorded of the file, then storing the scan adds one row for each definition and each reference and
changes no other one, the queries give back what was scanned, and the number that is reported is the
number of these rows (`scan_stored`).
-/

namespace Intertext

namespace Index

open Markup (Document Node)

/-! ## 1. The last entry of each key -/

section Last

variable {α κ : Type} [DecidableEq κ] {key : α → κ}

/-- Whether an entry has the key of another one does not depend on whether only the last entry of
each key is looked at. -/
theorem forall_mem_last {entry : α} {entries : List α} :
    (∀ other ∈ entries.pwFilter (key · ≠ key ·), key entry ≠ key other) ↔
      ∀ other ∈ entries, key entry ≠ key other := by
  refine List.forall_mem_pwFilter (fun {x y z} differs => ?_) entry entries
  by_cases same : key x = key y
  · exact Or.inr (same ▸ differs)
  · exact Or.inl same

theorem mem_last {entry : α} : ∀ {entries : List α},
    entry ∈ entries.pwFilter (key · ≠ key ·) ↔
      ∃ before after, entries = before ++ entry :: after ∧ ∀ other ∈ after, key other ≠ key entry
  | [] => by simp
  | first :: rest => by
    have below := @mem_last entry rest
    constructor
    · intro member
      -- The first entry is kept if its key does not come again.
      by_cases isLast : ∀ other ∈ rest.pwFilter (key · ≠ key ·), key first ≠ key other
      · rw [List.pwFilter_cons_of_pos isLast] at member
        rcases List.mem_cons.mp member with rfl | member
        · exact ⟨[], rest, rfl, fun other isOther =>
            (forall_mem_last.mp isLast other isOther).symm⟩
        · obtain ⟨before, after, rfl, others⟩ := below.mp member
          exact ⟨first :: before, after, rfl, others⟩
      · rw [List.pwFilter_cons_of_neg isLast] at member
        obtain ⟨before, after, rfl, others⟩ := below.mp member
        exact ⟨first :: before, after, rfl, others⟩
    · rintro ⟨before, after, whole, others⟩
      cases before with
      | nil =>
        obtain ⟨rfl, rfl⟩ := List.cons.inj whole
        have isLast := forall_mem_last.mpr fun other isOther => (others other isOther).symm
        rw [List.pwFilter_cons_of_pos isLast]
        exact List.mem_cons_self
      | cons _ before =>
        obtain ⟨rfl, wholeRest⟩ := List.cons.inj whole
        have member := below.mpr ⟨before, after, wholeRest, others⟩
        by_cases isLast : ∀ other ∈ rest.pwFilter (key · ≠ key ·), key first ≠ key other
        · rw [List.pwFilter_cons_of_pos isLast]
          exact List.mem_cons_of_mem _ member
        · rwa [List.pwFilter_cons_of_neg isLast]

/-- One more entry takes the place of the last one of its key, at the end. -/
theorem last_append_singleton (entry : α) : ∀ entries : List α,
    (entries ++ [entry]).pwFilter (key · ≠ key ·) =
      (entries.pwFilter (key · ≠ key ·)).filter (key · ≠ key entry) ++ [entry]
  | [] => List.pwFilter_cons_of_pos fun _ none => nomatch none
  | first :: rest => by
    have below := last_append_singleton entry rest
    have isLast : (∀ other ∈ (rest ++ [entry]).pwFilter (key · ≠ key ·), key first ≠ key other) ↔
        (∀ other ∈ rest.pwFilter (key · ≠ key ·), key first ≠ key other) ∧
          key first ≠ key entry := by
      rw [forall_mem_last, forall_mem_last, List.forall_mem_append, List.forall_mem_singleton]
    rw [List.cons_append]
    by_cases before : ∀ other ∈ rest.pwFilter (key · ≠ key ·), key first ≠ key other
    · rw [List.pwFilter_cons_of_pos before]
      by_cases differs : key first = key entry
      · rw [List.pwFilter_cons_of_neg fun all => (isLast.mp all).2 differs, below,
          List.filter_cons_of_neg (by simpa using differs)]
      · rw [List.pwFilter_cons_of_pos (isLast.mpr ⟨before, differs⟩), below,
          List.filter_cons_of_pos (by simpa using differs), List.cons_append]
    · rw [List.pwFilter_cons_of_neg before,
        List.pwFilter_cons_of_neg fun all => before (isLast.mp all).1, below]

/-- Where no two entries have one key, an entry is the only one of its key. -/
theorem filter_key_eq_singleton {entry : α} : ∀ {entries : List α}, (entries.map key).Nodup →
    entry ∈ entries → entries.filter (key · = key entry) = [entry]
  | first :: rest, distinct, member => by
    rw [List.map_cons, List.nodup_cons] at distinct
    rcases List.mem_cons.mp member with rfl | isLater
    · have alone : rest.filter (key · = key entry) = [] := by
        refine List.filter_eq_nil_iff.mpr fun other isOther same => ?_
        exact distinct.1 (List.mem_map.mpr ⟨other, isOther, of_decide_eq_true same⟩)
      rw [List.filter_cons_of_pos (by simp), alone]
    · have differs : key first ≠ key entry := fun same =>
        distinct.1 (List.mem_map.mpr ⟨entry, isLater, same.symm⟩)
      rw [List.filter_cons_of_neg (by simpa using differs)]
      exact filter_key_eq_singleton distinct.2 isLater

end Last

/-! ## 2. Definitions -/

/-- Whether a node is the last one, in document order, that has an identifier. -/
def IsDefined (document : Document) (urn : String) (node : Node) : Prop :=
  node.corresp? = some urn ∧ ∃ before after, document.nodes = before ++ node :: after ∧
    ∀ other ∈ after, other.corresp? ≠ some urn

/-- Whether a text begins as the identifiers of the corpus do. -/
def IsIdentifier (urn : String) : Prop := corpusScheme.toList <+: urn.toList

/-- The identifier of the corpus that a node has, and the node. -/
def definitionBy? (node : Node) : Option (String × Node) :=
  (node.corresp?.filter fun urn => corpusScheme.toList.isPrefixOf urn.toList).map (·, node)

/-- How the definition of an identifier by a node is recorded. -/
def mappingBy (file : SourceFile) (urn : String) (node : Node) : Mapping :=
  ⟨urn, file, some node.path, some node.name.clark, kind? node⟩

variable {document : Document} {file : SourceFile} {urn : String} {node : Node}

theorem definitionBy?_eq_some {other : Node} :
    definitionBy? node = some (urn, other) ↔
      other = node ∧ node.corresp? = some urn ∧ IsIdentifier urn := by
  rw [definitionBy?, Option.map_eq_some_iff]
  constructor
  · rintro ⟨urn, found, same⟩
    cases same
    obtain ⟨named, begins⟩ := Option.filter_eq_some_iff.mp found
    exact ⟨rfl, named, List.isPrefixOf_iff_prefix.mp begins⟩
  · rintro ⟨rfl, named, begins⟩
    exact ⟨urn, Option.filter_eq_some_iff.mpr ⟨named, List.isPrefixOf_iff_prefix.mpr begins⟩, rfl⟩

theorem foldl_recordMapping (mappings : List Mapping) :
    mappings.foldl recordMapping [] = mappings.pwFilter (·.urn ≠ ·.urn) := by
  induction mappings using List.reverseRecOn with
  | nil => rfl
  | append_singleton mappings mapping ih =>
    rw [List.foldl_append, ih, last_append_singleton]
    rfl

/-- Of the definitions of each identifier the last one is recorded. -/
theorem mappings_scan (document : Document) (file : SourceFile) :
    (scan document file).mappings =
      ((document.nodes.filterMap definitionBy?).pwFilter (·.1 ≠ ·.1)).map fun (urn, node) =>
        mappingBy file urn node := by
  have made : document.nodes.filterMap (mappingOf? file) =
      (document.nodes.filterMap definitionBy?).map fun (urn, node) => mappingBy file urn node := by
    rw [List.map_filterMap]
    refine congrArg (document.nodes.filterMap ·) (funext fun node => ?_)
    rw [definitionBy?, Option.map_map]
    rfl
  exact (foldl_recordMapping _).trans (made ▸ List.pwFilter_map _ _)

theorem mem_last_definitions :
    (urn, node) ∈ (document.nodes.filterMap definitionBy?).pwFilter (·.1 ≠ ·.1) ↔
      IsIdentifier urn ∧ IsDefined document urn node := by
  rw [mem_last]
  constructor
  · rintro ⟨earlier, later, whole, others⟩
    obtain ⟨before, rest, nodes, -, fromRest⟩ := List.filterMap_eq_append_iff.mp whole
    obtain ⟨between, other, after, rfl, -, made, fromAfter⟩ :=
      List.filterMap_eq_cons_iff.mp fromRest
    obtain ⟨rfl, named, begins⟩ := definitionBy?_eq_some.mp made
    refine ⟨begins, named, before ++ between, after, by rw [nodes, List.append_assoc],
      fun other isOther sameName => ?_⟩
    have isMade : (urn, other) ∈ after.filterMap definitionBy? :=
      List.mem_filterMap.mpr ⟨other, isOther, definitionBy?_eq_some.mpr ⟨rfl, sameName, begins⟩⟩
    rw [fromAfter] at isMade
    exact others _ isMade rfl
  · rintro ⟨begins, named, before, after, nodes, others⟩
    refine ⟨before.filterMap definitionBy?, after.filterMap definitionBy?, ?_, ?_⟩
    · rw [nodes, List.filterMap_append,
        List.filterMap_cons_some (definitionBy?_eq_some.mpr ⟨rfl, named, begins⟩)]
    · rintro ⟨_, other⟩ isLater rfl
      obtain ⟨node, isNode, made⟩ := List.mem_filterMap.mp isLater
      obtain ⟨rfl, sameName, -⟩ := definitionBy?_eq_some.mp made
      exact others _ isNode sameName

/-- *Every identifier of the corpus is recorded once, as the last element defines it that has it,
and in the order of these elements.* -/
theorem exists_definitions (ordered : document.Ordered) (file : SourceFile) :
    ∃ definitions : List (String × Node),
      (scan document file).mappings =
        definitions.map (fun (urn, node) => mappingBy file urn node) ∧
      definitions.Pairwise (fun one other => one.1 ≠ other.1 ∧ one.2.id < other.2.id) ∧
      ∀ urn node, (urn, node) ∈ definitions ↔ IsIdentifier urn ∧ IsDefined document urn node := by
  refine ⟨_, mappings_scan document file, (List.pairwise_pwFilter _).and ?_,
    fun urn node => mem_last_definitions⟩
  have ascending : document.nodes.Pairwise (fun one other => one.id < other.id) :=
    List.pairwise_map.mp ordered
  refine (List.Pairwise.filterMap _ (fun one other less first isFirst last isLast => ?_)
    ascending).sublist (List.pwFilter_sublist _)
  obtain ⟨rfl, -, -⟩ := definitionBy?_eq_some.mp isFirst
  obtain ⟨rfl, -, -⟩ := definitionBy?_eq_some.mp isLast
  exact less

/-- The mapping of a scan describes the last node that has its identifier. -/
theorem exists_isDefined_of_mem_scan {mapping : Mapping}
    (scanned : mapping ∈ (scan document file).mappings) :
    ∃ node, IsDefined document mapping.urn node ∧
      mapping = ⟨mapping.urn, file, some node.path, some node.name.clark, kind? node⟩ := by
  rw [mappings_scan] at scanned
  obtain ⟨⟨urn, node⟩, isLast, rfl⟩ := List.mem_map.mp scanned
  exact ⟨node, (mem_last_definitions.mp isLast).2, rfl⟩

theorem IsDefined.mem (defined : IsDefined document urn node) : node ∈ document.nodes := by
  obtain ⟨-, before, after, nodes, -⟩ := defined
  rw [nodes]
  exact List.mem_append_right _ List.mem_cons_self

/-- What is recorded is what elements have that is an identifier of the corpus. -/
theorem mem_urns_scan :
    urn ∈ (scan document file).mappings.map (·.urn) ↔
      IsIdentifier urn ∧ ∃ node ∈ document.nodes, node.corresp? = some urn := by
  have recorded : (scan document file).mappings.map (·.urn) =
      ((document.nodes.filterMap definitionBy?).pwFilter (·.1 ≠ ·.1)).map (·.1) := by
    rw [mappings_scan, List.map_map]
    rfl
  rw [recorded]
  constructor
  · intro member
    obtain ⟨⟨urn, node⟩, isLast, rfl⟩ := List.mem_map.mp member
    obtain ⟨begins, defined⟩ := mem_last_definitions.mp isLast
    exact ⟨begins, node, defined.mem, defined.1⟩
  · rintro ⟨begins, node, isNode, named⟩
    have isThere : (urn, node) ∈ document.nodes.filterMap definitionBy? :=
      List.mem_filterMap.mpr ⟨node, isNode, definitionBy?_eq_some.mpr ⟨rfl, named, begins⟩⟩
    refine Decidable.byContradiction fun missing => ?_
    have isLast : ∀ other ∈ (document.nodes.filterMap definitionBy?).pwFilter (·.1 ≠ ·.1),
        (urn, node).1 ≠ other.1 :=
      fun other isOther same => missing (List.mem_map.mpr ⟨other, isOther, same.symm⟩)
    exact forall_mem_last.mp isLast _ isThere rfl

/-! ## 3. References -/

/-- The words of a node's target: what stands between white spaces, in order. -/
def targetWords (node : Node) : List String :=
  match node.value? (.plain "target") with
  | none => []
  | some target =>
    ((target.toList.splitOnP Text.isWhiteSpace).filter (!·.isEmpty)).map String.ofList

/-- How it is recorded that a word of a node's target refers to something. -/
def referenceBy (file : SourceFile) (node : Node) (word : String) : Reference :=
  ⟨node.path, node.name.clark, kind? node, word,
    (node.value? (.plain "targetEnd")).getD word, isFragment word, node.corresp?, file⟩

/-- Every word of a target is recorded once, and all of them in document order. -/
theorem references_scan (document : Document) (file : SourceFile) :
    (scan document file).references =
      document.nodes.flatMap fun node => (targetWords node).map (referenceBy file node) := by
  refine congrArg (document.nodes.flatMap ·) (funext fun node => ?_)
  unfold referencesOf targetWords
  cases node.value? (.plain "target") with
  | none => rfl
  | some target =>
    dsimp only
    rw [Text.words_eq_splitOnP]
    rfl

/-! ## 4. Storing -/

namespace Tables

variable {tables : Tables}

/-- Definitions that nobody has claimed come after all others. -/
theorem mappings_addMappings_of_new (now : Nat) : ∀ (mappings : List Mapping) (tables : Tables),
    (mappings.map claimOf).Nodup →
      (∀ mapping ∈ mappings, ∀ row ∈ tables.mappings, claimOf row.row ≠ claimOf mapping) →
        (mappings.foldl (addMapping · now) tables).mappings =
          tables.mappings ++ mappings.map (⟨·, now⟩)
  | [], tables, _, _ => by simp
  | first :: rest, tables, distinct, new => by
    rw [List.map_cons, List.nodup_cons] at distinct
    have added : (tables.addMapping now first).mappings = tables.mappings ++ [⟨first, now⟩] := by
      unfold addMapping
      rw [sameClaim_eq]
      exact upsert_of_new fun old member => by simpa using new first List.mem_cons_self old member
    rw [List.foldl_cons, mappings_addMappings_of_new now rest _ distinct.2, added,
      List.append_assoc]
    · rfl
    · intro mapping isMapping row isRow
      rw [added, List.mem_append, List.mem_singleton] at isRow
      rcases isRow with isRow | rfl
      · exact new mapping (List.mem_cons_of_mem _ isMapping) row isRow
      · exact fun same => distinct.1 (List.mem_map.mpr ⟨mapping, isMapping, same.symm⟩)

/-- Whether nothing is recorded of a file, and its project claims none of some identifiers. -/
structure IsFree (tables : Tables) (file : SourceFile) (urns : List String) : Prop where
  unknown : file ∉ tables.rowFiles
  unclaimed : ∀ row ∈ tables.mappings, row.row.file.project = file.project → row.row.urn ∉ urns

section Stored

variable (free : tables.IsFree file ((scan document file).mappings.map (·.urn))) (now : Nat)

include free

theorem IsFree.mappings_storeFile (references : List Reference) :
    (tables.storeFile now file (scan document file).mappings references).mappings =
      tables.mappings ++ (scan document file).mappings.map (⟨·, now⟩) := by
  rw [Tables.mappings_storeFile]
  refine mappings_addMappings_of_new now _ tables (nodup_claims_scan document file)
    fun mapping isMapping row isRow same => ?_
  obtain ⟨project, urn⟩ := Prod.mk.inj same
  rw [file_of_mem_scan isMapping] at project
  exact free.unclaimed row isRow project (urn ▸ List.mem_map_of_mem isMapping)

/-- What was scanned is found by its identifier in the project. -/
theorem IsFree.mappingsOf_storeFile (references : List Reference) {mapping : Mapping}
    (scanned : mapping ∈ (scan document file).mappings) :
    (tables.storeFile now file (scan document file).mappings references).mappingsOf
      (some mapping.urn) (some file.project) = [mapping] := by
  -- No row of the project that was there before is asked for.
  have others : (tables.mappings.map (·.row)).filter (fun other =>
      decide (other.urn = mapping.urn) && decide (other.file.project = file.project)) = [] := by
    refine List.filter_eq_nil_iff.mpr fun other isOther same => ?_
    obtain ⟨row, isRow, rfl⟩ := List.mem_map.mp isOther
    obtain ⟨sameUrn, own⟩ := Bool.and_eq_true_iff.mp same
    have claimed := List.mem_map_of_mem (f := Mapping.urn) scanned
    rw [← of_decide_eq_true sameUrn] at claimed
    exact free.unclaimed row isRow (of_decide_eq_true own) claimed
  have alone : (scan document file).mappings.filter (fun other =>
      decide (other.urn = mapping.urn) && decide (other.file.project = file.project)) =
        [mapping] := by
    rw [← filter_key_eq_singleton (nodup_scan document file) scanned]
    refine List.filter_congr fun other isOther => ?_
    rw [file_of_mem_scan isOther]
    simp
  have rows : ((scan document file).mappings.map fun mapping => (⟨mapping, now⟩ :
      Stamped Mapping)).map (·.row) = (scan document file).mappings := by
    simp [Function.comp_def]
  unfold mappingsOf
  simp only [Option.all_some]
  rw [free.mappings_storeFile, List.map_append, rows, List.filter_append, others, alone,
    List.nil_append, List.mergeSort_singleton]

/-- The references of the file are those that were scanned. -/
theorem IsFree.references_storeFile (mappings : List Mapping) :
    (((tables.storeFile now file mappings (scan document file).references).projectReferences
      file.project).filter (·.file = file)).Perm (scan document file).references := by
  have none : tables.referencesIn file = [] := by
    refine List.filter_eq_nil_iff.mpr fun reference isReference own => free.unknown ?_
    obtain ⟨row, isRow, rfl⟩ := List.mem_map.mp isReference
    refine List.mem_append_left _ (List.mem_append_right _ (List.mem_map.mpr ⟨row, isRow, ?_⟩))
    exact of_decide_eq_true own
  have stored : (tables.storeFile now file mappings (scan document file).references).referencesIn
      file = tables.referencesIn file ++ if file = file then (scan document file).references else
        [] :=
    referencesIn_storeFile (fun reference => file_of_mem_scan_references) file
  rw [none, if_pos rfl, List.nil_append] at stored
  unfold projectReferences
  refine ((List.mergeSort_perm _ _).filter _).trans (List.Perm.of_eq ?_)
  rw [List.filter_filter]
  refine Eq.trans (List.filter_congr fun reference _ => ?_) stored
  by_cases own : reference.file = file <;> simp [own]

/-- As many rows of the file are there as were scanned. -/
theorem IsFree.countWhere_storeFile :
    (tables.storeFile now file (scan document file).mappings
        (scan document file).references).countWhere (· = file) =
      (scan document file).mappings.length + (scan document file).references.length := by
  have none : tables.countWhere (· = file) = 0 :=
    countWhere_of_unknown (ne_of_unknown free.unknown)
  obtain ⟨noMappings, noReferences⟩ := Nat.add_eq_zero_iff.mp none
  have allMappings : ((scan document file).mappings.map fun mapping => (⟨mapping, now⟩ :
      Stamped Mapping)).countP (·.row.file = file) = (scan document file).mappings.length := by
    rw [List.countP_map, List.countP_eq_length]
    exact fun mapping isMapping => decide_eq_true (file_of_mem_scan isMapping)
  have allReferences : ((scan document file).references.map fun reference => (⟨reference, now⟩ :
      Stamped Reference)).countP (·.row.file = file) = (scan document file).references.length := by
    rw [List.countP_map, List.countP_eq_length]
    exact fun reference isReference => decide_eq_true (file_of_mem_scan_references isReference)
  rw [countWhere, free.mappings_storeFile, Tables.references_storeFile, List.countP_append,
    List.countP_append, noMappings, noReferences, allMappings, allReferences, Nat.zero_add,
    Nat.zero_add]

end Stored

end Tables

/-! ## 5. Scanning and storing -/

/-- *A scan records each definition once and each word of a target once.* Of the elements with one
identifier of the corpus the last one is recorded, with its path, tag and type, and the definitions
have the order of these elements. The references are the words of targets in document order. In
tables that are free of the identifiers and of the file, the queries find what was stored, and the
number that indexing reports is that of the rows of the file. -/
theorem scan_stored {text : String} {document : Document} (h : Document.parse text = .ok document)
    (file : SourceFile) :
    let found := scan document file
    (∃ definitions : List (String × Node),
      found.mappings = definitions.map (fun (urn, node) =>
        ⟨urn, file, some node.path, some node.name.clark, node.value? (.plain "type")⟩) ∧
      definitions.Pairwise (fun one other => one.2.id < other.2.id) ∧
      ∀ urn node, (urn, node) ∈ definitions ↔ IsIdentifier urn ∧ IsDefined document urn node) ∧
    (found.mappings.map (·.urn)).Nodup ∧
    (∀ urn, urn ∈ found.mappings.map (·.urn) ↔
      IsIdentifier urn ∧ ∃ node ∈ document.nodes, node.corresp? = some urn) ∧
    found.references =
      document.nodes.flatMap (fun node => (targetWords node).map (referenceBy file node)) ∧
    ∀ (tables : Tables) (now : Nat), tables.IsFree file (found.mappings.map (·.urn)) →
      let after := tables.storeFile now file found.mappings found.references
      (∀ mapping ∈ found.mappings,
        after.mappingsOf (some mapping.urn) (some file.project) = [mapping]) ∧
      ((after.projectReferences file.project).filter (·.file = file)).Perm found.references ∧
      after.countWhere (· = file) = found.mappings.length + found.references.length ∧
      ∀ (disk : Corpus.Disk) (base : String) (bytes : ByteArray),
        disk.bytes? (filePath base file) = some bytes → Document.ofBytes bytes = .ok document →
          tables.indexFile disk now base file = (after.countWhere (· = file), after) := by
  intro found
  obtain ⟨definitions, recorded, inOrder, isDefinition⟩ :=
    exists_definitions (Document.ordered_of_parse h) file
  refine ⟨⟨definitions, recorded, inOrder.imp And.right, isDefinition⟩, nodup_scan document file,
    fun urn => mem_urns_scan, references_scan document file, fun tables now free => ?_⟩
  -- Nothing of the file was there, so that what is counted is what was scanned.
  have count := free.countWhere_storeFile now
  refine ⟨fun mapping scanned => free.mappingsOf_storeFile now _ scanned,
    free.references_storeFile now _, count, fun disk base bytes isThere read => ?_⟩
  have scanned : scanFile disk base file = found := by
    rw [scanFile_eq isThere, contribution, read]
  rw [Tables.indexFile, scanned, count]

/-- A document in which two elements have one identifier, and targets have several words or end
elsewhere. -/
def repeatedText : String :=
  "<r><p corresp=\"urn:x-opensiddur:u\"/><q corresp=\"urn:x-opensiddur:u\" target=\"#a  #b\"/>" ++
    "<s corresp=\"urn:other:v\" target=\"#c\" targetEnd=\"#d\"/></r>"

/-- The document of that text. -/
def repeated : Document where
  root := ⟨0, "/r", .plain "r", [], "",
    [⟨1, "/r/p[1]", .plain "p", [(.plain "corresp", "urn:x-opensiddur:u")], "", [], ""⟩,
      ⟨2, "/r/q[1]", .plain "q",
        [(.plain "corresp", "urn:x-opensiddur:u"), (.plain "target", "#a  #b")], "", [], ""⟩,
      ⟨3, "/r/s[1]", .plain "s",
        [(.plain "corresp", "urn:other:v"), (.plain "target", "#c"), (.plain "targetEnd", "#d")],
        "", [], ""⟩], ""⟩
  namespaces := []

/-- Tables in which another project has the identifier, and the project another file. -/
def elsewhere : Tables :=
  ⟨[⟨⟨"urn:x-opensiddur:u", ⟨"B", "a.xml"⟩, none, none, none⟩, 0⟩], [], [⟨⟨"A", "b.xml"⟩, 0⟩]⟩

/-- A disk with that text. -/
def repeatedShelf : Corpus.Disk :=
  Corpus.Disk.empty.write "project/A/a.xml" repeatedText.toUTF8 0

theorem bytes?_repeatedShelf :
    repeatedShelf.bytes? (filePath "project" ⟨"A", "a.xml"⟩) = some repeatedText.toUTF8 := rfl

/-- One definition and three references are stored, and indexing the file stores them and reports
these four rows. -/
theorem scan_stored_repeated :
    let file : SourceFile := ⟨"A", "a.xml"⟩
    let found := scan repeated file
    Document.parse repeatedText = .ok repeated ∧
      elsewhere.IsFree file (found.mappings.map (·.urn)) ∧
      found.mappings = [⟨"urn:x-opensiddur:u", file, some "/r/q[1]", some "q", none⟩] ∧
      found.references.map (fun found => (found.targetStart, found.targetEnd)) =
        [("#a", "#a"), ("#b", "#b"), ("#c", "#d")] ∧
      (elsewhere.storeFile 1 file found.mappings found.references).countWhere (· = file) = 4 ∧
      elsewhere.indexFile repeatedShelf 1 "project" file =
        (4, elsewhere.storeFile 1 file found.mappings found.references) := by
  intro file found
  have parsed : Document.parse repeatedText = .ok repeated := by cbv
  have free : elsewhere.IsFree file (found.mappings.map (·.urn)) := by
    constructor <;> decide +kernel
  obtain ⟨-, -, -, -, stored⟩ := scan_stored parsed file
  obtain ⟨-, -, count, indexed⟩ := stored elsewhere 1 free
  have four : (elsewhere.storeFile 1 file found.mappings found.references).countWhere
      (· = file) = 4 := by
    rw [count]
    decide +kernel
  refine ⟨parsed, free, by decide +kernel, by decide +kernel, four, ?_⟩
  rw [indexed repeatedShelf "project" repeatedText.toUTF8 bytes?_repeatedShelf
    ((Document.ofBytes_toUTF8 repeatedText).trans parsed), four]

end Index

end Intertext
