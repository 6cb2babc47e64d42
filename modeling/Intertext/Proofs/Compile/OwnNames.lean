import Intertext.Proofs.Compile.Targets
import Intertext.Proofs.Index.Recorded
import Intertext.Proofs.Index.Resolved
import Intertext.Proofs.Urn.Range
import Intertext.Compile.Bounds
/-!
What is found by its own name.

Scanning records an element under any identifier of the corpus that it gives itself, while resolving
reads a project after an at sign and a range at a dash after the first component. So a definition
that was stored is found by its own name exactly if the name has neither (`own_name_iff`), and then
a directive can point at it: the target is located in its file, and the file has the marker. Names
with a dash or an at sign are recorded all the same, and nothing is found by them
(`dashed_not_found`).
-/

namespace Intertext

/-! ## 1. Names that mean nothing else -/

namespace Urn

/-- Whether an identifier says no more than its name: it has no qualifier, and no component after
the first holds a dash. -/
def IsPlain (urn : String) : Prop :=
  '@' ∉ urn.toList ∧ ∀ part ∈ (Text.pieces '/' urn.toList).tail, '-' ∉ part

instance (urn : String) : Decidable (IsPlain urn) := inferInstanceAs (Decidable (_ ∧ _))

variable {urn project : String}

theorem isPlain_iff : IsPlain urn ↔ '@' ∉ urn.toList ∧ splitRange? urn = none := by
  refine and_congr_right fun fresh => ?_
  have written : Qualified.Writes ⟨urn.toList, none⟩ urn := ⟨rfl, fresh⟩
  rw [splitRange?_eq_none_iff written]

/-- An identifier denotes itself exactly if it has no qualifier. -/
theorem denotes_self_iff : Denotes urn urn project ↔ '@' ∉ urn.toList := by
  refine ⟨fun denotes => ?_, fun fresh => Or.inl ⟨fresh, rfl⟩⟩
  rcases denotes with ⟨fresh, -⟩ | ⟨-, whole⟩
  · exact fresh
  · have length := congrArg (List.length ∘ String.toList) whole
    simp at length

end Urn

namespace Index

open Markup (Document Node)

/-! ## 2. Definitions that were stored -/

namespace Tables

variable {tables : Tables} {target : String} {document : Document} {file : SourceFile}
  {mapping : Mapping}

theorem single_mem_resolveRange_iff {location : Location} :
    .single location ∈ tables.resolveRange target ↔
      Urn.splitRange? target = none ∧ location ∈ tables.resolve target := by
  unfold resolveRange
  cases Urn.splitRange? target with
  | none => simp
  | some range => simp [paired]

/-- What a scan gives is in the tables once it was stored, whatever they held before. -/
theorem mem_mappings_storeFile (now : Nat) (references : List Reference)
    (scanned : mapping ∈ (scan document file).mappings) :
    ⟨mapping, now⟩ ∈
      (tables.storeFile now file (scan document file).mappings references).mappings := by
  have byClaim := nodup_claims_scan document file
  have isSome : ((scan document file).mappings.find?
      (claimOf · = (mapping.file.project, mapping.urn))).isSome :=
    List.find?_isSome.mpr ⟨mapping, scanned, by simp [claimOf]⟩
  obtain ⟨found, isFound⟩ := Option.isSome_iff_exists.mp isSome
  have sameClaim : claimOf found = (mapping.file.project, mapping.urn) := by
    simpa using List.find?_some isFound
  obtain rfl : found = mapping :=
    List.inj_on_of_nodup_map byClaim (List.mem_of_find?_eq_some isFound) scanned sameClaim
  have isRow : (tables.storeFile now file (scan document file).mappings references).claim?
      found.file.project found.urn = some ⟨found, now⟩ := by
    rw [claim?_storeFile byClaim, isFound]
    rfl
  exact List.mem_of_find?_eq_some isRow

/-- A row is found by its own name exactly if the name means nothing else. -/
theorem single_mem_resolveRange_own_iff {row : Stamped Mapping} (isRow : row ∈ tables.mappings) :
    .single (locationOf row.row) ∈ tables.resolveRange row.row.urn ↔ Urn.IsPlain row.row.urn := by
  rw [single_mem_resolveRange_iff, Urn.isPlain_iff, and_comm, and_congr_left_iff]
  intro _
  rw [mem_resolve]
  constructor
  · rintro ⟨other, isOther, same⟩
    have sameUrn : row.row.urn = other.row.urn := congrArg Location.urn same
    have denotes := (mem_rowsOf.mp isOther).2
    rw [← sameUrn] at denotes
    exact Urn.denotes_self_iff.mp denotes
  · intro fresh
    exact ⟨row, mem_rowsOf.mpr ⟨isRow, Urn.denotes_self_iff.mpr fresh⟩, rfl⟩

end Tables

/-- What a definition is called begins as all identifiers of the corpus do. -/
theorem isFragment_of_mem_scan {document : Document} {file : SourceFile} {mapping : Mapping}
    (scanned : mapping ∈ (scan document file).mappings) : isFragment mapping.urn = false := by
  obtain ⟨⟨rest, whole⟩, -⟩ := mem_urns_scan.mp (List.mem_map_of_mem scanned)
  rw [isFragment, ← whole]
  rfl

/-- The element that a definition is about names itself by it. -/
theorem exists_corresp_of_mem_scan {document : Document} {file : SourceFile} {mapping : Mapping}
    (scanned : mapping ∈ (scan document file).mappings) :
    ∃ node ∈ document.nodes, node.corresp? = some mapping.urn :=
  (mem_urns_scan.mp (List.mem_map_of_mem scanned)).2

end Index

/-! ## 3. Pointing at a definition -/

namespace Compile

open Index (Mapping Tables isFragment scan)
open Index.Tables (locationOf)
open Markup (Document)

/-- A marker that some element names itself by bounds a range on its own. -/
theorem exists_bounds_of_corresp {document : Document} {marker : String}
    (noFragment : isFragment marker = false)
    (named : ∃ node ∈ document.nodes, node.corresp? = some marker) :
    ∃ bounds, Bounds.locate document marker marker = .ok bounds := by
  have isSome : (document.find? fun node => node.corresp? = some marker).isSome := by
    obtain ⟨node, isNode, isNamed⟩ := named
    exact List.find?_isSome.mpr ⟨node, isNode, decide_eq_true isNamed⟩
  obtain ⟨found, isFound⟩ := Option.isSome_iff_exists.mp isSome
  have marks : findMarker? document marker = some found := by
    unfold findMarker?
    split
    · rename_i hash
      simp [isFragment, hash] at noFragment
    · exact isFound
  refine ⟨⟨found.id, found.id, found.id⟩, ?_⟩
  simp [Bounds.locate, marks, Bounds.between]

/-- A target that means nothing else than an identifier of the first listed project is located where
this defines it. -/
theorem locate_of_maps {library : Library} {tables : Tables} {file : SourceFile} {urn : String}
    (keyed : tables.Keyed) (inStore : library.tables = some tables)
    (isFirst : library.settings.transclusion.head? = some file.project)
    (noFragment : isFragment urn = false) (plain : Urn.IsPlain urn) (maps : tables.Maps urn file)
    (home : SourceFile) :
    (Target.locate library home urn none).result = .ok ⟨file, urn, urn⟩ := by
  obtain ⟨fresh, unsplit⟩ := Urn.isPlain_iff.mp plain
  obtain ⟨later, listed⟩ := List.head?_eq_some_iff.mp isFirst
  have best : Best tables library.settings.transclusion urn file urn urn :=
    ⟨.single unsplit ⟨Urn.denotes_self_iff.mpr fresh, maps⟩, [], later, listed,
      fun _ _ _ earlier => absurd earlier List.not_mem_nil⟩
  have leads : Leads tables library.settings.transclusion urn none ⟨file, urn, urn⟩ := .whole best
  rw [result_locate inStore home noFragment]
  rcases ofUrn_cases keyed library.settings.transclusion urn none with
    ⟨place, found, leads'⟩ | ⟨-, -, refused⟩ | ⟨-, -, -, nowhere⟩
  · rw [found, leads.unique keyed leads']
  · exact absurd refused (leads.not_refused keyed)
  · exact absurd leads (nowhere _)

/-- *When a definition is found by its own name, for all documents and all tables.* Once what was
scanned from a document is stored, resolving the identifier of a definition finds it exactly if the
identifier has no qualifier and no dash after its first component. If so, a directive for it, with
the project listed first, is located in its file, and the document has the marker there. -/
theorem own_name_iff (tables : Tables) (now : Nat) {document : Document} {file : SourceFile}
    {mapping : Mapping} (scanned : mapping ∈ (scan document file).mappings) :
    let stored := tables.storeFile now file (scan document file).mappings
      (scan document file).references
    (.single (locationOf mapping) ∈ stored.resolveRange mapping.urn ↔ Urn.IsPlain mapping.urn) ∧
      (Urn.IsPlain mapping.urn → tables.Keyed → ∀ (library : Library) (home : SourceFile),
        library.tables = some stored →
        library.settings.transclusion.head? = some file.project →
          (Target.locate library home mapping.urn none).result =
              .ok ⟨file, mapping.urn, mapping.urn⟩ ∧
            ∃ bounds, Bounds.locate document mapping.urn mapping.urn = .ok bounds) := by
  intro stored
  have isRow : ⟨mapping, now⟩ ∈ stored.mappings :=
    Index.Tables.mem_mappings_storeFile now _ scanned
  have found := Index.Tables.single_mem_resolveRange_own_iff isRow
  have noFragment := Index.isFragment_of_mem_scan scanned
  refine ⟨found, fun plain keyed library home inStore isFirst => ?_⟩
  have maps : stored.Maps mapping.urn file :=
    ⟨_, isRow, rfl, Index.file_of_mem_scan scanned⟩
  exact ⟨locate_of_maps (keyed.storeFile ..) inStore isFirst noFragment plain maps home,
    exists_bounds_of_corresp noFragment (Index.exists_corresp_of_mem_scan scanned)⟩

/-- A document with three definitions: one has a dash in its name, and one an at sign. -/
def namesText : String :=
  "<r><p corresp=\"urn:x-opensiddur:t\"/><p corresp=\"urn:x-opensiddur:t/a-b\"/>" ++
    "<p corresp=\"urn:x-opensiddur:t@B\"/></r>"

/-- The document of that text. -/
def names : Document where
  root := ⟨0, "/r", .plain "r", [], "",
    [⟨1, "/r/p[1]", .plain "p", [(.plain "corresp", "urn:x-opensiddur:t")], "", [], ""⟩,
      ⟨2, "/r/p[2]", .plain "p", [(.plain "corresp", "urn:x-opensiddur:t/a-b")], "", [], ""⟩,
      ⟨3, "/r/p[3]", .plain "p", [(.plain "corresp", "urn:x-opensiddur:t@B")], "", [], ""⟩],
    ""⟩
  namespaces := []

/-- The file with that text. -/
def namesFile : SourceFile := ⟨"A", "a.xml"⟩

/-- A definition in that file. -/
def nameMapping (urn path : String) : Mapping := ⟨urn, namesFile, some path, some "p", none⟩

/-- The definitions of that file, stored in an empty index. -/
def namesTables : Tables :=
  Tables.empty.storeFile 1 namesFile (scan names namesFile).mappings
    (scan names namesFile).references

/-- The scan records a name with a dash and one with an at sign. The first is taken for a range from
`a` to `b`, and the second is looked for in project `B`: nothing is found by either. -/
theorem dashed_not_found :
    Document.parse namesText = .ok names ∧
      nameMapping "urn:x-opensiddur:t/a-b" "/r/p[2]" ∈ (scan names namesFile).mappings ∧
      namesTables.resolveRange "urn:x-opensiddur:t/a-b" = [] ∧
      nameMapping "urn:x-opensiddur:t@B" "/r/p[3]" ∈ (scan names namesFile).mappings ∧
      namesTables.resolveRange "urn:x-opensiddur:t@B" = [] := by
  have nothing {target : String} (noRows : namesTables.rowsOf target = []) :
      namesTables.resolve target = [] := by
    rw [Index.Tables.resolve_eq, noRows]
    simp
  have split : Urn.splitRange? "urn:x-opensiddur:t/a-b" =
      some ⟨"urn:x-opensiddur:t/a", "urn:x-opensiddur:t/b"⟩ := by decide +kernel
  have plain : Urn.splitRange? "urn:x-opensiddur:t@B" = none := by decide +kernel
  refine ⟨by cbv, by decide +kernel, ?_, by decide +kernel, ?_⟩
  · rw [Tables.resolveRange, split]
    dsimp only
    rw [nothing (by decide +kernel), Tables.paired, List.filterMap_nil]
  · rw [Tables.resolveRange, plain]
    dsimp only
    rw [nothing (by decide +kernel), List.map_nil]

/-- The name without a dash and an at sign is found, and a directive for it is located. -/
theorem own_name_found :
    .single (locationOf (nameMapping "urn:x-opensiddur:t" "/r/p[1]")) ∈
        namesTables.resolveRange "urn:x-opensiddur:t" ∧
      (Target.locate ⟨Settings.forProject "A", some namesTables, fun _ => .ok names⟩ namesFile
        "urn:x-opensiddur:t" none).result =
          .ok ⟨namesFile, "urn:x-opensiddur:t", "urn:x-opensiddur:t"⟩ := by
  have scanned : nameMapping "urn:x-opensiddur:t" "/r/p[1]" ∈ (scan names namesFile).mappings := by
    decide +kernel
  have plain : Urn.IsPlain "urn:x-opensiddur:t" := by decide +kernel
  obtain ⟨found, located⟩ := own_name_iff Tables.empty 1 scanned
  have there := located plain Index.Tables.keyed_empty
    ⟨Settings.forProject "A", some namesTables, fun _ => .ok names⟩ namesFile rfl rfl
  exact ⟨found.mpr plain, there.1⟩

end Compile

end Intertext
