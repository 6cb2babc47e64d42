import Intertext.Proofs.Compile.Provenance
import Intertext.Proofs.Index.Mirror
/-!
Notes that name a part of their own file.

The target of a local note is a hash sign and the name of an element of the note's file. The notes
of an element are looked up in two ways, by the element's identifier among all notes and by its name
among the notes of its file. The second way finds only notes that are addressed to the element, but
for names that begin with a hash sign themselves. The first one compares texts: it finds a local
note wherever an element has the note's target for an identifier, be it in another file or another
project. So every local note that is inserted is addressed to the element exactly if neither
happens (`local_inserted_iff`), and both ask for an identifier or a name that begins with a hash
sign.
-/

namespace Intertext.Compile

open Markup (Document Element Node)
open Index (Tables Reference isFragment)

/-! ## 1. What local notes name -/

/-- Whether a reference stands in the file of an element and has the element's name for its
target. -/
def AddressedTo (reference : Reference) (file : SourceFile) (node : Node) : Prop :=
  reference.file = file ∧ ∃ id, node.xmlId? = some id ∧ reference.targetStart = "#" ++ id

theorem hash_append_ne (id : String) : "#" ++ id ≠ id := by
  intro same
  have lengths := congrArg String.length same
  rw [String.length_append] at lengths
  exact absurd lengths (by simp)

/-- A name is looked for with a hash sign in front, unless it has one. -/
theorem fragmentTarget_cases (id : String) :
    Tables.fragmentTarget id = "#" ++ id ∨
      Tables.fragmentTarget id = id ∧ isFragment id = true := by
  unfold Tables.fragmentTarget isFragment
  by_cases hash : id.toList.head? = some '#'
  · exact Or.inr ⟨if_pos hash, decide_eq_true hash⟩
  · exact Or.inl (if_neg hash)

/-- The references that scanning makes are local if their target begins with a hash sign. -/
theorem isLocal_of_scanned {reference : Reference} (scanned : reference.Scanned) :
    reference.isLocal = isFragment reference.targetStart := by
  obtain ⟨-, document, -, node, -, made⟩ := scanned
  unfold Index.referencesOf at made
  split at made
  · cases made
  · obtain ⟨word, -, same⟩ := List.mem_map.mp made
    rw [← same]

/-! ## 2. How notes are found -/

variable {tables : Tables} {annotations : List String} {file : SourceFile} {node : Node}
  {reference : Reference}

theorem mem_addNew_of_mem {found : List Reference} (more : List Reference)
    (member : reference ∈ found) : reference ∈ Tables.addNew found more := by
  rw [addNew_eq]
  exact List.mem_append_left _ member

theorem mem_referencesWhere {p : Reference → Bool} :
    reference ∈ tables.referencesWhere p ↔
      reference ∈ tables.references.map (·.row) ∧ p reference = true := by
  rw [Tables.referencesWhere, List.mem_mergeSort, List.mem_filter]

/-- What an element is referred to by has its identifier for a target, or is local, of its file, and
has its name for a target. -/
theorem of_mem_referencesTo {fragment : Option (String × SourceFile)} {urn : Option String}
    (member : reference ∈ tables.referencesTo urn fragment) :
    urn = some reference.targetStart ∨ ∃ id file, fragment = some (id, file) ∧
      reference.targetStart = Tables.fragmentTarget id ∧ reference.file = file := by
  have byUrn {urn : String} (found : reference ∈ tables.referencesWhere (·.targetStart = urn)) :
      some urn = some reference.targetStart :=
    congrArg some (of_decide_eq_true (mem_referencesWhere.mp found).2).symm
  have byName {id : String} {file : SourceFile} (found : reference ∈ tables.referencesWhere
      fun row => row.targetStart = Tables.fragmentTarget id && row.isLocal && row.file = file) :
      ∃ id' file', some (id, file) = some (id', file') ∧
        reference.targetStart = Tables.fragmentTarget id' ∧ reference.file = file' := by
    have holds := (mem_referencesWhere.mp found).2
    simp only [Bool.and_eq_true, decide_eq_true_eq] at holds
    exact ⟨id, file, rfl, holds.1.1, holds.2⟩
  unfold Tables.referencesTo at member
  cases urn with
  | none =>
    cases fragment with
    | none => cases member
    | some place =>
      rcases mem_of_mem_addNew member with found | found
      · cases found
      · exact Or.inr (byName found)
  | some urn =>
    cases fragment with
    | none => exact Or.inl (byUrn member)
    | some place => exact (mem_of_mem_addNew member).imp byUrn byName

/-- Every reference to an element's identifier is found. -/
theorem mem_referencesTo_of_urn (isRow : reference ∈ tables.references.map (·.row))
    (fragment : Option (String × SourceFile)) :
    reference ∈ tables.referencesTo (some reference.targetStart) fragment := by
  have found : reference ∈ tables.referencesWhere (·.targetStart = reference.targetStart) :=
    mem_referencesWhere.mpr ⟨isRow, decide_eq_true rfl⟩
  unfold Tables.referencesTo
  cases fragment with
  | none => exact found
  | some place => exact mem_addNew_of_mem _ found

theorem mem_noteReferences :
    reference ∈ noteReferences tables annotations file node ↔
      reference ∈ tables.referencesTo node.corresp? (node.xmlId?.map (·, file)) ∧
        reference.tag = noteTag ∧ reference.file.project ∈ annotations := by
  rw [noteReferences, Priority.mem_ranked, List.mem_filter, decide_eq_true_eq, and_assoc]
  rfl

/-- What refers to an element has its identifier for a target, or has its name with a hash sign
added, or has just its name, which has one. -/
theorem cases_of_mem_noteReferences
    (member : reference ∈ noteReferences tables annotations file node) :
    node.corresp? = some reference.targetStart ∨ AddressedTo reference file node ∨
      node.xmlId? = some reference.targetStart := by
  rcases of_mem_referencesTo (mem_noteReferences.mp member).1 with byUrn | found
  · exact Or.inl byUrn
  · obtain ⟨id, place, isPlace, isTarget, inFile⟩ := found
    obtain ⟨name, isName, same⟩ := Option.map_eq_some_iff.mp isPlace
    cases same
    rcases fragmentTarget_cases id with added | ⟨itself, -⟩
    · exact Or.inr (Or.inl ⟨inFile, id, isName, isTarget.trans added⟩)
    · exact Or.inr (Or.inr (isName.trans (congrArg some (isTarget.trans itself).symm)))

/-- The local notes of an element are addressed to it exactly if those are that have its identifier
for a target, and none has just its name. -/
theorem local_noteReferences_iff :
    (∀ reference ∈ noteReferences tables annotations file node, reference.isLocal →
        AddressedTo reference file node) ↔
      (∀ reference ∈ tables.references.map (·.row), reference.isLocal →
        reference.tag = noteTag → reference.file.project ∈ annotations →
          node.corresp? = some reference.targetStart → AddressedTo reference file node) ∧
      ∀ reference ∈ noteReferences tables annotations file node, reference.isLocal →
        node.xmlId? ≠ some reference.targetStart := by
  constructor
  · intro stay
    refine ⟨fun reference isRow isLocal isNote listed named => ?_, ?_⟩
    · refine stay reference (mem_noteReferences.mpr ⟨?_, isNote, listed⟩) isLocal
      rw [named]
      exact mem_referencesTo_of_urn isRow _
    · intro reference member isLocal isName
      obtain ⟨-, id, isId, isTarget⟩ := stay reference member isLocal
      rw [isName, Option.some_inj, isTarget] at isId
      exact hash_append_ne id isId
  · rintro ⟨named, notName⟩ reference member isLocal
    rcases cases_of_mem_noteReferences member with isNamed | addressed | isName
    · obtain ⟨found, isNote, listed⟩ := mem_noteReferences.mp member
      exact named reference (mem_of_mem_referencesTo found) isLocal isNote listed isNamed
    · exact addressed
    · exact absurd isName (notName reference member isLocal)

/-! ## 3. What is inserted -/

variable {library : Library} {nested : Nested} {site : Site}

/-- The notes that are inserted are those that make the references to the element, in order. -/
theorem notes_of_insert {notes : List Element}
    (inserts : (annotate library nested site node).result = .ok (.insert notes)) :
    ∃ tables, library.tables = some tables ∧
      List.Forall₂ (fun reference note => (noteOf library nested site node reference).result =
        .ok note) (noteReferences tables library.settings.annotations site.file node) notes := by
  unfold annotate at inserts
  split at inserts
  · rename_i urn role named
    obtain ⟨same, -⟩ | ⟨file, source, found, copied, -, -, same⟩ :=
      instruction_cases role named inserts <;> cases same
  · obtain ⟨-, same⟩ | ⟨tables, others, asked, ran, ⟨-, same⟩ | same⟩ := commentary_cases inserts
    · cases same
    · cases same
    · cases same
      exact ⟨tables, asked, forall₂_of_mapM ran⟩

/-- Whenever notes are inserted into an element over a synced index, they are the notes that make
the references to it, one for each and in order. Those of them that are local are addressed to the
element exactly if every local note is that has the element's identifier for a target, and none has
its name for a target without a hash sign added. Where one is not, its target begins with a hash
sign and is the element's identifier or its name. -/
theorem local_inserted_iff (synced : library.Synced) {notes : List Element}
    (inserts : (annotate library nested site node).result = .ok (.insert notes)) :
    ∃ tables, library.tables = some tables ∧
      let references := noteReferences tables library.settings.annotations site.file node
      List.Forall₂ (fun reference note =>
        (noteOf library nested site node reference).result = .ok note) references notes ∧
      ((∀ reference ∈ references, reference.isLocal → AddressedTo reference site.file node) ↔
        (∀ reference ∈ tables.references.map (·.row), reference.isLocal →
          reference.tag = noteTag → reference.file.project ∈ library.settings.annotations →
            node.corresp? = some reference.targetStart → AddressedTo reference site.file node) ∧
        ∀ reference ∈ references, reference.isLocal →
          node.xmlId? ≠ some reference.targetStart) ∧
      ∀ reference ∈ references, reference.isLocal →
        AddressedTo reference site.file node ∨ isFragment reference.targetStart = true ∧
          (node.corresp? = some reference.targetStart ∨
            node.xmlId? = some reference.targetStart) := by
  obtain ⟨tables, holds, made⟩ := notes_of_insert inserts
  refine ⟨tables, holds, made, local_noteReferences_iff, ?_⟩
  intro reference member isLocal
  obtain ⟨row, isRow, same⟩ := List.mem_map.mp
    (mem_of_mem_referencesTo (mem_noteReferences.mp member).1)
  have scanned := (synced tables holds).scanned.references row isRow
  rw [same] at scanned
  have hash : isFragment reference.targetStart = true := by
    rw [← isLocal_of_scanned scanned]
    exact isLocal
  rcases cases_of_mem_noteReferences member with named | addressed | isName
  · exact Or.inr ⟨hash, Or.inl named⟩
  · exact Or.inl addressed
  · exact Or.inr ⟨hash, Or.inr isName⟩

/-! ## 4. A note that strays -/

/-- A text with a note about one of its own parts. -/
def remarkedText : String :=
  "<text xmlns=\"http://www.tei-c.org/ns/1.0\"><p xml:id=\"x\">P</p><note target=\"#x\">N</note>" ++
    "</text>"

/-- The part that the note is about. -/
def remarkedPart : Node :=
  ⟨1, "/text/p[1]", .tei "p", [(.xml "id", "x")], "P", [], ""⟩

/-- The document of that text. -/
def remarked : Document where
  root := ⟨0, "/text", .tei "text", [], "", [remarkedPart,
    ⟨2, "/text/note[1]", .tei "note", [(.plain "target", "#x")], "N", [], ""⟩], ""⟩
  namespaces := [(none, "http://www.tei-c.org/ns/1.0")]

/-- A text that has the target of the note for an identifier. -/
def mistakenText : String :=
  "<text xmlns=\"http://www.tei-c.org/ns/1.0\"><p corresp=\"#x\">Q</p></text>"

/-- The part that has it. -/
def mistakenPart : Node :=
  ⟨1, "/text/p[1]", .tei "p", [(.plain "corresp", "#x")], "Q", [], ""⟩

/-- The document of that text. -/
def mistaken : Document where
  root := ⟨0, "/text", .tei "text", [], "", [mistakenPart], ""⟩
  namespaces := [(none, "http://www.tei-c.org/ns/1.0")]

/-- The file with the note. -/
def remarkedFile : SourceFile := ⟨"A", "a.xml"⟩

/-- The file with the other text. -/
def mistakenFile : SourceFile := ⟨"A", "b.xml"⟩

/-- The reference that the note makes. -/
def remark : Reference :=
  ⟨"/text/note[1]", "\x7bhttp://www.tei-c.org/ns/1.0\x7dnote", none, "#x", "#x", true, none,
    remarkedFile⟩

/-- What syncing the project of both files comes to. -/
def remarkedRows : Tables := ⟨[], [⟨remark, 0⟩], [⟨remarkedFile, 0⟩, ⟨mistakenFile, 0⟩]⟩

/-- A library of both documents. -/
def remarks : Library :=
  ⟨.forProject "A", some remarkedRows,
    fun file => if file = remarkedFile then .ok remarked else .ok mistaken⟩

theorem remarked_parse : Document.parse remarkedText = .ok remarked := by
  cbv

theorem mistaken_parse : Document.parse mistakenText = .ok mistaken := by
  cbv

theorem contribution_remarkedText :
    Index.contribution remarkedFile remarkedText.toUTF8 = ⟨[], [remark]⟩ := by
  rw [Index.contribution, Document.ofBytes_toUTF8, remarked_parse]
  decide +kernel

theorem contribution_mistakenText :
    Index.contribution mistakenFile mistakenText.toUTF8 = ⟨[], []⟩ := by
  rw [Index.contribution, Document.ofBytes_toUTF8, mistaken_parse]
  decide +kernel

/-- Both files were scanned, one after the other, into an empty index. -/
theorem remarkedRows_synced : remarkedRows.Synced := by
  let disk := Index.shelfOf [("a.xml", .file remarkedText.toUTF8 0),
    ("b.xml", .file mistakenText.toUTF8 0)]
  have first : (Tables.empty.syncFile disk 0 "project" remarkedFile).2 =
      ⟨[], [⟨remark, 0⟩], [⟨remarkedFile, 0⟩]⟩ := by
    rw [(@Index.syncFile_of_unknown disk 0 "project" .empty remarkedFile _ rfl rfl).1,
      contribution_remarkedText]
    rfl
  have second : (Tables.syncFile ⟨[], [⟨remark, 0⟩], [⟨remarkedFile, 0⟩]⟩ disk 0 "project"
      mistakenFile).2 = remarkedRows := by
    rw [(@Index.syncFile_of_unknown disk 0 "project" _ mistakenFile _ rfl rfl).1,
      contribution_mistakenText]
    rfl
  rw [← second, ← first]
  exact (Tables.Synced.empty.syncFile ..).syncFile ..

theorem remarks_synced : remarks.Synced := by
  intro tables found
  cases found
  exact remarkedRows_synced

/-- The note is about a part of its own file, but it is inserted into a part of another file, which
does not have the name that the note is addressed to. -/
theorem remark_strays :
    remarks.Synced ∧ remarkedRows.references.map (·.row) = [remark] ∧ remark.isLocal = true ∧
    noteReferences remarkedRows remarks.settings.annotations mistakenFile mistakenPart = [remark] ∧
    ¬ AddressedTo remark mistakenFile mistakenPart ∧
    (compile remarks mistakenFile).result.map Element.characters = .ok "NQ" := by
  refine ⟨remarks_synced, rfl, rfl, by decide +kernel, ?_, by decide +kernel⟩
  rintro ⟨inFile, -⟩
  exact absurd inFile (by decide)

/-- In its own file, the note is inserted into the part that it is about. -/
theorem remark_stays : ∃ notes,
    (annotate remarks (levels remarks 2) ⟨remarkedFile, remarked⟩ remarkedPart).result =
      .ok (.insert notes) ∧
    ∀ reference ∈ noteReferences remarkedRows remarks.settings.annotations remarkedFile
      remarkedPart, reference.isLocal → AddressedTo reference remarkedFile remarkedPart := by
  have inserted : (annotate remarks (levels remarks 2) ⟨remarkedFile, remarked⟩
      remarkedPart).result.map (fun applied => applied.notes.map Element.characters) =
        .ok ["N"] := by
    decide +kernel
  have references : noteReferences remarkedRows remarks.settings.annotations remarkedFile
      remarkedPart = [remark] := by
    decide +kernel
  obtain ⟨applied, ran, isNote⟩ := Outcome.map_eq_ok.mp inserted
  cases applied with
  | insert notes =>
    obtain ⟨tables, holds, -, exactly, -⟩ := local_inserted_iff remarks_synced ran
    cases holds
    refine ⟨notes, ran, exactly.mpr ⟨fun _ _ _ _ _ named => (by cases named), ?_⟩⟩
    intro reference member _ isName
    cases List.mem_singleton.mp (references ▸ member)
    exact absurd isName (by decide)
  | nothing => cases isNote
  | keep => cases isNote
  | replace note => cases isNote

end Intertext.Compile
