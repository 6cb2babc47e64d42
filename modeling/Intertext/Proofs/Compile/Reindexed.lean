import Intertext.Proofs.Compile.Listed
import Intertext.Proofs.Index.Reindex
/-!
What indexing a project outright does to queries and compilations.

After a project was indexed outright, whatever was done before, its files have the references they
make now exactly if none were recorded of them before, and the definitions they make now exactly if
some file of the project makes each of the definitions that were held of them before. Indexing it
twice answers as indexing it once exactly if its files make no references, and then compiles as well
(`index_exact_iff`). Where a note is indexed twice, it has two references, and it is inserted for
each of them (`noted_twice`).
-/

namespace Intertext.Compile

open Index (Deed Moment Tables scanFile projectFiles)
open Markup (Document Element Node)

/-! ## 1. Indexing outright -/

/-- Compilations do not see at what times rows were written. -/
theorem sharesListed_of_sameContents {library : Library} {tables other : Tables}
    (same : tables.SameContents other) (compiled : SourceFile) :
    { library with tables := some tables }.SharesListed
      { library with tables := some other } compiled where
  settings := rfl
  documents _ _ _ reads := reads
  tables found isFound := by
    cases isFound
    exact ⟨other, rfl, ⟨congrArg _ same.mappings, congrArg _ same.references⟩⟩

/-- Whatever was done to a corpus and its index before a project is indexed outright: its files have
the references that they make exactly if none were recorded of them, and the definitions held of
them are those that they make exactly if some file of the project makes each definition that was
held of them. Indexing it twice answers all questions as indexing it once exactly if its files make
no references; if so, it compiles to the same trees. -/
theorem index_exact_iff (base : String) (deeds : List Deed) (now later : Nat) {project : String}
    {names : List String}
    (present : projectFiles (Moment.reach base deeds).disk base project = .ok names) :
    let before := Moment.reach base deeds
    let once := before.index base now project
    let twice := once.index base later project
    ((∀ name ∈ names, once.tables.referencesIn ⟨project, name⟩ =
        (scanFile before.disk base ⟨project, name⟩).references) ↔
      ∀ name ∈ names, before.tables.referencesIn ⟨project, name⟩ = []) ∧
    ((∀ row ∈ once.tables.mappings, row.row.file.project = project → row.row.file.name ∈ names →
        row.row ∈ (scanFile before.disk base row.row.file).mappings) ↔
      ∀ row ∈ before.tables.mappings, row.row.file.project = project → row.row.file.name ∈ names →
        ∃ name ∈ names, ∃ mapping ∈ (scanFile before.disk base ⟨project, name⟩).mappings,
          mapping.urn = row.row.urn) ∧
    (twice.tables.AnswersAlike once.tables ↔
      ∀ name ∈ names, (scanFile before.disk base ⟨project, name⟩).references = []) ∧
    ((∀ name ∈ names, (scanFile before.disk base ⟨project, name⟩).references = []) →
      ∀ (library : Library) (file : SourceFile) (tree : Element),
        (compile { library with tables := some twice.tables } file).result = .ok tree →
          (compile { library with tables := some once.tables } file).result = .ok tree) := by
  intro before once twice
  have keyed : before.tables.Keyed := Moment.keyed_reach base deeds
  have distinct := Index.nodup_of_projectFiles (Moment.sound_reach base deeds).1 present
  have isOnce : once.tables = (before.tables.indexFiles before.disk now base project names).2 :=
    Moment.tables_index present
  have isTwice : twice.tables =
      (once.tables.indexFiles before.disk later base project names).2 := by
    have still : projectFiles once.disk base project = .ok names := by
      rw [Moment.disk_index]
      exact present
    rw [← Moment.disk_index before base now project]
    exact Moment.tables_index still
  rw [isTwice, isOnce]
  refine ⟨Tables.references_indexFiles_iff distinct, Tables.mappings_indexFiles_iff keyed,
    Tables.answersAlike_indexFiles_iff keyed distinct later, ?_⟩
  intro nothing library file tree ran
  exact compile_of_sharesListed
    (sharesListed_of_sameContents (Tables.sameContents_indexFiles keyed later nothing) file) ran

/-! ## 2. A note that is indexed twice -/

/-- A text with a note about one of its parts. -/
def notedText : String :=
  "<text xmlns=\"http://www.tei-c.org/ns/1.0\"><p corresp=\"urn:x-opensiddur:p\">P</p>" ++
    "<note target=\"urn:x-opensiddur:p\">N</note></text>"

/-- The part that the note is about. -/
def notedPart : Node :=
  ⟨1, "/text/p[1]", .tei "p", [(.plain "corresp", "urn:x-opensiddur:p")], "P", [], ""⟩

/-- The document of that text. -/
def noted : Document where
  root := ⟨0, "/text", .tei "text", [], "",
    [notedPart,
      ⟨2, "/text/note[1]", .tei "note", [(.plain "target", "urn:x-opensiddur:p")], "N", [], ""⟩],
    ""⟩
  namespaces := [(none, "http://www.tei-c.org/ns/1.0")]

/-- The file with that text. -/
def notedFile : SourceFile := ⟨"A", "a.xml"⟩

/-- The reference that the note makes. -/
def notedReference : Index.Reference :=
  ⟨"/text/note[1]", "\x7bhttp://www.tei-c.org/ns/1.0\x7dnote", none, "urn:x-opensiddur:p",
    "urn:x-opensiddur:p", false, none, notedFile⟩

/-- The definition that the text makes. -/
def notedMapping : Index.Mapping :=
  ⟨"urn:x-opensiddur:p", notedFile, some "/text/p[1]",
    some "\x7bhttp://www.tei-c.org/ns/1.0\x7dp", none⟩

/-- The text is written. -/
def writtenOnly : List Deed := [.act (.write "project/A/a.xml" notedText.toUTF8 0)]

/-- The text is written, and its project indexed outright. -/
def indexedOnce : List Deed := writtenOnly ++ [.indexProject 1 "A"]

/-- The project of the text is indexed outright once more. -/
def indexedTwice : List Deed := indexedOnce ++ [.indexProject 2 "A"]

theorem noted_parse : Document.parse notedText = .ok noted := by
  cbv

theorem contribution_notedText :
    Index.contribution notedFile notedText.toUTF8 = ⟨[notedMapping], [notedReference]⟩ := by
  rw [Index.contribution, Document.ofBytes_toUTF8, noted_parse]
  decide +kernel

theorem disk_writtenOnly : (Moment.reach "project" writtenOnly).disk =
    Index.shelfOf [("a.xml", .file notedText.toUTF8 0)] := rfl

theorem scanFile_noted : scanFile (Index.shelfOf [("a.xml", .file notedText.toUTF8 0)]) "project"
    notedFile = ⟨[notedMapping], [notedReference]⟩ :=
  (Index.scanFile_eq rfl).trans contribution_notedText

theorem projectFiles_noted :
    projectFiles (Index.shelfOf [("a.xml", .file notedText.toUTF8 0)]) "project" "A" =
      .ok ["a.xml"] := by
  decide +kernel

theorem indexFiles_noted (tables : Tables) (now : Nat) :
    (tables.indexFiles (Index.shelfOf [("a.xml", .file notedText.toUTF8 0)]) now "project" "A"
      ["a.xml"]).2 = tables.storeFile now notedFile [notedMapping] [notedReference] := by
  have scanned := scanFile_noted
  rw [Tables.indexFiles_cons, show (⟨"A", "a.xml"⟩ : SourceFile) = notedFile from rfl,
    Tables.indexFile, scanned]
  rfl

theorem reach_indexedOnce :
    (Moment.reach "project" indexedOnce).disk =
        Index.shelfOf [("a.xml", .file notedText.toUTF8 0)] ∧
      (Moment.reach "project" indexedOnce).tables =
        ⟨[⟨notedMapping, 1⟩], [⟨notedReference, 1⟩], [⟨notedFile, 1⟩]⟩ := by
  have isReached : Moment.reach "project" indexedOnce =
      (Moment.reach "project" writtenOnly).index "project" 1 "A" := rfl
  rw [isReached, Moment.disk_index, disk_writtenOnly]
  refine ⟨rfl, ?_⟩
  rw [Moment.tables_index (by rw [disk_writtenOnly]; exact projectFiles_noted), disk_writtenOnly,
    indexFiles_noted]
  rfl

theorem tables_indexedTwice : (Moment.reach "project" indexedTwice).tables =
    ⟨[⟨notedMapping, 2⟩], [⟨notedReference, 1⟩, ⟨notedReference, 2⟩], [⟨notedFile, 2⟩]⟩ := by
  have isReached : Moment.reach "project" indexedTwice =
      (Moment.reach "project" indexedOnce).index "project" 2 "A" := rfl
  obtain ⟨disk, tables⟩ := reach_indexedOnce
  rw [isReached, Moment.tables_index (by rw [disk]; exact projectFiles_noted), disk, tables,
    indexFiles_noted]
  decide +kernel

/-- The file makes one reference, but two are recorded of it when its project was indexed twice, and
its note is inserted twice where it was inserted once. -/
theorem noted_twice :
    projectFiles (Moment.reach "project" indexedTwice).disk "project" "A" = .ok ["a.xml"] ∧
    (scanFile (Moment.reach "project" indexedTwice).disk "project" notedFile).references =
      [notedReference] ∧
    (Moment.reach "project" indexedTwice).tables.referencesIn notedFile =
      [notedReference, notedReference] ∧
    ¬ (Moment.reach "project" indexedTwice).tables.AnswersAlike
      (Moment.reach "project" indexedOnce).tables ∧
    noteReferences (Moment.reach "project" indexedOnce).tables ["A"] notedFile notedPart =
      [notedReference] ∧
    noteReferences (Moment.reach "project" indexedTwice).tables ["A"] notedFile notedPart =
      [notedReference, notedReference] := by
  obtain ⟨disk, once⟩ := reach_indexedOnce
  have still : (Moment.reach "project" indexedTwice).disk =
      Index.shelfOf [("a.xml", .file notedText.toUTF8 0)] :=
    (Moment.disk_index (Moment.reach "project" indexedOnce) "project" 2 "A").trans disk
  rw [still, tables_indexedTwice, once]
  have identifier : notedPart.corresp? = some "urn:x-opensiddur:p" := by decide
  have noFragment : notedPart.xmlId? = none := by decide
  refine ⟨projectFiles_noted, congrArg _ scanFile_noted, by decide, fun alike => ?_, ?_, ?_⟩
  · exact absurd (alike.length_referencesIn notedFile) (by decide)
  · rw [noteReferences, identifier, noFragment]
    cbv
  · rw [noteReferences, identifier, noFragment]
    cbv

/-- Before its project was indexed, nothing was recorded of the file; after that, the references of
the file are the one it makes. -/
theorem index_exact_noted :
    (((Moment.reach "project" writtenOnly).index "project" 1 "A").tables.referencesIn notedFile =
      [notedReference]) ∧
    ¬ (((Moment.reach "project" writtenOnly).index "project" 1 "A").index "project" 2
      "A").tables.AnswersAlike ((Moment.reach "project" writtenOnly).index "project" 1 "A").tables
    := by
  have made : (scanFile (Moment.reach "project" writtenOnly).disk "project" notedFile).references =
      [notedReference] := congrArg _ scanFile_noted
  obtain ⟨references, -, twice, -⟩ :=
    index_exact_iff "project" writtenOnly 1 2 (by rw [disk_writtenOnly]; exact projectFiles_noted)
  refine ⟨?_, fun alike => ?_⟩
  · rw [← made]
    exact references.mpr (fun _ _ => rfl) "a.xml" (by decide)
  · exact absurd (made.symm.trans (twice.mp alike "a.xml" (by decide))) (by decide)

end Intertext.Compile
