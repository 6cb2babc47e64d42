import Intertext.Proofs.Compile.LocalNotes
import Intertext.Proofs.Index.Reindex
/-!
Elements that are found more than once.

An element has one reference for each word of its target. Those that name a part of their file are
looked up so that no element is found twice, be it by two of its words or because it was found by
the identifier before. Those that name an identifier are all returned. So what refers to an element
is found once exactly if no element of the corpus names the identifier twice, and no two that name
it have the same path (`nodup_referencesTo_iff`); the names within the file do not count. Notes are
inserted once under the same condition on the notes of the listed projects (`inserted_once_iff`). A
note whose target has the identifier twice is inserted twice (`insistent_repeated`).
-/

namespace Intertext.Compile

open Corpus (Disk)
open Markup (Document Element Node)
open Index (Action IsSource Moment Reference Tables contribution corpusProjects filePath
  referencesOf scan scanFile scanFile_eq)

/-! ## 1. The elements of references

References are told apart by the element that makes them. What is added by the name of an element is
checked against all that was found, so only what the identifier finds can repeat an element. -/

/-- The element that makes a reference: its file and its path. -/
def elementOf (reference : Reference) : SourceFile × String := (reference.file, reference.path)

variable {found more references : List Reference} {reference : Reference}

/-- References are compared by the elements that make them. -/
theorem sameElement_iff {other : Reference} :
    Tables.sameElement reference other = true ↔ elementOf reference = elementOf other := by
  simp only [Tables.sameElement, elementOf, Bool.and_eq_true, decide_eq_true_eq, Prod.mk.injEq]

/-- The elements of references that are added had none before. -/
theorem elementOf_not_mem_of_unseen : ∀ {found more : List Reference},
    reference ∈ unseen found more → elementOf reference ∉ found.map elementOf
  | found, first :: rest, member => by
    rw [unseen] at member
    split at member
    · exact elementOf_not_mem_of_unseen member
    · rename_i isNew
      intro isThere
      rcases List.mem_cons.mp member with rfl | later
      · obtain ⟨other, isFound, same⟩ := List.mem_map.mp isThere
        exact isNew (List.any_eq_true.mpr ⟨other, isFound, sameElement_iff.mpr same.symm⟩)
      · refine elementOf_not_mem_of_unseen later ?_
        rw [List.map_append]
        exact List.mem_append_left _ isThere

/-- What is added repeats no element either. -/
theorem nodup_unseen : ∀ found more : List Reference, ((unseen found more).map elementOf).Nodup
  | _, [] => List.nodup_nil
  | found, first :: rest => by
    rw [unseen]
    split
    · exact nodup_unseen found rest
    · rw [List.map_cons, List.nodup_cons]
      refine ⟨fun again => ?_, nodup_unseen _ rest⟩
      obtain ⟨other, member, same⟩ := List.mem_map.mp again
      refine elementOf_not_mem_of_unseen member ?_
      rw [same, List.map_append]
      exact List.mem_append_right _ List.mem_cons_self

/-- Adding the references of new elements repeats no element. -/
theorem nodup_addNew_iff (p : Reference → Bool) :
    (((Tables.addNew found more).filter p).map elementOf).Nodup ↔
      ((found.filter p).map elementOf).Nodup := by
  rw [addNew_eq, List.filter_append, List.map_append, List.nodup_append]
  refine ⟨And.left, fun distinct => ⟨distinct, ?_, ?_⟩⟩
  · exact (nodup_unseen found more).sublist (List.filter_sublist.map _)
  · rintro element isFound _ isNew rfl
    obtain ⟨reference, member, rfl⟩ := List.mem_map.mp isNew
    exact elementOf_not_mem_of_unseen (List.mem_of_mem_filter member)
      ((List.filter_sublist.map _).subset isFound)

/-- Elements are repeated only within a file. -/
theorem nodup_iff_of_files :
    (references.map elementOf).Nodup ↔
      ∀ file, ((references.filter (·.file = file)).map elementOf).Nodup := by
  constructor
  · intro distinct file
    exact distinct.sublist (List.filter_sublist.map _)
  · intro each
    induction references with
    | nil => exact List.nodup_nil
    | cons first rest ih =>
      -- another reference of the first element is in the same file
      have own := each first.file
      rw [List.filter_cons_of_pos (by simp), List.map_cons, List.nodup_cons] at own
      rw [List.map_cons, List.nodup_cons]
      refine ⟨fun again => own.1 ?_, ih fun file => ?_⟩
      · obtain ⟨other, member, same⟩ := List.mem_map.mp again
        have sameFile : other.file = first.file := congrArg Prod.fst same
        have kept : other ∈ rest.filter (·.file = first.file) :=
          List.mem_filter.mpr ⟨member, decide_eq_true sameFile⟩
        exact List.mem_map.mpr ⟨other, kept, same⟩
      · exact (each file).sublist (((List.sublist_cons_self first rest).filter _).map _)

/-! ## 2. The elements of a document

A node makes one reference for each word of its target, and all of these have its path. Two nodes
are one element to the index if they have one path. -/

/-- What the target of a node names. -/
def named (node : Node) : List String :=
  ((node.value? (.plain "target")).map Text.words).getD []

/-- How often a node names a target; nodes that have none of some tags do not count. -/
def mentions (tags : String → Bool) (target : String) (node : Node) : Nat :=
  if tags node.name.clark then (named node).count target else 0

/-- Whether no element with one of some tags names a target twice, and no two of those that name it
have the same path. -/
structure NamesOnce (document : Document) (tags : String → Bool) (target : String) : Prop where
  within : ∀ node ∈ document.nodes, mentions tags target node ≤ 1
  apart : document.nodes.Pairwise fun first second =>
    mentions tags target first ≠ 0 → mentions tags target second ≠ 0 → first.path ≠ second.path

/-- A node makes as many references to a target as it names it. -/
theorem elements_referencesOf (file : SourceFile) (node : Node) (tags : String → Bool)
    (target : String) :
    (((referencesOf file node).filter (·.targetStart = target)).filter (tags ·.tag)).map elementOf =
      List.replicate (mentions tags target node) (file, node.path) := by
  have ofNode (reference) (member : reference ∈ (referencesOf file node).filter
      (·.targetStart = target)) : reference.tag = node.name.clark :=
    (Index.of_mem_referencesOf (List.mem_of_mem_filter member)).2.2
  unfold mentions
  split
  · rename_i counts
    rw [List.filter_eq_self.mpr fun reference member => by rwa [ofNode reference member]]
    unfold referencesOf named
    cases node.value? (.plain "target") with
    | none => rfl
    | some given =>
      rw [Option.map_some, Option.getD_some, List.filter_map, List.map_map,
        List.count_eq_length_filter, ← List.map_const']
      rfl
  · rename_i ignored
    rw [List.filter_eq_nil_iff.mpr fun reference member => by rwa [ofNode reference member]]
    rfl

/-- The references of a document to a target are of different elements exactly if its elements name
the target once. -/
theorem nodup_scan_iff {document : Document} {file : SourceFile} {tags : String → Bool}
    {target : String} :
    ((((scan document file).references.filter (·.targetStart = target)).filter
        (tags ·.tag)).map elementOf).Nodup ↔ NamesOnce document tags target := by
  rw [scan, List.filter_flatMap, List.filter_flatMap, List.map_flatMap, List.Nodup,
    List.pairwise_flatMap]
  simp only [elements_referencesOf, List.pairwise_replicate, ne_eq, not_true_eq_false, or_false,
    List.mem_replicate]
  -- the condition within a node and the one between two nodes are those of the statement
  constructor
  · rintro ⟨within, apart⟩
    refine ⟨within, apart.imp ?_⟩
    intro first second differ names names' samePath
    exact differ _ ⟨names, rfl⟩ _ ⟨names', rfl⟩ (by rw [samePath])
  · rintro ⟨within, apart⟩
    refine ⟨within, apart.imp ?_⟩
    rintro first second differ _ ⟨names, rfl⟩ _ ⟨names', rfl⟩ same
    exact differ names names' (congrArg Prod.snd same)

/-! ## 3. Asking for references

Where the tables mirror the disk, the references of a file are those of the document it holds. So a
question about rows is one about documents, file by file. -/

variable {disk : Disk} {base : String} {tables : Tables} {file : SourceFile}
  {tags : String → Bool} {chosen : SourceFile → Bool} {target : String}

/-- Whether a file holds a document. -/
def Contains (disk : Disk) (base : String) (file : SourceFile) (document : Document) : Prop :=
  ∃ bytes, disk.bytes? (filePath base file) = some bytes ∧ Document.ofBytes bytes = .ok document

/-- The references of a file to a target repeat no element exactly if the document that it holds, if
any, names the target once. -/
theorem nodup_scanFile_iff :
    ((((scanFile disk base file).references.filter (·.targetStart = target)).filter
        (tags ·.tag)).map elementOf).Nodup ↔
      ∀ document, Contains disk base file document → NamesOnce document tags target := by
  -- a file that is missing or holds no document has no references, and nothing is asked of it
  cases found : disk.bytes? (filePath base file) with
  | none =>
    rw [Index.scanFile_of_missing found]
    refine iff_of_true List.nodup_nil ?_
    rintro document ⟨bytes, isThere, -⟩
    cases found.symm.trans isThere
  | some bytes =>
    rw [scanFile_eq found, contribution]
    cases reads : Document.ofBytes bytes with
    | error fault =>
      refine iff_of_true List.nodup_nil ?_
      rintro document ⟨content, isThere, isDocument⟩
      cases found.symm.trans isThere
      cases reads.symm.trans isDocument
    | ok document =>
      refine nodup_scan_iff.trans ⟨?_, fun each => each document ⟨bytes, found, reads⟩⟩
      rintro once other ⟨content, isThere, isDocument⟩
      cases found.symm.trans isThere
      cases reads.symm.trans isDocument
      exact once

/-- What is looked up by a name is added to what is looked up by the identifier. -/
theorem exists_addNew (tables : Tables) (urn : Option String)
    (fragment : Option (String × SourceFile)) :
    ∃ more, tables.referencesTo urn fragment = Tables.addNew
      (urn.elim [] fun target => tables.referencesWhere (·.targetStart = target)) more := by
  cases fragment with
  | none =>
    refine ⟨[], ?_⟩
    cases urn <;> rfl
  | some place =>
    cases urn <;> exact ⟨_, rfl⟩

/-- The references of a file to a target, out of those of all files. -/
theorem filter_of_file (tables : Tables) (file : SourceFile) (tags : String → Bool)
    (chosen : SourceFile → Bool) (target : String) :
    (((tables.references.map (·.row)).filter (·.targetStart = target)).filter
        fun reference => chosen reference.file && tags reference.tag).filter (·.file = file) =
      if chosen file then
        ((tables.referencesIn file).filter (·.targetStart = target)).filter (tags ·.tag)
      else [] := by
  rw [Tables.referencesIn, List.filter_filter, List.filter_filter, List.filter_filter,
    List.filter_filter]
  split
  · refine List.filter_congr fun reference _ => ?_
    by_cases same : reference.file = file <;> simp_all [Bool.and_comm]
  · refine List.filter_eq_nil_iff.mpr fun reference _ => ?_
    by_cases same : reference.file = file <;> simp_all

/-- Of the references to an element, those that stand in some files and are made by elements with
some tags are of different elements exactly if the elements of the files name its identifier
once. -/
theorem nodup_referencesTo_iff (mirrors : tables.Mirrors disk base) (tags : String → Bool)
    (chosen : SourceFile → Bool) (urn : Option String)
    (fragment : Option (String × SourceFile)) :
    (((tables.referencesTo urn fragment).filter
        fun reference => chosen reference.file && tags reference.tag).map elementOf).Nodup ↔
      ∀ target, urn = some target → ∀ file document, IsSource disk base file → chosen file →
        Contains disk base file document → NamesOnce document tags target := by
  -- What is added by the name repeats no element, so that only the identifier counts.
  obtain ⟨more, isAdded⟩ := exists_addNew tables urn fragment
  rw [isAdded, nodup_addNew_iff]
  cases urn with
  | none => exact iff_of_true List.nodup_nil (fun _ isSome => by cases isSome)
  | some target =>
    have sorted : (tables.referencesWhere (·.targetStart = target)).Perm
        ((tables.references.map (·.row)).filter (·.targetStart = target)) :=
      List.mergeSort_perm _ _
    rw [Option.elim_some, ((sorted.filter _).map _).nodup_iff, nodup_iff_of_files]
    simp only [filter_of_file, mirrors.references]
    constructor
    · rintro each _ ⟨⟩ file document isSource isChosen
      have once := each file
      rw [if_pos isChosen, if_pos ((mirrors.files file).mpr isSource)] at once
      exact nodup_scanFile_iff.mp once document
    · intro each file
      split
      · rename_i isChosen
        split
        · rename_i isListed
          exact nodup_scanFile_iff.mpr fun document =>
            each target rfl file document ((mirrors.files file).mp isListed) isChosen
        · exact List.nodup_nil
      · exact List.nodup_nil

/-! ## 4. Inserting notes

A note is copied from the node that the path in its row leads to, and one is inserted for every
reference to the element in the listed projects. -/

variable {library : Library} {nested : Nested} {site : Site} {node : Node}

/-- Whether a file and a path lead to an element of the file. -/
def LeadsTo (library : Library) (element : SourceFile × String) (source : SourceFile × Node) :
    Prop :=
  source.1 = element.1 ∧ ∃ document, library.document element.1 = .ok document ∧
    document.byPath? element.2 = some source.2

/-- Whether an element of the output is the copy of an element of a file, as another node of the
site needs it. -/
def IsCopy (library : Library) (nested : Nested) (site : Site) (node : Node)
    (source : SourceFile × Node) (copied : Element) : Prop :=
  ∃ document bare, library.document source.1 = .ok document ∧
    (nested.copy (some site.file) source.1 (some source.2)).result = .ok bare ∧
    copied = stampLang bare (document.lang? source.2.id) (site.document.lang? node.id)

/-- A file and a path lead to one element, and no others lead to it. -/
theorem biUnique_leadsTo (library : Library) : Relator.BiUnique (LeadsTo library) := by
  constructor
  · rintro element source other ⟨inFile, document, -, isThere⟩ ⟨inFile', document', -, isThere'⟩
    have atPath := List.find?_some isThere
    have atPath' := List.find?_some isThere'
    exact Prod.ext (inFile.symm.trans inFile')
      ((of_decide_eq_true atPath).symm.trans (of_decide_eq_true atPath'))
  · rintro element source source' ⟨inFile, document, reads, isThere⟩
      ⟨inFile', document', reads', isThere'⟩
    cases reads.symm.trans reads'
    exact Prod.ext (inFile.trans inFile'.symm) (Option.some.inj (isThere.symm.trans isThere'))

theorem exists_source {note : Element}
    (made : (noteOf library nested site node reference).result = .ok note) :
    ∃ source, LeadsTo library (elementOf reference) source ∧
      IsCopy library nested site node source note := by
  obtain ⟨document, found, bare, reads, isThere, copies, rfl⟩ := noteOf_eq_ok.mp made
  exact ⟨(reference.file, found), ⟨rfl, document, reads, isThere⟩, document, bare, reads, copies,
    rfl⟩

theorem exists_sources {notes : List Element}
    (made : List.Forall₂ (fun reference note =>
      (noteOf library nested site node reference).result = .ok note) references notes) :
    ∃ sources, List.Forall₂ (LeadsTo library) (references.map elementOf) sources ∧
      List.Forall₂ (IsCopy library nested site node) sources notes := by
  induction made with
  | nil => exact ⟨[], .nil, .nil⟩
  | cons first _ others =>
    obtain ⟨source, leads, copies⟩ := exists_source first
    obtain ⟨sources, lead, copy⟩ := others
    exact ⟨source :: sources, .cons leads lead, .cons copies copy⟩

/-- The references that notes are inserted for are those of the listed projects. -/
theorem noteReferences_perm (tables : Tables) (annotations : List String) (file : SourceFile)
    (node : Node) :
    (noteReferences tables annotations file node).Perm
      ((tables.referencesTo node.corresp? (node.xmlId?.map (·, file))).filter fun reference =>
        decide (reference.file.project ∈ annotations) && decide (reference.tag = noteTag)) := by
  rw [← List.filter_filter]
  exact Priority.ranked_perm _ _

/-- Whatever was done to a corpus and its index, after the corpus was synced no element is found
twice among what refers to an element exactly if no element of the corpus names the identifier
twice, and no two that name it have the same path. Whenever notes are inserted into an element, they
are copies of elements of the corpus; no element is inserted twice exactly if the same holds of the
notes in the listed projects. -/
theorem inserted_once_iff {history : List Action} {projects : List String} (now : Nat)
    (timely : (Moment.run base history).Timely base)
    (listed : corpusProjects (Moment.run base history).disk base = .ok projects) :
    let after := Moment.run base (history ++ [.syncCorpus now])
    (∀ urn fragment, ((after.tables.referencesTo urn fragment).map elementOf).Nodup ↔
      ∀ target, urn = some target → ∀ file document, IsSource after.disk base file →
        Contains after.disk base file document → NamesOnce document (fun _ => true) target) ∧
    ∀ (library : Library) (nested : Nested) (site : Site) (node : Node) (notes : List Element),
      library.tables = some after.tables →
      (annotate library nested site node).result = .ok (.insert notes) →
      ∃ sources, List.Forall₂ (IsCopy library nested site node) sources notes ∧
        List.Forall₂ (LeadsTo library)
          ((noteReferences after.tables library.settings.annotations site.file node).map
            elementOf) sources ∧
        (sources.Nodup ↔ ∀ target, node.corresp? = some target → ∀ file document,
          IsSource after.disk base file → file.project ∈ library.settings.annotations →
          Contains after.disk base file document →
            NamesOnce document (· = noteTag) target) := by
  intro after
  have mirrors : after.tables.Mirrors after.disk base := by
    rw [show after = _ from Moment.run_append base history _, List.foldl_cons, List.foldl_nil,
      Moment.disk_syncCorpus]
    exact (Moment.sound_run base history).mirrors now timely listed
  constructor
  · intro urn fragment
    have once := nodup_referencesTo_iff mirrors (fun _ => true) (fun _ => true) urn fragment
    simpa only [Bool.and_true, List.filter_true, forall_const] using once
  · intro library nested site node notes holds inserts
    obtain ⟨tables, holds', made⟩ := notes_of_insert inserts
    cases holds.symm.trans holds'
    obtain ⟨sources, lead, copy⟩ := exists_sources made
    refine ⟨sources, copy, lead, ?_⟩
    have sameElements := (noteReferences_perm after.tables library.settings.annotations site.file
      node).map elementOf
    have once := nodup_referencesTo_iff mirrors (· = noteTag)
      (·.project ∈ library.settings.annotations) node.corresp? (node.xmlId?.map (·, site.file))
    refine (List.rel_nodup (biUnique_leadsTo library) lead).symm.trans ?_
    rw [sameElements.nodup_iff]
    simpa only [decide_eq_true_eq] using once

/-! ## 5. A note that insists -/

/-- A text with a note that names one of its parts by its identifier, by this once more, and by its
name. -/
def insistentText : String :=
  "<text xmlns=\"http://www.tei-c.org/ns/1.0\">" ++
    "<p corresp=\"urn:x-opensiddur:p\" xml:id=\"x\">P</p>" ++
    "<note target=\"urn:x-opensiddur:p urn:x-opensiddur:p #x\">N</note></text>"

/-- The part that the note names. -/
def insistentPart : Node :=
  ⟨1, "/text/p[1]", .tei "p", [(.plain "corresp", "urn:x-opensiddur:p"), (.xml "id", "x")], "P", [],
    ""⟩

/-- The note. -/
def insistentNote : Node :=
  ⟨2, "/text/note[1]", .tei "note",
    [(.plain "target", "urn:x-opensiddur:p urn:x-opensiddur:p #x")], "N", [], ""⟩

/-- The document of that text. -/
def insistent : Document where
  root := ⟨0, "/text", .tei "text", [], "", [insistentPart, insistentNote], ""⟩
  namespaces := [(none, "http://www.tei-c.org/ns/1.0")]

/-- The file with that text. -/
def insistentFile : SourceFile := ⟨"A", "a.xml"⟩

/-- The reference that the note makes to a target. -/
def insistence (target : String) : Reference :=
  ⟨"/text/note[1]", "\x7bhttp://www.tei-c.org/ns/1.0\x7dnote", none, target, target,
    Index.isFragment target, none, insistentFile⟩

/-- What syncing the corpus of that file comes to. -/
def insistentRows : Tables :=
  ⟨[⟨⟨"urn:x-opensiddur:p", insistentFile, some "/text/p[1]",
      some "\x7bhttp://www.tei-c.org/ns/1.0\x7dp", none⟩, 1⟩],
    [⟨insistence "urn:x-opensiddur:p", 1⟩, ⟨insistence "urn:x-opensiddur:p", 1⟩,
      ⟨insistence "#x", 1⟩],
    [⟨insistentFile, 1⟩]⟩

/-- A library with that file alone. -/
def insistentLibrary : Library := ⟨.forProject "A", some insistentRows, fun _ => .ok insistent⟩

/-- The text is written. -/
def insisted : List Action := [.write "project/A/a.xml" insistentText.toUTF8 0]

theorem insistent_parse : Document.parse insistentText = .ok insistent := by
  cbv

theorem contribution_insistentText :
    contribution insistentFile insistentText.toUTF8 = ⟨insistentRows.mappings.map (·.row),
      insistentRows.references.map (·.row)⟩ := by
  rw [contribution, Document.ofBytes_toUTF8, insistent_parse]
  decide +kernel

theorem disk_insisted : (Moment.run "project" insisted).disk =
    Index.shelfOf [("a.xml", .file insistentText.toUTF8 0)] := rfl

theorem timely_insisted : (Moment.run "project" insisted).Timely "project" := by
  intro file indexed modified isIndexed
  cases isIndexed

theorem listed_insisted :
    corpusProjects (Moment.run "project" insisted).disk "project" = .ok ["A"] := by
  rw [disk_insisted]
  decide +kernel

theorem tables_insisted :
    (Moment.run "project" (insisted ++ [.syncCorpus 1])).tables = insistentRows := by
  let disk := Index.shelfOf [("a.xml", .file insistentText.toUTF8 0)]
  have corpus : (Tables.empty.syncCorpus disk 1 "project" ["A"]).2 =
      (Tables.empty.syncProject disk 1 "project" "A").2 := by
    have noOrphans : Tables.empty.projects.filter (· ∉ ["A"]) = [] := by decide +kernel
    unfold Tables.syncCorpus
    rw [noOrphans]
    rfl
  have names : Index.sourceNames [("a.xml", .file insistentText.toUTF8 0)] = ["a.xml"] := by
    decide +kernel
  have noneGone : Tables.empty.goneFiles "A" ["a.xml"] = [] := by decide +kernel
  have stored : (Tables.empty.syncFile disk 1 "project" insistentFile).2 = insistentRows := by
    rw [(@Index.syncFile_of_unknown disk 1 "project" .empty insistentFile _ rfl rfl).1,
      contribution_insistentText]
    rfl
  rw [Moment.run_append, List.foldl_cons, List.foldl_nil, Moment.act, listed_insisted,
    disk_insisted]
  refine corpus.trans ?_
  rw [Tables.syncProject_eq (show disk.list? _ = some _ from rfl), Tables.filesToSync, names,
    noneGone]
  exact stored

theorem referencesTo_insistent :
    insistentRows.referencesTo (some "urn:x-opensiddur:p") (some ("x", insistentFile)) =
      [insistence "urn:x-opensiddur:p", insistence "urn:x-opensiddur:p"] := by
  have sorted (p : Reference → Bool) : insistentRows.referencesWhere p =
      (insistentRows.references.map (·.row)).filter p := by
    have oneFile (first) (isFirst : first ∈ (insistentRows.references.map (·.row)).filter p)
        (second) (isSecond : second ∈ (insistentRows.references.map (·.row)).filter p) :
        Text.lePair (first.file.project, first.file.name)
          (second.file.project, second.file.name) = true := by
      have inFile : ∀ row ∈ insistentRows.references.map (·.row), row.file = insistentFile := by
        decide
      rw [inFile first (List.mem_of_mem_filter isFirst),
        inFile second (List.mem_of_mem_filter isSecond)]
      decide
    exact List.mergeSort_of_pairwise (List.pairwise_of_forall_mem_list oneFile)
  show Tables.addNew (insistentRows.referencesWhere _) (insistentRows.referencesWhere _) = _
  rw [sorted, sorted]
  decide +kernel

theorem noteReferences_insistent :
    noteReferences insistentRows insistentLibrary.settings.annotations insistentFile
        insistentPart = [insistence "urn:x-opensiddur:p", insistence "urn:x-opensiddur:p"] := by
  have identifier : insistentPart.corresp? = some "urn:x-opensiddur:p" := by decide
  have name : insistentPart.xmlId? = some "x" := by decide
  rw [noteReferences, identifier, name, Option.map_some, referencesTo_insistent,
    Priority.ranked_eq_flatMap]
  decide +kernel

theorem annotate_insistent : ∃ note,
    (annotate insistentLibrary (levels insistentLibrary 2) ⟨insistentFile, insistent⟩
      insistentPart).result = .ok (.insert [note, note]) ∧ note.characters = "N" := by
  have made : (noteOf insistentLibrary (levels insistentLibrary 2) ⟨insistentFile, insistent⟩
      insistentPart (insistence "urn:x-opensiddur:p")).result.map Element.characters =
        .ok "N" := by
    decide +kernel
  obtain ⟨note, ran, text⟩ := Outcome.map_eq_ok.mp made
  refine ⟨note, Run.bind_eq_ok.mpr ⟨insistentRows, rfl, Run.bind_eq_ok.mpr
    ⟨[note, note], ?_, rfl⟩⟩, text⟩
  rw [show noteReferences _ _ _ _ = _ from noteReferences_insistent, List.mapM_cons, List.mapM_cons,
    List.mapM_nil]
  exact Run.bind_eq_ok.mpr ⟨note, ran, Run.bind_eq_ok.mpr ⟨[note], Run.bind_eq_ok.mpr
    ⟨note, ran, rfl⟩, rfl⟩⟩

/-- The note is found twice by the identifier of the part, and not once more by its name. It is
inserted for each time it is found. -/
theorem insistent_repeated :
    (Moment.run "project" insisted).Timely "project" ∧
    corpusProjects (Moment.run "project" insisted).disk "project" = .ok ["A"] ∧
    (Moment.run "project" (insisted ++ [.syncCorpus 1])).tables.referencesTo
        (some "urn:x-opensiddur:p") (some ("x", insistentFile)) =
      [insistence "urn:x-opensiddur:p", insistence "urn:x-opensiddur:p"] ∧
    insistentLibrary.tables = some (Moment.run "project" (insisted ++ [.syncCorpus 1])).tables ∧
    ∃ note, (annotate insistentLibrary (levels insistentLibrary 2) ⟨insistentFile, insistent⟩
      insistentPart).result = .ok (.insert [note, note]) ∧ note.characters = "N" := by
  rw [tables_insisted]
  exact ⟨timely_insisted, listed_insisted, referencesTo_insistent, rfl, annotate_insistent⟩

theorem not_namesOnce_insistent (tags : String → Bool) (counts : tags noteTag) :
    ¬ NamesOnce insistent tags "urn:x-opensiddur:p" := by
  intro once
  have isNode : insistentNote ∈ insistent.nodes :=
    List.mem_of_getElem? (show insistent.nodes[2]? = some insistentNote from rfl)
  have twice : mentions tags "urn:x-opensiddur:p" insistentNote = 2 :=
    (if_pos counts).trans (by decide +kernel)
  have atMost := once.within insistentNote isNode
  omega

/-- After the corpus of that file was synced, the note is found once by the name of the part and
twice by its identifier, and what is inserted into the part are copies of one element. -/
theorem inserted_once_insistent :
    (((Moment.run "project" (insisted ++ [.syncCorpus 1])).tables.referencesTo none
      (some ("x", insistentFile))).map elementOf).Nodup ∧
    ¬ (((Moment.run "project" (insisted ++ [.syncCorpus 1])).tables.referencesTo
      (some "urn:x-opensiddur:p") none).map elementOf).Nodup ∧
    ∃ notes sources, (annotate insistentLibrary (levels insistentLibrary 2)
        ⟨insistentFile, insistent⟩ insistentPart).result = .ok (.insert notes) ∧
      List.Forall₂ (IsCopy insistentLibrary (levels insistentLibrary 2)
        ⟨insistentFile, insistent⟩ insistentPart) sources notes ∧ ¬ sources.Nodup := by
  have disk : (Moment.run "project" (insisted ++ [.syncCorpus 1])).disk =
      Index.shelfOf [("a.xml", .file insistentText.toUTF8 0)] :=
    Moment.disk_syncCorpus (Moment.run "project" insisted) "project" 1
  have isSource : IsSource (Moment.run "project" (insisted ++ [.syncCorpus 1])).disk "project"
      insistentFile := by
    rw [disk]
    exact ⟨by decide, by decide, by decide, rfl⟩
  have contains : Contains (Moment.run "project" (insisted ++ [.syncCorpus 1])).disk "project"
      insistentFile insistent := by
    rw [disk]
    exact ⟨insistentText.toUTF8, rfl, by rw [Document.ofBytes_toUTF8, insistent_parse]⟩
  obtain ⟨found, inserted⟩ := inserted_once_iff 1 timely_insisted listed_insisted
  refine ⟨(found none _).mpr fun _ isSome => (by cases isSome), fun once => ?_, ?_⟩
  · exact not_namesOnce_insistent _ rfl
      ((found _ none).mp once _ rfl insistentFile insistent isSource contains)
  · obtain ⟨note, inserts, -⟩ := annotate_insistent
    obtain ⟨sources, copy, -, once⟩ := inserted insistentLibrary _ _ _ _
      (congrArg some tables_insisted.symm) inserts
    refine ⟨_, sources, inserts, copy, fun distinct => ?_⟩
    exact not_namesOnce_insistent _ rfl (once.mp distinct _ (by decide) insistentFile insistent
      isSource (by decide) contains)

end Intertext.Compile
