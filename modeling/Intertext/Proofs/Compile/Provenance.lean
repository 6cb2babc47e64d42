import Intertext.Proofs.Compile.Output
import Intertext.Proofs.Index.Rows
import Intertext.Proofs.Markup.Paths
/-!
Where the elements of a compiled tree come from.

Whatever compilation shows has right stamps in its file (`Output.sourced`), so what a frame gives
has if it is put where the file of the asking frame is at home (`sourcing_levels`). A compiled tree
has a stamp at its root, so its stamps are right everywhere (`provenance_of_compile`). A note that
is inserted is never a directive, even if the index no longer fits the documents: the path in its
row ends in the name of notes (`role_of_noteRow`).
-/

namespace Intertext.Compile

open Markup (Element Name Node Document)
open Markup.Node (mem_preorder_self mem_preorder_of_below forestPreorder)
open Index (Tables)

/-! ## 1. Notes

A row that was scanned has the path and the tag of one node. The path need not lead to that node any
more, but the last step of a path is the name of what it leads to, and so a path that ends in the
name of notes leads to no directive. -/

/-- Whether the rows that a library answers from come from scanning and syncing alone. -/
def Library.Synced (library : Library) : Prop :=
  ∀ tables, library.tables = some tables → tables.Synced

/-- Whether a library holds nothing but what comes from texts: documents that were read and have no
stamps, and rows that were scanned. -/
structure Library.Pristine (library : Library) : Prop where
  parsed : library.Parsed
  synced : library.Synced
  unstamped : library.Unstamped

variable {library : Library} {outer file : SourceFile} {element : Element}

/-- What follows a mark in two ways ends in what follows its last occurrence. -/
theorem suffix_of_append_cons {mark : Char} {front front' part last : List Char}
    (same : front ++ mark :: part = front' ++ mark :: last) (isLast : mark ∉ last) :
    last <:+ part := by
  -- the mark before the part stands where the last one does, or earlier
  rcases List.append_eq_append_iff.mp same with ⟨more, -, rest⟩ | ⟨more, -, rest⟩
  · cases more with
    | nil =>
      injection rest with _ rest
      exact rest ▸ List.suffix_refl _
    | cons first others =>
      injection rest with _ rest
      exact ⟨others ++ [mark], by simp [rest]⟩
  · cases more with
    | nil =>
      injection rest with _ rest
      exact rest ▸ List.suffix_refl _
    | cons first others =>
      injection rest with _ rest
      exact absurd (rest ▸ List.mem_append_right _ List.mem_cons_self) isLast

/-- What has the tag of notes has a local part that ends so. -/
theorem note_suffix_of_clark {name : Name} (h : name.clark = noteTag) :
    "note".toList <:+ name.part.toList := by
  have spelled := congrArg String.toList h
  obtain ⟨space, part⟩ := name
  cases space with
  | none =>
    have same : part.toList = noteTag.toList := spelled
    rw [same]
    decide
  | some space =>
    have same : ('\x7b' :: space.toList) ++ ('\x7d' :: part.toList) =
        ('\x7b' :: Markup.teiSpace.toList) ++ ('\x7d' :: "note".toList) := by
      simpa [Name.clark, noteTag, Name.tei] using spelled
    exact suffix_of_append_cons same (by decide)

/-- The path in the row of a note ends in a name that ends in that of notes. -/
theorem endsIn_of_noteRow (synced : library.Synced) {path : String}
    (row : NoteRow library file path) :
    ∃ name : Name, "note".toList <:+ name.part.toList ∧ Markup.EndsIn path name := by
  obtain ⟨tables, found,
    ⟨reference, isRow, isNote, -, rfl⟩ | ⟨mapping, isRow, isNote, -, atPath⟩⟩ := row
  · obtain ⟨stamped, member, rfl⟩ := List.mem_map.mp isRow
    obtain ⟨text, document, read, node, isNode, made⟩ :=
      (synced tables found).scanned.references stamped member
    have ends := Markup.Document.endsIn_of_parse read node isNode
    obtain ⟨-, samePath, sameTag⟩ := Index.of_mem_referencesOf made
    exact ⟨node.name, note_suffix_of_clark (sameTag.symm.trans isNote), samePath ▸ ends⟩
  · obtain ⟨stamped, member, rfl⟩ := List.mem_map.mp isRow
    obtain ⟨text, document, read, node, isNode, made⟩ :=
      (synced tables found).scanned.mappings stamped member
    have ends := Markup.Document.endsIn_of_parse read node isNode
    obtain ⟨-, samePath, sameTag⟩ := Index.mappingOf?_eq_some made
    cases samePath.symm.trans atPath
    exact ⟨node.name, note_suffix_of_clark (Option.some.inj (sameTag.symm.trans isNote)), ends⟩

/-- Where a row says that there is a note, there is no directive. -/
theorem role_of_noteRow (parsed : library.Parsed) (synced : library.Synced) {path : String}
    {document : Document} {found : Node} (row : NoteRow library file path)
    (reads : library.document file = .ok document) (isThere : document.byPath? path = some found) :
    Role.of found ≠ .directive := by
  intro role
  have isDirective : found.name.part = "transclude" := by
    unfold Role.of at role
    split at role
    · rename_i name
      rw [name]
      rfl
    · split at role
      · split at role <;> cases role
      · cases role
  obtain ⟨text, read⟩ := parsed file document reads
  have isFound := List.mem_of_find?_eq_some isThere
  have ends := Markup.Document.endsIn_of_parse read found (List.mem_reverse.mp isFound)
  have samePath : found.path = path := by simpa using List.find?_some isThere
  rw [samePath] at ends
  obtain ⟨name, suffix, ends'⟩ := endsIn_of_noteRow synced row
  have last : name.part.toList.getLast? = some 'e' := by
    obtain ⟨label, same⟩ := suffix
    rw [← same, List.getLast?_append]
    rfl
  -- One of the two local parts ends in the other, but no name ends both in that of notes and in
  -- that of directives.
  rcases ends.suffix_or_suffix ends' (by rw [isDirective]; decide) (by rw [last]; decide) with
    within | within
  · rw [isDirective] at within
    rcases List.suffix_or_suffix_of_suffix within suffix with wrong | wrong
    · exact absurd wrong (by decide)
    · exact absurd wrong (by decide)
  · rw [isDirective] at within
    exact absurd (suffix.trans within) (by decide)

/-! ## 2. What a frame gives

By induction on how the element came about. What was copied is at home in the file that it was
copied from, and what comes from another frame has a stamp for the file of that frame, where the two
differ. -/

/-- Whether what frames give is right where they are asked for it. -/
structure Nested.Sourcing (library : Library) (nested : Nested) : Prop where
  /-- A copy is right in the file of the frame that asks for it, and is at home in its own. -/
  copy : ∀ home file document node element, library.document file = .ok document →
    node ∈ document.nodes → Role.of node ≠ .directive →
    (nested.copy (some home) file (some node)).result = .ok element →
    Sourced library home element ∧ (origin? element).getD home = file
  external : ∀ file start stop elements,
    (nested.external file start stop).result = .ok elements →
    ∀ element ∈ elements, Sourced library file element
  inline : ∀ file start stop element,
    (nested.inline file start stop).result = .ok element →
    ∀ child ∈ element.children, Sourced library file child

variable {document : Document}

/-- Whatever compilation shows is right in its file. -/
theorem Output.sourced (pristine : library.Pristine) (output : Output library file element) :
    Sourced library file element := by
  induction output with
  | copied reads isNode place name attributes below ih =>
    exact sourced_of_node pristine.unstamped reads isNode name attributes ih
  | made made unstamped distinct below ih => exact made.sourced unstamped ih
  | quoted shown unstamped source inScope ih =>
    exact (ih.stampForeign unstamped _).1.stampLang _ _
  | noted row reads isThere shown tag source inScope ih =>
    obtain ⟨-, attributes⟩ :=
      tag (role_of_noteRow pristine.parsed pristine.synced row reads isThere)
    have isFound := List.mem_reverse.mp (List.mem_of_find?_eq_some isThere)
    have unstamped := origin?_of_node pristine.unstamped reads isFound attributes
    exact (ih.stampForeign unstamped _).1.stampLang _ _

/-- What frames give is right where they are asked for it, however many there are. -/
theorem sourcing_levels (pristine : library.Pristine) (frames : Nat) :
    (levels library frames).Sourcing library where
  copy home file document node element reads isNode role h := by
    obtain ⟨found, rfl, output, shows⟩ :=
      (outputs_levels pristine.parsed frames).copy home file document node element reads isNode h
    have unstamped := origin?_of_node pristine.unstamped reads isNode (shows role).attributes
    exact (output.sourced pristine).stampForeign unstamped home
  external file start stop elements h element member :=
    ((outputs_levels pristine.parsed frames).external _ _ _ _ h element member).sourced pristine
  inline file start stop element h child member :=
    ((outputs_levels pristine.parsed frames).inline _ _ _ _ h child member).sourced pristine

/-! ## 3. Compiled trees

The root has a stamp, whatever it was made of, and so there is a nearest one everywhere. Going down
to an element, each step either meets a stamp or stays in the file that it is in. -/

/-- The element that child positions lead to and the elements around it, nearest first. -/
def spineAt : List Nat → Element → List Element
  | [], element => [element]
  | position :: rest, element =>
    match element.children[position]? with
    | some child => spineAt rest child ++ [element]
    | none => [element]

/-- Wherever the stamps in a tree are right, the nearest one around an element names the file it
comes from. -/
theorem Sourced.at? : ∀ {positions : List Nat} {outer : SourceFile} {tree inner : Element},
    Sourced library outer tree → tree.at? positions = some inner →
      ∃ home, ((spineAt positions tree).findSome? origin?).getD outer = home ∧
        (Made inner ∨ CopyOf library home inner)
  | [], outer, tree, inner, sourced, isThere => by
    cases isThere
    cases sourced with
    | element origin own below =>
      refine ⟨_, ?_, own⟩
      rw [← origin, spineAt, List.findSome?_singleton]
  | position :: rest, outer, tree, inner, sourced, isThere => by
    -- The nearest stamp around an element below is found there first, and at the root last.
    obtain ⟨child, isChild, below⟩ := Option.bind_eq_some_iff.mp isThere
    obtain ⟨home, nearest, own⟩ :=
      (sourced.children child (List.mem_of_getElem? isChild)).at? below
    refine ⟨home, ?_, own⟩
    rw [← nearest, spineAt, isChild]
    simp only [List.findSome?_append, List.findSome?_singleton]
    cases (spineAt rest child).findSome? origin? <;> rfl

/-- Around every element there is a stamp if there is one at the root. -/
theorem exists_nearest : ∀ {positions : List Nat} {tree : Element}, (origin? tree).isSome →
    ((spineAt positions tree).findSome? origin?).isSome
  | [], tree, stamped => by rwa [spineAt, List.findSome?_singleton]
  | position :: rest, tree, stamped => by
    unfold spineAt
    split
    · rw [List.findSome?_append, List.findSome?_singleton, Option.isSome_or, stamped, Bool.or_true]
    · rwa [List.findSome?_singleton]

/-- A compiled tree has a stamp that names the compiled file, and its stamps are right. -/
theorem sourced_of_compile (pristine : library.Pristine)
    (reads : library.document file = .ok document)
    (noDirective : Role.of document.root ≠ .directive)
    (noInstruction : Role.of document.root = .instruction → document.root.corresp? = none)
    {tree : Element} (ran : (compile library file).result = .ok tree) :
    origin? tree = some file ∧ Sourced library file tree := by
  obtain ⟨remaining, document', root, -, reads', ran, rfl⟩ := compile_eq_ok.mp ran
  cases reads.symm.trans reads'
  have outputs := outputs_levels pristine.parsed remaining
  refine ⟨origin?_stampOrigin .., ?_⟩
  -- the root is copied, since it is neither a directive nor replaced
  cases copyStep_iff.mp ran with
  | directive role found => exact absurd role noDirective
  | replaced role found =>
    obtain ⟨instruction, named⟩ := instruction_of_replace found
    exact absurd (noInstruction instruction) named
  | copied role found kept below =>
    have inside (inner : Node) (member : inner ∈ forestPreorder document.root.children) :
        inner ∈ document.nodes := mem_preorder_of_below (mem_preorder_self _) member
    have isRoot : document.root ∈ document.nodes := mem_preorder_self _
    have shows := (showsNode_withChildren (output_of_copyForest outputs reads inside
      below)).annotated outputs found
    have unstamped := origin?_of_node pristine.unstamped reads isRoot shows.attributes
    exact ((shows.output reads isRoot (Or.inl role)).sourced pristine).stampOrigin unstamped file

/-- Everywhere in a compiled tree the nearest stamp around an element names the file that the
element comes from: the element was made by compilation or copied from that file, and if the nodes
of every file are marked with the file's label, the mark of the element is that label. The root
must not be replaced by something that may come from elsewhere. -/
theorem provenance_of_compile (pristine : library.Pristine)
    (reads : library.document file = .ok document)
    (noDirective : Role.of document.root ≠ .directive)
    (noInstruction : Role.of document.root = .instruction → document.root.corresp? = none)
    {tree : Element} (ran : (compile library file).result = .ok tree) {positions : List Nat}
    {element : Element} (isThere : tree.at? positions = some element) :
    ∃ home, (spineAt positions tree).findSome? origin? = some home ∧
      (Made element ∨ CopyOf library home element) ∧
      ∀ mark ∉ madeNames, ∀ label : SourceFile → String,
        (∀ file document, library.document file = .ok document → ∀ node ∈ document.nodes,
          node.value? mark = some (label file)) →
        ∀ value, element.value? mark = some value → value = label home := by
  obtain ⟨stamped, sourced⟩ := sourced_of_compile pristine reads noDirective noInstruction ran
  obtain ⟨home, nearest, own⟩ := sourced.at? isThere
  have isStamped : (origin? tree).isSome := by rw [stamped, Option.isSome_some]
  have some : ((spineAt positions tree).findSome? origin?).isSome := exists_nearest isStamped
  obtain ⟨origin, isNearest⟩ := Option.isSome_iff_exists.mp some
  rw [isNearest] at nearest
  cases nearest
  refine ⟨origin, isNearest, own, ?_⟩
  intro mark notMade label marked value isMark
  -- what was made has no mark, and what was copied has that of its file
  rcases own with made | ⟨source, node, readsSource, isNode, -, same⟩
  · rw [made.attributes mark notMade] at isMark
    cases isMark
  · have notAdded : mark ∉ addedNames := fun isAdded => notMade (List.mem_append_right _ isAdded)
    rw [same mark notAdded, marked origin source readsSource node isNode] at isMark
    exact (Option.some.inj isMark).symm

/-- A text that is quoted, with the mark of its file. -/
def quotedText : String :=
  "<p xmlns=\"http://www.tei-c.org/ns/1.0\" corresp=\"urn:x-opensiddur:b\" m=\"b\">B</p>"

/-- The document that is quoted. -/
def quoted : Document where
  root := ⟨0, "/p", .tei "p", [(.plain "corresp", "urn:x-opensiddur:b"), (.plain "m", "b")], "B",
    [], ""⟩
  namespaces := [(none, "http://www.tei-c.org/ns/1.0")]

/-- A document that quotes it, with another mark. -/
def quoting : Document where
  root := ⟨0, "/text", .tei "text", [(.plain "m", "a")], "",
    [⟨1, "/text/j:transclude[1]", .link "transclude",
      [(.plain "target", "urn:x-opensiddur:b"), (.plain "m", "a")], "", [], ""⟩], ""⟩
  namespaces := [(none, "http://www.tei-c.org/ns/1.0"),
    (some "j", "http://jewishliturgy.org/ns/jlptei/2")]

/-- The file of the quoted document. -/
def quotedFile : SourceFile := ⟨"B", "b.xml"⟩

/-- A disk with the quoted text. -/
def shelf : Corpus.Disk :=
  ⟨[("", .folder [("B", .folder [("b.xml", .file quotedText.toUTF8 0)])])]⟩

/-- What scanning the quoted file comes to. -/
def quotedRows : Tables :=
  ⟨[⟨⟨"urn:x-opensiddur:b", quotedFile, some "/p", some "\x7bhttp://www.tei-c.org/ns/1.0\x7dp",
    none⟩, 0⟩], [], [⟨quotedFile, 0⟩]⟩

/-- A library of both documents. -/
def quotes : Library :=
  ⟨⟨["B"], [], [], 3⟩, some quotedRows,
    fun file => if file = quotedFile then .ok quoted else .ok quoting⟩

theorem quoted_parse : Document.parse quotedText = .ok quoted := by
  cbv

theorem quotedRows_synced : quotedRows.Synced := by
  have found : Index.scanFile shelf "" quotedFile = Index.scan quoted quotedFile := by
    have bytes : shelf.bytes? (Index.filePath "" quotedFile) = some quotedText.toUTF8 := rfl
    rw [Index.scanFile, bytes]
    simp only [Document.ofBytes_toUTF8, quoted_parse]
  have rows : Index.scan quoted quotedFile =
      ⟨quotedRows.mappings.map (·.row), quotedRows.references.map (·.row)⟩ := by
    decide +kernel
  have same : (Tables.empty.indexFiles shelf 0 "" "B" ["b.xml"]).2 = quotedRows := by
    rw [rows] at found
    simp only [Tables.indexFiles, List.foldl_cons, List.foldl_nil, Tables.indexFile]
    rw [show (⟨"B", "b.xml"⟩ : SourceFile) = quotedFile from rfl, found]
    rfl
  exact same ▸ .indexFiles .empty shelf 0 "" "B" ["b.xml"]

theorem quotes_document {file : SourceFile} {document : Document}
    (reads : quotes.document file = .ok document) :
    document = quoted ∧ file = quotedFile ∨ document = quoting ∧ file ≠ quotedFile := by
  simp only [quotes] at reads
  split at reads
  · cases reads
    exact Or.inl ⟨rfl, ‹_›⟩
  · cases reads
    exact Or.inr ⟨rfl, ‹_›⟩

theorem quotes_pristine : quotes.Pristine where
  parsed file document reads := by
    have quoting_parse : Document.parse ("<text xmlns=\"http://www.tei-c.org/ns/1.0\" " ++
        "xmlns:j=\"http://jewishliturgy.org/ns/jlptei/2\" m=\"a\">" ++
        "<j:transclude target=\"urn:x-opensiddur:b\" m=\"a\"/></text>") = .ok quoting := by
      cbv
    obtain ⟨rfl, -⟩ | ⟨rfl, -⟩ := quotes_document reads
    · exact ⟨_, quoted_parse⟩
    · exact ⟨_, quoting_parse⟩
  synced tables found := by
    cases found
    exact quotedRows_synced
  unstamped file document reads := by
    obtain ⟨rfl, -⟩ | ⟨rfl, -⟩ := quotes_document reads
    · decide
    · decide

/-- What is quoted has the mark of its own file, and the nearest stamp around it names that file. -/
theorem provenance_quotes : ∃ tree element,
    (compile quotes ⟨"A", "a.xml"⟩).result = .ok tree ∧ tree.at? [0, 0] = some element ∧
      element.value? (.plain "m") = some "b" ∧
      (spineAt [0, 0] tree).findSome? origin? = some quotedFile := by
  have marked : (compile quotes ⟨"A", "a.xml"⟩).result.map
      (fun tree => (tree.at? [0, 0]).bind (·.value? (.plain "m"))) = .ok (some "b") := by
    decide +kernel
  obtain ⟨tree, ran, isMarked⟩ := Outcome.map_eq_ok.mp marked
  obtain ⟨element, isThere, mark⟩ := Option.bind_eq_some_iff.mp isMarked
  have reads : quotes.document ⟨"A", "a.xml"⟩ = .ok quoting := by rfl
  obtain ⟨home, nearest, -, labelled⟩ := provenance_of_compile quotes_pristine reads (by decide)
    (by decide) ran isThere
  have isLabel := labelled (.plain "m") (by decide)
    (fun file => if file = quotedFile then "b" else "a") (by
      intro file document reads
      obtain ⟨rfl, isQuoted⟩ | ⟨rfl, isQuoted⟩ := quotes_document reads
      · rw [if_pos isQuoted]
        decide
      · rw [if_neg isQuoted]
        decide) "b" mark
  have isHome : home = quotedFile := by
    by_contra other
    rw [if_neg other] at isLabel
    exact absurd isLabel (by decide)
  exact ⟨tree, element, ran, isThere, mark, isHome ▸ nearest⟩

end Intertext.Compile
