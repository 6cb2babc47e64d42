import Intertext.Proofs.Compile.Provenance
import Intertext.Proofs.Compile.Tailless
import Intertext.Proofs.Markup.Survival
/-!
Compiled texts are read back.

A compiled tree mixes elements of several files with wrappers and stamps, and only the labels of the
compiled file are preferred when it is written. All the same its text is read as the tree
(`parse_compileText`), because whatever compilation makes of elements that can be written can be
written: it adds attributes with names of its own, none of them twice (`Output.restorable`), and the
root is left without a tail.

What the files must not do is use names that no label can be written for, or none but a reserved one
(`Library.Orderly`). Reading is lenient there: it accepts an element with the label `xmlns`, and
takes the declaration `xmlns:` without a label for the default. Neither survives
(`compileText_refused`).
-/

namespace Intertext.Compile

open Markup (Document Element IsKey IsLabel IsNCName IsPlainSpace IsTagName Name Nameable Node
  Serializer xmlSpace xmlnsSpace)

/-! ## 1. Names that can be written -/

/-- Whether all nodes of all documents of a library have names that can be written, and no attribute
twice. -/
def Library.Orderly (library : Library) : Prop :=
  ∀ file document, library.document file = .ok document → ∀ node ∈ document.nodes,
    node.IsOrderly ∧ (node.attributes.map (·.1)).Nodup

/-- Whether the tag of an element is read as it was, once it is written. -/
structure Restorable (element : Element) : Prop extends Nameable element where
  distinct : element.HasDistinctKeys

/-- Whether an attribute can be written. -/
def IsWritableKey (name : Name) : Prop :=
  (IsKey name.part.toList ∧ ':' ∉ name.part.toList) ∧ name ≠ .plain "xmlns" ∧
    ∀ space ∈ name.space, IsPlainSpace space

instance (name : Name) : Decidable (IsWritableKey name) :=
  inferInstanceAs (Decidable (_ ∧ _ ∧ _))

/-- What compilation adds can be written. -/
theorem isWritableKey_of_made : ∀ name ∈ madeNames, IsWritableKey name := by decide

variable {library : Library} {file : SourceFile} {document : Document} {node : Node}
  {element : Element}

theorem restorable_setValue (restorable : Restorable element) {name : Name}
    (isKey : IsWritableKey name) (value : String) : Restorable (element.setValue name value) where
  part := restorable.part
  colonless := restorable.colonless
  space := restorable.space
  attributes item member := by
    rcases mem_set member with rfl | isThere
    · exact isKey
    · exact restorable.attributes item isThere
  distinct := nodup_set name value restorable.distinct

theorem restorable_stamps (restorable : Restorable element) (home : Option SourceFile)
    (file : SourceFile) (source inScope : Option String) :
    Restorable (stampLang (stampForeign element home file) source inScope) := by
  have origins : ∀ name ∈ [Name.processing "project", .processing "file_name"],
      IsWritableKey name := by decide
  have foreign : Restorable (stampForeign element home file) :=
    stampForeign_keeps (P := Restorable) (fun name isOrigin _ value writable =>
      restorable_setValue writable (origins name isOrigin) value) restorable home file
  exact stampLang_keeps (P := Restorable) (fun _ lang writable =>
    restorable_setValue writable (by decide) lang) foreign source inScope

/-- A wrapper or container can be written. -/
theorem Made.restorable (made : Made element) (distinct : element.HasDistinctKeys) :
    Restorable element := by
  have names : ∀ name ∈ [Name.processing "transclude", .processing "transcludeInline"],
      (IsTagName name.part.toList ∧ ':' ∉ name.part.toList) ∧
        ∀ space ∈ name.space, IsPlainSpace space ∧ space ≠ xmlSpace := by
    decide
  obtain ⟨⟨part, colonless⟩, space⟩ := names element.name (by simpa using made.name)
  refine ⟨⟨part, colonless, space, fun item member => ?_⟩, distinct⟩
  refine isWritableKey_of_made item.1 ?_
  by_contra notMade
  have absent := List.lookup_eq_none_iff.mp (made.attributes item.1 notMade) item member
  simp at absent

/-! ## 2. Compiled trees -/

/-- Whether an element and all that is in it can be written. -/
def AllRestorable (element : Element) : Prop := ∀ inner ∈ element.preorder, Restorable inner

theorem allRestorable_iff (element : Element) : AllRestorable element ↔
    Restorable element ∧ ∀ child ∈ element.children, AllRestorable child :=
  element.forall_mem_preorder

theorem children_stamps (element : Element) (home : Option SourceFile) (file : SourceFile)
    (source inScope : Option String) :
    (stampLang (stampForeign element home file) source inScope).children = element.children := by
  rw [children_stampLang, children_stampForeign]

theorem AllRestorable.stamps (all : AllRestorable element) (home : Option SourceFile)
    (file : SourceFile) (source inScope : Option String) :
    AllRestorable (stampLang (stampForeign element home file) source inScope) := by
  obtain ⟨restorable, below⟩ := (allRestorable_iff element).mp all
  refine (allRestorable_iff _).mpr ⟨restorable_stamps restorable home file source inScope, ?_⟩
  rw [children_stamps]
  exact below

/-- Whatever compilation shows of orderly files can be written. -/
theorem Output.restorable (parsed : library.Parsed) (orderly : library.Orderly)
    (output : Output library file element) : AllRestorable element := by
  induction output with
  | copied reads isNode place name attributes below ih =>
    obtain ⟨text, read⟩ := parsed _ _ reads
    obtain ⟨isOrderly, distinct⟩ := orderly _ _ reads _ isNode
    refine (allRestorable_iff _).mpr
      ⟨⟨isOrderly.nameable read isNode name attributes, ?_⟩, ih⟩
    unfold Element.HasDistinctKeys
    rw [attributes]
    exact distinct
  | made made unstamped distinct below ih =>
    exact (allRestorable_iff _).mpr ⟨made.restorable distinct, ih⟩
  | quoted shown unstamped source inScope ih => exact ih.stamps _ _ source inScope
  | noted row reads isThere shown tag source inScope ih => exact ih.stamps _ _ source inScope

theorem allRestorable_of_compile (parsed : library.Parsed) (orderly : library.Orderly)
    {tree : Element} (ran : (compile library file).result = .ok tree) : AllRestorable tree := by
  obtain ⟨root, output, rfl⟩ := output_of_compile parsed ran
  exact AllRestorable.stamps (output.restorable parsed orderly) none file none none

/-- A compiled tree has no tail. -/
theorem tail_of_compile {tree : Element} (ran : (compile library file).result = .ok tree) :
    tree.tail = "" :=
  tailless_levels _ none file none tree ran

/-- The file of a compiled tree has been read. -/
theorem exists_document_of_compile {tree : Element}
    (ran : (compile library file).result = .ok tree) :
    ∃ source, library.document file = .ok source := by
  obtain ⟨remaining, source, root, -, reads, -, -⟩ := compile_eq_ok.mp ran
  exact ⟨source, reads⟩

/-! ## 3. Compiled texts -/

/-- *The compiled text is read back as the compiled tree.* Where all files use names that can be
written, and the compiled file declares labels that can be, the text of a tree that was compiled is
a document, and the tree is its root. -/
theorem parse_compileText (parsed : library.Parsed) (orderly : library.Orderly)
    (labels : ∀ source, library.document file = .ok source →
      ∀ declaration ∈ source.namespaces, ∀ label ∈ declaration.1, IsLabel label)
    {tree : Element} (ran : (compile library file).result = .ok tree) :
    ∃ text document, (compileText library file).result = .ok text ∧
      Document.parse text = .ok document ∧ document.root.toElement = tree := by
  obtain ⟨source, reads⟩ := exists_document_of_compile ran
  obtain ⟨sourceText, read⟩ := parsed file source reads
  have all := allRestorable_of_compile parsed orderly ran
  obtain ⟨document, reread, same⟩ := Markup.readOn_root
    (Document.hintsUsable_of_parse read (labels source reads))
    (fun element member => (all element member).toNameable)
    (fun element member => (all element member).distinct) (tail_of_compile ran)
  have reparsed := (Markup.parse_serialize_eq _ tree).trans reread
  refine ⟨_, document, ?_, reparsed, same⟩
  unfold compileText
  have isRead := reads ▸ library.result_read file
  exact Run.bind_eq_ok.mpr ⟨tree, ran, Run.bind_eq_ok.mpr ⟨source, isRead, rfl⟩⟩

/-- The text of a file that quotes another one, in the namespace of another one and with stamps, is
read back. -/
theorem parse_compileText_quotes : ∃ tree text document,
    (compile quotes ⟨"A", "a.xml"⟩).result = .ok tree ∧
      (tree.named (.processing "transclude")).length = 1 ∧
      (compileText quotes ⟨"A", "a.xml"⟩).result = .ok text ∧
      Document.parse text = .ok document ∧ document.root.toElement = tree := by
  have quoted : (compile quotes ⟨"A", "a.xml"⟩).result.map
      (fun tree => (tree.named (.processing "transclude")).length) = .ok 1 := by
    decide +kernel
  obtain ⟨tree, ran, isQuoted⟩ := Outcome.map_eq_ok.mp quoted
  have orderly : quotes.Orderly := by
    intro file document reads
    obtain ⟨rfl, -⟩ | ⟨rfl, -⟩ := quotes_document reads
    · decide
    · decide
  have labels : ∀ source, quotes.document ⟨"A", "a.xml"⟩ = .ok source →
      ∀ declaration ∈ source.namespaces, ∀ label ∈ declaration.1, IsLabel label := by
    intro source reads
    obtain ⟨rfl, -⟩ | ⟨rfl, -⟩ := quotes_document reads
    · decide
    · decide
  obtain ⟨text, document, written, reparsed, same⟩ :=
    parse_compileText quotes_pristine.parsed orderly labels ran
  exact ⟨tree, text, document, ran, isQuoted, written, reparsed, same⟩

/-- A document with an element that has the reserved label. -/
def reserved : Document where
  root := ⟨0, "/r", .plain "r", [], "", [⟨1, "/r/xmlns:a[1]", ⟨some xmlnsSpace, "a"⟩, [], "", [],
    ""⟩], ""⟩
  namespaces := []

/-- A document with a declaration of an empty label. -/
def unlabelled : Document where
  root := ⟨0, "/r", ⟨some "urn:u", "r"⟩, [], "", [], ""⟩
  namespaces := [(some "", "urn:u")]

/-- The text of the first, with a label for the reserved namespace. -/
def reservedText : String :=
  Serializer.header ++ "<r xmlns:ns0=\"http://www.w3.org/2000/xmlns/\" " ++
    "xmlns:p=\"http://jewishliturgy.org/ns/processing\" p:project=\"A\" p:file_name=\"a.xml\">" ++
    "<ns0:a/></r>"

/-- The text of the second, with the empty label. -/
def unlabelledText : String :=
  Serializer.header ++ "<:r xmlns:=\"urn:u\" xmlns:p=\"http://jewishliturgy.org/ns/processing\" " ++
    "p:project=\"A\" p:file_name=\"a.xml\"/>"

/-- It is not enough that local parts are names and that no namespace is empty, escaped or that of
the format: what is compiled from such a file, and has not even attributes in it, may be refused. -/
theorem compileText_refused :
    (∀ document ∈ [reserved, unlabelled], ∀ node ∈ document.nodes, IsNCName node.name.part ∧
      node.attributes = [] ∧ node.name.space ≠ some xmlSpace ∧
      ∀ space ∈ node.name.space, space ≠ "" ∧ Markup.Text.escape space = space) ∧
    (Document.parse "<r><xmlns:a/></r>" = .ok reserved ∧
      (compileText (single reserved) ⟨"A", "a.xml"⟩).result = .ok reservedText ∧
      Document.parse reservedText = .error (.binding .xmlnsSpaceLabel)) ∧
    Document.parse "<r xmlns:=\"urn:u\"/>" = .ok unlabelled ∧
      (compileText (single unlabelled) ⟨"A", "a.xml"⟩).result = .ok unlabelledText ∧
      Document.parse unlabelledText = .error (.unknownLabel "") := by
  have refused : (Document.parse reservedText).map (fun _ => ()) =
      .error (.binding .xmlnsSpaceLabel) := by
    decide +kernel
  have unknown : (Document.parse unlabelledText).map (fun _ => ()) =
      .error (.unknownLabel "") := by
    decide +kernel
  refine ⟨by decide, ⟨?_, by decide +kernel, Outcome.map_eq_error.mp refused⟩, ?_,
    by decide +kernel, Outcome.map_eq_error.mp unknown⟩
  · cbv
  · cbv

end Intertext.Compile
