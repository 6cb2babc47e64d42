import Intertext.Proofs.Compile.Borrowed
import Intertext.Proofs.Compile.Library
import Intertext.Proofs.Compile.Stamps
/-!
What stays in extracted text.

Extracted text has no structure of its own. The elements in it are wrappers around extracted text,
whatever type their directives have, containers for parts in another language, and notes
(`Textual`). A walk puts nothing else into it, at whatever depth of a compilation, as long as the
rows of the index that say so lead to notes: so this holds of all that an `inline` wrapper has in it
(`textual_of_transclude`).
-/

namespace Intertext.Compile

open Markup (Document Element Name Node)

/-! ## 1. Elements in extracted text -/

/-- Whether an element may stand in extracted text. What is in a note is the note's own. -/
inductive Textual : Element → Prop where
  | wrapper {element : Element} (name : element.name = .processing "transclude")
    (type : element.value? (.plain "type") = some "inline")
    (below : ∀ child ∈ element.children, Textual child) : Textual element
  | container {element : Element} (name : element.name = .processing "transcludeInline")
    (lang : ∃ lang, element.value? (.xml "lang") = some lang)
    (below : ∀ child ∈ element.children, Textual child) : Textual element
  | note {element : Element} (name : element.name = .tei "note") : Textual element

/-- Whether the rows of the index that are about notes lead to notes of their files. -/
def Library.RowsNameNotes (library : Library) : Prop :=
  ∀ file path, NoteRow library file path → ∀ document, library.document file = .ok document →
    ∀ found, document.byPath? path = some found → found.name = .tei "note"

/-- Whether what frames extract as text is text, and what they copy of a note is a note. -/
structure Nested.Textual (nested : Nested) : Prop where
  copy : ∀ home file node element, node.name = .tei "note" →
    (nested.copy home file (some node)).result = .ok element → element.name = .tei "note"
  inline : ∀ file start stop element, (nested.inline file start stop).result = .ok element →
    ∀ child ∈ element.children, Compile.Textual child

variable {library : Library} {nested : Nested} {site : Site} {walk : Walk} {node : Node}
  {element : Element}

theorem Textual.withTail (element : Element) (tail : String) (textual : Textual element) :
    Textual { element with tail } := by
  cases textual with
  | wrapper name type below => exact .wrapper name type below
  | container name lang below => exact .container name lang below
  | note name => exact .note name

/-- Items may stand in a container if they may stand in extracted text. -/
theorem textual_of_mem_inLang {changed : Option String} {items : List Item}
    (all : ∀ child, .element child ∈ items → Textual child) :
    ∀ child, .element child ∈ inLang changed items → Textual child := by
  cases changed with
  | none => exact all
  | some lang =>
    intro child member
    cases List.mem_singleton.mp member
    refine .container (name_append ..) ⟨lang, ?_⟩
      (forall_children_append Textual.withTail (fun child none => by cases none) all)
    rw [Element.value?, attributes_append]
    exact value?_setValue _ _ lang

/-- A node named as a note is no directive. -/
theorem role_ne_directive (isNote : node.name = .tei "note") : Role.of node ≠ .directive := by
  rw [Role.of, isNote, if_neg (by decide), if_pos rfl]
  split <;> decide

/-- Instructions are notes. -/
theorem name_of_instruction (role : Role.of node = .instruction) : node.name = .tei "note" := by
  unfold Role.of at role
  split_ifs at role with _ isNote
  exact isNote

/-- The wrapper of a directive has the type of the extraction, and is filled by it. -/
theorem tag_transclude {extraction : Extraction}
    (h : (transclude library nested site node extraction).result = .ok element) :
    element.name = .processing "transclude" ∧
      element.value? (.plain "type") = some extraction.label := by
  obtain ⟨start, target, found, source, -, -, fills, -, rfl⟩ := transclude_eq_ok h
  obtain ⟨name, attributes⟩ := tag_filled fills
  have stamps := (sameTag_stampForeign found (some site.file) target.file).stampLang
    (langAt? source target.start) (site.document.lang? node.id)
  refine ⟨stamps.name.trans (name.trans (name_wrapper ..)), ?_⟩
  rw [stamps.values _ (by decide), Element.value?, attributes]
  exact value?_setValue ..

/-! ## 2. What walks put in -/

section

variable (texts : nested.Textual)

include texts

/-- What replaces a directive in extracted text is a wrapper around extracted text. -/
theorem textual_children
    (h : (transclude library nested site node .inline).result = .ok element) :
    ∀ child ∈ element.children, Textual child := by
  obtain ⟨start, target, found, source, -, -, fills, -, rfl⟩ := transclude_eq_ok h
  obtain ⟨container, extracted, rfl⟩ := filled_eq_ok.mp fills
  rw [children_stampLang, children_stampForeign]
  exact texts.inline _ _ _ container extracted

theorem textual_of_directive
    (h : (transclude library nested site node .inline).result = .ok element) : Textual element :=
  .wrapper (tag_transclude h).1 (tag_transclude h).2 (textual_children texts h)

variable (notes : library.RowsNameNotes)

include notes

/-- What is borrowed is a note. -/
theorem Borrowed.isNote (borrowed : Borrowed library nested site node element) :
    element.name = .tei "note" := by
  cases borrowed with
  | @note file path source found copied row reads isThere copies =>
    have same : SameTag copied copied := .of_attributes rfl rfl
    have named := notes file path row source reads found isThere
    rw [(same.stampLang ..).name]
    exact texts.copy _ _ _ _ named copies

/-- An instruction in extracted text is a note, replaced or not. -/
theorem textual_of_inlineInstruction (role : Role.of node = .instruction)
    (h : (inlineInstruction library nested site node).result = .ok element) : Textual element := by
  obtain replaced | ⟨applied, copied, -, -, copies, rfl⟩ := inlineInstruction_eq_ok.mp h
  · exact .note ((borrowed_of_replace replaced).isNote texts notes)
  · refine .note ?_
    rw [name_insertNotes]
    exact texts.copy _ _ _ _ (name_of_instruction role) copies

-- in a mutual recursion the linter misses what only the other theorem uses
set_option linter.unusedSectionVars false

mutual

theorem textual_of_inline :
    ∀ {node : Node} {lang : Option String} {progress after : Progress} {items : List Item},
      (inline library nested site walk lang progress node).result = .ok (items, after) →
      ∀ child, .element child ∈ items → Textual child
  | ⟨_, _, _, _, _, _, _⟩, lang, progress, after, items, h => by
    cases inlineStep_of_ok h with
    | skipped command =>
      intro child member
      cases member
    | directive command role found =>
      intro child member
      cases List.mem_singleton.mp member
      exact textual_of_directive texts found
    | instruction command role found =>
      intro child member
      cases List.mem_singleton.mp member
      exact textual_of_inlineInstruction texts notes role found
    | copied command noDirective noInstruction found below =>
      refine textual_of_mem_inLang fun child member => ?_
      rcases List.mem_append.mp member with member | member
      · obtain ⟨note, isNote, same⟩ := List.mem_map.mp member
        cases same
        exact .note ((borrowed_of_mem_notes found isNote).isNote texts notes)
      · rcases List.mem_cons.mp member with same | member
        · cases same
        · exact textual_of_inlineForest below child member
    | passed noSkip noText below => exact textual_of_inlineForest below

theorem textual_of_inlineForest :
    ∀ {nodes : List Node} {lang : Option String} {progress after : Progress} {items : List Item},
      (inlineForest library nested site walk lang progress nodes).result = .ok (items, after) →
      ∀ child, .element child ∈ items → Textual child
  | [], lang, progress, after, items, h, child, member => by
    cases (inlineForest_nil h).1
    cases member
  | first :: rest, lang, progress, after, items, h, child, member => by
    obtain ⟨shown, between, others, found, below, rfl⟩ := inlineForest_cons h
    rcases List.mem_append.mp member with member | member
    · rcases List.mem_append.mp member with member | member
      · exact textual_of_inline found child member
      · exact absurd member (element_notMem_tailItems between first child)
    · exact textual_of_inlineForest below child member

end

end

/-! ## 3. Frames -/

/-- What frames give can stand in extracted text, however many there are. -/
theorem textual_levels (notes : library.RowsNameNotes) :
    ∀ frames : Nat, (levels library frames).Textual
  | 0 =>
    { copy := fun _ _ _ _ _ h => absurd h copy_level_none_ne_ok
      inline := fun _ _ _ _ h => absurd h inline_level_none_ne_ok }
  | frames + 1 =>
    { copy := by
        intro home file node element isNote h
        obtain ⟨document, found, -, ran, rfl⟩ := copy_level_eq_ok.mp h
        obtain ⟨copies, -, rfl⟩ := (copyNote_eq_ok (role_ne_directive isNote)).mp ran
        exact (sameTag_stampForeign ..).name.trans isNote
      inline := by
        intro file start stop element h
        obtain ⟨document, bounds, items, after, -, -, ran, rfl⟩ := inline_level_eq_ok.mp h
        refine forall_children_append Textual.withTail (fun child none => ?_)
          (textual_of_inline (textual_levels notes frames) notes ran)
        rw [children_container] at none
        cases none }

/-- *What an `inline` wrapper has in it, however deep.* Where the rows of the index that are about
notes lead to notes, every child of a wrapper with the type `inline` that replaces a directive, in
whatever frame of a compilation, is again such a wrapper, or a container that declares a language,
with the same in them, or it is a note. -/
theorem textual_of_transclude (notes : library.RowsNameNotes) {frames : Nat} {site : Site}
    {node : Node} {extraction : Extraction} {wrapper : Element}
    (h : (transclude library (levels library frames) site node extraction).result = .ok wrapper)
    (isInline : wrapper.value? (.plain "type") = some "inline") :
    wrapper.name = .processing "transclude" ∧ ∀ child ∈ wrapper.children, Textual child := by
  obtain ⟨name, type⟩ := tag_transclude h
  cases extraction with
  | external =>
    rw [type] at isInline
    exact absurd (Option.some.inj isInline) (by decide)
  | inline => exact ⟨name, textual_children (textual_levels notes frames) h⟩

/-- A document with a range around a directive without a type, an instruction and a part in another
language, for which there is a note. -/
def medley : Document where
  root := ⟨0, "/text", .tei "text", [], "",
    [⟨1, "/text/p[1]", .tei "p", [(.xml "id", "s")], "S",
        [⟨2, "/text/p[1]/j:transclude[1]", .link "transclude", [(.plain "target", "#x")], "", [],
          ""⟩], ""⟩,
      ⟨3, "/text/note[1]", .tei "note", [(.plain "type", "instruction")], "I", [], ""⟩,
      ⟨4, "/text/p[2]", .tei "p", [(.xml "id", "e"), (.xml "lang", "he")], "E", [], ""⟩,
      ⟨5, "/text/seg[1]", .tei "seg", [(.xml "id", "x")], "X", [], ""⟩,
      ⟨6, "/text/note[2]", .tei "note", [(.plain "target", "#e")], "N", [], ""⟩], ""⟩
  namespaces := [(none, "http://www.tei-c.org/ns/1.0"),
    (some "j", "http://jewishliturgy.org/ns/jlptei/2")]

/-- The file of that document. -/
def medleyFile : SourceFile := ⟨"A", "a.xml"⟩

/-- A library with that file alone, which is indexed. -/
def medleys : Library :=
  ⟨Settings.forProject "A",
    some (Index.Tables.empty.storeFile 1 medleyFile (Index.scan medley medleyFile).mappings
      (Index.scan medley medleyFile).references), fun _ => .ok medley⟩

/-- A directive for the text of that range. -/
def medleyDirective : Node :=
  ⟨0, "/j:transclude", .link "transclude",
    [(.plain "target", "#s"), (.plain "targetEnd", "#e"), (.plain "type", "inline")], "", [], ""⟩

/-- The range shows the text at the directive, the instruction, and a container with the note. -/
theorem textual_medley : ∃ wrapper,
    (transclude medleys (levels medleys 2) ⟨medleyFile, medley⟩ medleyDirective .inline).result =
      .ok wrapper ∧
    wrapper.children.map (·.name) =
      [.processing "transclude", .tei "note", .processing "transcludeInline"] ∧
    wrapper.characters = "SXINE" ∧ ∀ child ∈ wrapper.children, Textual child := by
  have leads : ∀ tables, medleys.tables = some tables →
      (∀ row ∈ tables.references, row.row.path = "/text/note[2]" ∨ row.row.tag ≠ noteTag) ∧
        tables.mappings = [] := by
    intro tables inStore
    cases inStore
    decide +kernel
  have notes : medleys.RowsNameNotes := by
    rintro file path ⟨tables, inStore, row⟩ document reads found isThere
    cases reads
    obtain ⟨references, mappings⟩ := leads tables inStore
    rcases row with ⟨reference, isRow, tag, -, rfl⟩ | ⟨mapping, isRow, -⟩
    · obtain ⟨row, member, rfl⟩ := List.mem_map.mp isRow
      rw [(references row member).resolve_right (not_not_intro tag)] at isThere
      cases isThere
      rfl
    · rw [mappings] at isRow
      cases isRow
  have shown : (transclude medleys (levels medleys 2) ⟨medleyFile, medley⟩ medleyDirective
      .inline).result.map (fun wrapper => (wrapper.value? (.plain "type"),
        wrapper.children.map (·.name), wrapper.characters)) =
      .ok (some "inline",
        [.processing "transclude", .tei "note", .processing "transcludeInline"], "SXINE") := by
    decide +kernel
  obtain ⟨wrapper, ran, same⟩ := Outcome.map_eq_ok.mp shown
  obtain ⟨type, rest⟩ := Prod.mk.inj same
  obtain ⟨names, characters⟩ := Prod.mk.inj rest
  exact ⟨wrapper, ran, names, characters, (textual_of_transclude notes ran type).2⟩

end Intertext.Compile
