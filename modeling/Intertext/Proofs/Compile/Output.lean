import Intertext.Proofs.Compile.Borrowed
import Intertext.Proofs.Compile.Bounds
import Intertext.Proofs.Compile.Library
import Intertext.Proofs.Compile.Stamps
import Intertext.Proofs.Compile.Stretch
/-!
What compiled trees are made of.

Whatever compilation shows is the tag of a node over shown content, a wrapper or container of shown
content, or what another frame shows with stamps on it (`Output`). This holds of what every frame
gives (`outputs_levels`) and so of compiled trees (`output_of_compile`): to show something of all of
them, it is enough to go through these ways in which an element comes about. The first thing shown
so is that no directive is left (`named_directive_of_compile`).
-/

namespace Intertext.Markup.Element

/-- An element is in a forest if it is in one of the trees. -/
theorem mem_forestPreorder {inner : Element} : ∀ {forest : List Element},
    inner ∈ forestPreorder forest ↔ ∃ element ∈ forest, inner ∈ element.preorder
  | [] => by simp [forestPreorder]
  | first :: rest => by simp [forestPreorder, mem_forestPreorder]

/-- What holds of all elements of a tree holds of the outermost one and throughout what is in it. -/
theorem forall_mem_preorder {P : Element → Prop} (element : Element) :
    (∀ inner ∈ element.preorder, P inner) ↔
      P element ∧ ∀ child ∈ element.children, ∀ inner ∈ child.preorder, P inner := by
  obtain ⟨name, attributes, text, children, tail⟩ := element
  simp only [preorder, List.forall_mem_cons, mem_forestPreorder]
  refine and_congr_right fun _ => ?_
  constructor
  · intro all child isChild inner member
    exact all inner ⟨child, isChild, member⟩
  · rintro all inner ⟨child, isChild, member⟩
    exact all child isChild inner member

/-- No element has a name if the outermost one has another name and none inside has it. -/
theorem named_eq_nil_iff (element : Element) (name : Name) :
    element.named name = [] ↔
      element.name ≠ name ∧ ∀ child ∈ element.children, child.named name = [] := by
  simp only [named, List.filter_eq_nil_iff, decide_eq_true_eq]
  exact forall_mem_preorder element

/-- Attributes do not change which elements have a name. -/
theorem named_setValue_eq_nil {element : Element} {name key : Name} {value : String} :
    (element.setValue key value).named name = [] ↔ element.named name = [] := by
  rw [named_eq_nil_iff, named_eq_nil_iff element]
  rfl

end Intertext.Markup.Element

namespace Intertext.Compile

open Markup (Element Name Node Document)
open Markup.Node

/-! ## 1. Ways in which elements come about

An element is built in steps, and only the finished one is shown. `ShowsNode` is what holds of the
tag of a node while content is put into it; once nothing is added any more, it is an output. -/

/-- What compilation can show in the place of content of a file. -/
inductive Output (library : Library) : SourceFile → Element → Prop where
  /-- The tag of a node of the file. It can be that of a directive only if the directive has
  content, which a range may begin in. -/
  | copied {file : SourceFile} {document : Document} {node : Node} {element : Element}
    (reads : library.document file = .ok document) (isNode : node ∈ document.nodes)
    (place : Role.of node ≠ .directive ∨ node.children ≠ [])
    (name : element.name = node.name) (attributes : element.attributes = node.attributes)
    (below : ∀ child ∈ element.children, Output library file child) :
    Output library file element
  /-- A wrapper or a container. -/
  | made {file : SourceFile} {element : Element} (made : Made element)
    (unstamped : origin? element = none) (distinct : element.HasDistinctKeys)
    (below : ∀ child ∈ element.children, Output library file child) :
    Output library file element
  /-- What a directive comes to: content of the file it points at, with stamps. -/
  | quoted {home file : SourceFile} {element : Element} (shown : Output library file element)
    (unstamped : origin? element = none) (source inScope : Option String) :
    Output library home (stampLang (stampForeign element (some home) file) source inScope)
  /-- What a note comes to that applies to an element, with stamps. -/
  | noted {home file : SourceFile} {path : String} {document : Document} {found : Node}
    {element : Element} (row : NoteRow library file path)
    (reads : library.document file = .ok document) (isThere : document.byPath? path = some found)
    (shown : Output library file element)
    (tag : Role.of found ≠ .directive →
      element.name = found.name ∧ element.attributes = found.attributes)
    (source inScope : Option String) :
    Output library home (stampLang (stampForeign element (some home) file) source inScope)

variable {library : Library} {file : SourceFile} {document : Document} {node : Node}
  {element : Element}

/-- What can be shown can be shown with any tail. -/
theorem Output.withTail (element : Element) (tail : String) (output : Output library file element) :
    Output library file { element with tail } := by
  induction output with
  | copied reads isNode place name attributes below _ =>
    exact .copied reads isNode place name attributes below
  | made made unstamped distinct below _ =>
    exact .made (made.congr rfl rfl) unstamped distinct below
  | quoted shown unstamped source inScope ih =>
    rw [← stampLang_withTail, ← stampForeign_withTail]
    exact .quoted ih unstamped source inScope
  | noted row reads isThere shown tag source inScope ih =>
    rw [← stampLang_withTail, ← stampForeign_withTail]
    exact .noted row reads isThere ih tag source inScope

/-- Whether an element is the tag of a node over shown content. -/
structure ShowsNode (library : Library) (file : SourceFile) (node : Node) (element : Element) :
    Prop where
  name : element.name = node.name
  attributes : element.attributes = node.attributes
  below : ∀ child ∈ element.children, Output library file child

/-- The tag of a node with content is an output of its file. -/
theorem ShowsNode.output (shows : ShowsNode library file node element)
    (reads : library.document file = .ok document) (isNode : node ∈ document.nodes)
    (place : Role.of node ≠ .directive ∨ node.children ≠ []) : Output library file element :=
  .copied reads isNode place shows.name shows.attributes shows.below

/-- A copy shows the tag of the node around the copies of its children. -/
theorem showsNode_withChildren {copies : List Element}
    (all : ∀ element ∈ copies, Output library file element) :
    ShowsNode library file node (withChildren node copies) := ⟨rfl, rfl, all⟩

/-- A walk shows the tag of the node around what it shows of the children. -/
theorem showsNode_fill {text : String} {pieces : List Piece}
    (all : ∀ piece ∈ pieces, ∀ element ∈ piece.elements, Output library file element) :
    ShowsNode library file node (fill { node.shell with text } pieces) where
  name := name_fill ..
  attributes := attributes_fill ..
  below := forall_children_fill Output.withTail (fun child none => by cases none) all

/-- Notes that are put in are content too. -/
theorem ShowsNode.insertNotes {notes : List Element} (shows : ShowsNode library file node element)
    (all : ∀ note ∈ notes, Output library file note) :
    ShowsNode library file node (insertNotes notes element) where
  name := (name_insertNotes ..).trans shows.name
  attributes := (attributes_insertNotes ..).trans shows.attributes
  below := forall_children_insertNotes Output.withTail shows.below all

/-! ## 2. What walks put in

A walk puts in what further frames give, and of these it is assumed that they give outputs. What the
walk itself makes is a wrapper or the tag of a node that is no directive. -/

/-- Whether frames give nothing but what can be shown. -/
structure Nested.Outputs (library : Library) (nested : Nested) : Prop where
  /-- A copy is made in the file of the node and stamped for the frame that asks for it. -/
  copy : ∀ home file document node element, library.document file = .ok document →
    node ∈ document.nodes → (nested.copy (some home) file (some node)).result = .ok element →
    ∃ found, element = stampForeign found (some home) file ∧ Output library file found ∧
      (Role.of node ≠ .directive → ShowsNode library file node found)
  external : ∀ file start stop elements,
    (nested.external file start stop).result = .ok elements →
    ∀ element ∈ elements, Output library file element
  inline : ∀ file start stop element,
    (nested.inline file start stop).result = .ok element →
    ∀ child ∈ element.children, Output library file child

variable {nested : Nested} {walk : Walk}

/-- Whether a walk copies the mere tag only of elements that have content. -/
def Walk.Shells (walk : Walk) (document : Document) : Prop :=
  ∀ node ∈ document.nodes, ∀ progress,
    (walk.enter progress node).frame.command = .copyTag → node.children ≠ []

/-- What leads to the start of a range has content: the start is in it and is another element. -/
theorem shells_within (ordered : document.Ordered) {bounds : Bounds}
    (located : Located document bounds) (extraction : Extraction) :
    (Walk.within document bounds extraction).Shells document := by
  intro node isNode progress isTag childless
  rw [Walk.command_enter] at isTag
  split_ifs at isTag with isOver before lead
  · exact absurd isTag (Walk.inRangeCommand_ne _).2.1
  · have differs : node.id ≠ (Walk.within document bounds extraction).bounds.start := by
      rw [Walk.beforeStart_enter, Bool.not_eq_false, Bool.and_eq_true] at before
      simpa [isOver] using before.2
    have holds : bounds.start ∈ node.ids := by
      rcases lead.2 with same | ⟨-, holds⟩
      · obtain ⟨ancestor, isAncestor, sameId, holds⟩ := located.ancestor
        cases Node.Ordered.eq_of_id_eq ordered isNode isAncestor (same.trans sameId.symm)
        exact holds
      · exact contains_iff.mp holds
    rw [ids_eq, childless] at holds
    exact differs (List.mem_singleton.mp holds).symm

/-- Items can be shown in a container if they can be shown without. -/
theorem output_of_mem_inLang {changed : Option String} {items : List Item}
    (all : ∀ child, .element child ∈ items → Output library file child) :
    ∀ child, .element child ∈ inLang changed items → Output library file child := by
  cases changed with
  | none => exact all
  | some lang =>
    intro child member
    cases List.mem_singleton.mp member
    obtain ⟨made, unstamped⟩ := made_container (some lang)
    exact .made (made.congr (name_append ..) (attributes_append ..))
      ((origin?_congr (attributes_append ..)).trans unstamped)
      (distinctKeys_congr (distinctKeys_container (some lang)) (attributes_append ..))
      (forall_children_append Output.withTail (fun child none => by cases none) all)

section

variable (outputs : nested.Outputs library)

include outputs

/-- What replaces a directive is a wrapper of what the target bounds. -/
theorem output_of_transclude {extraction : Extraction}
    (h : (transclude library nested ⟨file, document⟩ node extraction).result = .ok element) :
    Output library file element := by
  obtain ⟨start, target, found, source, -, -, fills, -, rfl⟩ := transclude_eq_ok h
  obtain ⟨made, unstamped⟩ := made_wrapper start (node.value? (.plain "targetEnd")) extraction
  have distinct := distinctKeys_wrapper start (node.value? (.plain "targetEnd")) extraction
  have fills := filled_eq_ok.mp fills
  cases extraction with
  | external =>
    obtain ⟨children, extracted, rfl⟩ := fills
    have blank : origin? { wrapper start _ .external with children } = none := unstamped
    have filled : Made { wrapper start _ .external with children } := made.congr rfl rfl
    exact .quoted (.made filled blank distinct (outputs.external _ _ _ _ extracted)) blank _ _
  | inline =>
    obtain ⟨container, extracted, rfl⟩ := fills
    have blank : origin? { wrapper start _ .inline with
        text := container.text, children := container.children } = none := unstamped
    have filled : Made { wrapper start _ .inline with
        text := container.text, children := container.children } := made.congr rfl rfl
    exact .quoted (.made filled blank distinct (outputs.inline _ _ _ container extracted)) blank _ _

/-- A note that is borrowed is an output, stamps included. -/
theorem Borrowed.output {note : Element}
    (borrowed : Borrowed library nested ⟨file, document⟩ node note) : Output library file note := by
  cases borrowed with
  | note row reads isThere copies =>
    have isFound := List.mem_reverse.mp (List.mem_of_find?_eq_some isThere)
    obtain ⟨root, rfl, shown, shows⟩ := outputs.copy _ _ _ _ _ reads isFound copies
    exact .noted row reads isThere shown
      (fun role => ⟨(shows role).name, (shows role).attributes⟩) _ _

/-- Notes are inserted into an element as they can be shown. -/
theorem ShowsNode.annotated (shows : ShowsNode library file node element) {applied : Annotation}
    (found : (annotate library nested ⟨file, document⟩ node).result = .ok applied) :
    ShowsNode library file node (Compile.insertNotes applied.notes element) :=
  shows.insertNotes fun _ member => (borrowed_of_mem_notes found member).output outputs

variable (reads : library.document file = .ok document)

include reads

/-- An instruction in extracted text is a note, or a copy of itself. -/
theorem output_of_inlineInstruction (isNode : node ∈ document.nodes)
    (role : Role.of node = .instruction) {note : Element}
    (h : (inlineInstruction library nested ⟨file, document⟩ node).result = .ok note) :
    Output library file note := by
  have noDirective : Role.of node ≠ .directive := by rw [role]; decide
  obtain replaced | ⟨applied, copied, found, kept, copies, rfl⟩ := inlineInstruction_eq_ok.mp h
  · exact (borrowed_of_replace replaced).output outputs
  · obtain ⟨root, rfl, -, shows⟩ := outputs.copy _ _ _ _ _ reads isNode copies
    rw [stampForeign, if_pos rfl]
    exact ((shows noDirective).annotated outputs found).output reads isNode (Or.inl noDirective)

/-! ## 3. Walks -/

-- in a mutual recursion the linter misses what only the other theorem uses
set_option linter.unusedSectionVars false

mutual

theorem output_of_copy : ∀ {node : Node} {element : Element}, node ∈ document.nodes →
    (copy library nested ⟨file, document⟩ node).result = .ok element → Output library file element
  | ⟨own, path, name, attributes, text, children, tail⟩, element, isNode, h => by
    have inside (inner : Node) (member : inner ∈ forestPreorder children) :
        inner ∈ document.nodes := mem_preorder_of_below isNode member
    cases copyStep_iff.mp h with
    | directive role found => exact output_of_transclude outputs found
    | replaced role found => exact (borrowed_of_replace found).output outputs
    | copied role found kept below =>
      have copies := output_of_copyForest inside below
      exact ((showsNode_withChildren copies).annotated outputs found).output reads isNode
        (Or.inl role)

theorem output_of_copyForest : ∀ {nodes : List Node} {copies : List Element},
    (∀ inner ∈ forestPreorder nodes, inner ∈ document.nodes) →
    (copyForest library nested ⟨file, document⟩ nodes).result = .ok copies →
    ∀ element ∈ copies, Output library file element
  | [], copies, _, h, element, member => by
    cases copyForest_nil h
    cases member
  | first :: rest, copies, inside, h, element, member => by
    obtain ⟨copied, others, found, below, rfl⟩ := copyForest_cons_iff.mp h
    rcases List.mem_cons.mp member with rfl | member
    · exact (output_of_copy
        (inside _ (List.mem_append_left _ (mem_preorder_self _))) found).withTail _ _
    · exact output_of_copyForest
        (fun inner isInner => inside inner (List.mem_append_right _ isInner)) below element member

end

/-- The copy of a note, unless it is a directive, has the tag of the note. -/
theorem showsNode_of_copyNote (isNode : node ∈ document.nodes) (role : Role.of node ≠ .directive)
    (h : (copyNote library nested ⟨file, document⟩ node).result = .ok element) :
    ShowsNode library file node element := by
  obtain ⟨copies, below, rfl⟩ := (copyNote_eq_ok role).mp h
  have inside (inner : Node) (member : inner ∈ forestPreorder node.children) :
      inner ∈ document.nodes := mem_preorder_of_below isNode member
  exact showsNode_withChildren (output_of_copyForest outputs reads inside below)

mutual

theorem output_of_external (shells : walk.Shells document) :
    ∀ {node : Node} {progress after : Progress} {elements : List Element}, node ∈ document.nodes →
      (external library nested ⟨file, document⟩ walk progress node).result = .ok (elements, after) →
      ∀ element ∈ elements, Output library file element
  | ⟨own, path, name, attributes, text, children, tail⟩, progress, after, elements, isNode, h => by
    have inside (inner : Node) (member : inner ∈ forestPreorder children) :
        inner ∈ document.nodes := mem_preorder_of_below isNode member
    cases externalStep_of_ok h with
    | skipped command =>
      intro element member
      cases member
    | directive command role found =>
      intro element member
      cases List.mem_singleton.mp member
      exact output_of_transclude outputs found
    | replaced command role found =>
      intro element member
      cases List.mem_singleton.mp member
      exact (borrowed_of_replace found).output outputs
    | copied command role found kept below =>
      have pieces := output_of_externalForest shells inside below
      intro element member
      cases List.mem_singleton.mp member
      exact ((showsNode_fill pieces).annotated outputs found).output reads isNode (Or.inl role)
    | tag command below =>
      have pieces := output_of_externalForest shells inside below
      intro element member
      cases List.mem_singleton.mp member
      exact (showsNode_fill pieces).output reads isNode (Or.inr (shells _ isNode _ command))
    | passed command below =>
      exact forall_mem_passOn Output.withTail
        (output_of_externalForest shells inside below)

/-- A walk that extracts structure shows outputs of nodes. -/
theorem output_of_externalForest (shells : walk.Shells document) :
    ∀ {nodes : List Node} {progress after : Progress} {pieces : List Piece},
      (∀ inner ∈ forestPreorder nodes, inner ∈ document.nodes) →
      (externalForest library nested ⟨file, document⟩ walk progress nodes).result =
        .ok (pieces, after) →
      ∀ piece ∈ pieces, ∀ element ∈ piece.elements, Output library file element
  | [], progress, after, pieces, _, h, piece, member => by
    cases (externalForest_nil h).1
    cases member
  | first :: rest, progress, after, pieces, inside, h, piece, member => by
    obtain ⟨elements, between, others, found, below, rfl⟩ := externalForest_cons h
    rcases List.mem_cons.mp member with rfl | member
    · exact output_of_external shells
        (inside _ (List.mem_append_left _ (mem_preorder_self _))) found
    · exact output_of_externalForest shells
        (fun inner isInner => inside inner (List.mem_append_right _ isInner)) below piece member

end

mutual

/-- A walk that extracts text puts outputs into it. -/
theorem output_of_inline :
    ∀ {node : Node} {lang : Option String} {progress after : Progress} {items : List Item},
      node ∈ document.nodes →
      (inline library nested ⟨file, document⟩ walk lang progress node).result = .ok (items, after) →
      ∀ child, .element child ∈ items → Output library file child
  | ⟨own, path, name, attributes, text, children, tail⟩, lang, progress, after, items, isNode,
      h => by
    have inside (inner : Node) (member : inner ∈ forestPreorder children) :
        inner ∈ document.nodes := mem_preorder_of_below isNode member
    cases inlineStep_of_ok h with
    | skipped command =>
      intro child member
      cases member
    | directive command role found =>
      intro child member
      cases List.mem_singleton.mp member
      exact output_of_transclude outputs found
    | instruction command role found =>
      intro child member
      cases List.mem_singleton.mp member
      exact output_of_inlineInstruction outputs reads isNode role found
    | copied command noDirective noInstruction found below =>
      refine output_of_mem_inLang ?_
      intro child member
      rcases List.mem_append.mp member with member | member
      · obtain ⟨note, isNote, same⟩ := List.mem_map.mp member
        cases same
        exact (borrowed_of_mem_notes found isNote).output outputs
      · rcases List.mem_cons.mp member with same | member
        · cases same
        · exact output_of_inlineForest inside below child member
    | passed noSkip noText below =>
      exact output_of_inlineForest inside below

/-- A walk that extracts the text of nodes puts outputs into it. -/
theorem output_of_inlineForest :
    ∀ {nodes : List Node} {lang : Option String} {progress after : Progress} {items : List Item},
      (∀ inner ∈ forestPreorder nodes, inner ∈ document.nodes) →
      (inlineForest library nested ⟨file, document⟩ walk lang progress nodes).result =
        .ok (items, after) →
      ∀ child, .element child ∈ items → Output library file child
  | [], lang, progress, after, items, _, h, child, member => by
    cases (inlineForest_nil h).1
    cases member
  | first :: rest, lang, progress, after, items, inside, h, child, member => by
    obtain ⟨shown, between, others, found, below, rfl⟩ := inlineForest_cons h
    rcases List.mem_append.mp member with member | member
    · rcases List.mem_append.mp member with member | member
      · exact output_of_inline
          (inside _ (List.mem_append_left _ (mem_preorder_self _))) found child member
      · exact absurd member (element_notMem_tailItems between first child)
    · exact output_of_inlineForest
        (fun inner isInner => inside inner (List.mem_append_right _ isInner)) below child member

end

end

/-! ## 4. Frames -/

/-- Frames give nothing but what can be shown, however many there are. -/
theorem outputs_levels (parsed : library.Parsed) :
    ∀ frames : Nat, (levels library frames).Outputs library
  | 0 =>
    { copy := fun _ _ _ _ _ _ _ h => absurd h copy_level_none_ne_ok
      external := fun _ _ _ _ h => absurd h external_level_none_ne_ok
      inline := fun _ _ _ _ h => absurd h inline_level_none_ne_ok }
  | frames + 1 =>
    have outputs := outputs_levels parsed frames
    { copy := by
        intro home file document node element reads isNode h
        obtain ⟨document', found, reads', ran, rfl⟩ := copy_level_eq_ok.mp h
        cases reads.symm.trans reads'
        have shows (role : Role.of node ≠ .directive) : ShowsNode library file node found :=
          showsNode_of_copyNote outputs reads isNode role ran
        refine ⟨found, rfl, ?_, shows⟩
        by_cases role : Role.of node = .directive
        · have ran : (copyNote library (levels library frames) ⟨file, document⟩ node).result =
              .ok found := ran
          rw [copyNote, if_pos role] at ran
          exact output_of_transclude outputs ran
        · exact (shows role).output reads isNode (Or.inl role)
      external := by
        intro file start stop elements h
        obtain ⟨document, bounds, after, reads, located, ran⟩ := external_level_eq_ok.mp h
        have ordered := parsed.ordered reads
        exact output_of_external outputs reads
          (shells_within ordered (located_of_locate ordered located) .external)
          (mem_preorder_self _) ran
      inline := by
        intro file start stop element h
        obtain ⟨document, bounds, items, after, reads, -, ran, rfl⟩ := inline_level_eq_ok.mp h
        have all := output_of_inline outputs reads (mem_preorder_self _) ran
        refine forall_children_append Output.withTail (fun child none => ?_) all
        rw [children_container] at none
        cases none }

/-! ## 5. Compiled trees

A compiled tree is an output with a stamp. Of all the ways in which an element comes about only the
tag of a node could have the name of a directive, and of a directive that is only possible if it has
children. -/

/-- A compiled tree can be shown in the file, and has a stamp at its root. -/
theorem output_of_compile (parsed : library.Parsed) {tree : Element}
    (ran : (compile library file).result = .ok tree) :
    ∃ root, Output library file root ∧ tree = stampOrigin root file := by
  obtain ⟨remaining, document, root, -, reads, copied, rfl⟩ := compile_eq_ok.mp ran
  have outputs := outputs_levels parsed remaining
  exact ⟨root, output_of_copy outputs reads (mem_preorder_self _) copied, rfl⟩

/-- Whether no directive of a library has elements in it. -/
def Library.ChildlessDirectives (library : Library) : Prop :=
  ∀ file document, library.document file = .ok document → ∀ node ∈ document.nodes,
    node.name = .link "transclude" → node.children = []

/-- A stamp brings up no name. -/
theorem named_stampOrigin_eq_nil {name : Name} :
    (stampOrigin element file).named name = [] ↔ element.named name = [] :=
  Element.named_setValue_eq_nil.trans Element.named_setValue_eq_nil

/-- Stamps bring up no name. -/
theorem named_stamps_eq_nil {name : Name} {home : Option SourceFile}
    {source inScope : Option String} :
    (stampLang (stampForeign element home file) source inScope).named name = [] ↔
      element.named name = [] := by
  refine stampLang_keeps (P := fun other => other.named name = [] ↔ element.named name = [])
    (fun _ _ same => Element.named_setValue_eq_nil.trans same) ?_ source inScope
  exact stampForeign_keeps (P := fun other => other.named name = [] ↔ element.named name = [])
    (fun _ _ _ _ same => Element.named_setValue_eq_nil.trans same) Iff.rfl home file

/-- What can be shown holds no directive, if directives have no elements in them. -/
theorem Output.named_directive (childless : library.ChildlessDirectives)
    (output : Output library file element) : element.named (.link "transclude") = [] := by
  induction output with
  | copied reads isNode place name attributes below ih =>
    refine (Element.named_eq_nil_iff _ _).mpr ⟨fun isDirective => ?_, ih⟩
    have isDirective := name.symm.trans isDirective
    rcases place with role | content
    · exact role (by rw [Role.of, if_pos isDirective])
    · exact content (childless _ _ reads _ isNode isDirective)
  | made made unstamped distinct below ih =>
    refine (Element.named_eq_nil_iff _ _).mpr ⟨?_, ih⟩
    rcases made.name with isName | isName
    · rw [isName]
      decide
    · rw [isName]
      decide
  | quoted shown unstamped source inScope ih => exact named_stamps_eq_nil.mpr ih
  | noted row reads isThere shown tag source inScope ih => exact named_stamps_eq_nil.mpr ih

/-- Where directives have no elements in them, compiling leaves none of them, however deep. -/
theorem named_directive_of_compile (parsed : library.Parsed)
    (childless : library.ChildlessDirectives) {tree : Element}
    (ran : (compile library file).result = .ok tree) : tree.named (.link "transclude") = [] := by
  obtain ⟨root, output, rfl⟩ := output_of_compile parsed ran
  exact named_stampOrigin_eq_nil.mpr (output.named_directive childless)

/-- A document that repeats a part of itself in which another part is quoted. -/
def refrain : Document where
  root := ⟨0, "/r", .plain "r", [], "",
    [⟨1, "/r/p[1]", .plain "p", [(.xml "id", "p")], "P",
        [⟨2, "/r/p[1]/j:transclude[1]", .link "transclude",
          [(.plain "target", "#q"), (.plain "type", "inline")], "", [], ""⟩], ""⟩,
     ⟨3, "/r/q[1]", .plain "q", [(.xml "id", "q")], "Q", [], ""⟩,
     ⟨4, "/r/j:transclude[1]", .link "transclude", [(.plain "target", "#p")], "", [], ""⟩], ""⟩
  namespaces := [(some "j", "http://jewishliturgy.org/ns/jlptei/2")]

/-- The directive in the part that is repeated is replaced in both places. -/
theorem named_directive_refrain : ∃ tree,
    (compile (single refrain) ⟨"A", "a.xml"⟩).result = .ok tree ∧
      tree.characters = "PQQPQ" ∧ tree.named (.link "transclude") = [] := by
  have parsed : Document.parse ("<r xmlns:j=\"http://jewishliturgy.org/ns/jlptei/2\">" ++
      "<p xml:id=\"p\">P<j:transclude target=\"#q\" type=\"inline\"/></p><q xml:id=\"q\">Q</q>" ++
      "<j:transclude target=\"#p\"/></r>") = .ok refrain := by
    cbv
  have childless : (single refrain).ChildlessDirectives := by
    intro file document reads
    cases reads
    decide
  have shown : (compile (single refrain) ⟨"A", "a.xml"⟩).result.map Element.characters =
      .ok "PQQPQ" := by
    decide +kernel
  obtain ⟨tree, ran, isShown⟩ := Outcome.map_eq_ok.mp shown
  exact ⟨tree, ran, isShown, named_directive_of_compile (parsed_single parsed) childless ran⟩

end Intertext.Compile
