import Intertext.Proofs.Compile.Pruning
import Intertext.Proofs.Compile.Steps
/-!
What an extraction of text shows.

A walk that extracts text takes of each node what a pruning of the document keeps of it
(`gathered_of_inline`): the text and the notes of what begins in range, and the tails of what ends
in range. Directives and instructions stay elements and hide what is in them.
-/

namespace Intertext.Compile

open Markup (Element Node Document Edge)
open Markup.Node

/-! ## 1. Gathering

A pruning says of each node whether it is taken and whether its tail is kept. Gathering reads the
items off it in the order of the document, and puts a container around the items of a taken node
that is in another language. -/

namespace Pruning

/-- The tail of a node as an item, where it is kept. -/
def tailItems (pruning : Pruning) (node : Node) : List Item :=
  if pruning.tail node && node.tail ≠ "" then [.text " ", .text node.tail] else []

mutual

/-- The text that is kept of a tree, where `lang` is the language in scope. -/
def gathered (pruning : Pruning) (lang : Option String) : Node → List Item
  | node@⟨_, _, _, _, text, children, _⟩ =>
    if pruning.whole node then
      match pruning.replacement? node with
      | some element => [.element element]
      | none =>
        let changed := changedLang? node lang
        inLang changed ((pruning.notes node).map .element ++
          .text text :: forestGathered pruning (changed <|> lang) children)
    else forestGathered pruning lang children

/-- The text that is kept of a forest. -/
def forestGathered (pruning : Pruning) (lang : Option String) : List Node → List Item
  | [] => []
  | first :: rest =>
    gathered pruning lang first ++ pruning.tailItems first ++ forestGathered pruning lang rest

end

/-- What is gathered of a node is what takes its place, or its notes and text and what is gathered
below. -/
theorem gathered_eq (pruning : Pruning) (lang : Option String) (node : Node) :
    pruning.gathered lang node =
      if pruning.whole node then
        match pruning.replacement? node with
        | some element => [.element element]
        | none =>
          inLang (changedLang? node lang) ((pruning.notes node).map .element ++
            .text node.text ::
              pruning.forestGathered (changedLang? node lang <|> lang) node.children)
      else pruning.forestGathered lang node.children := by
  cases node
  rfl

variable {pruning : Pruning}

mutual

/-- Where nothing is kept, nothing is gathered. -/
theorem gathered_eq_nil : ∀ {node : Node} {lang : Option String},
    (∀ inner ∈ node.preorder, pruning.whole inner = false ∧ pruning.tail inner = false) →
      pruning.gathered lang node = []
  | ⟨own, path, name, attributes, text, children, tail⟩, lang, nothing => by
    rw [gathered, if_neg (by simp [(nothing _ (mem_preorder_self _)).1])]
    exact forestGathered_eq_nil fun inner member => nothing inner (List.mem_cons_of_mem _ member)

/-- Of nodes of which nothing is kept nothing is gathered. -/
theorem forestGathered_eq_nil : ∀ {nodes : List Node} {lang : Option String},
    (∀ inner ∈ forestPreorder nodes, pruning.whole inner = false ∧ pruning.tail inner = false) →
      pruning.forestGathered lang nodes = []
  | [], _, _ => rfl
  | first :: rest, lang, nothing => by
    have noTail : pruning.tail first = false :=
      (nothing first (List.mem_append_left _ (mem_preorder_self _))).2
    rw [forestGathered,
      gathered_eq_nil fun inner member => nothing inner (List.mem_append_left _ member),
      forestGathered_eq_nil fun inner member => nothing inner (List.mem_append_right _ member),
      tailItems, noTail]
    rfl

end

end Pruning

/-! ## 2. What takes the place of nodes

A directive and an instruction are replaced by one element each, and the walk does not go into them.
That the walk takes the same way as a visit that knows which nodes are hidden is all that the next
section needs of it. -/

variable {library : Library} {nested : Nested} {site : Site} {walk : Walk}

/-- What takes the place of a node when text is extracted. -/
def inlineReplacement? (library : Library) (nested : Nested) (site : Site) (node : Node) :
    Option Element :=
  match Role.of node with
  | .directive => (transclude library nested site node .inline).result.toOption
  | .instruction => (inlineInstruction library nested site node).result.toOption
  | _ => none

/-- Whether something takes the place of a node when text is extracted. -/
def inlineHides (library : Library) (nested : Nested) (site : Site) (node : Node) : Bool :=
  (inlineReplacement? library nested site node).isSome

/-- A directive is replaced by its wrapper. -/
theorem inlineReplacement?_of_directive {node : Node} {element : Element}
    (role : Role.of node = .directive)
    (found : (transclude library nested site node .inline).result = .ok element) :
    inlineReplacement? library nested site node = some element := by
  simp only [inlineReplacement?, role, found]
  rfl

/-- An instruction is replaced by the note that it becomes. -/
theorem inlineReplacement?_of_instruction {node : Node} {note : Element}
    (role : Role.of node = .instruction)
    (found : (inlineInstruction library nested site node).result = .ok note) :
    inlineReplacement? library nested site node = some note := by
  simp only [inlineReplacement?, role, found]
  rfl

/-- Nothing else is replaced. -/
theorem inlineReplacement?_of_kept {node : Node} (noDirective : Role.of node ≠ .directive)
    (noInstruction : Role.of node ≠ .instruction) :
    inlineReplacement? library nested site node = none := by
  unfold inlineReplacement?
  split
  · exact absurd ‹_› noDirective
  · exact absurd ‹_› noInstruction
  · rfl

mutual

/-- A walk that extracts text takes the way that is left by what takes the place of nodes. -/
theorem visit_of_inline (extraction : walk.extraction = .inline) :
    ∀ {node : Node} {lang : Option String} {progress after : Progress} {items : List Item},
      (inline library nested site walk lang progress node).result = .ok (items, after) →
        visit walk (inlineHides library nested site) progress node = after
  | ⟨own, path, name, attributes, text, children, tail⟩, lang, progress, after, items, h => by
    have taken : walk.inRangeCommand = .copyText := by rw [Walk.inRangeCommand, extraction]
    rw [visit_eq, taken]
    cases inlineStep_of_ok h with
    | skipped command => rw [if_pos command]
    | directive command role found =>
      rw [command, if_neg (by decide), if_pos]
      rw [inlineHides, inlineReplacement?_of_directive role found]
      exact ⟨rfl, rfl⟩
    | instruction command role found =>
      rw [command, if_neg (by decide), if_pos]
      rw [inlineHides, inlineReplacement?_of_instruction role found]
      exact ⟨rfl, rfl⟩
    | copied command noDirective noInstruction found below =>
      rw [command, if_neg (by decide), if_neg, visitForest_of_inlineForest extraction below]
      rw [inlineHides, inlineReplacement?_of_kept noDirective noInstruction]
      simp
    | passed noSkip noText below =>
      rw [if_neg noSkip, if_neg (fun both => noText both.1),
        visitForest_of_inlineForest extraction below]

/-- A walk that extracts text leads through nodes as a visit does. -/
theorem visitForest_of_inlineForest (extraction : walk.extraction = .inline) :
    ∀ {nodes : List Node} {lang : Option String} {progress after : Progress} {items : List Item},
      (inlineForest library nested site walk lang progress nodes).result = .ok (items, after) →
        visitForest walk (inlineHides library nested site) progress nodes = after
  | [], lang, progress, after, items, h => (inlineForest_nil h).2.symm
  | first :: rest, lang, progress, after, items, h => by
    obtain ⟨shown, between, others, found, below, -⟩ := inlineForest_cons h
    rw [visitForest, visit_of_inline extraction found, visitForest_of_inlineForest extraction below]

end

/-! ## 3. The walk gathers what is kept

The flags of the walk are told by the edges that it has passed, and these tell whether the range is
open, which is what the pruning goes by. The induction carries the place in the document along with
the flags. -/

/-- The pruning that an extraction of text comes to: the range within what the walk reaches, with
what takes the place of nodes and the inserted notes. -/
def inlinePruning (library : Library) (nested : Nested) (site : Site) (bounds : Bounds) : Pruning :=
  { Pruning.within site.document bounds
      (reached site.document bounds (inlineHides library nested site)) with
    replacement? := inlineReplacement? library nested site
    notes := insertedNotes library nested site }

section

variable {bounds : Bounds} {passed rest : List Edge} {progress after : Progress} {node : Node}
  {lang : Option String} {items : List Item}

/-- The part of a tail that a walk takes is the tail where the pruning keeps it. -/
theorem tailItems_eq (spans : Spans site.document bounds
      (reached site.document bounds (inlineHides library nested site)))
    (place : AtNode site.document bounds (inlineHides library nested site) passed rest node)
    (standing : Standing site.document bounds .inline
      (passed ++ (node.trim (hidden bounds (inlineHides library nested site))).edges) after) :
    tailItems after node = (inlinePruning library nested site bounds).tailItems node := by
  have keeps : (inlinePruning library nested site bounds).tail node =
      (Stretch.of site.document bounds).isOpen
        (passed ++ (node.trim (hidden bounds (inlineHides library nested site))).edges) :=
    tail_within spans place
  rw [tailItems, standing.inRange, Pruning.tailItems, keeps]

/-- What a walk that extracts text takes of a node, if it takes what is kept of its children. -/
theorem gathered_of_inline_of_children (ordered : site.document.Ordered)
    (spans : Spans site.document bounds
      (reached site.document bounds (inlineHides library nested site)))
    (place : AtNode site.document bounds (inlineHides library nested site) passed rest node)
    (standing : Standing site.document bounds .inline passed progress)
    (below : hidden bounds (inlineHides library nested site) node = false →
      ∀ {inside : Progress} {lang : Option String} {items : List Item},
        (inlineForest library nested site (.within site.document bounds .inline) lang
          ((Walk.within site.document bounds .inline).enter progress node)
          node.children).result = .ok (items, inside) →
        items = (inlinePruning library nested site bounds).forestGathered lang node.children)
    (step : InlineStep library nested site (.within site.document bounds .inline) lang progress
      node items after) :
    items = (inlinePruning library nested site bounds).gathered lang node := by
  have told := place.command_enter ordered spans standing
  have whole : (inlinePruning library nested site bounds).whole node =
      (Stretch.of site.document bounds).isOpen (passed ++ [.opening node.id]) :=
    whole_within spans place
  cases step with
  | skipped command =>
    have hasEnded := Stretch.isOver_of_skip (told.symm.trans command)
    refine (Pruning.gathered_eq_nil ?_).symm
    intro inner member
    have nothing := within_of_isOver ordered spans place hasEnded member
    exact ⟨nothing.1, nothing.2.1⟩
  | @directive element command role found =>
    have replaced : (inlinePruning library nested site bounds).replacement? node = some element :=
      inlineReplacement?_of_directive role found
    rw [Pruning.gathered_eq, whole,
      if_pos (Stretch.isOpen_of_inRange (told.symm.trans command)), replaced]
  | @instruction note command role found =>
    have replaced : (inlinePruning library nested site bounds).replacement? node = some note :=
      inlineReplacement?_of_instruction role found
    rw [Pruning.gathered_eq, whole,
      if_pos (Stretch.isOpen_of_inRange (told.symm.trans command)), replaced]
  | @copied applied taken inside command noDirective noInstruction found forest =>
    have kept : inlineReplacement? library nested site node = none :=
      inlineReplacement?_of_kept noDirective noInstruction
    have shows : (inlinePruning library nested site bounds).replacement? node = none := kept
    have notes : (inlinePruning library nested site bounds).notes node = applied.notes := by
      show insertedNotes library nested site node = _
      rw [insertedNotes, found]
    have shown : hidden bounds (inlineHides library nested site) node = false := by
      rw [hidden, inlineHides, kept]
      exact Bool.and_false _
    rw [Pruning.gathered_eq, whole,
      if_pos (Stretch.isOpen_of_inRange (told.symm.trans command)), shows, notes,
      below shown forest]
  | @passed taken inside noSkip noText forest =>
    rw [told] at noSkip noText
    obtain ⟨-, notBegun⟩ := Stretch.before_of_lead noSkip noText
    have shown : hidden bounds (inlineHides library nested site) node = false :=
      spans.not_hidden place.opening notBegun
    rw [Pruning.gathered_eq, whole, Stretch.isOpen, notBegun, Bool.false_and,
      if_neg Bool.false_ne_true, below shown forest]

mutual

/-- What a walk that extracts text takes of a node is what the pruning keeps of it. -/
theorem gathered_of_inline (ordered : site.document.Ordered)
    (spans : Spans site.document bounds
      (reached site.document bounds (inlineHides library nested site))) :
    ∀ {node : Node} {passed rest : List Edge} {progress after : Progress} {lang : Option String}
        {items : List Item},
      AtNode site.document bounds (inlineHides library nested site) passed rest node →
      Standing site.document bounds .inline passed progress →
      (inline library nested site (.within site.document bounds .inline) lang progress
        node).result = .ok (items, after) →
      items = (inlinePruning library nested site bounds).gathered lang node
  | ⟨_, _, _, _, _, _, _⟩, _, _, _, _, _, _, place, standing, ran => by
    refine gathered_of_inline_of_children ordered spans place standing ?_ (inlineStep_of_ok ran)
    intro shown inside lang items forest
    exact gathered_of_inlineForest ordered spans (place.children shown)
      (place.standing_enter ordered spans standing) forest

/-- A walk gathers of nodes what the pruning keeps of them. -/
theorem gathered_of_inlineForest (ordered : site.document.Ordered)
    (spans : Spans site.document bounds
      (reached site.document bounds (inlineHides library nested site))) :
    ∀ {nodes : List Node} {passed rest : List Edge} {progress after : Progress}
        {lang : Option String} {items : List Item},
      AtForest site.document bounds (inlineHides library nested site) passed rest nodes →
      Standing site.document bounds .inline passed progress →
      (inlineForest library nested site (.within site.document bounds .inline) lang progress
        nodes).result = .ok (items, after) →
      items = (inlinePruning library nested site bounds).forestGathered lang nodes
  | [], _, _, _, _, _, _, _, _, ran => (inlineForest_nil ran).1
  | first :: others, passed, rest, progress, after, lang, items, place, standing, ran => by
    obtain ⟨shown, between, more, found, below, rfl⟩ := inlineForest_cons ran
    have left := standing_visit ordered spans place.first standing
    rw [visit_of_inline rfl found] at left
    rw [Pruning.forestGathered, ← gathered_of_inline ordered spans place.first standing found,
      ← tailItems_eq spans place.first left,
      ← gathered_of_inlineForest ordered spans place.others left below]

end

/-- A walk that extracts text from a document takes what the pruning keeps of the document. -/
theorem gathered_of_inline_root (ordered : site.document.Ordered)
    (located : Located site.document bounds) {file : SourceFile} {startMarker stopMarker : String}
    (ran : (inline library nested site (.within site.document bounds .inline) lang
      (Walk.start file startMarker stopMarker) site.document.root).result = .ok (items, after)) :
    after.frame.beforeStart = false ∧
      (after.frame.afterEnd = true ↔
        bounds.stop ∈ (reached site.document bounds (inlineHides library nested site)).ids) ∧
      items = (inlinePruning library nested site bounds).gathered lang site.document.root := by
  have flags := flags_of_visit .inline ordered located
    (inlineHides library nested site) file startMarker stopMarker
  rw [visit_of_inline rfl ran] at flags
  exact ⟨flags.1, flags.2, gathered_of_inline ordered
    (spans_reached (inlineHides library nested site) ordered located) (atNode_root ..)
    (Standing.start .inline file startMarker stopMarker) ran⟩

end

end Intertext.Compile
