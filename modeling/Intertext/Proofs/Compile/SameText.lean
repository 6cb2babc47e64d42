import Intertext.Proofs.Compile.Alike
import Intertext.Proofs.Compile.Depth
import Intertext.Proofs.Compile.Library
import Intertext.Proofs.Compile.Route
import Intertext.Proofs.Compile.Spaceless
/-!
Both extractions show the same text.

The walk that extracts structure and the one that extracts text go through a document side by
side: they stand at the same place all the time, and after every node they have shown the same
text, but for spaces (`sameText_of_walks`). In one place they part. An instruction that stays is
walked by the first and copied in a frame of its own by the second, which comes to the same if
nothing in the instruction could be a marker (`copy_of_external`). What further frames give agrees
by induction on the number of frames (`agrees_levels`).
-/

namespace Intertext.Compile

open Markup (Element Node Document)
open Markup.Node
open Markup.Element (forestCharacters)

/-! ## 1. Where structure begins

A walk that extracts structure shows nothing as long as its range has not begun. This is told by
what it shows: as soon as the range has begun, something has been shown. -/

variable {library : Library} {nested : Nested} {site : Site} {walk : Walk}

mutual

/-- A walk that extracts structure shows some element by the time its range has begun. -/
theorem ne_nil_of_begun (extraction : walk.extraction = .external) :
    ∀ {node : Node} {progress after : Progress} {elements : List Element},
      (external library nested site walk progress node).result = .ok (elements, after) →
      progress.frame.beforeStart = true → after.frame.beforeStart = false → elements ≠ []
  | ⟨own, path, name, attributes, text, children, tail⟩, progress, after, elements, h, before,
      begun => by
    cases externalStep_of_ok h with
    | skipped command =>
      -- what is skipped stands after the range, and the start is not in it
      rcases command_of_enter walk progress ⟨own, path, name, attributes, text, children, tail⟩ with
        ⟨hasEnded, -⟩ | ⟨-, other⟩ | ⟨-, -, ⟨other, -⟩ | other⟩
      · rw [Walk.beforeStart_enter, hasEnded, before] at begun
        cases begun
      · exact absurd (other.symm.trans command) walk.inRangeCommand_ne.1
      · rw [command] at other
        cases other
      · rw [command] at other
        cases other
    | directive command role found => exact List.cons_ne_nil _ _
    | replaced command role found => exact List.cons_ne_nil _ _
    | copied command role found kept below => exact List.cons_ne_nil _ _
    | tag command below => exact List.cons_ne_nil _ _
    | passed command below =>
      rw [Walk.beforeStart_leave] at begun
      obtain ⟨piece, member, shows⟩ := (started_of_externalForest extraction below
        (before_of_pass extraction command)).2 begun
      exact fun none => shows (passOn_eq_nil.mp none piece member)

/-- Among what a walk that extracts structure shows, every tail has an element to follow. -/
theorem started_of_externalForest (extraction : walk.extraction = .external) :
    ∀ {nodes : List Node} {progress after : Progress} {pieces : List Piece},
      (externalForest library nested site walk progress nodes).result = .ok (pieces, after) →
      progress.frame.beforeStart = true →
      Started pieces ∧
        (after.frame.beforeStart = false → ∃ piece ∈ pieces, piece.elements ≠ [])
  | [], progress, after, pieces, h, before => by
    obtain ⟨rfl, rfl⟩ := externalForest_nil h
    exact ⟨trivial, fun begun => by rw [before] at begun; cases begun⟩
  | first :: rest, progress, after, pieces, h, before => by
    obtain ⟨elements, between, others, found, below, rfl⟩ := externalForest_cons h
    cases still : between.frame.beforeStart with
    | false =>
      have some := ne_nil_of_begun extraction found before still
      exact ⟨Or.inl some, fun _ => ⟨_, List.mem_cons_self, some⟩⟩
    | true =>
      obtain ⟨started, later⟩ := started_of_externalForest extraction below still
      have noTail : tailInRange between first = "" := by
        rw [tailInRange, Frame.inRange, still]
        rfl
      refine ⟨Or.inr ⟨noTail, started⟩, ?_⟩
      intro begun
      obtain ⟨piece, member, shows⟩ := later begun
      exact ⟨piece, List.mem_cons_of_mem _ member, shows⟩

end

/-! ## 2. What further frames give

Texts are compared without their spaces, since the walk that extracts text puts a space before each
tail. What is fetched from another frame agrees for targets, and a copy agrees with itself. -/

/-- Whether the content that frames give agrees: both extractions of a range show the same text,
and a frame gives no other copy of a node than the frame that asks for it would make. -/
structure Nested.Agrees (library : Library) (nested : Nested) : Prop where
  tailless : nested.Tailless
  sameText : ∀ file start stop elements element,
    (nested.external file start stop).result = .ok elements →
    (nested.inline file start stop).result = .ok element →
    spaceless (forestCharacters elements) = spaceless element.characters
  copies : ∀ file document node element, library.document file = .ok document →
    (nested.copy (some file) file (some node)).result = .ok element →
    (copyNote library nested ⟨file, document⟩ node).result = .ok element

/-- A wrapper has no text of its own but white space. -/
theorem spaceless_wrapper (target : String) (targetEnd : Option String) (extraction : Extraction) :
    spaceless (wrapper target targetEnd extraction).text = [] := by
  unfold wrapper
  cases targetEnd <;> rfl

/-- A directive shows the same text whether its content is taken with its structure or not. -/
theorem spaceless_transclude (agrees : nested.Agrees library) {node : Node}
    {extraction : Extraction} {element element' : Element}
    (h : (transclude library nested site node extraction).result = .ok element)
    (h' : (transclude library nested site node .inline).result = .ok element') :
    spaceless element.characters = spaceless element'.characters := by
  cases extraction with
  | inline =>
    rw [h] at h'
    cases h'
    rfl
  | external =>
    obtain ⟨start, target, found, source, given, located, fills, -, rfl⟩ := transclude_eq_ok h
    obtain ⟨start', target', found', source', given', located', fills', -, rfl⟩ :=
      transclude_eq_ok h'
    cases given.symm.trans given'
    cases located.symm.trans located'
    obtain ⟨children, extracted, rfl⟩ := filled_eq_ok.mp fills
    obtain ⟨container, extracted', rfl⟩ := filled_eq_ok.mp fills'
    have same := agrees.sameText _ _ _ _ _ extracted extracted'
    rw [characters_stampLang, characters_stampForeign, characters_stampLang,
      characters_stampForeign, spaceless_characters, spaceless_wrapper, same, characters_eq,
      characters_eq]
    rfl

/-! ## 3. Instructions

An instruction that is kept is walked in one extraction and copied in the other. If it has neither
markers nor milestones in it, the walk takes all of it and the two agree. -/

/-- Whether nothing in an instruction can be a marker. -/
def Unmarked (instruction : Node) : Prop :=
  ∀ inner ∈ forestPreorder instruction.children,
    isMilestone inner = false ∧ inner.corresp? = none ∧ inner.xmlId? = none

instance (instruction : Node) : Decidable (Unmarked instruction) :=
  inferInstanceAs (Decidable (∀ inner ∈ forestPreorder instruction.children, _))

variable {document : Document} {bounds : Bounds}

/-- What a marker names has a name. -/
theorem named_of_findMarker? {marker : String} {node : Node}
    (h : findMarker? document marker = some node) : node.corresp? ≠ none ∨ node.xmlId? ≠ none := by
  unfold findMarker? at h
  split at h
  · have named := List.find?_some h
    exact Or.inr fun none => by simp [none] at named
  · have named := List.find?_some h
    exact Or.inl fun none => by simp [none] at named

/-- A walk in range stays where it stands in an instruction without markers. -/
theorem Unmarked.quiet (ordered : document.Ordered) {startMarker stopMarker : String}
    (located : Bounds.locate document startMarker stopMarker = .ok bounds) {note inner : Node}
    (isNode : note ∈ document.nodes) (unmarked : Unmarked note)
    (member : inner ∈ forestPreorder note.children) : Quiet document bounds inner := by
  have isInner : inner ∈ document.nodes := mem_preorder_of_below isNode member
  obtain ⟨start, stop, -, foundStart, foundStop, rfl, -⟩ := Bounds.locate_eq_ok located
  -- no marker names a node in the note
  have noMarker {marker : String} {node : Node} (found : findMarker? document marker = some node)
      (inside : node ∈ forestPreorder note.children) : False := by
    obtain ⟨-, noCorresp, noId⟩ := unmarked node inside
    rcases named_of_findMarker? found with named | named
    · exact named noCorresp
    · exact named noId
  refine ⟨(unmarked inner member).1, fun same => ?_, fun same => ?_, fun last => ?_⟩
  · cases Node.Ordered.eq_of_id_eq ordered isInner (findMarker?_mem foundStart) same
    exact noMarker foundStart member
  · cases Node.Ordered.eq_of_id_eq ordered isInner (findMarker?_mem foundStop) same
    exact noMarker foundStop member
  · -- the last parent has the stop below it
    obtain ⟨parent, isParent, same, below, -⟩ := last_eq_some ordered last
    cases Node.Ordered.eq_of_id_eq ordered isInner isParent same.symm
    obtain ⟨child, isChild, inside⟩ := mem_forestIds.mp below
    obtain ⟨node, isNode', same⟩ := mem_ids.mp inside
    have inParent : node ∈ forestPreorder inner.children :=
      mem_forestPreorder.mpr ⟨child, isChild, isNode'⟩
    have inNote : node ∈ forestPreorder note.children :=
      (forestPreorder_sublist member).subset (preorder_eq inner ▸ List.mem_cons_of_mem _ inParent)
    have isNode'' : node ∈ document.nodes := mem_preorder_of_below isNode inNote
    cases Node.Ordered.eq_of_id_eq ordered isNode'' (findMarker?_mem foundStop) same
    exact noMarker foundStop inNote

/-! ## 4. Walking side by side

The two walks have the same flags at every node, so that both skip it, both take it or both pass it.
What they then show of a taken node depends on its role, and there is a lemma for each. -/

/-- Walks at the same place are told to do the same, each in its way. -/
theorem commands_of_alike {progress progress' : Progress} {node : Node}
    (alike : Alike ((Walk.within document bounds .external).enter progress node)
      ((Walk.within document bounds .inline).enter progress' node)) :
    ((Walk.within document bounds .external).enter progress node).frame.command = .skip ∧
        ((Walk.within document bounds .inline).enter progress' node).frame.command = .skip ∨
      ((Walk.within document bounds .external).enter progress node).frame.inRange = true ∧
        ((Walk.within document bounds .external).enter progress node).frame.command = .copy ∧
        ((Walk.within document bounds .inline).enter progress' node).frame.command = .copyText ∨
      (((Walk.within document bounds .external).enter progress node).frame.command = .copyTag ∨
          ((Walk.within document bounds .external).enter progress node).frame.command = .pass) ∧
        ((Walk.within document bounds .inline).enter progress' node).frame.command = .pass := by
  rcases command_of_enter (.within document bounds .external) progress node with
    ⟨hasEnded, skip⟩ | ⟨inRange, copy⟩ | ⟨still, before, lead⟩
  · refine Or.inl ⟨skip, ?_⟩
    rw [Walk.command_enter, ← alike.after, hasEnded]
    rfl
  · refine Or.inr (Or.inl ⟨inRange, copy, ?_⟩)
    obtain ⟨begun, still⟩ := Bool.and_eq_true_iff.mp inRange
    rw [Bool.not_eq_true'] at begun still
    rw [Walk.command_enter, ← alike.after, still, ← alike.before, begun]
    rfl
  · refine Or.inr (Or.inr ⟨lead.imp And.left id, ?_⟩)
    rw [Walk.command_enter, ← alike.after, still, ← alike.before, before]
    rfl

/-- Walks at the same place show the same of a tail, but for the space before it. -/
theorem spaceless_tailItems {progress progress' : Progress} {node : Node}
    (alike : Alike progress progress') :
    (tailItems progress' node).flatMap Item.spaceless = spaceless (tailInRange progress node) := by
  rw [tailItems, tailInRange, ← alike.inRange]
  cases progress.frame.inRange with
  | false => rfl
  | true =>
    by_cases empty : node.tail = ""
    · rw [empty]
      rfl
    · rw [if_pos (by simp [empty]), if_pos rfl]
      exact List.append_nil _

section

variable {file : SourceFile} {progress progress' after after' : Progress} {node : Node}
  {elements : List Element} {items : List Item} {lang : Option String}

/-- Whether two walks stand at the same place and have shown the same text on the way. -/
def SameText (after after' : Progress) (elements : List Element) (items : List Item) : Prop :=
  Alike after after' ∧ spaceless (forestCharacters elements) = items.flatMap Item.spaceless

/-- Whether two walks that stand before the same nodes show the same text of them. -/
def SameTextAhead (library : Library) (nested : Nested) (site : Site) (bounds : Bounds)
    (nodes : List Node) (progress progress' : Progress) : Prop :=
  ∀ ⦃after after' : Progress⦄ ⦃pieces : List Piece⦄ ⦃items : List Item⦄ ⦃lang : Option String⦄,
    (externalForest library nested site (.within site.document bounds .external) progress
      nodes).result = .ok (pieces, after) →
    (inlineForest library nested site (.within site.document bounds .inline) lang progress'
      nodes).result = .ok (items, after') →
    Alike after after' ∧ pieces.flatMap Piece.spaceless = items.flatMap Item.spaceless

variable
  (step : ExternalStep library nested ⟨file, document⟩ (.within document bounds .external) progress
    node elements after)
  (step' : InlineStep library nested ⟨file, document⟩ (.within document bounds .inline) lang
    progress' node items after')

include step step'

/-- A directive in range shows the same text either way. -/
theorem sameText_of_directive (agrees : nested.Agrees library) (role : Role.of node = .directive)
    (alike : Alike ((Walk.within document bounds .external).enter progress node)
      ((Walk.within document bounds .inline).enter progress' node))
    (taken : ((Walk.within document bounds .external).enter progress node).frame.command = .copy)
    (taken' : ((Walk.within document bounds .inline).enter progress' node).frame.command =
      .copyText) :
    SameText after after' elements items := by
  obtain ⟨-, element, found, rfl, rfl⟩ | ⟨noDirective, -⟩ | ⟨noDirective, -⟩ := step.of_copy taken
  · obtain ⟨-, element', found', rfl, rfl⟩ | ⟨isInstruction, -⟩ | ⟨⟨noDirective, -⟩, -⟩ :=
      step'.of_copyText taken'
    · refine ⟨alike.leave node, ?_⟩
      rw [spaceless_forest_cons, spaceless_transclude agrees found found', tail_transclude found]
      simp [Item.spaceless, tail_transclude found']
    · exact absurd (role.symm.trans isInstruction) (by decide)
    · exact absurd role noDirective
  · exact absurd role noDirective
  · exact absurd role noDirective

/-- An instruction in range shows the same text either way, if nothing in it can be a marker. -/
theorem sameText_of_instruction (agrees : nested.Agrees library)
    (reads : library.document file = .ok document) (role : Role.of node = .instruction)
    (quiet : ∀ inner ∈ forestPreorder node.children, Quiet document bounds inner)
    (alike : Alike ((Walk.within document bounds .external).enter progress node)
      ((Walk.within document bounds .inline).enter progress' node))
    (inRange : ((Walk.within document bounds .external).enter progress node).frame.inRange = true)
    (taken' : ((Walk.within document bounds .inline).enter progress' node).frame.command =
      .copyText) :
    SameText after after' elements items := by
  have taken := copy_of_inRange inRange
  have noDirective : Role.of node ≠ .directive := by simp [role]
  obtain ⟨isDirective, -⟩ | ⟨-, note', found', rfl, rfl⟩ | ⟨⟨-, noInstruction⟩, -⟩ :=
    step'.of_copyText taken'
  · exact absurd isDirective noDirective
  · obtain ⟨isDirective, -⟩ | ⟨-, note, found, rfl, rfl⟩ |
      ⟨-, applied, pieces, inside, found, kept, below, rfl, rfl⟩ := step.of_copy taken
    · exact absurd isDirective noDirective
    · obtain replaced | ⟨applied, copied, annotated, kept, -, -⟩ :=
        inlineInstruction_eq_ok.mp found'
      · cases found.symm.trans replaced
        refine ⟨alike.leave node, ?_⟩
        rw [spaceless_forest_cons]
        simp [Item.spaceless]
      · cases found.symm.trans annotated
        exact absurd rfl (kept note)
    · obtain replaced | ⟨applied', copied, annotated, -, copies, rfl⟩ :=
        inlineInstruction_eq_ok.mp found'
      · cases found.symm.trans replaced
        exact absurd rfl (kept note')
      · cases found.symm.trans annotated
        -- the walk shows the copy that the other frame makes
        obtain ⟨stays, rooted, shown⟩ :=
          copyForest_of_externalForest agrees.tailless quiet inRange below
        have copy := agrees.copies _ _ _ _ reads copies
        obtain ⟨copies', shown', rfl⟩ := (copyNote_eq_ok noDirective).mp copy
        cases shown.symm.trans shown'
        refine ⟨(stays.symm.trans alike).leave node, ?_⟩
        have filled : fill { node.shell with text := node.text } pieces =
            withChildren node (pieces.flatMap Piece.shown) := fill_eq _ rooted
        rw [filled, spaceless_forest_cons, tail_insertNotes]
        simp [Item.spaceless]
  · exact absurd role noInstruction

/-- Any other node in range shows the same text either way, if what is in it does. -/
theorem sameText_of_plain (agrees : nested.Agrees library) (noDirective : Role.of node ≠ .directive)
    (noInstruction : Role.of node ≠ .instruction)
    (taken : ((Walk.within document bounds .external).enter progress node).frame.command = .copy)
    (taken' : ((Walk.within document bounds .inline).enter progress' node).frame.command =
      .copyText)
    (below : SameTextAhead library nested ⟨file, document⟩ bounds node.children
      ((Walk.within document bounds .external).enter progress node)
      ((Walk.within document bounds .inline).enter progress' node)) :
    SameText after after' elements items := by
  obtain ⟨isDirective, -⟩ | ⟨-, note, found, -⟩ |
    ⟨-, applied, pieces, inside, found, kept, ran, rfl, rfl⟩ := step.of_copy taken
  · exact absurd isDirective noDirective
  · exact absurd (instruction_of_replace found).1 noInstruction
  · obtain ⟨isDirective, -⟩ | ⟨isInstruction, -⟩ |
      ⟨-, applied', items, inside', found', ran', rfl, rfl⟩ := step'.of_copyText taken'
    · exact absurd isDirective noDirective
    · exact absurd isInstruction noInstruction
    · cases found.symm.trans found'
      obtain ⟨alike, same⟩ := below ran ran'
      refine ⟨alike.leave node, ?_⟩
      have tailless (note : Element) (member : note ∈ applied.notes) : note.tail = "" :=
        (borrowed_of_mem_notes found member).tail agrees.tailless
      -- An element gives the text of its notes, its own and that of what is in it, in this order.
      have own : spaceless (forestCharacters
          [insertNotes applied.notes (fill { node.shell with text := node.text } pieces)]) =
          spaceless (forestCharacters applied.notes) ++
            (spaceless node.text ++ pieces.flatMap Piece.spaceless) := by
        rw [spaceless_forest_cons, tail_insertNotes, tail_fill, spaceless_insertNotes _ tailless,
          spaceless_fill, spaceless_characters]
        simp [Node.shell]
      rw [own, same, spaceless_inLang, List.flatMap_append, spaceless_elements, List.flatMap_cons]
      rfl

/-- A node before the range shows the same text either way, if what is in it does. -/
theorem sameText_of_lead
    (lead : ((Walk.within document bounds .external).enter progress node).frame.command = .copyTag ∨
      ((Walk.within document bounds .external).enter progress node).frame.command = .pass)
    (lead' : ((Walk.within document bounds .inline).enter progress' node).frame.command = .pass)
    (below : SameTextAhead library nested ⟨file, document⟩ bounds node.children
      ((Walk.within document bounds .external).enter progress node)
      ((Walk.within document bounds .inline).enter progress' node)) :
    SameText after after' elements items := by
  obtain ⟨inside', ran', rfl⟩ := step'.of_pass lead'
  rcases lead with lead | lead
  · obtain ⟨pieces, inside, ran, rfl, rfl⟩ := step.of_copyTag lead
    obtain ⟨alike, same⟩ := below ran ran'
    refine ⟨alike.leave node, ?_⟩
    rw [spaceless_forest_cons, tail_fill, spaceless_fill, spaceless_characters, same]
    simp [Node.shell]
  · obtain ⟨pieces, inside, ran, rfl, rfl⟩ := step.of_pass lead
    obtain ⟨alike, same⟩ := below ran ran'
    have started := (started_of_externalForest rfl ran (before_of_pass rfl (Or.inl lead))).1
    exact ⟨alike.leave node, (spaceless_passOn started).trans same⟩

end

section

variable (agrees : nested.Agrees library) {file : SourceFile}
  (reads : library.document file = .ok document) (ordered : document.Ordered)
  {startMarker stopMarker : String}
  (located : Bounds.locate document startMarker stopMarker = .ok bounds)
  (unmarked : ∀ note ∈ document.nodes, Role.of note = .instruction → Unmarked note)

include agrees reads ordered located unmarked

-- in a mutual recursion the linter misses what only the other theorem uses
set_option linter.unusedSectionVars false

mutual

/-- Two walks that go through a node side by side stand at the same place after it and have shown
the same text of it. -/
theorem sameText_of_walks :
    ∀ {node : Node} {progress progress' after after' : Progress} {elements : List Element}
      {items : List Item} {lang : Option String}, node ∈ document.nodes → Alike progress progress' →
      (external library nested ⟨file, document⟩ (.within document bounds .external) progress
        node).result = .ok (elements, after) →
      (inline library nested ⟨file, document⟩ (.within document bounds .inline) lang progress'
        node).result = .ok (items, after') →
      SameText after after' elements items
  | ⟨own, path, name, attributes, text, children, tail⟩, progress, progress', after, after',
      elements, items, lang, isNode, alike, h, h' => by
    have step := externalStep_of_ok h
    have step' := inlineStep_of_ok h'
    have entered : Alike ((Walk.within document bounds .external).enter progress
          ⟨own, path, name, attributes, text, children, tail⟩)
        ((Walk.within document bounds .inline).enter progress'
          ⟨own, path, name, attributes, text, children, tail⟩) := alike.enter _
    have inside (inner : Node) (member : inner ∈ forestPreorder children) :
        inner ∈ document.nodes := mem_preorder_of_below isNode member
    -- The cases are those of the common place: after the range, in it, or before it.
    rcases commands_of_alike entered with ⟨skip, skip'⟩ | ⟨inRange, taken, taken'⟩ | ⟨lead, lead'⟩
    · obtain ⟨rfl, rfl⟩ := step.of_skip skip
      obtain ⟨rfl, rfl⟩ := step'.of_skip skip'
      exact ⟨entered, rfl⟩
    · by_cases directive : Role.of ⟨own, path, name, attributes, text, children, tail⟩ = .directive
      · exact sameText_of_directive step step' agrees directive entered taken taken'
      by_cases instruction :
          Role.of ⟨own, path, name, attributes, text, children, tail⟩ = .instruction
      · refine sameText_of_instruction step step' agrees reads instruction ?_ entered inRange taken'
        intro inner member
        exact (unmarked _ isNode instruction).quiet ordered located isNode member
      · exact sameText_of_plain step step' agrees directive instruction taken taken'
          (sameTextForest_of_walks inside entered)
    · exact sameText_of_lead step step' lead lead' (sameTextForest_of_walks inside entered)

/-- Walks that stand at the same place show the same text of nodes and stand at the same place
again. -/
theorem sameTextForest_of_walks :
    ∀ {nodes : List Node} {progress progress' : Progress},
      (∀ inner ∈ forestPreorder nodes, inner ∈ document.nodes) → Alike progress progress' →
      SameTextAhead library nested ⟨file, document⟩ bounds nodes progress progress'
  | [], progress, progress', isNode, alike => by
    intro after after' pieces items lang h h'
    obtain ⟨rfl, rfl⟩ := externalForest_nil h
    obtain ⟨rfl, rfl⟩ := inlineForest_nil h'
    exact ⟨alike, rfl⟩
  | first :: rest, progress, progress', isNode, alike => by
    intro after after' pieces items lang h h'
    obtain ⟨elements, between, others, found, below, rfl⟩ := externalForest_cons h
    obtain ⟨shown, between', others', found', below', rfl⟩ := inlineForest_cons h'
    obtain ⟨alikeFirst, same⟩ := sameText_of_walks
      (isNode _ (List.mem_append_left _ (mem_preorder_self _))) alike found found'
    obtain ⟨alikeRest, sameRest⟩ := sameTextForest_of_walks
      (fun inner member => isNode inner (List.mem_append_right _ member)) alikeFirst below below'
    refine ⟨alikeRest, ?_⟩
    rw [List.flatMap_cons, List.flatMap_append, List.flatMap_append, Piece.spaceless, same,
      sameRest, spaceless_tailItems alikeFirst]

end

end

/-! ## 5. Frames

Both extractions read the same document and find the same bounds in it, and their walks begin at the
same place. The induction is on the frames that are left. -/

/-- The content that frames give agrees, however many there are. -/
theorem agrees_levels (parsed : library.Parsed)
    (unmarked : ∀ file document, library.document file = .ok document →
      ∀ note ∈ document.nodes, Role.of note = .instruction → Unmarked note) :
    ∀ frames : Nat, (levels library frames).Agrees library
  | 0 =>
    { tailless := tailless_levels 0
      sameText := fun _ _ _ _ _ h _ => absurd h external_level_none_ne_ok
      copies := fun _ _ _ _ _ h => absurd h copy_level_none_ne_ok }
  | frames + 1 =>
    { tailless := tailless_levels (frames + 1)
      sameText := by
        intro file start stop elements element h h'
        obtain ⟨document, bounds, after, reads, located, ran⟩ := external_level_eq_ok.mp h
        obtain ⟨document', bounds', items, after', reads', located', ran', rfl⟩ :=
          inline_level_eq_ok.mp h'
        cases reads.symm.trans reads'
        cases located.symm.trans located'
        rw [spaceless_append_items, characters_container]
        exact (sameText_of_walks (agrees_levels parsed unmarked frames) reads (parsed.ordered reads)
          located (unmarked file document reads) (mem_preorder_self _) (.refl _) ran ran').2
      copies := by
        intro file document node element reads h
        obtain ⟨document', found, reads', ran, rfl⟩ := copy_level_eq_ok.mp h
        cases reads.symm.trans reads'
        rw [stampForeign, if_pos rfl]
        exact copyNote_of_le (Nat.le_succ frames) ran }

/-- Whatever a range holds (notes, replaced instructions, other languages, milestones and
directives of either kind), its structure and its text show the same, but for spaces, if nothing
in an instruction could be a marker. -/
theorem sameText_of_extractions (parsed : library.Parsed)
    (unmarked : ∀ file document, library.document file = .ok document →
      ∀ note ∈ document.nodes, Role.of note = .instruction → Unmarked note)
    {frames : Nat} {file : SourceFile} {startMarker stopMarker : String} {elements : List Element}
    {element : Element}
    (structured : ((levels library frames).external file startMarker stopMarker).result =
      .ok elements)
    (plain : ((levels library frames).inline file startMarker stopMarker).result = .ok element) :
    spaceless (forestCharacters elements) = spaceless element.characters :=
  (agrees_levels parsed unmarked frames).sameText _ _ _ _ _ structured plain

/-- A document with a range around an instruction, up to a part in another language. -/
def instructed : Document where
  root := ⟨0, "/text", .tei "text", [], "",
    [⟨1, "/text/p[1]", .tei "p", [(.xml "id", "a")], "A",
       [⟨2, "/text/p[1]/hi[1]", .tei "hi", [], "b", [], "c"⟩], ""⟩,
     ⟨3, "/text/note[1]", .tei "note", [(.plain "type", "instruction")], "I",
       [⟨4, "/text/note[1]/hi[1]", .tei "hi", [], "i", [], "j"⟩], "k"⟩,
     ⟨5, "/text/p[2]", .tei "p", [(.xml "id", "z"), (.xml "lang", "he")], "Z", [], "tail"⟩], ""⟩
  namespaces := [(none, "http://www.tei-c.org/ns/1.0")]

/-- The text of the range has a space before each tail in it, and else it is that of the
structure. -/
theorem sameText_instructed : ∃ elements element,
    ((levels (single instructed) 2).external ⟨"p", "f"⟩ "#a" "#z").result = .ok elements ∧
      ((levels (single instructed) 2).inline ⟨"p", "f"⟩ "#a" "#z").result = .ok element ∧
      spaceless (forestCharacters elements) = spaceless element.characters ∧
      forestCharacters elements = "AbcIijkZ" ∧ element.characters = "Ab cIij kZ" := by
  have parsed : Document.parse
      ("<text xmlns=\"http://www.tei-c.org/ns/1.0\"><p xml:id=\"a\">A<hi>b</hi>c</p>" ++
        "<note type=\"instruction\">I<hi>i</hi>j</note>k<p xml:id=\"z\" xml:lang=\"he\">Z</p>" ++
        "tail</text>") = .ok instructed := by
    cbv
  have unmarked (file : SourceFile) (document : Document)
      (reads : (single instructed).document file = .ok document) :
      ∀ note ∈ document.nodes, Role.of note = .instruction → Unmarked note := by
    cases reads
    decide
  have structured : ((levels (single instructed) 2).external ⟨"p", "f"⟩ "#a" "#z").result.map
      forestCharacters = .ok "AbcIijkZ" := by
    decide +kernel
  have plain : ((levels (single instructed) 2).inline ⟨"p", "f"⟩ "#a" "#z").result.map
      Element.characters = .ok "Ab cIij kZ" := by
    decide +kernel
  obtain ⟨elements, ran, text⟩ := Outcome.map_eq_ok.mp structured
  obtain ⟨element, ran', text'⟩ := Outcome.map_eq_ok.mp plain
  exact ⟨elements, element, ran, ran',
    sameText_of_extractions (parsed_single parsed) unmarked ran ran', text, text'⟩

end Intertext.Compile
