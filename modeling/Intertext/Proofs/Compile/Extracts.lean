import Intertext.Proofs.Compile.Copies
/-!
The languages of what is extracted.

A walk through one element shows nothing but what it takes, and it takes the element and all that is
in it. What it takes of a node can stand where the node does (`lands_of_taken`,
`lands_of_takenText`), so what it shows in all reads where the language at the element is spoken
(`lands_of_external`, `lands_of_inline`). In extracted text, where elements are gone, a container
says where the language changes (`lands_of_mem_inLang`).
-/

namespace Intertext.Compile

open Markup (Element Name Node Document)
open Markup.Node

/-! ## 1. Where walks show something

A walk through one element is before it, in it or after it, and only in it does it show anything. So
the language need be right only for what is inside, and on the way there any language is. -/

/-- Whether a language is right for what a walk through one element shows of nodes that it comes to
in a phase: before the element, the language at the element; in it, the language in scope. -/
def Phase.Suits (document : Document) (start : Nat) (nodes : List Node) (lang : Option String) :
    Phase → Prop
  | before => lang = document.lang? start
  | within => ∀ node ∈ nodes, InScope document node lang
  | after => True

variable {library : Library} {nested : Nested} {file : SourceFile} {document : Document}
  {node : Node} {element : Element} {lang : Option String} {walk : Walk} {start : Nat}

/-- What suits nodes suits the first of them. -/
theorem Phase.Suits.first {first : Node} {rest : List Node} {phase : Phase}
    (suits : phase.Suits document start (first :: rest) lang) :
    phase.Suits document start [first] lang := by
  cases phase with
  | before => exact suits
  | within => exact fun node member => suits node (by
      cases List.mem_singleton.mp member
      exact List.mem_cons_self)
  | after => trivial

/-- What suits nodes suits the rest in the phase that the walk is in there. -/
theorem Phase.Suits.rest {first : Node} {rest : List Node} {phase : Phase} {ids : List Nat}
    (suits : phase.Suits document start (first :: rest) lang) :
    (phase.past start ids).Suits document start rest lang := by
  cases phase with
  | before =>
    rw [past_before]
    split
    · trivial
    · exact suits
  | within => exact fun node member => suits node (List.mem_cons_of_mem _ member)
  | after => trivial

/-- A walk through one element takes a node, passes it or skips it, as the phase tells in which it
comes to the node. If what it shows is right in each case, it is right, and the walk goes on in the
phase that follows. -/
theorem shows_of_phases {shows : Prop} {phase : Phase} {progress after : Progress}
    (ordered : document.Ordered) (through : walk.Through start) (isNode : node ∈ document.nodes)
    (isAt : progress.At phase) (notInside : phase = .within → start ∉ node.ids)
    (suits : phase.Suits document start [node] lang)
    (taken : (walk.enter progress node).At .within → InScope document node lang →
      start ∉ forestIds node.children →
      shows ∧ ∃ inside, inside.At .within ∧ after = walk.leave inside node)
    (passed : (walk.enter progress node).At .before →
      (walk.enter progress node).frame.command = .pass → lang = document.lang? start →
      shows ∧ ∃ inside, inside.At (Phase.before.past start (forestIds node.children)) ∧
        after = walk.leave inside node)
    (skipped : (walk.enter progress node).frame.command = .skip →
      shows ∧ after = walk.enter progress node) :
    shows ∧ after.At (phase.past start node.ids) := by
  cases phase with
  | before =>
    by_cases isStart : node.id = start
    · have notBelow : start ∉ forestIds node.children := fun inside =>
        Nat.lt_irrefl _ (isStart ▸ (Node.Ordered.of_mem ordered isNode).lt_of_mem inside)
      obtain ⟨shown, inside, within, rfl⟩ := taken (enter_start through.bounds isAt isStart)
        (Or.inr (suits.trans (congrArg document.lang? isStart.symm))) notBelow
      refine ⟨shown, ?_⟩
      rw [Phase.past_before, if_pos (isStart ▸ node.id_mem_ids)]
      exact leave_start through within isStart
    · obtain ⟨stays, command⟩ := enter_before through.bounds isAt isStart
      obtain ⟨shown, inside, last, rfl⟩ := passed stays command suits
      refine ⟨shown, ?_⟩
      rw [Phase.past_ids isStart]
      exact last.leave through.bounds fun _ => isStart
  | within =>
    have outside := notInside rfl
    rw [ids_eq, List.mem_cons, not_or] at outside
    obtain ⟨shown, inside, within, rfl⟩ := taken (enter_within isAt)
      (suits node List.mem_cons_self) outside.2
    exact ⟨shown, within.leave through.bounds fun _ isStart => outside.1 isStart.symm⟩
  | after =>
    obtain ⟨stays, skip⟩ := enter_after isAt
    obtain ⟨shown, rfl⟩ := skipped skip
    exact ⟨shown, stays⟩

section

variable (parsed : library.Parsed) (synced : library.Synced) (speaks : nested.Speaks library)
  (reads : library.document file = .ok document)

include parsed synced speaks reads

/-! ## 2. Extracting structure

Of a node that it takes, the walk shows a wrapper, a note or a copy, each with the stamp for the
language where the node stands; elsewhere it hands on what the children show. -/

/-- What a walk shows of a node that it takes can stand where the node does. -/
theorem lands_of_taken {progress after : Progress} {elements : List Element}
    (isNode : node ∈ document.nodes) (place : InScope document node lang)
    (within : (walk.enter progress node).At .within)
    (command : (walk.enter progress node).frame.command = .copy)
    (below : ∀ pieces inside, (externalForest library nested ⟨file, document⟩ walk
      (walk.enter progress node) node.children).result = .ok (pieces, inside) →
        (∀ piece ∈ pieces, ∀ shown ∈ piece.elements,
          Lands library file (document.lang? node.id) shown) ∧ inside.At .within)
    (step : ExternalStep library nested ⟨file, document⟩ walk progress node elements after) :
    (∀ element ∈ elements, Lands library file lang element) ∧
      ∃ inside, inside.At .within ∧ after = walk.leave inside node := by
  obtain ⟨role, element, found, rfl, rfl⟩ | ⟨role, note, found, rfl, rfl⟩ |
    ⟨role, applied, pieces, inside, found, kept, ran, rfl, rfl⟩ := step.of_copy command
  · refine ⟨fun element member => ?_, _, within, rfl⟩
    cases List.mem_singleton.mp member
    exact lands_of_transclude parsed speaks reads isNode place role found
  · refine ⟨fun element member => ?_, _, within, rfl⟩
    cases List.mem_singleton.mp member
    exact lands_of_replace parsed synced speaks reads isNode place found
  · obtain ⟨shown, stays⟩ := below _ _ ran
    refine ⟨fun element member => ?_, _, stays, rfl⟩
    cases List.mem_singleton.mp member
    exact ((voices_fill shown).annotated parsed synced speaks found).lands (parsed.ordered reads)
      reads isNode place

variable (through : walk.Through start) (extracts : walk.inRangeCommand = .copy)

include through extracts

/-- What a walk shows of a node lands where it suits the phase in which the walk comes to the node,
if what it shows of the node's children does. -/
theorem lands_of_externalStep {phase : Phase} {progress after : Progress} {elements : List Element}
    (isNode : node ∈ document.nodes) (isAt : progress.At phase)
    (notInside : phase = .within → start ∉ node.ids)
    (suits : phase.Suits document start [node] lang)
    (below : ∀ {phase : Phase} {progress after : Progress} {pieces : List Piece}
      {lang : Option String}, progress.At phase →
      (phase = .within → start ∉ forestIds node.children) →
      phase.Suits document start node.children lang →
      (externalForest library nested ⟨file, document⟩ walk progress node.children).result =
        .ok (pieces, after) →
      (∀ piece ∈ pieces, ∀ element ∈ piece.elements, Lands library file lang element) ∧
        after.At (phase.past start (forestIds node.children)))
    (step : ExternalStep library nested ⟨file, document⟩ walk progress node elements after) :
    (∀ element ∈ elements, Lands library file lang element) ∧
      after.At (phase.past start node.ids) := by
  have ordered := parsed.ordered reads
  refine shows_of_phases ordered through isNode isAt notInside suits
    (fun within place notBelow => ?_) (fun stays command same => ?_) fun skip => ?_
  · exact lands_of_taken parsed synced speaks reads isNode place within
      ((command_of_within within).trans extracts)
      (fun _ _ ran => @below .within _ _ _ _ within (fun _ => notBelow)
        (fun _ isChild => (inScope_of_child ordered isNode isChild).2) ran) step
  · obtain ⟨pieces, inside, ran, rfl, rfl⟩ := step.of_pass command
    obtain ⟨shown, last⟩ := @below .before _ _ _ _ stays (by simp) same ran
    exact ⟨forall_mem_passOn Lands.withTail shown, inside, last, rfl⟩
  · obtain ⟨rfl, rfl⟩ := step.of_skip skip
    exact ⟨fun element member => (by cases member), rfl⟩

-- in a mutual recursion the linter misses what only the other theorem uses
set_option linter.unusedSectionVars false

mutual

/-- What a walk through one element shows of a node fits the language at the element. -/
theorem lands_of_external : ∀ {node : Node} {phase : Phase} {progress after : Progress}
    {elements : List Element} {lang : Option String}, node ∈ document.nodes → progress.At phase →
    (phase = .within → start ∉ node.ids) → phase.Suits document start [node] lang →
    (external library nested ⟨file, document⟩ walk progress node).result = .ok (elements, after) →
    (∀ element ∈ elements, Lands library file lang element) ∧
      after.At (phase.past start node.ids)
  | ⟨_, _, _, _, _, _, _⟩, _, _, _, _, _, isNode, isAt, notInside, suits, h =>
    lands_of_externalStep parsed synced speaks reads through extracts isNode isAt notInside suits
      (lands_of_externalForest fun _ isChild =>
        (preorder_sublist isNode).subset (child_mem_preorder isChild))
      (externalStep_of_ok h)

/-- What a walk through one element shows of nodes fits the language at the element. -/
theorem lands_of_externalForest : ∀ {nodes : List Node}, (∀ child ∈ nodes, child ∈ document.nodes) →
    ∀ {phase : Phase} {progress after : Progress} {pieces : List Piece} {lang : Option String},
      progress.At phase → (phase = .within → start ∉ forestIds nodes) →
      phase.Suits document start nodes lang →
      (externalForest library nested ⟨file, document⟩ walk progress nodes).result =
        .ok (pieces, after) →
      (∀ piece ∈ pieces, ∀ element ∈ piece.elements, Lands library file lang element) ∧
        after.At (phase.past start (forestIds nodes))
  | [], _, phase, progress, after, pieces, lang, isAt, _, _, h => by
    obtain ⟨rfl, rfl⟩ := externalForest_nil h
    rw [forestIds_nil, Phase.past_nil]
    exact ⟨fun piece member => (by cases member), isAt⟩
  | first :: rest, inside, phase, progress, after, pieces, lang, isAt, notInside, suits, h => by
    obtain ⟨elements, between, others, found, below, rfl⟩ := externalForest_cons h
    rw [forestIds_cons, Phase.past_append]
    rw [forestIds_cons] at notInside
    obtain ⟨shown, isBetween⟩ := lands_of_external (inside first List.mem_cons_self) isAt
      (fun within member => notInside within (List.mem_append_left _ member)) suits.first found
    obtain ⟨shown', isAfter⟩ := lands_of_externalForest
      (fun child isChild => inside child (List.mem_cons_of_mem _ isChild)) isBetween
      (fun within member =>
        notInside (Phase.within_of_past within) (List.mem_append_right _ member))
      suits.rest below
    refine ⟨fun piece member => ?_, isAfter⟩
    rcases List.mem_cons.mp member with rfl | member
    · exact shown
    · exact shown' piece member

end

end

/-! ## 3. Extracting text

Text has no element around it to carry a language, so a container is put around the text of a node
that changes it. The language in scope is handed down with the walk. -/

/-- Items in another language land where their container does. -/
theorem lands_of_mem_inLang {changed : Option String} {items : List Item}
    (all : ∀ child, .element child ∈ items → Lands library file (changed <|> lang) child) :
    ∀ child, .element child ∈ inLang changed items → Lands library file lang child := by
  cases changed with
  | none => exact all
  | some own =>
    intro child member spoken _
    cases List.mem_singleton.mp member
    obtain ⟨made, unstamped⟩ := made_container (some own)
    have declares : (append (container (some own)) items).ownLang? = some own :=
      (ownLang?_congr (attributes_append ..)).trans (ownLang?_container _)
    refine @Spoken.element _ file file _ _ (fun _ => ?_)
      (.container (made.congr (name_append ..) (attributes_append ..)) (name_append ..)) ?_
    · rw [origin?_congr (attributes_append ..), unstamped]
      rfl
    · rw [declares]
      intro _ child isChild
      exact forall_children_append Lands.withTail (fun child none => by cases none) all child
        isChild _ (.refl _)

section

variable (parsed : library.Parsed) (synced : library.Synced) (speaks : nested.Speaks library)
  (reads : library.document file = .ok document)

include parsed synced speaks reads

/-- An instruction in extracted text can stand where it does in its document. -/
theorem lands_of_inlineInstruction (isNode : node ∈ document.nodes)
    (place : InScope document node lang) (role : Role.of node = .instruction)
    (h : (inlineInstruction library nested ⟨file, document⟩ node).result = .ok element) :
    Lands library file lang element := by
  obtain replaced | ⟨applied, copied, found, kept, copies, rfl⟩ := inlineInstruction_eq_ok.mp h
  · exact lands_of_replace parsed synced speaks reads isNode place replaced
  · obtain ⟨root, rfl, voices⟩ :=
      speaks.copy _ _ _ _ _ reads isNode (by rw [role]; decide) copies
    rw [stampForeign, if_pos rfl]
    exact (voices.annotated parsed synced speaks found).lands (parsed.ordered reads) reads isNode
      place

/-- What a walk shows of a node whose text it takes can stand where the node does. -/
theorem lands_of_takenText {progress after : Progress} {items : List Item}
    (isNode : node ∈ document.nodes) (place : InScope document node lang)
    (within : (walk.enter progress node).At .within)
    (command : (walk.enter progress node).frame.command = .copyText)
    (below : ∀ items inside, (inlineForest library nested ⟨file, document⟩ walk
      (document.lang? node.id) (walk.enter progress node) node.children).result =
        .ok (items, inside) →
      (∀ child, .element child ∈ items → Lands library file (document.lang? node.id) child) ∧
        inside.At .within)
    (step : InlineStep library nested ⟨file, document⟩ walk lang progress node items after) :
    (∀ child, .element child ∈ items → Lands library file lang child) ∧
      ∃ inside, inside.At .within ∧ after = walk.leave inside node := by
  have changed : (changedLang? node lang <|> lang) = document.lang? node.id :=
    (changedLang?_or node (.refl lang)).trans (place.declared (parsed.ordered reads) isNode)
  obtain ⟨role, element, found, rfl, rfl⟩ | ⟨role, note, found, rfl, rfl⟩ |
    ⟨-, applied, others, inside, found, ran, rfl, rfl⟩ := step.of_copyText command
  · refine ⟨fun child member => ?_, _, within, rfl⟩
    cases List.mem_singleton.mp member
    exact lands_of_transclude parsed speaks reads isNode place role found
  · refine ⟨fun child member => ?_, _, within, rfl⟩
    cases List.mem_singleton.mp member
    exact lands_of_inlineInstruction parsed synced speaks reads isNode place role found
  · rw [changed] at ran
    obtain ⟨shown, stays⟩ := below _ _ ran
    refine ⟨lands_of_mem_inLang fun child member => ?_, _, stays, rfl⟩
    rw [changed]
    rcases List.mem_append.mp member with member | member
    · obtain ⟨note, isNote, same⟩ := List.mem_map.mp member
      cases same
      exact lands_of_mem_notes parsed synced speaks found isNote
    · rcases List.mem_cons.mp member with same | member
      · cases same
      · exact shown child member

variable (through : walk.Through start) (extracts : walk.inRangeCommand = .copyText)

include through extracts

/-- What a walk that extracts text shows of a node lands where it suits the phase in which the walk
comes to the node, if what it shows of the node's children does. -/
theorem lands_of_inlineStep {phase : Phase} {progress after : Progress} {items : List Item}
    (isNode : node ∈ document.nodes) (isAt : progress.At phase)
    (notInside : phase = .within → start ∉ node.ids)
    (suits : phase.Suits document start [node] lang)
    (below : ∀ {phase : Phase} {progress after : Progress} {items : List Item}
      {lang : Option String}, progress.At phase →
      (phase = .within → start ∉ forestIds node.children) →
      phase.Suits document start node.children lang →
      (inlineForest library nested ⟨file, document⟩ walk lang progress node.children).result =
        .ok (items, after) →
      (∀ child, .element child ∈ items → Lands library file lang child) ∧
        after.At (phase.past start (forestIds node.children)))
    (step : InlineStep library nested ⟨file, document⟩ walk lang progress node items after) :
    (∀ child, .element child ∈ items → Lands library file lang child) ∧
      after.At (phase.past start node.ids) := by
  have ordered := parsed.ordered reads
  refine shows_of_phases ordered through isNode isAt notInside suits
    (fun within place notBelow => ?_) (fun stays command same => ?_) fun skip => ?_
  · exact lands_of_takenText parsed synced speaks reads isNode place within
      ((command_of_within within).trans extracts)
      (fun _ _ ran => @below .within _ _ _ _ within (fun _ => notBelow)
        (fun _ isChild => (inScope_of_child ordered isNode isChild).2) ran) step
  · obtain ⟨inside, ran, rfl⟩ := step.of_pass command
    obtain ⟨shown, last⟩ := @below .before _ _ _ _ stays (by simp) same ran
    exact ⟨shown, inside, last, rfl⟩
  · obtain ⟨rfl, rfl⟩ := step.of_skip skip
    exact ⟨fun child member => (by cases member), rfl⟩

-- in a mutual recursion the linter misses what only the other theorem uses
set_option linter.unusedSectionVars false

mutual

/-- What stays an element in the text of a node fits the language that the text is in. -/
theorem lands_of_inline : ∀ {node : Node} {phase : Phase} {progress after : Progress}
    {items : List Item} {lang : Option String}, node ∈ document.nodes → progress.At phase →
    (phase = .within → start ∉ node.ids) → phase.Suits document start [node] lang →
    (inline library nested ⟨file, document⟩ walk lang progress node).result = .ok (items, after) →
    (∀ child, .element child ∈ items → Lands library file lang child) ∧
      after.At (phase.past start node.ids)
  | ⟨_, _, _, _, _, _, _⟩, _, _, _, _, _, isNode, isAt, notInside, suits, h =>
    lands_of_inlineStep parsed synced speaks reads through extracts isNode isAt notInside suits
      (lands_of_inlineForest fun _ isChild =>
        (preorder_sublist isNode).subset (child_mem_preorder isChild))
      (inlineStep_of_ok h)

/-- What stays an element in the text of nodes fits the language that the text is in. -/
theorem lands_of_inlineForest : ∀ {nodes : List Node}, (∀ child ∈ nodes, child ∈ document.nodes) →
    ∀ {phase : Phase} {progress after : Progress} {items : List Item} {lang : Option String},
      progress.At phase → (phase = .within → start ∉ forestIds nodes) →
      phase.Suits document start nodes lang →
      (inlineForest library nested ⟨file, document⟩ walk lang progress nodes).result =
        .ok (items, after) →
      (∀ child, .element child ∈ items → Lands library file lang child) ∧
        after.At (phase.past start (forestIds nodes))
  | [], _, phase, progress, after, items, lang, isAt, _, _, h => by
    obtain ⟨rfl, rfl⟩ := inlineForest_nil h
    rw [forestIds_nil, Phase.past_nil]
    exact ⟨fun child member => (by cases member), isAt⟩
  | first :: rest, inside, phase, progress, after, items, lang, isAt, notInside, suits, h => by
    obtain ⟨shown, between, others, found, below, rfl⟩ := inlineForest_cons h
    rw [forestIds_cons, Phase.past_append]
    rw [forestIds_cons] at notInside
    obtain ⟨lands, isBetween⟩ := lands_of_inline (inside first List.mem_cons_self) isAt
      (fun within member => notInside within (List.mem_append_left _ member)) suits.first found
    obtain ⟨lands', isAfter⟩ := lands_of_inlineForest
      (fun child isChild => inside child (List.mem_cons_of_mem _ isChild)) isBetween
      (fun within member =>
        notInside (Phase.within_of_past within) (List.mem_append_right _ member))
      suits.rest below
    refine ⟨fun child member => ?_, isAfter⟩
    rcases List.mem_append.mp member with member | member
    · rcases List.mem_append.mp member with member | member
      · exact lands child member
      · exact absurd member (element_notMem_tailItems between first child)
    · exact lands' child member

end

end

end Intertext.Compile
