import Intertext.Proofs.Compile.Pieces
import Intertext.Proofs.Compile.Pruning
import Intertext.Proofs.Compile.Tailless
/-!
What an extraction of structure shows.

A walk that extracts structure shows the pruning of the range within what it reaches
(`shown_of_external`): by induction on the tree, with the flags of the walk told by the edges
passed so far. Whatever takes the place of a node hides what is in the node, and if the stop is
hidden the range runs on to the end of the document.
-/

namespace Intertext.Compile

open Markup (Element Node Document Edge)
open Markup.Node

/-! ## 1. What takes the place of nodes

A directive and an instruction that asks for another note are replaced, and the walk does not go
into them. For all else the walk takes the way of a visit that knows which nodes are hidden. -/

variable {library : Library} {nested : Nested} {site : Site}

/-- What takes the place of a node when structure is extracted. -/
def externalReplacement? (library : Library) (nested : Nested) (site : Site) (node : Node) :
    Option Element :=
  if Role.of node = .directive then (transclude library nested site node (.of node)).result.toOption
  else
    match (annotate library nested site node).result with
    | .ok (.replace note) => some note
    | _ => none

/-- Whether something takes the place of a node when structure is extracted. -/
def externalHides (library : Library) (nested : Nested) (site : Site) (node : Node) : Bool :=
  (externalReplacement? library nested site node).isSome

/-- A directive is replaced by its wrapper. -/
theorem externalReplacement?_of_directive {node : Node} {element : Element}
    (role : Role.of node = .directive)
    (found : (transclude library nested site node (.of node)).result = .ok element) :
    externalReplacement? library nested site node = some element := by
  rw [externalReplacement?, if_pos role, found]
  rfl

/-- An instruction is replaced by the note that it asks for. -/
theorem externalReplacement?_of_replaced {node : Node} {note : Element}
    (role : Role.of node ≠ .directive)
    (found : (annotate library nested site node).result = .ok (.replace note)) :
    externalReplacement? library nested site node = some note := by
  rw [externalReplacement?, if_neg role, found]

/-- What is annotated and kept is not replaced. -/
theorem externalReplacement?_of_kept {node : Node} {applied : Annotation}
    (role : Role.of node ≠ .directive)
    (found : (annotate library nested site node).result = .ok applied)
    (kept : ∀ note, applied ≠ .replace note) :
    externalReplacement? library nested site node = none := by
  rw [externalReplacement?, if_neg role, found]
  cases applied with
  | replace note => exact absurd rfl (kept note)
  | _ => rfl

variable {walk : Walk}

mutual

/-- A walk that extracts structure takes the way that is left by what takes the place of nodes. -/
theorem visit_of_external (extraction : walk.extraction = .external) :
    ∀ {node : Node} {progress after : Progress} {elements : List Element},
      (external library nested site walk progress node).result = .ok (elements, after) →
        visit walk (externalHides library nested site) progress node = after
  | ⟨own, path, name, attributes, text, children, tail⟩, progress, after, elements, h => by
    have taken : walk.inRangeCommand = .copy := by rw [Walk.inRangeCommand, extraction]
    rw [visit_eq, taken]
    -- a visit goes into the nodes that are neither skipped nor replaced, and so does the walk
    cases externalStep_of_ok h with
    | skipped command => rw [if_pos command]
    | directive command role found =>
      rw [command, if_neg (by decide), if_pos]
      rw [externalHides, externalReplacement?_of_directive role found]
      exact ⟨rfl, rfl⟩
    | replaced command role found =>
      rw [command, if_neg (by decide), if_pos]
      rw [externalHides, externalReplacement?_of_replaced role found]
      exact ⟨rfl, rfl⟩
    | copied command role found kept below =>
      rw [command, if_neg (by decide), if_neg, visitForest_of_externalForest extraction below]
      rw [externalHides, externalReplacement?_of_kept role found kept]
      simp
    | tag command below =>
      rw [command, if_neg (by decide), if_neg (by simp),
        visitForest_of_externalForest extraction below]
    | passed command below =>
      rcases command with command | command <;>
        rw [command, if_neg (by decide), if_neg (by simp),
          visitForest_of_externalForest extraction below]

/-- A walk that extracts structure leads through nodes as a visit does. -/
theorem visitForest_of_externalForest (extraction : walk.extraction = .external) :
    ∀ {nodes : List Node} {progress after : Progress} {pieces : List Piece},
      (externalForest library nested site walk progress nodes).result = .ok (pieces, after) →
        visitForest walk (externalHides library nested site) progress nodes = after
  | [], progress, after, pieces, h => (externalForest_nil h).2.symm
  | first :: rest, progress, after, pieces, h => by
    obtain ⟨elements, between, others, found, below, -⟩ := externalForest_cons h
    rw [visitForest, visit_of_external extraction found,
      visitForest_of_externalForest extraction below]

end

/-! ## 2. The walk shows the pruning

Where a walk stands at a node, the edges it has passed say whether the node is skipped, taken, shown
as a tag or passed. There is one lemma for each of these, and the induction puts them together. -/

/-- The pruning that an extraction of structure comes to: the range within what the walk reaches,
with what takes the place of nodes and the inserted notes. -/
def externalPruning (library : Library) (nested : Nested) (site : Site) (bounds : Bounds) :
    Pruning :=
  { Pruning.within site.document bounds
      (reached site.document bounds (externalHides library nested site)) with
    replacement? := externalReplacement? library nested site
    notes := insertedNotes library nested site }

section

variable {bounds : Bounds} {passed rest : List Edge} {progress after : Progress} {node : Node}

/-- Whether a walk has shown the pruning of a node, when its tail is put after that. -/
def ShowsPruning (library : Library) (nested : Nested) (site : Site) (bounds : Bounds)
    (node : Node) (elements : List Element) (after : Progress) : Prop :=
  (⟨elements, tailInRange after node⟩ : Piece).Rooted ∧
    extendLast elements (tailInRange after node) =
      (externalPruning library nested site bounds).shown node

section Nodes

-- a range in what a walk reaches, a node on the way, and where the walk stands behind the node
variable (ordered : site.document.Ordered) (located : Located site.document bounds)
  (spans : Spans site.document bounds
    (reached site.document bounds (externalHides library nested site)))
  (stop : bounds.stop ∈ (reached site.document bounds (externalHides library nested site)).ids)
  (place : AtNode site.document bounds (externalHides library nested site) passed rest node)
  (left : Standing site.document bounds .external
    (passed ++ (node.trim (hidden bounds (externalHides library nested site))).edges) after)

include spans place left in
/-- The part of a tail that a walk shows is the tail where the pruning keeps it. -/
theorem tailInRange_eq :
    tailInRange after node = (externalPruning library nested site bounds).tailOf node := by
  have keeps : (externalPruning library nested site bounds).tail node =
      (Stretch.of site.document bounds).isOpen
        (passed ++ (node.trim (hidden bounds (externalHides library nested site))).edges) :=
    tail_within spans place
  rw [tailInRange, left.inRange, Pruning.tailOf, keeps]

include ordered spans place in
/-- A walk that skips a node has shown its pruning, which is nothing. -/
theorem shown_of_skipped
    (entered : Standing site.document bounds .external (passed ++ [.opening node.id]) after)
    (hasEnded : (Stretch.of site.document bounds).isOver (passed ++ [.opening node.id]) = true) :
    ShowsPruning library nested site bounds node [] after := by
  have noTail : tailInRange after node = "" := by
    rw [tailInRange, Frame.inRange, entered.after, hasEnded]
    simp
  have nothing : (externalPruning library nested site bounds).shown node = [] := by
    refine Pruning.shown_eq_nil ?_
    intro inner member
    have none := within_of_isOver ordered spans place hasEnded member
    exact ⟨none.1, none.2.2⟩
  rw [ShowsPruning, noTail, nothing]
  exact ⟨fun tail => absurd rfl tail, rfl⟩

include spans place left in
/-- Where something takes the place of a node in range, it is what the pruning shows. -/
theorem shown_of_replacement
    (isOpen : (Stretch.of site.document bounds).isOpen (passed ++ [.opening node.id]) = true)
    {element : Element}
    (replaced : externalReplacement? library nested site node = some element) :
    ShowsPruning library nested site bounds node [element] after := by
  have whole : (externalPruning library nested site bounds).whole node = true :=
    (whole_within spans place).trans isOpen
  have shows : (externalPruning library nested site bounds).replacement? node = some element :=
    replaced
  refine ⟨fun _ => List.cons_ne_nil _ _, ?_⟩
  rw [tailInRange_eq spans place left, Pruning.shown_eq, if_pos whole, extendLast_singleton,
    shows]

include spans place left in
/-- A copy of a node in range that is filled with the prunings of the children is the pruning of
the node. -/
theorem shown_of_copied
    (isOpen : (Stretch.of site.document bounds).isOpen (passed ++ [.opening node.id]) = true)
    {applied : Annotation} {pieces : List Piece}
    (found : (annotate library nested site node).result = .ok applied)
    (kept : externalReplacement? library nested site node = none)
    (rooted : ∀ piece ∈ pieces, piece.Rooted)
    (children : pieces.flatMap Piece.shown =
      (externalPruning library nested site bounds).forestShown node.children) :
    ShowsPruning library nested site bounds node
      [insertNotes applied.notes (fill { node.shell with text := node.text } pieces)] after := by
  have whole : (externalPruning library nested site bounds).whole node = true :=
    (whole_within spans place).trans isOpen
  have shows : (externalPruning library nested site bounds).replacement? node = none := kept
  have notes : (externalPruning library nested site bounds).notes node = applied.notes := by
    show insertedNotes library nested site node = _
    rw [insertedNotes, found]
  refine ⟨fun _ => List.cons_ne_nil _ _, ?_⟩
  rw [tailInRange_eq spans place left, Pruning.shown_eq, if_pos whole, extendLast_singleton,
    fill_eq _ rooted, children, shows, notes, tail_insertNotes]
  simp [Node.shell]

include ordered located spans place in
/-- What a walk leads through comes before the range and is not hidden, and it is commanded as a
shell if it leads to the start. -/
theorem lead_of_external {command : Command}
    (told : command =
      Stretch.command site.document bounds .external (passed ++ [.opening node.id]) node)
    (noSkip : command ≠ .skip) (noCopy : command ≠ .copy) :
    (externalPruning library nested site bounds).whole node = false ∧
      hidden bounds (externalHides library nested site) node = false ∧
      command = if bounds.isShell site.document node then .copyTag else .pass := by
  subst told
  obtain ⟨notOver, notBegun⟩ := Stretch.before_of_lead noSkip noCopy
  have whole : (externalPruning library nested site bounds).whole node =
      (Stretch.of site.document bounds).isOpen (passed ++ [.opening node.id]) :=
    whole_within spans place
  refine ⟨?_, spans.not_hidden place.opening notBegun,
    command_before ordered located spans place notOver notBegun⟩
  rw [whole, Stretch.isOpen, notBegun, Bool.false_and]

include spans place left in
/-- A shell that is filled with the prunings of the children is the pruning of a node that leads to
the start. -/
theorem shown_of_shell
    (notWhole : (externalPruning library nested site bounds).whole node = false)
    (shell : bounds.isShell site.document node = true) {pieces : List Piece}
    (rooted : ∀ piece ∈ pieces, piece.Rooted)
    (children : pieces.flatMap Piece.shown =
      (externalPruning library nested site bounds).forestShown node.children) :
    ShowsPruning library nested site bounds node [fill node.shell pieces] after := by
  have shows : (externalPruning library nested site bounds).shell node = true := shell
  refine ⟨fun _ => List.cons_ne_nil _ _, ?_⟩
  rw [tailInRange_eq spans place left, Pruning.shown_eq, if_neg (by simp [notWhole]),
    if_pos shows, extendLast_singleton, fill_eq _ rooted, children]
  simp [Node.shell]

include ordered located spans stop place in
/-- A node that is neither shown whole nor as a shell loses its tail. -/
theorem tailOf_eq_empty
    (notWhole : (externalPruning library nested site bounds).whole node = false)
    (noShell : bounds.isShell site.document node = false) :
    (externalPruning library nested site bounds).tailOf node = "" := by
  rw [Pruning.tailOf, if_neg]
  -- a node that ends in range has begun there, or leads to the start and is a shell
  intro ends
  rcases isOpen_or_isShell ordered located spans stop place
    ((tail_within spans place).symm.trans ends) with isOpen | shell
  · have whole := (whole_within spans place).trans isOpen
    exact absurd whole (Bool.eq_false_iff.mp notWhole)
  · rw [noShell] at shell
    cases shell

include ordered located spans stop place left in
/-- The prunings of the children of a node that is not shown are its pruning. -/
theorem shown_of_passed
    (notWhole : (externalPruning library nested site bounds).whole node = false)
    (noShell : bounds.isShell site.document node = false) {pieces : List Piece}
    (rooted : ∀ piece ∈ pieces, piece.Rooted)
    (children : pieces.flatMap Piece.shown =
      (externalPruning library nested site bounds).forestShown node.children) :
    ShowsPruning library nested site bounds node (passOn pieces) after := by
  have noTail : tailInRange after node = "" := by
    rw [tailInRange_eq spans place left,
      tailOf_eq_empty ordered located spans stop place notWhole noShell]
  have hides : (externalPruning library nested site bounds).shell node = false := noShell
  rw [ShowsPruning, noTail, Pruning.shown_eq, if_neg (by simp [notWhole]),
    if_neg (by simp [hides]), extendLast_empty, passOn_eq rooted, children]
  exact ⟨fun tail => absurd rfl tail, rfl⟩

include ordered located spans stop place left in
/-- What a walk that extracts structure shows of a node, if it shows the pruning of its children. -/
theorem shown_of_external_of_children
    (standing : Standing site.document bounds .external passed progress)
    (below : hidden bounds (externalHides library nested site) node = false →
      ∀ {inside : Progress} {pieces : List Piece},
        (externalForest library nested site (.within site.document bounds .external)
          ((Walk.within site.document bounds .external).enter progress node)
          node.children).result = .ok (pieces, inside) →
        (∀ piece ∈ pieces, piece.Rooted) ∧ pieces.flatMap Piece.shown =
          (externalPruning library nested site bounds).forestShown node.children)
    {elements : List Element}
    (step : ExternalStep library nested site (.within site.document bounds .external) progress node
      elements after) :
    ShowsPruning library nested site bounds node elements after := by
  have told := place.command_enter ordered spans standing
  -- the step says what was done, and where the walk stands why it was done
  cases step with
  | skipped command =>
    exact shown_of_skipped ordered spans place (place.standing_enter ordered spans standing)
      (Stretch.isOver_of_skip (told.symm.trans command))
  | directive command role found =>
    exact shown_of_replacement spans place left
      (Stretch.isOpen_of_inRange (told.symm.trans command))
      (externalReplacement?_of_directive role found)
  | replaced command role found =>
    exact shown_of_replacement spans place left
      (Stretch.isOpen_of_inRange (told.symm.trans command))
      (externalReplacement?_of_replaced role found)
  | copied command role found kept forest =>
    have keeps := externalReplacement?_of_kept role found kept
    have shown : hidden bounds (externalHides library nested site) node = false := by
      rw [hidden, externalHides, keeps]
      exact Bool.and_false _
    obtain ⟨rooted, children⟩ := below shown forest
    exact shown_of_copied spans place left (Stretch.isOpen_of_inRange (told.symm.trans command))
      found keeps rooted children
  -- only what leads to the start is shown as a bare tag
  | tag command forest =>
    obtain ⟨notWhole, shown, led⟩ := lead_of_external ordered located spans place told
      (by simp [command]) (by simp [command])
    obtain ⟨rooted, children⟩ := below shown forest
    have shell : bounds.isShell site.document node = true := by
      by_contra noShell
      rw [command, if_neg noShell] at led
      cases led
    exact shown_of_shell spans place left notWhole shell rooted children
  | passed command forest =>
    have noCopy : ((Walk.within site.document bounds .external).enter progress
        node).frame.command ≠ .copy := by
      rcases command with command | command <;> simp [command]
    have noSkip : ((Walk.within site.document bounds .external).enter progress
        node).frame.command ≠ .skip := by
      rcases command with command | command <;> simp [command]
    obtain ⟨notWhole, shown, led⟩ :=
      lead_of_external ordered located spans place told noSkip noCopy
    obtain ⟨rooted, children⟩ := below shown forest
    have noShell : bounds.isShell site.document node = false := by
      refine Bool.eq_false_iff.mpr ?_
      intro shell
      rw [if_pos shell] at led
      rcases command with command | command <;> rw [command] at led <;> cases led
    exact shown_of_passed ordered located spans stop place left notWhole noShell rooted children

end Nodes

mutual

/-- What a walk that extracts structure shows of a node, with its tail, is the pruning of the
node. -/
theorem shown_of_external (ordered : site.document.Ordered)
    (located : Located site.document bounds)
    (stop : bounds.stop ∈
      (reached site.document bounds (externalHides library nested site)).ids) :
    ∀ {node : Node} {passed rest : List Edge} {progress after : Progress} {elements : List Element},
      AtNode site.document bounds (externalHides library nested site) passed rest node →
      Standing site.document bounds .external passed progress →
      (external library nested site (.within site.document bounds .external) progress
        node).result = .ok (elements, after) →
      ShowsPruning library nested site bounds node elements after
  | ⟨_, _, _, _, _, _, _⟩, _, _, _, _, _, place, standing, ran => by
    have spans := spans_reached (externalHides library nested site) ordered located
    have left := standing_visit ordered spans place standing
    rw [visit_of_external rfl ran] at left
    refine shown_of_external_of_children ordered located spans stop place left standing ?_
      (externalStep_of_ok ran)
    intro shown inside pieces forest
    exact shown_of_externalForest ordered located stop (place.children shown)
      (place.standing_enter ordered spans standing) forest

/-- A walk shows of nodes what the pruning shows of them. -/
theorem shown_of_externalForest (ordered : site.document.Ordered)
    (located : Located site.document bounds)
    (stop : bounds.stop ∈
      (reached site.document bounds (externalHides library nested site)).ids) :
    ∀ {nodes : List Node} {passed rest : List Edge} {progress after : Progress}
        {pieces : List Piece},
      AtForest site.document bounds (externalHides library nested site) passed rest nodes →
      Standing site.document bounds .external passed progress →
      (externalForest library nested site (.within site.document bounds .external) progress
        nodes).result = .ok (pieces, after) →
      (∀ piece ∈ pieces, piece.Rooted) ∧ pieces.flatMap Piece.shown =
        (externalPruning library nested site bounds).forestShown nodes
  | [], _, _, _, _, _, _, _, ran => by
    obtain ⟨rfl, -⟩ := externalForest_nil ran
    exact ⟨fun piece member => absurd member List.not_mem_nil, rfl⟩
  | first :: others, passed, rest, progress, after, pieces, place, standing, ran => by
    obtain ⟨elements, between, more, found, below, rfl⟩ := externalForest_cons ran
    have spans := spans_reached (externalHides library nested site) ordered located
    have left := standing_visit ordered spans place.first standing
    rw [visit_of_external rfl found] at left
    obtain ⟨rooted, shown⟩ := shown_of_external ordered located stop place.first standing found
    -- the others are walked from where the first node is left
    obtain ⟨areRooted, areShown⟩ :=
      shown_of_externalForest ordered located stop place.others left below
    refine ⟨?_, ?_⟩
    · intro piece member
      rcases List.mem_cons.mp member with rfl | member
      · exact rooted
      · exact areRooted piece member
    · rw [List.flatMap_cons, areShown, Piece.shown, shown, Pruning.forestShown]

end

/-- A walk that extracts structure from a document and gets to the end of its range shows the
pruning of the document. -/
theorem shown_of_external_root (ordered : site.document.Ordered)
    (located : Located site.document bounds) {file : SourceFile} {startMarker stopMarker : String}
    {elements : List Element}
    (ran : (external library nested site (.within site.document bounds .external)
      (Walk.start file startMarker stopMarker) site.document.root).result = .ok (elements, after)) :
    after.frame.beforeStart = false ∧
      (after.frame.afterEnd = true ↔
        bounds.stop ∈ (reached site.document bounds (externalHides library nested site)).ids) ∧
      (after.frame.afterEnd = true →
        elements = (externalPruning library nested site bounds).shown site.document.root) := by
  have flags := flags_of_visit .external ordered located
    (externalHides library nested site) file startMarker stopMarker
  rw [visit_of_external rfl ran] at flags
  refine ⟨flags.1, flags.2, ?_⟩
  intro hasEnded
  obtain ⟨-, shown⟩ := shown_of_external ordered located (flags.2.mp hasEnded) (atNode_root ..)
    (Standing.start .external file startMarker stopMarker) ran
  -- the range is over when the root is left, so nothing is added to its tail
  rw [← shown, tailInRange, Frame.inRange, hasEnded, if_neg (by simp), extendLast_empty]

end

end Intertext.Compile
