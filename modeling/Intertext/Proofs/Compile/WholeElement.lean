import Intertext.Proofs.Compile.OneElement
import Intertext.Proofs.Compile.Pieces
import Intertext.Proofs.Compile.Stamps
import Intertext.Proofs.Compile.Tailless
/-!
Extracting one element.

Between a marker and itself lies one element, and a walk that extracts its structure shows a copy of
it and nothing else (`external_element`): it shows nothing on the way to the element, copies what is
in it, and skips the rest. So a directive for one marker is replaced by a wrapper around one copy
(`children_of_transclude`).
-/

namespace Intertext.Compile

open Markup (Element Node Document)
open Markup.Node

variable {library : Library} {nested : Nested} {site : Site} {walk : Walk} {start : Nat}
  {progress after : Progress}

/-! ## 1. In the element

In the element everything is in range, and nothing in it is the stop. So a walk copies node by node,
as copying does. -/

/-- What a walk shows of a node that it takes is a copy, if what it shows of the children is. -/
theorem copy_of_taken {node : Node} {elements : List Element}
    (extracts : walk.inRangeCommand = .copy) (within : (walk.enter progress node).At .within)
    (below : ∀ pieces inside, (externalForest library nested site walk (walk.enter progress node)
      node.children).result = .ok (pieces, inside) →
        inside.At .within ∧ (∀ piece ∈ pieces, piece.Rooted) ∧
          (copyForest library nested site node.children).result =
            .ok (pieces.flatMap Piece.shown))
    (h : (external library nested site walk progress node).result = .ok (elements, after)) :
    ∃ inside element, inside.At .within ∧ after = walk.leave inside node ∧ elements = [element] ∧
      (copy library nested site node).result = .ok element := by
  have taken := (command_of_within within).trans extracts
  obtain ⟨role, element, found, rfl, rfl⟩ | ⟨role, note, found, rfl, rfl⟩ |
    ⟨role, applied, pieces, inside, found, kept, ran, rfl, rfl⟩ :=
      (externalStep_of_ok h).of_copy taken
  · exact ⟨_, _, within, rfl, rfl, copyStep_iff.mpr (.directive role found)⟩
  · exact ⟨_, _, within, rfl, rfl, copyStep_iff.mpr (.replaced role found)⟩
  · obtain ⟨stays, rooted, copies⟩ := below _ _ ran
    refine ⟨_, _, stays, rfl, rfl, ?_⟩
    rw [fill_eq _ rooted]
    exact copyStep_iff.mpr (.copied role found kept copies)

mutual

/-- In the element a walk shows copies. -/
theorem copy_of_within (tailless : nested.Tailless) (bounds : walk.bounds = ⟨start, start, start⟩)
    (extracts : walk.inRangeCommand = .copy) :
    ∀ {node : Node} {progress after : Progress} {elements : List Element}, start ∉ node.ids →
      progress.At .within →
      (external library nested site walk progress node).result = .ok (elements, after) →
      after.At .within ∧ ∃ element, elements = [element] ∧
        (copy library nested site node).result = .ok element
  | ⟨own, path, name, attributes, text, children, tail⟩, progress, after, elements, outside, isAt,
      h => by
    rw [ids_eq, List.mem_cons, not_or] at outside
    obtain ⟨inside, element, stays, rfl, rfl, copied⟩ := copy_of_taken extracts (enter_within isAt)
      (fun pieces inside ran => copyForest_of_within tailless bounds extracts outside.2
        (enter_within isAt) ran) h
    exact ⟨stays.leave bounds fun _ isStart => outside.1 isStart.symm, element, rfl, copied⟩

/-- What a walk shows of nodes inside the element is copies of them. -/
theorem copyForest_of_within (tailless : nested.Tailless)
    (bounds : walk.bounds = ⟨start, start, start⟩) (extracts : walk.inRangeCommand = .copy) :
    ∀ {nodes : List Node} {progress after : Progress} {pieces : List Piece},
      start ∉ forestIds nodes → progress.At .within →
      (externalForest library nested site walk progress nodes).result = .ok (pieces, after) →
      after.At .within ∧ (∀ piece ∈ pieces, piece.Rooted) ∧
        (copyForest library nested site nodes).result = .ok (pieces.flatMap Piece.shown)
  | [], progress, after, pieces, _, isAt, h => by
    obtain ⟨rfl, rfl⟩ := externalForest_nil h
    exact ⟨isAt, fun piece member => (List.not_mem_nil member).elim, rfl⟩
  | first :: rest, progress, after, pieces, outside, isAt, h => by
    rw [forestIds_cons, List.mem_append, not_or] at outside
    obtain ⟨elements, between, others, found, below, rfl⟩ := externalForest_cons h
    obtain ⟨isBetween, element, rfl, copied⟩ :=
      copy_of_within tailless bounds extracts outside.1 isAt found
    obtain ⟨isAfter, rooted, copies⟩ :=
      copyForest_of_within tailless bounds extracts outside.2 isBetween below
    have inRange : between.frame.inRange = true := by
      rw [Frame.inRange, isBetween.1, isBetween.2.1]
      rfl
    refine ⟨isAfter, List.forall_mem_cons.mpr ⟨fun _ => List.cons_ne_nil _ _, rooted⟩, ?_⟩
    refine copyForest_cons_iff.mpr ⟨element, _, copied, copies, ?_⟩
    rw [List.flatMap_cons, Piece.shown, extendLast_singleton, tailInRange, if_pos inRange,
      tail_copy tailless copied, String.empty_append]
    rfl

end

/-! ## 2. Around the element

Outside, the walk shows nothing of a node but the copy of the element if that is below it, and it
adds no text. What is shown does not change on the way up. -/

/-- Outside of the element no tail is in range. -/
theorem tailInRange_of_outside {phase : Phase} (isAt : progress.At phase)
    (outside : phase ≠ .within) (node : Node) : tailInRange progress node = "" := by
  rw [tailInRange, if_neg]
  cases phase with
  | before => simp [Frame.inRange, isAt.1]
  | within => exact absurd rfl outside
  | after => simp [Frame.inRange, show progress.frame.afterEnd = true from isAt]

/-- What a walk has shown outside of the element: nothing before it, a copy of it after it. -/
def Phase.Shown (library : Library) (nested : Nested) (site : Site) (start : Nat)
    (nodes : List Node) : Phase → List Element → Prop
  | .before, elements => elements = []
  | .within, _ => False
  | .after, elements => ∃ node ∈ nodes, node.id = start ∧ ∃ element, elements = [element] ∧
      (copy library nested site node).result = .ok element

/-- What is shown of some nodes is shown of more. -/
theorem Phase.Shown.mono {nodes more : List Node} {phase : Phase} {elements : List Element}
    (shown : phase.Shown library nested site start nodes elements) (inside : nodes ⊆ more) :
    phase.Shown library nested site start more elements := by
  cases phase with
  | before => exact shown
  | within => exact shown
  | after =>
    obtain ⟨node, isNode, copied⟩ := shown
    exact ⟨node, inside isNode, copied⟩

/-- Past the element a walk shows nothing. -/
theorem externalForest_of_after : ∀ {nodes : List Node} {progress after : Progress}
    {pieces : List Piece}, progress.At .after →
    (externalForest library nested site walk progress nodes).result = .ok (pieces, after) →
    after.At .after ∧ (∀ piece ∈ pieces, piece.Rooted) ∧ pieces.flatMap Piece.shown = []
  | [], progress, after, pieces, isAt, h => by
    obtain ⟨rfl, rfl⟩ := externalForest_nil h
    exact ⟨isAt, fun piece member => (List.not_mem_nil member).elim, rfl⟩
  | first :: rest, progress, after, pieces, isAt, h => by
    obtain ⟨elements, between, others, found, below, rfl⟩ := externalForest_cons h
    obtain ⟨isBetween, skip⟩ : (walk.enter progress first).At .after ∧
        (walk.enter progress first).frame.command = .skip := enter_after isAt
    obtain ⟨rfl, rfl⟩ := (externalStep_of_ok found).of_skip skip
    obtain ⟨isAfter, rooted, nothing⟩ := externalForest_of_after isBetween below
    have noTail := tailInRange_of_outside isBetween (by decide) first
    refine ⟨isAfter, List.forall_mem_cons.mpr ⟨fun tail => absurd noTail tail, rooted⟩, ?_⟩
    rw [List.flatMap_cons, nothing, Piece.shown, extendLast_nil, List.append_nil]

/-- Before the element a walk shows of a node what it shows of the children, unless the node is the
element. -/
theorem shown_of_beforeStep {node : Node} {elements : List Element} (tailless : nested.Tailless)
    (through : walk.Through start) (extracts : walk.inRangeCommand = .copy)
    (ordered : node.Ordered) (isAt : progress.At .before)
    (below : ∀ {progress after : Progress} {pieces : List Piece}, progress.At .before →
      (externalForest library nested site walk progress node.children).result =
        .ok (pieces, after) →
      after.At (Phase.before.past start (forestIds node.children)) ∧
        (∀ piece ∈ pieces, piece.Rooted) ∧
        (Phase.before.past start (forestIds node.children)).Shown library nested site start
          (forestPreorder node.children) (pieces.flatMap Piece.shown))
    (h : (external library nested site walk progress node).result = .ok (elements, after)) :
    after.At (Phase.before.past start node.ids) ∧
      (Phase.before.past start node.ids).Shown library nested site start node.preorder
        elements := by
  by_cases isStart : node.id = start
  · have outside : start ∉ forestIds node.children := fun inside =>
      Nat.lt_irrefl _ (isStart ▸ ordered.lt_of_mem inside)
    have within : (walk.enter progress node).At .within := enter_start through.bounds isAt isStart
    obtain ⟨inside, element, stays, rfl, rfl, copied⟩ := copy_of_taken extracts within
      (fun pieces inside ran =>
        copyForest_of_within tailless through.bounds extracts outside within ran) h
    rw [Phase.past_before, if_pos (isStart ▸ id_mem_ids node)]
    exact ⟨leave_start through stays isStart, node, mem_preorder_self node, isStart, element, rfl,
      copied⟩
  · obtain ⟨stays, pass⟩ := enter_before through.bounds isAt isStart
    obtain ⟨pieces, inside, ran, rfl, rfl⟩ := (externalStep_of_ok h).of_pass pass
    obtain ⟨last, rooted, shown⟩ := below stays ran
    rw [Phase.past_ids isStart, passOn_eq rooted]
    refine ⟨last.leave through.bounds fun _ => isStart, shown.mono ?_⟩
    rw [preorder_eq]
    exact List.subset_cons_self ..

mutual

/-- On the way to the element a walk shows nothing, and of a node that has the element in it, a copy
of the element. -/
theorem shown_of_before (tailless : nested.Tailless) (through : walk.Through start)
    (extracts : walk.inRangeCommand = .copy) :
    ∀ {node : Node} {progress after : Progress} {elements : List Element}, node.Ordered →
      progress.At .before →
      (external library nested site walk progress node).result = .ok (elements, after) →
      after.At (Phase.before.past start node.ids) ∧
        (Phase.before.past start node.ids).Shown library nested site start node.preorder elements
  | ⟨_, _, _, _, _, _, _⟩, _, _, _, ordered, isAt, h =>
    shown_of_beforeStep tailless through extracts ordered isAt
      (shownForest_of_before tailless through extracts ordered.children) h

/-- Of nodes before which it has shown nothing, a walk shows the copy of the element if it is among
them or below. -/
theorem shownForest_of_before (tailless : nested.Tailless) (through : walk.Through start)
    (extracts : walk.inRangeCommand = .copy) :
    ∀ {nodes : List Node} {progress after : Progress} {pieces : List Piece}, ForestOrdered nodes →
      progress.At .before →
      (externalForest library nested site walk progress nodes).result = .ok (pieces, after) →
      after.At (Phase.before.past start (forestIds nodes)) ∧ (∀ piece ∈ pieces, piece.Rooted) ∧
        (Phase.before.past start (forestIds nodes)).Shown library nested site start
          (forestPreorder nodes) (pieces.flatMap Piece.shown)
  | [], progress, after, pieces, _, isAt, h => by
    obtain ⟨rfl, rfl⟩ := externalForest_nil h
    rw [forestIds_nil, Phase.past_nil]
    exact ⟨isAt, fun piece member => (List.not_mem_nil member).elim, rfl⟩
  | first :: rest, progress, after, pieces, ordered, isAt, h => by
    obtain ⟨elements, between, others, found, below, rfl⟩ := externalForest_cons h
    obtain ⟨isBetween, shown⟩ := shown_of_before tailless through extracts ordered.first isAt found
    rw [forestIds_cons, Phase.past_append]
    have noTail : tailInRange between first = "" := by
      refine tailInRange_of_outside isBetween ?_ first
      rw [Phase.past_before]
      split <;> decide
    have isRooted : Piece.Rooted ⟨elements, ""⟩ := fun tail => absurd rfl tail
    rw [noTail, List.flatMap_cons, Piece.shown, extendLast_empty]
    rw [Phase.past_before] at isBetween shown ⊢
    split at isBetween
    · rename_i inFirst
      rw [if_pos inFirst] at shown ⊢
      obtain ⟨isAfter, rooted, nothing⟩ := externalForest_of_after isBetween below
      rw [nothing, List.append_nil]
      exact ⟨isAfter, List.forall_mem_cons.mpr ⟨isRooted, rooted⟩,
        Phase.Shown.mono shown (List.subset_append_left _ _)⟩
    · rename_i outside
      rw [if_neg outside] at shown ⊢
      obtain ⟨isAfter, rooted, shown'⟩ :=
        shownForest_of_before tailless through extracts ordered.rest isBetween below
      cases show elements = [] from shown
      exact ⟨isAfter, List.forall_mem_cons.mpr ⟨isRooted, rooted⟩,
        shown'.mono (List.subset_append_right _ _)⟩

end

/-! ## 3. Directives for one marker -/

variable {file : SourceFile} {document : Document} {marker : String} {node : Node}

/-- A marker bounds the node that it names. -/
theorem locate_of_findMarker? (isMarked : findMarker? document marker = some node) :
    Bounds.locate document marker marker = .ok ⟨node.id, node.id, node.id⟩ := by
  simp [Bounds.locate, isMarked, Bounds.between]

/-- What is extracted for one marker is a copy of the node that it names, unless that is a
milestone, after which more follows. -/
theorem external_element {remaining : Nat} {elements : List Element} (ordered : document.Ordered)
    (reads : library.document file = .ok document)
    (isMarked : findMarker? document marker = some node) (noMilestone : isMilestone node = false)
    (h : ((levels library remaining).external file marker marker).result = .ok elements) :
    ∃ fewer element, remaining = fewer + 1 ∧ elements = [element] ∧
      (copy library (levels library fewer) ⟨file, document⟩ node).result = .ok element := by
  have isNode := findMarker?_mem isMarked
  have isElement : Bounds.IsElement document ⟨node.id, node.id, node.id⟩ := by
    refine ⟨rfl, fun other isOther same milestone => ?_⟩
    rw [Node.Ordered.eq_of_id_eq ordered isOther isNode same, noMilestone] at milestone
    cases milestone
  cases remaining with
  | zero => exact absurd h external_level_none_ne_ok
  | succ fewer =>
    obtain ⟨read, bounds, after, reads', located, ran⟩ := external_level_eq_ok.mp h
    cases reads.symm.trans reads'
    obtain rfl : bounds = ⟨node.id, node.id, node.id⟩ :=
      Except.ok.inj (located.symm.trans (locate_of_findMarker? isMarked))
    obtain ⟨-, shown⟩ := shown_of_before (tailless_levels fewer)
      (through_within located isElement .external) rfl ordered (at_start file) ran
    have inRoot : node.id ∈ document.root.ids := mem_ids.mpr ⟨node, isNode, rfl⟩
    rw [Phase.past_before, if_pos inRoot] at shown
    obtain ⟨found, isFound, same, element, rfl, copied⟩ := shown
    cases Node.Ordered.eq_of_id_eq ordered isFound isNode same
    exact ⟨fewer, element, rfl, rfl, copied⟩

/-- The wrapper around structure has what was extracted between the markers as its children. -/
theorem extracted_of_transclude {directive : Node} {target : String} {found : Target}
    {wrapper : Element} (points : directive.value? (.plain "target") = some target)
    (located : (Target.locate library site.file target
      (directive.value? (.plain "targetEnd"))).result = .ok found)
    (h : (transclude library nested site directive .external).result = .ok wrapper) :
    (nested.external found.file found.start found.stop).result = .ok wrapper.children := by
  obtain ⟨start, target', found', source, points', located', fills, -, rfl⟩ := transclude_eq_ok h
  cases points.symm.trans points'
  cases located.symm.trans located'
  obtain ⟨children, extracted, rfl⟩ := filled_eq_ok.mp fills
  rw [children_stampLang, children_stampForeign]
  exact extracted

/-- A directive whose target is one marker is replaced by a wrapper around a copy of the node that
the marker names. -/
theorem children_of_transclude {remaining : Nat} {directive : Node} {target : String}
    {wrapper : Element} (ordered : document.Ordered) (reads : library.document file = .ok document)
    (isMarked : findMarker? document marker = some node) (noMilestone : isMilestone node = false)
    (points : directive.value? (.plain "target") = some target)
    (located : (Target.locate library site.file target
      (directive.value? (.plain "targetEnd"))).result = .ok ⟨file, marker, marker⟩)
    (h : (transclude library (levels library remaining) site directive .external).result =
      .ok wrapper) :
    ∃ fewer element, remaining = fewer + 1 ∧ wrapper.children = [element] ∧
      (copy library (levels library fewer) ⟨file, document⟩ node).result = .ok element :=
  external_element ordered reads isMarked noMilestone (extracted_of_transclude points located h)

end Intertext.Compile
