import Intertext.Proofs.Compile.Passing
import Intertext.Proofs.Compile.WholeElement
import Intertext.Proofs.Markup.DocumentOrder
/-!
What an extraction begins with.

Between a marker and itself lies one element, but where that is a milestone the range runs on until
its parent is left at the latest. So what is extracted for the marker begins with a copy of the
milestone and the text that follows it, whatever comes after (`external_begins`), and so does the
wrapper that stands for a directive (`begins_of_transclude`).

The proof follows the walk down to the start. Before that it shows nothing, and when the parent of
the start is left the range is over, so nothing is added to the tail of the copy further up.
-/

namespace Intertext.Compile

open Markup (Element Node Document)
open Markup.Node

variable {library : Library} {nested : Nested} {site : Site} {walk : Walk} {start : Nat}
  {document : Document} {progress after : Progress} {node : Node}

/-! ## 1. Past the stop

After the stop a range is over, or it runs on until the parent of the milestone is left. No further
step leads back before the stop. -/

/-- Whether a walk has left the node where its range stops, be it that the range is over or that it
runs on. -/
def Progress.Past (progress : Progress) : Prop :=
  progress.trailing = true ∨ progress.frame.afterEnd = true

namespace Progress.Past

/-- Entering a node does not lead back before the stop. -/
theorem enter (past : progress.Past) : (walk.enter progress node).Past := by
  refine past.imp id fun isOver => ?_
  rw [Walk.afterEnd_enter, isOver]
  rfl

/-- A range that runs on is over when its last parent is left, and else runs on. -/
theorem leave (past : progress.Past) : (walk.leave progress node).Past := by
  rcases past with trailing | isOver
  · by_cases isLast : walk.lastParent = some node.id
    · refine .inr ?_
      rw [Walk.afterEnd_leave, trailing, isLast]
      simp
    -- another node than the last parent, so the range goes on to run on
    · refine .inl ?_
      rw [Walk.trailing_leave, if_pos trailing]
      exact decide_eq_true isLast
  · refine .inr ?_
    rw [Walk.afterEnd_leave, isOver]
    rfl

/-- What follows the stop does not lead back before it. -/
theorem externalForest (past : progress.Past) (extraction : walk.extraction = .external)
    {nodes : List Node} {pieces : List Piece}
    (ran : (externalForest library nested site walk progress nodes).result = .ok (pieces, after)) :
    after.Past := by
  rw [← visitForest_of_externalForest extraction ran]
  exact visitForest_keeps (fun _ _ => enter) (fun _ _ => leave) past

end Progress.Past

/-- Where a range that stops at a node runs on, it does so from the node's tail on. -/
theorem leave_milestone (bounds : walk.bounds = ⟨start, start, start⟩)
    (runsOn : walk.lastParent.isSome = true) (within : progress.At .within)
    (isStart : node.id = start) :
    (walk.leave progress node).Past ∧ (walk.leave progress node).frame.inRange = true := by
  obtain ⟨notBefore, notAfter, notTrailing⟩ := within
  constructor
  · refine .inl ?_
    rw [Walk.trailing_leave, notTrailing, runsOn, bounds, isStart, Frame.inRange, notBefore,
      notAfter]
    simp
  · rw [Frame.inRange, Walk.beforeStart_leave, Walk.afterEnd_leave, notBefore, notAfter,
      notTrailing, Option.isNone_eq_false_iff.mpr runsOn]
    simp

/-! ## 2. From the start on

Up to the start nothing is shown, so all elements come from the start on, and the first of them is
the copy of the start. The tail of the milestone is in range, since the range runs on when the
milestone is left. -/

/-- Whether elements begin with a copy of a node, with the tail of the node. -/
def Begins (library : Library) (nested : Nested) (site : Site) (node : Node)
    (elements : List Element) : Prop :=
  ∃ element rest, elements = { element with tail := node.tail } :: rest ∧
    (copy library nested site node).result = .ok element

/-- Whatever is shown later comes after what it begins with. -/
theorem Begins.append {elements : List Element} (begins : Begins library nested site node elements)
    (more : List Element) : Begins library nested site node (elements ++ more) := by
  obtain ⟨element, rest, rfl, copied⟩ := begins
  exact ⟨element, rest ++ more, rfl, copied⟩

section Opening

variable (tailless : nested.Tailless) (ordered : document.Ordered)
  (bounds : walk.bounds = ⟨start, start, start⟩) (extraction : walk.extraction = .external)
  (runsOn : walk.lastParent.isSome = true)
  (isLast : ∀ node ∈ document.nodes, ∀ child ∈ node.children, child.id = start →
    walk.lastParent = some node.id)

include tailless ordered bounds extraction runsOn isLast

-- in a mutual recursion the linter misses what only the other theorem uses
set_option linter.unusedSectionVars false

mutual

/-- A walk that has not begun shows nothing of a node until it comes to the start, and if that is in
the node, what the node shows begins with a copy of it and is over when the node is left. -/
theorem begins_of_before : ∀ {node : Node} {progress after : Progress} {elements : List Element},
    node ∈ document.nodes → progress.At .before → node.id ≠ start →
    (external library nested site walk progress node).result = .ok (elements, after) →
    if start ∈ node.ids then
      ∃ found ∈ node.preorder, found.id = start ∧ Begins library nested site found elements ∧
        after.At .after
    else after.At .before ∧ elements = []
  | ⟨own, path, name, attributes, text, children, tail⟩, progress, after, elements, isNode, before,
      other, ran => by
    obtain ⟨entered, pass⟩ := enter_before bounds before other
    obtain ⟨pieces, inside, below, rfl, rfl⟩ := (externalStep_of_ok ran).of_pass pass
    have shown := beginsForest_of_before (children_mem_nodes isNode) entered below
    have inIds : start ∈ ids ⟨own, path, name, attributes, text, children, tail⟩ ↔
        start ∈ forestIds children := by
      rw [ids_eq, List.mem_cons, or_iff_right (Ne.symm other)]
    rw [passOn_eq (rooted_of_externalForest extraction below), preorder_eq]
    simp only [inIds]
    split at shown
    · rename_i isInside
      rw [if_pos isInside]
      obtain ⟨found, isFound, isStart, begins, past, isChild⟩ := shown
      refine ⟨found, List.mem_cons_of_mem _ isFound, isStart, begins, ?_⟩
      -- the walk leaves the parent of the start, or a node around it
      rcases isChild with isOver | isChild
      · exact isOver.leave bounds fun wrong => absurd rfl wrong
      · rw [Progress.At, Walk.afterEnd_leave, isLast _ isNode found isChild isStart]
        rcases past with trailing | isOver
        · simp [trailing]
        · simp [isOver]
    · rename_i outside
      rw [if_neg outside]
      exact ⟨shown.1.leave bounds fun _ => other, shown.2⟩

/-- Of nodes one after the other, those before the start show nothing, and what the one that holds
it shows comes first. -/
theorem beginsForest_of_before : ∀ {nodes : List Node} {progress after : Progress}
    {pieces : List Piece}, (∀ node ∈ nodes, node ∈ document.nodes) → progress.At .before →
    (externalForest library nested site walk progress nodes).result = .ok (pieces, after) →
    if start ∈ forestIds nodes then
      ∃ found ∈ forestPreorder nodes, found.id = start ∧
        Begins library nested site found (pieces.flatMap Piece.shown) ∧ after.Past ∧
        (after.At .after ∨ found ∈ nodes)
    else after.At .before ∧ pieces.flatMap Piece.shown = []
  | [], progress, after, pieces, areNodes, before, ran => by
    obtain ⟨rfl, rfl⟩ := externalForest_nil ran
    exact ⟨before, rfl⟩
  | first :: rest, progress, after, pieces, areNodes, before, ran => by
    obtain ⟨elements, between, others, found, below, rfl⟩ := externalForest_cons ran
    have isNode := areNodes first List.mem_cons_self
    rw [forestIds_cons, forestPreorder_cons, List.flatMap_cons]
    -- the first node is the start, holds the start, or lies before it
    by_cases isStart : first.id = start
    · have extracts : walk.inRangeCommand = .copy := by rw [Walk.inRangeCommand, extraction]
      have within : (walk.enter progress first).At .within := enter_start bounds before isStart
      have outside : start ∉ forestIds first.children := fun inside =>
        Nat.lt_irrefl _ (isStart ▸ (Node.Ordered.of_mem ordered isNode).lt_of_mem inside)
      obtain ⟨inside, element, stays, rfl, rfl, copied⟩ := copy_of_taken extracts within
        (fun pieces inside ran =>
          copyForest_of_within tailless bounds extracts outside within ran) found
      obtain ⟨past, inRange⟩ := leave_milestone bounds runsOn stays isStart
      rw [if_pos (List.mem_append_left _ (isStart ▸ id_mem_ids first))]
      refine ⟨first, List.mem_append_left _ (mem_preorder_self first), isStart, ?_,
        past.externalForest extraction below, .inr List.mem_cons_self⟩
      rw [Piece.shown, tailInRange, if_pos inRange, extendLast_singleton, tail_copy tailless copied,
        String.empty_append]
      exact ⟨element, _, rfl, copied⟩
    · have shown := begins_of_before isNode before isStart found
      by_cases inFirst : start ∈ first.ids
      · rw [if_pos inFirst] at shown
        obtain ⟨start, isFound, same, begins, isAfter⟩ := shown
        obtain ⟨isOver, -, -⟩ := externalForest_of_after isAfter below
        rw [if_pos (List.mem_append_left _ inFirst), Piece.shown,
          tailInRange_of_outside isAfter (by decide), extendLast_empty]
        exact ⟨start, List.mem_append_left _ isFound, same, begins.append _, .inr isOver,
          .inl isOver⟩
      · rw [if_neg inFirst] at shown
        obtain ⟨stays, rfl⟩ := shown
        have later := beginsForest_of_before
          (fun node member => areNodes node (List.mem_cons_of_mem _ member)) stays below
        rw [Piece.shown, extendLast_nil, List.nil_append]
        simp only [List.mem_append, inFirst, false_or]
        split at later
        · rename_i inRest
          obtain ⟨start, isFound, same, begins, past, isChild⟩ := later
          rw [if_pos inRest]
          exact ⟨start, .inr isFound, same, begins, past,
            isChild.imp_right (List.mem_cons_of_mem _)⟩
        · rename_i outside
          rw [if_neg outside]
          exact later

end

end Opening

/-! ## 3. Directives for a milestone

A milestone that is not the root has a parent, and the range runs on until that is left. The root is
followed by nothing. -/

variable {file : SourceFile} {marker : String}

/-- What is extracted for the marker of a milestone begins with a copy of the milestone and the text
that follows it. -/
theorem external_begins {remaining : Nat} {elements : List Element} (ordered : document.Ordered)
    (rootTail : document.root.tail = "") (reads : library.document file = .ok document)
    (isMarked : findMarker? document marker = some node) (milestone : isMilestone node = true)
    (h : ((levels library remaining).external file marker marker).result = .ok elements) :
    ∃ fewer, remaining = fewer + 1 ∧
      Begins library (levels library fewer) ⟨file, document⟩ node elements := by
  cases remaining with
  | zero => exact absurd h external_level_none_ne_ok
  | succ fewer =>
    refine ⟨fewer, rfl, ?_⟩
    obtain ⟨read, bounds, after, reads', located, ran⟩ := external_level_eq_ok.mp h
    cases reads.symm.trans reads'
    obtain rfl : bounds = ⟨node.id, node.id, node.id⟩ :=
      Except.ok.inj (located.symm.trans (locate_of_findMarker? isMarked))
    have isNode := findMarker?_mem isMarked
    have lastParent : (Walk.within document ⟨node.id, node.id, node.id⟩ .external).lastParent =
        (document.parent? node.id).map (·.id) := by
      rw [Walk.within, (Document.node?_eq_some ordered).mpr ⟨isNode, rfl⟩, Option.filter_some,
        if_pos milestone]
      rfl
    by_cases isRoot : node.id = document.root.id
    · -- the root has no parent, and nothing follows it
      cases Node.Ordered.eq_of_id_eq ordered isNode (mem_preorder_self _) isRoot
      have within : ((Walk.within document _ .external).enter (Walk.start file marker marker)
          document.root).At .within := enter_start rfl (at_start file) isRoot.symm
      have outside : document.root.id ∉ forestIds document.root.children := fun inside =>
        Nat.lt_irrefl _ (ordered.lt_of_mem inside)
      obtain ⟨-, element, -, -, rfl, copied⟩ := copy_of_taken rfl within
        (fun pieces inside ran =>
          copyForest_of_within (tailless_levels fewer) rfl rfl outside within ran) ran
      refine ⟨element, [], ?_, copied⟩
      rw [rootTail, ← tail_copy (tailless_levels fewer) copied]
      cases element
      rfl
    · have below : node.id ∈ forestIds document.root.children := by
        have inRoot : node.id ∈ document.root.ids := mem_ids.mpr ⟨node, isNode, rfl⟩
        rw [ids_eq, List.mem_cons] at inRoot
        exact inRoot.resolve_left isRoot
      obtain ⟨parent, isParent⟩ := Document.parent?_isSome ordered below
      have shown := begins_of_before (tailless_levels fewer) ordered rfl rfl
        (by rw [lastParent, isParent]; rfl) (fun other isOther child isChild same => by
          rw [lastParent, ← same, Document.parent?_child ordered isOther isChild]; rfl)
        (mem_preorder_self document.root) (at_start file) (Ne.symm isRoot) ran
      rw [if_pos (mem_ids.mpr ⟨node, isNode, rfl⟩)] at shown
      obtain ⟨found, isFound, same, begins, -⟩ := shown
      cases Node.Ordered.eq_of_id_eq ordered isFound isNode same
      exact begins

/-- A directive whose target is the marker of a milestone is replaced by a wrapper that begins with
a copy of the milestone and the text that follows it. -/
theorem begins_of_transclude {remaining : Nat} {directive : Node} {target : String}
    {wrapper : Element} (ordered : document.Ordered) (rootTail : document.root.tail = "")
    (reads : library.document file = .ok document)
    (isMarked : findMarker? document marker = some node) (milestone : isMilestone node = true)
    (points : directive.value? (.plain "target") = some target)
    (located : (Target.locate library site.file target
      (directive.value? (.plain "targetEnd"))).result = .ok ⟨file, marker, marker⟩)
    (h : (transclude library (levels library remaining) site directive .external).result =
      .ok wrapper) :
    ∃ fewer, remaining = fewer + 1 ∧
      Begins library (levels library fewer) ⟨file, document⟩ node wrapper.children :=
  external_begins ordered rootTail reads isMarked milestone
    (extracted_of_transclude points located h)

end Intertext.Compile
