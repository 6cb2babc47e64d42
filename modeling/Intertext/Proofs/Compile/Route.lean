import Intertext.Proofs.Compile.Bounds
import Intertext.Proofs.Compile.Stretch
import Intertext.Proofs.Markup.Trim
/-!
The way a walk takes.

Whatever a walk shows, the way it takes depends on little: on its bounds, and on which nodes hide
what is in them because something takes their place (`visit`). Such a walk goes through the
document without the parts that are hidden from the start on (`reached`), and after every node its
flags are what the edges of that tree tell (`standing_visit`).
-/

namespace Intertext.Compile

open Markup (Node Document Edge)
open Markup.Node

/-! ## 1. Ways

Leaving out what a walk shows leaves the flags and the choice where to go in. Of the library this
needs to know only which nodes hide what is in them, and a tree without the hidden parts is the tree
that such a walk goes through. -/

mutual

/-- Where a walk stands after a node, if it does not go into nodes in range that hide what is in
them. -/
def visit (walk : Walk) (hides : Node → Bool) (progress : Progress) : Node → Progress
  | node@⟨_, _, _, _, _, children, _⟩ =>
    let progress := walk.enter progress node
    if progress.frame.command = .skip then progress
    else if progress.frame.command = walk.inRangeCommand ∧ hides node = true then
      walk.leave progress node
    else walk.leave (visitForest walk hides progress children) node

/-- Where a walk stands after the nodes of a forest. -/
def visitForest (walk : Walk) (hides : Node → Bool) (progress : Progress) : List Node → Progress
  | [] => progress
  | first :: rest => visitForest walk hides (visit walk hides progress first) rest

end

/-- A visit skips a node, takes it without going in, or goes through its children. -/
theorem visit_eq (walk : Walk) (hides : Node → Bool) (progress : Progress) (node : Node) :
    visit walk hides progress node =
      if (walk.enter progress node).frame.command = .skip then walk.enter progress node
      else if (walk.enter progress node).frame.command = walk.inRangeCommand ∧
          hides node = true then
        walk.leave (walk.enter progress node) node
      else walk.leave (visitForest walk hides (walk.enter progress node) node.children) node := by
  cases node
  rfl

section Keeps

variable {walk : Walk} {hides : Node → Bool} {P : Progress → Prop}
  (enters : ∀ progress node, P progress → P (walk.enter progress node))
  (leaves : ∀ progress node, P progress → P (walk.leave progress node))

include enters leaves

-- in a mutual recursion the linter misses what only the other theorem uses
set_option linter.unusedSectionVars false

mutual

/-- What every entering and every leaving of a node keeps, a walk keeps. -/
theorem visit_keeps : ∀ {node : Node} {progress : Progress}, P progress →
    P (visit walk hides progress node)
  | ⟨_, _, _, _, _, _, _⟩, progress, holds => by
    rw [visit_eq]
    split
    · exact enters _ _ holds
    · split
      · exact leaves _ _ (enters _ _ holds)
      · exact leaves _ _ (visitForest_keeps (enters _ _ holds))

/-- What entering and leaving keep is kept by visiting nodes. -/
theorem visitForest_keeps : ∀ {nodes : List Node} {progress : Progress}, P progress →
    P (visitForest walk hides progress nodes)
  | [], _, holds => holds
  | first :: rest, progress, holds => by
    rw [visitForest]
    exact visitForest_keeps (visit_keeps holds)

end

end Keeps

/-- Whether a walk does not go into a node if it comes to it in range. -/
def hidden (bounds : Bounds) (hides : Node → Bool) (node : Node) : Bool :=
  decide (bounds.start ≤ node.id) && hides node

/-- The part of a document that a walk goes through. -/
def reached (document : Document) (bounds : Bounds) (hides : Node → Bool) : Node :=
  document.root.trim (hidden bounds hides)

variable {document : Document} {bounds : Bounds} {hides : Node → Bool}

/-- What has the start below it comes before the start and is not hidden. -/
theorem start_mem_trim {node : Node} (ordered : node.Ordered) (h : bounds.start ∈ node.ids) :
    bounds.start ∈ (node.trim (hidden bounds hides)).ids := by
  refine (mem_ids_trim ordered).mpr ⟨h, ?_⟩
  intro above member below
  have := (ordered.of_mem member).lt_of_mem below
  rw [hidden, decide_eq_false (Nat.not_le.mpr this), Bool.false_and]

/-- A node is reached if no ancestor of it from the start on hides what is in it. -/
theorem mem_reached (ordered : document.Ordered) {id : Nat} :
    id ∈ (reached document bounds hides).ids ↔
      id ∈ document.root.ids ∧
        ∀ above ∈ document.ancestors id, bounds.start ≤ above.id → hides above = false := by
  rw [reached, mem_ids_trim ordered]
  refine and_congr_right fun _ => forall_congr' ?_
  intro above
  rw [Document.mem_ancestors ordered, Document.nodes_eq, hidden, and_imp]
  simp

/-! ## 2. Trees with a range

The tree that a walk reaches has lost nodes, but not the start. Its edges are still in the order of
the document, so what a range covers can be told on it. -/

/-- The range lies in a tree so that it begins before it stops. -/
structure Spans (document : Document) (bounds : Bounds) (tree : Node) : Prop where
  ordered : tree.Ordered
  start_mem : bounds.start ∈ tree.ids
  ancestor_mem : bounds.ancestor ∈ tree.ids
  began : ∀ {id : Nat} {passed rest : List Edge}, id = bounds.stop ∨ id = bounds.ancestor →
    tree.edges = passed ++ .closing id :: rest → .opening bounds.start ∈ passed
  later : (Stretch.of document bounds).last ≠ some bounds.stop

/-- The last parent of a range has the stop below it. -/
theorem last_eq_some (ordered : document.Ordered) {last : Nat}
    (h : (Stretch.of document bounds).last = some last) :
    ∃ parent ∈ document.nodes, parent.id = last ∧ bounds.stop ∈ forestIds parent.children ∧
      document.parent? bounds.stop = some parent := by
  obtain ⟨stop, found, h⟩ := Option.bind_eq_some_iff.mp h
  obtain ⟨parent, isParent, rfl⟩ := Option.map_eq_some_iff.mp h
  obtain ⟨isNode, same⟩ :=
    (Document.node?_eq_some ordered).mp (Option.filter_eq_some_iff.mp found).1
  rw [same] at isParent
  obtain ⟨member, below⟩ :=
    (Document.mem_ancestors ordered).mp (List.mem_of_mem_head? isParent)
  exact ⟨parent, member, rfl, below, isParent⟩

/-- An element that begins no later than another one ends has begun before that. -/
theorem opening_mem_of_le {tree : Node} (ordered : tree.Ordered) {id other : Nat}
    {passed rest : List Edge} (split : tree.edges = passed ++ .closing id :: rest)
    (h : other ∈ tree.ids) (le : other ≤ id) : .opening other ∈ passed := by
  have ended : .closing id ∈ tree.edges := by
    rw [split]
    simp
  obtain ⟨inner, member, rfl⟩ := mem_ids.mp (closing_mem_edges.mp ended)
  have own := opening_mem_of_closing ordered split member rfl inner.id_mem_ids
  obtain ⟨before, between, rfl⟩ := List.append_of_mem own
  rw [List.append_assoc, List.cons_append] at split
  have begins := opening_mem_edges.mpr h
  rw [split] at begins
  rcases List.mem_append.mp begins with begins | begins
  · exact List.mem_append_left _ begins
  · rcases List.mem_cons.mp begins with same | begins
    · rw [same]
      exact own
    · exact absurd (lt_opening ordered split begins) (Nat.not_lt.mpr le)

/-- A range spans what a walk reaches. -/
theorem spans_reached (hides : Node → Bool) (ordered : document.Ordered)
    (located : Located document bounds) :
    Spans document bounds (reached document bounds hides) := by
  have orderedTree : (reached document bounds hides).Ordered := Node.Ordered.trim ordered
  have start : bounds.start ∈ (reached document bounds hides).ids :=
    start_mem_trim ordered located.start_mem
  refine ⟨orderedTree, start, ?_, ?_, ?_⟩
  · -- what is above the ancestor comes before the start
    obtain ⟨node, isNode, same, below⟩ := located.ancestor
    refine (mem_reached ordered).mpr ⟨same ▸ id_mem_ids_of_mem isNode, ?_⟩
    intro above member le
    obtain ⟨isAbove, inside⟩ := (Document.mem_ancestors ordered).mp member
    have first := (Node.Ordered.of_mem ordered isAbove).lt_of_mem inside
    have later := (Node.Ordered.of_mem ordered isNode).le_of_mem below
    omega
  · intro id passed rest isMarker split
    -- the start lies below the marker, or comes before it
    have enclosed {node : Node} (isNode : node ∈ document.nodes) (same : node.id = id)
        (below : bounds.start ∈ node.ids) : .opening bounds.start ∈ passed := by
      have ended : .closing id ∈ (reached document bounds hides).edges := by
        rw [split]
        simp
      have left := trim_mem_preorder ordered isNode (same ▸ closing_mem_edges.mp ended)
      exact opening_mem_of_closing orderedTree split left ((trim_id node).trans same)
        (start_mem_trim (Node.Ordered.of_mem ordered isNode) below)
    rcases isMarker with rfl | rfl
    · rcases located.forward with le | ⟨node, isNode, same, below⟩
      · exact opening_mem_of_le orderedTree split start le
      · exact enclosed isNode same below
    · obtain ⟨node, isNode, same, below⟩ := located.ancestor
      exact enclosed isNode same below
  · intro last
    obtain ⟨parent, isParent, same, below, -⟩ := last_eq_some ordered last
    have := (Node.Ordered.of_mem ordered isParent).lt_of_mem below
    exact absurd same (Nat.ne_of_lt this)

/-! ## 3. What has begun

Between the flags and the edges stand facts about numbers: once the start has begun, every further
node has a greater number. -/

variable {extraction : Extraction} {passed rest : List Edge} {progress : Progress} {tree : Node}

/-- Where a range has stopped it has begun. -/
theorem Spans.isBegun_of_isStopped (spans : Spans document bounds tree)
    (split : tree.edges = passed ++ rest)
    (stopped : (Stretch.of document bounds).isStopped passed = true) :
    (Stretch.of document bounds).isBegun passed = true := by
  obtain ⟨before, between, rfl⟩ := List.append_of_mem (Stretch.isStopped_iff.mp stopped)
  rw [List.append_assoc, List.cons_append] at split
  exact hasBegun_iff.mpr (List.mem_append_left _ (spans.began (Or.inl rfl) split))

/-- In a tree with a range a walk that leaves a node goes on as the edges tell. -/
theorem Spans.standing_leave (spans : Spans document bounds tree) {node : Node}
    (split : tree.edges = passed ++ .closing node.id :: rest)
    (standing : Standing document bounds extraction passed progress) :
    Standing document bounds extraction (passed ++ [.closing node.id])
      ((Walk.within document bounds extraction).leave progress node) :=
  standing.leave spans.later
    (fun same => hasBegun_iff.mpr (spans.began (Or.inl same) split))
    (fun same => hasBegun_iff.mpr (spans.began (Or.inr same) split))

/-- What begins in range or later does not come before the start. -/
theorem Spans.start_le (spans : Spans document bounds tree) {id : Nat}
    (split : tree.edges = passed ++ .opening id :: rest)
    (begun : (Stretch.of document bounds).isBegun (passed ++ [.opening id]) = true) :
    bounds.start ≤ id := by
  rcases List.mem_append.mp (hasBegun_iff.mp begun) with before | same
  · exact Nat.le_of_lt (opening_lt spans.ordered split before)
  · cases List.mem_singleton.mp same
    exact Nat.le_refl _

/-- What begins before the range comes before the start. -/
theorem Spans.lt_start (spans : Spans document bounds tree) {id : Nat}
    (split : tree.edges = passed ++ .opening id :: rest)
    (notBegun : (Stretch.of document bounds).isBegun (passed ++ [.opening id]) = false) :
    id < bounds.start := by
  have begins := opening_mem_edges.mpr spans.start_mem
  rw [split, List.append_cons] at begins
  rcases List.mem_append.mp begins with before | later
  · have begun : (Stretch.of document bounds).isBegun (passed ++ [.opening id]) = true :=
      hasBegun_iff.mpr before
    rw [notBegun] at begun
    cases begun
  · exact lt_opening spans.ordered split later

/-- What begins before the range is not hidden. -/
theorem Spans.not_hidden (spans : Spans document bounds tree) {node : Node}
    (split : tree.edges = passed ++ .opening node.id :: rest)
    (notBegun : (Stretch.of document bounds).isBegun (passed ++ [.opening node.id]) = false) :
    hidden bounds hides node = false := by
  have before := spans.lt_start split notBegun
  rw [hidden, decide_eq_false (Nat.not_le.mpr before), Bool.false_and]

/-! ## 4. Places on the way

A place of a node splits the edges of the reached tree into those passed, those of the node and the
rest. From the place of a node one comes to that of its children, and from there to each child. -/

/-- A node that a walk may come to, with the edges before it on the way and those after it. -/
structure AtNode (document : Document) (bounds : Bounds) (hides : Node → Bool)
    (passed rest : List Edge) (node : Node) : Prop where
  isNode : node ∈ document.nodes
  split : (reached document bounds hides).edges =
    passed ++ (node.trim (hidden bounds hides)).edges ++ rest

/-- Nodes that a walk may come to one after another. -/
structure AtForest (document : Document) (bounds : Bounds) (hides : Node → Bool)
    (passed rest : List Edge) (nodes : List Node) : Prop where
  areNodes : ∀ node ∈ nodes, node ∈ document.nodes
  split : (reached document bounds hides).edges =
    passed ++ forestEdges (trimForest (hidden bounds hides) nodes) ++ rest

/-- The edges of what is left of a node end with the node's end. -/
theorem edges_trim_eq (node : Node) :
    (node.trim (hidden bounds hides)).edges =
      (.opening node.id :: forestEdges (node.trim (hidden bounds hides)).children) ++
        [.closing node.id] := by
  rw [edges_eq, trim_id]
  rfl

/-- A node that hides what is in it has no edges but its own. -/
theorem edges_trim_of_hidden {node : Node} (h : hidden bounds hides node = true) :
    (node.trim (hidden bounds hides)).edges = [.opening node.id] ++ [.closing node.id] := by
  rw [edges_trim_eq, trim_children, if_pos h]
  rfl

/-- A node that hides nothing has the edges of its children between its own. -/
theorem edges_trim_of_not_hidden {node : Node} (h : hidden bounds hides node = false) :
    (node.trim (hidden bounds hides)).edges =
      [.opening node.id] ++ forestEdges (trimForest (hidden bounds hides) node.children) ++
        [.closing node.id] := by
  rw [edges_trim_eq, trim_children, if_neg (by simp [h])]
  rfl

/-- A walk begins before the root. -/
theorem atNode_root (document : Document) (bounds : Bounds) (hides : Node → Bool) :
    AtNode document bounds hides [] [] document.root where
  isNode := mem_preorder_self _
  split := by
    rw [List.append_nil]
    rfl

namespace AtNode

variable {node : Node}

/-- At a node its first edge is next. -/
theorem opening (place : AtNode document bounds hides passed rest node) :
    (reached document bounds hides).edges = passed ++ .opening node.id ::
      (forestEdges (node.trim (hidden bounds hides)).children ++ .closing node.id :: rest) := by
  rw [place.split, edges_trim_eq]
  simp

/-- After the children of a node its last edge is next. -/
theorem closing (place : AtNode document bounds hides passed rest node) :
    (reached document bounds hides).edges =
      (passed ++ .opening node.id :: forestEdges (node.trim (hidden bounds hides)).children) ++
        .closing node.id :: rest := by
  rw [place.split, edges_trim_eq]
  simp

/-- In a node that is not hidden a walk comes to the children. -/
theorem children (place : AtNode document bounds hides passed rest node)
    (shown : hidden bounds hides node = false) :
    AtForest document bounds hides (passed ++ [.opening node.id]) (.closing node.id :: rest)
      node.children where
  areNodes child isChild := (preorder_sublist place.isNode).subset (child_mem_preorder isChild)
  split := by
    rw [place.split, edges_trim_of_not_hidden shown]
    simp

/-- A walk that enters a node goes on as the edges tell. -/
theorem standing_enter (place : AtNode document bounds hides passed rest node)
    (ordered : document.Ordered) (spans : Spans document bounds (reached document bounds hides))
    (standing : Standing document bounds extraction passed progress) :
    Standing document bounds extraction (passed ++ [.opening node.id])
      ((Walk.within document bounds extraction).enter progress node) :=
  standing.enter ordered place.isNode (spans.isBegun_of_isStopped place.opening)

/-- What a walk commands for a node it comes to is what the edges tell. -/
theorem command_enter (place : AtNode document bounds hides passed rest node)
    (ordered : document.Ordered) (spans : Spans document bounds (reached document bounds hides))
    (standing : Standing document bounds extraction passed progress) :
    ((Walk.within document bounds extraction).enter progress node).frame.command =
      Stretch.command document bounds extraction (passed ++ [.opening node.id]) node :=
  standing.command_enter ordered place.isNode (spans.isBegun_of_isStopped place.opening)

end AtNode

namespace AtForest

variable {node : Node} {nodes : List Node}

/-- The place of nodes is the place of the first of them. -/
theorem first (place : AtForest document bounds hides passed rest (node :: nodes)) :
    AtNode document bounds hides passed
      (forestEdges (trimForest (hidden bounds hides) nodes) ++ rest) node where
  isNode := place.areNodes node List.mem_cons_self
  split := by
    rw [place.split, trimForest, forestEdges_cons]
    simp

/-- After the first node comes the place of the others. -/
theorem others (place : AtForest document bounds hides passed rest (node :: nodes)) :
    AtForest document bounds hides (passed ++ (node.trim (hidden bounds hides)).edges) rest
      nodes where
  areNodes other member := place.areNodes other (List.mem_cons_of_mem _ member)
  split := by
    rw [place.split, trimForest, forestEdges_cons]
    simp

end AtForest

/-! ## 5. Flags along the way

Entering and leaving keep the flags to what the edges tell, so that by induction over the tree a
visit does. -/

/-- After a node the flags of a walk are what the edges tell, if they are after its children. -/
theorem standing_visit_of_children (ordered : document.Ordered)
    (spans : Spans document bounds (reached document bounds hides)) {node : Node}
    (place : AtNode document bounds hides passed rest node)
    (standing : Standing document bounds extraction passed progress)
    (below : hidden bounds hides node = false → Standing document bounds extraction
      (passed ++ [.opening node.id] ++
        forestEdges (trimForest (hidden bounds hides) node.children))
      (visitForest (Walk.within document bounds extraction) hides
        ((Walk.within document bounds extraction).enter progress node) node.children)) :
    Standing document bounds extraction (passed ++ (node.trim (hidden bounds hides)).edges)
      (visit (Walk.within document bounds extraction) hides progress node) := by
  have entered := place.standing_enter ordered spans standing
  have told := place.command_enter ordered spans standing
  have ends := place.split
  have into (shown : hidden bounds hides node = false) :
      Standing document bounds extraction (passed ++ (node.trim (hidden bounds hides)).edges)
        ((Walk.within document bounds extraction).leave
          (visitForest (Walk.within document bounds extraction) hides
            ((Walk.within document bounds extraction).enter progress node) node.children)
          node) := by
    rw [edges_trim_of_not_hidden shown, ← List.append_assoc, ← List.append_assoc] at ends ⊢
    rw [List.append_assoc] at ends
    exact spans.standing_leave ends (below shown)
  rw [visit_eq]
  rcases Stretch.command_cases document bounds extraction (passed ++ [.opening node.id]) node with
    ⟨hasEnded, skip⟩ | ⟨isOpen, inRange⟩ | ⟨-, notBegun, lead⟩
  · have begins := place.opening
    rw [List.append_cons] at begins
    rw [if_pos (told.trans skip), edges_eq, trim_id, List.append_cons]
    exact entered.append_of_isOver
      (spans.isBegun_of_isStopped begins (Stretch.isStopped_of_isOver hasEnded)) hasEnded _
  · have later := spans.start_le place.opening (Bool.and_eq_true_iff.mp isOpen).1
    rw [told, inRange, if_neg (Walk.inRangeCommand_ne _).1]
    by_cases hide : hides node = true
    · have hid : hidden bounds hides node = true := by
        rw [hidden, decide_eq_true later, hide]
        rfl
      rw [if_pos ⟨rfl, hide⟩]
      rw [edges_trim_of_hidden hid, ← List.append_assoc] at ends ⊢
      rw [List.append_assoc _ [Edge.closing node.id]] at ends
      exact spans.standing_leave ends entered
    · rw [if_neg (fun both => hide both.2)]
      refine into ?_
      rw [hidden, Bool.eq_false_iff.mpr hide, Bool.and_false]
  · have shown : hidden bounds hides node = false := spans.not_hidden place.opening notBegun
    have noSkip : Stretch.command document bounds extraction (passed ++ [.opening node.id]) node ≠
        .skip := by
      rcases lead with tag | pass
      · simp [tag]
      · simp [pass]
    have notTaken : Stretch.command document bounds extraction (passed ++ [.opening node.id]) node ≠
        (Walk.within document bounds extraction).inRangeCommand := by
      rcases lead with tag | pass
      · exact tag ▸ (Walk.inRangeCommand_ne _).2.1.symm
      · exact pass ▸ (Walk.inRangeCommand_ne _).2.2.symm
    rw [told, if_neg noSkip, if_neg (fun both => notTaken both.1)]
    exact into shown

mutual

/-- After a node the flags of a walk are what the edges tell. -/
theorem standing_visit (ordered : document.Ordered)
    (spans : Spans document bounds (reached document bounds hides)) :
    ∀ {node : Node} {passed rest : List Edge} {progress : Progress},
      AtNode document bounds hides passed rest node →
      Standing document bounds extraction passed progress →
      Standing document bounds extraction (passed ++ (node.trim (hidden bounds hides)).edges)
        (visit (Walk.within document bounds extraction) hides progress node)
  | ⟨_, _, _, _, _, _, _⟩, _, _, _, place, standing => by
    refine standing_visit_of_children ordered spans place standing ?_
    intro shown
    exact standing_visitForest ordered spans (place.children shown)
      (place.standing_enter ordered spans standing)

/-- Visiting nodes keeps the flags to what their edges tell. -/
theorem standing_visitForest (ordered : document.Ordered)
    (spans : Spans document bounds (reached document bounds hides)) :
    ∀ {nodes : List Node} {passed rest : List Edge} {progress : Progress},
      AtForest document bounds hides passed rest nodes →
      Standing document bounds extraction passed progress →
      Standing document bounds extraction
        (passed ++ forestEdges (trimForest (hidden bounds hides) nodes))
        (visitForest (Walk.within document bounds extraction) hides progress nodes)
  | [], passed, rest, progress, _, standing => by
    rw [trimForest, forestEdges_nil, List.append_nil, visitForest]
    exact standing
  | first :: others, passed, rest, progress, place, standing => by
    have left := standing_visit ordered spans place.first standing
    rw [trimForest, forestEdges_cons, ← List.append_assoc, visitForest]
    exact standing_visitForest ordered spans place.others left

end

/-! ## 6. The end of a range

A range that stops in the reached tree is over after the last edge, because its parent or the stop
itself has been left by then. If the stop is hidden, it never ends. -/

/-- What is reached below a node is reached in what is left of the node. -/
theorem mem_trim_of_mem_reached (ordered : document.Ordered) {node : Node}
    (isNode : node ∈ document.nodes) {id : Nat} (left : id ∈ (reached document bounds hides).ids)
    (below : id ∈ forestIds node.children) :
    id ∈ forestIds (node.trim (hidden bounds hides)).children := by
  have shown : id ∈ (node.trim (hidden bounds hides)).ids :=
    (mem_ids_trim (Node.Ordered.of_mem ordered isNode)).mpr ⟨mem_ids_of_below below,
      fun above member =>
        ((mem_ids_trim ordered).mp left).2 above ((preorder_sublist isNode).subset member)⟩
  rw [ids_eq, trim_id] at shown
  refine (List.mem_cons.mp shown).resolve_left ?_
  intro same
  have := (Node.Ordered.of_mem ordered isNode).lt_of_mem below
  exact absurd same (Nat.ne_of_gt this)

/-- What is above something that is reached is reached. -/
theorem above_mem_reached (ordered : document.Ordered) {node : Node}
    (isNode : node ∈ document.nodes) {id : Nat} (left : id ∈ (reached document bounds hides).ids)
    (below : id ∈ node.ids) : node.id ∈ (reached document bounds hides).ids := by
  refine (mem_ids_trim ordered).mpr ⟨id_mem_ids_of_mem isNode, ?_⟩
  intro above member under
  refine ((mem_ids_trim ordered).mp left).2 above member ?_
  obtain ⟨child, isChild, inside⟩ := mem_forestIds.mp under
  obtain ⟨inner, isInner, same⟩ := mem_ids.mp inside
  have isAbove : inner ∈ above.preorder := by
    rw [preorder_eq]
    exact List.mem_cons_of_mem _ (mem_forestPreorder.mpr ⟨child, isChild, isInner⟩)
  cases Node.Ordered.eq_of_id_eq ordered isNode ((preorder_sublist member).subset isAbove) same.symm
  exact mem_forestIds.mpr ⟨child, isChild, (ids_sublist isInner).subset below⟩

/-- A stretch is over when its last parent ends, if its stop is reached. -/
theorem isOver_of_closing_last (ordered : document.Ordered)
    (spans : Spans document bounds (reached document bounds hides))
    (stop : bounds.stop ∈ (reached document bounds hides).ids) {last : Nat}
    (isLast : (Stretch.of document bounds).last = some last)
    (split : (reached document bounds hides).edges = passed ++ .closing last :: rest) :
    (Stretch.of document bounds).isOver (passed ++ [.closing last]) = true := by
  obtain ⟨parent, isParent, rfl, below, -⟩ := last_eq_some ordered isLast
  cases hasEnded : (Stretch.of document bounds).isOver passed with
  | true => exact Stretch.isOver_append _ hasEnded
  | false =>
    have left := trim_mem_preorder ordered isParent
      (above_mem_reached ordered isParent stop (mem_ids_of_below below))
    have stopped := closing_mem_of_closing spans.ordered split left (trim_id parent)
      (mem_trim_of_mem_reached ordered isParent stop below)
    rw [Stretch.isOver_append_closing hasEnded spans.later, isLast]
    simpa [Stretch.isStopped, Stretch.of] using stopped

/-- A stretch is over when an element around its stop ends, if its stop is reached. -/
theorem isOver_of_closing (ordered : document.Ordered)
    (spans : Spans document bounds (reached document bounds hides))
    (stop : bounds.stop ∈ (reached document bounds hides).ids) {node : Node}
    (isNode : node ∈ document.nodes) (below : bounds.stop ∈ forestIds node.children)
    (split : (reached document bounds hides).edges = passed ++ .closing node.id :: rest) :
    (Stretch.of document bounds).isOver (passed ++ [.closing node.id]) = true := by
  have left := trim_mem_preorder ordered isNode
    (above_mem_reached ordered isNode stop (mem_ids_of_below below))
  cases isLast : (Stretch.of document bounds).last with
  | none =>
    have stopped := closing_mem_of_closing spans.ordered split left (trim_id node)
      (mem_trim_of_mem_reached ordered isNode stop below)
    rw [Stretch.isOver, isLast]
    simpa [Stretch.isStopped, Stretch.of] using Or.inl stopped
  | some last =>
    obtain ⟨parent, isParent, rfl, under, found⟩ := last_eq_some ordered isLast
    have around := Document.parent?_mem_preorder ordered found isNode below
    rw [preorder_eq] at around
    rcases List.mem_cons.mp around with rfl | around
    · exact isOver_of_closing_last ordered spans stop isLast split
    · -- the last parent has ended before the node
      have ended := closing_mem_of_closing spans.ordered split left (trim_id node)
        (mem_trim_of_mem_reached ordered isNode
          (above_mem_reached ordered isParent stop (mem_ids_of_below under))
          (((forestPreorder_sublist around).map _).subset parent.id_mem_ids))
      obtain ⟨before, between, rfl⟩ := List.append_of_mem ended
      rw [List.append_assoc, List.cons_append] at split
      have hasEnded := isOver_of_closing_last ordered spans stop isLast split
      rw [List.append_cons before, List.append_assoc]
      exact Stretch.isOver_append _ hasEnded

/-- A stretch is over at the end of the document exactly if its stop is reached. -/
theorem isOver_edges_iff (ordered : document.Ordered)
    (spans : Spans document bounds (reached document bounds hides)) :
    (Stretch.of document bounds).isOver (reached document bounds hides).edges = true ↔
      bounds.stop ∈ (reached document bounds hides).ids := by
  constructor
  · intro hasEnded
    have stopped := Stretch.isStopped_of_isOver hasEnded
    exact closing_mem_edges.mp (Stretch.isStopped_iff.mp stopped)
  · intro stop
    have ends : (reached document bounds hides).edges =
        (.opening document.root.id :: forestEdges (reached document bounds hides).children) ++
          [.closing document.root.id] := by
      rw [edges_eq, reached, trim_id]
      rfl
    have inside := (mem_reached ordered).mp stop
    rw [ids_eq] at inside
    rcases List.mem_cons.mp inside.1 with same | below
    · cases isLast : (Stretch.of document bounds).last with
      | none =>
        rw [Stretch.isOver, isLast, Stretch.isStopped_iff]
        exact closing_mem_edges.mpr stop
      | some last =>
        obtain ⟨parent, isParent, -, under, -⟩ := last_eq_some ordered isLast
        have := Node.Ordered.lt_of_mem ordered (mem_forestIds_of_mem ordered isParent under)
        exact absurd same (Nat.ne_of_gt this)
    · rw [ends]
      exact isOver_of_closing ordered spans stop (mem_preorder_self _) below ends

/-- When a walk has gone through a document, its range has begun, and it is over exactly if its stop
lies below no node from the start on that hides what is in it. -/
theorem flags_of_visit (extraction : Extraction) (ordered : document.Ordered)
    (located : Located document bounds) (hides : Node → Bool) (file : SourceFile)
    (startMarker stopMarker : String) :
    (visit (Walk.within document bounds extraction) hides (Walk.start file startMarker stopMarker)
        document.root).frame.beforeStart = false ∧
      ((visit (Walk.within document bounds extraction) hides
          (Walk.start file startMarker stopMarker) document.root).frame.afterEnd = true ↔
        bounds.stop ∈ (reached document bounds hides).ids) := by
  have spans := spans_reached hides ordered located
  have standing := standing_visit ordered spans (atNode_root document bounds hides)
    (Standing.start extraction file startMarker stopMarker)
  have begun : (Stretch.of document bounds).isBegun (reached document bounds hides).edges = true :=
    hasBegun_iff.mpr (opening_mem_edges.mpr spans.start_mem)
  constructor
  · rw [standing.before]
    show (!(Stretch.of document bounds).isBegun (reached document bounds hides).edges) = false
    rw [begun]
    rfl
  · rw [standing.after, ← isOver_edges_iff ordered spans]
    rfl

end Intertext.Compile
