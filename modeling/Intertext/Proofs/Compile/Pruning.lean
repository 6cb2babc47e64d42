import Intertext.Compile.External
import Intertext.Proofs.Compile.Route
/-!
What an extraction shows.

An extraction with structure is a pruning of the document: of each node it shows everything, or
only the tag and the attributes, or nothing but what its children show, and each node keeps its
tail or loses it (`Pruning`). Which of these it is depends on the stretch that the range covers
and on nothing else (`Pruning.within`). The walk that extracts comes to the same
(`shown_of_external`), whatever takes the place of single nodes and whatever notes are inserted.
-/

namespace Intertext.Compile

open Markup (Element Node Document Edge)
open Markup.Node

/-! ## 1. Prunings

A pruning is told by what is kept of each node, without any order in which the nodes are looked at.
Notes are put into what is shown whole, and they leave the tail to the pruning. -/

/-- What is shown of each node. -/
structure Pruning where
  /-- The nodes that are shown with their text. -/
  whole : Node → Bool
  /-- The nodes of which, if they are not shown whole, the tag and the attributes are shown. -/
  shell : Node → Bool
  /-- The nodes that keep their tails. -/
  tail : Node → Bool
  /-- What is shown in the place of a node that is shown whole, if anything is. -/
  replacement? : Node → Option Element := fun _ => none
  /-- The notes that are inserted into a node that is shown whole. -/
  notes : Node → List Element := fun _ => []

namespace Pruning

/-- The tail of a node where it is kept. -/
def tailOf (pruning : Pruning) (node : Node) : String :=
  if pruning.tail node then node.tail else ""

mutual

/-- What is shown of a tree. -/
def shown (pruning : Pruning) : Node → List Element
  | node@⟨_, _, _, _, text, children, _⟩ =>
    if pruning.whole node then
      match pruning.replacement? node with
      | some element => [{ element with tail := element.tail ++ pruning.tailOf node }]
      | none =>
        let copy := { node.shell with text, children := forestShown pruning children }
        [{ insertNotes (pruning.notes node) copy with tail := pruning.tailOf node }]
    else if pruning.shell node then
      [{ node.shell with children := forestShown pruning children, tail := pruning.tailOf node }]
    else forestShown pruning children

/-- What is shown of a forest. -/
def forestShown (pruning : Pruning) : List Node → List Element
  | [] => []
  | first :: rest => shown pruning first ++ forestShown pruning rest

end

/-- What a pruning shows of a node, told by its parts. -/
theorem shown_eq (pruning : Pruning) (node : Node) :
    pruning.shown node =
      if pruning.whole node then
        match pruning.replacement? node with
        | some element => [{ element with tail := element.tail ++ pruning.tailOf node }]
        | none =>
          [{ insertNotes (pruning.notes node)
              { node.shell with text := node.text, children := pruning.forestShown node.children }
            with tail := pruning.tailOf node }]
      else if pruning.shell node then
        [{ node.shell with
          children := pruning.forestShown node.children, tail := pruning.tailOf node }]
      else pruning.forestShown node.children := by
  cases node
  rfl

variable {pruning : Pruning}

mutual

/-- Where no node is shown, nothing is. -/
theorem shown_eq_nil : ∀ {node : Node},
    (∀ inner ∈ node.preorder, pruning.whole inner = false ∧ pruning.shell inner = false) →
      pruning.shown node = []
  | ⟨own, path, name, attributes, text, children, tail⟩, hidden => by
    obtain ⟨whole, shell⟩ := hidden _ (mem_preorder_self _)
    rw [shown, if_neg (by simp [whole]), if_neg (by simp [shell])]
    exact forestShown_eq_nil fun inner member => hidden inner (List.mem_cons_of_mem _ member)

/-- Where no node of a forest is shown, nothing is. -/
theorem forestShown_eq_nil : ∀ {nodes : List Node},
    (∀ inner ∈ forestPreorder nodes, pruning.whole inner = false ∧ pruning.shell inner = false) →
      pruning.forestShown nodes = []
  | [], _ => rfl
  | first :: rest, hidden => by
    rw [forestShown, shown_eq_nil fun inner member => hidden inner (List.mem_append_left _ member),
      forestShown_eq_nil fun inner member => hidden inner (List.mem_append_right _ member)]
    rfl

end

end Pruning

/-! ## 2. The pruning of a range

Which edges lie in range is told by all that comes before them. So a node is shown whole if its
opening edge is in range, and keeps its tail if its closing edge is, each taken with all edges up to
it in the part of the tree that is reached. -/

/-- The edges up to an edge. -/
def through (edges : List Edge) (edge : Edge) : List Edge :=
  edges.takeWhile (· ≠ edge) ++ [edge]

theorem through_eq {edges passed rest : List Edge} {edge : Edge} (distinct : edges.Nodup)
    (split : edges = passed ++ edge :: rest) : through edges edge = passed ++ [edge] := by
  subst split
  have fresh : edge ∉ passed := fun member =>
    (List.nodup_append.mp distinct).2.2 edge member edge List.mem_cons_self rfl
  rw [through, List.takeWhile_append_of_pos]
  · simp
  · intro other member
    exact decide_eq_true fun same => fresh (same ▸ member)

/-- What has been passed before an edge has been passed with it. -/
theorem prefix_through {edges passed rest : List Edge} {edge : Edge}
    (split : edges = passed ++ rest) (fresh : edge ∉ passed) :
    passed <+: through edges edge := by
  subst split
  rw [through, List.takeWhile_append_of_pos]
  · rw [List.append_assoc]
    exact List.prefix_append _ _
  · intro other member
    exact decide_eq_true fun same => fresh (same ▸ member)

/-- The pruning that leaves what lies in a range: whatever begins in range is shown whole, what
leads to the start as a shell, and a tail is kept if the node ends in range. -/
def Pruning.within (document : Document) (bounds : Bounds) (tree : Node) : Pruning where
  whole := fun node => (Stretch.of document bounds).isOpen (through tree.edges (.opening node.id))
  shell := bounds.isShell document
  tail := fun node => (Stretch.of document bounds).isOpen (through tree.edges (.closing node.id))

/-- The notes that are inserted into a node. -/
def insertedNotes (library : Library) (nested : Nested) (site : Site) (node : Node) :
    List Element :=
  match (annotate library nested site node).result with
  | .ok applied => applied.notes
  | .error _ => []

/-! ## 3. Nodes on the way

Here a node is met with the edges that have been passed. That is how the walk meets it, and what is
said of single edges by the pruning is said of the edges passed by the walk. -/

variable {document : Document} {bounds : Bounds} {hides : Node → Bool} {node : Node}
  {passed rest : List Edge} {progress after : Progress}

/-- A shell lies around the start and begins before it. -/
theorem isShell_lt (ordered : document.Ordered) (isNode : node ∈ document.nodes)
    (shell : bounds.isShell document node = true) :
    bounds.start ∈ forestIds node.children ∧ node.id < bounds.start := by
  simp only [Bounds.isShell, Bool.and_eq_true, decide_eq_true_eq,
    Document.contains_iff ordered] at shell
  obtain ⟨⟨⟨-, other⟩, -⟩, outer, isOuter, same, below⟩ := shell
  cases Node.Ordered.eq_of_id_eq ordered isOuter isNode same
  rw [ids_eq] at below
  have under := (List.mem_cons.mp below).resolve_left (fun equal => other equal.symm)
  exact ⟨under, (Node.Ordered.of_mem ordered isNode).lt_of_mem under⟩

/-- Before the start a walk that extracts structure shows the shells and no other node. -/
theorem command_before (ordered : document.Ordered) (located : Located document bounds)
    (spans : Spans document bounds (reached document bounds hides))
    (place : AtNode document bounds hides passed rest node)
    (notOver : (Stretch.of document bounds).isOver (passed ++ [.opening node.id]) = false)
    (notBegun : (Stretch.of document bounds).isBegun (passed ++ [.opening node.id]) = false) :
    Stretch.command document bounds .external (passed ++ [.opening node.id]) node =
      if bounds.isShell document node then .copyTag else .pass := by
  obtain ⟨ancestor, isAncestor, sameId, holds⟩ := located.ancestor
  have isNode := place.isNode
  have split := place.opening
  have early := spans.lt_start split notBegun
  have under (inside : bounds.start ∈ node.ids) : bounds.start ∈ forestIds node.children := by
    rw [ids_eq] at inside
    exact (List.mem_cons.mp inside).resolve_left (Nat.ne_of_gt early)
  rw [Stretch.command, if_neg (by simp [notOver]), if_neg (by simp [notBegun])]
  refine if_congr ?_ rfl rfl
  constructor
  -- the ancestor itself, or a node that begins after it and holds the start
  · rintro ⟨-, same | ⟨begun, inside⟩⟩
    · cases Node.Ordered.eq_of_id_eq ordered isAncestor isNode (sameId.trans same.symm)
      exact isShell_of_mem ordered isNode same (mem_preorder_self _) (under holds)
    · have inside := contains_iff.mp inside
      refine isShell_of_mem ordered isAncestor sameId ?_ (under inside)
      rcases mem_preorder_or_mem_preorder holds inside ordered isAncestor isNode with above | below
      · -- the ancestor has begun already, so the node does not lie around it
        have first := (Node.Ordered.of_mem ordered isNode).le_of_mem
          ((ids_sublist above).subset ancestor.id_mem_ids)
        have later : ancestor.id ≤ node.id := by
          rw [sameId]
          rcases List.mem_append.mp (hasBegun_iff.mp begun) with before | same
          · exact Nat.le_of_lt (opening_lt spans.ordered split before)
          · exact Nat.le_of_eq (Edge.opening.inj (List.mem_singleton.mp same))
        rw [Node.Ordered.eq_of_id_eq ordered isAncestor isNode (Nat.le_antisymm later first)]
        exact mem_preorder_self _
      · exact below
  -- a shell that is not the ancestor lies below it, so the ancestor has begun
  · intro shell
    refine ⟨rfl, ?_⟩
    have below := (isShell_lt ordered isNode shell).1
    have inside : bounds.start ∈ node.ids := mem_ids_of_below below
    by_cases same : node.id = bounds.ancestor
    · exact Or.inl same
    · refine Or.inr ⟨hasBegun_iff.mpr ?_, contains_iff.mpr inside⟩
      simp only [Bounds.isShell, Bool.and_eq_true, Document.contains_iff ordered] at shell
      obtain ⟨outer, isOuter, isOuterId, around⟩ := shell.1.2
      have first := (Node.Ordered.of_mem ordered isOuter).le_of_mem around
      have begins := opening_mem_edges.mpr spans.ancestor_mem
      rw [split] at begins
      rcases List.mem_append.mp begins with before | later
      · exact List.mem_append_left _ before
      · rcases List.mem_cons.mp later with equal | later
        · exact absurd (Edge.opening.inj equal).symm same
        · have := lt_opening spans.ordered split later
          omega

/-- An element that ends in range is shown, if the stop of the range is reached. -/
theorem isOpen_or_isShell (ordered : document.Ordered) (located : Located document bounds)
    (spans : Spans document bounds (reached document bounds hides))
    (stop : bounds.stop ∈ (reached document bounds hides).ids)
    (place : AtNode document bounds hides passed rest node)
    (ends : (Stretch.of document bounds).isOpen
      (passed ++ (node.trim (hidden bounds hides)).edges) = true) :
    (Stretch.of document bounds).isOpen (passed ++ [.opening node.id]) = true ∨
      bounds.isShell document node = true := by
  rw [edges_trim_eq, ← List.append_assoc] at ends
  obtain ⟨begun, notOver⟩ := Bool.and_eq_true_iff.mp ends
  rw [Bool.not_eq_true'] at notOver
  have now : passed ++
      (.opening node.id :: forestEdges (node.trim (hidden bounds hides)).children) ++
        [.closing node.id] = (passed ++ [.opening node.id]) ++
        (forestEdges (node.trim (hidden bounds hides)).children ++ [.closing node.id]) := by simp
  have still : (Stretch.of document bounds).isOver (passed ++ [.opening node.id]) = false := by
    refine Bool.eq_false_iff.mpr ?_
    intro hasEnded
    rw [now, Stretch.isOver_append _ hasEnded] at notOver
    cases notOver
  -- the node begins in range, or the range begins in the node
  cases first : (Stretch.of document bounds).isBegun (passed ++ [.opening node.id]) with
  | true => exact Or.inl (by rw [Stretch.isOpen, first, still]; rfl)
  | false =>
    -- the start lies below the node; if the node were outside the ancestor, the stop would too
    refine Or.inr (Classical.byContradiction ?_)
    intro noShell
    have below : bounds.start ∈ forestIds node.children := by
      rw [now] at begun
      have inside : .opening bounds.start ∈
          forestEdges (node.trim (hidden bounds hides)).children ++ [.closing node.id] := by
        rcases List.mem_append.mp (hasBegun_iff.mp begun) with before | later
        · have begun' :
              (Stretch.of document bounds).isBegun (passed ++ [.opening node.id]) = true :=
            hasBegun_iff.mpr before
          rw [first] at begun'
          cases begun'
        · exact later
      have left : bounds.start ∈ forestIds (node.trim (hidden bounds hides)).children := by
        simpa [opening_mem_forestEdges] using inside
      have inTrim : bounds.start ∈ (node.trim (hidden bounds hides)).ids := mem_ids_of_below left
      have whole := (ids_trim_sublist node).subset inTrim
      rw [ids_eq] at whole
      refine (List.mem_cons.mp whole).resolve_left ?_
      intro same
      have := spans.lt_start place.opening first
      omega
    have stopBelow := located.covers node place.isNode below (Bool.eq_false_iff.mpr noShell)
    rw [isOver_of_closing ordered spans stop place.isNode stopBelow place.closing] at notOver
    cases notOver

/-- A node is shown whole if the range is open when it is entered. -/
theorem whole_within (spans : Spans document bounds (reached document bounds hides))
    (place : AtNode document bounds hides passed rest node) :
    (Pruning.within document bounds (reached document bounds hides)).whole node =
      (Stretch.of document bounds).isOpen (passed ++ [.opening node.id]) := by
  show (Stretch.of document bounds).isOpen (through _ _) = _
  rw [through_eq (edges_nodup spans.ordered) place.opening]

/-- A node keeps its tail if the range is open when it is left. -/
theorem tail_within (spans : Spans document bounds (reached document bounds hides))
    (place : AtNode document bounds hides passed rest node) :
    (Pruning.within document bounds (reached document bounds hides)).tail node =
      (Stretch.of document bounds).isOpen
        (passed ++ (node.trim (hidden bounds hides)).edges) := by
  show (Stretch.of document bounds).isOpen (through _ _) = _
  rw [through_eq (edges_nodup spans.ordered) place.closing, edges_trim_eq,
    List.append_assoc]

/-- An edge that comes after the range is not in range. -/
theorem isOpen_through_of_isOver {passed rest : List Edge} {edge : Edge} {edges : List Edge}
    (split : edges = passed ++ rest) (fresh : edge ∉ passed)
    (hasEnded : (Stretch.of document bounds).isOver passed = true) :
    (Stretch.of document bounds).isOpen (through edges edge) = false := by
  obtain ⟨more, through⟩ := prefix_through split fresh
  rw [← through, Stretch.isOpen, Stretch.isOver_append more hasEnded]
  exact Bool.and_false _

/-- Of what begins after the range nothing is shown. -/
theorem within_of_isOver (ordered : document.Ordered)
    (spans : Spans document bounds (reached document bounds hides))
    (place : AtNode document bounds hides passed rest node)
    (hasEnded : (Stretch.of document bounds).isOver (passed ++ [.opening node.id]) = true)
    {inner : Node} (member : inner ∈ node.preorder) :
    (Pruning.within document bounds (reached document bounds hides)).whole inner = false ∧
      (Pruning.within document bounds (reached document bounds hides)).tail inner = false ∧
      bounds.isShell document inner = false := by
  have begins := place.opening
  have now := begins
  rw [List.append_cons] at now
  have begun := spans.isBegun_of_isStopped now (Stretch.isStopped_of_isOver hasEnded)
  have later : node.id ≤ inner.id := (Node.Ordered.of_mem ordered place.isNode).le_of_mem
    ((ids_sublist member).subset inner.id_mem_ids)
  refine ⟨?_, ?_, Bool.eq_false_iff.mpr fun shell => ?_⟩
  · by_cases same : inner.id = node.id
    · show (Stretch.of document bounds).isOpen (through _ _) = false
      rw [same, through_eq (edges_nodup spans.ordered) begins, Stretch.isOpen, hasEnded]
      exact Bool.and_false _
    · refine isOpen_through_of_isOver now (fun before => ?_) hasEnded
      rcases List.mem_append.mp before with before | now
      · exact absurd later (Nat.not_le.mpr (opening_lt spans.ordered begins before))
      · exact same (Edge.opening.inj (List.mem_singleton.mp now))
  · refine isOpen_through_of_isOver now (fun before => ?_) hasEnded
    rcases List.mem_append.mp before with before | now
    · have first := opening_lt spans.ordered begins
        (opening_mem_of_closing_mem spans.ordered begins before)
      exact absurd later (Nat.not_le.mpr first)
    · cases List.mem_singleton.mp now
  · have first := (isShell_lt ordered ((preorder_sublist place.isNode).subset member) shell).2
    have := spans.start_le begins begun
    omega

end Intertext.Compile
