import Intertext.Proofs.Markup.Tree
import Mathlib.Data.List.Infix
/-!
Where elements begin and end.

The edges of a tree are the places where its elements begin and end, in the order of the text. They
tell which element is open when: an element lies below another one if it begins and ends between the
edges of that one. In an ordered tree no edge occurs twice, elements begin in the order of their
numbers (`opening_lt`), and when an element ends all that lies below it has begun
(`opening_mem_of_closing`).
-/

namespace Intertext.Markup

/-- A place in a text where an element begins or ends. -/
inductive Edge where
  | opening (id : Nat)
  | closing (id : Nat)
deriving DecidableEq, Repr

/-- The number of an element that begins. -/
def Edge.opened? : Edge → Option Nat
  | opening id => some id
  | closing _ => none

namespace Node

mutual

/-- The edges of a node and of everything below it, in the order of the text. -/
def edges : Node → List Edge
  | ⟨id, _, _, _, _, children, _⟩ => .opening id :: (forestEdges children ++ [.closing id])

/-- The edges of the nodes of a forest and of everything below them, in the order of the text. -/
def forestEdges : List Node → List Edge
  | [] => []
  | first :: rest => edges first ++ forestEdges rest

end

theorem edges_eq (node : Node) :
    node.edges = .opening node.id :: (forestEdges node.children ++ [.closing node.id]) := by
  cases node
  rfl

@[simp] theorem forestEdges_nil : forestEdges [] = [] := rfl

@[simp] theorem forestEdges_cons (first : Node) (rest : List Node) :
    forestEdges (first :: rest) = first.edges ++ forestEdges rest := rfl

/-! ## 1. What occurs among the edges

Every node has one opening and one closing edge, and in an ordered tree the numbers of all nodes are
different. -/

mutual

/-- The nodes that the edges of a tree open are all its nodes, in document order. -/
theorem opened_edges : ∀ node : Node, node.edges.filterMap Edge.opened? = node.ids
  | ⟨id, path, name, attributes, text, children, tail⟩ => by
    rw [edges, ids_eq]
    simp [Edge.opened?, opened_forestEdges children]

/-- Elements begin in document order. -/
theorem opened_forestEdges : ∀ nodes : List Node,
    (forestEdges nodes).filterMap Edge.opened? = forestIds nodes
  | [] => rfl
  | first :: rest => by
    rw [forestEdges_cons, forestIds_cons, List.filterMap_append, opened_edges first,
      opened_forestEdges rest]

end

/-- A node is opened among the edges of a tree if it is in the tree. -/
theorem opening_mem_edges {node : Node} {id : Nat} : .opening id ∈ node.edges ↔ id ∈ node.ids := by
  rw [← opened_edges, List.mem_filterMap]
  constructor
  · intro h
    exact ⟨_, h, rfl⟩
  · rintro ⟨edge, member, found⟩
    cases edge with
    | opening other =>
      cases found
      exact member
    | closing other => cases found

mutual

/-- A node is closed among the edges of a tree if it is in the tree. -/
theorem closing_mem_edges {id : Nat} : ∀ {node : Node}, .closing id ∈ node.edges ↔ id ∈ node.ids
  | ⟨own, path, name, attributes, text, children, tail⟩ => by
    rw [edges, ids_eq]
    simp [closing_mem_forestEdges, or_comm]

/-- A node is closed among the edges of a forest if it is in the forest. -/
theorem closing_mem_forestEdges {id : Nat} : ∀ {nodes : List Node},
    .closing id ∈ forestEdges nodes ↔ id ∈ forestIds nodes
  | [] => by simp
  | first :: rest => by
    rw [forestEdges_cons, forestIds_cons, List.mem_append, List.mem_append, closing_mem_edges,
      closing_mem_forestEdges]

end

/-- A node is opened among the edges of a forest if it is in the forest. -/
theorem opening_mem_forestEdges {nodes : List Node} {id : Nat} :
    .opening id ∈ forestEdges nodes ↔ id ∈ forestIds nodes := by
  rw [mem_forestIds]
  induction nodes with
  | nil => simp
  | cons first rest ih => simp [opening_mem_edges, ih]

mutual

/-- In an ordered tree no edge occurs twice. -/
theorem edges_nodup : ∀ {node : Node}, node.Ordered → node.edges.Nodup
  | ⟨id, path, name, attributes, text, children, tail⟩, ordered => by
    -- what lies below a node has other numbers than the node
    have fresh : id ∉ forestIds children := fun below =>
      absurd (ordered.lt_of_mem below) (Nat.lt_irrefl _)
    rw [edges, List.nodup_cons, List.nodup_append]
    refine ⟨?_, forestEdges_nodup ordered.children, List.nodup_singleton _, ?_⟩
    · intro member
      rcases List.mem_append.mp member with member | member
      · exact fresh (opening_mem_forestEdges.mp member)
      · simp at member
    · rintro edge member last isLast rfl
      cases List.mem_singleton.mp isLast
      exact fresh (closing_mem_forestEdges.mp member)

/-- In an ordered forest no edge occurs twice. -/
theorem forestEdges_nodup : ∀ {nodes : List Node}, ForestOrdered nodes →
    (forestEdges nodes).Nodup
  | [], _ => List.nodup_nil
  | first :: rest, ordered => by
    rw [forestEdges_cons, List.nodup_append]
    refine ⟨edges_nodup ordered.first, forestEdges_nodup ordered.rest, ?_⟩
    rintro edge inFirst other inRest rfl
    cases edge with
    | opening id =>
      exact Nat.lt_irrefl _ (ordered.lt (opening_mem_edges.mp inFirst)
        (opening_mem_forestEdges.mp inRest))
    | closing id =>
      exact Nat.lt_irrefl _ (ordered.lt (closing_mem_edges.mp inFirst)
        (closing_mem_forestEdges.mp inRest))

end

/-! ## 2. The order of edges

Edges come in the order in which the text has its tags. A node that begins before another one either
ends before it begins or ends after it has ended. -/

mutual

/-- The edges of what lies below a node stand together among the edges of the node. -/
theorem edges_isInfix {inner : Node} : ∀ {node : Node}, inner ∈ node.preorder →
    inner.edges <:+: node.edges
  | ⟨id, path, name, attributes, text, children, tail⟩, h => by
    rw [preorder_eq] at h
    rcases List.mem_cons.mp h with rfl | below
    · exact List.infix_rfl
    · rw [edges_eq ⟨id, path, name, attributes, text, children, tail⟩]
      exact ((forestEdges_isInfix below).trans (List.prefix_append _ _).isInfix).trans
        (List.suffix_cons _ _).isInfix

theorem forestEdges_isInfix {inner : Node} : ∀ {nodes : List Node},
    inner ∈ forestPreorder nodes → inner.edges <:+: forestEdges nodes
  | [], h => by simp at h
  | first :: rest, h => by
    rw [forestPreorder_cons] at h
    rw [forestEdges_cons]
    rcases List.mem_append.mp h with h | h
    · exact (edges_isInfix h).trans (List.prefix_append _ _).isInfix
    · exact (forestEdges_isInfix h).trans (List.suffix_append _ _).isInfix

end

variable {node : Node} {passed rest : List Edge} {id other : Nat}

/-- What began earlier has a smaller number. -/
theorem opening_lt (ordered : node.Ordered) (split : node.edges = passed ++ .opening id :: rest)
    (h : .opening other ∈ passed) : other < id := by
  have opened := opened_edges node
  rw [split, List.filterMap_append, List.filterMap_cons_some (f := Edge.opened?) rfl] at opened
  rw [Ordered, ← opened, List.pairwise_append] at ordered
  exact ordered.2.2 other (List.mem_filterMap.mpr ⟨_, h, rfl⟩) id List.mem_cons_self

/-- What begins later has a greater number. -/
theorem lt_opening (ordered : node.Ordered) (split : node.edges = passed ++ .opening id :: rest)
    (h : .opening other ∈ rest) : id < other := by
  have opened := opened_edges node
  rw [split, List.filterMap_append, List.filterMap_cons_some (f := Edge.opened?) rfl] at opened
  rw [Ordered, ← opened, List.pairwise_append, List.pairwise_cons] at ordered
  exact ordered.2.1.1 other (List.mem_filterMap.mpr ⟨_, h, rfl⟩)

/-- An edge splits a list without repetitions in one way. -/
theorem split_unique {edge : Edge} {before before' after after' : List Edge}
    (distinct : (before ++ edge :: after).Nodup)
    (same : before ++ edge :: after = before' ++ edge :: after') :
    before = before' ∧ after = after' := by
  obtain ⟨-, later, apart⟩ := List.nodup_append.mp distinct
  have fresh : edge ∉ before := fun member => apart _ member _ List.mem_cons_self rfl
  obtain ⟨first, -, last⟩ :=
    (List.append_cons_inj_of_notMem fresh (List.nodup_cons.mp later).1).mp same
  exact ⟨first, last⟩

/-- When an element ends, it has begun, and all that lies below it stands between. -/
theorem exists_of_closing (ordered : node.Ordered)
    (split : node.edges = passed ++ .closing id :: rest) {inner : Node}
    (member : inner ∈ node.preorder) (same : inner.id = id) :
    ∃ before, passed = before ++ .opening id :: forestEdges inner.children := by
  obtain ⟨before, after, whole⟩ := edges_isInfix member
  have distinct := edges_nodup ordered
  rw [edges_eq, same] at whole
  have : (before ++ .opening id :: forestEdges inner.children) ++ .closing id :: after =
      passed ++ .closing id :: rest := by
    rw [← split, ← whole]
    simp
  rw [split, ← this] at distinct
  exact ⟨before, (split_unique distinct this).1.symm⟩

/-- When an element ends, it and all that lies below it have begun. -/
theorem opening_mem_of_closing (ordered : node.Ordered)
    (split : node.edges = passed ++ .closing id :: rest) {inner : Node}
    (member : inner ∈ node.preorder) (same : inner.id = id) (below : other ∈ inner.ids) :
    .opening other ∈ passed := by
  obtain ⟨before, rfl⟩ := exists_of_closing ordered split member same
  rw [ids_eq, same] at below
  rcases List.mem_cons.mp below with rfl | below
  · simp
  · exact List.mem_append_right _ (List.mem_cons_of_mem _ (opening_mem_forestEdges.mpr below))

/-- An element that has ended has begun. -/
theorem opening_mem_of_closing_mem (ordered : node.Ordered) (split : node.edges = passed ++ rest)
    (h : .closing id ∈ passed) : .opening id ∈ passed := by
  have inside : .closing id ∈ node.edges := by
    rw [split]
    exact List.mem_append_left _ h
  obtain ⟨inner, member, rfl⟩ := mem_ids.mp (closing_mem_edges.mp inside)
  obtain ⟨before, after, rfl⟩ := List.append_of_mem h
  rw [List.append_assoc, List.cons_append] at split
  exact List.mem_append_left _ (opening_mem_of_closing ordered split member rfl inner.id_mem_ids)

/-- When an element ends, all that lies below it has ended. -/
theorem closing_mem_of_closing (ordered : node.Ordered)
    (split : node.edges = passed ++ .closing id :: rest) {inner : Node}
    (member : inner ∈ node.preorder) (same : inner.id = id)
    (below : other ∈ forestIds inner.children) : .closing other ∈ passed := by
  obtain ⟨before, rfl⟩ := exists_of_closing ordered split member same
  exact List.mem_append_right _ (List.mem_cons_of_mem _ (closing_mem_forestEdges.mpr below))

end Node

end Intertext.Markup
