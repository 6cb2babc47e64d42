import Intertext.Proofs.Markup.Edges
import Intertext.Proofs.Markup.Spelling
import Intertext.Proofs.Markup.Survival
/-!
Documents in document order.

The nodes of a document that was read have the numbers of the start tags that open them. So a parent
comes before its children, the numbers below a node are an interval that begins with its own, and
whether one node contains another is told by their numbers alone. All that compiling does with
numbers of nodes relies on this (`Document.inOrder_of_parse`).
-/

namespace Intertext.Markup

/-! ## 1. Intervals -/

/-- A part of the numbers from zero on is an interval. -/
theorem eq_range'_of_isInfix {ids : List Nat} {n : Nat} (h : ids <:+: List.range n) {first : Nat}
    (isFirst : ids.head? = some first) : ids = List.range' first ids.length := by
  obtain ⟨before, after, whole⟩ := h
  have entry (i : Nat) (inside : i < ids.length) : ids[i] = before.length + i := by
    have bound : before.length + i < (before ++ ids ++ after).length := by
      simp only [List.length_append]
      omega
    have there : (before ++ ids ++ after)[before.length + i] = ids[i] := by
      rw [List.getElem_append_left (by simp only [List.length_append]; omega),
        List.getElem_append_right (by omega)]
      simp
    rw [← there]
    simp only [whole, List.getElem_range]
  have start : first = before.length := by
    obtain ⟨rest, rfl⟩ := List.head?_eq_some_iff.mp isFirst
    exact entry 0 (by simp)
  refine List.ext_getElem (by simp) fun i inside _ => ?_
  rw [entry i inside, List.getElem_range', start, Nat.one_mul]

namespace Node

/-- The numbers below a node that lies below another one stand together among the numbers below
that one. -/
theorem ids_isInfix {inner node : Node} (h : inner ∈ node.preorder) : inner.ids <:+: node.ids := by
  rw [← opened_edges, ← opened_edges]
  exact (edges_isInfix h).filterMap _

theorem map_id_sublist_forestIds (nodes : List Node) :
    (nodes.map (·.id)).Sublist (forestIds nodes) := by
  induction nodes with
  | nil => exact List.Sublist.refl _
  | cons first rest ih =>
    rw [List.map_cons, forestIds_cons, ids_eq, List.cons_append]
    exact (ih.trans (List.sublist_append_right ..)).cons_cons _

end Node

/-! ## 2. Documents -/

open Node (ids_eq forestIds mem_forestIds preorder_eq mem_forestPreorder mem_preorder_self)

namespace Document

/-- Whether a document is in document order, and read from these start tags. -/
structure InOrder (document : Document) (tags : List (List Char)) : Prop where
  /-- The nodes are numbered from zero on, as they begin. -/
  ids : document.nodes.map (·.id) = List.range document.size
  /-- The start tags open the nodes, each the one with its number. -/
  opened : List.Forall₂ (fun raw node => ReadsAs raw node.name node.attributes) tags document.nodes
  /-- The first node is the only one that has no parent. -/
  orphan : ∀ node ∈ document.nodes, document.parent? node.id = none ↔ node.id = 0
  /-- A parent comes before the node, and has it once among its children. -/
  parent : ∀ node ∈ document.nodes, ∀ parent, document.parent? node.id = some parent →
    parent ∈ document.nodes ∧ parent.id < node.id ∧
      (parent.children.map (·.id)).count node.id = 1
  /-- A node is the parent of its children. -/
  child : ∀ node ∈ document.nodes, ∀ child ∈ node.children,
    document.parent? child.id = some node
  /-- Children are listed as they begin. -/
  children : ∀ node ∈ document.nodes, (node.children.map (·.id)).Pairwise (· < ·)
  /-- The numbers below a node are an interval. -/
  interval : ∀ node ∈ document.nodes, node.ids = List.range' node.id node.ids.length
  /-- A node contains those that have a number of its interval. -/
  contains : ∀ node ∈ document.nodes, ∀ id,
    document.contains node.id id = true ↔ node.id ≤ id ∧ id < node.id + node.ids.length
  /-- Nothing follows the root. -/
  tail : document.root.tail = ""
  /-- A copy of the document lists the names in the order of the numbers. -/
  names : document.root.toElement.preorder.map (·.name) = document.nodes.map (·.name)

variable {text : String} {document : Document} {node parent : Node}

/-- The start tags of a text open the nodes of its document in order. -/
theorem forall₂_readsAs_of_parse (h : parse text = .ok document) :
    List.Forall₂ (fun raw node => ReadsAs raw node.name node.attributes) (startTags text)
      document.nodes := by
  obtain ⟨spelled, length, -⟩ := spelled_of_parse h
  have ids : document.nodes.map (·.id) = List.range document.size := ids_of_parse h
  refine List.forall₂_iff_get.mpr ⟨length, fun i inTags inNodes => ?_⟩
  have sameId : (document.nodes.get ⟨i, inNodes⟩).id = i := by
    have entry : (document.nodes.map (·.id))[i]? = (List.range document.size)[i]? := by rw [ids]
    rw [List.getElem?_map, List.getElem?_eq_getElem inNodes,
      List.getElem?_eq_getElem (by rwa [List.length_range])] at entry
    simpa using entry
  obtain ⟨⟨raw, tag, reads⟩, -⟩ := spelled _ (List.get_mem document.nodes ⟨i, inNodes⟩)
  rw [sameId, List.getElem?_eq_getElem inTags] at tag
  cases tag
  exact reads

theorem Ordered.children_pairwise (ordered : document.Ordered) (isNode : node ∈ document.nodes) :
    (node.children.map (·.id)).Pairwise (· < ·) :=
  (Node.Ordered.of_mem ordered isNode).children.sublist (Node.map_id_sublist_forestIds _)

/-- A node comes before its children. -/
theorem Ordered.lt_child (ordered : document.Ordered) (isParent : parent ∈ document.nodes)
    (isChild : node ∈ parent.children) : parent.id < node.id :=
  (Node.Ordered.of_mem ordered isParent).lt_of_mem
    (mem_forestIds.mpr ⟨node, isChild, node.id_mem_ids⟩)

theorem root_id_of_parse (h : parse text = .ok document) : document.root.id = 0 := by
  have ids := ids_of_parse h
  rw [ids_eq] at ids
  have first := congrArg List.head? ids
  rw [List.head?_cons, List.head?_range] at first
  split at first
  · cases first
  · exact Option.some.inj first

/-- The root alone has no parent. -/
theorem parent?_eq_none_iff_of_parse (h : parse text = .ok document)
    (isNode : node ∈ document.nodes) : document.parent? node.id = none ↔ node.id = 0 := by
  have ordered := ordered_of_parse h
  have first := root_id_of_parse h
  constructor
  · intro orphan
    have isNode' := isNode
    rw [nodes_eq, preorder_eq] at isNode
    rcases List.mem_cons.mp isNode with rfl | below
    · exact first
    · obtain ⟨parent, isParent⟩ :=
        parent?_isSome ordered (List.mem_map_of_mem (f := (·.id)) below)
      cases orphan.symm.trans isParent
  · intro isFirst
    cases found : document.parent? node.id with
    | none => rfl
    | some parent =>
      obtain ⟨isParent, child, isChild, same⟩ := parent?_eq_some ordered found
      have earlier := ordered.lt_child isParent isChild
      rw [same, isFirst] at earlier
      exact absurd earlier (Nat.not_lt_zero _)

/-- The numbers below a node are an interval that begins with its own. -/
theorem ids_eq_range'_of_parse (h : parse text = .ok document) (isNode : node ∈ document.nodes) :
    node.ids = List.range' node.id node.ids.length := by
  refine eq_range'_of_isInfix (n := document.size) ?_ ?_
  · rw [← ids_of_parse h]
    exact Node.ids_isInfix isNode
  · rw [ids_eq, List.head?_cons]

/-- *A document that was read is in document order.* Its nodes are numbered as their start tags
follow one another; parents come before their children, children before their later siblings, and
what a node contains is an interval of numbers. -/
theorem inOrder_of_parse (h : parse text = .ok document) : document.InOrder (startTags text) where
  ids := ids_of_parse h
  opened := forall₂_readsAs_of_parse h
  orphan _ isNode := parent?_eq_none_iff_of_parse h isNode
  parent node isNode parent found := by
    have ordered := ordered_of_parse h
    obtain ⟨isParent, child, isChild, same⟩ := parent?_eq_some ordered found
    have distinct : (parent.children.map (·.id)).Nodup :=
      (ordered.children_pairwise isParent).imp Nat.ne_of_lt
    rw [← same]
    exact ⟨isParent, ordered.lt_child isParent isChild,
      List.count_eq_one_of_mem distinct (List.mem_map_of_mem isChild)⟩
  child _ isNode _ isChild := parent?_child (ordered_of_parse h) isNode isChild
  children _ isNode := (ordered_of_parse h).children_pairwise isNode
  interval _ isNode := ids_eq_range'_of_parse h isNode
  contains node isNode id := by
    have ordered := ordered_of_parse h
    have inside : id ∈ node.ids ↔ node.id ≤ id ∧ id < node.id + node.ids.length := by
      rw [ids_eq_range'_of_parse h isNode, List.mem_range'_1, List.length_range']
    rw [contains_iff ordered, ← inside]
    constructor
    · rintro ⟨other, isOther, same, below⟩
      rwa [← Node.Ordered.eq_of_id_eq ordered isOther isNode same]
    · exact fun below => ⟨node, isNode, rfl, below⟩
  tail := root_tail_of_parse h
  names := by
    have tags := congrArg (List.map Prod.fst) (Node.tags_toElement document.root)
    rw [List.map_map, List.map_map] at tags
    exact tags

/-- A text with character data around all elements, one of which is closed at once. -/
def mingledText : String :=
  "<r>a<p/>b<!--<q>--><q n=\"1\">c<s>d</s></q>e</r>\n"

/-- The document of that text. -/
def mingled : Document where
  root := ⟨0, "/r", .plain "r", [], "a",
    [⟨1, "/r/p[1]", .plain "p", [], "", [], "b"⟩,
      ⟨2, "/r/q[1]", .plain "q", [(.plain "n", "1")], "c",
        [⟨3, "/r/q[1]/s[1]", .plain "s", [], "d", [], ""⟩], "e"⟩], ""⟩
  namespaces := []

/-- The tag in the comment has no number, and the third element contains the fourth only. -/
theorem mingled_inOrder : parse mingledText = .ok mingled ∧
    mingled.InOrder ["r".toList, "p".toList, "q n=\"1\"".toList, "s".toList] ∧
    ∀ id, mingled.contains 2 id = true ↔ id = 2 ∨ id = 3 := by
  have parsed : parse mingledText = .ok mingled := by cbv
  have tags : startTags mingledText =
      ["r".toList, "p".toList, "q n=\"1\"".toList, "s".toList] := by
    cbv
  have inOrder := inOrder_of_parse parsed
  rw [tags] at inOrder
  refine ⟨parsed, inOrder, fun id => ?_⟩
  obtain ⟨node, isNode, number, width⟩ :
      ∃ node ∈ mingled.nodes, node.id = 2 ∧ node.ids.length = 2 := by
    decide
  rw [← number, inOrder.contains node isNode, number, width]
  omega

end Document

end Intertext.Markup
