import Intertext.Proofs.Markup.Tree
/-!
Trees without parts of themselves.

`Node.trim` takes out of a tree whatever lies below the nodes with a property. What is left keeps
its numbers and their order; a node is left exactly if none of its ancestors has the property
(`mem_ids_trim`).
-/

namespace Intertext.Markup.Node

mutual

/-- A tree without what lies below the nodes with a property. -/
def trim (closed : Node → Bool) : Node → Node
  | node@⟨id, path, name, attributes, text, children, tail⟩ =>
    ⟨id, path, name, attributes, text, if closed node then [] else trimForest closed children, tail⟩

/-- A forest without what lies below the nodes with a property. -/
def trimForest (closed : Node → Bool) : List Node → List Node
  | [] => []
  | first :: rest => trim closed first :: trimForest closed rest

end

variable {closed : Node → Bool}

@[simp] theorem trim_id (node : Node) : (node.trim closed).id = node.id := by
  cases node
  rfl

theorem trim_children (node : Node) :
    (node.trim closed).children = if closed node then [] else trimForest closed node.children := by
  cases node
  rfl

/-- The trees of a trimmed forest are its trees, each trimmed. -/
theorem mem_trimForest {nodes : List Node} {node : Node} :
    node ∈ trimForest closed nodes ↔ ∃ whole ∈ nodes, whole.trim closed = node := by
  induction nodes with
  | nil => simp [trimForest]
  | cons first rest ih => simp [trimForest, ih, eq_comm]

mutual

/-- Trimming takes nodes out and leaves the others in their order. -/
theorem ids_trim_sublist : ∀ node : Node, (node.trim closed).ids.Sublist node.ids
  | ⟨id, path, name, attributes, text, children, tail⟩ => by
    rw [ids_eq, ids_eq, trim_id, trim_children]
    -- The node itself stays, whether or not what is below it does.
    refine List.Sublist.cons_cons _ ?_
    split
    · exact List.nil_sublist _
    · exact forestIds_trimForest_sublist children

/-- What is left of a forest keeps its order across trees. -/
theorem forestIds_trimForest_sublist : ∀ nodes : List Node,
    (forestIds (trimForest closed nodes)).Sublist (forestIds nodes)
  | [] => List.nil_sublist _
  | first :: rest => by
    rw [trimForest, forestIds_cons, forestIds_cons]
    exact (ids_trim_sublist first).append (forestIds_trimForest_sublist rest)

end

/-- A trimmed tree is numbered in the order of the document, with gaps. -/
theorem Ordered.trim {node : Node} (ordered : node.Ordered) : (node.trim closed).Ordered :=
  ordered.sublist (ids_trim_sublist node)

/-- What is left below a node: the node, and if it does not have the property what is left below its
children. -/
theorem mem_ids_trim_iff_child {node : Node} {id : Nat} :
    id ∈ (node.trim closed).ids ↔
      id = node.id ∨
        closed node = false ∧ ∃ child ∈ node.children, id ∈ (child.trim closed).ids := by
  rw [mem_ids_iff_child, trim_id, trim_children]
  cases closed node with
  | true => simp
  | false => simp [mem_trimForest]

mutual

/-- A node is left if none of its ancestors has the property. -/
theorem mem_ids_trim {id : Nat} : ∀ {node : Node}, node.Ordered →
    (id ∈ (node.trim closed).ids ↔
      id ∈ node.ids ∧ ∀ above ∈ node.preorder, id ∈ forestIds above.children → closed above = false)
  | ⟨own, path, name, attributes, text, children, tail⟩, ordered => by
    have top : ⟨own, path, name, attributes, text, children, tail⟩ ∈
      (⟨own, path, name, attributes, text, children, tail⟩ : Node).preorder := mem_preorder_self _
    rw [mem_ids_trim_iff_child, mem_ids_iff_child]
    constructor
    · rintro (rfl | ⟨isOpen, left⟩)
      · refine ⟨Or.inl rfl, ?_⟩
        intro above member below
        have first := ordered.le_of_mem ((ids_sublist member).subset above.id_mem_ids)
        have later := (ordered.of_mem member).lt_of_mem below
        exact absurd (Nat.lt_of_le_of_lt first later) (Nat.lt_irrefl _)
      · have left' : id ∈ forestIds (trimForest closed children) := by
          obtain ⟨child, member, inside⟩ := left
          exact mem_forestIds.mpr ⟨_, mem_trimForest.mpr ⟨child, member, rfl⟩, inside⟩
        obtain ⟨inside, noneClosed⟩ := (mem_forestIds_trimForest ordered.children).mp left'
        refine ⟨Or.inr (mem_forestIds.mp inside), ?_⟩
        intro above member below
        rw [preorder_eq] at member
        rcases List.mem_cons.mp member with rfl | member
        · exact isOpen
        · exact noneClosed above member below
    · rintro ⟨inside, noneClosed⟩
      -- The node itself is an ancestor of everything below it, so it does not have the property
      -- either.
      rcases inside with rfl | inside
      · exact Or.inl rfl
      · have inside' : id ∈ forestIds children := mem_forestIds.mpr inside
        refine Or.inr ⟨noneClosed _ top inside', ?_⟩
        have left := (mem_forestIds_trimForest ordered.children).mpr ⟨inside', fun above member =>
          noneClosed above (mem_preorder_of_below (mem_preorder_self _) member)⟩
        obtain ⟨trimmed, isTrimmed, left⟩ := mem_forestIds.mp left
        obtain ⟨child, isChild, rfl⟩ := mem_trimForest.mp isTrimmed
        exact ⟨child, isChild, left⟩

/-- A node of a forest is left if none of its ancestors in the forest has the property. -/
theorem mem_forestIds_trimForest {id : Nat} : ∀ {nodes : List Node}, ForestOrdered nodes →
    (id ∈ forestIds (trimForest closed nodes) ↔
      id ∈ forestIds nodes ∧
        ∀ above ∈ forestPreorder nodes, id ∈ forestIds above.children → closed above = false)
  | [], _ => by simp [trimForest]
  | first :: rest, ordered => by
    rw [trimForest, forestIds_cons, forestIds_cons, List.mem_append, List.mem_append,
      mem_ids_trim ordered.first, mem_forestIds_trimForest ordered.rest]
    constructor
    · rintro (⟨inside, noneClosed⟩ | ⟨inside, noneClosed⟩)
      · refine ⟨Or.inl inside, ?_⟩
        intro above member below
        rcases List.mem_append.mp member with member | member
        · exact noneClosed above member below
        · have after := ((forestPreorder_sublist member).map _).subset (mem_ids_of_below below)
          exact absurd (ordered.lt inside after) (Nat.lt_irrefl _)
      · refine ⟨Or.inr inside, ?_⟩
        intro above member below
        rcases List.mem_append.mp member with member | member
        · have before := (ids_sublist member).subset (mem_ids_of_below below)
          exact absurd (ordered.lt before inside) (Nat.lt_irrefl _)
        · exact noneClosed above member below
    · rintro ⟨inside | inside, noneClosed⟩
      · exact Or.inl ⟨inside, fun above member =>
          noneClosed above (List.mem_append_left _ member)⟩
      · exact Or.inr ⟨inside, fun above member =>
          noneClosed above (List.mem_append_right _ member)⟩

end

mutual

/-- What is left of a node that is left is left below every node that had it below. -/
theorem trim_mem_preorder {inner : Node} : ∀ {node : Node}, node.Ordered →
    inner ∈ node.preorder → inner.id ∈ (node.trim closed).ids →
      inner.trim closed ∈ (node.trim closed).preorder
  | ⟨own, path, name, attributes, text, children, tail⟩, ordered, member, left => by
    rw [preorder_eq] at member ⊢
    rcases List.mem_cons.mp member with rfl | member
    · exact List.mem_cons_self
    · have below : inner.id ∈ forestIds children :=
        ((forestPreorder_sublist member).map _).subset inner.id_mem_ids
      have later := ordered.lt_of_mem below
      rcases mem_ids_trim_iff_child.mp left with same | ⟨isOpen, child, isChild, left⟩
      · exact absurd same.symm (Nat.ne_of_lt later)
      · refine List.mem_cons_of_mem _ ?_
        rw [trim_children, isOpen]
        exact trimForest_mem_forestPreorder ordered.children member
          (mem_forestIds.mpr ⟨_, mem_trimForest.mpr ⟨child, isChild, rfl⟩, left⟩)

/-- A node that is left of a forest is there with what is left of it. -/
theorem trimForest_mem_forestPreorder {inner : Node} : ∀ {nodes : List Node}, ForestOrdered nodes →
    inner ∈ forestPreorder nodes → inner.id ∈ forestIds (trimForest closed nodes) →
      inner.trim closed ∈ forestPreorder (trimForest closed nodes)
  | [], _, member, _ => by simp at member
  | first :: rest, ordered, member, left => by
    rw [trimForest, forestIds_cons] at left
    rw [trimForest, forestPreorder_cons]
    rcases List.mem_append.mp member with member | member <;>
      rcases List.mem_append.mp left with left | left
    · exact List.mem_append_left _ (trim_mem_preorder ordered.first member left)
    · have before := (ids_sublist member).subset inner.id_mem_ids
      have after := (forestIds_trimForest_sublist rest).subset left
      exact absurd (ordered.lt before after) (Nat.lt_irrefl _)
    · have before := (ids_trim_sublist first).subset left
      have after := ((forestPreorder_sublist member).map _).subset inner.id_mem_ids
      exact absurd (ordered.lt before after) (Nat.lt_irrefl _)
    · exact List.mem_append_right _ (trimForest_mem_forestPreorder ordered.rest member left)

end

mutual

/-- Where no node has the property, the whole tree is left. -/
theorem trim_eq_self : ∀ {node : Node}, (∀ inner ∈ node.preorder, closed inner = false) →
    node.trim closed = node
  | ⟨own, path, name, attributes, text, children, tail⟩, noneClosed => by
    rw [trim, noneClosed _ (mem_preorder_self _), trimForest_eq_self]
    · rfl
    · intro inner member
      exact noneClosed inner (List.mem_cons_of_mem _ member)

/-- A forest in which nothing has the property is left whole. -/
theorem trimForest_eq_self : ∀ {nodes : List Node},
    (∀ inner ∈ forestPreorder nodes, closed inner = false) → trimForest closed nodes = nodes
  | [], _ => rfl
  | first :: rest, noneClosed => by
    rw [trimForest, trim_eq_self, trimForest_eq_self]
    · exact fun inner member => noneClosed inner (List.mem_append_right _ member)
    · exact fun inner member => noneClosed inner (List.mem_append_left _ member)

end

end Intertext.Markup.Node
