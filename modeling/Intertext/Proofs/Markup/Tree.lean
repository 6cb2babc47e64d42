import Intertext.Markup.Document
import Mathlib.Data.List.Chain
import Mathlib.Data.List.Nodup
/-!
Trees of nodes.

What lies below a node is told in two ways, by walking down (`Node.preorder`) and by looking for a
number (`Node.contains`, `Node.spine?`). Where the numbers ascend in document order the two agree:
the spine of a node is the list of all nodes that contain it, nearest first (`spine?_eq`), and of
two nodes that share a descendant one contains the other (`mem_preorder_or_mem_preorder`).
-/

namespace Intertext.Markup

namespace Node

/-! ## 1. Numbers

The nodes of a tree in the order of the document, and their numbers. A forest is told with every
tree, since what is below a node is one; the two are defined together, and so are most proofs about
them. -/

/-- The numbers of a node and of everything below it, in document order. -/
def ids (node : Node) : List Nat := node.preorder.map (·.id)

/-- The numbers of the nodes of a forest and of everything below them, in document order. -/
def forestIds (nodes : List Node) : List Nat := (forestPreorder nodes).map (·.id)

/-- A tree is its root and then the forest below it. -/
theorem preorder_eq (node : Node) : node.preorder = node :: forestPreorder node.children := by
  cases node
  rfl

@[simp] theorem forestPreorder_nil : forestPreorder [] = [] := rfl

@[simp] theorem forestPreorder_cons (first : Node) (rest : List Node) :
    forestPreorder (first :: rest) = first.preorder ++ forestPreorder rest := rfl

/-- The numbers of a tree are that of its root and then those below it. -/
theorem ids_eq (node : Node) : node.ids = node.id :: forestIds node.children := by
  rw [ids, preorder_eq, List.map_cons, forestIds]

@[simp] theorem forestIds_nil : forestIds [] = [] := rfl

@[simp] theorem forestIds_cons (first : Node) (rest : List Node) :
    forestIds (first :: rest) = first.ids ++ forestIds rest := by
  rw [forestIds, forestPreorder_cons, List.map_append]
  rfl

theorem forestIds_append (first rest : List Node) :
    forestIds (first ++ rest) = forestIds first ++ forestIds rest := by
  induction first with
  | nil => rfl
  | cons node nodes ih =>
    rw [List.cons_append, forestIds_cons, ih, forestIds_cons, List.append_assoc]

theorem mem_preorder_self (node : Node) : node ∈ node.preorder := by
  rw [preorder_eq]
  exact List.mem_cons_self

theorem id_mem_ids (node : Node) : node.id ∈ node.ids := by
  rw [ids_eq]
  exact List.mem_cons_self

/-- What is below a node is in its tree. -/
theorem mem_ids_of_below {node : Node} {id : Nat} (below : id ∈ forestIds node.children) :
    id ∈ node.ids := by
  rw [ids_eq]
  exact List.mem_cons_of_mem _ below

/-- A node is in a forest if it is in one of the trees. -/
theorem mem_forestPreorder {node : Node} {nodes : List Node} :
    node ∈ forestPreorder nodes ↔ ∃ top ∈ nodes, node ∈ top.preorder := by
  induction nodes with
  | nil => simp
  | cons first rest ih => simp [ih]

theorem mem_forestIds {id : Nat} {nodes : List Node} :
    id ∈ forestIds nodes ↔ ∃ top ∈ nodes, id ∈ top.ids := by
  induction nodes with
  | nil => simp
  | cons first rest ih => simp [ih]

theorem mem_ids {id : Nat} {node : Node} : id ∈ node.ids ↔ ∃ inner ∈ node.preorder, inner.id = id :=
  List.mem_map

/-- A number below a node is the node's own or below one of its children. -/
theorem mem_ids_iff_child {node : Node} {id : Nat} :
    id ∈ node.ids ↔ id = node.id ∨ ∃ child ∈ node.children, id ∈ child.ids := by
  rw [ids_eq, List.mem_cons, mem_forestIds]

/-- A node contains the numbers of its tree. -/
theorem contains_iff {node : Node} {id : Nat} : node.contains id = true ↔ id ∈ node.ids := by
  rw [contains, List.any_eq_true, mem_ids]
  simp

mutual

/-- What lies below a node that lies below another one lies below that one, in the same order. -/
theorem preorder_sublist {inner : Node} : ∀ {node : Node}, inner ∈ node.preorder →
    inner.preorder.Sublist node.preorder
  | ⟨id, path, name, attributes, text, children, tail⟩, h => by
    rw [preorder_eq] at h
    rcases List.mem_cons.mp h with rfl | below
    · exact List.Sublist.refl _
    · rw [preorder_eq ⟨id, path, name, attributes, text, children, tail⟩]
      exact (forestPreorder_sublist below).trans (List.sublist_cons_self ..)

/-- The tree of a node in a forest stands in the forest, in the same order. -/
theorem forestPreorder_sublist {inner : Node} : ∀ {nodes : List Node},
    inner ∈ forestPreorder nodes → inner.preorder.Sublist (forestPreorder nodes)
  | [], h => by simp at h
  | first :: rest, h => by
    rw [forestPreorder_cons] at h ⊢
    rcases List.mem_append.mp h with h | h
    · exact (preorder_sublist h).trans (List.sublist_append_left ..)
    · exact (forestPreorder_sublist h).trans (List.sublist_append_right ..)

end

/-- The numbers of an inner tree stand in the outer one, in the same order. -/
theorem ids_sublist {inner node : Node} (h : inner ∈ node.preorder) :
    inner.ids.Sublist node.ids :=
  (preorder_sublist h).map _

/-- A child and everything below it lie below its parent. -/
theorem child_mem_preorder {child node : Node} (h : child ∈ node.children) :
    child ∈ node.preorder := by
  rw [preorder_eq]
  exact List.mem_cons_of_mem _ (mem_forestPreorder.mpr ⟨child, h, child.mem_preorder_self⟩)

/-- What lies below a node inside another one lies below that one. -/
theorem mem_preorder_of_below {inner node outer : Node} (h : node ∈ outer.preorder)
    (below : inner ∈ forestPreorder node.children) : inner ∈ outer.preorder := by
  refine (preorder_sublist h).subset ?_
  rw [preorder_eq]
  exact List.mem_cons_of_mem _ below

/-! ## 2. Trees in order

Numbers ascend from a node to what is below it and from one tree to the next. So a number belongs to
one node, two trees of a forest share none, and trees that share one are inside one another. -/

/-- The numbers of the tree ascend in document order. -/
def Ordered (node : Node) : Prop := node.ids.Pairwise (· < ·)

/-- The numbers of the forest ascend in document order. -/
def ForestOrdered (nodes : List Node) : Prop := (forestIds nodes).Pairwise (· < ·)

theorem Ordered.nodup {node : Node} (ordered : node.Ordered) : node.ids.Nodup :=
  ordered.imp Nat.ne_of_lt

/-- A tree inside a tree in order is in order. -/
theorem Ordered.of_mem {node inner : Node} (ordered : node.Ordered) (h : inner ∈ node.preorder) :
    inner.Ordered :=
  ordered.sublist (ids_sublist h)

theorem Ordered.children {node : Node} (ordered : node.Ordered) : ForestOrdered node.children := by
  rw [Ordered, ids_eq] at ordered
  exact (List.pairwise_cons.mp ordered).2

/-- A node comes before everything below it. -/
theorem Ordered.lt_of_mem {node : Node} (ordered : node.Ordered) {id : Nat}
    (h : id ∈ forestIds node.children) : node.id < id := by
  rw [Ordered, ids_eq] at ordered
  exact (List.pairwise_cons.mp ordered).1 id h

/-- No number in a tree is less than that of its root. -/
theorem Ordered.le_of_mem {node : Node} (ordered : node.Ordered) {id : Nat} (h : id ∈ node.ids) :
    node.id ≤ id := by
  rw [ids_eq] at h
  rcases List.mem_cons.mp h with rfl | below
  · exact Nat.le_refl _
  · exact Nat.le_of_lt (ordered.lt_of_mem below)

/-- The first tree of a forest in order is in order. -/
theorem ForestOrdered.first {first : Node} {rest : List Node}
    (ordered : ForestOrdered (first :: rest)) : first.Ordered := by
  rw [ForestOrdered, forestIds_cons] at ordered
  exact (List.pairwise_append.mp ordered).1

theorem ForestOrdered.rest {first : Node} {rest : List Node}
    (ordered : ForestOrdered (first :: rest)) : ForestOrdered rest := by
  rw [ForestOrdered, forestIds_cons] at ordered
  exact (List.pairwise_append.mp ordered).2.1

/-- A tree of a forest comes before the trees after it. -/
theorem ForestOrdered.lt {first : Node} {rest : List Node}
    (ordered : ForestOrdered (first :: rest)) {a b : Nat} (ha : a ∈ first.ids)
    (hb : b ∈ forestIds rest) : a < b := by
  rw [ForestOrdered, forestIds_cons] at ordered
  exact (List.pairwise_append.mp ordered).2.2 a ha b hb

/-- What a tree of a forest contains comes before what a later tree contains. -/
theorem ForestOrdered.lt_of_lt {first second : Node} {a b : Nat} (earlier : first.id < second.id)
    (ha : a ∈ first.ids) (hb : b ∈ second.ids) : ∀ {nodes : List Node}, ForestOrdered nodes →
      first ∈ nodes → second ∈ nodes → a < b
  | top :: rest, ordered, isFirst, isSecond => by
    rcases List.mem_cons.mp isFirst with rfl | firstInRest
    · rcases List.mem_cons.mp isSecond with rfl | secondInRest
      · exact absurd earlier (Nat.lt_irrefl _)
      · exact ordered.lt ha (mem_forestIds.mpr ⟨second, secondInRest, hb⟩)
    · rcases List.mem_cons.mp isSecond with rfl | secondInRest
      · have later := ordered.lt second.id_mem_ids
          (mem_forestIds.mpr ⟨first, firstInRest, first.id_mem_ids⟩)
        exact absurd earlier (Nat.lt_asymm later)
      · exact lt_of_lt earlier ha hb ordered.rest firstInRest secondInRest

/-- In an ordered tree a number names one node. -/
theorem Ordered.eq_of_id_eq {node a b : Node} (ordered : node.Ordered) (ha : a ∈ node.preorder)
    (hb : b ∈ node.preorder) (same : a.id = b.id) : a = b :=
  List.inj_on_of_nodup_map ordered.nodup ha hb same

mutual

/-- Of two nodes that share a descendant one contains the other. -/
theorem mem_preorder_or_mem_preorder {a b : Node} {id : Nat} (ha : id ∈ a.ids) (hb : id ∈ b.ids) :
    ∀ {node : Node}, node.Ordered → a ∈ node.preorder → b ∈ node.preorder →
      a ∈ b.preorder ∨ b ∈ a.preorder
  | ⟨own, path, name, attributes, text, children, tail⟩, ordered, ina, inb => by
    have ina' := ina
    have inb' := inb
    rw [preorder_eq] at ina inb
    rcases List.mem_cons.mp ina with rfl | belowa
    · exact Or.inr inb'
    · rcases List.mem_cons.mp inb with rfl | belowb
      · exact Or.inl ina'
      · exact mem_forestPreorder_or_mem_forestPreorder ha hb ordered.children belowa belowb

/-- Of two nodes of a forest that share a descendant one contains the other. -/
theorem mem_forestPreorder_or_mem_forestPreorder {a b : Node} {id : Nat} (ha : id ∈ a.ids)
    (hb : id ∈ b.ids) : ∀ {nodes : List Node}, ForestOrdered nodes → a ∈ forestPreorder nodes →
      b ∈ forestPreorder nodes → a ∈ b.preorder ∨ b ∈ a.preorder
  | [], _, ina, _ => by simp at ina
  | first :: rest, ordered, ina, inb => by
    rw [forestPreorder_cons] at ina inb
    rcases List.mem_append.mp ina with ina | ina <;> rcases List.mem_append.mp inb with inb | inb
    · exact mem_preorder_or_mem_preorder ha hb ordered.first ina inb
    · have := ordered.lt ((ids_sublist ina).subset ha)
        (((forestPreorder_sublist inb).map _).subset hb)
      exact absurd this (Nat.lt_irrefl _)
    · have := ordered.lt ((ids_sublist inb).subset hb)
        (((forestPreorder_sublist ina).map _).subset ha)
      exact absurd this (Nat.lt_irrefl _)
    · exact mem_forestPreorder_or_mem_forestPreorder ha hb ordered.rest ina inb

end

/-- Trees of an ordered forest that share a number are the same. -/
theorem ForestOrdered.eq_of_mem_ids {a b : Node} {id : Nat} (ha : id ∈ a.ids) (hb : id ∈ b.ids) :
    ∀ {nodes : List Node}, ForestOrdered nodes → a ∈ nodes → b ∈ nodes → a = b
  | [], _, ina, _ => absurd ina (by simp)
  | first :: rest, ordered, ina, inb => by
    have apart {node : Node} (member : node ∈ rest) (inNode : id ∈ node.ids)
        (inFirst : id ∈ first.ids) : False :=
      Nat.lt_irrefl _ (ordered.lt inFirst (mem_forestIds.mpr ⟨node, member, inNode⟩))
    rcases List.mem_cons.mp ina with isFirst | inRest
    · rcases List.mem_cons.mp inb with isFirst' | inRest'
      · rw [isFirst, isFirst']
      · exact (apart inRest' hb (isFirst ▸ ha)).elim
    · rcases List.mem_cons.mp inb with isFirst' | inRest'
      · exact (apart inRest ha (isFirst' ▸ hb)).elim
      · exact eq_of_mem_ids ha hb ordered.rest inRest inRest'

/-- What has a child of a node properly below itself has the node in it, and the other way round. -/
theorem Ordered.below_child_iff {root outer node child : Node} (ordered : root.Ordered)
    (isOuter : outer ∈ root.preorder) (isNode : node ∈ root.preorder)
    (isChild : child ∈ node.children) :
    child.id ∈ forestIds outer.children ↔ node.id ∈ outer.ids := by
  have below : child.id ∈ forestIds node.children :=
    mem_forestIds.mpr ⟨child, isChild, child.id_mem_ids⟩
  have orderedNode := ordered.of_mem isNode
  constructor
  · intro inside
    rcases mem_preorder_or_mem_preorder (mem_ids_of_below inside) (mem_ids_of_below below) ordered
      isOuter isNode with within | around
    · rw [preorder_eq] at within
      rcases List.mem_cons.mp within with rfl | within
      · exact outer.id_mem_ids
      · -- then it lies in the child, which comes before everything below it
        obtain ⟨top, isTop, inTop⟩ := mem_forestPreorder.mp within
        cases ForestOrdered.eq_of_mem_ids ((ids_sublist inTop).subset (mem_ids_of_below inside))
          child.id_mem_ids orderedNode.children isTop isChild
        have later := (ordered.of_mem isOuter).lt_of_mem inside
        have earlier := (orderedNode.of_mem (child_mem_preorder isChild)).le_of_mem
          ((ids_sublist inTop).subset outer.id_mem_ids)
        exact absurd later (Nat.not_lt.mpr earlier)
    · exact (ids_sublist around).subset node.id_mem_ids
  · intro inside
    obtain ⟨inner, isInner, same⟩ := mem_ids.mp inside
    cases ordered.eq_of_id_eq ((preorder_sublist isOuter).subset isInner) isNode same
    rw [preorder_eq] at isInner
    rcases List.mem_cons.mp isInner with rfl | within
    · exact below
    · obtain ⟨top, isTop, inTop⟩ := mem_forestPreorder.mp within
      exact mem_forestIds.mpr ⟨top, isTop, (ids_sublist inTop).subset (mem_ids_of_below below)⟩

/-! ## 3. Spines

A spine is found by going down to the number and noting the nodes on the way back up. Where numbers
are in order there is one way down, so the search finds the nodes that contain the number, and
nothing else. -/

/-- What is not in a forest is contained in no node of it. -/
theorem filter_contains_eq_nil {id : Nat} {nodes : List Node} (h : id ∉ forestIds nodes) :
    (forestPreorder nodes).filter (·.contains id) = [] := by
  rw [List.filter_eq_nil_iff]
  intro inner below inside
  exact h (((forestPreorder_sublist below).map _).subset (contains_iff.mp inside))

mutual

/-- In an ordered tree the spine of a node is the list of the nodes that contain it, nearest
first. -/
theorem spine?_eq (id : Nat) : ∀ {node : Node}, node.Ordered → id ∈ node.ids →
    node.spine? id = some (node.preorder.filter (·.contains id)).reverse
  | ⟨own, path, name, attributes, text, children, tail⟩, ordered, h => by
    have whole := contains_iff.mpr h
    rw [preorder_eq, List.filter_cons, if_pos whole, List.reverse_cons, spine?]
    by_cases same : own = id
    · have none : id ∉ forestIds children :=
        fun below => absurd (ordered.lt_of_mem below) (by simp [same])
      rw [if_pos same, filter_contains_eq_nil none]
      rfl
    · rw [ids_eq] at h
      have below : id ∈ forestIds children :=
        (List.mem_cons.mp h).resolve_left (fun equal => same equal.symm)
      rw [if_neg same, forestSpine?_eq id ordered.children below]
      rfl

/-- The spine in a forest is made of the nodes of the forest that contain the number, nearest
first. -/
theorem forestSpine?_eq (id : Nat) : ∀ {nodes : List Node}, ForestOrdered nodes →
    id ∈ forestIds nodes →
    forestSpine? id nodes = some ((forestPreorder nodes).filter (·.contains id)).reverse
  | [], _, h => by simp at h
  | first :: rest, ordered, h => by
    rw [forestSpine?, forestPreorder_cons, List.filter_append]
    by_cases inside : id ∈ first.ids
    · have none : id ∉ forestIds rest := fun after => absurd (ordered.lt inside after) (by simp)
      rw [spine?_eq id ordered.first inside, filter_contains_eq_nil none, List.append_nil]
    · rw [forestIds_cons] at h
      have after := (List.mem_append.mp h).resolve_left inside
      have nothing : first.preorder.filter (·.contains id) = [] := by
        rw [List.filter_eq_nil_iff]
        intro inner below held
        exact inside ((ids_sublist below).subset (contains_iff.mp held))
      rw [spine?_eq_none inside, nothing, List.nil_append]
      exact forestSpine?_eq id ordered.rest after

/-- A number that is not in a tree has no spine there. -/
theorem spine?_eq_none {id : Nat} : ∀ {node : Node}, id ∉ node.ids → node.spine? id = none
  | ⟨own, path, name, attributes, text, children, tail⟩, h => by
    rw [ids_eq, List.mem_cons, not_or] at h
    rw [spine?, if_neg (fun same => h.1 same.symm), forestSpine?_eq_none h.2]
    rfl

/-- What is not in a forest has no spine in it. -/
theorem forestSpine?_eq_none {id : Nat} : ∀ {nodes : List Node}, id ∉ forestIds nodes →
    forestSpine? id nodes = none
  | [], _ => rfl
  | first :: rest, h => by
    rw [forestIds_cons, List.mem_append, not_or] at h
    rw [forestSpine?, spine?_eq_none h.1]
    exact forestSpine?_eq_none h.2

end

mutual

/-- A spine goes from a node up to the root, each time to the parent. -/
theorem spine?_isChain {id : Nat} : ∀ {node : Node} {spine : List Node},
    node.spine? id = some spine →
      spine.IsChain (fun child parent => child ∈ parent.children) ∧ spine.getLast? = some node
  | ⟨own, path, name, attributes, text, children, tail⟩, spine, h => by
    rw [spine?] at h
    split at h
    · cases h
      exact ⟨List.isChain_singleton _, rfl⟩
    · obtain ⟨inner, found, rfl⟩ := Option.map_eq_some_iff.mp h
      obtain ⟨chain, top, last, member⟩ := forestSpine?_isChain found
      refine ⟨List.isChain_append.mpr ⟨chain, List.isChain_singleton _, ?_⟩, by simp⟩
      intro below isLast above isFirst
      rw [last] at isLast
      cases isLast
      cases isFirst
      exact member

/-- A spine in a forest goes up from child to parent and ends at a tree of the forest. -/
theorem forestSpine?_isChain {id : Nat} : ∀ {nodes : List Node} {spine : List Node},
    forestSpine? id nodes = some spine →
      spine.IsChain (fun child parent => child ∈ parent.children) ∧
        ∃ top, spine.getLast? = some top ∧ top ∈ nodes
  | [], spine, h => by simp [forestSpine?] at h
  | first :: rest, spine, h => by
    rw [forestSpine?] at h
    split at h
    · rename_i inner found
      cases h
      obtain ⟨chain, last⟩ := spine?_isChain found
      exact ⟨chain, first, last, List.mem_cons_self⟩
    · obtain ⟨chain, top, last, member⟩ := forestSpine?_isChain h
      exact ⟨chain, top, last, List.mem_cons_of_mem _ member⟩

end

mutual

/-- A spine begins with the node it was asked for. -/
theorem spine?_head {id : Nat} : ∀ {node : Node} {spine : List Node},
    node.spine? id = some spine → ∃ own rest, spine = own :: rest ∧ own.id = id
  | ⟨own, path, name, attributes, text, children, tail⟩, spine, h => by
    rw [spine?] at h
    split at h
    · rename_i same
      cases h
      exact ⟨_, [], rfl, same⟩
    · obtain ⟨inner, found, rfl⟩ := Option.map_eq_some_iff.mp h
      obtain ⟨first, rest, rfl, same⟩ := forestSpine?_head found
      exact ⟨first, _, rfl, same⟩

/-- A spine in a forest begins with the node itself. -/
theorem forestSpine?_head {id : Nat} : ∀ {nodes : List Node} {spine : List Node},
    forestSpine? id nodes = some spine → ∃ own rest, spine = own :: rest ∧ own.id = id
  | [], spine, h => by simp [forestSpine?] at h
  | first :: rest, spine, h => by
    rw [forestSpine?] at h
    split at h
    · rename_i inner found
      cases h
      exact spine?_head found
    · exact forestSpine?_head h

end

end Node

/-! ## 4. Documents

A document asks about its nodes by way of spines: the ancestors of a node are its spine without the
node, and its parent is the first of them. -/

namespace Document

open Node

/-- The nodes of the document are numbered in document order. -/
def Ordered (document : Document) : Prop := document.root.Ordered

variable {document : Document} {id : Nat}

theorem nodes_eq : document.nodes = document.root.preorder := rfl

/-- On the spine of a number are the nodes that contain it. -/
theorem mem_spine (ordered : document.Ordered) {node : Node} :
    node ∈ document.spine id ↔ node ∈ document.nodes ∧ id ∈ node.ids := by
  rw [spine]
  by_cases h : id ∈ document.root.ids
  · rw [spine?_eq id ordered h, Option.getD_some, List.mem_reverse, List.mem_filter, contains_iff,
      nodes_eq]
  · rw [spine?_eq_none h]
    constructor
    · intro member
      simp at member
    · rintro ⟨member, below⟩
      exact absurd ((ids_sublist member).subset below) h

/-- A node contains another one if its number is found on the other's spine. -/
theorem contains_iff (ordered : document.Ordered) {ancestor : Nat} :
    document.contains ancestor id = true ↔
      ∃ node ∈ document.nodes, node.id = ancestor ∧ id ∈ node.ids := by
  rw [contains, List.any_eq_true]
  constructor
  · rintro ⟨node, member, same⟩
    rw [mem_spine ordered] at member
    exact ⟨node, member.1, of_decide_eq_true same, member.2⟩
  · rintro ⟨node, member, same, below⟩
    exact ⟨node, (mem_spine ordered).mpr ⟨member, below⟩, decide_eq_true same⟩

/-- Along a spine the numbers descend: it lists nodes in the opposite of document order. -/
theorem spine_pairwise (ordered : document.Ordered) (id : Nat) :
    (document.spine id).Pairwise (fun a b => b.id < a.id) := by
  rw [spine]
  by_cases h : id ∈ document.root.ids
  · rw [spine?_eq id ordered h, Option.getD_some, List.pairwise_reverse]
    exact (List.pairwise_map.mp ordered).filter _
  · rw [spine?_eq_none h]
    exact List.Pairwise.nil

/-- The spine of a node is the node and then its ancestors. -/
theorem spine_eq_cons (h : id ∈ document.root.ids) (ordered : document.Ordered) :
    ∃ own, document.spine id = own :: document.ancestors id ∧ own ∈ document.nodes ∧
      own.id = id := by
  obtain ⟨own, rest, found, same⟩ := spine?_head (spine?_eq id ordered h)
  have whole : document.spine id = own :: rest := by
    rw [spine, spine?_eq id ordered h, Option.getD_some, found]
  have member : own ∈ document.spine id := by
    rw [whole]
    exact List.mem_cons_self
  refine ⟨own, ?_, ((mem_spine ordered).mp member).1, same⟩
  rw [ancestors, whole, List.tail_cons]

/-- The ancestors of a node are the nodes that have it below them. -/
theorem mem_ancestors (ordered : document.Ordered) {node : Node} :
    node ∈ document.ancestors id ↔ node ∈ document.nodes ∧ id ∈ forestIds node.children := by
  by_cases h : id ∈ document.root.ids
  · obtain ⟨own, spine, inside, same⟩ := spine_eq_cons h ordered
    have distinct : (document.spine id).Nodup := by
      rw [Document.spine, spine?_eq id ordered h, Option.getD_some, List.nodup_reverse]
      exact (List.Nodup.of_map _ ordered.nodup).filter _
    rw [spine] at distinct
    constructor
    · intro member
      have onSpine : node ∈ document.spine id := by
        rw [spine]
        exact List.mem_cons_of_mem _ member
      obtain ⟨isNode, below⟩ := (mem_spine ordered).mp onSpine
      refine ⟨isNode, ?_⟩
      rw [ids_eq] at below
      refine (List.mem_cons.mp below).resolve_left ?_
      -- Otherwise it would be the node itself, which its spine has once, at the front.
      intro equal
      have : node = own :=
        Node.Ordered.eq_of_id_eq ordered isNode inside (equal.symm.trans same.symm)
      exact (List.nodup_cons.mp distinct).1 (this ▸ member)
    · rintro ⟨isNode, below⟩
      have onSpine : node ∈ document.spine id := by
        rw [mem_spine ordered, ids_eq]
        exact ⟨isNode, List.mem_cons_of_mem _ below⟩
      rw [spine] at onSpine
      refine (List.mem_cons.mp onSpine).resolve_left ?_
      intro equal
      have := (Node.Ordered.of_mem ordered isNode).lt_of_mem below
      rw [equal, same] at this
      exact Nat.lt_irrefl _ this
  · have none : document.ancestors id = [] := by
      rw [ancestors, Document.spine, spine?_eq_none h]
      rfl
    rw [none]
    constructor
    · intro member
      simp at member
    · rintro ⟨isNode, below⟩
      exact absurd ((ids_sublist isNode).subset (mem_ids_of_below below)) h

/-- The parent of a node has it as a child. -/
theorem parent?_eq_some (ordered : document.Ordered) {parent : Node}
    (h : document.parent? id = some parent) :
    parent ∈ document.nodes ∧ ∃ child ∈ parent.children, child.id = id := by
  have member : parent ∈ document.ancestors id := List.mem_of_mem_head? h
  obtain ⟨isNode, below⟩ := (mem_ancestors ordered).mp member
  have inside : id ∈ document.root.ids := (ids_sublist isNode).subset (mem_ids_of_below below)
  obtain ⟨own, spine, -, same⟩ := spine_eq_cons inside ordered
  obtain ⟨rest, ancestors⟩ : ∃ rest, document.ancestors id = parent :: rest :=
    List.head?_eq_some_iff.mp h
  refine ⟨isNode, own, ?_, same⟩
  have found := spine?_eq id ordered inside
  obtain ⟨chain, -⟩ := spine?_isChain found
  have whole : document.spine id = (document.root.preorder.filter (·.contains id)).reverse := by
    rw [Document.spine, found, Option.getD_some]
  rw [← whole, spine, ancestors] at chain
  exact (List.isChain_cons_cons.mp chain).1

/-- Every node but the root has a parent. -/
theorem parent?_isSome (ordered : document.Ordered) (h : id ∈ forestIds document.root.children) :
    ∃ parent, document.parent? id = some parent := by
  have member : document.root ∈ document.ancestors id :=
    (mem_ancestors ordered).mpr ⟨mem_preorder_self _, h⟩
  cases found : document.parent? id with
  | some parent => exact ⟨parent, rfl⟩
  | none =>
    rw [parent?, List.head?_eq_none_iff] at found
    rw [found] at member
    simp at member

/-- The parent of a node lies below every other ancestor. -/
theorem parent?_mem_preorder (ordered : document.Ordered) {parent node : Node}
    (h : document.parent? id = some parent) (isNode : node ∈ document.nodes)
    (below : id ∈ forestIds node.children) : parent ∈ node.preorder := by
  have first : parent ∈ document.ancestors id := List.mem_of_mem_head? h
  have member : node ∈ document.ancestors id := (mem_ancestors ordered).mpr ⟨isNode, below⟩
  obtain ⟨isParent, inner⟩ := (mem_ancestors ordered).mp first
  obtain ⟨rest, ancestors⟩ : ∃ rest, document.ancestors id = parent :: rest :=
    List.head?_eq_some_iff.mp h
  have inside : id ∈ document.root.ids := (ids_sublist isNode).subset (mem_ids_of_below below)
  -- Going up the spine the numbers descend, and the parent comes first.
  have nearest : node.id ≤ parent.id := by
    have sorted := spine_pairwise ordered id
    obtain ⟨own, spine, -, -⟩ := spine_eq_cons inside ordered
    rw [spine, ancestors, List.pairwise_cons, List.pairwise_cons] at sorted
    rw [ancestors] at member
    rcases List.mem_cons.mp member with rfl | member
    · exact Nat.le_refl _
    · exact Nat.le_of_lt (sorted.2.1 node member)
  rcases mem_preorder_or_mem_preorder (mem_ids_of_below inner) (mem_ids_of_below below) ordered
    isParent isNode with inNode | outside
  · exact inNode
  · have later : parent.id ≤ node.id :=
      (Node.Ordered.of_mem ordered isParent).le_of_mem
        ((ids_sublist outside).subset node.id_mem_ids)
    have same := Nat.le_antisymm nearest later
    rw [Node.Ordered.eq_of_id_eq ordered isNode isParent same]
    exact mem_preorder_self _

/-- The ancestors of a child are its parent and the ancestors of its parent. -/
theorem ancestors_child (ordered : document.Ordered) {node child : Node}
    (isNode : node ∈ document.nodes) (isChild : child ∈ node.children) :
    document.ancestors child.id = document.spine node.id := by
  have below : child.id ∈ forestIds node.children :=
    mem_forestIds.mpr ⟨child, isChild, child.id_mem_ids⟩
  have same (outer : Node) :
      outer ∈ document.ancestors child.id ↔ outer ∈ document.spine node.id := by
    rw [mem_ancestors ordered, mem_spine ordered]
    refine and_congr_right fun isOuter => ?_
    exact Node.Ordered.below_child_iff ordered isOuter isNode isChild
  -- both list the same nodes in the opposite of document order
  have sorted := (spine_pairwise ordered child.id).sublist (List.tail_sublist _)
  have sorted' := spine_pairwise ordered node.id
  have distinct {nodes : List Node} (sorted : nodes.Pairwise fun a b => b.id < a.id) :
      nodes.Nodup := sorted.imp fun later equal => by
    rw [equal] at later
    exact Nat.lt_irrefl _ later
  refine List.Perm.eq_of_pairwise ?_ sorted sorted'
    ((List.perm_ext_iff_of_nodup (distinct sorted) (distinct sorted')).mpr same)
  intro a b _ _ later earlier
  exact absurd later (Nat.lt_asymm earlier)

/-- A node is the parent of its children. -/
theorem parent?_child (ordered : document.Ordered) {node child : Node}
    (isNode : node ∈ document.nodes) (isChild : child ∈ node.children) :
    document.parent? child.id = some node := by
  rw [parent?, ancestors_child ordered isNode isChild]
  obtain ⟨own, spine, isOwn, same⟩ :=
    spine_eq_cons (List.mem_map_of_mem (f := (·.id)) isNode) ordered
  rw [spine, List.head?_cons, Node.Ordered.eq_of_id_eq ordered isOwn isNode same]

/-- A number of the document leads to the node that has it. -/
theorem node?_eq_some (ordered : document.Ordered) {node : Node} :
    document.node? id = some node ↔ node ∈ document.nodes ∧ node.id = id := by
  rw [node?, find?]
  constructor
  · intro h
    exact ⟨List.mem_of_find?_eq_some h, by simpa using List.find?_some h⟩
  · rintro ⟨member, same⟩
    cases found : document.nodes.find? (·.id = id) with
    | some other =>
      have hasId : other.id = id := by simpa using List.find?_some found
      rw [Node.Ordered.eq_of_id_eq ordered member (List.mem_of_find?_eq_some found)
        (same.trans hasId.symm)]
    | none =>
      have := List.find?_eq_none.mp found node member
      simp [same] at this

end Document

end Intertext.Markup
