import Intertext.Compile.Bounds
import Intertext.Proofs.Markup.Tree
import Intertext.Proofs.Outcome
/-!
What it means that two markers bound a range.

Where two markers bound a range, both are in the document, the stop does not come before the start
unless it encloses it, and the ancestor of the range encloses the start. An element around the
start that lies outside the ancestor encloses the stop as well (`Located.covers`), so nothing of
it but what lies below it can be in the range.
-/

namespace Intertext.Compile

open Markup (Node Document)
open Markup.Node

/-- Whether an extraction with structure shows only the tag and the attributes of an element: the
element leads from the ancestor of the range down to the start. -/
def Bounds.isShell (document : Document) (bounds : Bounds) (node : Node) : Bool :=
  bounds.ancestor ≠ bounds.start && node.id ≠ bounds.start &&
    document.contains bounds.ancestor node.id && document.contains node.id bounds.start

/-- What holds of the bounds of a range. -/
structure Located (document : Document) (bounds : Bounds) : Prop where
  start_mem : bounds.start ∈ document.root.ids
  stop_mem : bounds.stop ∈ document.root.ids
  forward : bounds.start ≤ bounds.stop ∨
    ∃ node ∈ document.nodes, node.id = bounds.stop ∧ bounds.start ∈ node.ids
  ancestor : ∃ node ∈ document.nodes, node.id = bounds.ancestor ∧ bounds.start ∈ node.ids
  covers : ∀ node ∈ document.nodes, bounds.start ∈ forestIds node.children →
    bounds.isShell document node = false → bounds.stop ∈ forestIds node.children

variable {document : Document} {bounds : Bounds}

/-- What a marker leads to is in the document. -/
theorem findMarker?_mem {marker : String} {node : Node}
    (h : findMarker? document marker = some node) : node ∈ document.nodes := by
  unfold findMarker? at h
  split at h <;> exact List.mem_of_find?_eq_some h

/-- The number of a node is among those of its document. -/
theorem id_mem_ids_of_mem {node : Node} (h : node ∈ document.nodes) :
    node.id ∈ document.root.ids :=
  (ids_sublist h).subset node.id_mem_ids

/-- A node encloses what a node below it has properly below itself. -/
theorem mem_forestIds_of_mem {outer inner : Node} {id : Nat} (ordered : outer.Ordered)
    (member : inner ∈ outer.preorder) (below : id ∈ forestIds inner.children) :
    id ∈ forestIds outer.children := by
  have inside : id ∈ inner.ids := mem_ids_of_below below
  have whole := (ids_sublist member).subset inside
  rw [ids_eq] at whole
  -- what lies properly below a node has a later number, so it is not the outer node itself
  refine (List.mem_cons.mp whole).resolve_left ?_
  intro same
  have first := ordered.le_of_mem ((ids_sublist member).subset inner.id_mem_ids)
  have later := (ordered.of_mem member).lt_of_mem below
  rw [same] at later
  exact absurd (Nat.lt_of_le_of_lt first later) (Nat.lt_irrefl _)

/-- Where the start and the stop have one parent, what encloses the start encloses the stop. -/
theorem covers_of_parent_eq (ordered : document.Ordered) {start stop : Nat}
    (same : (document.parent? start).map (·.id) = (document.parent? stop).map (·.id))
    {node : Node} (isNode : node ∈ document.nodes) (below : start ∈ forestIds node.children) :
    stop ∈ forestIds node.children := by
  obtain ⟨parent, found⟩ :=
    Document.parent?_isSome ordered (mem_forestIds_of_mem ordered isNode below)
  rw [found] at same
  obtain ⟨other, foundOther, sameId⟩ := Option.map_eq_some_iff.mp same.symm
  obtain ⟨isParent, -⟩ := Document.parent?_eq_some ordered found
  obtain ⟨isOther, child, isChild, rfl⟩ := Document.parent?_eq_some ordered foundOther
  cases Node.Ordered.eq_of_id_eq ordered isOther isParent sameId
  exact mem_forestIds_of_mem (Node.Ordered.of_mem ordered isNode)
    (Document.parent?_mem_preorder ordered found isNode below)
    (mem_forestIds.mpr ⟨child, isChild, child.id_mem_ids⟩)

/-- Where an element encloses the stop too, what encloses the start properly lies inside that
element or encloses the stop properly. -/
theorem covers_of_mem_spine (ordered : document.Ordered) {start stop : Nat} {ancestor node : Node}
    (isAncestor : ancestor ∈ document.nodes) (holdsStart : start ∈ ancestor.ids)
    (holdsStop : stop ∈ ancestor.ids) (isNode : node ∈ document.nodes)
    (below : start ∈ forestIds node.children) (outside : node ∉ ancestor.preorder) :
    stop ∈ forestIds node.children := by
  have around : start ∈ node.ids := mem_ids_of_below below
  have inside := (mem_preorder_or_mem_preorder holdsStart around ordered isAncestor
    isNode).resolve_right outside
  have whole := (ids_sublist inside).subset holdsStop
  rw [ids_eq] at whole
  -- if the node were the stop it would be the ancestor, and that is inside itself
  refine (List.mem_cons.mp whole).resolve_left fun same => outside ?_
  have orderedNode := Node.Ordered.of_mem ordered isNode
  have first := orderedNode.le_of_mem ((ids_sublist inside).subset ancestor.id_mem_ids)
  have later := (Node.Ordered.of_mem ordered isAncestor).le_of_mem holdsStop
  rw [same] at later
  rw [Node.Ordered.eq_of_id_eq ordered isNode isAncestor (Nat.le_antisymm first later)]
  exact mem_preorder_self _

/-- What encloses the start properly within the ancestor is a shell. -/
theorem isShell_of_mem (ordered : document.Ordered) {ancestor node : Node}
    (isAncestor : ancestor ∈ document.nodes) (same : ancestor.id = bounds.ancestor)
    (inside : node ∈ ancestor.preorder) (below : bounds.start ∈ forestIds node.children) :
    bounds.isShell document node = true := by
  have isNode : node ∈ document.nodes := (preorder_sublist isAncestor).subset inside
  have later := (Node.Ordered.of_mem ordered isNode).lt_of_mem below
  have first := (Node.Ordered.of_mem ordered isAncestor).le_of_mem
    ((ids_sublist inside).subset node.id_mem_ids)
  have around : bounds.start ∈ node.ids := mem_ids_of_below below
  simp only [Bounds.isShell, Bool.and_eq_true, decide_eq_true_eq, Document.contains_iff ordered]
  have below : node.id ∈ ancestor.ids := (ids_sublist inside).subset node.id_mem_ids
  exact ⟨⟨⟨by omega, by omega⟩, ancestor, isAncestor, same, below⟩,
    node, isNode, rfl, around⟩

/-- What it takes that two markers bound a range. -/
theorem Bounds.locate_eq_ok {startMarker stopMarker : String}
    (h : Bounds.locate document startMarker stopMarker = .ok bounds) :
    ∃ start stop ancestor, findMarker? document startMarker = some start ∧
      findMarker? document stopMarker = some stop ∧
      bounds = ⟨start.id, stop.id, ancestor.id⟩ ∧
      (start.id ≤ stop.id ∨ document.contains stop.id start.id = true) ∧
      ((start.id = stop.id ∨
          (document.parent? start.id).map (·.id) = (document.parent? stop.id).map (·.id)) ∧
          ancestor = start ∨
        start.id ≠ stop.id ∧
          (document.spine start.id).find? (·.contains stop.id) = some ancestor) := by
  unfold Bounds.locate at h
  split at h
  · cases h
  rename_i start foundStart
  split at h
  · cases h
  rename_i stop foundStop
  unfold Bounds.between at h
  split at h
  · cases h
  rename_i forward
  rw [not_and_or, Bool.not_eq_true, Bool.not_eq_false, Nat.not_lt] at forward
  split at h
  · rename_i level
    cases h
    exact ⟨start, stop, start, foundStart, foundStop, rfl, forward, Or.inl ⟨level, rfl⟩⟩
  · rename_i apart
    split at h
    · rename_i ancestor found
      cases h
      exact ⟨start, stop, ancestor, foundStart, foundStop, rfl, forward,
        Or.inr ⟨fun same => apart (Or.inl same), found⟩⟩
    · cases h

/-- Why two markers bound no range. -/
theorem Bounds.locate_eq_error {startMarker stopMarker : String} {error : Error}
    (h : Bounds.locate document startMarker stopMarker = .error error) :
    findMarker? document startMarker = none ∧ error = .missing (.startMarker startMarker) ∨
      findMarker? document stopMarker = none ∧ error = .missing (.endMarker stopMarker) ∨
      ∃ why, error = .badRange why := by
  unfold Bounds.locate at h
  split at h
  · rename_i missing
    cases h
    exact Or.inl ⟨missing, rfl⟩
  split at h
  · rename_i missing
    cases h
    exact Or.inr (Or.inl ⟨missing, rfl⟩)
  unfold Bounds.between at h
  split at h
  · cases h
    exact Or.inr (Or.inr ⟨_, rfl⟩)
  split at h
  · cases h
  split at h
  · cases h
  · cases h
    exact Or.inr (Or.inr ⟨_, rfl⟩)

/-- Markers that bound a range bound it as they should. -/
theorem located_of_locate (ordered : document.Ordered) {startMarker stopMarker : String}
    (h : Bounds.locate document startMarker stopMarker = .ok bounds) :
    Located document bounds := by
  obtain ⟨start, stop, ancestor, foundStart, foundStop, rfl, forward, reached⟩ :=
    Bounds.locate_eq_ok h
  have isStart := findMarker?_mem foundStart
  have isStop := findMarker?_mem foundStop
  have forward := forward.imp id (Document.contains_iff ordered).mp
  rcases reached with ⟨level, rfl⟩ | ⟨-, found⟩
  · refine ⟨id_mem_ids_of_mem isStart, id_mem_ids_of_mem isStop, forward,
      ⟨ancestor, isStart, rfl, ancestor.id_mem_ids⟩, fun node isNode below _ => ?_⟩
    rcases level with same | same
    · exact same ▸ below
    · exact covers_of_parent_eq ordered same isNode below
  · obtain ⟨isAncestor, holdsStart⟩ :=
      (Document.mem_spine ordered).mp (List.mem_of_find?_eq_some found)
    have holdsStop : stop.id ∈ ancestor.ids :=
      contains_iff.mp (by simpa using List.find?_some found)
    refine ⟨id_mem_ids_of_mem isStart, id_mem_ids_of_mem isStop, forward,
      ⟨ancestor, isAncestor, rfl, holdsStart⟩, fun node isNode below notShell => ?_⟩
    refine covers_of_mem_spine ordered isAncestor holdsStart holdsStop isNode below ?_
    intro inside
    rw [isShell_of_mem ordered isAncestor rfl inside below] at notShell
    cases notShell

end Intertext.Compile
