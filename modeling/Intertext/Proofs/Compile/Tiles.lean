import Intertext.Proofs.Compile.Marked
import Intertext.Proofs.Compile.Plain
/-!
Ranges between milestones.

Milestones that are children of one parent cut what follows the first of them into tiles, each of
which is a milestone with its siblings up to the next one. A range from one milestone to another
begins with the first one and runs on past the last one until the next milestone begins, or until
the parent ends. So it is open from the first edge of its first tile to the last edge of its last
one (`Stretch.isOpen_through`), and what is extracted is these tiles as they stand, one after the
other (`external_milestones`). No two ranges of one tile each have anything in common, and nothing
between two milestones belongs to none.

The identifiers have to tell the milestones apart. Where one continues another, the range of the
shorter one runs on past the milestone of the longer one.
-/

namespace Intertext.Compile

open Markup (Element Node Document Edge)
open Markup.Node
open Index (isFragment)

/-! ## 1. Tiles

Cutting into tiles loses nothing but what stands before the first milestone. So the milestones of a
list and its tiles have the same indices, and a range of milestones is a range of tiles. -/

/-- A list of siblings cut before every milestone, without what comes before the first one. -/
def tiles : List Node → List (List Node)
  | [] => []
  | first :: rest =>
    if isMilestone first then (first :: rest.takeWhile (!isMilestone ·)) :: tiles rest
    else tiles rest

/-- The siblings before the first milestone and the tiles make up the list. -/
theorem takeWhile_append_tiles (nodes : List Node) :
    nodes.takeWhile (!isMilestone ·) ++ (tiles nodes).flatten = nodes := by
  induction nodes with
  | nil => rfl
  | cons first rest ih =>
    rw [tiles]
    cases found : isMilestone first with
    | true =>
      rw [List.takeWhile_cons_of_neg (by simp [found]), if_pos rfl, List.nil_append,
        List.flatten_cons, List.cons_append, ih]
    | false =>
      rw [List.takeWhile_cons_of_pos (by simp [found]), if_neg (by simp), List.cons_append, ih]

/-- There is one tile for each milestone, and it begins with it. -/
theorem head?_tiles (nodes : List Node) :
    (tiles nodes).map List.head? = (nodes.filter isMilestone).map some := by
  induction nodes with
  | nil => rfl
  | cons first rest ih =>
    rw [tiles]
    cases found : isMilestone first with
    | true =>
      rw [if_pos rfl, List.map_cons, ih, List.filter_cons_of_pos found]
      rfl
    | false => rw [if_neg (by simp), ih, List.filter_cons_of_neg (by simp [found])]

/-- After its milestone there is none in a tile. -/
theorem tail_tiles {nodes tile : List Node} (member : tile ∈ tiles nodes) :
    ∀ node ∈ tile.tail, isMilestone node = false := by
  induction nodes with
  | nil => cases member
  | cons first rest ih =>
    rw [tiles] at member
    split at member
    · rcases List.mem_cons.mp member with rfl | member
      · intro node inRest
        simpa using List.mem_takeWhile_imp inRest
      · exact ih member
    · exact ih member

/-! ## 2. The stretch of some siblings

Where a list of edges has three parts and the range begins with the second one and ends with the
third, an edge is inside the range exactly if it is in the second. For siblings the parts are the
edges before a tile, those of the tiles, and the rest. -/

variable {document : Document}

section Open

variable {stretch : Stretch} {before middle passed : List Edge} {last : Nat}

/-- A stretch is not open before it begins. -/
theorem Stretch.isOpen_of_not_begun (notBegun : .opening stretch.start ∉ passed) :
    stretch.isOpen passed = false := by
  have isNot : stretch.isBegun passed = false := Bool.eq_false_iff.mpr (mt hasBegun_iff.mp notBegun)
  rw [isOpen, isNot, Bool.false_and]

/-- A stretch that runs on is open from its beginning on until an edge ends it. -/
theorem Stretch.isOpen_of_not_ended (begun : .opening stretch.start ∈ passed)
    (notStopped : .closing stretch.stop ∉ before) (runs : stretch.last = some last)
    (lasts : ∀ edge ∈ stretch.beyond passed, stretch.ends last edge = false) :
    stretch.isOpen (before ++ passed) = true := by
  have isBegun : stretch.isBegun passed = true := hasBegun_iff.mpr begun
  have notOver : stretch.isOver (before ++ passed) = false := by
    simp only [isOver, runs]
    rw [beyond_append, if_neg (mt isStopped_iff.mp notStopped), List.any_eq_false]
    intro edge isBeyond
    rw [lasts edge isBeyond]
    exact Bool.false_ne_true
  rw [isOpen, isBegun_append, isBegun, notOver, Bool.or_true]
  rfl

/-- A stretch that runs on is not open after an edge that ends it. -/
theorem Stretch.isOpen_of_ended {next : Edge} {more : List Edge}
    (stops : .closing stretch.stop ∈ before) (runs : stretch.last = some last)
    (ends : stretch.ends last next = true) :
    stretch.isOpen (before ++ next :: more) = false := by
  have hasEnded : stretch.isOver (before ++ next :: more) = true := by
    simp only [isOver, runs]
    rw [beyond_append, if_pos (isStopped_iff.mpr stops), List.any_append, List.any_cons, ends,
      Bool.true_or, Bool.or_true]
  rw [isOpen, hasEnded, Bool.not_true, Bool.and_false]

/-- A stretch that begins with some edges is not open at an edge before them. -/
theorem Stretch.isOpen_through_before {edges after : List Edge} {edge : Edge}
    (distinct : edges.Nodup) (split : edges = before ++ after)
    (begins : .opening stretch.start ∈ after) (isBefore : edge ∈ before) :
    stretch.isOpen (through edges edge) = false := by
  have apart := distinct
  rw [split, List.nodup_append] at apart
  obtain ⟨passed, more, whole⟩ := List.append_of_mem isBefore
  have parts : edges = passed ++ edge :: (more ++ after) := by
    rw [split, whole]
    simp
  have notBegun : .opening stretch.start ∉ passed ++ [edge] := by
    intro begun
    have isEarlier : .opening stretch.start ∈ before := by
      rw [whole, List.append_cons]
      exact List.mem_append_left _ begun
    exact apart.2.2 _ isEarlier _ begins rfl
  rw [through_eq distinct parts, isOpen_of_not_begun notBegun]

/-- A stretch that begins with some edges, and that none of them ends, is open at each of them. -/
theorem Stretch.isOpen_through_inside {edges after : List Edge} {edge : Edge}
    (distinct : edges.Nodup) (split : edges = before ++ (middle ++ after))
    (begins : middle.head? = some (.opening stretch.start))
    (notStopped : .closing stretch.stop ∉ before) (runs : stretch.last = some last)
    (lasts : ∀ edge ∈ stretch.beyond middle, stretch.ends last edge = false)
    (inside : edge ∈ middle) :
    stretch.isOpen (through edges edge) = true := by
  obtain ⟨passed, more, whole⟩ := List.append_of_mem inside
  have parts : edges = before ++ passed ++ edge :: (more ++ after) := by
    rw [split, whole]
    simp
  have begun : .opening stretch.start ∈ passed ++ [edge] := by
    rw [whole] at begins
    cases passed with
    | nil =>
      cases begins
      exact List.mem_cons_self
    | cons first others =>
      cases begins
      exact List.mem_cons_self
  -- What has ended the range by here would end it within the second part.
  have goesOn : ∀ other ∈ stretch.beyond (passed ++ [edge]),
      stretch.ends last other = false := by
    intro other isBeyond
    refine lasts other ?_
    rw [whole, List.append_cons, beyond_append]
    split
    · exact List.mem_append_left _ isBeyond
    · rename_i still
      rw [beyond_eq_nil (Bool.eq_false_iff.mpr still)] at isBeyond
      cases isBeyond
  rw [through_eq distinct parts, List.append_assoc,
    isOpen_of_not_ended begun notStopped runs goesOn]

/-- A stretch that has stopped, and that the next edge ends, is not open at that edge or later. -/
theorem Stretch.isOpen_through_after {edges after : List Edge} {edge : Edge}
    (distinct : edges.Nodup) (split : edges = before ++ after)
    (stops : .closing stretch.stop ∈ before) (runs : stretch.last = some last)
    (breaks : ∃ next, after.head? = some next ∧ stretch.ends last next = true)
    (isAfter : edge ∈ after) :
    stretch.isOpen (through edges edge) = false := by
  obtain ⟨next, isNext, ends⟩ := breaks
  obtain ⟨passed, more, whole⟩ := List.append_of_mem isAfter
  have parts : edges = before ++ passed ++ edge :: more := by
    rw [split, whole]
    simp
  obtain ⟨others, follows⟩ : ∃ others, passed ++ [edge] = next :: others := by
    rw [whole, List.append_cons] at isNext
    refine List.head?_eq_some_iff.mp ?_
    rwa [List.head?_append_of_ne_nil _ (by simp)] at isNext
  rw [through_eq distinct parts, List.append_assoc, follows, isOpen_of_ended stops runs ends]

/-- A stretch that begins with some edges and ends after them is open at these edges and at no
other ones. -/
theorem Stretch.isOpen_through {edges after : List Edge} {edge : Edge} (distinct : edges.Nodup)
    (split : edges = before ++ middle ++ after)
    (begins : middle.head? = some (.opening stretch.start))
    (runs : stretch.last = some last) (stops : .closing stretch.stop ∈ middle)
    (lasts : ∀ edge ∈ stretch.beyond middle, stretch.ends last edge = false)
    (breaks : ∃ next, after.head? = some next ∧ stretch.ends last next = true)
    (member : edge ∈ edges) :
    stretch.isOpen (through edges edge) = decide (edge ∈ middle) := by
  have apart := distinct
  rw [split, List.nodup_append] at apart
  obtain ⟨apart, -, later⟩ := apart
  obtain ⟨-, -, earlier⟩ := List.nodup_append.mp apart
  have split' : edges = before ++ (middle ++ after) := by rw [split, List.append_assoc]
  rw [split, List.mem_append, List.mem_append] at member
  -- No edge is in two of the parts, so where it is tells which lemma applies.
  rcases member with (isBefore | inside) | isAfter
  · have outside : edge ∉ middle := fun inside => earlier _ isBefore _ inside rfl
    have begun := List.mem_append_left after (List.mem_of_mem_head? begins)
    rw [isOpen_through_before distinct split' begun isBefore, decide_eq_false outside]
  · have notStopped : .closing stretch.stop ∉ before :=
      fun stopped => earlier _ stopped _ stops rfl
    rw [isOpen_through_inside distinct split' begins notStopped runs lasts inside,
      decide_eq_true inside]
  · have outside : edge ∉ middle := fun inside =>
      later _ (List.mem_append_right _ inside) _ isAfter rfl
    have stopped := List.mem_append_right before stops
    rw [isOpen_through_after distinct split stopped runs breaks isAfter, decide_eq_false outside]

end Open

/-- The edges of trees are put together as the trees are. -/
theorem forestEdges_append (first rest : List Node) :
    forestEdges (first ++ rest) = forestEdges first ++ forestEdges rest := by
  induction first with
  | nil => rfl
  | cons node nodes ih =>
    rw [List.cons_append, forestEdges_cons, ih, forestEdges_cons, List.append_assoc]

/-- What a stretch runs past after its stop. -/
theorem Stretch.beyond_eq {stretch : Stretch} {passed rest : List Edge}
    (fresh : .closing stretch.stop ∉ passed) :
    stretch.beyond (passed ++ .closing stretch.stop :: rest) = .closing stretch.stop :: rest := by
  rw [beyond_append, if_neg (mt isStopped_iff.mp fresh), beyond,
    List.dropWhile_cons_of_neg (by simp)]

/-- Some siblings, from the start of a range to the end of what follows its stop, a milestone: no
milestone stands below a sibling or between the stop and the last of them, and what stands next to
them is a milestone again that does not continue the stop. -/
structure Covers (document : Document) (parent start stop : Node)
    (before middle after : List Node) : Prop where
  isParent : parent ∈ document.nodes
  children : parent.children = before ++ middle ++ after
  placed : ∀ node ∈ document.nodes, isMilestone node = true → node ∈ parent.children
  starts : middle.head? = some start
  stops : ∃ earlier rest, middle = earlier ++ stop :: rest ∧ ∀ node ∈ rest, isMilestone node = false
  isStop : isMilestone stop = true
  breaks : ∀ next ∈ after.head?, isMilestone next = true ∧
    (stop.corresp?.any fun urn => next.corresp?.any (Walk.continues urn)) = false

namespace Covers

variable {parent start stop : Node} {before middle after : List Node}

/-- Every node of the range is a sibling. -/
theorem child (covers : Covers document parent start stop before middle after) {node : Node}
    (member : node ∈ middle) : node ∈ parent.children := by
  rw [covers.children]
  exact List.mem_append_left _ (List.mem_append_right _ member)

/-- The start is in the range. -/
theorem start_mem (covers : Covers document parent start stop before middle after) :
    start ∈ middle :=
  List.mem_of_mem_head? covers.starts

theorem stop_mem (covers : Covers document parent start stop before middle after) :
    stop ∈ middle := by
  obtain ⟨earlier, rest, whole, -⟩ := covers.stops
  rw [whole]
  exact List.mem_append_right _ List.mem_cons_self

/-- Every sibling is in the document. -/
theorem isNode (covers : Covers document parent start stop before middle after) {node : Node}
    (member : node ∈ parent.children) : node ∈ document.nodes :=
  (preorder_sublist covers.isParent).subset (child_mem_preorder member)

/-- The stretch of the range runs on to the end of the parent. -/
theorem last_eq (covers : Covers document parent start stop before middle after)
    (ordered : document.Ordered) (ancestor : Nat) :
    (Stretch.of document ⟨start.id, stop.id, ancestor⟩).last = some parent.id := by
  have isChild := covers.child covers.stop_mem
  have found : document.node? stop.id = some stop :=
    (Document.node?_eq_some ordered).mpr ⟨covers.isNode isChild, rfl⟩
  simp only [Stretch.of, found, Option.filter_some, covers.isStop, if_true, Option.bind_some,
    Document.parent?_child ordered covers.isParent isChild, Option.map_some]

/-- A node that begins breaks the stretch off if it is a milestone that does not continue the
stop. -/
theorem breaks_eq (covers : Covers document parent start stop before middle after)
    (ordered : document.Ordered) (ancestor : Nat) {node : Node} (isNode : node ∈ document.nodes) :
    (Stretch.of document ⟨start.id, stop.id, ancestor⟩).breaks node.id =
      (isMilestone node &&
        !stop.corresp?.any fun urn => node.corresp?.any (Walk.continues urn)) := by
  have found : document.node? stop.id = some stop :=
    (Document.node?_eq_some ordered).mpr ⟨covers.isNode (covers.child covers.stop_mem), rfl⟩
  have found' : document.node? node.id = some node :=
    (Document.node?_eq_some ordered).mpr ⟨isNode, rfl⟩
  simp only [Stretch.of, found, found', Option.any_some, Option.bind_some]

/-- Below the siblings after the stop no milestone begins. -/
theorem quiet (covers : Covers document parent start stop before middle after)
    (ordered : document.Ordered) {rest : List Node} (within : ∀ node ∈ rest, node ∈ parent.children)
    (none : ∀ node ∈ rest, isMilestone node = false) {node : Node}
    (member : node ∈ forestPreorder rest) : isMilestone node = false := by
  refine Bool.eq_false_iff.mpr fun milestone => ?_
  obtain ⟨top, isTop, below⟩ := mem_forestPreorder.mp member
  have isNode := (preorder_sublist (covers.isNode (within top isTop))).subset below
  -- a milestone is a sibling itself, so it is not below another one
  have same : node = top := ForestOrdered.eq_of_mem_ids node.id_mem_ids
    (List.mem_map_of_mem below) (Node.Ordered.of_mem ordered covers.isParent).children
    (covers.placed node isNode milestone) (within top isTop)
  rw [same, none top isTop] at milestone
  cases milestone

/-- After the end of the stop come the edges of siblings that are no milestones. -/
theorem exists_rest (covers : Covers document parent start stop before middle after)
    (ordered : document.Ordered) : ∃ passed rest,
      forestEdges middle = passed ++ .closing stop.id :: forestEdges rest ∧
        .closing stop.id ∉ passed ∧ (∀ node ∈ rest, node ∈ parent.children) ∧
        ∀ node ∈ rest, isMilestone node = false := by
  obtain ⟨earlier, rest, cut, none⟩ := covers.stops
  have whole : forestEdges middle =
      (forestEdges earlier ++ .opening stop.id :: forestEdges stop.children) ++
        .closing stop.id :: forestEdges rest := by
    rw [cut, forestEdges_append, forestEdges_cons, edges_eq stop]
    simp
  have distinct : (forestEdges middle).Nodup := by
    have all := forestEdges_nodup (Node.Ordered.of_mem ordered covers.isParent).children
    rw [covers.children, forestEdges_append, forestEdges_append] at all
    exact (List.nodup_append.mp (List.nodup_append.mp all).1).2.1
  rw [whole] at distinct
  refine ⟨_, rest, whole, fun twice => ?_, fun node isOther => covers.child ?_, none⟩
  · exact (List.nodup_append.mp distinct).2.2 _ twice _ List.mem_cons_self rfl
  · rw [cut]
    exact List.mem_append_right _ (List.mem_cons_of_mem _ isOther)

/-- No edge of the siblings after the end of the stop ends the stretch. -/
theorem ends_eq_false (covers : Covers document parent start stop before middle after)
    (ordered : document.Ordered) (ancestor : Nat) {edge : Edge}
    (isBeyond : edge ∈
      (Stretch.of document ⟨start.id, stop.id, ancestor⟩).beyond (forestEdges middle)) :
    (Stretch.of document ⟨start.id, stop.id, ancestor⟩).ends parent.id edge = false := by
  have orderedParent := Node.Ordered.of_mem ordered covers.isParent
  obtain ⟨passed, rest, whole, fresh, isChild, none⟩ := covers.exists_rest ordered
  have beyond : (Stretch.of document ⟨start.id, stop.id, ancestor⟩).beyond (forestEdges middle) =
      .closing stop.id :: forestEdges rest := by
    rw [whole]
    exact Stretch.beyond_eq fresh
  rw [beyond] at isBeyond
  rcases List.mem_cons.mp isBeyond with rfl | isBeyond
  · have inside : stop.id ∈ forestIds parent.children :=
      mem_forestIds.mpr ⟨stop, covers.child covers.stop_mem, stop.id_mem_ids⟩
    exact decide_eq_false (Nat.ne_of_gt (orderedParent.lt_of_mem inside))
  -- No node after the stop breaks off the range, and the parent, which does, is left only after all
  -- of its children.
  · cases edge with
    | opening id =>
      obtain ⟨node, isInner, rfl⟩ := List.mem_map.mp (opening_mem_forestEdges.mp isBeyond)
      obtain ⟨top, isTop, inTop⟩ := mem_forestPreorder.mp isInner
      have isNode := (preorder_sublist (covers.isNode (isChild top isTop))).subset inTop
      show (Stretch.of document _).breaks node.id = false
      rw [covers.breaks_eq ordered ancestor isNode, covers.quiet ordered isChild none isInner]
      rfl
    | closing id =>
      obtain ⟨top, isTop, inTop⟩ := mem_forestIds.mp (closing_mem_forestEdges.mp isBeyond)
      have inside : id ∈ forestIds parent.children :=
        mem_forestIds.mpr ⟨top, isChild top isTop, inTop⟩
      exact decide_eq_false (Nat.ne_of_gt (orderedParent.lt_of_mem inside))

/-- What comes after the siblings ends the stretch: the next milestone, or the end of the parent. -/
theorem exists_end (covers : Covers document parent start stop before middle after)
    (ordered : document.Ordered) (ancestor : Nat) (rest : List Edge) :
    ∃ next, (forestEdges after ++ .closing parent.id :: rest).head? = some next ∧
      (Stretch.of document ⟨start.id, stop.id, ancestor⟩).ends parent.id next = true := by
  cases after with
  | nil => exact ⟨.closing parent.id, rfl, decide_eq_true rfl⟩
  | cons next others =>
    obtain ⟨milestone, notContinued⟩ := covers.breaks next rfl
    have isChild : next ∈ parent.children := by
      rw [covers.children]
      exact List.mem_append_right _ List.mem_cons_self
    refine ⟨.opening next.id, by rw [forestEdges_cons, edges_eq next]; rfl, ?_⟩
    show (Stretch.of document _).breaks next.id = true
    rw [covers.breaks_eq ordered ancestor (covers.isNode isChild), milestone, notContinued]
    rfl

/-- The range is open at the edges of the siblings, and at no other edges of the document. -/
theorem isOpen_through (covers : Covers document parent start stop before middle after)
    (ordered : document.Ordered) (ancestor : Nat) {edge : Edge}
    (member : edge ∈ document.root.edges) :
    (Stretch.of document ⟨start.id, stop.id, ancestor⟩).isOpen
        (through document.root.edges edge) = decide (edge ∈ forestEdges middle) := by
  obtain ⟨passed, rest, whole⟩ := edges_isInfix covers.isParent
  have split : document.root.edges =
      (passed ++ .opening parent.id :: forestEdges before) ++ forestEdges middle ++
        (forestEdges after ++ .closing parent.id :: rest) := by
    rw [← whole, edges_eq parent, covers.children, forestEdges_append, forestEdges_append]
    simp
  have begins : (forestEdges middle).head? = some (.opening start.id) := by
    obtain ⟨body, starts⟩ := List.head?_eq_some_iff.mp covers.starts
    rw [starts, forestEdges_cons, edges_eq start]
    rfl
  have stops : .closing stop.id ∈ forestEdges middle := by
    obtain ⟨_, _, whole, -⟩ := covers.exists_rest ordered
    rw [whole]
    exact List.mem_append_right _ List.mem_cons_self
  exact Stretch.isOpen_through (edges_nodup ordered) split begins
    (covers.last_eq ordered ancestor) stops (fun _ => covers.ends_eq_false ordered ancestor)
    (covers.exists_end ordered ancestor rest) member

end Covers

/-! ## 3. What is shown of some siblings

A pruning of the document shows the siblings in the range as they stand, nothing of the other
siblings, and no tag of anything around them. -/

/-- Trees are made elements one after another. -/
theorem toElements_append (first rest : List Node) :
    toElements (first ++ rest) = toElements first ++ toElements rest := by
  induction first with
  | nil => rfl
  | cons node nodes ih => rw [List.cons_append, toElements, ih, toElements, List.cons_append]

namespace Pruning

variable {pruning : Pruning}

/-- A pruning shows trees one after another. -/
theorem forestShown_append (first rest : List Node) :
    pruning.forestShown (first ++ rest) =
      pruning.forestShown first ++ pruning.forestShown rest := by
  induction first with
  | nil => rfl
  | cons node nodes ih =>
    rw [List.cons_append, forestShown, ih, forestShown, List.append_assoc]

/-- Whether a node is shown as it is, with its tail. -/
structure Spares (pruning : Pruning) (node : Node) : Prop where
  whole : pruning.whole node = true
  tail : pruning.tail node = true
  replacement? : pruning.replacement? node = none
  notes : pruning.notes node = []

mutual

/-- A tree of which everything is shown as it is is copied. -/
theorem shown_eq_toElement : ∀ {node : Node}, (∀ inner ∈ node.preorder, pruning.Spares inner) →
    pruning.shown node = [node.toElement]
  | ⟨own, path, name, attributes, text, children, tail⟩, spares => by
    have here := spares _ (mem_preorder_self _)
    have below : pruning.forestShown children = toElements children :=
      forestShown_eq_toElements fun inner member => spares inner (List.mem_cons_of_mem _ member)
    rw [shown, if_pos here.whole, here.replacement?, here.notes, below, tailOf, if_pos here.tail]
    rfl

/-- Where everything is kept, trees are shown as they stand. -/
theorem forestShown_eq_toElements : ∀ {nodes : List Node},
    (∀ inner ∈ forestPreorder nodes, pruning.Spares inner) →
      pruning.forestShown nodes = toElements nodes
  | [], _ => rfl
  | first :: rest, spares => by
    rw [forestShown, toElements,
      shown_eq_toElement fun inner member => spares inner (List.mem_append_left _ member),
      forestShown_eq_toElements fun inner member => spares inner (List.mem_append_right _ member)]
    rfl

end

mutual

/-- Where nothing is shown but what lies below one node, what is shown is what is shown of its
children. -/
theorem shown_eq_forestShown {parent : Node} : ∀ {node : Node}, node.Ordered →
    parent ∈ node.preorder →
    (∀ inner ∈ node.preorder, inner.id ∉ forestIds parent.children →
      pruning.whole inner = false ∧ pruning.shell inner = false) →
    pruning.shown node = pruning.forestShown parent.children
  | ⟨own, path, name, attributes, text, children, tail⟩, ordered, member, hidden => by
    have outside : own ∉ forestIds parent.children := by
      intro inside
      have first := ordered.le_of_mem ((ids_sublist member).subset parent.id_mem_ids)
      exact absurd ((ordered.of_mem member).lt_of_mem inside) (Nat.not_lt.mpr first)
    obtain ⟨whole, shell⟩ := hidden _ (mem_preorder_self _) outside
    rw [shown, if_neg (by simp [whole]), if_neg (by simp [shell])]
    rcases List.mem_cons.mp member with rfl | below
    · rfl
    · exact forestShown_eq_forestShown ordered.children below
        fun inner isInner => hidden inner (List.mem_cons_of_mem _ isInner)

/-- Where nothing is kept but what is below a node, only this is shown. -/
theorem forestShown_eq_forestShown {parent : Node} : ∀ {nodes : List Node}, ForestOrdered nodes →
    parent ∈ forestPreorder nodes →
    (∀ inner ∈ forestPreorder nodes, inner.id ∉ forestIds parent.children →
      pruning.whole inner = false ∧ pruning.shell inner = false) →
    pruning.forestShown nodes = pruning.forestShown parent.children
  | [], _, member, _ => by simp at member
  | first :: rest, ordered, member, hidden => by
    have below {id : Nat} (inside : id ∈ forestIds parent.children) : id ∈ parent.ids :=
      mem_ids_of_below inside
    rw [forestShown]
    rcases List.mem_append.mp member with inFirst | inRest
    · have nothing : pruning.forestShown rest = [] := forestShown_eq_nil fun inner isInner =>
        hidden inner (List.mem_append_right _ isInner) fun inside =>
          Nat.lt_irrefl _ (ordered.lt ((ids_sublist inFirst).subset (below inside))
            (List.mem_map_of_mem isInner))
      rw [nothing, List.append_nil]
      exact shown_eq_forestShown ordered.first inFirst
        fun inner isInner => hidden inner (List.mem_append_left _ isInner)
    · have nothing : pruning.shown first = [] := shown_eq_nil fun inner isInner =>
        hidden inner (List.mem_append_left _ isInner) fun inside =>
          Nat.lt_irrefl _ (ordered.lt (List.mem_map_of_mem isInner)
            (((forestPreorder_sublist inRest).map _).subset (below inside)))
      rw [nothing, List.nil_append]
      exact forestShown_eq_forestShown ordered.rest inRest
        fun inner isInner => hidden inner (List.mem_append_right _ isInner)

end

end Pruning

namespace Covers

variable {parent start stop : Node} {before middle after : List Node}

/-- What the pruning to the range keeps of a node depends on whether it is one of the siblings or
below one of them. -/
theorem within_eq (covers : Covers document parent start stop before middle after)
    (ordered : document.Ordered) {node : Node} (isNode : node ∈ document.nodes) :
    let pruning := Pruning.within document ⟨start.id, stop.id, start.id⟩ document.root
    pruning.whole node = decide (node.id ∈ forestIds middle) ∧
      pruning.tail node = decide (node.id ∈ forestIds middle) ∧ pruning.shell node = false := by
  refine ⟨?_, ?_, ?_⟩
  · rw [← decide_eq_decide.mpr opening_mem_forestEdges]
    exact covers.isOpen_through ordered _ (opening_mem_edges.mpr (id_mem_ids_of_mem isNode))
  · rw [← decide_eq_decide.mpr closing_mem_forestEdges]
    exact covers.isOpen_through ordered _ (closing_mem_edges.mpr (id_mem_ids_of_mem isNode))
  · simp [Pruning.within, Bounds.isShell]

/-- The other children of the parent, and what is below them, are none of the siblings. -/
theorem not_mem_of_other (covers : Covers document parent start stop before middle after)
    (ordered : document.Ordered) {id : Nat} (other : id ∈ forestIds before ∨ id ∈ forestIds after) :
    id ∉ forestIds middle := by
  intro inside
  have orderedChildren := (Node.Ordered.of_mem ordered covers.isParent).children
  rw [ForestOrdered, covers.children, forestIds_append, forestIds_append] at orderedChildren
  obtain ⟨earlier, -, later⟩ := List.pairwise_append.mp orderedChildren
  rcases other with isBefore | isAfter
  · exact Nat.lt_irrefl _ ((List.pairwise_append.mp earlier).2.2 id isBefore id inside)
  · exact Nat.lt_irrefl _ (later id (List.mem_append_right _ inside) id isAfter)

/-- The pruning to the range between two milestones shows the siblings of the range as they are. -/
theorem shown (covers : Covers document parent start stop before middle after)
    (ordered : document.Ordered) :
    (Pruning.within document ⟨start.id, stop.id, start.id⟩ document.root).shown document.root =
      toElements middle := by
  let pruning := Pruning.within document ⟨start.id, stop.id, start.id⟩ document.root
  have hidden {inner : Node} (isNode : inner ∈ document.nodes)
      (outside : inner.id ∉ forestIds middle) :
      pruning.whole inner = false ∧ pruning.shell inner = false := by
    obtain ⟨whole, -, shell⟩ := covers.within_eq ordered isNode
    exact ⟨whole.trans (decide_eq_false outside), shell⟩
  have isNode {nodes : List Node} (within : ∀ node ∈ nodes, node ∈ parent.children) {inner : Node}
      (member : inner ∈ forestPreorder nodes) : inner ∈ document.nodes := by
    obtain ⟨top, isTop, below⟩ := mem_forestPreorder.mp member
    exact (preorder_sublist (covers.isNode (within top isTop))).subset below
  -- The siblings before the range and after it have no number in it.
  have nothing {nodes : List Node} (within : ∀ node ∈ nodes, node ∈ parent.children)
      (outside : ∀ id ∈ forestIds nodes, id ∉ forestIds middle) :
      pruning.forestShown nodes = [] :=
    Pruning.forestShown_eq_nil fun inner member =>
      hidden (isNode within member) (outside inner.id (List.mem_map_of_mem member))
  have everything : pruning.forestShown middle = toElements middle := by
    refine Pruning.forestShown_eq_toElements fun inner member => ?_
    have inside : inner.id ∈ forestIds middle := List.mem_map_of_mem member
    obtain ⟨whole, tail, -⟩ := covers.within_eq ordered (isNode (fun _ => covers.child) member)
    exact ⟨whole.trans (decide_eq_true inside), tail.trans (decide_eq_true inside), rfl, rfl⟩
  have inChildren {id : Nat} (inside : id ∈ forestIds middle) :
      id ∈ forestIds parent.children := by
    obtain ⟨top, isTop, inTop⟩ := mem_forestIds.mp inside
    exact mem_forestIds.mpr ⟨top, covers.child isTop, inTop⟩
  have isBefore (node) (member : node ∈ before) : node ∈ parent.children := by
    rw [covers.children]
    exact List.mem_append_left _ (List.mem_append_left _ member)
  have isAfter (node) (member : node ∈ after) : node ∈ parent.children := by
    rw [covers.children]
    exact List.mem_append_right _ member
  rw [Pruning.shown_eq_forestShown ordered covers.isParent fun inner isInner outside =>
      hidden isInner fun inside => outside (inChildren inside),
    covers.children, Pruning.forestShown_append, Pruning.forestShown_append, everything,
    nothing isBefore fun _ isFirst => covers.not_mem_of_other ordered (Or.inl isFirst),
    nothing isAfter fun _ isLast => covers.not_mem_of_other ordered (Or.inr isLast),
    List.nil_append, List.append_nil]

end Covers

/-! ## 4. Extractions between milestones

The range of two milestones is located, and its walk ends, since nothing hides the stop. What it
shows is the pruning, which is the tiles. -/

/-- The bounds of two milestones of one parent, where the first does not come after the second. -/
theorem between_siblings (ordered : document.Ordered) {parent start stop : Node}
    (isParent : parent ∈ document.nodes) (isStart : start ∈ parent.children)
    (isStop : stop ∈ parent.children) (forward : start.id ≤ stop.id) (first last : String) :
    Bounds.between document start stop first last = .ok ⟨start.id, stop.id, start.id⟩ := by
  have isNode {node : Node} (isChild : node ∈ parent.children) : node ∈ document.nodes :=
    (preorder_sublist isParent).subset (child_mem_preorder isChild)
  rcases between_exact ordered (isNode isStart) (isNode isStop) first last with
    ⟨reversed, -⟩ | ⟨-, ancestor, found, level, -⟩
  · rw [reversed_iff ordered (isNode isStart) (isNode isStop)] at reversed
    exact absurd reversed.1 (Nat.not_lt.mpr forward)
  · rw [found, level (Or.inr ⟨parent, isParent, isStart, isStop⟩)]

namespace Covers

variable {parent start stop : Node} {before middle after : List Node}

/-- The start does not come after the stop. -/
theorem forward (covers : Covers document parent start stop before middle after)
    (ordered : document.Ordered) : start.id ≤ stop.id := by
  have orderedChildren := (Node.Ordered.of_mem ordered covers.isParent).children
  rw [ForestOrdered, covers.children, forestIds_append, forestIds_append] at orderedChildren
  obtain ⟨body, starts⟩ := List.head?_eq_some_iff.mp covers.starts
  have inMiddle := (List.pairwise_append.mp (List.pairwise_append.mp orderedChildren).1).2.1
  have isStop := covers.stop_mem
  rw [starts] at inMiddle isStop
  rcases List.mem_cons.mp isStop with rfl | later
  · exact Nat.le_refl _
  · exact Nat.le_of_lt (ForestOrdered.lt inMiddle start.id_mem_ids
      (mem_forestIds.mpr ⟨stop, later, stop.id_mem_ids⟩))

/-- What is extracted between the markers of two milestones of one parent is the siblings of the
range as they are. -/
theorem external {library : Library} {file : SourceFile} {first last : String} (remaining : Nat)
    (covers : Covers document parent start stop before middle after)
    (ordered : document.Ordered) (reads : library.document file = .ok document)
    (untouched : ∀ node ∈ document.nodes,
      Untouched library (levels library remaining) ⟨file, document⟩ node)
    (foundStart : findMarker? document first = some start)
    (foundStop : findMarker? document last = some stop) :
    ((levels library (remaining + 1)).external file first last).result =
      .ok (toElements middle) := by
  have located : Bounds.locate document first last = .ok ⟨start.id, stop.id, start.id⟩ := by
    rw [Bounds.locate, foundStart, foundStop]
    exact between_siblings ordered covers.isParent (covers.child covers.start_mem)
      (covers.child covers.stop_mem) (covers.forward ordered) first last
  have bounded := located_of_locate ordered located
  let walk : Walk := .within document ⟨start.id, stop.id, start.id⟩ .external
  obtain ⟨⟨elements, progress⟩, ran⟩ : ∃ shown, (Compile.external library
      (levels library remaining) ⟨file, document⟩ walk (Walk.start file first last)
        document.root).result = .ok shown :=
    external_isOk _ untouched
  obtain ⟨-, closes, shown⟩ := shown_of_external_root ordered bounded ran
  -- No node is replaced, so that the walk reaches the whole document.
  have all : reached document ⟨start.id, stop.id, start.id⟩
      (externalHides library (levels library remaining) ⟨file, document⟩) = document.root :=
    reached_eq_root untouched
  have hasEnded : progress.frame.afterEnd = true := closes.mpr (all ▸ bounded.stop_mem)
  have copied : elements = toElements middle := by
    rw [shown hasEnded, externalPruning_shown untouched]
    exact covers.shown ordered
  exact external_level_eq_ok.mpr ⟨document, _, progress, reads, located, copied ▸ ran⟩

end Covers

/-! ## 5. Milestones that divide a document

For a division it is enough that the milestones of a parent define the identifiers in their order,
one each, that no others do, and that none continues another. The tiles from one milestone to
another are then between two siblings that `Covers` speaks of. -/

/-- The milestones among the children of a node. -/
def milestones (parent : Node) : List Node := parent.children.filter isMilestone

/-- A document whose milestones are children of one node and define these identifiers, one each. No
other element defines one of them, none of them is the name of an element within its file, and none
continues another one. -/
structure Divided (document : Document) (parent : Node) (urns : List String) : Prop where
  isParent : parent ∈ document.nodes
  placed : ∀ node ∈ document.nodes, isMilestone node = true → node ∈ parent.children
  named : (milestones parent).map (·.corresp?) = urns.map some
  global : ∀ urn ∈ urns, isFragment urn = false
  alone : ∀ urn ∈ urns, ∀ a ∈ document.nodes, ∀ b ∈ document.nodes,
    a.corresp? = some urn → b.corresp? = some urn → a = b
  apart : ∀ urn ∈ urns, ∀ other ∈ urns, Walk.continues urn other = false

/-- The tiles from one on begin with the milestone of that one, and have none after it in the same
tile. -/
theorem exists_tile {nodes : List Node} {n : Nat} {first : Node}
    (found : (nodes.filter isMilestone)[n]? = some first) :
    ∃ rest others, (tiles nodes).drop n = (first :: rest) :: others ∧
      ∀ node ∈ rest, isMilestone node = false := by
  have same := congrArg (·[n]?) (head?_tiles nodes)
  simp only [List.getElem?_map, found, Option.map_some] at same
  obtain ⟨tile, isTile, isFirst⟩ := Option.map_eq_some_iff.mp same
  obtain ⟨rest, rfl⟩ := List.head?_eq_some_iff.mp isFirst
  obtain ⟨inside, isTile⟩ := List.getElem?_eq_some_iff.mp isTile
  refine ⟨rest, (tiles nodes).drop (n + 1), ?_, ?_⟩
  · rw [List.drop_eq_getElem_cons inside, isTile]
  · exact tail_tiles (isTile ▸ List.getElem_mem inside)

/-- What comes after the last of some tiles begins with the next milestone, if it does not end
there. -/
theorem head?_flatten_drop (nodes : List Node) (n : Nat) :
    ((tiles nodes).drop n).flatten.head? = (nodes.filter isMilestone)[n]? := by
  cases found : (nodes.filter isMilestone)[n]? with
  | some first =>
    obtain ⟨rest, others, whole, -⟩ := exists_tile found
    rw [whole]
    rfl
  | none =>
    have count := congrArg List.length (head?_tiles nodes)
    rw [List.length_map, List.length_map] at count
    rw [List.getElem?_eq_none_iff, ← count] at found
    rw [List.drop_eq_nil_of_le found]
    rfl

namespace Divided

variable {parent : Node} {urns : List String} {start stop : Node}

/-- The milestone with an identifier is what the identifier marks. -/
theorem findMarker? (divided : Divided document parent urns) {urn : String} (isUrn : urn ∈ urns)
    {node : Node} (isNode : node ∈ document.nodes) (defines : node.corresp? = some urn) :
    Compile.findMarker? document urn = some node := by
  have names (other : Node) : Names urn other ↔ other.corresp? = some urn :=
    names_plain (divided.global urn isUrn)
  cases found : Compile.findMarker? document urn with
  | none =>
    exact absurd ((names node).mpr defines) (findMarker?_eq_none.mp found node isNode)
  | some other =>
    have isOther := findMarker?_eq_some.mp found
    rw [divided.alone urn isUrn other isOther.mem node isNode ((names other).mp isOther.1) defines]

/-- Each of the identifiers is that of its milestone. -/
theorem exists_milestone (divided : Divided document parent urns) {n : Nat} {urn : String}
    (found : urns[n]? = some urn) :
    ∃ node, (milestones parent)[n]? = some node ∧ node.corresp? = some urn := by
  have same := congrArg (·[n]?) divided.named
  simp only [List.getElem?_map, found, Option.map_some] at same
  exact Option.map_eq_some_iff.mp same

/-- Each of the milestones defines one of the identifiers. -/
theorem exists_urn (divided : Divided document parent urns) {n : Nat} {node : Node}
    (found : (milestones parent)[n]? = some node) :
    ∃ urn ∈ urns, node.corresp? = some urn := by
  have same := congrArg (·[n]?) divided.named
  simp only [List.getElem?_map, found, Option.map_some] at same
  obtain ⟨urn, isUrn, defines⟩ := Option.map_eq_some_iff.mp same.symm
  exact ⟨urn, List.mem_of_getElem? isUrn, defines.symm⟩

/-- The tiles from one milestone to another are what a range between them covers. -/
theorem covers (divided : Divided document parent urns) {i j : Nat} (upward : i ≤ j)
    (isStart : (milestones parent)[i]? = some start)
    (isStop : (milestones parent)[j]? = some stop) :
    Covers document parent start stop
      (parent.children.takeWhile (!isMilestone ·) ++ ((tiles parent.children).take i).flatten)
      (((tiles parent.children).drop i).take (j + 1 - i)).flatten
      ((tiles parent.children).drop (j + 1)).flatten where
  isParent := divided.isParent
  children := by
    -- The tiles before the first milestone, those of the range and those after it are all there
    -- are.
    have cut : (tiles parent.children).take i ++
        (((tiles parent.children).drop i).take (j + 1 - i) ++
          (tiles parent.children).drop (j + 1)) = tiles parent.children := by
      have rest : ((tiles parent.children).drop i).drop (j + 1 - i) =
          (tiles parent.children).drop (j + 1) := by
        rw [List.drop_drop, Nat.add_sub_of_le (Nat.le_succ_of_le upward)]
      rw [← rest, List.take_append_drop, List.take_append_drop]
    have whole := congrArg List.flatten cut
    rw [List.flatten_append, List.flatten_append] at whole
    rw [List.append_assoc, List.append_assoc, whole, takeWhile_append_tiles]
  placed := divided.placed
  starts := by
    obtain ⟨rest, others, whole, -⟩ := exists_tile isStart
    rw [whole, Nat.succ_sub upward, List.take_succ_cons]
    rfl
  stops := by
    obtain ⟨rest, others, whole, none⟩ := exists_tile isStop
    refine ⟨(((tiles parent.children).drop i).take (j - i)).flatten, rest, ?_, none⟩
    have last : (((tiles parent.children).drop i).drop (j - i)).take 1 = [stop :: rest] := by
      rw [List.drop_drop, Nat.add_sub_of_le upward, whole]
      rfl
    rw [Nat.sub_add_comm upward, List.take_add, last, List.flatten_append, List.flatten_singleton]
  isStop := (List.mem_filter.mp (List.mem_of_getElem? isStop)).2
  breaks next isNext := by
    rw [head?_flatten_drop] at isNext
    obtain ⟨urn, isUrn, defines⟩ := divided.exists_urn isStop
    obtain ⟨other, isOther, definesOther⟩ := divided.exists_urn isNext
    refine ⟨(List.mem_filter.mp (List.mem_of_getElem? isNext)).2, ?_⟩
    rw [defines, definesOther]
    exact divided.apart urn isUrn other isOther

end Divided

/-- Tiles may be made elements before or after they are put together. -/
theorem toElements_flatten (nodes : List (List Node)) :
    toElements nodes.flatten = (nodes.map toElements).flatten := by
  induction nodes with
  | nil => rfl
  | cons first rest ih =>
    rw [List.flatten_cons, toElements_append, ih, List.map_cons, List.flatten_cons]

/-- In a document that milestones divide and in which every element stays as it is, what is
extracted between two milestones is what is extracted for each of them from the one to the other,
put together in this order. It is a copy of the siblings from the first of the milestones on, up to
the milestone after the last one or the end of the parent, and of nothing else. -/
theorem external_milestones {library : Library} {file : SourceFile} {text : String} {parent : Node}
    {urns : List String} (remaining : Nat) (parsed : Document.parse text = .ok document)
    (reads : library.document file = .ok document)
    (untouched : ∀ node ∈ document.nodes,
      Untouched library (levels library remaining) ⟨file, document⟩ node)
    (divided : Divided document parent urns) :
    ∃ pieces : List (List Element),
      (∀ (n : Nat) (urn : String), urns[n]? = some urn → ∃ piece, pieces[n]? = some piece ∧
        ((levels library (remaining + 1)).external file urn urn).result = .ok piece) ∧
      ∀ (i j : Nat) (first last : String), i ≤ j → urns[i]? = some first → urns[j]? = some last →
        ((levels library (remaining + 1)).external file first last).result =
            .ok ((pieces.drop i).take (j + 1 - i)).flatten ∧
          ∃ before middle after, parent.children = before ++ middle ++ after ∧
            middle.head? = (milestones parent)[i]? ∧ after.head? = (milestones parent)[j + 1]? ∧
            ((pieces.drop i).take (j + 1 - i)).flatten = toElements middle := by
  have ordered := Document.ordered_of_parse parsed
  -- Every pair of identifiers has its milestones, and the extraction between them is a range of
  -- tiles.
  have range {i j : Nat} {first last : String} (upward : i ≤ j) (isFirst : urns[i]? = some first)
      (isLast : urns[j]? = some last) : ∃ start stop,
        Covers document parent start stop
          (parent.children.takeWhile (!isMilestone ·) ++ ((tiles parent.children).take i).flatten)
          (((tiles parent.children).drop i).take (j + 1 - i)).flatten
          ((tiles parent.children).drop (j + 1)).flatten ∧
        (milestones parent)[i]? = some start ∧
        ((levels library (remaining + 1)).external file first last).result =
          .ok (toElements (((tiles parent.children).drop i).take (j + 1 - i)).flatten) := by
    obtain ⟨start, isStart, startDefines⟩ := divided.exists_milestone isFirst
    obtain ⟨stop, isStop, stopDefines⟩ := divided.exists_milestone isLast
    have covers := divided.covers upward isStart isStop
    have startMarked := divided.findMarker? (List.mem_of_getElem? isFirst)
      (covers.isNode (covers.child covers.start_mem)) startDefines
    have stopMarked := divided.findMarker? (List.mem_of_getElem? isLast)
      (covers.isNode (covers.child covers.stop_mem)) stopDefines
    exact ⟨start, stop, covers, isStart,
      covers.external remaining ordered reads untouched startMarked stopMarked⟩
  refine ⟨(tiles parent.children).map toElements, ?_, ?_⟩
  · intro n urn isUrn
    obtain ⟨start, stop, -, isStart, extracts⟩ := range (Nat.le_refl n) isUrn isUrn
    obtain ⟨rest, others, whole, -⟩ := exists_tile isStart
    have isTile : (tiles parent.children)[n]? = some (start :: rest) := by
      rw [← List.head?_drop, whole]
      rfl
    refine ⟨toElements (start :: rest), by rw [List.getElem?_map, isTile]; rfl, ?_⟩
    rw [extracts, whole, Nat.add_sub_cancel_left]
    simp
  · intro i j first last upward isFirst isLast
    obtain ⟨start, stop, covers, isStart, extracts⟩ := range upward isFirst isLast
    have same : ((((tiles parent.children).map toElements).drop i).take (j + 1 - i)).flatten =
        toElements (((tiles parent.children).drop i).take (j + 1 - i)).flatten := by
      rw [toElements_flatten, List.map_take, List.map_drop]
    rw [same]
    exact ⟨extracts, _, _, _, covers.children, covers.starts.trans isStart.symm,
      head?_flatten_drop _ _, rfl⟩

/-- A chapter of two verses after a heading. -/
def chapter : Node :=
  ⟨0, "/div", .tei "div", [], "H",
    [⟨1, "/div/milestone[1]", .tei "milestone", [(.plain "corresp", "urn:1")], "", [], "One "⟩,
     ⟨2, "/div/milestone[2]", .tei "milestone", [(.plain "corresp", "urn:2")], "", [], "Two "⟩,
     ⟨3, "/div/hi[1]", .tei "hi", [], "bold", [], " end"⟩], ""⟩

def chapterDocument : Document where
  root := chapter
  namespaces := [(none, Markup.teiSpace)]

theorem divided_chapter : Divided chapterDocument chapter ["urn:1", "urn:2"] := by
  have ordered : chapterDocument.Ordered := by
    rw [Document.Ordered, Node.Ordered]
    decide
  have isNode {node : Node} (member : node ∈ chapter.children) : node ∈ chapterDocument.nodes :=
    child_mem_preorder member
  have isChild : ∀ node ∈ chapterDocument.nodes, isMilestone node = true →
      ∃ child ∈ chapter.children, child.id = node.id := by decide
  have sameId : ∀ urn ∈ ["urn:1", "urn:2"], ∀ a ∈ chapterDocument.nodes,
      ∀ b ∈ chapterDocument.nodes, a.corresp? = some urn → b.corresp? = some urn → a.id = b.id := by
    decide
  refine ⟨mem_preorder_self _, ?_, rfl, by decide, ?_, by decide⟩
  · intro node isNode' milestone
    obtain ⟨child, member, same⟩ := isChild node isNode' milestone
    rwa [← Node.Ordered.eq_of_id_eq ordered (isNode member) isNode' same]
  · intro urn isUrn a isA b isB definesA definesB
    exact Node.Ordered.eq_of_id_eq ordered isA isB (sameId urn isUrn a isA b isB definesA definesB)

/-- The range over both verses is the one verse and then the other. -/
theorem external_chapter : ∃ one two,
    ((levels (single chapterDocument) 1).external ⟨"p", "f"⟩ "urn:1" "urn:1").result = .ok one ∧
    ((levels (single chapterDocument) 1).external ⟨"p", "f"⟩ "urn:2" "urn:2").result = .ok two ∧
    ((levels (single chapterDocument) 1).external ⟨"p", "f"⟩ "urn:1" "urn:2").result =
      .ok (one ++ two) := by
  have parsed : Document.parse
      ("<div xmlns=\"http://www.tei-c.org/ns/1.0\">H<milestone corresp=\"urn:1\"/>One " ++
        "<milestone corresp=\"urn:2\"/>Two <hi>bold</hi> end</div>") = .ok chapterDocument := by
    cbv
  have noDirective : ∀ node ∈ chapterDocument.nodes, Role.of node ≠ .directive := by
    decide
  have untouched : ∀ node ∈ chapterDocument.nodes, Untouched (single chapterDocument)
      (levels (single chapterDocument) 0) ⟨⟨"p", "f"⟩, chapterDocument⟩ node :=
    fun node member => untouched_of_empty rfl (noDirective node member)
  obtain ⟨pieces, single, range⟩ := external_milestones 0 parsed rfl untouched divided_chapter
  obtain ⟨one, isOne, first⟩ := single 0 "urn:1" rfl
  obtain ⟨two, isTwo, second⟩ := single 1 "urn:2" rfl
  obtain ⟨both, -⟩ := range 0 1 "urn:1" "urn:2" (by decide) rfl rfl
  refine ⟨one, two, first, second, both.trans ?_⟩
  cases pieces with
  | nil => cases isOne
  | cons head rest =>
    cases rest with
    | nil => cases isTwo
    | cons next others =>
      cases isOne
      cases isTwo
      simp

end Intertext.Compile
