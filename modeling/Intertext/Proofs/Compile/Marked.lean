import Intertext.Index.Scan
import Intertext.Proofs.Compile.Bounds
import Intertext.Proofs.Markup.Numbering
/-!
The bounds of every two markers.

What `Bounds.locate` does with two markers is said in terms of the tree alone: which nodes the
markers name, which of two nodes begins first, which one holds the other, and which node holds both.
The search itself compares numbers and walks a spine. The two agree for every document that was read
(`locate_exact`), because there the numbers count the nodes in document order. The root holds every
node, so the walk always ends, and no two markers are refused for want of a node that holds both.
-/

namespace Intertext.Compile

open Markup (Node Document)
open Markup.Node
open Index (isFragment)

/-! ## 1. What bounds are in a tree

None of these mentions a number of a node. Two nodes are compared by their order in the list of all
nodes, and one holds another if that occurs in it. -/

/-- Whether a marker names a node: by the name the node has within its file where the marker is that
name with a hash sign in front, and by the identifier the node defines where the marker does not
begin with a hash sign. -/
def Names (marker : String) (node : Node) : Prop :=
  (∃ id, marker = "#" ++ id ∧ node.xmlId? = some id) ∨
    isFragment marker = false ∧ node.corresp? = some marker

/-- Whether a node is the first one, in document order, that a marker names. -/
def IsMarked (document : Document) (marker : String) (node : Node) : Prop :=
  Names marker node ∧ ∃ before after, document.nodes = before ++ node :: after ∧
    ∀ other ∈ before, ¬ Names marker other

/-- Whether the stop of a range begins before its start and does not hold it. -/
def Reversed (document : Document) (start stop : Node) : Prop :=
  [stop, start].Sublist document.nodes ∧ start ∉ stop.preorder

/-- Whether two nodes are one, or children of one node. -/
def Level (document : Document) (start stop : Node) : Prop :=
  start = stop ∨ ∃ parent ∈ document.nodes, start ∈ parent.children ∧ stop ∈ parent.children

/-- Whether a node holds two nodes and no child of it does. -/
def Joins (document : Document) (start stop node : Node) : Prop :=
  node ∈ document.nodes ∧ (start ∈ node.preorder ∧ stop ∈ node.preorder) ∧
    ∀ child ∈ node.children, ¬ (start ∈ child.preorder ∧ stop ∈ child.preorder)

/-! ## 2. Markers

Searching for a marker looks at its first letter and then through the nodes. Both kinds of markers
come to the same search with another property, so nothing below depends on the kind. -/

variable {document : Document} {marker : String} {start stop node : Node}

/-- A marker with a hash sign in front names nodes by the rest of it, any other marker by all of
it. -/
theorem names_hash {id : String} : Names ("#" ++ id) node ↔ node.xmlId? = some id := by
  have hash : isFragment ("#" ++ id) = true := by
    rw [isFragment, String.toList_append]
    rfl
  constructor
  · rintro (⟨other, same, found⟩ | ⟨plain, -⟩)
    · rw [found]
      have letters := congrArg String.toList same
      rw [String.toList_append, String.toList_append, List.append_cancel_left_eq,
        String.toList_inj] at letters
      rw [letters]
    · rw [hash] at plain
      cases plain
  · intro found
    exact Or.inl ⟨id, rfl, found⟩

/-- A marker without a hash sign names the nodes that define it. -/
theorem names_plain (plain : isFragment marker = false) :
    Names marker node ↔ node.corresp? = some marker := by
  constructor
  · rintro (⟨id, rfl, -⟩ | ⟨-, found⟩)
    · rw [isFragment, String.toList_append] at plain
      cases plain
    · exact found
  · intro found
    exact Or.inr ⟨plain, found⟩

/-- A marker is looked up as the first node with the property of being named by it. -/
theorem exists_findMarker? (document : Document) (marker : String) :
    ∃ p : Node → Bool, findMarker? document marker = document.nodes.find? p ∧
      ∀ node, p node = true ↔ Names marker node := by
  unfold findMarker? Document.find?
  split
  · rename_i id characters
    have whole : marker = "#" ++ String.ofList id := by
      rw [← String.toList_inj, characters, String.toList_append]
      show '#' :: id = '#' :: (String.ofList id).toList
      rw [String.toList_ofList]
    refine ⟨_, rfl, fun node => ?_⟩
    rw [whole, names_hash, decide_eq_true_iff]
  · rename_i characters
    have plain : isFragment marker = false := by
      rw [isFragment, decide_eq_false_iff_not, List.head?_eq_some_iff]
      rintro ⟨id, hash⟩
      exact characters id hash
    refine ⟨_, rfl, fun node => ?_⟩
    rw [names_plain plain, decide_eq_true_iff]

/-- The search finds the first node that a marker names. -/
theorem findMarker?_eq_some :
    findMarker? document marker = some node ↔ IsMarked document marker node := by
  obtain ⟨p, found, names⟩ := exists_findMarker? document marker
  rw [found, List.find?_eq_some_iff_append, names, IsMarked]
  simp only [Bool.not_eq_true', ← Bool.not_eq_true, names]

/-- The search fails exactly if a marker names no node. -/
theorem findMarker?_eq_none :
    findMarker? document marker = none ↔ ∀ node ∈ document.nodes, ¬ Names marker node := by
  obtain ⟨p, found, names⟩ := exists_findMarker? document marker
  rw [found, List.find?_eq_none]
  simp only [names]

/-- What is marked is a node of the document. -/
theorem IsMarked.mem (marked : IsMarked document marker node) : node ∈ document.nodes :=
  findMarker?_mem (findMarker?_eq_some.mpr marked)

/-- A marker marks one node at most. -/
theorem IsMarked.unique {other : Node} (marked : IsMarked document marker node)
    (marked' : IsMarked document marker other) : node = other :=
  Option.some.inj ((findMarker?_eq_some.mpr marked).symm.trans (findMarker?_eq_some.mpr marked'))

/-! ## 3. Where nodes stand

The numbers count the nodes in document order, so comparing numbers is comparing places, and a
number occurs in a node exactly if its node does. -/

/-- A node of the tree lies in another one if its number does. -/
theorem id_mem_ids_iff (ordered : document.Ordered) {inner outer : Node}
    (isInner : inner ∈ document.nodes) (isOuter : outer ∈ document.nodes) :
    inner.id ∈ outer.ids ↔ inner ∈ outer.preorder := by
  constructor
  · intro inside
    obtain ⟨other, isOther, same⟩ := mem_ids.mp inside
    have isNode := (preorder_sublist isOuter).subset isOther
    rwa [← Node.Ordered.eq_of_id_eq ordered isNode isInner same]
  · intro inside
    exact List.mem_map_of_mem inside

/-- Of two nodes the one with the smaller number comes first. -/
theorem sublist_nodes_iff (ordered : document.Ordered) (isStart : start ∈ document.nodes)
    (isStop : stop ∈ document.nodes) :
    [stop, start].Sublist document.nodes ↔ stop.id < start.id := by
  constructor
  · intro inOrder
    have ascending : (document.nodes.map (·.id)).Pairwise (· < ·) := ordered
    have pair := ascending.sublist (inOrder.map (·.id))
    exact List.rel_of_pairwise_cons pair List.mem_cons_self
  · intro less
    obtain ⟨before, after, whole⟩ := List.append_of_mem isStart
    have first : stop ∈ before := by
      have ascending : (document.nodes.map (·.id)).Pairwise (· < ·) := ordered
      rw [whole, List.map_append, List.map_cons, List.pairwise_append] at ascending
      rw [whole] at isStop
      rcases List.mem_append.mp isStop with earlier | later
      · exact earlier
      · rcases List.mem_cons.mp later with rfl | later
        · exact absurd less (Nat.lt_irrefl _)
        · have := (List.pairwise_cons.mp ascending.2.1).1 _ (List.mem_map_of_mem later)
          exact absurd less (Nat.lt_asymm this)
    rw [whole]
    exact List.Sublist.append (List.singleton_sublist.mpr first)
      ((List.nil_sublist after).cons_cons start)

/-- The comparison of numbers tells a range that runs backwards. -/
theorem reversed_iff (ordered : document.Ordered) (isStart : start ∈ document.nodes)
    (isStop : stop ∈ document.nodes) :
    Reversed document start stop ↔
      stop.id < start.id ∧ ¬ document.contains stop.id start.id = true := by
  have holds : document.contains stop.id start.id = true ↔ start ∈ stop.preorder := by
    rw [Document.contains_iff ordered, ← id_mem_ids_iff ordered isStart isStop]
    constructor
    · rintro ⟨other, isOther, same, inside⟩
      rwa [← Node.Ordered.eq_of_id_eq ordered isOther isStop same]
    · intro inside
      exact ⟨stop, isStop, rfl, inside⟩
  rw [Reversed, sublist_nodes_iff ordered isStart isStop, holds]

/-- A node without a parent is the root. -/
theorem eq_root_of_parent?_eq_none (ordered : document.Ordered) (isNode : node ∈ document.nodes)
    (none : document.parent? node.id = none) : node = document.root := by
  rw [Document.nodes_eq, preorder_eq] at isNode
  refine (List.mem_cons.mp isNode).resolve_right fun below => ?_
  obtain ⟨parent, found⟩ := Document.parent?_isSome ordered (List.mem_map_of_mem below)
  rw [none] at found
  cases found

/-- Nodes are on one level if they are one or have the same parent. -/
theorem level_iff (ordered : document.Ordered) (isStart : start ∈ document.nodes)
    (isStop : stop ∈ document.nodes) :
    Level document start stop ↔ start.id = stop.id ∨
      (document.parent? start.id).map (·.id) = (document.parent? stop.id).map (·.id) := by
  constructor
  · rintro (rfl | ⟨parent, isParent, startBelow, stopBelow⟩)
    · exact Or.inl rfl
    · refine Or.inr ?_
      rw [Document.parent?_child ordered isParent startBelow,
        Document.parent?_child ordered isParent stopBelow]
  · rintro (same | same)
    · exact Or.inl (Node.Ordered.eq_of_id_eq ordered isStart isStop same)
    · cases found : document.parent? start.id with
      | none =>
        rw [found, Option.map_none] at same
        have alone := Option.map_eq_none_iff.mp same.symm
        exact Or.inl ((eq_root_of_parent?_eq_none ordered isStart found).trans
          (eq_root_of_parent?_eq_none ordered isStop alone).symm)
      | some parent =>
        rw [found, Option.map_some] at same
        obtain ⟨other, foundOther, sameParent⟩ := Option.map_eq_some_iff.mp same.symm
        obtain ⟨isParent, child, isChild, sameStart⟩ := Document.parent?_eq_some ordered found
        obtain ⟨isOther, child', isChild', sameStop⟩ := Document.parent?_eq_some ordered foundOther
        cases Node.Ordered.eq_of_id_eq ordered isOther isParent sameParent
        have below {inner : Node} (member : inner ∈ parent.children) : inner ∈ document.nodes :=
          (preorder_sublist isParent).subset (child_mem_preorder member)
        cases Node.Ordered.eq_of_id_eq ordered (below isChild) isStart sameStart
        cases Node.Ordered.eq_of_id_eq ordered (below isChild') isStop sameStop
        exact Or.inr ⟨parent, isParent, isChild, isChild'⟩

/-! ## 4. The node that holds both ends

The nodes that hold both ends lie in each other, as all of them hold the start. The innermost of
them is the one of which no child holds both, and it comes first on the spine of the start. -/

/-- No two nodes hold the same two nodes while no child of theirs does. -/
theorem Joins.unique (ordered : document.Ordered) {a b : Node} (ha : Joins document start stop a)
    (hb : Joins document start stop b) : a = b := by
  obtain ⟨isA, bothA, nearestA⟩ := ha
  obtain ⟨isB, bothB, nearestB⟩ := hb
  have same {inner outer : Node} (inside : inner ∈ outer.preorder)
      (both : start ∈ inner.preorder ∧ stop ∈ inner.preorder)
      (nearest : ∀ child ∈ outer.children, ¬ (start ∈ child.preorder ∧ stop ∈ child.preorder)) :
      inner = outer := by
    rw [preorder_eq] at inside
    refine (List.mem_cons.mp inside).resolve_right fun below => ?_
    obtain ⟨child, isChild, inChild⟩ := mem_forestPreorder.mp below
    exact nearest child isChild ⟨(preorder_sublist inChild).subset both.1,
      (preorder_sublist inChild).subset both.2⟩
  -- both nodes hold the start, so one of them lies in the other
  rcases mem_preorder_or_mem_preorder (List.mem_map_of_mem bothA.1) (List.mem_map_of_mem bothB.1)
    ordered isA isB with inB | inA
  · exact same inB bothA nearestB
  · exact (same inA bothB nearestA).symm

/-- The first node on the spine of the start that holds the stop as well is the one that joins
them. -/
theorem find?_spine (ordered : document.Ordered) (isStart : start ∈ document.nodes)
    (isStop : stop ∈ document.nodes) :
    ∃ node, (document.spine start.id).find? (·.contains stop.id) = some node ∧
      Joins document start stop node := by
  have onSpine {outer : Node} (isOuter : outer ∈ document.nodes) :
      outer ∈ document.spine start.id ↔ start ∈ outer.preorder := by
    rw [Document.mem_spine ordered, id_mem_ids_iff ordered isStart isOuter]
    exact and_iff_right isOuter
  have holds {outer : Node} (isOuter : outer ∈ document.nodes) :
      outer.contains stop.id = true ↔ stop ∈ outer.preorder := by
    rw [contains_iff, id_mem_ids_iff ordered isStop isOuter]
  have isRoot : document.root ∈ document.nodes := mem_preorder_self _
  -- the root holds every node, so the search does not fail
  cases found : (document.spine start.id).find? (·.contains stop.id) with
  | none =>
    have apart := List.find?_eq_none.mp found document.root ((onSpine isRoot).mpr isStart)
    exact absurd ((holds isRoot).mpr isStop) apart
  | some node =>
    refine ⟨node, rfl, ?_⟩
    obtain ⟨holdsStop, before, after, whole, earlier⟩ := List.find?_eq_some_iff_append.mp found
    have member : node ∈ document.spine start.id := List.mem_of_find?_eq_some found
    have isNode := ((Document.mem_spine ordered).mp member).1
    refine ⟨isNode, ⟨(onSpine isNode).mp member, (holds isNode).mp holdsStop⟩, ?_⟩
    intro child isChild both
    -- the spine lists inner nodes first, so it comes to the child before it comes to the node
    have isInner : child ∈ document.nodes :=
      (preorder_sublist isNode).subset (child_mem_preorder isChild)
    have later : node.id < child.id := (Node.Ordered.of_mem ordered isNode).lt_of_mem
      (mem_forestIds.mpr ⟨child, isChild, child.id_mem_ids⟩)
    have inSpine := (onSpine isInner).mpr both.1
    have descending := Document.spine_pairwise ordered start.id
    rw [whole] at inSpine descending
    rcases List.mem_append.mp inSpine with first | second
    · have apart := earlier child first
      rw [(holds isInner).mpr both.2] at apart
      cases apart
    · rcases List.mem_cons.mp second with rfl | after
      · exact Nat.lt_irrefl _ later
      · have := (List.pairwise_cons.mp (List.pairwise_append.mp descending).2.1).1 child after
        exact absurd later (Nat.lt_asymm this)

/-! ## 5. The bounds of two markers

The cases of the search are those of the statement, taken in the same order: a marker that names
nothing, a range that runs backwards, and bounds. -/

/-- What bounds two nodes get. -/
theorem between_exact (ordered : document.Ordered) (isStart : start ∈ document.nodes)
    (isStop : stop ∈ document.nodes) (startMarker stopMarker : String) :
    Reversed document start stop ∧ Bounds.between document start stop startMarker stopMarker =
        .error (.badRange (.reversed startMarker stopMarker)) ∨
      ¬ Reversed document start stop ∧ ∃ ancestor,
        Bounds.between document start stop startMarker stopMarker =
          .ok ⟨start.id, stop.id, ancestor.id⟩ ∧
        (Level document start stop → ancestor = start) ∧
        (¬ Level document start stop → Joins document start stop ancestor) := by
  unfold Bounds.between
  rw [reversed_iff ordered isStart isStop, level_iff ordered isStart isStop]
  split
  · rename_i reversed
    exact Or.inl ⟨reversed, rfl⟩
  rename_i forward
  refine Or.inr ⟨forward, ?_⟩
  split
  · rename_i level
    exact ⟨start, rfl, fun _ => rfl, fun apart => absurd level apart⟩
  · rename_i apart
    obtain ⟨ancestor, found, joins⟩ := find?_spine ordered isStart isStop
    rw [found]
    exact ⟨ancestor, rfl, fun level => absurd level apart, fun _ => joins⟩

/-- What comes of two markers: one of them names no node, or the range is refused, or it has
bounds. -/
theorem locate_cases (ordered : document.Ordered) (startMarker stopMarker : String) :
    ((∀ node ∈ document.nodes, ¬ Names startMarker node) ∨
        ∀ node ∈ document.nodes, ¬ Names stopMarker node) ∧
      (∃ what, Bounds.locate document startMarker stopMarker = .error (.missing what)) ∨
    ∃ start stop, IsMarked document startMarker start ∧ IsMarked document stopMarker stop ∧
      (Reversed document start stop ∧ Bounds.locate document startMarker stopMarker =
          .error (.badRange (.reversed startMarker stopMarker)) ∨
        ¬ Reversed document start stop ∧ ∃ ancestor,
          Bounds.locate document startMarker stopMarker = .ok ⟨start.id, stop.id, ancestor.id⟩ ∧
          (Level document start stop → ancestor = start) ∧
          (¬ Level document start stop → Joins document start stop ancestor)) := by
  unfold Bounds.locate
  cases foundStart : findMarker? document startMarker with
  | none => exact Or.inl ⟨Or.inl (findMarker?_eq_none.mp foundStart), _, rfl⟩
  | some start =>
    cases foundStop : findMarker? document stopMarker with
    | none => exact Or.inl ⟨Or.inr (findMarker?_eq_none.mp foundStop), _, rfl⟩
    | some stop =>
      have isStart := findMarker?_eq_some.mp foundStart
      have isStop := findMarker?_eq_some.mp foundStop
      exact Or.inr ⟨start, stop, isStart, isStop,
        between_exact ordered isStart.mem isStop.mem startMarker stopMarker⟩

/-- What `Bounds.locate` does with two markers, for every document that was read. It misses
something exactly if one of the markers names no node. It refuses the range exactly if the first
node that the second marker names begins before the first one that the first marker names and does
not hold it. In every other case it gives the numbers of the two nodes and of the start itself, if
the two are on one level, or else of the one node that holds both while no child of it does. There
is always one such node, so the failure that two nodes share no ancestor does not occur. -/
theorem locate_exact {text : String} (parsed : Document.parse text = .ok document)
    (startMarker stopMarker : String) :
    ((∃ what, Bounds.locate document startMarker stopMarker = .error (.missing what)) ↔
      (∀ node ∈ document.nodes, ¬ Names startMarker node) ∨
        ∀ node ∈ document.nodes, ¬ Names stopMarker node) ∧
    ((∃ why, Bounds.locate document startMarker stopMarker = .error (.badRange why)) ↔
      ∃ start stop, IsMarked document startMarker start ∧ IsMarked document stopMarker stop ∧
        Reversed document start stop) ∧
    (∀ start stop, IsMarked document startMarker start → IsMarked document stopMarker stop →
      ¬ Reversed document start stop → ∃ ancestor,
        Bounds.locate document startMarker stopMarker = .ok ⟨start.id, stop.id, ancestor.id⟩ ∧
        (Level document start stop → ancestor = start) ∧
        (¬ Level document start stop → Joins document start stop ancestor)) ∧
    (∀ start ∈ document.nodes, ∀ stop ∈ document.nodes, ∃! node, Joins document start stop node) ∧
    ∀ first last, Bounds.locate document startMarker stopMarker ≠
      .error (.badRange (.unrelated first last)) := by
  have ordered := Document.ordered_of_parse parsed
  have joined : ∀ start ∈ document.nodes, ∀ stop ∈ document.nodes,
      ∃! node, Joins document start stop node := by
    intro start isStart stop isStop
    obtain ⟨node, -, joins⟩ := find?_spine ordered isStart isStop
    exact ⟨node, joins, fun other joinsOther => joinsOther.unique ordered joins⟩
  rcases locate_cases ordered startMarker stopMarker with
    ⟨absent, what, fails⟩ | ⟨start, stop, isStart, isStop, outcome⟩
  · -- no two nodes are marked, so nothing is said of any
    have unmarked {start stop : Node} (isStart : IsMarked document startMarker start)
        (isStop : IsMarked document stopMarker stop) : False := by
      rcases absent with none | none
      · exact none start isStart.mem isStart.1
      · exact none stop isStop.mem isStop.1
    rw [fails]
    refine ⟨iff_of_true ⟨what, rfl⟩ absent, ?_, ?_, joined, by simp⟩
    · refine iff_of_false (by simp) ?_
      rintro ⟨start, stop, isStart, isStop, -⟩
      exact unmarked isStart isStop
    · intro start stop isStart isStop
      exact (unmarked isStart isStop).elim
  -- both markers name a node, and what is said of marked nodes is said of these two
  · have present : ¬ ((∀ node ∈ document.nodes, ¬ Names startMarker node) ∨
        ∀ node ∈ document.nodes, ¬ Names stopMarker node) := by
      rintro (none | none)
      · exact none start isStart.mem isStart.1
      · exact none stop isStop.mem isStop.1
    have only {start' stop' : Node} (isStart' : IsMarked document startMarker start')
        (isStop' : IsMarked document stopMarker stop') : start' = start ∧ stop' = stop :=
      ⟨isStart'.unique isStart, isStop'.unique isStop⟩
    -- refused, or located with the ancestor of the two
    rcases outcome with ⟨reversed, fails⟩ | ⟨forward, bounds⟩
    · rw [fails]
      refine ⟨iff_of_false (by simp) present,
        iff_of_true ⟨_, rfl⟩ ⟨start, stop, isStart, isStop, reversed⟩, ?_, joined, by simp⟩
      intro start' stop' isStart' isStop' forward
      obtain ⟨rfl, rfl⟩ := only isStart' isStop'
      exact absurd reversed forward
    · obtain ⟨ancestor, found, place⟩ := bounds
      rw [found]
      refine ⟨iff_of_false (by simp) present, iff_of_false (by simp) ?_, ?_, joined, by simp⟩
      · rintro ⟨start', stop', isStart', isStop', reversed⟩
        obtain ⟨rfl, rfl⟩ := only isStart' isStop'
        exact forward reversed
      · intro start' stop' isStart' isStop' _
        obtain ⟨rfl, rfl⟩ := only isStart' isStop'
        exact ⟨ancestor, rfl, place⟩

/-- A word within a verse, and the verse after that one. -/
def recitedWord : Node :=
  ⟨2, "/r/v[1]/w[1]", .plain "w", [(.plain "corresp", "urn:w")], "S", [], ""⟩

def recitedVerse : Node := ⟨3, "/r/v[2]", .plain "v", [(.xml "id", "v")], "E", [], ""⟩

/-- A document with the two. -/
def recital : Document where
  root := ⟨0, "/r", .plain "r", [], "",
    [⟨1, "/r/v[1]", .plain "v", [], "", [recitedWord], ""⟩, recitedVerse], ""⟩
  namespaces := []

/-- The range from the word to the verse lies within the root, the range back is refused, and a
range to what is not there misses it. -/
theorem locate_recital :
    Document.parse "<r><v><w corresp=\"urn:w\">S</w></v><v xml:id=\"v\">E</v></r>" = .ok recital ∧
      (∃ ancestor, Bounds.locate recital "urn:w" "#v" = .ok ⟨2, 3, ancestor.id⟩ ∧
        Joins recital recitedWord recitedVerse ancestor) ∧
      (∃ why, Bounds.locate recital "#v" "urn:w" = .error (.badRange why)) ∧
      ∃ what, Bounds.locate recital "urn:w" "#x" = .error (.missing what) := by
  have parsed : Document.parse
      "<r><v><w corresp=\"urn:w\">S</w></v><v xml:id=\"v\">E</v></r>" = .ok recital := by cbv
  have ordered := Document.ordered_of_parse parsed
  have isWord : IsMarked recital "urn:w" recitedWord := findMarker?_eq_some.mp rfl
  have isResponse : IsMarked recital "#v" recitedVerse := findMarker?_eq_some.mp rfl
  have forward : ¬ Reversed recital recitedWord recitedVerse := by
    rw [reversed_iff ordered isWord.mem isResponse.mem]
    decide
  have reversed : Reversed recital recitedVerse recitedWord := by
    rw [reversed_iff ordered isResponse.mem isWord.mem]
    decide
  have apart : ¬ Level recital recitedWord recitedVerse := by
    rw [level_iff ordered isWord.mem isResponse.mem]
    decide
  obtain ⟨ancestor, found, -, joins⟩ :=
    (locate_exact parsed "urn:w" "#v").2.2.1 recitedWord recitedVerse isWord isResponse forward
  have absent : ∀ node ∈ recital.nodes, ¬ Names "#x" node := findMarker?_eq_none.mp rfl
  exact ⟨parsed, ⟨ancestor, found, joins apart⟩,
    (locate_exact parsed "#v" "urn:w").2.1.mpr
      ⟨recitedVerse, recitedWord, isResponse, isWord, reversed⟩,
    (locate_exact parsed "urn:w" "#x").1.mpr (Or.inr absent)⟩

end Intertext.Compile
