import Intertext.Proofs.Markup.DocumentOrder
import Intertext.Proofs.Markup.Paths
import Intertext.Proofs.Text.Cutting
/-!
Whether paths tell nodes apart.

The step to a child has the name of the child as written, and its position among the siblings of the
same name as read. So two siblings can have one step: if they are written alike, have different
names because a declaration stands between them, and have the same position each among its own
(`Alike`). As names are read up to the next white space, one can also be written as the step to a
sibling and what follows there after a slash (`RunsOn`), and then the way through the sibling can
spell the same text. Nothing else can go wrong (`siblings_of_path_eq`): a node is found by its path
exactly if neither happens (`identifies_iff`).
-/

namespace Intertext.Markup

open Node (preorder_eq mem_forestPreorder mem_preorder_self forestPreorder)

/-! ## 1. Steps -/

section Steps

theorem toString_inj {m n : Nat} (same : (toString m).toList = (toString n).toList) : m = n := by
  have numbers := congrArg (Nat.ofDigitChars 10 · 0) same
  simpa [Nat.toString_eq_repr, Nat.toList_repr, Nat.ofDigitChars_toDigits] using numbers

variable {written written' rest : List Char} {position position' : Nat}

/-- A step tells the name and the position. -/
theorem pathStep_inj (same : pathStep written position = pathStep written' position') :
    written = written' ∧ position = position' := by
  have cut (written : List Char) (position : Nat) :
      Text.splitLast? '[' (pathStep written position).dropLast =
        some ('/' :: written, (toString position).toList) := by
    refine Text.splitLast?_eq_some.mpr ⟨?_, not_mem_toString (by decide) position⟩
    rw [pathStep, List.dropLast_concat]
  have parts := (cut written position).symm.trans (same ▸ cut written' position')
  simp only [Option.some.injEq, Prod.mk.injEq, List.cons.injEq, true_and] at parts
  exact ⟨parts.1, toString_inj parts.2⟩

/-- A step that goes on with a slash where another one ends has a name that does. -/
theorem prefix_of_pathStep_eq_append
    (longer : pathStep written' position' = pathStep written position ++ '/' :: rest) :
    pathStep written position ++ ['/'] <+: '/' :: written' := by
  have noSlash : '/' ∉ '[' :: (toString position').toList ++ [']'] := by
    simp only [List.cons_append, List.mem_cons, List.mem_append, List.not_mem_nil, or_false]
    rintro (wrong | digit | wrong)
    · exact absurd wrong (by decide)
    · exact not_mem_toString (by decide) position' digit
    · exact absurd wrong (by decide)
  have apart : ('/' :: written') ++ ('[' :: (toString position').toList ++ [']']) =
      pathStep written position ++ '/' :: rest := by
    rw [← longer, pathStep]
    simp
  rcases List.append_eq_append_iff.mp apart with ⟨more, -, wrong⟩ | ⟨more, isName, after⟩
  · refine absurd ?_ noSlash
    rw [wrong]
    exact List.mem_append_right _ List.mem_cons_self
  · cases more with
    | nil => cases after
    | cons slash more =>
      injection after with isSlash
      exact ⟨more, by rw [isName, isSlash]; simp⟩

/-- A text below a step: nothing, or more after a slash. -/
def IsBelow (rest : List Char) : Prop := rest = [] ∨ ∃ more, rest = '/' :: more

/-- Where two ways spell the same text, they begin with the same step, or the name in one step goes
on with a slash where the other step ends. -/
theorem steps_of_append_eq {rest' : List Char} (below : IsBelow rest) (below' : IsBelow rest')
    (same : pathStep written position ++ rest = pathStep written' position' ++ rest') :
    (written = written' ∧ position = position') ∨
      pathStep written position ++ ['/'] <+: '/' :: written' ∨
      pathStep written' position' ++ ['/'] <+: '/' :: written := by
  rcases List.append_eq_append_iff.mp same with ⟨more, longer, after⟩ | ⟨more, longer, after⟩
  · cases more with
    | nil => exact Or.inl (pathStep_inj (longer.trans (List.append_nil _)).symm)
    | cons slash more =>
      rcases below with rfl | ⟨others, rfl⟩
      · cases after
      · injection after with isSlash
        exact Or.inr (Or.inl (prefix_of_pathStep_eq_append (isSlash ▸ longer)))
  · cases more with
    | nil => exact Or.inl (pathStep_inj (longer.trans (List.append_nil _)))
    | cons slash more =>
      rcases below' with rfl | ⟨others, rfl⟩
      · cases after
      · injection after with isSlash
        exact Or.inr (Or.inr (prefix_of_pathStep_eq_append (isSlash ▸ longer)))

end Steps

/-! ## 2. Ways down -/

theorem Node.mem_preorder_of_child {root parent child inner : Node}
    (isParent : parent ∈ root.preorder) (isChild : child ∈ parent.children)
    (below : inner ∈ child.preorder) : inner ∈ root.preorder :=
  Node.mem_preorder_of_below isParent (mem_forestPreorder.mpr ⟨child, isChild, below⟩)

mutual

/-- What holds of a node, and of each parent on the way up from it, holds of all nodes that contain
it. -/
theorem Node.climb {root inner : Node} {P : Node → Prop} (own : P inner)
    (up : ∀ parent ∈ root.preorder, ∀ child ∈ parent.children, inner ∈ child.preorder →
      P child → P parent) :
    ∀ {node : Node}, node ∈ root.preorder → inner ∈ node.preorder → P node
  | ⟨id, path, name, attributes, text, children, tail⟩, isNode, member => by
    rw [preorder_eq] at member
    rcases List.mem_cons.mp member with rfl | below
    · exact own
    · obtain ⟨child, isChild, inside, holds⟩ :=
        climb_children own up (fun child isChild =>
          Node.mem_preorder_of_child isNode isChild (mem_preorder_self child)) below
      exact up _ isNode child isChild inside holds

theorem Node.climb_children {root inner : Node} {P : Node → Prop} (own : P inner)
    (up : ∀ parent ∈ root.preorder, ∀ child ∈ parent.children, inner ∈ child.preorder →
      P child → P parent) :
    ∀ {nodes : List Node}, (∀ node ∈ nodes, node ∈ root.preorder) →
      inner ∈ forestPreorder nodes → ∃ child ∈ nodes, inner ∈ child.preorder ∧ P child
  | [], _, member => by cases member
  | first :: rest, areNodes, member => by
    obtain ⟨isNode, areNodes⟩ := List.forall_mem_cons.mp areNodes
    rcases List.mem_append.mp member with member | member
    · exact ⟨first, List.mem_cons_self, member, climb own up isNode member⟩
    · obtain ⟨child, isChild, inside⟩ := climb_children own up areNodes member
      exact ⟨child, List.mem_cons_of_mem _ isChild, inside⟩

end

/-- Of two nodes one contains the other, or they lie in different children of some node. -/
theorem Node.nested_or_siblings {root inner other : Node} (isInner : inner ∈ root.preorder)
    (isOther : other ∈ root.preorder) :
    other ∈ inner.preorder ∨ inner ∈ other.preorder ∨ ∃ parent ∈ root.preorder,
      ∃ first ∈ parent.children, ∃ second ∈ parent.children,
        first ≠ second ∧ inner ∈ first.preorder ∧ other ∈ second.preorder := by
  refine Node.climb (P := fun node => other ∈ node.preorder → _) Or.inl ?_
    (mem_preorder_self root) isInner isOther
  intro parent isParent first isFirst inFirst known below
  rw [preorder_eq] at below
  rcases List.mem_cons.mp below with rfl | below
  · exact Or.inr (Or.inl
      (Node.mem_preorder_of_child (mem_preorder_self _) isFirst inFirst))
  · obtain ⟨second, isSecond, inSecond⟩ := mem_forestPreorder.mp below
    by_cases one : first = second
    · exact known (one ▸ inSecond)
    · exact Or.inr (Or.inr ⟨parent, isParent, first, isFirst, second, isSecond, one, inFirst,
        inSecond⟩)

/-! ## 3. Siblings -/

/-- The position of a child among the children that have its name. -/
def Node.position (parent child : Node) : Nat :=
  1 + (parent.children.takeWhile (·.id ≠ child.id)).countP (·.name = child.name)

namespace Document

/-- The name of a node as it is written in a text. -/
def written (text : String) (node : Node) : List Char :=
  Tag.name ((startTags text).getD node.id [])

/-- Whether two children of a node are written alike and have the same position, each among the
children of its own name, which is another one. -/
def Alike (text : String) (parent first second : Node) : Prop :=
  first.name ≠ second.name ∧ written text first = written text second ∧
    parent.position first = parent.position second

/-- Whether a child of a node is written as the step to another child with a slash after it. -/
def RunsOn (text : String) (parent first second : Node) : Prop :=
  pathStep (written text first) (parent.position first) ++ ['/'] <+: '/' :: written text second

instance (text : String) (parent first second : Node) :
    Decidable (Alike text parent first second) :=
  inferInstanceAs (Decidable (_ ∧ _))

instance (text : String) (parent first second : Node) :
    Decidable (RunsOn text parent first second) :=
  inferInstanceAs (Decidable (_ <+: _))

variable {text : String} {document : Document}
  {parent child node inner other first second : Node}

/-- What no start tag has in its name, no node has. -/
theorem not_mem_written {c : Char} (absent : ∀ raw ∈ startTags text, c ∉ Tag.name raw)
    (node : Node) : c ∉ written text node := by
  rw [written, List.getD]
  cases tag : (startTags text)[node.id]? with
  | none => simp [Tag.name]
  | some raw => exact absent raw (List.mem_of_getElem? tag)

/-- A child is counted after the siblings before it. -/
theorem Ordered.position_eq (ordered : document.Ordered) (isParent : parent ∈ document.nodes)
    {before after : List Node} (children : parent.children = before ++ child :: after) :
    parent.position child = 1 + before.countP (·.name = child.name) := by
  have ascending := ordered.children_pairwise isParent
  rw [children, List.map_append, List.map_cons, List.pairwise_append] at ascending
  have earlier : ∀ other ∈ before, decide (other.id ≠ child.id) = true := by
    intro other member
    have less := ascending.2.2 other.id (List.mem_map_of_mem member) child.id List.mem_cons_self
    exact decide_eq_true (Nat.ne_of_lt less)
  rw [Node.position, children, List.takeWhile_append_of_pos earlier,
    List.takeWhile_cons_of_neg (by simp), List.append_nil]

/-- Of two children with one name the later one has the greater position. -/
theorem Ordered.position_lt (ordered : document.Ordered) (isParent : parent ∈ document.nodes)
    (isFirst : first ∈ parent.children) (isSecond : second ∈ parent.children)
    (earlier : first.id < second.id) (sameName : first.name = second.name) :
    parent.position first < parent.position second := by
  obtain ⟨before, after, children⟩ := List.append_of_mem isSecond
  have ascending := ordered.children_pairwise isParent
  rw [children, List.map_append, List.map_cons, List.pairwise_append, List.pairwise_cons]
    at ascending
  have isBefore : first ∈ before := by
    rw [children] at isFirst
    rcases List.mem_append.mp isFirst with member | member
    · exact member
    · rcases List.mem_cons.mp member with rfl | member
      · exact absurd earlier (Nat.lt_irrefl _)
      · have later := ascending.2.1.1 first.id (List.mem_map_of_mem member)
        exact absurd earlier (Nat.lt_asymm later)
  rw [ordered.position_eq isParent children]
  obtain ⟨front, middle, rfl⟩ := List.append_of_mem isBefore
  rw [List.append_assoc, List.cons_append] at children
  rw [ordered.position_eq isParent children, List.countP_append, List.countP_cons]
  simp only [sameName, decide_true, if_true]
  omega

/-- The path of a child goes on from that of its parent by the step to the child. -/
theorem path_child_of_parse (h : parse text = .ok document) (isParent : parent ∈ document.nodes)
    (isChild : child ∈ parent.children) : child.path.toList =
      parent.path.toList ++ pathStep (written text child) (parent.position child) := by
  obtain ⟨before, after, children⟩ := List.append_of_mem isChild
  obtain ⟨spelled, -⟩ := spelled_of_parse h
  obtain ⟨raw, tag, path⟩ := spelled.steps isParent children
  rw [path, (ordered_of_parse h).position_eq isParent children, written, List.getD, tag,
    Option.getD_some]

/-! ## 4. Nodes with one path -/

/-- The path of what lies below a node goes on from that of the node, after a slash. -/
theorem path_below_of_parse (h : parse text = .ok document) (isNode : node ∈ document.nodes)
    (below : inner ∈ node.preorder) :
    ∃ rest, inner.path.toList = node.path.toList ++ rest ∧ IsBelow rest ∧
      (rest = [] → inner = node) := by
  refine Node.climb (P := fun upper => ∃ rest, inner.path.toList = upper.path.toList ++ rest ∧
    IsBelow rest ∧ (rest = [] → inner = upper)) ?_ ?_ isNode below
  · exact ⟨[], (List.append_nil _).symm, Or.inl rfl, fun _ => rfl⟩
  · rintro parent isParent child isChild - ⟨rest, whole, -⟩
    rw [path_child_of_parse h isParent isChild, List.append_assoc] at whole
    exact ⟨_, whole, Or.inr ⟨_, rfl⟩, fun none => by cases none⟩

/-- Two nodes with one path lie in different children of some node. -/
theorem siblings_of_path_eq (h : parse text = .ok document) (isInner : inner ∈ document.nodes)
    (isOther : other ∈ document.nodes) (same : inner.path = other.path) :
    inner = other ∨ ∃ parent ∈ document.nodes, ∃ first ∈ parent.children,
      ∃ second ∈ parent.children,
        first ≠ second ∧ inner ∈ first.preorder ∧ other ∈ second.preorder := by
  have eq_of_below {upper lower : Node} (isUpper : upper ∈ document.nodes)
      (below : lower ∈ upper.preorder) (same : lower.path = upper.path) : lower = upper := by
    obtain ⟨rest, whole, -, alone⟩ := path_below_of_parse h isUpper below
    rw [same] at whole
    exact alone (List.self_eq_append_right.mp whole)
  rcases Node.nested_or_siblings isInner isOther with below | above | siblings
  · exact Or.inl (eq_of_below isInner below same.symm).symm
  · exact Or.inl (eq_of_below isOther above same)
  · exact Or.inr siblings

/-- Siblings below which two nodes have one path are alike, or the name of one runs on from the step
to the other. -/
theorem alike_or_runsOn_of_path_eq (h : parse text = .ok document)
    (isParent : parent ∈ document.nodes) (isFirst : first ∈ parent.children)
    (isSecond : second ∈ parent.children) (different : first ≠ second)
    (inFirst : inner ∈ first.preorder) (inSecond : other ∈ second.preorder)
    (same : inner.path = other.path) :
    Alike text parent first second ∨ RunsOn text parent first second ∨
      RunsOn text parent second first := by
  have ordered := ordered_of_parse h
  have isNode {child : Node} (isChild : child ∈ parent.children) : child ∈ document.nodes :=
    Node.mem_preorder_of_child isParent isChild (mem_preorder_self child)
  obtain ⟨rest, path, below, -⟩ := path_below_of_parse h (isNode isFirst) inFirst
  obtain ⟨rest', path', below', -⟩ := path_below_of_parse h (isNode isSecond) inSecond
  rw [path_child_of_parse h isParent isFirst, List.append_assoc] at path
  rw [path_child_of_parse h isParent isSecond, List.append_assoc, ← same, path] at path'
  rcases steps_of_append_eq below below' (List.append_cancel_left path') with
    ⟨sameWritten, samePosition⟩ | runsOn
  · refine Or.inl ⟨fun sameName => ?_, sameWritten, samePosition⟩
    rcases Nat.lt_trichotomy first.id second.id with earlier | sameId | earlier
    · exact absurd samePosition
        (Nat.ne_of_lt (ordered.position_lt isParent isFirst isSecond earlier sameName))
    · exact different (Node.Ordered.eq_of_id_eq ordered (isNode isFirst) (isNode isSecond) sameId)
    · exact absurd samePosition.symm
        (Nat.ne_of_lt (ordered.position_lt isParent isSecond isFirst earlier sameName.symm))
  · exact Or.inr runsOn

/-- Siblings that are alike have one path. -/
theorem Alike.path_eq (alike : Alike text parent first second) (h : parse text = .ok document)
    (isParent : parent ∈ document.nodes) (isFirst : first ∈ parent.children)
    (isSecond : second ∈ parent.children) : first.path = second.path := by
  rw [← String.toList_inj, path_child_of_parse h isParent isFirst,
    path_child_of_parse h isParent isSecond, alike.2.1, alike.2.2]

/-- No name runs on from the step to the element it names: it is shorter. -/
theorem not_runsOn_self (text : String) (parent node : Node) : ¬ RunsOn text parent node node := by
  intro runsOn
  have length := runsOn.length_le
  simp only [pathStep, List.length_append, List.length_cons, List.length_nil] at length
  omega

/-- A name without a slash runs on from no step. -/
theorem not_runsOn (noSlash : '/' ∉ written text second) : ¬ RunsOn text parent first second := by
  rintro ⟨rest, longer⟩
  rw [pathStep, List.append_assoc, List.cons_append, List.cons_append, List.cons_append] at longer
  injection longer with _ longer
  rw [← longer] at noSlash
  simp at noSlash

/-! ## 5. Finding nodes by their paths -/

/-- Whether every node is the one that is found by its path. -/
def Identifies (document : Document) : Prop :=
  ∀ node ∈ document.nodes, document.byPath? node.path = some node

theorem Identifies.eq_of_path_eq (identifies : document.Identifies)
    (isInner : inner ∈ document.nodes) (isOther : other ∈ document.nodes)
    (same : inner.path = other.path) : inner = other := by
  have found := identifies inner isInner
  rw [same, identifies other isOther] at found
  exact (Option.some.inj found).symm

/-- A path that no other node has leads to its node. -/
theorem byPath?_of_alone (isNode : node ∈ document.nodes)
    (alone : ∀ other ∈ document.nodes, other.path = node.path → other = node) :
    document.byPath? node.path = some node := by
  cases found : document.byPath? node.path with
  | none =>
    rw [byPath?, List.find?_eq_none] at found
    exact absurd (found node (List.mem_reverse.mpr isNode)) (by simp)
  | some other =>
    have isOther := List.mem_reverse.mp (List.mem_of_find?_eq_some found)
    have same := List.find?_some found
    rw [alone other isOther (of_decide_eq_true same)]

theorem identifies_of_path_inj
    (distinct : ∀ inner ∈ document.nodes, ∀ other ∈ document.nodes,
      inner.path = other.path → inner = other) : document.Identifies :=
  fun node isNode => byPath?_of_alone isNode fun other isOther => distinct other isOther node isNode

/-- Paths tell nodes apart if no two nodes have one. -/
theorem identifies_iff_nodup (ordered : document.Ordered) :
    document.Identifies ↔ (document.nodes.map (·.path)).Nodup := by
  have distinct : document.nodes.Nodup := List.Nodup.of_map _ (Node.Ordered.nodup ordered)
  rw [List.nodup_map_iff_inj_on distinct]
  exact ⟨fun identifies _ isInner _ isOther => identifies.eq_of_path_eq isInner isOther,
    identifies_of_path_inj⟩

/-- Paths tell nodes apart if no siblings are alike and, where the name of one runs on from the step
to another, the ways below them stay apart. -/
theorem identifies_iff_siblings (h : parse text = .ok document) :
    document.Identifies ↔ ∀ parent ∈ document.nodes, ∀ first ∈ parent.children,
      ∀ second ∈ parent.children, ¬ Alike text parent first second ∧
        (RunsOn text parent first second → ∀ inner ∈ first.preorder, ∀ other ∈ second.preorder,
          inner.path ≠ other.path) := by
  constructor
  · intro identifies parent isParent first isFirst second isSecond
    constructor
    · intro alike
      have isNode {child : Node} (isChild : child ∈ parent.children) : child ∈ document.nodes :=
        Node.mem_preorder_of_child isParent isChild (mem_preorder_self child)
      have same := identifies.eq_of_path_eq (isNode isFirst) (isNode isSecond)
        (alike.path_eq h isParent isFirst isSecond)
      exact alike.1 (congrArg Node.name same)
    · intro runsOn inner inFirst other inSecond same
      have one := identifies.eq_of_path_eq (Node.mem_preorder_of_child isParent isFirst inFirst)
        (Node.mem_preorder_of_child isParent isSecond inSecond) same
      have ordered := (Node.Ordered.of_mem (ordered_of_parse h) isParent).children
      have siblings := ordered.eq_of_mem_ids (Node.mem_ids.mpr ⟨inner, inFirst, rfl⟩)
        (Node.mem_ids.mpr ⟨other, inSecond, congrArg Node.id one.symm⟩) isFirst isSecond
      rw [siblings] at runsOn
      exact not_runsOn_self _ _ _ runsOn
  · intro apart
    refine identifies_of_path_inj fun inner isInner other isOther same => ?_
    rcases siblings_of_path_eq h isInner isOther same with one |
      ⟨parent, isParent, first, isFirst, second, isSecond, different, inFirst, inSecond⟩
    · exact one
    obtain ⟨notAlike, ways⟩ := apart parent isParent first isFirst second isSecond
    rcases alike_or_runsOn_of_path_eq h isParent isFirst isSecond different inFirst inSecond same
      with alike | runsOn | runsOn
    · exact absurd alike notAlike
    · exact absurd same (ways runsOn inner inFirst other inSecond)
    · obtain ⟨-, ways⟩ := apart parent isParent second isSecond first isFirst
      exact absurd same.symm (ways runsOn other inSecond inner inFirst)

/-- *When paths tell nodes apart.* Every node of a document is found by its path exactly if no two
nodes have the same path. This fails exactly if somewhere two siblings are alike, written with one
name that a declaration gives two meanings and each at the same position among its own, or if the
name of one is written as the way through another. Where no name has a slash, only siblings that are
alike matter. -/
theorem identifies_iff (h : parse text = .ok document) :
    (document.Identifies ↔ (document.nodes.map (·.path)).Nodup) ∧
    (document.Identifies ↔ ∀ parent ∈ document.nodes, ∀ first ∈ parent.children,
      ∀ second ∈ parent.children, ¬ Alike text parent first second ∧
        (RunsOn text parent first second → ∀ inner ∈ first.preorder, ∀ other ∈ second.preorder,
          inner.path ≠ other.path)) ∧
    ((∀ raw ∈ startTags text, '/' ∉ Tag.name raw) →
      (document.Identifies ↔ ∀ parent ∈ document.nodes, ∀ first ∈ parent.children,
        ∀ second ∈ parent.children, ¬ Alike text parent first second)) := by
  refine ⟨identifies_iff_nodup (ordered_of_parse h), identifies_iff_siblings h, fun noSlash => ?_⟩
  have plain (node : Node) : '/' ∉ written text node := not_mem_written noSlash node
  rw [identifies_iff_siblings h]
  refine forall₂_congr fun parent _ => forall₂_congr fun first _ => forall₂_congr fun second _ => ?_
  rw [and_iff_left_iff_imp]
  exact fun _ runsOn => absurd runsOn (not_runsOn (plain second))

/-- A text with one name spelled in two ways and two names spelled in one. -/
def orderlyText : String :=
  "<r xmlns:a=\"urn:u\" xmlns:b=\"urn:u\"><a:x/><b:x/><x/><x xmlns=\"urn:u\"/></r>"

/-- The document of that text. -/
def orderly : Document where
  root := ⟨0, "/r", .plain "r", [], "",
    [⟨1, "/r/a:x[1]", ⟨some "urn:u", "x"⟩, [], "", [], ""⟩,
      ⟨2, "/r/b:x[2]", ⟨some "urn:u", "x"⟩, [], "", [], ""⟩,
      ⟨3, "/r/x[1]", .plain "x", [], "", [], ""⟩,
      ⟨4, "/r/x[3]", ⟨some "urn:u", "x"⟩, [], "", [], ""⟩], ""⟩
  namespaces := [(some "a", "urn:u"), (some "b", "urn:u"), (none, "urn:u")]

/-- The two elements written `x` have different positions, as one of them comes after two others of
its name. -/
theorem orderly_identifies : parse orderlyText = .ok orderly ∧ orderly.Identifies := by
  have parsed : parse orderlyText = .ok orderly := by cbv
  have tags : startTags orderlyText = ["r xmlns:a=\"urn:u\" xmlns:b=\"urn:u\"".toList,
      "a:x".toList, "b:x".toList, "x".toList, "x xmlns=\"urn:u\"".toList] := by
    cbv
  refine ⟨parsed, ((identifies_iff parsed).2.2 ?_).mpr ?_⟩
  · rw [tags]
    decide
  · simp only [Alike, written, tags]
    decide

/-- A text with two names spelled in one way, each at its first position. -/
def lookalikesText : String := "<r><a xmlns=\"urn:u\"/><a/></r>"

/-- The document of that text. -/
def lookalikes : Document where
  root := ⟨0, "/r", .plain "r", [], "",
    [⟨1, "/r/a[1]", ⟨some "urn:u", "a"⟩, [], "", [], ""⟩,
      ⟨2, "/r/a[1]", .plain "a", [], "", [], ""⟩], ""⟩
  namespaces := [(none, "urn:u")]

/-- The path of the first child leads to the second one. -/
theorem lookalikes_confused : parse lookalikesText = .ok lookalikes ∧
    (lookalikes.node? 1).map (·.path) = some "/r/a[1]" ∧
    (lookalikes.byPath? "/r/a[1]").map (·.id) = some 2 := by
  refine ⟨by cbv, ?_, ?_⟩ <;> decide

end Document

end Intertext.Markup
