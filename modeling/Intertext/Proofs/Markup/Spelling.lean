import Intertext.Proofs.Markup.Admitted
/-!
Start tags and what they become.

Every start tag of a text opens one element, and elements have the numbers of their tags. The name
and the attributes of a node are read from the tag with its number, and the step that leads to it is
spelled with the name as written there, while the position in it counts the siblings of the same
name as read. At every moment of reading this holds of all that is closed and of all that is open
(`Reading.Spelled`), and so it holds of the document in the end (`Document.spelled_of_parse`).
-/

namespace Intertext.Markup

open Node (forestPreorder preorder_eq mem_forestPreorder mem_preorder_self)
open Outcome (bind_eq_ok)

/-! ## 1. Start tags -/

/-- What a token that opens an element holds. -/
def Token.opens? : Token → Option (List Char)
  | start raw => some raw
  | empty raw => some raw
  | _ => none

/-- The start tags of a text, in order. -/
def Document.startTags (text : String) : List (List Char) :=
  (Token.scan (withoutMark text.toList)).1.filterMap Token.opens?

/-- Whether a start tag can be read as a name and attributes, by the declarations that hold at some
place. -/
def ReadsAs (raw : List Char) (name : Name) (attributes : Attributes) : Prop :=
  ∃ scope namespaces recorded, Scope.elementName scope (Tag.name raw) = .ok name ∧
    readAttributes scope namespaces (Tag.attributes true [] (Tag.afterName raw)).1 =
      .ok (attributes, recorded)

/-- The step of a path to a child: its name as written, and its position. -/
def pathStep (written : List Char) (position : Nat) : List Char :=
  '/' :: written ++ '[' :: (toString position).toList ++ [']']

variable {tags : List (List Char)}

/-- Whether the path of an element goes on from a path by the step of a child with that number and
name, if the children before it, last one first, are the given ones. -/
def StepsFrom (tags : List (List Char)) (outer : String) (earlier : List Node) (id : Nat)
    (path : String) (name : Name) : Prop :=
  ∃ raw, tags[id]? = some raw ∧ path.toList =
    outer.toList ++ pathStep (Tag.name raw) (1 + earlier.countP (·.name = name))

/-- Whether the paths of children, last one first, go on from a path by their steps. -/
def ChildrenSpelled (tags : List (List Char)) (outer : String) : List Node → Prop
  | [] => True
  | child :: earlier => StepsFrom tags outer earlier child.id child.path child.name ∧
      ChildrenSpelled tags outer earlier

/-- Whether every node of a tree is read from the tag with its number, and the paths of its children
go on from its own. -/
def Node.Spelled (tags : List (List Char)) (node : Node) : Prop :=
  ∀ inner ∈ node.preorder,
    (∃ raw, tags[inner.id]? = some raw ∧ ReadsAs raw inner.name inner.attributes) ∧
      ChildrenSpelled tags inner.path inner.children.reverse

theorem ChildrenSpelled.steps_of_append {outer : String} {child : Node} {earlier : List Node} :
    ∀ {later : List Node}, ChildrenSpelled tags outer (later ++ child :: earlier) →
      StepsFrom tags outer earlier child.id child.path child.name
  | [], spelled => spelled.1
  | _ :: _, spelled => steps_of_append spelled.2

/-- The path of a child goes on from that of its parent. -/
theorem Node.Spelled.steps {root parent child : Node} (spelled : root.Spelled tags)
    (isParent : parent ∈ root.preorder) {before after : List Node}
    (children : parent.children = before ++ child :: after) :
    ∃ raw, tags[child.id]? = some raw ∧ child.path.toList =
      parent.path.toList ++ pathStep (Tag.name raw) (1 + before.countP (·.name = child.name)) := by
  have below := (spelled parent isParent).2
  have backwards : parent.children.reverse = after.reverse ++ child :: before.reverse := by
    rw [children]
    simp
  rw [backwards] at below
  obtain ⟨raw, tag, path⟩ := below.steps_of_append
  rw [List.countP_reverse] at path
  exact ⟨raw, tag, path⟩

/-! ## 2. Open elements -/

/-- Whether an open element is read from the tag with its number, and what has been finished in it
is spelled. -/
structure OpenElement.Spelled (tags : List (List Char)) (element : OpenElement) : Prop where
  tag : ∃ raw, tags[element.id]? = some raw ∧ ReadsAs raw element.name element.attributes
  children : ChildrenSpelled tags element.path element.children
  below : ∀ child ∈ element.children, child.Spelled tags

namespace OpenElement

variable {element : OpenElement}

theorem Spelled.pushText (spelled : element.Spelled tags) (text : String) :
    (element.pushText text).Spelled tags := by
  obtain ⟨id, path, name, written, attributes, own, children, scope⟩ := element
  cases children with
  | nil => exact ⟨spelled.tag, trivial, fun child none => by cases none⟩
  | cons last earlier =>
    refine ⟨spelled.tag, spelled.children, List.forall_mem_cons.mpr ⟨?_, ?_⟩⟩
    · have isLast := spelled.below last List.mem_cons_self
      intro inner member
      rw [preorder_eq] at member
      rcases List.mem_cons.mp member with rfl | member
      · exact isLast last (mem_preorder_self last)
      · refine isLast inner ?_
        rw [preorder_eq]
        exact List.mem_cons_of_mem _ member
    · exact fun child member => spelled.below child (List.mem_cons_of_mem _ member)

theorem Spelled.close (spelled : element.Spelled tags) : element.close.Spelled tags := by
  intro inner member
  rw [preorder_eq] at member
  rcases List.mem_cons.mp member with rfl | member
  · refine ⟨spelled.tag, ?_⟩
    show ChildrenSpelled tags element.path element.children.reverse.reverse
    rw [List.reverse_reverse]
    exact spelled.children
  · obtain ⟨child, isChild, below⟩ := mem_forestPreorder.mp member
    exact spelled.below child (List.mem_reverse.mp isChild) inner below

theorem Spelled.push (spelled : element.Spelled tags) {child : Node} (inside : child.Spelled tags)
    (steps : StepsFrom tags element.path element.children child.id child.path child.name) :
    (element.push child).Spelled tags where
  tag := spelled.tag
  children := ⟨steps, spelled.children⟩
  below := List.forall_mem_cons.mpr ⟨inside, spelled.below⟩

/-- Character data changes neither the tag of an element nor its path. -/
theorem tag_pushText (element : OpenElement) (text : String) :
    (element.pushText text).id = element.id ∧ (element.pushText text).path = element.path ∧
      (element.pushText text).name = element.name := by
  unfold OpenElement.pushText
  split <;> exact ⟨rfl, rfl, rfl⟩

end OpenElement

/-- Whether the paths of open elements, innermost first, go on one from the other. -/
def StackSpelled (tags : List (List Char)) : List OpenElement → Prop
  | [] => True
  | [outermost] => ∃ raw, tags[outermost.id]? = some raw ∧
      outermost.path.toList = '/' :: Tag.name raw
  | inner :: parent :: outer =>
      StepsFrom tags parent.path parent.children inner.id inner.path inner.name ∧
        StackSpelled tags (parent :: outer)

/-- Only the number, the path and the name of the innermost element matter. -/
theorem StackSpelled.congr {inner other : OpenElement} {outer : List OpenElement}
    (spelled : StackSpelled tags (inner :: outer)) (id : other.id = inner.id)
    (path : other.path = inner.path) (name : other.name = inner.name) :
    StackSpelled tags (other :: outer) := by
  cases outer with
  | nil =>
    rw [StackSpelled, id, path]
    exact spelled
  | cons parent outer =>
    rw [StackSpelled, id, path, name]
    exact spelled

theorem StackSpelled.tail {inner : OpenElement} {outer : List OpenElement}
    (spelled : StackSpelled tags (inner :: outer)) : StackSpelled tags outer := by
  cases outer with
  | nil => trivial
  | cons parent outer => exact spelled.2

/-! ## 3. The state of reading -/

namespace Reading

/-- Whether all that has been read is spelled as the start tags of a text say. -/
structure Spelled (tags : List (List Char)) (state : Reading) : Prop extends Numbered state where
  root : ∀ root ∈ state.root, root.Spelled tags ∧
    ∃ raw, tags[root.id]? = some raw ∧ root.path.toList = '/' :: Tag.name raw
  elements : ∀ element ∈ state.stack, element.Spelled tags
  stack : StackSpelled tags state.stack

theorem spelled_start : start.Spelled tags where
  toNumbered := numbered_start
  root _ none := by cases none
  elements _ none := by cases none
  stack := trivial

theorem count_addText (state : Reading) (text : String) :
    (state.addText text).count = state.count := by
  unfold addText
  split <;> rfl

theorem count_leave (state : Reading) : state.leave.count = state.count := by
  unfold leave
  split <;> rfl

variable {state next : Reading}

theorem Spelled.addText (spelled : state.Spelled tags) (text : String) :
    (state.addText text).Spelled tags := by
  have numbered := spelled.toNumbered.addText text
  obtain ⟨stack, root, count, namespaces⟩ := state
  cases stack with
  | nil => exact spelled
  | cons innermost outer =>
    obtain ⟨isInner, areOuter⟩ := List.forall_mem_cons.mp spelled.elements
    obtain ⟨id, path, name⟩ := innermost.tag_pushText text
    exact ⟨numbered, spelled.root, List.forall_mem_cons.mpr ⟨isInner.pushText text, areOuter⟩,
      spelled.stack.congr id path name⟩

theorem Spelled.leave (spelled : state.Spelled tags) : state.leave.Spelled tags := by
  have numbered := spelled.toNumbered.leave
  obtain ⟨stack, root, count, namespaces⟩ := state
  match stack with
  | [] => exact spelled
  | [outermost] =>
    have closed := (spelled.elements outermost List.mem_cons_self).close
    refine ⟨numbered, ?_, (fun _ none => by cases none), trivial⟩
    intro root isRoot
    cases isRoot
    exact ⟨closed, spelled.stack⟩
  | innermost :: parent :: outer =>
    obtain ⟨isInner, areOuter⟩ := List.forall_mem_cons.mp spelled.elements
    obtain ⟨isParent, areOuter⟩ := List.forall_mem_cons.mp areOuter
    have pushed := isParent.push isInner.close spelled.stack.1
    exact ⟨numbered, spelled.root, List.forall_mem_cons.mpr ⟨pushed, areOuter⟩,
      spelled.stack.tail.congr rfl rfl rfl⟩

/-- The path of an element that opens goes on from that of the innermost one. -/
theorem stackSpelled_of_pathOf {raw : List Char} {element : OpenElement}
    (spelled : StackSpelled tags state.stack) (tag : tags[element.id]? = some raw)
    (placed : state.pathOf (Tag.name raw) element.name = .ok element.path) :
    StackSpelled tags (element :: state.stack) := by
  unfold pathOf at placed
  split at placed
  · rename_i parent outer _ isStack
    rw [isStack] at spelled ⊢
    refine ⟨⟨raw, tag, ?_⟩, spelled⟩
    rw [← Except.ok.inj placed]
    simp [OpenElement.childPath, pathStep]
  · rename_i isStack _
    rw [isStack]
    refine ⟨raw, tag, ?_⟩
    rw [← Except.ok.inj placed]
    simp
  · cases placed

theorem Spelled.enter {raw : List Char} (spelled : state.Spelled tags)
    (tag : tags[state.count]? = some raw) (h : state.enter raw = .ok next) :
    next.Spelled tags ∧ next.count = state.count + 1 := by
  have numbered := spelled.toNumbered.enter h
  obtain ⟨scope, name, path, attributes, namespaces, -, named, read, -, rfl⟩ := enter_parts h
  obtain ⟨scope', name', path', attributes', namespaces', -, placed, same⟩ := enter_eq_ok h
  cases same
  have opened : OpenElement.Spelled tags
      ⟨state.count, path, name, Tag.name raw, attributes, "", [], scope⟩ :=
    ⟨⟨raw, tag, scope, state.namespaces, namespaces, named, read⟩, trivial,
      fun _ none => by cases none⟩
  exact ⟨⟨numbered, spelled.root, List.forall_mem_cons.mpr ⟨opened, spelled.elements⟩,
    stackSpelled_of_pathOf spelled.stack tag placed⟩, rfl⟩

/-- A token that opens no element adds text, closes an element or does nothing. -/
theorem step_of_opens?_eq_none {token : Token} (closed : token.opens? = none)
    (h : state.step token = .ok next) :
    next = state ∨ (∃ text, next = state.addText text) ∨ next = state.leave := by
  cases token with
  | start raw => cases closed
  | empty raw => cases closed
  | text raw =>
    obtain ⟨text, -, h⟩ := bind_eq_ok.mp h
    cases h
    exact Or.inr (Or.inl ⟨_, rfl⟩)
  | cdata raw =>
    cases h
    exact Or.inr (Or.inl ⟨_, rfl⟩)
  | aside =>
    cases h
    exact Or.inl rfl
  | close raw =>
    obtain ⟨innermost, outer, -, rfl⟩ := closeTag_eq_ok h
    exact Or.inr (Or.inr rfl)

/-- A token that opens an element may close it at once. -/
theorem step_of_opens?_eq_some {token : Token} {raw : List Char} (opens : token.opens? = some raw)
    (h : state.step token = .ok next) :
    ∃ opened, state.enter raw = .ok opened ∧ (next = opened ∨ next = opened.leave) := by
  cases token with
  | start own =>
    cases opens
    exact ⟨next, h, Or.inl rfl⟩
  | empty own =>
    cases opens
    obtain ⟨opened, entered, h⟩ := bind_eq_ok.mp h
    cases h
    exact ⟨opened, entered, Or.inr rfl⟩
  | text _ | cdata _ | aside | close _ => cases opens

/-- Reading tokens whose start tags are the ones that are left leaves everything spelled, and every
start tag is used up. -/
theorem Spelled.foldlM : ∀ {tokens : List Token} {state last : Reading}, state.Spelled tags →
    tags.drop state.count = tokens.filterMap Token.opens? →
    tokens.foldlM Reading.step state = .ok last → last.Spelled tags ∧ tags.length ≤ last.count
  | [], state, last, spelled, left, h => by
    cases h
    exact ⟨spelled, List.drop_eq_nil_iff.mp left⟩
  | token :: rest, state, last, spelled, left, h => by
    obtain ⟨between, stepped, ran⟩ := bind_eq_ok.mp h
    cases opens : token.opens? with
    | none =>
      rw [List.filterMap_cons_none opens] at left
      rcases step_of_opens?_eq_none opens stepped with rfl | ⟨text, rfl⟩ | rfl
      · exact spelled.foldlM left ran
      · exact (spelled.addText text).foldlM (by rwa [count_addText]) ran
      · exact spelled.leave.foldlM (by rwa [count_leave]) ran
    | some raw =>
      rw [List.filterMap_cons_some opens] at left
      have tag : tags[state.count]? = some raw := by
        rw [← List.head?_drop, left, List.head?_cons]
      have after : tags.drop (state.count + 1) = rest.filterMap Token.opens? := by
        rw [← List.tail_drop, left, List.tail_cons]
      obtain ⟨opened, entered, rfl | rfl⟩ := step_of_opens?_eq_some opens stepped
      · obtain ⟨spelled, count⟩ := spelled.enter tag entered
        exact spelled.foldlM (by rwa [count]) ran
      · obtain ⟨spelled, count⟩ := spelled.enter tag entered
        exact spelled.leave.foldlM (by rwa [count_leave, count]) ran

end Reading

/-! ## 4. Documents -/

namespace Document

variable {text : String} {document : Document}

/-- A document is spelled as its start tags say, and has a node for each. -/
theorem spelled_of_parse (h : parse text = .ok document) :
    document.root.Spelled (startTags text) ∧ (startTags text).length = document.size ∧
      ∃ raw, (startTags text)[document.root.id]? = some raw ∧
        document.root.path.toList = '/' :: Tag.name raw := by
  have ids := ids_of_parse h
  obtain ⟨state, folded, h⟩ := bind_eq_ok.mp h
  split at h
  · cases h
  have start : Reading.start.Spelled (startTags text) := Reading.spelled_start
  obtain ⟨spelled, used⟩ := start.foldlM rfl folded
  obtain ⟨noStack, root, closed, rfl⟩ := Reading.finish_eq_ok.mp h
  obtain ⟨whole, path⟩ := spelled.root root closed
  refine ⟨whole, Nat.le_antisymm ?_ ?_, path⟩
  · have counted := spelled.ids
    rw [Reading.ids, noStack, closed] at counted
    have length := congrArg List.length counted
    simp only [Option.map_some, Option.getD_some, List.reverse_nil, List.flatMap_nil,
      List.append_nil, List.length_range] at length
    rw [← length, Node.ids, List.length_map] at used
    exact used
  · -- the last number is that of a tag
    by_contra more
    have isId : (startTags text).length ∈ root.ids := by
      rw [show root.ids = _ from ids, List.mem_range]
      exact Nat.lt_of_not_le more
    obtain ⟨inner, isInner, same⟩ := Node.mem_ids.mp isId
    obtain ⟨⟨raw, tag, -⟩, -⟩ := whole inner isInner
    rw [same] at tag
    simp at tag

end Document

end Intertext.Markup
