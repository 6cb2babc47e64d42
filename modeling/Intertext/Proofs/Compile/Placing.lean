import Intertext.Proofs.Compile.Gathered
import Intertext.Proofs.Compile.Onset
import Intertext.Proofs.Compile.Positions
import Intertext.Proofs.Compile.Shown
import Intertext.Proofs.Compile.Splices
import Intertext.Proofs.Compile.Untouched
/-!
Where extraction puts what it takes.

A walk copies a node, or takes its text, somewhere in what it shows. `CopiedAt` follows a walk that
extracts structure to the place of a copy, and `TextAt` one that extracts text to the element in
which a piece of text ends up; both keep the nodes that were copied, or whose text was taken, on the
way there. What stands at the place is the copy (`CopiedAt.shown`), or holds the text
(`TextAt.shown`), and the language that is declared nearest around it is the one that the nearest of
these nodes declares, or else the one around all that was extracted.
-/

namespace Intertext.Compile

open Markup (Document Element Name Node)
open Markup.Element (untailed)

variable {library : Library} {nested : Nested} {site : Site} {walk : Walk}

/-! ## 1. Structure

A walk that extracts structure shows a node or passes it, and in both cases what it shows of the
children stands in a row. A place is followed child by child: positions count the notes that were
put in before the children, and what earlier siblings show. -/

/-- Whether a walk shows the tag of a node, and how many notes come before what is in it. -/
inductive Keeps (library : Library) (nested : Nested) (site : Site) (walk : Walk)
    (progress : Progress) (node : Node) : Nat → Prop where
  | copied {applied : Annotation} (command : (walk.enter progress node).frame.command = .copy)
    (role : Role.of node ≠ .directive)
    (found : (annotate library nested site node).result = .ok applied)
    (kept : ∀ note, applied ≠ .replace note) :
    Keeps library nested site walk progress node applied.notes.length
  | tag (command : (walk.enter progress node).frame.command = .copyTag) :
    Keeps library nested site walk progress node 0

/-- Whether a walk that comes to some nodes copies one of them, or of those in them, to some
positions of what it shows. The node is the first in a chain of nodes that are copied around it,
nearest first. -/
inductive CopiedAt (library : Library) (nested : Nested) (site : Site) (walk : Walk) :
    Progress → List Node → List Nat → List Node → Prop where
  | here {progress : Progress} {first : Node} {rest : List Node} {count : Nat}
    (keeps : Keeps library nested site walk progress first count) :
    CopiedAt library nested site walk progress (first :: rest) [0] [first]
  | into {progress : Progress} {first : Node} {rest chain : List Node} {count : Nat}
    {positions : List Nat} (keeps : Keeps library nested site walk progress first count)
    (below : CopiedAt library nested site walk (walk.enter progress first) first.children positions
      chain) :
    CopiedAt library nested site walk progress (first :: rest) (0 :: shift count positions)
      (chain ++ [first])
  | through {progress : Progress} {first : Node} {rest chain : List Node} {positions : List Nat}
    (passed : (walk.enter progress first).frame.command = .pass)
    (below : CopiedAt library nested site walk (walk.enter progress first) first.children positions
      chain) :
    CopiedAt library nested site walk progress (first :: rest) positions chain
  | past {progress between : Progress} {first : Node} {rest chain : List Node}
    {elements : List Element} {positions : List Nat}
    (ran : (external library nested site walk progress first).result = .ok (elements, between))
    (later : CopiedAt library nested site walk between rest positions chain) :
    CopiedAt library nested site walk progress (first :: rest) (shift elements.length positions)
      chain

variable {progress after : Progress} {nodes chain : List Node} {positions : List Nat}

/-- A node whose tag is shown is copied, be it with its text or without. -/
theorem Keeps.command {node : Node} {count : Nat}
    (keeps : Keeps library nested site walk progress node count) :
    (walk.enter progress node).frame.command = .copy ∨
      (walk.enter progress node).frame.command = .copyTag := by
  cases keeps with
  | copied command _ _ _ => exact Or.inl command
  | tag command => exact Or.inr command

/-- An element that is copied and stays as it is has no notes before what is in it. -/
theorem Keeps.of_untouched {node : Node}
    (command : (walk.enter progress node).frame.command = .copy)
    (untouched : Untouched library nested site node) :
    Keeps library nested site walk progress node 0 := by
  rcases untouched.noNote with found | found
  · exact .copied command untouched.noDirective found (by simp)
  · exact .copied command untouched.noDirective found (by simp)

/-- A node whose tag is shown is one element, with the node's tag over the notes and what its
children show. -/
theorem Keeps.shown {node : Node} {count : Nat} {elements : List Element}
    (keeps : Keeps library nested site walk progress node count)
    (step : ExternalStep library nested site walk progress node elements after) :
    ∃ element notes pieces inside, elements = [element] ∧ notes.length = count ∧
      (externalForest library nested site walk (walk.enter progress node) node.children).result =
        .ok (pieces, inside) ∧
      element.name = node.name ∧ element.attributes = node.attributes ∧
      element.children.map untailed = (notes ++ pieces.flatMap (·.elements)).map untailed := by
  cases keeps with
  -- the command leaves three ways, and two of them replace the node
  | @copied applied command role found kept =>
    obtain ⟨isDirective, -⟩ | ⟨-, note, replaced, -⟩ |
      ⟨-, applied', pieces, inside, found', -, below, rfl, -⟩ := step.of_copy command
    · exact absurd isDirective role
    · cases found.symm.trans replaced
      exact absurd rfl (kept _)
    · cases found.symm.trans found'
      refine ⟨_, applied.notes, _, _, rfl, rfl, below, ?_, ?_, ?_⟩
      · rw [name_insertNotes, name_fill]
        rfl
      · rw [attributes_insertNotes, attributes_fill]
        rfl
      · rw [untailed_insertNotes, List.map_append, untailed_fill]
        exact List.map_append.symm
  | tag command =>
    obtain ⟨pieces, inside, below, rfl, -⟩ := step.of_copyTag command
    refine ⟨_, [], _, _, rfl, rfl, below, name_fill .., attributes_fill .., ?_⟩
    rw [untailed_fill]
    rfl

/-- Where a node is copied to, among what comes before and after in an element, stands its tag, and
the nearest language declared is that of the nearest node in the chain that declares one, or else
that of the element. -/
theorem CopiedAt.shown (place : CopiedAt library nested site walk progress nodes positions chain) :
    ∀ {pieces : List Piece} {after : Progress} {holder : Element} {before later : List Element},
      (externalForest library nested site walk progress nodes).result = .ok (pieces, after) →
      holder.children.map untailed =
        (before ++ pieces.flatMap (·.elements) ++ later).map untailed →
      ∃ copied outer inner, chain = copied :: outer ∧
        holder.at? (shift before.length positions) = some inner ∧
        inner.name = copied.name ∧ inner.attributes = copied.attributes ∧
        nearestLang? holder (shift before.length positions) =
          (chain.findSome? (·.ownLang?) <|> holder.ownLang?) := by
  induction place with
  -- By induction on the place. The position of the node is that of the first child that is not told
  -- of in `before`.
  | @here progress first rest count keeps =>
    intro pieces after holder before later ran same
    obtain ⟨elements, between, others, found, -, rfl⟩ := externalForest_cons ran
    obtain ⟨element, notes, inside, -, rfl, -, -, name, attributes, -⟩ :=
      keeps.shown (externalStep_of_ok found)
    obtain ⟨child, isChild, sameChild⟩ :=
      @exists_child_of_untailed holder element before (others.flatMap (·.elements) ++ later)
        (by simpa using same)
    have isName : child.name = element.name := congrArg (·.name) sameChild
    have isAttributes : child.attributes = element.attributes := congrArg (·.attributes) sameChild
    have declares : child.ownLang? = first.ownLang? :=
      ownLang?_of_node (isAttributes.trans attributes)
    refine ⟨first, [], child, rfl, ?_, isName.trans name, isAttributes.trans attributes, ?_⟩
    · rw [shift, Nat.add_zero]
      exact Option.bind_eq_some_iff.mpr ⟨child, isChild, rfl⟩
    · rw [shift, Nat.add_zero, nearestLang?_cons isChild, nearestLang?_nil, declares,
        List.findSome?_singleton]
  | @into progress first rest chain count positions keeps below ih =>
    intro pieces after holder before later ran same
    obtain ⟨elements, between, others, found, -, rfl⟩ := externalForest_cons ran
    obtain ⟨element, notes, inside, last, rfl, rfl, forest, -, attributes, children⟩ :=
      keeps.shown (externalStep_of_ok found)
    obtain ⟨child, isChild, sameChild⟩ :=
      @exists_child_of_untailed holder element before (others.flatMap (·.elements) ++ later)
        (by simpa using same)
    have isAttributes : child.attributes = element.attributes := congrArg (·.attributes) sameChild
    have isChildren : child.children = element.children := congrArg (·.children) sameChild
    have declares : child.ownLang? = first.ownLang? :=
      ownLang?_of_node (isAttributes.trans attributes)
    obtain ⟨copied, outer, inner, rfl, isThere, name, tag, nearest⟩ :=
      @ih _ _ child notes [] forest (by rw [isChildren, children, List.append_nil])
    refine ⟨copied, outer ++ [first], inner, rfl, ?_, name, tag, ?_⟩
    · rw [shift, Nat.add_zero]
      exact Option.bind_eq_some_iff.mpr ⟨child, isChild, isThere⟩
    · rw [shift, Nat.add_zero, nearestLang?_cons isChild, nearest, declares, findSome?_concat,
        orElse_assoc]
  | @through progress first rest chain positions passed below ih =>
    intro pieces after holder before later ran same
    obtain ⟨elements, between, others, found, -, rfl⟩ := externalForest_cons ran
    obtain ⟨inside, last, forest, rfl, -⟩ := (externalStep_of_ok found).of_pass passed
    refine @ih _ _ holder before (others.flatMap (·.elements) ++ later) forest ?_
    rw [same]
    simp [untailed_passOn]
  | @past progress between first rest chain elements positions ran later ih =>
    intro pieces after holder before later ran' same
    obtain ⟨elements', between', others, found, below, rfl⟩ := externalForest_cons ran'
    cases ran.symm.trans found
    rw [shift_shift, ← List.length_append]
    refine @ih _ _ holder (before ++ elements) later below ?_
    rw [same]
    simp

/-- A copy has at least itself in its chain. -/
theorem CopiedAt.exists_cons
    (place : CopiedAt library nested site walk progress nodes positions chain) :
    ∃ copied around, chain = copied :: around := by
  induction place with
  | here => exact ⟨_, _, rfl⟩
  | into _ _ ih =>
    obtain ⟨copied, around, rfl⟩ := ih
    exact ⟨_, _, List.cons_append⟩
  | through _ _ ih => exact ih
  | past _ _ ih => exact ih

/-! ## 2. What is no copy

Whatever stands in what a walk shows is a copy of a node at its place, or lies within something that
another frame gave: a wrapper, a note, or what replaces an instruction. So every element that is
shown is accounted for. -/

/-- What is inserted at a node: what replaces the node, or a note that applies to it. -/
inductive Inserted (library : Library) (nested : Nested) (site : Site) (node : Node) :
    Element → Prop where
  | instead {element : Element} (replaces : Replacement library nested site node element) :
    Inserted library nested site node element
  | note {applied : Annotation} {note : Element}
    (found : (annotate library nested site node).result = .ok applied)
    (member : note ∈ applied.notes) : Inserted library nested site node note

/-- Whether positions lead into something that was inserted, or to it. -/
def IntoInserted (library : Library) (nested : Nested) (site : Site) (tree : Element)
    (positions : List Nat) : Prop :=
  ∃ outer inner element node, outer <+: positions ∧ tree.at? outer = some inner ∧
    inner.untailed = element.untailed ∧ Inserted library nested site node element

namespace IntoInserted

variable {tree other child element : Element} {position : Nat} {node : Node}

/-- What is inserted lies within itself. -/
theorem here (same : tree.untailed = element.untailed)
    (inserted : Inserted library nested site node element) (positions : List Nat) :
    IntoInserted library nested site tree positions :=
  ⟨[], tree, element, node, List.nil_prefix, rfl, same, inserted⟩

/-- What lies within something inserted into a child lies within something inserted. -/
theorem cons (isChild : tree.children[position]? = some child)
    (into : IntoInserted library nested site child positions) :
    IntoInserted library nested site tree (position :: positions) := by
  obtain ⟨outer, inner, element, node, leads, isThere, same, inserted⟩ := into
  refine ⟨position :: outer, inner, element, node, ?_, ?_, same, inserted⟩
  · exact List.cons_prefix_cons.mpr ⟨rfl, leads⟩
  · exact Option.bind_eq_some_iff.mpr ⟨child, isChild, isThere⟩

/-- Where something lies does not depend on tails. -/
theorem of_untailed (same : tree.untailed = other.untailed)
    (into : IntoInserted library nested site other positions) :
    IntoInserted library nested site tree positions := by
  obtain ⟨outer, inner, element, node, leads, isThere, isElement, inserted⟩ := into
  obtain ⟨⟨found, isFound, sameFound⟩, -⟩ := at?_of_untailed same isThere
  exact ⟨outer, found, element, node, leads, isFound, sameFound.trans isElement, inserted⟩

end IntoInserted

/-- In an element that a node shows the tag of stand notes and what is shown in the node. -/
theorem Keeps.copiedAt_or {node : Node} {count : Nat}
    (keeps : Keeps library nested site walk progress node count) {tree inner : Element}
    {notes elements : List Element} {more : List Nat} (rest : List Node)
    (counts : notes.length = count)
    (areNotes : ∀ note ∈ notes, Inserted library nested site node note)
    (children : tree.children.map untailed = (notes ++ elements).map untailed)
    (below : ∀ {element inner : Element} {position : Nat} {more : List Nat},
      elements[position]? = some element → element.at? more = some inner →
        (∃ chain, CopiedAt library nested site walk (walk.enter progress node) node.children
          (position :: more) chain) ∨ IntoInserted library nested site element more)
    (isThere : tree.at? more = some inner) :
    (∃ chain, CopiedAt library nested site walk progress (node :: rest) (0 :: more) chain) ∨
      IntoInserted library nested site tree more := by
  cases more with
  | nil => exact Or.inl ⟨[node], .here keeps⟩
  | cons position more =>
    obtain ⟨child, isChild, isBelow⟩ := Option.bind_eq_some_iff.mp isThere
    obtain ⟨shown, isShown, same⟩ := exists_of_untailed children isChild
    by_cases isNote : position < notes.length
    · rw [List.getElem?_append_left isNote] at isShown
      exact Or.inr ((IntoInserted.here same (areNotes shown (List.mem_of_getElem? isShown))
        more).cons isChild)
    · obtain ⟨past, rfl⟩ := Nat.exists_eq_add_of_le (Nat.not_lt.mp isNote)
      rw [List.getElem?_append_right (Nat.le_add_right _ _), Nat.add_sub_cancel_left] at isShown
      obtain ⟨⟨found, isFound, -⟩, -⟩ := at?_of_untailed same.symm isBelow
      rcases below isShown isFound with ⟨chain, place⟩ | into
      · rw [counts]
        exact Or.inl ⟨chain ++ [node], .into keeps place⟩
      · exact Or.inr ((into.of_untailed same).cons isChild)

section

variable (external : walk.extraction = .external)

include external

/-- A walk that extracts structure takes no text alone. -/
theorem command_ne_copyText {node : Node} :
    (walk.enter progress node).frame.command ≠ .copyText := by
  rw [Walk.command_enter, Walk.inRangeCommand, external]
  split_ifs <;> decide

-- in a mutual recursion the linter misses what only the other theorem uses
set_option linter.unusedSectionVars false

mutual

/-- What a node shows is a copy, or is or stands in what was inserted. -/
theorem copiedAt_or_of_external : ∀ {node : Node} {progress after : Progress}
    {elements : List Element} {element inner : Element} {position : Nat} {more : List Nat}
    {rest : List Node},
    (Compile.external library nested site walk progress node).result = .ok (elements, after) →
      elements[position]? = some element → element.at? more = some inner →
      (∃ chain, CopiedAt library nested site walk progress (node :: rest) (position :: more)
        chain) ∨ IntoInserted library nested site element more
  | ⟨id, path, name, attributes, text, children, tail⟩, progress, after, elements, element, inner,
      position, more, rest, ran, found, isThere => by
    have only {shown : Element} (isShown : [shown][position]? = some element) :
        position = 0 ∧ shown = element := by
      simpa using List.getElem?_eq_some_iff.mp isShown
    cases externalStep_of_ok ran with
    | skipped => cases found
    | directive command role replaced =>
      obtain ⟨rfl, rfl⟩ := only found
      exact Or.inr (.here rfl (.instead (.directive role replaced)) more)
    | replaced command role replaced =>
      obtain ⟨rfl, rfl⟩ := only found
      exact Or.inr (.here rfl (.instead (.instruction replaced)) more)
    | @copied applied pieces inside command role annotated kept below =>
      obtain ⟨rfl, rfl⟩ := only found
      refine (Keeps.copied command role annotated kept).copiedAt_or rest rfl
        (fun note isNote => .note annotated isNote) ?_
        (copiedAt_or_of_externalForest below) isThere
      rw [untailed_insertNotes, List.map_append, untailed_fill]
      exact List.map_append.symm
    | @tag pieces inside command below =>
      obtain ⟨rfl, rfl⟩ := only found
      refine (Keeps.tag command).copiedAt_or rest List.length_nil (List.forall_mem_nil _) ?_
        (copiedAt_or_of_externalForest below) isThere
      rw [untailed_fill]
      rfl
    | @passed pieces inside command below =>
      have passed := command.resolve_right (command_ne_copyText external)
      obtain ⟨shown, isShown, same⟩ := exists_of_untailed (untailed_passOn pieces) found
      obtain ⟨⟨other, isOther, -⟩, -⟩ := at?_of_untailed same.symm isThere
      rcases copiedAt_or_of_externalForest below isShown isOther with ⟨chain, place⟩ | into
      · exact Or.inl ⟨chain, .through passed place⟩
      · exact Or.inr (into.of_untailed same)

/-- Whatever a walk shows of nodes is a copy of one of them or lies within something inserted. -/
theorem copiedAt_or_of_externalForest : ∀ {nodes : List Node}
    {progress after : Progress} {pieces : List Piece} {element inner : Element} {position : Nat}
    {more : List Nat},
    (externalForest library nested site walk progress nodes).result = .ok (pieces, after) →
      (pieces.flatMap (·.elements))[position]? = some element → element.at? more = some inner →
      (∃ chain, CopiedAt library nested site walk progress nodes (position :: more) chain) ∨
        IntoInserted library nested site element more
  | [], progress, after, pieces, element, inner, position, more, ran, found, isThere => by
    obtain ⟨rfl, -⟩ := externalForest_nil ran
    cases found
  | first :: rest, progress, after, pieces, element, inner, position, more, ran, found,
      isThere => by
    obtain ⟨elements, between, others, isFirst, forest, rfl⟩ := externalForest_cons ran
    rw [List.flatMap_cons] at found
    by_cases isHere : position < elements.length
    · rw [List.getElem?_append_left isHere] at found
      exact copiedAt_or_of_external isFirst found isThere
    · obtain ⟨past, rfl⟩ := Nat.exists_eq_add_of_le (Nat.not_lt.mp isHere)
      rw [List.getElem?_append_right (Nat.le_add_right _ _), Nat.add_sub_cancel_left] at found
      refine (copiedAt_or_of_externalForest forest found isThere).imp_left ?_
      rintro ⟨chain, place⟩
      exact ⟨chain, .past isFirst place⟩

end

end

/-! ## 3. Text

Text ends up in an element that is made for it, a container where the language changes and the
container of the whole extraction otherwise. Positions lead to the element, and the text is part of
what the element holds. -/

/-- Whether a walk takes the text of a node. -/
structure Takes (walk : Walk) (progress : Progress) (node : Node) : Prop where
  command : (walk.enter progress node).frame.command = .copyText
  noDirective : Role.of node ≠ .directive
  noInstruction : Role.of node ≠ .instruction

/-- Positions in what is shown in a container, if there is one. -/
def nest : Option String → List Nat → List Nat
  | none, positions => positions
  | some _, positions => 0 :: positions

/-- Whether a walk that comes to some children of a node takes a piece of text, and the positions of
the element that it ends up in. The text is that of a node, or the tail of one of its children, and
the node is the first in a chain of nodes whose text is taken around it, nearest first; where the
walk only leads through the node, the chain is empty. -/
inductive TextAt (library : Library) (nested : Nested) (site : Site) (walk : Walk) :
    Option String → Progress → Node → List Node → List Nat → Node → List Node → String → Prop where
  | tail {lang : Option String} {progress between : Progress} {parent first : Node}
    {rest : List Node} {items : List Item}
    (ran : (inline library nested site walk lang progress first).result = .ok (items, between))
    (shown : .text first.tail ∈ tailItems between first) :
    TextAt library nested site walk lang progress parent (first :: rest) [] parent [] first.tail
  | own {lang : Option String} {progress : Progress} {parent first : Node} {rest : List Node}
    (takes : Takes walk progress first) :
    TextAt library nested site walk lang progress parent (first :: rest)
      (nest (changedLang? first lang) []) first [first] first.text
  | into {lang : Option String} {progress : Progress} {parent first origin : Node}
    {rest chain : List Node} {positions : List Nat} {text : String} {applied : Annotation}
    (takes : Takes walk progress first)
    (found : (annotate library nested site first).result = .ok applied)
    (below : TextAt library nested site walk (changedLang? first lang <|> lang)
      (walk.enter progress first) first first.children positions origin chain text) :
    TextAt library nested site walk lang progress parent (first :: rest)
      (nest (changedLang? first lang) (shift applied.notes.length positions)) origin
      (chain ++ [first]) text
  | through {lang : Option String} {progress : Progress} {parent first origin : Node}
    {rest chain : List Node} {positions : List Nat} {text : String}
    (passed : (walk.enter progress first).frame.command = .pass)
    (below : TextAt library nested site walk lang (walk.enter progress first) first first.children
      positions origin chain text) :
    TextAt library nested site walk lang progress parent (first :: rest) positions origin chain text
  | past {lang : Option String} {progress between : Progress} {parent first origin : Node}
    {rest chain : List Node} {positions : List Nat} {text : String} {items : List Item}
    (ran : (inline library nested site walk lang progress first).result = .ok (items, between))
    (later : TextAt library nested site walk lang between parent rest positions origin chain text) :
    TextAt library nested site walk lang progress parent (first :: rest)
      (shift (elementsOf items).length positions) origin chain text

/-- Whether items that are appended to an element, with others before and after them, put a piece of
text into the element at some positions, and what they declare there over the language that is
spoken in the element. They are made for the language `lang`. -/
def Lodges (lang : Option String) (items : List Item) (positions : List Nat) (text : String)
    (declared : Option String) : Prop :=
  ∀ (holder : Element) (before later : List Item) (spoken : Option String),
    Speaks (holder.ownLang? <|> spoken) lang → ∃ inner,
      (append holder (before ++ items ++ later)).at?
        (shift (holder.children.length + (elementsOf before).length) positions) = some inner ∧
      inner.Holds text ∧ (positions ≠ [] → inner.name = .processing "transcludeInline") ∧
      (nearestLang? (append holder (before ++ items ++ later))
        (shift (holder.children.length + (elementsOf before).length) positions) <|> spoken) =
          (declared <|> holder.ownLang? <|> spoken)

variable {lang declared : Option String} {items : List Item} {text : String} {node : Node}

/-- A text among the items is held by the element that the items go into. -/
theorem lodges_text (member : .text text ∈ items) : Lodges lang items [] text none := by
  intro holder before later spoken speaks
  refine ⟨_, rfl, holds_append (by simp [member]), fun nonempty => absurd rfl nonempty, ?_⟩
  rw [shift, nearestLang?_nil, ownLang?_congr (attributes_append ..)]
  rfl

/-- Items before move a place by the elements that are among them. -/
theorem Lodges.append_left (lodges : Lodges lang items positions text declared)
    (more : List Item) :
    Lodges lang (more ++ items) (shift (elementsOf more).length positions) text declared := by
  intro holder before later spoken speaks
  have inside := lodges holder (before ++ more) later spoken speaks
  have nonempty : shift (elementsOf more).length positions ≠ [] ↔ positions ≠ [] := by
    cases positions <;> simp [shift]
  rw [shift_shift, nonempty]
  rw [elementsOf_append, List.length_append, ← Nat.add_assoc] at inside
  simpa only [List.append_assoc] using inside

/-- Items after leave a place where it is. -/
theorem Lodges.append_right (lodges : Lodges lang items positions text declared)
    (more : List Item) : Lodges lang (items ++ more) positions text declared := by
  intro holder before later spoken speaks
  have inside := lodges holder before (more ++ later) spoken speaks
  simpa only [List.append_assoc] using inside

/-- Items in a container of the language that a node changes to, or in none if it changes to none,
read as in the node. -/
theorem Lodges.inLang (node : Node)
    (lodges : Lodges (changedLang? node lang <|> lang) items positions text declared) :
    Lodges lang (inLang (changedLang? node lang) items) (nest (changedLang? node lang) positions)
      text (declared <|> node.ownLang?) := by
  intro holder before later spoken speaks
  cases changed : changedLang? node lang with
  | none =>
    have own := changedLang?_or node speaks
    rw [changed] at lodges own
    obtain ⟨inner, isThere, holds, name, nearest⟩ := lodges holder before later spoken speaks
    refine ⟨inner, isThere, holds, name, nearest.trans ?_⟩
    rw [orElse_assoc]
    exact congrArg (declared <|> ·) own
  | some other =>
    rw [changed] at lodges
    have isOwn : node.ownLang? = some other := (Option.filter_eq_some_iff.mp changed).1
    have declares : (append (container (some other)) items).ownLang? = some other :=
      (ownLang?_congr (attributes_append ..)).trans (ownLang?_container _)
    obtain ⟨inner, isThere, holds, name, nearest⟩ :=
      lodges (container (some other)) [] [] none (by rw [ownLang?_container]; exact .refl _)
    rw [children_container, List.append_nil, List.nil_append] at isThere nearest
    simp only [elementsOf, List.filterMap_nil, List.length_nil, Nat.add_zero, shift_zero]
      at isThere nearest
    obtain ⟨child, isChild, sameChild⟩ := @exists_child_of_untailed
      (append holder (before ++ [.element (append (container (some other)) items)] ++ later))
      (append (container (some other)) items) (holder.children ++ elementsOf before)
      (elementsOf later) (by
        rw [untailed_append]
        simp [elementsOf])
    obtain ⟨⟨found, isFound, sameFound⟩, sameNearest⟩ := at?_of_untailed sameChild isThere
    rw [List.length_append] at isChild
    have whole : (append holder (before ++ [.element (append (container (some other)) items)] ++
        later)).ownLang? = holder.ownLang? := ownLang?_congr (attributes_append ..)
    refine ⟨found, ?_, holds.of_untailed sameFound, fun _ => ?_, ?_⟩
    · exact Option.bind_eq_some_iff.mpr ⟨child, isChild, isFound⟩
    · rw [show found.name = inner.name from congrArg (·.name) sameFound]
      cases positions with
      | nil =>
        cases isThere
        rw [name_append]
        rfl
      | cons position rest => exact name (List.cons_ne_nil _ _)
    · have inside : nearestLang? (append (container (some other)) items) positions =
          (declared <|> node.ownLang?) := by
        rw [ownLang?_container] at nearest
        rw [isOwn]
        simpa using nearest
      rw [nest, shift, Nat.add_zero, Compile.inLang, nearestLang?_cons isChild, sameNearest, inside,
        whole, orElse_assoc]

/-- A node whose text is taken shows notes, its text and what its children show, in a container if
it changes the language. -/
theorem Takes.shown (takes : Takes walk progress node)
    (step : InlineStep library nested site walk lang progress node items after) :
    ∃ applied others inside, (annotate library nested site node).result = .ok applied ∧
      (inlineForest library nested site walk (changedLang? node lang <|> lang)
        (walk.enter progress node) node.children).result = .ok (others, inside) ∧
      items = inLang (changedLang? node lang)
        (applied.notes.map .element ++ .text node.text :: others) := by
  obtain ⟨role, -⟩ | ⟨role, -⟩ | ⟨-, applied, others, inside, found, below, same, -⟩ :=
    step.of_copyText takes.command
  · exact absurd role takes.noDirective
  · exact absurd role takes.noInstruction
  · exact ⟨applied, others, inside, found, below, same⟩

/-- A piece of text ends up where it is put, and the nearest language declared there is that of the
nearest node in the chain that declares one, or else that of the element it all is put into. -/
theorem TextAt.shown {origin parent : Node}
    (place : TextAt library nested site walk lang progress parent nodes positions origin chain
      text) :
    ∀ {items : List Item} {after : Progress},
      (inlineForest library nested site walk lang progress nodes).result = .ok (items, after) →
      Lodges lang items positions text (chain.findSome? (·.ownLang?)) := by
  induction place with
  | tail ran shown =>
    intro items after ran'
    obtain ⟨shownFirst, between, others, found, -, rfl⟩ := inlineForest_cons ran'
    cases ran.symm.trans found
    exact lodges_text (List.mem_append_left _ (List.mem_append_right _ shown))
  | @own lang progress parent first rest takes =>
    intro items after ran
    obtain ⟨shown, between, others, found, -, rfl⟩ := inlineForest_cons ran
    obtain ⟨applied, inner, inside, -, -, rfl⟩ := takes.shown (inlineStep_of_ok found)
    have own : .text first.text ∈ applied.notes.map Item.element ++ .text first.text :: inner :=
      List.mem_append_right _ List.mem_cons_self
    rw [List.append_assoc, List.findSome?_singleton]
    exact ((lodges_text own).inLang first).append_right _
  | @into lang progress parent first origin rest chain positions text applied takes found below
      ih =>
    intro items after ran
    obtain ⟨shown, between, others, isFirst, -, rfl⟩ := inlineForest_cons ran
    obtain ⟨applied', inner, inside, found', forest, rfl⟩ := takes.shown (inlineStep_of_ok isFirst)
    cases found.symm.trans found'
    rw [List.append_assoc, findSome?_concat]
    refine Lodges.append_right ?_ _
    have content := (ih forest).append_left (applied.notes.map .element ++ [.text first.text])
    rw [List.append_assoc, elementsOf_append, elementsOf_elements] at content
    have inContainer := content.inLang first
    simpa [elementsOf] using inContainer
  | @through lang progress parent first origin rest chain positions text passed below ih =>
    intro items after ran
    obtain ⟨shown, between, others, isFirst, -, rfl⟩ := inlineForest_cons ran
    obtain ⟨inside, forest, -⟩ := (inlineStep_of_ok isFirst).of_pass passed
    rw [List.append_assoc]
    exact (ih forest).append_right _
  | @past lang progress between parent first origin rest chain positions text shown ran later ih =>
    intro items after ran'
    obtain ⟨shown', between', others, isFirst, below, rfl⟩ := inlineForest_cons ran'
    cases ran.symm.trans isFirst
    have content := (ih below).append_left (shown ++ tailItems between first)
    rwa [elementsOf_append, elementsOf_tailItems, List.append_nil] at content

end Intertext.Compile
