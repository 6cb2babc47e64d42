import Intertext.Proofs.Compile.Language
import Intertext.Proofs.Compile.Provenance
/-!
Positions in what was put together.

Filling, passing on, appending and inserting change the tails of single elements and leave all else
as it was, so the positions of what is put together can be counted on the parts: up to tails, the
children are those that were there, then those that were put in (`untailed_fill`, `untailed_append`,
`untailed_insertNotes`). What child positions lead to, and which language is declared nearest around
it, depends on no tail of the elements that they start from (`at?_of_untailed`).
-/

namespace Intertext.Markup.Element

/-- An element without what follows it. -/
def untailed (element : Element) : Element := { element with tail := "" }

/-- The characters in an element, outside of the elements in it: before the first of these and after
each. -/
def parts (element : Element) : List String := element.text :: element.children.map (·.tail)

/-- Whether characters stand in an element, outside of the elements in it. -/
def Holds (element : Element) (text : String) : Prop :=
  ∃ part ∈ element.parts, text.toList <:+: part.toList

theorem Holds.of_untailed {element other : Element} {text : String} (holds : other.Holds text)
    (same : element.untailed = other.untailed) : element.Holds text := by
  have own : element.text = other.text := congrArg (·.text) same
  have children : element.children = other.children := congrArg (·.children) same
  rwa [Holds, parts, own, children]

end Intertext.Markup.Element

namespace Intertext.Compile

open Markup (Element)
open Markup.Element (untailed)

/-! ## 1. Children up to their tails -/

theorem untailed_extendLast (elements : List Element) (text : String) :
    (extendLast elements text).map untailed = elements.map untailed := by
  rcases List.eq_nil_or_concat elements with rfl | ⟨before, last, rfl⟩
  · rfl
  · rw [List.concat_eq_append, extendLast_concat, List.map_append, List.map_append]
    rfl

theorem untailed_pushText (element : Element) (text : String) :
    (element.pushText text).children.map untailed = element.children.map untailed := by
  by_cases empty : element.children = []
  · rw [Element.pushText, empty]
    rfl
  · rw [pushText_of_ne_nil element text empty]
    exact untailed_extendLast _ _

theorem untailed_fill (element : Element) (pieces : List Piece) :
    (fill element pieces).children.map untailed =
      (element.children ++ pieces.flatMap (·.elements)).map untailed := by
  induction pieces generalizing element with
  | nil => rw [List.flatMap_nil, List.append_nil, fill, List.foldl_nil]
  | cons first rest ih =>
    refine (ih _).trans ?_
    rw [List.map_append, untailed_pushText, List.flatMap_cons]
    simp

theorem untailed_passOn (pieces : List Piece) :
    (passOn pieces).map untailed = (pieces.flatMap (·.elements)).map untailed := by
  have after (before : List Element) :
      (pieces.foldl (fun elements piece => extendLast (elements ++ piece.elements) piece.tail)
        before).map untailed = (before ++ pieces.flatMap (·.elements)).map untailed := by
    induction pieces generalizing before with
    | nil => rw [List.flatMap_nil, List.append_nil, List.foldl_nil]
    | cons first rest ih =>
      rw [List.foldl_cons, ih, List.map_append, untailed_extendLast, List.flatMap_cons]
      simp
  exact after []

theorem untailed_insertNotes (notes : List Element) (element : Element) :
    (insertNotes notes element).children.map untailed =
      (notes ++ element.children).map untailed := by
  rcases List.eq_nil_or_concat notes with rfl | ⟨before, last, rfl⟩
  · rfl
  · rw [List.concat_eq_append, insertNotes, setLastTail?_concat]
    simp [untailed]

/-- The elements among items. -/
def elementsOf (items : List Item) : List Element :=
  items.filterMap fun
    | .text _ => none
    | .element element => some element

@[simp] theorem elementsOf_append (items more : List Item) :
    elementsOf (items ++ more) = elementsOf items ++ elementsOf more :=
  List.filterMap_append

@[simp] theorem elementsOf_elements (elements : List Element) :
    elementsOf (elements.map .element) = elements := by
  rw [elementsOf, List.filterMap_map]
  exact List.filterMap_some

theorem elementsOf_tailItems (progress : Progress) (child : Markup.Node) :
    elementsOf (tailItems progress child) = [] := by
  unfold tailItems
  split <;> rfl

theorem untailed_append (element : Element) (items : List Item) :
    (append element items).children.map untailed =
      (element.children ++ elementsOf items).map untailed := by
  induction items generalizing element with
  | nil => rw [elementsOf, List.filterMap_nil, List.append_nil, append, List.foldl_nil]
  | cons first rest ih =>
    refine (ih _).trans ?_
    cases first with
    | text text =>
      rw [List.map_append, untailed_pushText]
      exact List.map_append.symm
    | element child =>
      rw [show (element.push child).children = element.children ++ [child] from rfl,
        List.append_assoc]
      rfl

/-! ## 2. Characters -/

/-- Characters are appended to the last ones there are. -/
theorem parts_pushText (element : Element) (text : String) :
    ∃ before last, element.parts = before ++ [last] ∧
      (element.pushText text).parts = before ++ [last ++ text] := by
  rcases List.eq_nil_or_concat element.children with empty | ⟨before, last, same⟩
  · refine ⟨[], element.text, ?_, ?_⟩
    · rw [Element.parts, empty]
      rfl
    · rw [Element.pushText, empty]
      rfl
  · rw [List.concat_eq_append] at same
    refine ⟨element.text :: before.map (·.tail), last.tail, ?_, ?_⟩
    · simp [Element.parts, same]
    · rw [pushText_of_ne_nil element text (by simp [same]), same, extendLast_concat]
      simp [Element.parts]

theorem holds_pushText (element : Element) (text : String) :
    (element.pushText text).Holds text := by
  obtain ⟨before, last, -, pushed⟩ := parts_pushText element text
  refine ⟨last ++ text, by simp [pushed], ?_⟩
  rw [String.toList_append]
  exact (List.suffix_append _ _).isInfix

/-- What is held stays when characters are appended. -/
theorem holds_pushText_of_holds {element : Element} {held : String} (holds : element.Holds held)
    (text : String) : (element.pushText text).Holds held := by
  obtain ⟨before, last, same, pushed⟩ := parts_pushText element text
  obtain ⟨part, isPart, inside⟩ := holds
  rw [same, List.mem_append, List.mem_singleton] at isPart
  rcases isPart with isBefore | rfl
  · exact ⟨part, by simp [pushed, isBefore], inside⟩
  · refine ⟨part ++ text, by simp [pushed], ?_⟩
    rw [String.toList_append]
    exact inside.trans (List.prefix_append _ _).isInfix

theorem holds_push {element : Element} {held : String} (holds : element.Holds held)
    (child : Element) : (element.push child).Holds held := by
  obtain ⟨part, isPart, inside⟩ := holds
  have parts : (element.push child).parts = element.parts ++ [child.tail] := by
    simp [Element.parts, Element.push]
  exact ⟨part, by rw [parts]; exact List.mem_append_left _ isPart, inside⟩

/-- What is appended after characters leaves them there. -/
theorem holds_append_of_holds {held : String} (items : List Item) {element : Element}
    (holds : element.Holds held) : (append element items).Holds held := by
  induction items generalizing element with
  | nil => exact holds
  | cons first rest ih =>
    cases first with
    | text text => exact ih (holds_pushText_of_holds holds text)
    | element child => exact ih (holds_push holds child)

/-- An element to which items are appended holds their characters. -/
theorem holds_append {element : Element} {items : List Item} {text : String}
    (member : .text text ∈ items) : (append element items).Holds text := by
  obtain ⟨before, later, rfl⟩ := List.append_of_mem member
  rw [append, List.foldl_append, List.foldl_cons]
  exact holds_append_of_holds later (holds_pushText _ text)

/-! ## 3. Positions -/

/-- Positions in what comes after so many other children. -/
def shift (count : Nat) : List Nat → List Nat
  | [] => []
  | position :: rest => (count + position) :: rest

@[simp] theorem shift_zero (positions : List Nat) : shift 0 positions = positions := by
  cases positions with
  | nil => rfl
  | cons position rest => rw [shift, Nat.zero_add]

theorem shift_shift (count more : Nat) (positions : List Nat) :
    shift count (shift more positions) = shift (count + more) positions := by
  cases positions with
  | nil => rfl
  | cons position rest => rw [shift, shift, shift, Nat.add_assoc]

/-- What is declared nearest of all is declared nearest of the nearer ones, or else of the
others. -/
theorem orElse_assoc (first second third : Option String) :
    ((first <|> second) <|> third) = (first <|> second <|> third) := by
  cases first <;> rfl

theorem findSome?_concat {α : Type} (declared? : α → Option String) (nearer : List α) (last : α) :
    (nearer ++ [last]).findSome? declared? = (nearer.findSome? declared? <|> declared? last) := by
  rw [List.findSome?_append, List.findSome?_singleton]
  cases nearer.findSome? declared? <;> rfl

/-- The language that is declared nearest around the element at some positions. -/
def nearestLang? (tree : Element) (positions : List Nat) : Option String :=
  (spineAt positions tree).findSome? (·.ownLang?)

theorem nearestLang?_nil (tree : Element) : nearestLang? tree [] = tree.ownLang? := by
  rw [nearestLang?, spineAt, List.findSome?_singleton]

theorem nearestLang?_cons {tree child : Element} {position : Nat}
    (isChild : tree.children[position]? = some child) (rest : List Nat) :
    nearestLang? tree (position :: rest) = (nearestLang? child rest <|> tree.ownLang?) := by
  rw [nearestLang?, spineAt, isChild]
  exact findSome?_concat ..

variable {element other inner : Element} {positions : List Nat}

theorem ownLang?_of_untailed (same : element.untailed = other.untailed) :
    element.ownLang? = other.ownLang? := by
  have attributes : element.attributes = other.attributes := congrArg (·.attributes) same
  exact ownLang?_congr attributes

/-- What positions lead to, and the language that is declared nearest, depends on no tail of the
element that they start from. -/
theorem at?_of_untailed (same : element.untailed = other.untailed)
    (isThere : other.at? positions = some inner) :
    (∃ found, element.at? positions = some found ∧ found.untailed = inner.untailed) ∧
      nearestLang? element positions = nearestLang? other positions := by
  have children : element.children = other.children := congrArg (·.children) same
  have own := ownLang?_of_untailed same
  cases positions with
  | nil =>
    cases isThere
    exact ⟨⟨element, rfl, same⟩, by rw [nearestLang?_nil, nearestLang?_nil, own]⟩
  | cons position rest =>
    obtain ⟨child, isChild, below⟩ := Option.bind_eq_some_iff.mp isThere
    rw [nearestLang?_cons isChild, ← children] at *
    refine ⟨⟨inner, ?_, rfl⟩, ?_⟩
    · exact Option.bind_eq_some_iff.mpr ⟨child, isChild, below⟩
    · rw [nearestLang?_cons isChild, own]

/-- Where elements are others up to tails, what stands at a position is the other there. -/
theorem exists_of_untailed {elements others : List Element} {element : Element} {position : Nat}
    (same : elements.map untailed = others.map untailed)
    (isThere : elements[position]? = some element) :
    ∃ other, others[position]? = some other ∧ element.untailed = other.untailed := by
  have isOther : (others.map untailed)[position]? = some element.untailed := by
    rw [← same, List.getElem?_map, isThere]
    rfl
  rw [List.getElem?_map] at isOther
  obtain ⟨other, found, same⟩ := Option.map_eq_some_iff.mp isOther
  exact ⟨other, found, same.symm⟩

/-- After so many others, a child is what was put there, up to its tail. -/
theorem exists_child_of_untailed {before later : List Element}
    (same : element.children.map untailed = (before ++ other :: later).map untailed) :
    ∃ child, element.children[before.length]? = some child ∧ child.untailed = other.untailed := by
  have isThere : (before ++ other :: later)[before.length]? = some other := by simp
  obtain ⟨child, isChild, sameChild⟩ := exists_of_untailed same.symm isThere
  exact ⟨child, isChild, sameChild.symm⟩

end Intertext.Compile
