import Intertext.Compile.Inline
import Intertext.Proofs.Compile.Pieces
/-!
The text of what is put together.

Filling an element, passing on pieces and appending items put things one after the other, and so
they do with the text: it is the text of the parts, in order. To compare extracted text with the
structure it stands for, spaces are not counted (`spaceless`), since there are more of them in the
text.
-/

namespace Intertext.Compile

open Markup (Element Name Node)
open Markup.Element (forestCharacters)

/-! ## 1. Text without spaces -/

/-- The characters of a text that are not spaces. -/
def spaceless (text : String) : List Char := text.toList.filter (· ≠ ' ')

@[simp] theorem spaceless_empty : spaceless "" = [] := rfl

@[simp] theorem spaceless_append (first second : String) :
    spaceless (first ++ second) = spaceless first ++ spaceless second := by
  simp [spaceless]

/-- The characters of a part of extracted text. -/
def Item.characters : Item → String
  | .text shown => shown
  | .element shown => shown.characters ++ shown.tail

/-- The characters of extracted text. -/
def itemsCharacters : List Item → String
  | [] => ""
  | first :: rest => first.characters ++ itemsCharacters rest

/-- The text of what a child shows, with its tail. -/
def Piece.spaceless (piece : Piece) : List Char :=
  Compile.spaceless (forestCharacters piece.elements) ++ Compile.spaceless piece.tail

/-- The text of a part of extracted text. -/
def Item.spaceless : Item → List Char
  | .text shown => Compile.spaceless shown
  | .element shown => Compile.spaceless shown.characters ++ Compile.spaceless shown.tail

/-! ## 2. Elements and forests -/

theorem characters_eq (element : Element) :
    element.characters = element.text ++ forestCharacters element.children := by
  cases element
  rfl

theorem spaceless_characters (element : Element) :
    spaceless element.characters =
      spaceless element.text ++ spaceless (forestCharacters element.children) := by
  rw [characters_eq, spaceless_append]

@[simp] theorem spaceless_forest_nil : spaceless (forestCharacters []) = [] := rfl

@[simp] theorem spaceless_forest_cons (first : Element) (rest : List Element) :
    spaceless (forestCharacters (first :: rest)) =
      spaceless first.characters ++ spaceless first.tail ++ spaceless (forestCharacters rest) := by
  rw [forestCharacters, spaceless_append, spaceless_append]

theorem forestCharacters_append (before after : List Element) :
    forestCharacters (before ++ after) = forestCharacters before ++ forestCharacters after := by
  induction before with
  | nil => rw [List.nil_append, forestCharacters, String.empty_append]
  | cons first rest ih =>
    rw [List.cons_append, forestCharacters, forestCharacters, ih]
    simp only [String.append_assoc]

theorem forestCharacters_singleton (element : Element) :
    forestCharacters [element] = element.characters ++ element.tail := by
  rw [forestCharacters, forestCharacters, String.append_empty]

@[simp] theorem spaceless_forest_append (before after : List Element) :
    spaceless (forestCharacters (before ++ after)) =
      spaceless (forestCharacters before) ++ spaceless (forestCharacters after) := by
  rw [forestCharacters_append, spaceless_append]

/-- The tail of an element is no part of its text. -/
theorem characters_withTail (element : Element) (tail : String) :
    ({ element with tail } : Element).characters = element.characters := by
  rw [characters_eq, characters_eq]

/-- A language that is declared, or a place of origin, is no part of the text. -/
theorem characters_setValue (element : Element) (name : Name) (value : String) :
    (element.setValue name value).characters = element.characters := by
  rw [characters_eq, characters_eq]
  rfl

/-! ## 3. Appending -/

/-- Text after the last element of a forest follows the text of the forest. -/
theorem forestCharacters_extendLast {elements : List Element} (text : String)
    (h : elements ≠ []) :
    forestCharacters (extendLast elements text) = forestCharacters elements ++ text := by
  obtain ⟨before, last, rfl⟩ := (List.eq_nil_or_concat elements).resolve_left h
  rw [List.concat_eq_append, extendLast_concat, forestCharacters_append, forestCharacters_append,
    forestCharacters_singleton, forestCharacters_singleton, characters_withTail]
  simp only [String.append_assoc]

theorem spaceless_extendLast {elements : List Element} (text : String) (h : elements ≠ []) :
    spaceless (forestCharacters (extendLast elements text)) =
      spaceless (forestCharacters elements) ++ spaceless text := by
  rw [forestCharacters_extendLast text h, spaceless_append]

/-- Text after everything an element holds follows the text of the element. -/
theorem characters_pushText (element : Element) (text : String) :
    (element.pushText text).characters = element.characters ++ text := by
  by_cases h : element.children = []
  · rw [Element.pushText, h, characters_eq, characters_eq, h]
    simp [Element.extendLastTail?, forestCharacters]
  · rw [pushText_of_ne_nil element text h, characters_eq, characters_eq,
      forestCharacters_extendLast text h, String.append_assoc]

theorem spaceless_pushText (element : Element) (text : String) :
    spaceless (element.pushText text).characters =
      spaceless element.characters ++ spaceless text := by
  rw [characters_pushText, spaceless_append]

theorem tail_pushText (element : Element) (text : String) :
    (element.pushText text).tail = element.tail := by
  unfold Element.pushText
  split <;> rfl

theorem tail_fill (element : Element) (pieces : List Piece) :
    (fill element pieces).tail = element.tail := by
  induction pieces generalizing element with
  | nil => rfl
  | cons first rest ih => exact (ih _).trans (tail_pushText ..)

/-- An element that is filled has the text of the pieces after its own. -/
theorem spaceless_fill (element : Element) (pieces : List Piece) :
    spaceless (fill element pieces).characters =
      spaceless element.characters ++ pieces.flatMap Piece.spaceless := by
  induction pieces generalizing element with
  | nil => rw [List.flatMap_nil, List.append_nil, fill, List.foldl_nil]
  | cons first rest ih =>
    have step : fill element (first :: rest) =
        fill (({ element with children := element.children ++ first.elements }).pushText first.tail)
          rest := rfl
    rw [step, ih, spaceless_pushText, List.flatMap_cons]
    simp [spaceless_characters, Piece.spaceless]

theorem characters_push (element child : Element) :
    (element.push child).characters = element.characters ++ (child.characters ++ child.tail) := by
  rw [characters_eq, characters_eq element, String.append_assoc, ← forestCharacters_singleton child,
    ← forestCharacters_append]
  rfl

/-- An element to which items are appended has the text of the items after its own. -/
theorem characters_append_items (element : Element) (items : List Item) :
    (append element items).characters = element.characters ++ itemsCharacters items := by
  induction items generalizing element with
  | nil => rw [itemsCharacters, String.append_empty, append, List.foldl_nil]
  | cons first rest ih =>
    rw [itemsCharacters, ← String.append_assoc]
    cases first with
    | text text =>
      have step : append element (.text text :: rest) = append (element.pushText text) rest := rfl
      rw [step, ih, characters_pushText]
      rfl
    | element child =>
      have step : append element (.element child :: rest) = append (element.push child) rest := rfl
      rw [step, ih, characters_push]
      rfl

theorem spaceless_items (items : List Item) :
    spaceless (itemsCharacters items) = items.flatMap Item.spaceless := by
  induction items with
  | nil => rfl
  | cons first rest ih =>
    rw [itemsCharacters, spaceless_append, ih, List.flatMap_cons]
    cases first with
    | text text => rfl
    | element child => rw [Item.characters, spaceless_append, Item.spaceless]

theorem spaceless_append_items (element : Element) (items : List Item) :
    spaceless (append element items).characters =
      spaceless element.characters ++ items.flatMap Item.spaceless := by
  rw [characters_append_items, spaceless_append, spaceless_items]

/-- A container without items has no text. -/
theorem characters_container (lang : Option String) : (container lang).characters = "" := by
  cases lang with
  | none => rfl
  | some lang => exact characters_setValue ..

theorem tail_append (element : Element) (items : List Item) :
    (append element items).tail = element.tail := by
  induction items generalizing element with
  | nil => rfl
  | cons first rest ih =>
    refine (ih _).trans ?_
    cases first with
    | text text => exact tail_pushText element text
    | element child => rfl

theorem tail_container (lang : Option String) : (container lang).tail = "" := by
  cases lang <;> rfl

/-- Items have the same text in a container of their language. -/
theorem itemsCharacters_inLang (changed : Option String) (items : List Item) :
    itemsCharacters (inLang changed items) = itemsCharacters items := by
  cases changed with
  | none => rfl
  | some lang =>
    rw [inLang, itemsCharacters, itemsCharacters, Item.characters, characters_append_items,
      tail_append, tail_container, characters_container, String.append_empty, String.append_empty,
      String.empty_append]

theorem spaceless_inLang (changed : Option String) (items : List Item) :
    (inLang changed items).flatMap Item.spaceless = items.flatMap Item.spaceless := by
  rw [← spaceless_items, itemsCharacters_inLang, spaceless_items]

/-! ## 4. Notes -/

theorem setLastTail?_concat (tail : String) (before : List Element) (last : Element) :
    setLastTail? tail (before ++ [last]) = some (before ++ [{ last with tail }]) := by
  induction before with
  | nil => rfl
  | cons first rest ih =>
    cases rest with
    | nil => rfl
    | cons second others =>
      rw [List.cons_append, List.cons_append, setLastTail?, ← List.cons_append, ih]
      · rfl
      · simp

/-- Notes without tails come before the text of the element they are put into. -/
theorem characters_insertNotes {notes : List Element} (element : Element)
    (tailless : ∀ note ∈ notes, note.tail = "") :
    (insertNotes notes element).characters =
      forestCharacters notes ++ element.characters := by
  rcases List.eq_nil_or_concat notes with rfl | ⟨before, last, rfl⟩
  · exact String.empty_append.symm
  · have noTail : last.tail = "" := tailless last (by simp)
    rw [List.concat_eq_append, insertNotes, setLastTail?_concat, characters_eq, characters_eq]
    simp only [forestCharacters_append, forestCharacters_singleton, characters_withTail, noTail,
      String.append_assoc, String.append_empty, String.empty_append]

theorem spaceless_insertNotes {notes : List Element} (element : Element)
    (tailless : ∀ note ∈ notes, note.tail = "") :
    spaceless (insertNotes notes element).characters =
      spaceless (forestCharacters notes) ++ spaceless element.characters := by
  rw [characters_insertNotes element tailless, spaceless_append]

theorem itemsCharacters_append (before after : List Item) :
    itemsCharacters (before ++ after) = itemsCharacters before ++ itemsCharacters after := by
  induction before with
  | nil => rw [List.nil_append, itemsCharacters, String.empty_append]
  | cons first rest ih =>
    rw [List.cons_append, itemsCharacters, itemsCharacters, ih, String.append_assoc]

theorem itemsCharacters_elements (elements : List Element) :
    itemsCharacters (elements.map .element) = forestCharacters elements := by
  induction elements with
  | nil => rfl
  | cons first rest ih =>
    rw [List.map_cons, itemsCharacters, ih]
    rfl

theorem spaceless_elements (elements : List Element) :
    (elements.map Item.element).flatMap Item.spaceless = spaceless (forestCharacters elements) := by
  rw [← spaceless_items, itemsCharacters_elements]

/-! ## 5. Passing on -/

/-- Whether every tail of pieces has an element to follow. -/
def Started : List Piece → Prop
  | [] => True
  | first :: rest => first.elements ≠ [] ∨ first.tail = "" ∧ Started rest

/-- What pieces are passed on to keeps their text once there is an element. -/
theorem spaceless_passOn_from {pieces : List Piece} {before : List Element} (h : before ≠ []) :
    spaceless (forestCharacters (pieces.foldl (fun elements piece =>
        extendLast (elements ++ piece.elements) piece.tail) before)) =
      spaceless (forestCharacters before) ++ pieces.flatMap Piece.spaceless := by
  induction pieces generalizing before with
  | nil => rw [List.flatMap_nil, List.append_nil, List.foldl_nil]
  | cons first rest ih =>
    have some : before ++ first.elements ≠ [] := List.append_ne_nil_of_left_ne_nil h _
    rw [List.foldl_cons, ih (mt extendLast_eq_nil.mp some), spaceless_extendLast _ some,
      List.flatMap_cons]
    simp [Piece.spaceless]

/-- Pieces that are passed on keep their text if every tail has an element to follow. -/
theorem spaceless_passOn {pieces : List Piece} (started : Started pieces) :
    spaceless (forestCharacters (passOn pieces)) = pieces.flatMap Piece.spaceless := by
  induction pieces with
  | nil => rfl
  | cons first rest ih =>
    by_cases empty : first.elements = []
    · obtain ⟨noTail, later⟩ := started.resolve_left fun some => some empty
      have step : passOn (first :: rest) = passOn rest := by
        show rest.foldl _ (extendLast ([] ++ first.elements) first.tail) = _
        rw [empty, List.nil_append, extendLast_nil]
        rfl
      rw [step, ih later, List.flatMap_cons, Piece.spaceless, empty, noTail]
      rfl
    · have some : [] ++ first.elements ≠ [] := by simpa using empty
      show spaceless (forestCharacters (rest.foldl _ (extendLast ([] ++ first.elements)
        first.tail))) = _
      rw [spaceless_passOn_from (mt extendLast_eq_nil.mp some), spaceless_extendLast _ some,
        List.flatMap_cons]
      simp [Piece.spaceless]

end Intertext.Compile
