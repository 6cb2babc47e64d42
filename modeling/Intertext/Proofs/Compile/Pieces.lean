import Intertext.Compile.External
/-!
Putting together what children show.

A piece is rooted if its tail is empty unless there is an element before it. Of rooted pieces
nothing gets lost: an element that is filled with them, and a forest that they are passed on to,
has what each piece shows, one after the other (`fill_eq`, `passOn_eq`).
-/

namespace Intertext.Compile

open Markup (Element Node)

/-! ## 1. The last tail -/

theorem extendLastTail?_concat (text : String) (before : List Element) (last : Element) :
    Element.extendLastTail? text (before ++ [last]) =
      some (before ++ [{ last with tail := last.tail ++ text }]) := by
  induction before with
  | nil => rfl
  | cons first rest ih =>
    cases rest with
    | nil => rfl
    | cons second others =>
      rw [List.cons_append, List.cons_append, Element.extendLastTail?, ← List.cons_append, ih]
      · rfl
      · simp

@[simp] theorem extendLast_nil (text : String) : extendLast [] text = [] := rfl

@[simp] theorem extendLast_concat (text : String) (before : List Element) (last : Element) :
    extendLast (before ++ [last]) text = before ++ [{ last with tail := last.tail ++ text }] := by
  rw [extendLast, extendLastTail?_concat, Option.getD_some]

@[simp] theorem extendLast_singleton (last : Element) (text : String) :
    extendLast [last] text = [{ last with tail := last.tail ++ text }] := rfl

/-- An empty text changes no tail. -/
theorem extendLast_empty (elements : List Element) : extendLast elements "" = elements := by
  rcases List.eq_nil_or_concat elements with rfl | ⟨before, last, rfl⟩
  · rfl
  · rw [List.concat_eq_append, extendLast_concat, String.append_empty]
    cases last
    rfl

@[simp] theorem extendLast_eq_nil {elements : List Element} {text : String} :
    extendLast elements text = [] ↔ elements = [] := by
  rcases List.eq_nil_or_concat elements with rfl | ⟨before, last, rfl⟩
  · rfl
  · rw [List.concat_eq_append, extendLast_concat]
    simp

theorem extendLast_append (text : String) (before : List Element) {elements : List Element}
    (h : elements ≠ []) :
    extendLast (before ++ elements) text = before ++ extendLast elements text := by
  obtain ⟨others, last, rfl⟩ := (List.eq_nil_or_concat elements).resolve_left h
  rw [List.concat_eq_append, ← List.append_assoc, extendLast_concat, extendLast_concat,
    List.append_assoc]

/-- Characters after an element's content follow the last child, if there is one. -/
theorem pushText_of_ne_nil (element : Element) (text : String) (h : element.children ≠ []) :
    element.pushText text = { element with children := extendLast element.children text } := by
  obtain ⟨before, last, same⟩ := (List.eq_nil_or_concat element.children).resolve_left h
  rw [List.concat_eq_append] at same
  rw [Element.pushText, same, extendLastTail?_concat, extendLast_concat]

/-- No characters change nothing. -/
theorem pushText_empty (element : Element) : element.pushText "" = element := by
  by_cases h : element.children = []
  · cases element
    cases h
    simp [Element.pushText, Element.extendLastTail?]
  · rw [pushText_of_ne_nil element "" h, extendLast_empty]
    cases element
    rfl

/-! ## 2. Rooted pieces -/

/-- A piece whose tail has an element to follow. -/
def Piece.Rooted (piece : Piece) : Prop := piece.tail ≠ "" → piece.elements ≠ []

/-- What a piece shows: its elements, the last of them with the tail. -/
def Piece.shown (piece : Piece) : List Element := extendLast piece.elements piece.tail

/-- A rooted piece follows what stands before it. -/
theorem Piece.Rooted.extendLast_append {piece : Piece} (rooted : piece.Rooted)
    (before : List Element) :
    extendLast (before ++ piece.elements) piece.tail = before ++ piece.shown := by
  by_cases empty : piece.elements = []
  · have noTail : piece.tail = "" :=
      Classical.byContradiction fun tail => rooted tail empty
    rw [shown, noTail, extendLast_empty, extendLast_empty]
  · exact Compile.extendLast_append piece.tail before empty

/-- Filling an element with a rooted piece appends what the piece shows. -/
theorem Piece.Rooted.pushText_append {piece : Piece} (rooted : piece.Rooted) (element : Element) :
    ({ element with children := element.children ++ piece.elements }).pushText piece.tail =
      { element with children := element.children ++ piece.shown } := by
  by_cases empty : piece.tail = ""
  · rw [shown, empty, pushText_empty, extendLast_empty]
  · rw [pushText_of_ne_nil _ _ (List.append_ne_nil_of_right_ne_nil _ (rooted empty)),
      rooted.extendLast_append]

/-- An element filled with rooted pieces has what they show after its content. -/
theorem fill_eq (element : Element) {pieces : List Piece}
    (rooted : ∀ piece ∈ pieces, piece.Rooted) :
    fill element pieces =
      { element with children := element.children ++ pieces.flatMap Piece.shown } := by
  induction pieces generalizing element with
  | nil =>
    rw [List.flatMap_nil, List.append_nil]
    cases element
    rfl
  | cons first rest ih =>
    have step : fill element (first :: rest) =
        fill (({ element with children := element.children ++ first.elements }).pushText first.tail)
          rest := rfl
    rw [step, (rooted first List.mem_cons_self).pushText_append,
      ih _ (fun piece member => rooted piece (List.mem_cons_of_mem _ member)), List.flatMap_cons]
    simp [List.append_assoc]

/-- Rooted pieces are passed on as they are. -/
theorem passOn_eq {pieces : List Piece} (rooted : ∀ piece ∈ pieces, piece.Rooted) :
    passOn pieces = pieces.flatMap Piece.shown := by
  have after (before : List Element) :
      pieces.foldl (fun elements piece => extendLast (elements ++ piece.elements) piece.tail)
          before =
        before ++ pieces.flatMap Piece.shown := by
    induction pieces generalizing before with
    | nil => rw [List.flatMap_nil, List.append_nil, List.foldl_nil]
    | cons first rest ih =>
      rw [List.foldl_cons, (rooted first List.mem_cons_self).extendLast_append,
        ih (fun piece member => rooted piece (List.mem_cons_of_mem _ member)), List.flatMap_cons,
        List.append_assoc]
  exact after []

/-- Pieces are passed on to nothing if none of them has an element. -/
theorem passOn_eq_nil {pieces : List Piece} :
    passOn pieces = [] ↔ ∀ piece ∈ pieces, piece.elements = [] := by
  have after (before : List Element) :
      pieces.foldl (fun elements piece => extendLast (elements ++ piece.elements) piece.tail)
          before =
        [] ↔ before = [] ∧ ∀ piece ∈ pieces, piece.elements = [] := by
    induction pieces generalizing before with
    | nil => simp
    | cons first rest ih => simp [ih, and_assoc]
  rw [passOn, after, and_iff_right rfl]

end Intertext.Compile
