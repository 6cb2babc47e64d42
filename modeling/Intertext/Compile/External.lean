import Intertext.Compile.Directive
import Intertext.Compile.Note
/-!
Extracting structure.

Between two markers the elements in range are copied like in a whole file; above the start only the
tags of the elements that lead to it are, from the range's ancestor down. What stands before the
start is left out, and so is what stands after the end. An element that is only passed shows
whatever its children show.
-/

namespace Intertext.Compile

open Markup (Element Node)

/-! ## 1. Putting together -/

/-- What a child shows, and the part of its tail that is in range. -/
structure Piece where
  elements : List Element
  tail : String
deriving DecidableEq, Repr

/-- The part of a child's tail that is in range once the child has been left. -/
def tailInRange (progress : Progress) (child : Node) : String :=
  if progress.frame.inRange then child.tail else ""

/-- Appends characters to the tail of the last element; without one they have no place. -/
def extendLast (elements : List Element) (text : String) : List Element :=
  (Element.extendLastTail? text elements).getD elements

/-- Fills an element with what its children show. -/
def fill (element : Element) (pieces : List Piece) : Element :=
  pieces.foldl (fun element piece =>
    ({ element with children := element.children ++ piece.elements }).pushText piece.tail) element

/-- What the children of an element show that is only passed. -/
def passOn (pieces : List Piece) : List Element :=
  pieces.foldl (fun elements piece => extendLast (elements ++ piece.elements) piece.tail) []

/-! ## 2. The walk -/

mutual

/-- What a node shows, and where the walk stands after it. -/
def external (library : Library) (nested : Nested) (site : Site) (walk : Walk)
    (progress : Progress) : Node → Run (List Element × Progress)
  | node@⟨_, _, _, _, text, children, _⟩ => do
    let progress := walk.enter progress node
    Run.record (.entered node.id progress.frame.command)
    match progress.frame.command with
    | .skip => return ([], progress)
    | .copy =>
      if Role.of node = .directive then
        let element ← transclude library nested site node (.of node)
        return ([element], walk.leave progress node)
      else
        match ← annotate library nested site node with
        | .replace note => return ([note], walk.leave progress node)
        | annotation =>
          let (pieces, progress) ← externalForest library nested site walk progress children
          let element := fill { node.shell with text } pieces
          return ([insertNotes annotation.notes element], walk.leave progress node)
    | .copyTag =>
      let (pieces, progress) ← externalForest library nested site walk progress children
      return ([fill node.shell pieces], walk.leave progress node)
    | _ =>
      let (pieces, progress) ← externalForest library nested site walk progress children
      return (passOn pieces, walk.leave progress node)

/-- What the nodes of a forest show, each with the part of its tail that is in range. -/
def externalForest (library : Library) (nested : Nested) (site : Site) (walk : Walk)
    (progress : Progress) : List Node → Run (List Piece × Progress)
  | [] => return ([], progress)
  | first :: rest => do
    let (elements, progress) ← external library nested site walk progress first
    let piece : Piece := ⟨elements, tailInRange progress first⟩
    let (pieces, progress) ← externalForest library nested site walk progress rest
    return (piece :: pieces, progress)

end

end Intertext.Compile
