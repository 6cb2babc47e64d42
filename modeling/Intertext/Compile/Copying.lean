import Intertext.Compile.Directive
import Intertext.Compile.Note
/-!
Copying whole subtrees.

A copy has everything the source has. Directives are replaced, instructions may be, and notes are
inserted. The root of a note has been annotated by the frame that asked for it and is not annotated
again.
-/

namespace Intertext.Compile

open Markup (Element Node)

/-- A node's tag, attributes and text over new children. -/
def withChildren (node : Node) (children : List Element) : Element :=
  { node.shell with text := node.text, children }

mutual

/-- A copy of a subtree. -/
def copy (library : Library) (nested : Nested) (site : Site) : Node → Run Element
  | node@⟨_, _, _, _, _, children, _⟩ =>
    if Role.of node = .directive then transclude library nested site node (.of node)
    else do
      match ← annotate library nested site node with
      | .replace note => return note
      | annotation =>
        let copies ← copyForest library nested site children
        return insertNotes annotation.notes (withChildren node copies)

/-- Copies of the trees of a forest, with their tails. -/
def copyForest (library : Library) (nested : Nested) (site : Site) :
    List Node → Run (List Element)
  | [] => return []
  | first :: rest => do
    let element ← copy library nested site first
    let others ← copyForest library nested site rest
    return { element with tail := first.tail } :: others

end

/-- A copy of the subtree of a note. -/
def copyNote (library : Library) (nested : Nested) (site : Site) (node : Node) : Run Element :=
  if Role.of node = .directive then transclude library nested site node (.of node)
  else do
    let copies ← copyForest library nested site node.children
    return withChildren node copies

end Intertext.Compile
