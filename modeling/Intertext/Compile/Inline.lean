import Intertext.Compile.Directive
import Intertext.Compile.Note
/-!
Extracting text.

Between two markers the text in range is taken, without its structure. Only directives, whose
content is taken as text too, instructions and inserted notes stay elements, and a part in another
language gets a container that declares it. A tail in range is joined to what stands before it by
one space.
-/

namespace Intertext.Compile

open Markup (Element Name Node)

/-! ## 1. Putting together -/

/-- A part of extracted text. -/
inductive Item where
  | text (text : String)
  | element (element : Element)
deriving DecidableEq, Repr

/-- Appends items to the content of an element. -/
def append (element : Element) (items : List Item) : Element :=
  items.foldl (fun element item =>
    match item with
    | .text text => element.pushText text
    | .element child => element.push child) element

/-- An empty container that declares a language, if there is one to declare. -/
def container (lang : Option String) : Element :=
  let element := Element.ofName (.processing "transcludeInline")
  match lang with
  | some lang => element.setValue (.xml "lang") lang
  | none => element

/-- The tail of a child, joined to what stands before it, if it is in range. -/
def tailItems (progress : Progress) (child : Node) : List Item :=
  if progress.frame.inRange && child.tail ≠ "" then [.text " ", .text child.tail] else []

/-- The language a node declares, if it is another one than in scope. -/
def changedLang? (node : Node) (lang : Option String) : Option String :=
  node.ownLang?.filter fun own => some own ≠ lang

/-- What an element with its own text shows: items alone, or in a container if it changes the
language. -/
def inLang (changed : Option String) (items : List Item) : List Item :=
  match changed with
  | some _ => [.element (append (container changed) items)]
  | none => items

/-! ## 2. Instructions -/

/-- An instruction in extracted text: the one that replaces it, or a copy of itself. -/
def inlineInstruction (library : Library) (nested : Nested) (site : Site) (node : Node) :
    Run Element := do
  match ← annotate library nested site node with
  | .replace note => return note
  | annotation =>
    let note ← nested.copy (some site.file) site.file (some node)
    return insertNotes annotation.notes note

/-! ## 3. The walk -/

mutual

/-- What a node shows, and where the walk stands after it; `lang` is the language in scope. -/
def inline (library : Library) (nested : Nested) (site : Site) (walk : Walk)
    (lang : Option String) (progress : Progress) : Node → Run (List Item × Progress)
  | node@⟨_, _, _, _, text, children, _⟩ => do
    let progress := walk.enter progress node
    Run.record (.entered node.id progress.frame.command)
    match progress.frame.command with
    | .skip => return ([], progress)
    | .copyText =>
      match Role.of node with
      | .directive =>
        let element ← transclude library nested site node .inline
        return ([.element element], walk.leave progress node)
      | .instruction =>
        let note ← inlineInstruction library nested site node
        return ([.element note], walk.leave progress node)
      | _ =>
        let annotation ← annotate library nested site node
        let changed := changedLang? node lang
        let (items, progress) ←
          inlineForest library nested site walk (changed <|> lang) progress children
        let items := annotation.notes.map .element ++ .text text :: items
        return (inLang changed items, walk.leave progress node)
    | _ =>
      let (items, progress) ← inlineForest library nested site walk lang progress children
      return (items, walk.leave progress node)

/-- What the nodes of a forest show, with the parts of their tails that are in range. -/
def inlineForest (library : Library) (nested : Nested) (site : Site) (walk : Walk)
    (lang : Option String) (progress : Progress) : List Node → Run (List Item × Progress)
  | [] => return ([], progress)
  | first :: rest => do
    let (items, progress) ← inline library nested site walk lang progress first
    let tail := tailItems progress first
    let (others, progress) ← inlineForest library nested site walk lang progress rest
    return (items ++ tail ++ others, progress)

end

end Intertext.Compile
