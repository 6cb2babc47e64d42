import Intertext.Markup.Document
import Intertext.Markup.Scope
import Intertext.Markup.Text.Entity
/-!
Reading documents.

A document is built token by token. The state is the stack of open elements, innermost first, each
with what it has collected so far; an element that is closed becomes the last child of the one
around it, or the root. Character data goes to the tail of the last child of the innermost open
element, or to its text where it has no child yet; outside the root it is dropped, though its
references must still be sound.

Faults come in the order of the text. Within one start tag the declarations are looked at first,
then the element's own name, then the attributes from left to right, and last whether there already
is a root.
-/

namespace Intertext.Markup

/-! ## 1. Open elements -/

/-- An element whose end tag has not been read. -/
structure OpenElement where
  id : Nat
  path : String
  name : Name
  /-- The name as written, which the end tag must repeat. -/
  written : List Char
  attributes : Attributes
  text : String
  /-- The children read so far, last one first. -/
  children : List Node
  /-- The declarations that hold inside the element. -/
  scope : Scope
deriving Repr

namespace OpenElement

/-- Adds character data after everything read so far. -/
def pushText (element : OpenElement) (text : String) : OpenElement :=
  match element.children with
  | [] => { element with text := element.text ++ text }
  | last :: earlier =>
    { element with children := { last with tail := last.tail ++ text } :: earlier }

/-- Adds a child after everything read so far. -/
def push (element : OpenElement) (child : Node) : OpenElement :=
  { element with children := child :: element.children }

/-- The finished node. -/
def close (element : OpenElement) : Node :=
  ⟨element.id, element.path, element.name, element.attributes, element.text,
    element.children.reverse, ""⟩

/-- The step of a path to a new child: the name as written and its position among the earlier
children of the same name. -/
def childPath (parent : OpenElement) (written : String) (name : Name) : String :=
  let position := 1 + parent.children.countP (·.name = name)
  parent.path ++ "/" ++ written ++ "[" ++ toString position ++ "]"

end OpenElement

/-! ## 2. Attributes of a start tag -/

/-- Records a declaration, unless its label was declared before. -/
def recordNamespace (namespaces : List (Option String × String)) (label : Option String)
    (space : String) : List (Option String × String) :=
  if namespaces.any (·.1 = label) then namespaces else namespaces ++ [(label, space)]

/-- Reads the attributes of a start tag from left to right: declarations are recorded, the others
get their names and values. -/
def readAttributes (scope : Scope) (namespaces : List (Option String × String)) :
    List RawAttribute → Except Fault (Attributes × List (Option String × String))
  | [] => .ok ([], namespaces)
  | item :: rest =>
    match Scope.declared? item.key with
    | some label => do
      let space ← (Text.expand item.value).mapError .entity
      readAttributes scope
        (recordNamespace namespaces (label.map String.ofList) (String.ofList space)) rest
    | none => do
      let name ← scope.attributeName item.key
      let value ← (Text.expand item.value).mapError .entity
      let (attributes, namespaces) ← readAttributes scope namespaces rest
      return ((name, String.ofList value) :: attributes, namespaces)

/-! ## 3. The state of reading -/

/-- What has been read so far. -/
structure Reading where
  /-- The open elements, innermost first. -/
  stack : List OpenElement
  /-- The root, once it is closed. -/
  root : Option Node
  /-- How many start tags have been read. -/
  count : Nat
  namespaces : List (Option String × String)
deriving Repr

namespace Reading

/-- Nothing has been read. -/
def start : Reading := ⟨[], none, 0, []⟩

/-- The declarations that hold at this point. -/
def scope (state : Reading) : Scope :=
  match state.stack with
  | [] => Scope.initial
  | innermost :: _ => innermost.scope

/-- Adds character data; outside the root it is dropped. -/
def addText (state : Reading) (text : String) : Reading :=
  match state.stack with
  | [] => state
  | innermost :: outer => { state with stack := innermost.pushText text :: outer }

/-- Closes the innermost open element. -/
def leave (state : Reading) : Reading :=
  match state.stack with
  | [] => state
  | [root] => { state with stack := [], root := some root.close }
  | innermost :: parent :: outer =>
    { state with stack := parent.push innermost.close :: outer }

/-- The path of an element that opens here; a second root is refused. -/
def pathOf (state : Reading) (written : List Char) (name : Name) : Except Fault String :=
  match state.stack, state.root with
  | parent :: _, _ => .ok (parent.childPath (String.ofList written) name)
  | [], none => .ok ("/" ++ String.ofList written)
  | [], some _ => .error .multipleRoots

/-- Opens an element, given the contents of its start tag. -/
def enter (state : Reading) (raw : List Char) : Except Fault Reading := do
  let written := Tag.name raw
  let declarations := (Tag.attributes false [] (Tag.afterName raw)).1
  let scope ← (state.scope.declareAll declarations).mapError .binding
  let name ← scope.elementName written
  let (items, fault) := Tag.attributes true [] (Tag.afterName raw)
  let (attributes, namespaces) ← readAttributes scope state.namespaces items
  match fault with
  | some fault => .error (.attr fault)
  | none =>
    let path ← state.pathOf written name
    let element : OpenElement :=
      ⟨state.count, path, name, written, attributes, "", [], scope⟩
    return { state with stack := element :: state.stack, count := state.count + 1, namespaces }

/-- Closes the innermost open element, given the contents of an end tag. -/
def closeTag (state : Reading) (raw : List Char) : Except Fault Reading :=
  let found := Tag.endName raw
  match state.stack with
  | [] => .error (.nesting (.unmatchedEnd (String.ofList found)))
  | innermost :: _ =>
    if found = innermost.written then .ok state.leave
    else
      .error (.nesting (.mismatchedEnd (String.ofList innermost.written) (String.ofList found)))

/-- Reads one token. -/
def step (state : Reading) : Token → Except Fault Reading
  | .text raw => do
    let text ← (Text.expand raw).mapError .entity
    return state.addText (String.ofList text)
  | .cdata raw => .ok (state.addText (String.ofList raw))
  | .aside => .ok state
  | .start raw => state.enter raw
  | .empty raw => do return (← state.enter raw).leave
  | .close raw => state.closeTag raw

/-- The document, once all has been read. -/
def finish (state : Reading) : Except Fault Document :=
  match state.stack, state.root with
  | innermost :: _, _ => .error (.unclosed innermost.name.part)
  | [], none => .error .noRoot
  | [], some root => .ok ⟨root, state.namespaces⟩

end Reading

/-! ## 4. Documents -/

namespace Document

/-- A text without one leading byte order mark. -/
def withoutMark : List Char → List Char
  | '\uFEFF' :: rest => rest
  | input => input

/-- Reads a document from its characters. -/
def read (input : List Char) : Except Fault Document := do
  let (tokens, fault) := Token.scan (withoutMark input)
  let state ← tokens.foldlM Reading.step Reading.start
  match fault with
  | some fault => .error (.token fault)
  | none => state.finish

/-- Reads a document from a text. -/
def parse (text : String) : Except Fault Document := read text.toList

/-- Reads a document from the bytes of a file. -/
def ofBytes (bytes : ByteArray) : Except Fault Document :=
  match String.fromUTF8? bytes with
  | some text => parse text
  | none => .error .unreadable

end Document

end Intertext.Markup
