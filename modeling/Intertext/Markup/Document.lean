import Intertext.Markup.Element
/-!
Source documents.

A node is an element of a document together with its place: its number in document order and its
path. The path names the steps from the root, each with the label as written and, below the root,
the position among earlier siblings of the same name. Nodes are asked for by number, by path or by a
property; the questions that concern the nodes around a node (its ancestors, the language in scope)
are answered along its *spine*, the node itself followed by its ancestors, nearest first.
-/

namespace Intertext.Markup

/-- An element of a source document and its place there. -/
structure Node where
  id : Nat
  path : String
  name : Name
  attributes : Attributes
  text : String
  children : List Node
  tail : String
deriving Repr, Inhabited

namespace Node

/-! ## 1. Attributes -/

/-- The value of the first attribute of that name. -/
def value? (node : Node) (name : Name) : Option String :=
  node.attributes.value? name

/-- The identifier the node defines. -/
def corresp? (node : Node) : Option String := node.value? (.plain "corresp")

/-- The name the node has within its file. -/
def xmlId? (node : Node) : Option String := node.value? (.xml "id")

/-- The language the node declares. -/
def ownLang? (node : Node) : Option String := node.value? (.xml "lang")

/-! ## 2. The subtree -/

mutual

/-- The node followed by everything below it, in document order. -/
def preorder : Node → List Node
  | node@⟨_, _, _, _, _, children, _⟩ => node :: forestPreorder children

/-- The nodes of a forest and everything below them, in document order. -/
def forestPreorder : List Node → List Node
  | [] => []
  | first :: rest => preorder first ++ forestPreorder rest

end

/-- Whether the node with that number is the node itself or lies below it. -/
def contains (node : Node) (id : Nat) : Bool :=
  node.preorder.any (·.id = id)

mutual

/-- The spine of the node with that number within the subtree: the node, then its ancestors,
nearest first. -/
def spine? (id : Nat) : Node → Option (List Node)
  | node@⟨own, _, _, _, _, children, _⟩ =>
    if own = id then some [node] else (forestSpine? id children).map (· ++ [node])

/-- The spine of the node with that number within a forest. -/
def forestSpine? (id : Nat) : List Node → Option (List Node)
  | [] => none
  | first :: rest =>
    match spine? id first with
    | some spine => some spine
    | none => forestSpine? id rest

end

/-! ## 3. Copies -/

/-- The tag and attributes of a node, without content. -/
def shell (node : Node) : Element := ⟨node.name, node.attributes, "", [], ""⟩

mutual

/-- A copy of the subtree as an output tree. -/
def toElement : Node → Element
  | ⟨_, _, name, attributes, text, children, tail⟩ =>
    ⟨name, attributes, text, toElements children, tail⟩

/-- Copies of the trees of a forest. -/
def toElements : List Node → List Element
  | [] => []
  | first :: rest => toElement first :: toElements rest

end

end Node

/-! ## 4. Documents -/

/-- A parsed file: its root, and for each label the namespace of its first declaration, in the order
of declaration. -/
structure Document where
  root : Node
  namespaces : List (Option String × String)
deriving Repr, Inhabited

namespace Document

/-- All nodes, in document order. -/
def nodes (document : Document) : List Node := document.root.preorder

/-- The number of nodes. -/
def size (document : Document) : Nat := document.nodes.length

/-- The first node with a property, in document order. -/
def find? (document : Document) (p : Node → Bool) : Option Node :=
  document.nodes.find? p

/-- The node with that number. -/
def node? (document : Document) (id : Nat) : Option Node :=
  document.find? (·.id = id)

/-- The last node, in document order, with that path. -/
def byPath? (document : Document) (path : String) : Option Node :=
  document.nodes.reverse.find? (·.path = path)

/-- The node with that number and its ancestors, nearest first; empty if there is none. -/
def spine (document : Document) (id : Nat) : List Node :=
  (document.root.spine? id).getD []

/-- The strict ancestors of a node, nearest first. -/
def ancestors (document : Document) (id : Nat) : List Node :=
  (document.spine id).tail

/-- The parent of a node; the root has none. -/
def parent? (document : Document) (id : Nat) : Option Node :=
  (document.ancestors id).head?

/-- Whether the second node is the first or lies below it. -/
def contains (document : Document) (ancestor id : Nat) : Bool :=
  (document.spine id).any (·.id = ancestor)

/-- The language in scope at a node: that of the nearest node on its spine that declares one. -/
def lang? (document : Document) (id : Nat) : Option String :=
  (document.spine id).findSome? (·.ownLang?)

end Document

end Intertext.Markup
