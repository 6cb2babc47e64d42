import Intertext.Markup.Element
import Intertext.Markup.Text.Entity
/-!
Writing output trees.

Every namespace a tree uses is declared once, on its root. Which label a namespace gets is chosen in
the order of use: the first hint for it that is usable and not taken, or else a label made up of
`ns` and a number. A hint without a label, a default declaration, is usable only where it can do no
harm: no element is without a namespace, and no attribute uses the namespace.
-/

namespace Intertext.Markup

/-- How trees are written: which labels are preferred, and whether a declaration of the format comes
first. -/
structure Serializer where
  hints : List (Option String × String)
  declaration : Bool
deriving Repr

namespace Serializer

/-! ## 1. Settings -/

/-- The labels the vocabularies usually have. -/
def usualLabels : List (Option String × String) :=
  [(some "tei", teiSpace), (some "j", linkSpace), (some "p", processingSpace)]

/-- Usual labels, and a declaration first. -/
def standard : Serializer := ⟨usualLabels, true⟩

/-- Prefers these labels over those preferred so far. -/
def withDeclarations (serializer : Serializer) (declarations : List (Option String × String)) :
    Serializer :=
  { serializer with hints := declarations ++ serializer.hints }

/-- Leaves the declaration of the format out. -/
def withoutDeclaration (serializer : Serializer) : Serializer :=
  { serializer with declaration := false }

/-! ## 2. Namespaces in use -/

/-- The texts of a list without repetitions, in the order of their first occurrences. -/
def distinct (texts : List String) : List String :=
  texts.foldl (fun seen text => if text ∈ seen then seen else seen ++ [text]) []

/-- The namespaces of element names, in the order of use. -/
def elementSpaces (root : Element) : List String :=
  distinct (root.preorder.filterMap (·.name.space))

/-- The namespaces of attribute names, in the order of use; the `xml` namespace needs no label. -/
def attributeSpaces (root : Element) : List String :=
  distinct ((root.preorder.flatMap fun element =>
    element.attributes.filterMap (·.1.space)).filter (· ≠ xmlSpace))

/-- Whether some element has no namespace. -/
def hasPlainElement (root : Element) : Bool :=
  root.preorder.any (·.name.space.isNone)

/-- The namespaces that need a label, in the order they get one. -/
def spaces (root : Element) : List String :=
  distinct (elementSpaces root ++ attributeSpaces root)

/-! ## 3. Labels -/

/-- The namespaces that have a label, with their labels; `none` is the default declaration. -/
abbrev Labels := List (String × Option String)

/-- Whether a label names a namespace already. -/
def Labels.taken (labels : Labels) (label : Option String) : Bool :=
  labels.any (·.2 = label)

/-- A made-up label. -/
def numbered (n : Nat) : Option String := some ("ns" ++ toString n)

/-- The first number from `n` on whose label is free. Of one more numbers than there are labels, one
has a free label. -/
def freeNumber (labels : Labels) (n : Nat) : Nat :=
  ((List.range' n (labels.length + 1)).find? fun k => !labels.taken (numbered k)).getD n

/-- The label the hints give a namespace. -/
def hinted? (serializer : Serializer) (labels : Labels) (mustLabel : Bool) (space : String) :
    Option (Option String) :=
  (serializer.hints.filter fun (label, uri) => uri = space && !(mustLabel && label.isNone))
    |>.map (·.1)
    |>.find? fun label => label ≠ some "xml" && !labels.taken label

/-- Gives labels to namespaces in order. The number is the first one that no made-up label has
tried. -/
def labelsFrom (serializer : Serializer) (mustLabel : String → Bool) :
    Labels → Nat → List String → Labels
  | labels, _, [] => labels
  | labels, n, space :: rest =>
    match serializer.hinted? labels (mustLabel space) space with
    | some label => labelsFrom serializer mustLabel (labels ++ [(space, label)]) n rest
    | none =>
      let k := freeNumber labels n
      labelsFrom serializer mustLabel (labels ++ [(space, numbered k)]) (k + 1) rest

/-- The labels of all namespaces a tree uses. -/
def labels (serializer : Serializer) (root : Element) : Labels :=
  let mustLabel := fun space => hasPlainElement root || (attributeSpaces root).contains space
  labelsFrom serializer mustLabel [] 0 (spaces root)

/-- A name as it is written. -/
def Labels.qualify (labels : Labels) (name : Name) : String :=
  match name.space with
  | none => name.part
  | some space =>
    if space = xmlSpace then "xml:" ++ name.part
    else
      match labels.lookup space with
      | some (some label) => label ++ ":" ++ name.part
      | _ => name.part

/-! ## 4. Text -/

/-- One attribute, with the space before it. -/
def assignment (name value : String) : String :=
  " " ++ name ++ "=\"" ++ Text.escape value ++ "\""

/-- The declarations of all labels, in order. -/
def Labels.declarations (labels : Labels) : String :=
  String.join (labels.map fun (space, label) =>
    match label with
    | some label => assignment ("xmlns:" ++ label) space
    | none => assignment "xmlns" space)

/-- The attributes of an element, in order. -/
def writeAttributes (labels : Labels) (attributes : Attributes) : String :=
  String.join (attributes.map fun (name, value) => assignment (labels.qualify name) value)

mutual

/-- An element; the declarations stand before its own attributes. -/
def writeElement (labels : Labels) (declarations : String) : Element → String
  | ⟨name, attributes, text, children, _⟩ =>
    let tag := labels.qualify name
    let start := "<" ++ tag ++ declarations ++ writeAttributes labels attributes
    if text = "" && children.isEmpty then start ++ "/>"
    else start ++ ">" ++ Text.escape text ++ writeForest labels children ++ "</" ++ tag ++ ">"

/-- The elements of a forest, each followed by its tail. -/
def writeForest (labels : Labels) : List Element → String
  | [] => ""
  | first :: rest =>
    writeElement labels "" first ++ Text.escape first.tail ++ writeForest labels rest

end

/-- The declaration of the format. -/
def header : String := "<?xml version=\"1.0\" encoding=\"UTF-8\"?>\n"

/-- The text of a tree; the tail of its root is no part of it. -/
def serialize (serializer : Serializer) (root : Element) : String :=
  let labels := serializer.labels root
  (if serializer.declaration then header else "") ++ writeElement labels labels.declarations root

end Serializer

end Intertext.Markup
