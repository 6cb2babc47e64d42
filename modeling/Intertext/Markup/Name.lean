/-!
Names of elements and attributes, and the vocabularies the library knows by name.

A name is a local part with an optional namespace. Its one-line spelling is *Clark notation*: the
namespace between braces, then the local part; a name without a namespace is its local part alone.
-/

namespace Intertext.Markup

/-! ## 1. Namespaces -/

/-- The vocabulary of encoded texts. -/
def teiSpace : String := "http://www.tei-c.org/ns/1.0"

/-- The vocabulary of transclusion directives. -/
def linkSpace : String := "http://jewishliturgy.org/ns/jlptei/2"

/-- The vocabulary of what compilation adds: wrappers and provenance. -/
def processingSpace : String := "http://jewishliturgy.org/ns/processing"

/-- The namespace the label `xml` always names. -/
def xmlSpace : String := "http://www.w3.org/XML/1998/namespace"

/-- The namespace the label `xmlns` always names. -/
def xmlnsSpace : String := "http://www.w3.org/2000/xmlns/"

/-! ## 2. Names -/

/-- A name: an optional namespace and a local part. A namespace that is the empty text is still a
namespace, different from having none. -/
structure Name where
  space : Option String
  part : String
deriving DecidableEq, Repr, Inhabited

namespace Name

/-- A name without a namespace. -/
def plain (part : String) : Name := ⟨none, part⟩

def tei (part : String) : Name := ⟨some teiSpace, part⟩

def link (part : String) : Name := ⟨some linkSpace, part⟩

def processing (part : String) : Name := ⟨some processingSpace, part⟩

def xml (part : String) : Name := ⟨some xmlSpace, part⟩

/-- The name in Clark notation. -/
def clark : Name → String
  | ⟨none, part⟩ => part
  | ⟨some space, part⟩ => "\x7b" ++ space ++ "\x7d" ++ part

/-- Reads Clark notation: a text that begins with a brace is split at the first closing brace, any
other text is a local part. -/
def ofClark (text : String) : Name :=
  match text.toList with
  | '\x7b' :: body =>
    match body.dropWhile (· != '\x7d') with
    | _ :: part =>
      ⟨some (String.ofList (body.takeWhile (· != '\x7d'))), String.ofList part⟩
    | [] => plain text
  | _ => plain text

end Name

/-! ## 3. Attributes -/

/-- Attributes in the order they are written. -/
abbrev Attributes := List (Name × String)

namespace Attributes

/-- The value of the first attribute of that name. -/
def value? (attributes : Attributes) (name : Name) : Option String :=
  attributes.lookup name

/-- Gives an attribute a value: in place where the name is present, else at the end. -/
def set : Attributes → Name → String → Attributes
  | [], name, value => [(name, value)]
  | (key, old) :: rest, name, value =>
    if key = name then (key, value) :: rest else (key, old) :: set rest name value

end Attributes

end Intertext.Markup
