import Intertext.Markup.Name
import Intertext.Markup.Tag
/-!
Namespace declarations in scope.

A scope is a list of bindings, innermost first. The empty label stands for the default declaration,
which names elements only. A binding to the empty namespace takes an outer one back: an element
without a label then has no namespace, and a label is unknown.
-/

namespace Intertext.Markup

/-- A label bound to a namespace, by a declaration or once and for all. -/
structure Binding where
  label : String
  space : String
deriving DecidableEq, Repr

/-- The bindings that hold at a place in a document, innermost first. -/
abbrev Scope := List Binding

namespace Scope

/-- The bindings that hold everywhere. -/
def initial : Scope := [⟨"xmlns", xmlnsSpace⟩, ⟨"xml", xmlSpace⟩]

/-! ## 1. Declaring -/

/-- The label an attribute declares: `some none` for the default, `none` where the attribute is no
declaration. -/
def declared? (key : List Char) : Option (Option (List Char)) :=
  match key with
  | ['x', 'm', 'l', 'n', 's'] => some none
  | 'x' :: 'm' :: 'l' :: 'n' :: 's' :: ':' :: label => some (some label)
  | _ => none

/-- Adds one declaration. The labels `xml` and `xmlns` and their namespaces belong together; the
first may be declared once more as it is. -/
def declare (scope : Scope) (label space : String) : Except BindingFault Scope :=
  if label = "xml" then
    if space = xmlSpace then .ok scope else .error .xmlLabel
  else if label = "xmlns" then .error .xmlnsLabel
  else if space = xmlSpace then .error .xmlSpaceLabel
  else if space = xmlnsSpace then .error .xmlnsSpaceLabel
  else .ok (⟨label, space⟩ :: scope)

/-- Adds the declarations among attributes, in order; the namespace is the value as written. -/
def declareAll (scope : Scope) : List RawAttribute → Except BindingFault Scope
  | [] => .ok scope
  | item :: rest =>
    match declared? item.key with
    | none => declareAll scope rest
    | some none => declareAll (⟨"", String.ofList item.value⟩ :: scope) rest
    | some (some label) => do
      let scope ← declare scope (String.ofList label) (String.ofList item.value)
      declareAll scope rest

/-! ## 2. Resolving -/

/-- The namespace of the innermost binding of a label. -/
def find? (scope : Scope) (label : String) : Option String :=
  (List.find? (·.label = label) scope).map (·.space)

/-- The namespace of elements without a label. -/
def default? (scope : Scope) : Option String :=
  (find? scope "").filter (· ≠ "")

/-- The namespace a label names. -/
def labelled (scope : Scope) (label : String) : Except Fault String :=
  match find? scope label with
  | some space =>
    if label = "" ∨ space = "" then .error (.unknownLabel label) else .ok space
  | none => .error (.unknownLabel label)

/-- The name of an element. -/
def elementName (scope : Scope) (written : List Char) : Except Fault Name :=
  match Tag.splitLabel written with
  | (none, part) => .ok ⟨scope.default?, String.ofList part⟩
  | (some label, part) => do
    return ⟨some (← scope.labelled (String.ofList label)), String.ofList part⟩

/-- The name of an attribute: without a label it has no namespace. -/
def attributeName (scope : Scope) (written : List Char) : Except Fault Name :=
  match Tag.splitLabel written with
  | (none, part) => .ok ⟨none, String.ofList part⟩
  | (some label, part) => do
    return ⟨some (← scope.labelled (String.ofList label)), String.ofList part⟩

end Scope

end Intertext.Markup
