import Intertext.Markup.Document
/-!
What compilation does with an element, told from its name and its `type`.
-/

namespace Intertext.Compile

open Markup (Node Name)

/-- What an element is to compilation. -/
inductive Role where
  /-- A directive: it is replaced by what it points at. -/
  | directive
  /-- An instruction: a project listed earlier may have a better one. -/
  | instruction
  /-- A note on what it points at. -/
  | commentary
  | plain
deriving DecidableEq, Repr

/-- How a directive takes over what it points at. -/
inductive Extraction where
  /-- With its structure. -/
  | external
  /-- Its text only. -/
  | inline
deriving DecidableEq, Repr

/-- The type a wrapper of that extraction has. -/
def Extraction.label : Extraction → String
  | external => "external"
  | inline => "inline"

/-- The type of an element. -/
def typeOf? (node : Node) : Option String := node.value? (.plain "type")

/-- The role of an element. -/
def Role.of (node : Node) : Role :=
  if node.name = .link "transclude" then .directive
  else if node.name = .tei "note" then
    if typeOf? node = some "instruction" then .instruction else .commentary
  else .plain

/-- The extraction a directive asks for: everything but `inline` is external. -/
def Extraction.of (node : Node) : Extraction :=
  if typeOf? node = some "inline" then .inline else .external

/-- Whether an element marks a place in the text without holding the text. -/
def isMilestone (node : Node) : Bool := node.name = .tei "milestone"

end Intertext.Compile
