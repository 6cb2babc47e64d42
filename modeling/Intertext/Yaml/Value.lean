import Intertext.Yaml.Lexeme
/-!
Values of a YAML text.

A value is a scalar, a list, a table, or a reference to a value that has an anchor, which may stand
around the reference itself. `Document.seen` looks through anchors and references.
-/

namespace Intertext.Yaml

/-! ## 1. Values -/

/-- A value. -/
inductive Value where
  | scalar (style : Style) (tag text : String)
  | list (items : List Value)
  | table (entries : List (Value × Value))
  /-- A reference to the value with that anchor. -/
  | aliased (number : Nat)
  | anchored (number : Nat) (value : Value)
deriving Repr

namespace Value

/-- The value that stands for nothing: a plain scalar without characters. -/
def nothing : Value := .scalar .plain "" ""

mutual

/-- The values with anchors within a value, in order. -/
def anchors : Value → List (Nat × Value)
  | scalar _ _ _ => []
  | list items => anchorsOfItems items
  | table entries => anchorsOfEntries entries
  | aliased _ => []
  | anchored number value => (number, value) :: anchors value

/-- The values with anchors within the items of a list. -/
def anchorsOfItems : List Value → List (Nat × Value)
  | [] => []
  | item :: items => anchors item ++ anchorsOfItems items

/-- The values with anchors within the entries of a table. -/
def anchorsOfEntries : List (Value × Value) → List (Nat × Value)
  | [] => []
  | (key, value) :: entries => anchors key ++ anchors value ++ anchorsOfEntries entries

end

end Value

/-! ## 2. Documents -/

/-- A value that references within it are to be looked up in. -/
structure Document where
  root : Value
deriving Repr

namespace Document

/-- The value with an anchor: the last one of several. -/
def anchored? (document : Document) (number : Nat) : Option Value :=
  document.root.anchors.reverse.lookup number

/-- A value without its anchor, and what a reference refers to. -/
def seen (document : Document) : Value → Value
  | .anchored _ value => value
  | .aliased number => (document.anchored? number).getD .nothing
  | value => value

/-- The text of a scalar. -/
def text? (document : Document) (value : Value) : Option String :=
  match document.seen value with
  | .scalar _ _ text => some text
  | _ => none

/-- The items of a list; nothing is a list without items. -/
def items? (document : Document) (value : Value) : Option (List Value) :=
  match document.seen value with
  | .list items => some items
  | .scalar .plain _ "" => some []
  | _ => none

/-- The entries of a table, whose keys must be scalars; nothing is a table without entries. -/
def entries? (document : Document) (value : Value) : Option (List (String × Value)) :=
  match document.seen value with
  | .table entries => entries.mapM fun (key, value) => return (← document.text? key, value)
  | .scalar .plain _ "" => some []
  | _ => none

end Document

end Intertext.Yaml
