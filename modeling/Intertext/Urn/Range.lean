import Intertext.Text.Cutting
/-!
Identifiers with a project and with a range.

An identifier may end in a qualifier, the last `@` and the project after it. What stands before is
its body, components separated by slashes. The body denotes a range when a component after the first
holds a dash: the last such component is split at its first dash. What stands before the dash
completes the start; what stands after it, with the components that follow, takes the place of as
many components at the end of the start:

    bible/genesis/1/1-2      starts at bible/genesis/1/1   ends at bible/genesis/1/2
    bible/genesis/1/1-2/3    starts at bible/genesis/1/1   ends at bible/genesis/2/3
-/

namespace Intertext.Urn

open Text (pieces joined splitFirst? splitLast?)

/-! ## 1. Qualifiers -/

/-- An identifier as a body and the project that qualifies it. -/
structure Qualified where
  body : List Char
  project : Option (List Char)
deriving DecidableEq, Repr

namespace Qualified

/-- Takes an identifier apart. -/
def ofList (urn : List Char) : Qualified :=
  match splitLast? '@' urn with
  | some (body, project) => ⟨body, some project⟩
  | none => ⟨urn, none⟩

/-- Puts an identifier together. -/
def toList : Qualified → List Char
  | ⟨body, some project⟩ => body ++ '@' :: project
  | ⟨body, none⟩ => body

end Qualified

/-! ## 2. Ranges -/

/-- The two ends of a range. -/
structure Range where
  start : String
  stop : String
deriving DecidableEq, Repr

/-- Splits components at the last one that holds a dash: those before it, and itself with those
after it. -/
def lastDashed? : List (List Char) → Option (List (List Char) × List Char × List (List Char))
  | [] => none
  | first :: rest =>
    match lastDashed? rest with
    | some (before, dashed, after) => some (first :: before, dashed, after)
    | none => if '-' ∈ first then some ([], first, rest) else none

/-- The components of both ends of a range. A dash in the first component, which holds the scheme,
marks no range. -/
def splitComponents? : List (List Char) → Option (List (List Char) × List (List Char))
  | [] => none
  | scheme :: path => do
    let (before, dashed, after) ← lastDashed? path
    let (last, first) ← splitFirst? '-' dashed
    let replacement := first :: after
    let start := scheme :: before ++ [last]
    return (start, start.take (start.length - replacement.length) ++ replacement)

/-- The ends of the range an identifier denotes, each with the identifier's qualifier; `none` for an
identifier that denotes no range. -/
def splitRange? (urn : String) : Option Range :=
  let whole := Qualified.ofList urn.toList
  (splitComponents? (pieces '/' whole.body)).map fun (start, stop) =>
    let part := fun components =>
      String.ofList (Qualified.toList ⟨joined '/' components, whole.project⟩)
    ⟨part start, part stop⟩

end Intertext.Urn
