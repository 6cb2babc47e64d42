import Intertext.Index.Tables
import Intertext.Urn.Range
/-!
Resolving identifiers.

An identifier is looked up by its body, in the project that qualifies it or else in all projects. An
identifier that denotes a range is resolved at both ends, and a project counts only if it defines
both in one file.
-/

namespace Intertext.Index.Tables

/-- Where a mapping says its identifier is. -/
def locationOf (mapping : Mapping) : Location := ⟨mapping.file, mapping.urn, mapping.path⟩

/-- The places where an identifier is defined, by project. A dash in it means nothing here. -/
def resolve (tables : Tables) (urn : String) : List Location :=
  let whole := Urn.Qualified.ofList urn.toList
  (tables.mappingsOf (some (String.ofList whole.body)) (whole.project.map String.ofList)).map
    locationOf

/-- The places where both ends of a range are defined, the starts first. -/
def endpoints (tables : Tables) (range : Urn.Range) : List Location × List Location :=
  (tables.resolve range.start, tables.resolve range.stop)

/-- Pairs each start with the first end in the same file. -/
def paired (starts stops : List Location) : List Resolution :=
  starts.filterMap fun start =>
    (stops.find? (·.file = start.file)).map fun stop => .range start stop

/-- What an identifier denotes, by project. -/
def resolveRange (tables : Tables) (urn : String) : List Resolution :=
  match Urn.splitRange? urn with
  | none => (tables.resolve urn).map .single
  | some range => paired (tables.resolve range.start) (tables.resolve range.stop)

end Intertext.Index.Tables
