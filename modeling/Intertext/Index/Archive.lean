import Intertext.Index.Tables
import Intertext.Text.Cutting
/-!
The tables of the index as a text.

The text begins with a line that says what it is. After it there is a line for each row, with a tab
between its fields: what kind of row it is, when it was written, and its columns. A field holds no
tab and no line break, since both are written as a backslash and a letter. A column that may be open
is empty if it is, and else has a plus sign in front of it.
-/

namespace Intertext.Index.Archive

/-! ## 1. Fields -/

/-- A field with its tabs, line breaks and backslashes written as two characters. -/
def encodeField : List Char → List Char
  | [] => []
  | '\\' :: rest => '\\' :: '\\' :: encodeField rest
  | '\t' :: rest => '\\' :: 't' :: encodeField rest
  | '\n' :: rest => '\\' :: 'n' :: encodeField rest
  | c :: rest => c :: encodeField rest

/-- Reads a field; a backslash before any other character stands for both. -/
def decodeField : List Char → List Char
  | [] => []
  | '\\' :: '\\' :: rest => '\\' :: decodeField rest
  | '\\' :: 't' :: rest => '\t' :: decodeField rest
  | '\\' :: 'n' :: rest => '\n' :: decodeField rest
  | c :: rest => c :: decodeField rest

/-- A field is read as it was written. -/
theorem decodeField_encodeField (text : List Char) : decodeField (encodeField text) = text := by
  fun_induction encodeField text with
  | case1 => rfl
  | case2 rest ih => simp [decodeField, ih]
  | case3 rest ih => simp [decodeField, ih]
  | case4 rest ih => simp [decodeField, ih]
  | case5 c rest slash tab newline ih => rw [decodeField, ih] <;> simp_all

/-- A written field does not hold what stands between fields, nor what stands between lines. -/
theorem separator_not_mem_encodeField (text : List Char) :
    '\t' ∉ encodeField text ∧ '\n' ∉ encodeField text := by
  fun_induction encodeField text with
  | case1 => simp
  | case2 rest ih => simpa using ih
  | case3 rest ih => simpa using ih
  | case4 rest ih => simpa using ih
  | case5 c rest slash tab newline ih => simp_all [eq_comm]

/-! ## 2. Lines -/

/-- A line from its fields. -/
def encodeLine (fields : List String) : String :=
  "\t".intercalate (fields.map fun field => String.ofList (encodeField field.toList))

/-- The fields of a line. -/
def decodeLine (line : List Char) : List String :=
  (Text.pieces '\t' line).map fun field => String.ofList (decodeField field)

/-- A column that may be open as a field. -/
def optionField : Option String → String
  | none => ""
  | some text => "+" ++ text

/-- A column that may be open from its field. -/
def option? (field : String) : Option (Option String) :=
  match field.toList with
  | [] => some none
  | '+' :: text => some (some (String.ofList text))
  | _ => none

/-! ## 3. Rows -/

def mappingLine (row : Stamped Mapping) : List String :=
  ["mapping", toString row.stamp, row.row.urn, row.row.file.project, row.row.file.name,
    optionField row.row.path, optionField row.row.tag, optionField row.row.kind]

def referenceLine (row : Stamped Reference) : List String :=
  ["reference", toString row.stamp, row.row.path, row.row.tag, optionField row.row.kind,
    row.row.targetStart, row.row.targetEnd, if row.row.isLocal then "local" else "",
    optionField row.row.corresp, row.row.file.project, row.row.file.name]

def fileLine (row : Stamped SourceFile) : List String :=
  ["file", toString row.stamp, row.row.project, row.row.name]

/-- The text of tables, line by line. -/
def lines (tables : Tables) : List (List String) :=
  tables.mappings.map mappingLine ++ tables.references.map referenceLine ++
    tables.ledger.map fileLine

/-- Adds the row of a line after those there are. -/
def addLine? (tables : Tables) : List String → Option Tables
  | ["mapping", stamp, urn, project, name, path, tag, kind] => do
    let mapping : Mapping := ⟨urn, ⟨project, name⟩, ← option? path, ← option? tag, ← option? kind⟩
    return { tables with mappings := tables.mappings ++ [⟨mapping, ← stamp.toNat?⟩] }
  | ["reference", stamp, path, tag, kind, start, stop, place, corresp, project, name] => do
    let reference : Reference :=
      ⟨path, tag, ← option? kind, start, stop, place = "local", ← option? corresp, ⟨project, name⟩⟩
    return { tables with references := tables.references ++ [⟨reference, ← stamp.toNat?⟩] }
  | ["file", stamp, project, name] => do
    return { tables with ledger := tables.ledger ++ [⟨⟨project, name⟩, ← stamp.toNat?⟩] }
  | _ => none

/-! ## 4. Tables -/

/-- What the text of tables begins with. -/
def title : String := "index of mappings, references and files"

/-- Tables as a text. -/
def encode (tables : Tables) : String :=
  title ++ "\n" ++ String.join ((lines tables).map fun fields => encodeLine fields ++ "\n")

/-- Reads tables from a text. -/
def decode? (text : String) : Option Tables :=
  match Text.pieces '\n' text.toList with
  | first :: rest =>
    if String.ofList first = title then
      ((rest.filter (!·.isEmpty)).map decodeLine).foldlM addLine? Tables.empty
    else none
  | [] => none

end Intertext.Index.Archive
