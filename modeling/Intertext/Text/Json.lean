/-!
Reports in JSON.

A report is a number, a text, a list or a table with its fields in a fixed order. It is written over
several lines, two spaces deeper at each level; a list or a table without anything in it is written
on one line. Of the characters of a text only quotes, backslashes and control characters are
escaped.
-/

namespace Intertext.Text

/-- A report. -/
inductive Json where
  | null
  | number (value : Nat)
  | text (value : String)
  | list (items : List Json)
  | table (fields : List (String × Json))
deriving Repr

namespace Json

/-- A text, or nothing. -/
def ofOption : Option String → Json
  | some value => text value
  | none => null

/-! ## 1. Texts -/

/-- A digit in base sixteen. -/
def hexDigit (n : Nat) : Char :=
  if n < 10 then Char.ofNat (n + '0'.toNat) else Char.ofNat (n - 10 + 'a'.toNat)

/-- How one character of a text is written. -/
def writeChar (c : Char) : List Char :=
  if c = '"' then "\\\"".toList
  else if c = '\\' then "\\\\".toList
  else if c = '\n' then "\\n".toList
  else if c = '\r' then "\\r".toList
  else if c = '\t' then "\\t".toList
  else if c = '\x08' then "\\b".toList
  else if c = '\x0c' then "\\f".toList
  else if c.toNat < 32 then
    "\\u00".toList ++ [hexDigit (c.toNat / 16), hexDigit (c.toNat % 16)]
  else [c]

/-- A text in quotes. -/
def quote (value : String) : String :=
  "\"" ++ String.ofList (value.toList.flatMap writeChar) ++ "\""

/-! ## 2. Lines -/

/-- The space before a line at that level. -/
def indent (level : Nat) : String := String.ofList (List.replicate (2 * level) ' ')

/-- Lines at a level between brackets. -/
def bracket (opening closing : String) (level : Nat) (lines : List String) : String :=
  if lines.isEmpty then opening ++ closing
  else
    opening ++ "\n" ++ ",\n".intercalate (lines.map (indent (level + 1) ++ ·)) ++ "\n" ++
      indent level ++ closing

mutual

/-- A report at that level. -/
def pretty (level : Nat) : Json → String
  | null => "null"
  | number value => toString value
  | text value => quote value
  | list items => bracket "[" "]" level (prettyItems (level + 1) items)
  | table fields => bracket "\x7b" "\x7d" level (prettyFields (level + 1) fields)

/-- The items of a list. -/
def prettyItems (level : Nat) : List Json → List String
  | [] => []
  | first :: rest => pretty level first :: prettyItems level rest

/-- The fields of a table. -/
def prettyFields (level : Nat) : List (String × Json) → List String
  | [] => []
  | (name, value) :: rest =>
    (quote name ++ ": " ++ pretty level value) :: prettyFields level rest

end

/-- The text of a report. -/
def render (report : Json) : String := pretty 0 report

end Json

end Intertext.Text
