import Intertext.Settings
import Intertext.Text.Digit
import Intertext.Yaml.Reading
/-!
Reading settings.

Settings are written as a table of lists:

    priority:
      transclusion: [wlc, jps1917]
      instructions: [rubrics]
    annotations: [commentary]
    max_depth: 8

Every part may be left out, a key that is not known is ignored, and a known one may come once. Names
of projects are taken as they are written, whatever else the scalar might mean.
-/

namespace Intertext.Settings

open Yaml (Value Document)
open Text (number?)

/-! ## 1. Parts -/

/-- The values of a key, in order. -/
def valuesOf (key : String) (entries : List (String × Value)) : List Value :=
  (entries.filter (·.1 = key)).map (·.2)

/-- Reads the value of a key that may come once, or else takes what is usual. -/
def part? {α : Type} (key : String) (read : Value → Option α) (usual : α)
    (entries : List (String × Value)) : Option α :=
  match valuesOf key entries with
  | [] => some usual
  | [value] => read value
  | _ => none

/-- The names in a list. -/
def names? (document : Document) (value : Value) : Option (List String) := do
  (← document.items? value).mapM document.text?

/-! ## 2. Numbers -/

/-- The digits of a number in decimal, which begin with a zero only if there is no other. -/
def decimal? (digits : List Char) : Option Nat :=
  if digits.head? = some '0' && digits.length > 1 then none else number? 10 digits

/-- The value of a number without a sign, in decimal or in another base that its mark names. -/
def unsigned? : List Char → Option Nat
  | '0' :: 'x' :: digits => number? 16 digits
  | '0' :: 'o' :: digits => number? 8 digits
  | '0' :: 'b' :: digits => number? 2 digits
  | digits => decimal? digits

/-- The least number that 64 bits cannot hold. -/
def limit64 : Nat := 18446744073709551616

/-- The tag of whole numbers. -/
def numberTag : String := "tag:yaml.org,2002:int"

/-- A number that is not negative and fits 64 bits. It is written as a plain scalar, or as a literal
one with the tag of numbers. -/
def number64? (document : Document) (value : Value) : Option Nat :=
  match document.seen value with
  | .scalar style tag text =>
    if style = .plain ∨ style = .literal ∧ tag = numberTag then
      let digits := match text.toList with
        | '+' :: digits => digits
        | digits => digits
      (unsigned? digits).filter (· < limit64)
    else none
  | _ => none

/-! ## 3. Settings -/

/-- The lists that rank projects, for transclusions and for instructions. -/
def priority? (document : Document) (value : Value) : Option (List String × List String) := do
  let names := names? document
  let entries ← document.entries? value
  return (← part? "transclusion" names [] entries, ← part? "instructions" names [] entries)

/-- Settings as a document says them. -/
def ofDocument? (document : Document) : Option Settings := do
  let entries ← document.entries? document.root
  let (transclusion, instructions) ← part? "priority" (priority? document) ([], []) entries
  let annotations ← part? "annotations" (names? document) [] entries
  let maxDepth ← part? "max_depth" (number64? document) usualDepth entries
  return ⟨transclusion, instructions, annotations, maxDepth⟩

/-- Settings as a text says them. -/
def ofText (text : String) : Except SettingsFault Settings :=
  match (Yaml.parse? text).bind ofDocument? with
  | some settings => .ok settings
  | none => .error .malformed

/-- Settings as a file says them. -/
def load (disk : Corpus.Disk) (path : String) : Except SettingsFault Settings :=
  match disk.text path with
  | .ok text => ofText text
  | .error why => .error (.unreadable path why)

end Intertext.Settings
