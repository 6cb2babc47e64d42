import Intertext.Markup.Fault
import Intertext.Text.Digit
/-!
Character references.

`escape` writes the five characters that markup gives a meaning to as references by name; `expand`
reads references by name and by number. Expanding undoes escaping (`expand_escape`), so character
data and attribute values may hold any characters.
-/

namespace Intertext.Markup.Text

open Intertext.Text (number?)

/-! ## 1. Writing -/

/-- How one character is written. -/
def escapeChar : Char → List Char
  | '<' => "&lt;".toList
  | '>' => "&gt;".toList
  | '&' => "&amp;".toList
  | '\'' => "&apos;".toList
  | '"' => "&quot;".toList
  | c => [c]

/-- Character data or an attribute value as it is written in a document. -/
def escape (text : String) : String :=
  String.ofList (text.toList.flatMap escapeChar)

/-! ## 2. Reading -/

/-- The character of a code point: every scalar value but zero. -/
def scalar? (code : Nat) : Option Char :=
  if h : code ≠ 0 ∧ code.isValidChar then some (Char.ofNatAux code h.2) else none

/-- The character a reference stands for, given what is between its ampersand and semicolon. -/
def entity (name : List Char) : Except EntityFault Char :=
  match name with
  | '#' :: 'x' :: digits =>
    match number? 16 digits >>= scalar? with
    | some c => .ok c
    | none => .error .invalidNumber
  | '#' :: digits =>
    match number? 10 digits >>= scalar? with
    | some c => .ok c
    | none => .error .invalidNumber
  | ['l', 't'] => .ok '<'
  | ['g', 't'] => .ok '>'
  | ['a', 'm', 'p'] => .ok '&'
  | ['a', 'p', 'o', 's'] => .ok '\''
  | ['q', 'u', 'o', 't'] => .ok '"'
  | _ => .error (.unrecognized (String.ofList name))

/-- Expands the references of a text. The first argument is what has been read of an open
reference, last character first; a reference ends at the next semicolon, and no ampersand may come
before that. -/
def expandFrom : Option (List Char) → List Char → Except EntityFault (List Char)
  | none, [] => .ok []
  | some _, [] => .error .unterminated
  | none, '&' :: rest => expandFrom (some []) rest
  | none, c :: rest => return c :: (← expandFrom none rest)
  | some _, '&' :: _ => .error .unterminated
  | some name, ';' :: rest => do
    let c ← entity name.reverse
    return c :: (← expandFrom none rest)
  | some name, c :: rest => expandFrom (some (c :: name)) rest

/-- The characters a written text stands for. -/
def expand (raw : List Char) : Except EntityFault (List Char) :=
  expandFrom none raw

/-! ## 3. Reading what was written -/

theorem expandFrom_escapeChar (c : Char) (rest : List Char) :
    expandFrom none (escapeChar c ++ rest) = (expandFrom none rest).map (c :: ·) := by
  unfold escapeChar
  split <;> simp_all [expandFrom, entity, Except.map, bind, Except.bind, pure, Except.pure]

theorem expand_flatMap_escapeChar (text : List Char) :
    expand (text.flatMap escapeChar) = .ok text := by
  induction text with
  | nil => rfl
  | cons c rest ih =>
    unfold expand at ih ⊢
    rw [List.flatMap_cons, expandFrom_escapeChar, ih]
    rfl

/-- Expanding gives back what was escaped. -/
theorem expand_escape (text : String) : expand (escape text).toList = .ok text.toList := by
  simp [escape, expand_flatMap_escapeChar]

end Intertext.Markup.Text
