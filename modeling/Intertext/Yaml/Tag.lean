import Intertext.Text.Digit
import Intertext.Yaml.Character
import Intertext.Yaml.Lexeme
/-!
Tags, and the directives at the head of a document.

A tag says what kind of value follows. It is an address in full, between angle brackets, or a handle
and what is to be added to the address that the handle stands for. Directives say which version of
the format a text has and what handles stand for.
-/

namespace Intertext.Yaml

/-! ## 1. Addresses -/

/-- What an address is made of, apart from escapes. -/
def isAddress (c : Char) : Bool := isWord c || ";/?:@&=+$.!~*'()".toList.contains c

/-- How many octets follow the first one of a character. -/
def octetsAfter? (octet : Nat) : Option Nat :=
  if octet < 0x80 then some 0
  else if 0xC0 ≤ octet ∧ octet < 0xE0 then some 1
  else if 0xE0 ≤ octet ∧ octet < 0xF0 then some 2
  else if 0xF0 ≤ octet ∧ octet < 0xF8 then some 3
  else none

/-- Reads the longest address that a text begins with, and returns what is left. Octets may be
escaped; `due` of them must follow. An escaped octet becomes the character of its number. In full
addresses some characters of brackets may stand too. -/
def address? (full : Bool) (due : Nat) : List Char → Option (List Char × List Char)
  | '%' :: high :: low :: rest => do
    let octet ← Text.octet? high low
    let due ←
      if due = 0 then octetsAfter? octet
      else if 0x80 ≤ octet ∧ octet < 0xC0 then some (due - 1)
      else none
    let (address, left) ← address? full due rest
    return (Char.ofNat octet :: address, left)
  | [] => if due = 0 then some ([], []) else none
  | c :: rest =>
    if due > 0 ∨ c = '%' then none
    else if isAddress c || full && (c == ',' || c == '[' || c == ']') then do
      let (address, left) ← address? full 0 rest
      return (c :: address, left)
    else some ([], c :: rest)

/-- What an address says: an octet of zero ends it. -/
def spoken (address : List Char) : String := String.ofList (address.takeWhile (· ≠ '\x00'))

/-! ## 2. Tags -/

/-- Splits what follows the first exclamation mark of a handle into the rest of the handle and what
is left; the flag says whether an exclamation mark ends the handle. -/
def splitHandle (text : List Char) : List Char × Bool × List Char :=
  let word := text.takeWhile isWord
  match text.drop word.length with
  | '!' :: rest => (word, true, rest)
  | rest => (word, false, rest)

/-- The handle with that word. -/
def handleOf (word : List Char) (ended : Bool) : String :=
  String.ofList ('!' :: word ++ if ended then ['!'] else [])

/-- Reads a tag after its exclamation mark, and returns what is left. -/
def tag? (text : List Char) : Option (Lexeme × List Char) :=
  match text with
  | '<' :: rest => do
    match ← address? true 0 rest with
    | ([], _) => none
    | (address, '>' :: left) => some (.tag "" (spoken address), left)
    | _ => none
  | _ => do
    let (word, ended, rest) := splitHandle text
    let (address, left) ← address? false 0 rest
    if ended then
      if address.isEmpty then none
      else some (.tag (handleOf word true) (spoken address), left)
    else if spoken (word ++ address) = "" then some (.tag "" "!", left)
    else some (.tag "!" (spoken (word ++ address)), left)

/-! ## 3. Directives -/

/-- Reads a number of at most nine digits. -/
def versionNumber? (text : List Char) : Option (Nat × List Char) :=
  let digits := text.takeWhile Char.isDigit
  if digits.isEmpty ∨ 9 < digits.length then none
  else
    some (digits.foldl (fun n c => n * 10 + (c.toNat - '0'.toNat)) 0, text.drop digits.length)

/-- Reads the value of a directive that names a version. -/
def version? (text : List Char) : Option (Lexeme × List Char) := do
  let (major, rest) ← versionNumber? text
  match rest with
  | '.' :: rest =>
    let (minor, left) ← versionNumber? rest
    return (.version major minor, left)
  | _ => none

/-- Reads the value of a directive that says what a handle stands for. -/
def handleValue? (text : List Char) : Option (Lexeme × List Char) :=
  match text with
  | '!' :: rest => do
    let (word, ended, rest) := splitHandle rest
    if !ended && !word.isEmpty then none
    if !rest.head?.any isBlank then none
    let (address, left) ← address? true 0 (rest.dropWhile isBlank)
    if address.isEmpty || !blankAhead left then none
    return (.handle (handleOf word ended) (spoken address), left)
  | _ => none

/-- Reads a directive, given the rest of its line after the percent sign. -/
def directive? (line : List Char) : Option Lexeme := do
  let name := line.takeWhile isWord
  let rest := line.drop name.length
  if !blankAhead rest then none
  let value := rest.dropWhile isBlank
  let (directive, left) ←
    if name = "YAML".toList then version? value
    else if name = "TAG".toList then handleValue? value
    else none
  match left.dropWhile isBlank with
  | [] | '#' :: _ => some directive
  | _ => none

end Intertext.Yaml
