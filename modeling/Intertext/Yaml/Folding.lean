import Intertext.Yaml.Character
import Intertext.Yaml.Lexeme
/-!
Scalars over several lines.

In plain and quoted scalars the white space between two words is a gap: blanks around a line break
count for nothing, one line feed is a space, and of more line breaks the first is dropped if it is a
line feed. A scalar in lines of its own begins below its mark, and its lines begin in one column; it
either keeps its line breaks or joins lines in the same way.
-/

namespace Intertext.Yaml

/-! ## 1. Gaps -/

/-- White space within a scalar that has not been taken over yet. -/
structure Gap where
  /-- Blanks on the same line, last one first. -/
  blanks : List Char
  /-- The first line break. -/
  first : Option Char
  /-- The other line breaks, last one first. -/
  others : List Char
  /-- The first line break was escaped: what follows is joined without a space. -/
  joined : Bool
deriving DecidableEq, Repr

namespace Gap

def none : Gap := ⟨[], .none, [], false⟩

/-- The gap after an escaped line break. -/
def escaped : Gap := ⟨[], .none, [], true⟩

/-- Whether there is nothing in a gap. -/
def isEmpty (gap : Gap) : Bool := gap = none

/-- Whether a gap goes over the end of a line. -/
def isFolded (gap : Gap) : Bool := gap.joined || gap.first.isSome

/-- Adds a blank; after a line break blanks do not count. -/
def blank (gap : Gap) (c : Char) : Gap :=
  if gap.isFolded then gap else { gap with blanks := c :: gap.blanks }

/-- Adds a line break. -/
def newline (gap : Gap) (c : Char) : Gap :=
  if gap.isFolded then { gap with others := c :: gap.others } else { gap with first := some c }

/-- The characters that a gap stands for, last one first. -/
def characters (gap : Gap) : List Char :=
  match gap.first with
  | .none => if gap.joined then gap.others else gap.blanks
  | some c =>
    if c ≠ '\n' then gap.others ++ [c]
    else if gap.others.isEmpty then [' ']
    else gap.others

end Gap

/-! ## 2. Scalars in lines of their own -/

/-- What becomes of the line breaks at the end of a scalar. -/
inductive Ending where
  /-- None stays. -/
  | strip
  /-- The first one stays. -/
  | clip
  /-- All stay. -/
  | keep
deriving DecidableEq, Repr

/-- A scalar in lines of its own that is being read. -/
structure Lines where
  style : Style
  ending : Ending
  /-- The column of its lines; unknown before the first line that is not blank. -/
  column : Option Nat
  /-- The most spaces on a line so far. -/
  widest : Nat
  /-- Its characters, last one first. -/
  text : List Char
  /-- The end of the last line, if it has not been taken over yet. -/
  lineEnd : Option Char
  /-- The ends of the blank lines after it, last one first. -/
  blankLines : List Char
  /-- The last line begins with a blank. -/
  indented : Bool
  /-- Its last line has not ended. -/
  within : Bool
deriving DecidableEq, Repr

namespace Lines

/-- A scalar without lines. -/
def start (style : Style) (ending : Ending) (column : Option Nat) : Lines :=
  ⟨style, ending, column, 0, [], none, [], false, false⟩

/-- Whether a column is left of the lines, as far as that is known. -/
def isLeft (lines : Lines) (column : Nat) : Bool := lines.column.all (column < ·)

/-- The line break before a line that begins with `c`, last character first. Lines are joined unless
one of the two begins with a blank. -/
def lineBreak (lines : Lines) (c : Char) : List Char :=
  match lines.lineEnd with
  | none => []
  | some last =>
    if lines.style = .folded && last = '\n' && !lines.indented && !isBlank c then
      if lines.blankLines.isEmpty then [' '] else []
    else [last]

/-- Adds a line that begins with `c`. -/
def addLine (lines : Lines) (c : Char) : Lines :=
  { lines with
    text := c :: (lines.blankLines ++ lines.lineBreak c ++ lines.text)
    lineEnd := none
    blankLines := []
    indented := isBlank c
    within := true }

/-- The text of a scalar without further lines. -/
def toString (lines : Lines) : String :=
  String.ofList <| List.reverse <|
    match lines.ending with
    | .strip => lines.text
    | .clip => lines.lineEnd.toList ++ lines.text
    | .keep => lines.blankLines ++ lines.lineEnd.toList ++ lines.text

/-- What follows the mark of a scalar in lines of its own: how it ends and how much further right
than what it belongs to its lines begin, in either order, and perhaps a comment. -/
def header? (line : List Char) : Option (Ending × Option Nat) :=
  let (ending, shift, rest) := match line with
    | '+' :: rest => after .keep rest
    | '-' :: rest => after .strip rest
    | c :: rest =>
      if c.isDigit then
        match rest with
        | '+' :: rest => (Ending.keep, some c, rest)
        | '-' :: rest => (Ending.strip, some c, rest)
        | rest => (Ending.clip, some c, rest)
      else (Ending.clip, none, line)
    | [] => (Ending.clip, none, [])
  match rest.dropWhile isBlank with
  | [] | '#' :: _ =>
    if shift = some '0' then none else some (ending, shift.map fun c => c.toNat - '0'.toNat)
  | _ => none
where
  /-- A digit may follow the mark of the end. -/
  after (ending : Ending) (rest : List Char) : Ending × Option Char × List Char :=
    match rest with
    | c :: rest => if c.isDigit then (ending, some c, rest) else (ending, none, c :: rest)
    | [] => (ending, none, [])

end Lines

end Intertext.Yaml
