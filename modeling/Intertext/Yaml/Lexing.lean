import Intertext.Yaml.Folding
import Intertext.Yaml.Tag
/-!
Lexing a YAML text.

A text is read character by character: `Lexing.step` takes one character, and may look at those that
follow. Two things are kept track of besides the lexeme that is being read. The first is the columns
of the lists and tables without brackets: what begins further left than one of them ends it. The
second is where a key may have begun, on every level of brackets: a colon on the same line, not too
far away, makes it one. What begins in the column of a table must be a key.
-/

namespace Intertext.Yaml

/-! ## 1. The state of reading -/

/-- A place where a key may have begun. -/
structure Candidate where
  line : Nat
  column : Nat
  /-- How many bytes come before it. -/
  offset : Nat
  /-- How many lexemes come before it. -/
  before : Nat
  /-- It must be a key. -/
  due : Bool
deriving DecidableEq, Repr

/-- What is being read. Texts have their last character first. -/
inductive Mode where
  /-- Nothing: a lexeme may begin. -/
  | between
  | comment
  /-- A plain scalar. -/
  | plain (text : List Char) (gap : Gap)
  /-- A scalar in single quotes. -/
  | single (text : List Char) (gap : Gap)
  /-- A quote within single quotes, which the next one makes a character. -/
  | singleQuote (text : List Char)
  /-- A scalar in double quotes. -/
  | double (text : List Char) (gap : Gap)
  /-- A backslash within double quotes. -/
  | escape (text : List Char)
  /-- Digits of a code point within double quotes: how many are to come, and their value so far. -/
  | digits (text : List Char) (count value : Nat)
  /-- The rest of the line on which a scalar in lines of its own is announced. -/
  | header (lines : Lines)
  /-- A scalar in lines of its own. -/
  | lines (lines : Lines)
  /-- The rest of a lexeme that has been read already. -/
  | skip (count : Nat)
deriving DecidableEq, Repr

/-- What has been read. -/
structure Lexing where
  lexemes : Array Lexeme
  line : Nat
  column : Nat
  /-- How many bytes come before the next character. -/
  offset : Nat
  /-- The columns of the lists and tables without brackets that are open, innermost first. -/
  columns : List Nat
  /-- Where a key may have begun within the innermost brackets. -/
  candidate : Option Candidate
  /-- The same for what is around them, level by level. -/
  around : List (Option Candidate)
  /-- A key may begin here, and without brackets an entry. -/
  fresh : Bool
  /-- The numbers of the names that anchors have. -/
  names : List (String × Nat)
  mode : Mode
deriving Repr

namespace Lexing

def start : Lexing := ⟨#[], 0, 0, 0, [], none, [], true, [], .between⟩

/-- Whether brackets are open. -/
def inFlow (state : Lexing) : Bool := !state.around.isEmpty

/-- The least column of what belongs to the innermost list or table without brackets. -/
def margin (state : Lexing) : Nat :=
  match state.columns with
  | [] => 0
  | column :: _ => column + 1

/-! ## 2. Lists and tables without brackets -/

/-- Adds a lexeme. -/
def emit (state : Lexing) (lexeme : Lexeme) : Lexing :=
  { state with lexemes := state.lexemes.push lexeme }

/-- Begins a list or a table in a column, unless brackets are open or one has begun there. Its mark
is put before the lexeme with the number `place`. -/
def roll (state : Lexing) (column place : Nat) (lexeme : Lexeme) : Lexing :=
  if state.inFlow || column < state.margin then state
  else
    { state with
      lexemes := state.lexemes.insertIdxIfInBounds place lexeme
      columns := column :: state.columns }

/-- Ends all lists and tables that begin right of a column, unless brackets are open; without a
column it ends all. -/
def unroll (state : Lexing) (column : Option Nat) : Lexing :=
  if state.inFlow then state
  else
    let ended := state.columns.takeWhile fun other => column.all (· < other)
    { state with
      lexemes := state.lexemes ++ ended.map fun _ => Lexeme.columnEnd
      columns := state.columns.drop ended.length }

/-! ## 3. Keys -/

/-- How many bytes may stand between the beginning of a key and its colon. -/
def keyLimit : Nat := 1024

/-- Gives up the place where a key may have begun; there must be none where a key is due. -/
def release (state : Lexing) : Option Lexing :=
  if state.candidate.any (·.due) then none else some { state with candidate := none }

/-- Notes that a key may begin here, if it may. -/
def propose (state : Lexing) : Option Lexing :=
  if state.fresh then
    state.release.map fun state =>
      { state with
        candidate := some {
          line := state.line
          column := state.column
          offset := state.offset
          before := state.lexemes.size
          due := !state.inFlow && state.columns.head? = some state.column } }
  else some state

/-- Whether a colon here makes a key of what began at a place. -/
def reaches (state : Lexing) (candidate : Candidate) : Bool :=
  candidate.line = state.line && state.offset ≤ candidate.offset + keyLimit

/-- Adds a colon after a key that began at a place. -/
def colonAfter (state : Lexing) (key : Candidate) : Lexing :=
  let state := { state with
    lexemes := state.lexemes.insertIdxIfInBounds key.before .key
    candidate := none
    fresh := false }
  (state.roll key.column key.before .tableBegin).emit .value

/-- Adds a colon after something else: the key was marked as one, or there is none. -/
def colonAlone (state : Lexing) : Option Lexing :=
  if state.inFlow then some ({ state with fresh := false }.emit .value)
  else if state.fresh then
    some ((state.roll state.column state.lexemes.size .tableBegin).emit .value)
  else none

/-- Adds a colon. -/
def colon (state : Lexing) : Option Lexing :=
  match state.candidate with
  | none => state.colonAlone
  | some candidate =>
    if state.reaches candidate then some (state.colonAfter candidate)
    else state.release.bind colonAlone

/-- Adds the mark of a key. -/
def keyMark (state : Lexing) : Option Lexing :=
  if !state.inFlow && !state.fresh then none
  else
    (state.roll state.column state.lexemes.size .tableBegin).release.map fun state =>
      { state with fresh := !state.inFlow }.emit .key

/-- Adds the dash of an entry. -/
def entry (state : Lexing) : Option Lexing :=
  if !state.inFlow && !state.fresh then none
  else
    (state.roll state.column state.lexemes.size .listBegin).release.map fun state =>
      { state with fresh := true }.emit .entry

/-! ## 4. Other indicators -/

/-- Adds a comma. -/
def comma (state : Lexing) : Option Lexing :=
  state.release.map fun state => { state with fresh := true }.emit .comma

/-- Adds an opening bracket. -/
def opening (state : Lexing) (bracket : Lexeme) : Option Lexing :=
  state.propose.map fun state =>
    { state with
      candidate := none
      around := state.candidate :: state.around
      fresh := true }.emit bracket

/-- Adds a closing bracket. -/
def closing (state : Lexing) (bracket : Lexeme) : Option Lexing :=
  state.release.map fun state =>
    { state with
      candidate := state.around.head?.getD none
      around := state.around.tail
      fresh := false }.emit bracket

/-- Ends all lists and tables for a line of its own, whose rest is read in that mode. -/
def wholeLine (state : Lexing) (lexeme : Lexeme) (mode : Mode) : Option Lexing :=
  (state.unroll none).release.map fun state =>
    { state with fresh := false, mode }.emit lexeme

/-- Adds a lexeme of more than one character that may begin a key. -/
def property (state : Lexing) (lexeme : Lexeme) (count : Nat) : Option Lexing :=
  state.propose.map fun state =>
    { state with fresh := false, mode := if count = 0 then .between else .skip count }.emit lexeme

/-- Begins a scalar that may be a key. -/
def scalar (state : Lexing) (mode : Mode) : Option Lexing :=
  state.propose.map fun state => { state with fresh := false, mode }

/-- Adds the scalar that was being read. -/
def endScalar (state : Lexing) (style : Style) (text : String) : Lexing :=
  { state with mode := .between }.emit (.scalar style text)

/-- Adds the plain scalar that was being read. After a line break a key may begin. -/
def endPlain (state : Lexing) (text : List Char) (gap : Gap) : Lexing :=
  { state with fresh := state.fresh || gap.isFolded }.endScalar .plain (String.ofList text.reverse)

/-- Adds the quoted scalar that was being read. -/
def endQuoted (state : Lexing) (text : List Char) : Lexing :=
  state.endScalar .quoted (String.ofList text.reverse)

/-! ## 5. Where a lexeme may begin -/

/-- The mark of a document that a line begins with, given its first character and what follows. -/
def documentMark? (c : Char) : List Char → Option Lexeme
  | second :: third :: rest =>
    if second = c && third = c && blankAhead rest then
      if c = '-' then some .documentStart
      else if c = '.' then some .documentEnd
      else none
    else none
  | _ => none

/-- Whether a line begins here with the mark of a document. -/
def atDocumentMark (state : Lexing) (c : Char) (ahead : List Char) : Bool :=
  state.column = 0 && (documentMark? c ahead).isSome

/-- Whether a word of an anchor or a reference may be followed by a text. -/
def endsName (text : List Char) : Bool :=
  blankAhead text || text.head?.any ("?:,]\x7d%@\x60".toList.contains ·)

/-- The name that a text begins with. -/
def name? (text : List Char) : Option String :=
  let name := text.takeWhile isWord
  if name.isEmpty || !endsName (text.drop name.length) then none else some (String.ofList name)

/-- Takes the mark of an anchor. Its number is how many names are known before it. -/
def anchor (state : Lexing) (ahead : List Char) : Option Lexing := do
  let name ← name? ahead
  let number := state.names.length
  let state ← state.property (.anchor number) name.length
  return { state with names := (name, number) :: state.names.filter (·.1 ≠ name) }

/-- Takes the mark of a reference to an anchor. -/
def aliased (state : Lexing) (ahead : List Char) : Option Lexing := do
  let name ← name? ahead
  state.property (.aliased (← state.names.lookup name)) name.length

/-- Takes the exclamation mark of a tag. -/
def tag (state : Lexing) (ahead : List Char) : Option Lexing := do
  let (tag, left) ← tag? ahead
  if blankAhead left || state.inFlow && left.head? = some ',' then
    state.property tag (ahead.length - left.length)
  else none

/-- Takes the mark of a scalar in lines of its own. -/
def linesMark (state : Lexing) (style : Style) (ahead : List Char) : Option Lexing := do
  let (ending, shift) ← Lines.header? (ahead.takeWhile (!isBreak ·))
  let column := shift.map fun shift => state.columns.head?.getD 0 + shift
  let state ← state.release
  return { state with fresh := true, mode := .header (.start style ending column) }

/-- Characters with which no plain scalar begins. -/
def isReserved (c : Char) : Bool := ",[]\x7b\x7d#&*!|>'\"%@\x60".toList.contains c

/-- Takes the first character of a lexeme. -/
def stepFirst (state : Lexing) (c : Char) (ahead : List Char) : Option Lexing :=
  if state.column = 0 && c = '%' then
    (directive? (ahead.takeWhile (!isBreak ·))).bind (state.wholeLine · .comment)
  else if state.column = 0 && (documentMark? c ahead).isSome then
    (documentMark? c ahead).bind (state.wholeLine · (.skip 2))
  else if c = '[' then state.opening .openList
  else if c = '\x7b' then state.opening .openTable
  else if c = ']' then state.closing .closeList
  else if c = '\x7d' then state.closing .closeTable
  else if c = ',' then state.comma
  else if c = '-' && blankAhead ahead then state.entry
  else if c = '?' && (state.inFlow || blankAhead ahead) then state.keyMark
  else if c = ':' && (state.inFlow || blankAhead ahead) then state.colon
  else if c = '*' then state.aliased ahead
  else if c = '&' then state.anchor ahead
  else if c = '!' then state.tag ahead
  else if c = '|' && !state.inFlow then state.linesMark .literal ahead
  else if c = '>' && !state.inFlow then state.linesMark .folded ahead
  else if c = '\'' then state.scalar (.single [] .none)
  else if c = '"' then state.scalar (.double [] .none)
  else if isBlank c || isReserved c then none
  else state.scalar (.plain [c] .none)

/-- Takes a character between lexemes. A byte order mark may begin a line. A tab may not stand where
a key or an entry may begin, except within brackets. -/
def stepBetween (state : Lexing) (c : Char) (ahead : List Char) : Option Lexing :=
  if state.column = 0 && c = '\uFEFF' then some state
  else if c = ' ' || c = '\t' && (state.inFlow || !state.fresh) then some state
  else if isBreak c then some { state with fresh := state.fresh || !state.inFlow }
  else if c = '#' then some { state with mode := .comment }
  else (state.unroll (some state.column)).stepFirst c ahead

/-! ## 6. Scalars -/

/-- Whether a plain scalar ends before a character that follows a gap. -/
def endsAfter (state : Lexing) (gap : Gap) (c : Char) (ahead : List Char) : Bool :=
  gap.isFolded && !state.inFlow && state.column < state.margin ||
    state.atDocumentMark c ahead || c = '#'

/-- Whether a plain scalar ends before a character. -/
def endsBefore (state : Lexing) (c : Char) (ahead : List Char) : Bool :=
  c = ':' && blankAhead ahead || state.inFlow && isFlowEnd c

/-- Takes a character after the first one of a plain scalar. -/
def stepPlain (state : Lexing) (text : List Char) (gap : Gap) (c : Char) (ahead : List Char) :
    Option Lexing :=
  if isBreak c then some { state with mode := .plain text (gap.newline c) }
  else if c = '\t' && gap.isFolded && state.column < state.margin then none
  else if isBlank c then some { state with mode := .plain text (gap.blank c) }
  else if !gap.isEmpty && state.endsAfter gap c ahead then
    (state.endPlain text gap).stepBetween c ahead
  else if state.inFlow && c = ':' && flowAhead ahead then none
  else if state.endsBefore c ahead then (state.endPlain text gap).stepBetween c ahead
  else some { state with mode := .plain (c :: (gap.characters ++ text)) .none }

/-- Takes a character within single quotes. -/
def stepSingle (state : Lexing) (text : List Char) (gap : Gap) (c : Char) (ahead : List Char) :
    Option Lexing :=
  if isBreak c then some { state with mode := .single text (gap.newline c) }
  else if isBlank c then some { state with mode := .single text (gap.blank c) }
  else if state.atDocumentMark c ahead then none
  else
    let text := gap.characters ++ text
    if c = '\'' then
      if ahead.head? = some '\'' then some { state with mode := .singleQuote text }
      else some (state.endQuoted text)
    else some { state with mode := .single (c :: text) .none }

/-- Takes a character within double quotes. -/
def stepDouble (state : Lexing) (text : List Char) (gap : Gap) (c : Char) (ahead : List Char) :
    Option Lexing :=
  if isBreak c then some { state with mode := .double text (gap.newline c) }
  else if isBlank c then some { state with mode := .double text (gap.blank c) }
  else if state.atDocumentMark c ahead then none
  else
    let text := gap.characters ++ text
    if c = '"' then some (state.endQuoted text)
    else if c = '\\' then some { state with mode := .escape text }
    else some { state with mode := .double (c :: text) .none }

/-- Takes the character after a backslash. -/
def stepEscape (state : Lexing) (text : List Char) (c : Char) : Option Lexing :=
  if isBreak c then some { state with mode := .double text .escaped }
  else if c = 'x' then some { state with mode := .digits text 2 0 }
  else if c = 'u' then some { state with mode := .digits text 4 0 }
  else if c = 'U' then some { state with mode := .digits text 8 0 }
  else (escaped? c).map fun c => { state with mode := .double (c :: text) .none }

/-- Takes a digit of a code point. -/
def stepDigits (state : Lexing) (text : List Char) (count value : Nat) (c : Char) :
    Option Lexing := do
  let value := value * 16 + (← Text.digit? 16 c)
  if count ≤ 1 then
    if value.isValidChar then some { state with mode := .double (Char.ofNat value :: text) .none }
    else none
  else some { state with mode := .digits text (count - 1) value }

/-- Adds the scalar in lines of its own that was being read. -/
def endLines (state : Lexing) (lines : Lines) : Lexing :=
  state.endScalar lines.style lines.toString

/-- Takes a character of a scalar in lines of its own. The first line that is not blank says in
which column all lines begin: that of what is widest so far, but no less than what the scalar
belongs to asks for. A line that begins elsewhere ends the scalar. -/
def stepLines (state : Lexing) (lines : Lines) (c : Char) (ahead : List Char) : Option Lexing :=
  if lines.within then
    if isBreak c then
      some { state with mode := .lines { lines with within := false, lineEnd := c } }
    else some { state with mode := .lines { lines with text := c :: lines.text } }
  else if c = ' ' && lines.isLeft state.column then
    some { state with mode := .lines { lines with widest := max lines.widest (state.column + 1) } }
  else if c = '\t' && lines.isLeft state.column then none
  else if isBreak c then
    some { state with mode := .lines { lines with blankLines := c :: lines.blankLines } }
  else
    let column := lines.column.getD (max lines.widest (max state.margin 1))
    if state.column = column then
      some { state with mode := .lines ({ lines with column := some column }.addLine c) }
    else (state.endLines lines).stepBetween c ahead

/-! ## 7. All characters -/

/-- Takes a character, in what is being read. -/
def stepMode (state : Lexing) (c : Char) (ahead : List Char) : Option Lexing :=
  match state.mode with
  | .between => state.stepBetween c ahead
  | .comment =>
    if isBreak c then { state with mode := .between }.stepBetween c ahead else some state
  | .plain text gap => state.stepPlain text gap c ahead
  | .single text gap => state.stepSingle text gap c ahead
  | .singleQuote text => some { state with mode := .single (c :: text) .none }
  | .double text gap => state.stepDouble text gap c ahead
  | .escape text => state.stepEscape text c
  | .digits text count value => state.stepDigits text count value c
  | .header lines => some (if isBreak c then { state with mode := .lines lines } else state)
  | .lines lines => state.stepLines lines c ahead
  | .skip count =>
    some { state with mode := if count ≤ 1 then .between else .skip (count - 1) }

/-- Goes on to the place after a character. -/
def advance (state : Lexing) (c : Char) : Lexing :=
  let offset := state.offset + c.utf8Size
  if isBreak c then { state with line := state.line + 1, column := 0, offset }
  else { state with column := state.column + 1, offset }

/-- Takes a character. -/
def step (state : Lexing) (c : Char) (ahead : List Char) : Option Lexing :=
  (state.stepMode c ahead).map (·.advance c)

/-- Ends the scalar that is being read at the end of the text. -/
def endMode (state : Lexing) : Option Lexing :=
  match state.mode with
  | .between | .comment | .skip _ => some state
  | .plain text gap => some (state.endPlain text gap)
  | .header lines | .lines lines => some (state.endLines lines)
  | _ => none

/-- The lexemes, once all characters have been taken. -/
def finish (state : Lexing) : Option (List Lexeme) := do
  let state ← state.endMode
  let state ← (state.unroll none).release
  return state.lexemes.toList

/-- Takes characters to the end. -/
def run (state : Lexing) : List Char → Option (List Lexeme)
  | [] => state.finish
  | c :: rest => do run (← state.step c rest) rest

end Lexing

/-- The lexemes of a text. -/
def lexemes? (text : String) : Option (List Lexeme) :=
  if text.toList.all isAllowed then Lexing.start.run (normalized text.toList) else none

end Intertext.Yaml
