/-!
Lexemes of a YAML text.

A lexeme is an indicator, a scalar, or one of the marks that stand for what the columns of a text
say: where a list or a table that has no brackets begins and ends, and what is a key. With these
marks the text can be read without looking at columns again.
-/

namespace Intertext.Yaml

/-- How a scalar is written. -/
inductive Style where
  | plain
  | quoted
  /-- In lines of its own, which are joined. -/
  | folded
  /-- In lines of its own, which stay as they are. -/
  | literal
deriving DecidableEq, Repr

/-- A lexeme. -/
inductive Lexeme where
  /-- A list begins whose entries begin in one column. -/
  | listBegin
  /-- A table begins whose keys begin in one column. -/
  | tableBegin
  /-- Such a list or table ends. -/
  | columnEnd
  /-- The dash of an entry. -/
  | entry
  /-- What follows is a key. -/
  | key
  /-- The colon before a value. -/
  | value
  | comma
  | openList
  | closeList
  | openTable
  | closeTable
  | scalar (style : Style) (text : String)
  /-- What follows can be referred to. -/
  | anchor (number : Nat)
  /-- A reference to what follows an anchor. -/
  | aliased (number : Nat)
  /-- A tag: the handle and what follows it. A tag in full has an empty handle. -/
  | tag (handle suffix : String)
  /-- A directive that names the version of the format. -/
  | version (major minor : Nat)
  /-- A directive that says what a handle stands for. -/
  | handle (name address : String)
  /-- The line that begins a document. -/
  | documentStart
  /-- The line that ends a document. -/
  | documentEnd
deriving DecidableEq, Repr

end Intertext.Yaml
