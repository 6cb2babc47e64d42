import Intertext.Yaml.Lexing
import Intertext.Yaml.Value
/-!
Reading a YAML text.

The lexemes of a text tell where lists and tables begin and end, with and without brackets. Every
function returns what is left of them together with a proof that it is less, so that the recursion
ends with the text.
-/

namespace Intertext.Yaml

/-! ## 1. What is left -/

/-- What is left of lexemes after one or more have been taken. -/
abbrev Less (lexemes : List Lexeme) := { rest : List Lexeme // rest.length < lexemes.length }

/-- What is left of lexemes after some have been taken, or none. -/
abbrev NotMore (lexemes : List Lexeme) := { rest : List Lexeme // rest.length ≤ lexemes.length }

/-! ## 2. Properties -/

/-- What handles stand for. -/
abbrev Handles := List (String × String)

/-- What may stand before a value. -/
structure Properties where
  anchor : Option Nat
  tag : Option (String × String)
deriving DecidableEq, Repr

namespace Properties

/-- The properties that lexemes begin with; there is at least one. -/
def of? (lexemes : List Lexeme) : Option (Properties × Less lexemes) :=
  match lexemes with
  | .anchor number :: .tag handle suffix :: rest =>
    some (⟨some number, some (handle, suffix)⟩, ⟨rest, by simp only [List.length_cons]; omega⟩)
  | .tag handle suffix :: .anchor number :: rest =>
    some (⟨some number, some (handle, suffix)⟩, ⟨rest, by simp only [List.length_cons]; omega⟩)
  | .anchor number :: rest => some (⟨some number, none⟩, ⟨rest, Nat.lt_succ_self _⟩)
  | .tag handle suffix :: rest => some (⟨none, some (handle, suffix)⟩, ⟨rest, Nat.lt_succ_self _⟩)
  | _ => none

/-- The tag in full, or no characters if there is none. A handle must be known. -/
def tag? (handles : Handles) (properties : Properties) : Option String :=
  match properties.tag with
  | none => some ""
  | some (handle, suffix) =>
    if handle = "" then some suffix else (handles.lookup handle).map (· ++ suffix)

/-- A value with the anchor. -/
def mark (properties : Properties) (value : Value) : Value :=
  match properties.anchor with
  | none => value
  | some number => .anchored number value

end Properties

/-! ## 3. Values -/

/-- Which values may stand somewhere. -/
inductive Place where
  /-- Within brackets. -/
  | flow
  /-- Where columns count. -/
  | block
  /-- In a table where columns count: here a list may begin in the column of the table. -/
  | entry
deriving DecidableEq, Repr

/-- Whether a value, its properties apart, can begin with a lexeme. -/
def begins (place : Place) : Lexeme → Bool
  | .scalar _ _ | .openList | .openTable => true
  | .listBegin | .tableBegin => place ≠ .flow
  | .entry => place = .entry
  | _ => false

/-- Whether a lexeme ends an item without a value in a list where columns count. -/
def endsItem (lexeme : Lexeme) : Bool := lexeme = .entry || lexeme = .columnEnd

/-- Whether a lexeme ends a key or a value that is left out in a table where columns count. -/
def endsEntry (lexeme : Lexeme) : Bool :=
  lexeme = .key || lexeme = .value || lexeme = .columnEnd

/-- Whether a lexeme ends an item without a value in a list in the column of a table. -/
def endsBareItem (lexeme : Lexeme) : Bool := endsItem lexeme || endsEntry lexeme

/-- Whether a lexeme ends a value that is left out in a list in brackets. -/
def endsFlowItem (lexeme : Lexeme) : Bool := lexeme = .comma || lexeme = .closeList

/-- Whether a lexeme ends a value that is left out in a table in brackets. -/
def endsFlowEntry (lexeme : Lexeme) : Bool := lexeme = .comma || lexeme = .closeTable

/-- Whether a lexeme ends a key that is left out in a table in brackets. -/
def endsFlowKey (lexeme : Lexeme) : Bool := endsFlowEntry lexeme || lexeme = .value

mutual

/-- A value. After properties there may be nothing. -/
def value? (handles : Handles) (place : Place) (lexemes : List Lexeme) :
    Option (Value × Less lexemes) :=
  match lexemes with
  | .aliased number :: rest => some (.aliased number, ⟨rest, Nat.lt_succ_self _⟩)
  | lexemes =>
    match Properties.of? lexemes with
    | none => content? handles place "" lexemes
    | some (properties, ⟨left, h⟩) => do
      let tag ← properties.tag? handles
      if left.head?.any (begins place) then
        let (value, ⟨rest, h'⟩) ← content? handles place tag left
        some (properties.mark value, ⟨rest, Nat.lt_trans h' h⟩)
      else some (properties.mark (.scalar .plain tag ""), ⟨left, h⟩)
termination_by (lexemes.length, 2)

/-- A value after its properties. -/
def content? (handles : Handles) (place : Place) (tag : String) (lexemes : List Lexeme) :
    Option (Value × Less lexemes) :=
  match lexemes with
  | .scalar style text :: rest => some (.scalar style tag text, ⟨rest, Nat.lt_succ_self _⟩)
  | .openList :: rest => do
    let (items, ⟨left, h⟩) ← flowItems? handles rest
    some (.list items, ⟨left, Nat.lt_succ_of_lt h⟩)
  | .openTable :: rest => do
    let (entries, ⟨left, h⟩) ← flowEntries? handles rest
    some (.table entries, ⟨left, Nat.lt_succ_of_lt h⟩)
  | .listBegin :: rest =>
    if place = .flow then none
    else do
      let (items, ⟨left, h⟩) ← items? handles rest
      some (.list items, ⟨left, Nat.lt_succ_of_lt h⟩)
  | .tableBegin :: rest =>
    if place = .flow then none
    else do
      let (entries, ⟨left, h⟩) ← entries? handles rest
      some (.table entries, ⟨left, Nat.lt_succ_of_lt h⟩)
  | .entry :: rest =>
    if place = .entry then do
      let (item, ⟨left, h⟩) ← optional? handles .block endsBareItem rest
      let (items, ⟨left', h'⟩) ← bareItems? handles left
      some (.list (item :: items), ⟨left', Nat.lt_succ_of_le (Nat.le_trans h' h)⟩)
    else none
  | _ => none
termination_by (lexemes.length, 1)

/-- A value, or nothing before a lexeme that ends an entry. -/
def optional? (handles : Handles) (place : Place) (ends : Lexeme → Bool) (lexemes : List Lexeme) :
    Option (Value × NotMore lexemes) :=
  if lexemes.head?.any ends then some (.nothing, ⟨lexemes, Nat.le_refl _⟩)
  else do
    let (value, ⟨left, h⟩) ← value? handles place lexemes
    some (value, ⟨left, Nat.le_of_lt h⟩)
termination_by (lexemes.length, 3)

/-- A value after a colon; without a colon there is nothing. -/
def afterColon? (handles : Handles) (place : Place) (ends : Lexeme → Bool)
    (lexemes : List Lexeme) : Option (Value × NotMore lexemes) :=
  match lexemes with
  | .value :: rest => do
    let (value, ⟨left, h⟩) ← optional? handles place ends rest
    some (value, ⟨left, Nat.le_succ_of_le h⟩)
  | lexemes => some (.nothing, ⟨lexemes, Nat.le_refl _⟩)
termination_by (lexemes.length, 0)

/-- The items of a list whose entries begin in one column, up to its end. -/
def items? (handles : Handles) (lexemes : List Lexeme) : Option (List Value × Less lexemes) :=
  match lexemes with
  | .columnEnd :: rest => some ([], ⟨rest, Nat.lt_succ_self _⟩)
  | .entry :: rest => do
    let (item, ⟨left, h⟩) ← optional? handles .block endsItem rest
    let (items, ⟨left', h'⟩) ← items? handles left
    some (item :: items, ⟨left', Nat.lt_succ_of_lt (Nat.lt_of_lt_of_le h' h)⟩)
  | _ => none
termination_by (lexemes.length, 0)

/-- The items of a list in the column of the table around it, as long as there are any. -/
def bareItems? (handles : Handles) (lexemes : List Lexeme) :
    Option (List Value × NotMore lexemes) :=
  match lexemes with
  | .entry :: rest => do
    let (item, ⟨left, h⟩) ← optional? handles .block endsBareItem rest
    let (items, ⟨left', h'⟩) ← bareItems? handles left
    some (item :: items, ⟨left', Nat.le_succ_of_le (Nat.le_trans h' h)⟩)
  | lexemes => some ([], ⟨lexemes, Nat.le_refl _⟩)
termination_by (lexemes.length, 0)

/-- The entries of a table whose keys begin in one column, up to its end. -/
def entries? (handles : Handles) (lexemes : List Lexeme) :
    Option (List (Value × Value) × Less lexemes) :=
  match lexemes with
  | .columnEnd :: rest => some ([], ⟨rest, Nat.lt_succ_self _⟩)
  | .key :: rest => do
    let (key, ⟨left, h⟩) ← optional? handles .entry endsEntry rest
    let (value, ⟨left', h'⟩) ← afterColon? handles .entry endsEntry left
    let (entries, ⟨last, h''⟩) ← entries? handles left'
    some ((key, value) :: entries,
      ⟨last, Nat.lt_succ_of_lt (Nat.lt_of_lt_of_le h'' (Nat.le_trans h' h))⟩)
  | _ => none
termination_by (lexemes.length, 0)

/-- The items of a list in brackets after its opening bracket or a comma, up to the closing one. An
item may be a table of one entry without brackets of its own. Where the key of that table is left
out, the lexeme in its place is passed over. -/
def flowItems? (handles : Handles) (lexemes : List Lexeme) : Option (List Value × Less lexemes) :=
  match lexemes with
  | .closeList :: rest => some ([], ⟨rest, Nat.lt_succ_self _⟩)
  | .key :: .value :: rest | .key :: .comma :: rest | .key :: .closeList :: rest => do
    let (value, ⟨left, h⟩) ← afterColon? handles .flow endsFlowItem rest
    let (items, ⟨left', h'⟩) ← moreItems? handles left
    some (.table [(.nothing, value)] :: items,
      ⟨left', by simp only [List.length_cons]; omega⟩)
  | .key :: rest => do
    let (key, ⟨left, h⟩) ← value? handles .flow rest
    let (value, ⟨left', h'⟩) ← afterColon? handles .flow endsFlowItem left
    let (items, ⟨last, h''⟩) ← moreItems? handles left'
    some (.table [(key, value)] :: items, ⟨last, by simp only [List.length_cons]; omega⟩)
  | lexemes => do
    let (item, ⟨left, h⟩) ← value? handles .flow lexemes
    let (items, ⟨last, h'⟩) ← moreItems? handles left
    some (item :: items, ⟨last, Nat.lt_trans h' h⟩)
termination_by (lexemes.length, 3)

/-- What follows an item of a list in brackets. -/
def moreItems? (handles : Handles) (lexemes : List Lexeme) : Option (List Value × Less lexemes) :=
  match lexemes with
  | .closeList :: rest => some ([], ⟨rest, Nat.lt_succ_self _⟩)
  | .comma :: rest => do
    let (items, ⟨left, h⟩) ← flowItems? handles rest
    some (items, ⟨left, Nat.lt_succ_of_lt h⟩)
  | _ => none
termination_by (lexemes.length, 0)

/-- The entries of a table in brackets after its opening bracket or a comma, up to the closing one.
A key without a mark has no value. -/
def flowEntries? (handles : Handles) (lexemes : List Lexeme) :
    Option (List (Value × Value) × Less lexemes) :=
  match lexemes with
  | .closeTable :: rest => some ([], ⟨rest, Nat.lt_succ_self _⟩)
  | .key :: rest => do
    let (key, ⟨left, h⟩) ← optional? handles .flow endsFlowKey rest
    let (value, ⟨left', h'⟩) ← afterColon? handles .flow endsFlowEntry left
    let (entries, ⟨last, h''⟩) ← moreEntries? handles left'
    some ((key, value) :: entries, ⟨last, by simp only [List.length_cons]; omega⟩)
  | lexemes => do
    let (key, ⟨left, h⟩) ← value? handles .flow lexemes
    let (entries, ⟨last, h'⟩) ← moreEntries? handles left
    some ((key, .nothing) :: entries, ⟨last, Nat.lt_trans h' h⟩)
termination_by (lexemes.length, 3)

/-- What follows an entry of a table in brackets. -/
def moreEntries? (handles : Handles) (lexemes : List Lexeme) :
    Option (List (Value × Value) × Less lexemes) :=
  match lexemes with
  | .closeTable :: rest => some ([], ⟨rest, Nat.lt_succ_self _⟩)
  | .comma :: rest => do
    let (entries, ⟨left, h⟩) ← flowEntries? handles rest
    some (entries, ⟨left, Nat.lt_succ_of_lt h⟩)
  | _ => none
termination_by (lexemes.length, 0)

end

/-! ## 4. Documents -/

/-- What handles stand for unless directives say otherwise. -/
def usualHandles : Handles := [("!", "!"), ("!!", "tag:yaml.org,2002:")]

/-- Takes the directives before the line that begins a document, and that line. There is at most one
version, which must be 1.1 or 1.2, and no handle is said twice. -/
def directives? (versioned : Bool) (handles : Handles) :
    List Lexeme → Option (Handles × List Lexeme)
  | .documentStart :: rest => some (handles ++ usualHandles, rest)
  | .version major minor :: rest =>
    if versioned ∨ major ≠ 1 ∨ minor ≠ 1 ∧ minor ≠ 2 then none else directives? true handles rest
  | .handle name address :: rest =>
    if (handles.lookup name).isSome then none
    else directives? versioned (handles ++ [(name, address)]) rest
  | _ => none

/-- Whether a lexeme stands at the head or at the end of a document. -/
def bounds : Lexeme → Bool
  | .version _ _ | .handle _ _ | .documentStart | .documentEnd => true
  | _ => false

/-- The value of a document whose head has been taken, and what is left. -/
def body? (handles : Handles) (lexemes : List Lexeme) : Option (Value × List Lexeme) :=
  if lexemes.head?.all bounds then some (.nothing, lexemes)
  else (value? handles .block lexemes).map fun (value, left) => (value, left.val)

/-- The value of the first document, and what is left. -/
def first? (lexemes : List Lexeme) : Option (Value × List Lexeme) :=
  match lexemes with
  | [] => some (.nothing, [])
  | .documentEnd :: _ => none
  | first :: rest =>
    if bounds first then do
      let (handles, body) ← directives? false [] (first :: rest)
      body? handles body
    else body? usualHandles (first :: rest)

/-- The only document of a text; a second one is refused, and an end without a document. A text
without lexemes is nothing. -/
def document? (lexemes : List Lexeme) : Option Document := do
  let (root, left) ← first? lexemes
  if left.all (· = .documentEnd) then some ⟨root⟩ else none

/-- The document of a text. -/
def parse? (text : String) : Option Document := (lexemes? text).bind document?

end Intertext.Yaml
