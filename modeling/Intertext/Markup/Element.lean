import Intertext.Markup.Name
/-!
The output tree.

An element keeps its character data in two places: `text` is what stands before its first child,
and `tail` is what follows its own end, up to the next sibling. So the characters of a subtree are
its text, then for each child the characters of the child followed by the child's tail.
-/

namespace Intertext.Markup

/-- An element of an output tree. -/
structure Element where
  name : Name
  attributes : Attributes
  text : String
  children : List Element
  tail : String
deriving Repr, Inhabited

namespace Element

/-! ## 1. Building -/

/-- An element with no attributes and no content. -/
def ofName (name : Name) : Element := ⟨name, [], "", [], ""⟩

/-- The value of the first attribute of that name. -/
def value? (element : Element) (name : Name) : Option String :=
  element.attributes.value? name

/-- Gives an attribute a value, in place where the name is present. -/
def setValue (element : Element) (name : Name) (value : String) : Element :=
  { element with attributes := element.attributes.set name value }

/-- Appends a child after the last one. -/
def push (element child : Element) : Element :=
  { element with children := element.children ++ [child] }

/-- Appends characters to the tail of the last element of a forest; `none` for an empty forest. -/
def extendLastTail? (text : String) : List Element → Option (List Element)
  | [] => none
  | [last] => some [{ last with tail := last.tail ++ text }]
  | first :: rest => (extendLastTail? text rest).map (first :: ·)

/-- Appends character data after everything the element holds: to the tail of its last child, or
to its text where it has no child. -/
def pushText (element : Element) (text : String) : Element :=
  match extendLastTail? text element.children with
  | some children => { element with children }
  | none => { element with text := element.text ++ text }

/-- Changes the element reached by child positions; `none` if they lead nowhere. -/
def modifyAt? (change : Element → Element) : List Nat → Element → Option Element
  | [], element => some (change element)
  | position :: rest, element => do
    let child ← element.children[position]?
    let changed ← modifyAt? change rest child
    return { element with children := element.children.set position changed }

/-- The element reached by child positions. -/
def at? : List Nat → Element → Option Element
  | [], element => some element
  | position :: rest, element => do at? rest (← element.children[position]?)

/-! ## 2. Views -/

mutual

/-- The element followed by everything below it, in document order. -/
def preorder : Element → List Element
  | element@⟨_, _, _, children, _⟩ => element :: forestPreorder children

/-- The elements of a forest and everything below them, in document order. -/
def forestPreorder : List Element → List Element
  | [] => []
  | first :: rest => preorder first ++ forestPreorder rest

end

/-- The elements of that name, in document order. -/
def named (element : Element) (name : Name) : List Element :=
  element.preorder.filter (·.name = name)

mutual

/-- The characters of the subtree, without the element's own tail. -/
def characters : Element → String
  | ⟨_, _, text, children, _⟩ => text ++ forestCharacters children

/-- The characters of a forest, every tail included. -/
def forestCharacters : List Element → String
  | [] => ""
  | first :: rest => characters first ++ first.tail ++ forestCharacters rest

end

/-! ## 3. Equality -/

mutual

/-- Decides whether two trees are the same. -/
def decideEq : (a b : Element) → Decidable (a = b)
  | ⟨n, a, t, c, l⟩, ⟨n', a', t', c', l'⟩ =>
    if head : n = n' ∧ a = a' ∧ t = t' ∧ l = l' then
      match decideForestEq c c' with
      | isTrue same => isTrue (by obtain ⟨rfl, rfl, rfl, rfl⟩ := head; subst same; rfl)
      | isFalse differ => isFalse (fun h => differ (by injection h))
    else
      isFalse (fun h => head (by injection h; exact ⟨‹_›, ‹_›, ‹_›, ‹_›⟩))

/-- Decides whether two forests are the same. -/
def decideForestEq : (a b : List Element) → Decidable (a = b)
  | [], [] => isTrue rfl
  | [], _ :: _ => isFalse (by simp)
  | _ :: _, [] => isFalse (by simp)
  | a :: as, b :: bs =>
    match decideEq a b, decideForestEq as bs with
    | isTrue first, isTrue rest => isTrue (by rw [first, rest])
    | isFalse differ, _ => isFalse (fun h => differ (by injection h))
    | _, isFalse differ => isFalse (fun h => differ (by injection h))

end

instance : DecidableEq Element := decideEq

end Element

end Intertext.Markup
