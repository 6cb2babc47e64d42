import Intertext.Proofs.Markup.Everywhere
/-!
What the path of a node tells of its name.

The last step of a path ends in the local part of the node's name, with the position among earlier
siblings after it, except at the root (`Document.endsIn_of_parse`). So the names of nodes with one
path have much in common (`EndsIn.suffix_or_suffix`), whatever labels they are written with.
-/

namespace Intertext.Markup

open Node (forestPreorder preorder_eq mem_forestPreorder)
open Outcome (bind_eq_ok)

/-! ## 1. Last steps -/

/-- Whether the last step of a path ends in the local part of a name. -/
def EndsIn (path : String) (name : Name) : Prop :=
  ∃ front, path.toList = front ++ name.part.toList ∨
    ∃ position : Nat,
      path.toList = front ++ name.part.toList ++ ('[' :: (toString position).toList ++ [']'])

/-- The path backwards, without the position at its end. -/
def unplaced (path : String) : List Char :=
  match path.toList.reverse with
  | ']' :: rest => (rest.dropWhile (· ≠ '[')).tail
  | rest => rest

/-- A position is written with digits alone. -/
theorem not_mem_toString {c : Char} (notDigit : c.isDigit = false) (position : Nat) :
    c ∉ (toString position).toList := by
  intro member
  rw [Nat.toString_eq_repr, Nat.toList_repr] at member
  have isDigit := Nat.isDigit_of_mem_toDigits (by decide) (by decide) member
  exact absurd (isDigit.symm.trans notDigit) (by decide)

/-- Backwards, a path begins with the local part of the name that its last step ends in. -/
theorem EndsIn.isPrefix_unplaced {path : String} {name : Name} (h : EndsIn path name)
    (noBracket : name.part.toList.getLast? ≠ some ']') :
    name.part.toList.reverse <+: unplaced path := by
  obtain ⟨front, same | ⟨position, same⟩⟩ := h
  · cases backwards : name.part.toList.reverse with
    | nil => exact List.nil_prefix
    | cons last others =>
      have other : last ≠ ']' := by
        rintro rfl
        rw [← List.head?_reverse, backwards] at noBracket
        exact noBracket rfl
      have back : path.toList.reverse = last :: (others ++ front.reverse) := by
        rw [same, List.reverse_append, backwards, List.cons_append]
      unfold unplaced
      rw [back]
      split
      · rename_i rest isBracket
        cases isBracket
        exact absurd rfl other
      · exact List.prefix_append (last :: others) _
  · have back : path.toList.reverse =
        ']' :: ((toString position).toList.reverse ++
          '[' :: (name.part.toList.reverse ++ front.reverse)) := by
      rw [same]
      simp
    have digits (c : Char) (member : c ∈ (toString position).toList.reverse) :
        decide (c ≠ '[') = true := by
      refine decide_eq_true fun isBracket => not_mem_toString (c := '[') (by decide) position ?_
      rw [← isBracket]
      exact List.mem_reverse.mp member
    unfold unplaced
    rw [back]
    show _ <+: (List.dropWhile _ _).tail
    rw [List.dropWhile_append_of_pos digits, List.dropWhile_cons_of_neg (by simp), List.tail_cons]
    exact List.prefix_append _ _

/-- Of two names that one path ends in, the local part of one ends in that of the other. -/
theorem EndsIn.suffix_or_suffix {path : String} {first second : Name} (h : EndsIn path first)
    (h' : EndsIn path second) (noBracket : first.part.toList.getLast? ≠ some ']')
    (noBracket' : second.part.toList.getLast? ≠ some ']') :
    first.part.toList <:+ second.part.toList ∨ second.part.toList <:+ first.part.toList :=
  (List.prefix_or_prefix_of_prefix (h.isPrefix_unplaced noBracket)
    (h'.isPrefix_unplaced noBracket')).imp List.reverse_prefix.mp List.reverse_prefix.mp

/-! ## 2. What a token keeps -/

/-- Whether the last step of the path of each node ends in the node's name. -/
def OpenElement.Pathed (element : OpenElement) : Prop :=
  EndsIn element.path element.name ∧
    ∀ node ∈ forestPreorder element.children, EndsIn node.path node.name

namespace Reading

/-- Whether the last step of the path of each node read so far ends in the node's name. -/
structure Pathed (state : Reading) : Prop where
  root : ∀ root ∈ state.root, ∀ node ∈ root.preorder, EndsIn node.path node.name
  stack : ∀ element ∈ state.stack, element.Pathed

theorem pathed_iff {state : Reading} :
    state.Pathed ↔ state.Everywhere fun path name _ => EndsIn path name :=
  ⟨fun pathed => ⟨pathed.root, pathed.stack⟩, fun holds => ⟨holds.root, holds.stack⟩⟩

theorem splitLabel_suffix (written : List Char) : (Tag.splitLabel written).2 <:+ written := by
  unfold Tag.splitLabel
  split
  · exact List.suffix_refl _
  · rename_i colon part found
    have whole : colon :: part <:+ written := found ▸ List.dropWhile_suffix _
    exact (List.suffix_cons colon part).trans whole

/-- The name as written ends in the local part of the name. -/
theorem part_of_elementName {scope : Scope} {written : List Char} {name : Name}
    (h : Scope.elementName scope written = .ok name) : name.part.toList <:+ written := by
  have suffix := splitLabel_suffix written
  unfold Scope.elementName at h
  split at h
  · rename_i part split
    cases h
    rw [split] at suffix
    simpa using suffix
  · rename_i label part split
    obtain ⟨space, -, h⟩ := bind_eq_ok.mp h
    cases h
    rw [split] at suffix
    simpa using suffix

/-- The path of an element that opens ends in its name. -/
theorem endsIn_of_pathOf {state : Reading} {written : List Char} {name : Name} {path : String}
    (suffix : name.part.toList <:+ written) (h : state.pathOf written name = .ok path) :
    EndsIn path name := by
  obtain ⟨label, rfl⟩ := suffix
  unfold pathOf at h
  split at h
  · rename_i parent outer _
    cases h
    refine ⟨parent.path.toList ++ '/' :: label,
      Or.inr ⟨1 + parent.children.countP (·.name = name), ?_⟩⟩
    simp [OpenElement.childPath]
  · cases h
    exact ⟨'/' :: label, Or.inl (by simp)⟩
  · cases h

theorem Pathed.step {state next : Reading} {token : Token} (pathed : state.Pathed)
    (h : state.step token = .ok next) : next.Pathed := by
  have holds := pathed_iff.mp pathed
  refine pathed_iff.mpr (holds.step (fun {raw opened} entered => ?_) h)
  obtain ⟨scope, name, path, attributes, namespaces, named, placed, rfl⟩ := enter_eq_ok entered
  have ends : EndsIn path name := endsIn_of_pathOf (part_of_elementName named) placed
  exact Reading.Everywhere.open holds ends rfl (state.count + 1) namespaces

end Reading

/-! ## 3. Documents -/

/-- The last step of the path of a node ends in the node's name. -/
theorem Document.endsIn_of_parse {text : String} {document : Document}
    (h : Document.parse text = .ok document) :
    ∀ node ∈ document.nodes, EndsIn node.path node.name := by
  obtain ⟨state, pathed, finished⟩ :=
    Document.parse_induction (Reading.pathed_iff.mpr Reading.everywhere_start) Reading.Pathed.step h
  exact (Reading.pathed_iff.mp pathed).finish finished

end Intertext.Markup
