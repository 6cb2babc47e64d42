import Intertext.Compile.Inline
import Intertext.Proofs.Compile.Spaceless
/-!
What is in an element that was put together.

Filling, passing on, appending and inserting put elements next to one another and give some of
them another tail. Whatever holds of the parts and does not depend on tails holds of the children
of what is made of them; its name and its attributes are those it had before.
-/

namespace Intertext

/-- Whether no two attributes of an element have the same name. -/
def Markup.Element.HasDistinctKeys (element : Markup.Element) : Prop :=
  (element.attributes.map (·.1)).Nodup

namespace Compile

open Markup (Element Name Node Attributes)

/-! ## 1. Tags

Attributes are a list in the order of the file, and giving one a value changes it where it stands or
adds it at the end. None of the ways to put elements together changes a name or an attribute of the
element that the others go into. -/

/-- An attribute has the value it was given. -/
@[simp] theorem value?_set (name : Name) (value : String) : ∀ attributes : Attributes,
    (attributes.set name value).value? name = some value
  | [] => by simp [Attributes.set, Attributes.value?]
  | (key, old) :: rest => by
    have below := value?_set name value rest
    rw [Attributes.value?] at below
    -- The search stops where the value is set, at the first attribute of the name.
    by_cases same : key = name
    · simp [Attributes.set, Attributes.value?, same]
    · simp [Attributes.set, Attributes.value?, same, List.lookup_cons, beq_eq_false_iff_ne.mpr
        (Ne.symm same), below]

/-- Giving an attribute a value leaves the other attributes as they are. -/
theorem value?_set_of_ne {name other : Name} (value : String) (differ : other ≠ name) :
    ∀ attributes : Attributes, (attributes.set name value).value? other = attributes.value? other
  | [] => by
    simp [Attributes.set, Attributes.value?, List.lookup_cons, beq_eq_false_iff_ne.mpr differ]
  | (key, old) :: rest => by
    have below := value?_set_of_ne value differ rest
    rw [Attributes.value?, Attributes.value?] at below
    by_cases same : key = name
    · simp [Attributes.set, Attributes.value?, same, List.lookup_cons, beq_eq_false_iff_ne.mpr
        differ]
    · simp [Attributes.set, Attributes.value?, same, List.lookup_cons, below]

/-- An element has the value it was given. -/
theorem value?_setValue (element : Element) (name : Name) (value : String) :
    (element.setValue name value).value? name = some value := value?_set ..

/-- Giving an element a value leaves its other values as they are. -/
theorem value?_setValue_of_ne (element : Element) {name other : Name} (value : String)
    (differ : other ≠ name) : (element.setValue name value).value? other = element.value? other :=
  value?_set_of_ne value differ _

/-- Elements with the same attributes have the same values. -/
theorem value?_congr {element other : Element} (attributes : other.attributes = element.attributes)
    (name : Name) : other.value? name = element.value? name :=
  congrArg (·.value? name) attributes

/-- An element with the attributes of a node has their values. -/
theorem value?_of_node {element : Element} {node : Node}
    (attributes : element.attributes = node.attributes) (name : Name) :
    element.value? name = node.value? name :=
  congrArg (·.value? name) attributes

/-- An attribute is there after one was given a value only if it is that one or was there before. -/
theorem mem_set {name : Name} {value : String} {item : Name × String} :
    ∀ {attributes : Attributes}, item ∈ attributes.set name value →
      item = (name, value) ∨ item ∈ attributes
  | [], member => Or.inl (List.mem_singleton.mp member)
  | (key, old) :: rest, member => by
    rw [Attributes.set] at member
    split at member
    · rename_i same
      subst same
      exact (List.mem_cons.mp member).imp_right (List.mem_cons_of_mem _)
    · rcases List.mem_cons.mp member with rfl | member
      · exact Or.inr List.mem_cons_self
      · exact (mem_set member).imp_right (List.mem_cons_of_mem _)

/-- Giving an attribute a value doubles no name. -/
theorem nodup_set (name : Name) (value : String) : ∀ {attributes : Attributes},
    (attributes.map (·.1)).Nodup → ((attributes.set name value).map (·.1)).Nodup
  | [], _ => List.nodup_cons.mpr ⟨List.not_mem_nil, List.nodup_nil⟩
  | (key, old) :: rest, distinct => by
    rw [List.map_cons, List.nodup_cons] at distinct
    rw [Attributes.set]
    split
    · exact List.nodup_cons.mpr distinct
    · rename_i differ
      -- The only name that can be new is the one that was set, and the first attribute has another.
      refine List.nodup_cons.mpr ⟨fun member => ?_, nodup_set name value distinct.2⟩
      obtain ⟨item, isItem, sameKey⟩ := List.mem_map.mp member
      rcases mem_set isItem with rfl | isThere
      · exact differ sameKey.symm
      · exact distinct.1 (List.mem_map.mpr ⟨item, isThere, sameKey⟩)

/-- Giving an element a value doubles no attribute. -/
theorem distinctKeys_setValue {element : Element} (distinct : element.HasDistinctKeys)
    (name : Name) (value : String) : (element.setValue name value).HasDistinctKeys :=
  nodup_set name value distinct

/-- Whether names of attributes are distinct depends on the attributes alone. -/
theorem distinctKeys_congr {element other : Element} (distinct : element.HasDistinctKeys)
    (attributes : other.attributes = element.attributes) : other.HasDistinctKeys := by
  unfold Element.HasDistinctKeys
  rw [attributes]
  exact distinct

@[simp] theorem name_pushText (element : Element) (text : String) :
    (element.pushText text).name = element.name := by
  unfold Element.pushText
  split <;> rfl

@[simp] theorem attributes_pushText (element : Element) (text : String) :
    (element.pushText text).attributes = element.attributes := by
  unfold Element.pushText
  split <;> rfl

@[simp] theorem name_fill (element : Element) (pieces : List Piece) :
    (fill element pieces).name = element.name := by
  induction pieces generalizing element with
  | nil => rfl
  | cons first rest ih => exact (ih _).trans (name_pushText ..)

@[simp] theorem attributes_fill (element : Element) (pieces : List Piece) :
    (fill element pieces).attributes = element.attributes := by
  induction pieces generalizing element with
  | nil => rfl
  | cons first rest ih => exact (ih _).trans (attributes_pushText ..)

@[simp] theorem name_append (element : Element) (items : List Item) :
    (append element items).name = element.name := by
  induction items generalizing element with
  | nil => rfl
  | cons first rest ih =>
    cases first with
    | text text => exact (ih _).trans (name_pushText ..)
    | element child => exact ih _

@[simp] theorem attributes_append (element : Element) (items : List Item) :
    (append element items).attributes = element.attributes := by
  induction items generalizing element with
  | nil => rfl
  | cons first rest ih =>
    cases first with
    | text text => exact (ih _).trans (attributes_pushText ..)
    | element child => exact ih _

@[simp] theorem name_insertNotes (notes : List Element) (element : Element) :
    (insertNotes notes element).name = element.name := by
  unfold insertNotes
  split <;> rfl

@[simp] theorem attributes_insertNotes (notes : List Element) (element : Element) :
    (insertNotes notes element).attributes = element.attributes := by
  unfold insertNotes
  split <;> rfl

/-! ## 2. Children

An element that is put in gets another tail whenever text follows it, so only properties that do not
ask for the tail can be handed on. `stable` says this of a property of elements. The lemmas follow
the functions that put elements together: each goes through the pieces in order, and the children
there are before a piece have the property already. -/

section

variable {P : Element → Prop}
  (stable : ∀ (element : Element) (tail : String), P element → P { element with tail })

include stable

/-- Text after elements goes into the tail of the last. -/
theorem forall_mem_extendLast {elements : List Element} {text : String}
    (all : ∀ element ∈ elements, P element) : ∀ element ∈ extendLast elements text, P element := by
  rcases List.eq_nil_or_concat elements with rfl | ⟨before, last, rfl⟩
  · exact all
  · rw [List.concat_eq_append, extendLast_concat]
    rw [List.concat_eq_append] at all
    intro element member
    rcases List.mem_append.mp member with member | member
    · exact all element (List.mem_append_left _ member)
    · cases List.mem_singleton.mp member
      exact stable last _ (all last (List.mem_append_right _ List.mem_cons_self))

/-- What is passed on is what the pieces show. -/
theorem forall_mem_passOn {pieces : List Piece}
    (all : ∀ piece ∈ pieces, ∀ element ∈ piece.elements, P element) :
    ∀ element ∈ passOn pieces, P element := by
  refine List.foldlRecOn (motive := fun elements => ∀ element ∈ elements, P element) pieces _
    (fun element none => by cases none) fun before allBefore piece isPiece => ?_
  refine forall_mem_extendLast stable ?_
  intro element member
  rcases List.mem_append.mp member with member | member
  · exact allBefore element member
  · exact all piece isPiece element member

/-- Text that is added is text of the element or of a child's tail. -/
theorem forall_children_pushText {element : Element} {text : String}
    (all : ∀ child ∈ element.children, P child) :
    ∀ child ∈ (element.pushText text).children, P child := by
  by_cases empty : element.children = []
  · rw [Element.pushText, empty]
    rw [empty] at all
    exact all
  · rw [pushText_of_ne_nil element text empty]
    exact forall_mem_extendLast stable all

/-- The children of a filled element are its own and those of the pieces. -/
theorem forall_children_fill {element : Element} {pieces : List Piece}
    (own : ∀ child ∈ element.children, P child)
    (all : ∀ piece ∈ pieces, ∀ element ∈ piece.elements, P element) :
    ∀ child ∈ (fill element pieces).children, P child := by
  refine List.foldlRecOn (motive := fun (element : Element) => ∀ child ∈ element.children, P child)
    pieces _ own fun before allBefore piece isPiece => ?_
  refine forall_children_pushText stable ?_
  intro child member
  rcases List.mem_append.mp member with member | member
  · exact allBefore child member
  · exact all piece isPiece child member

/-- The children of an element with items after it are its own and those among the items. -/
theorem forall_children_append {element : Element} {items : List Item}
    (own : ∀ child ∈ element.children, P child) (all : ∀ child, .element child ∈ items → P child) :
    ∀ child ∈ (append element items).children, P child := by
  refine List.foldlRecOn (motive := fun (element : Element) => ∀ child ∈ element.children, P child)
    items _ own fun before allBefore item isItem => ?_
  cases item with
  | text text => exact forall_children_pushText stable allBefore
  | element child =>
    intro other member
    rcases List.mem_append.mp member with member | member
    · exact allBefore other member
    · cases List.mem_singleton.mp member
      exact all child isItem

/-- The children of an element with notes are the notes and its own, and the last note has the
element's text as its tail. -/
theorem forall_children_insertNotes {notes : List Element} {element : Element}
    (own : ∀ child ∈ element.children, P child) (all : ∀ note ∈ notes, P note) :
    ∀ child ∈ (insertNotes notes element).children, P child := by
  rcases List.eq_nil_or_concat notes with rfl | ⟨before, last, rfl⟩
  · exact own
  · rw [List.concat_eq_append] at all ⊢
    rw [insertNotes, setLastTail?_concat]
    intro child member
    -- The notes come first, and only the last of them has a new tail.
    rcases List.mem_append.mp member with member | member
    · rcases List.mem_append.mp member with member | member
      · exact all child (List.mem_append_left _ member)
      · cases List.mem_singleton.mp member
        exact stable last _ (all last (List.mem_append_right _ List.mem_cons_self))
    · exact own child member

end

end Compile

end Intertext
