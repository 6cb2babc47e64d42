import Intertext.Proofs.Markup.Numbering
/-!
What holds of every tag that was read.

The path, the name and the attributes of a node are settled when its start tag is read; what comes
later adds content and closes it. So whatever holds of the tags of all elements that are opened
holds of all open elements and all finished nodes at every moment of reading
(`Reading.Everywhere`), and in the end of all nodes of the document.
-/

namespace Intertext.Markup

open Node (forestPreorder preorder_eq mem_forestPreorder)

variable {P : String → Name → Attributes → Prop}

/-! ## 1. Open elements -/

/-- Whether something holds of the tag of an open element and of the tags of all that has been
finished in it. -/
def OpenElement.Everywhere (P : String → Name → Attributes → Prop) (element : OpenElement) : Prop :=
  P element.path element.name element.attributes ∧
    ∀ node ∈ forestPreorder element.children, P node.path node.name node.attributes

namespace OpenElement.Everywhere

variable {element : OpenElement}

theorem pushText (holds : element.Everywhere P) (text : String) :
    (element.pushText text).Everywhere P := by
  obtain ⟨id, path, name, written, attributes, own, children, scope⟩ := element
  cases children with
  | nil => exact holds
  | cons last earlier =>
    refine ⟨holds.1, ?_⟩
    intro node member
    rcases List.mem_append.mp member with member | member
    · rw [preorder_eq] at member
      have isLast : P last.path last.name last.attributes :=
        holds.2 last (List.mem_append_left _ (Node.mem_preorder_self _))
      rcases List.mem_cons.mp member with rfl | member
      · exact isLast
      · refine holds.2 node (List.mem_append_left _ ?_)
        rw [preorder_eq]
        exact List.mem_cons_of_mem _ member
    · exact holds.2 node (List.mem_append_right _ member)

theorem close (holds : element.Everywhere P) :
    ∀ node ∈ element.close.preorder, P node.path node.name node.attributes := by
  intro node member
  rw [preorder_eq] at member
  rcases List.mem_cons.mp member with rfl | member
  · exact holds.1
  · obtain ⟨child, isChild, below⟩ := mem_forestPreorder.mp member
    exact holds.2 node (mem_forestPreorder.mpr ⟨child, List.mem_reverse.mp isChild, below⟩)

theorem push (holds : element.Everywhere P) {child : Node}
    (inside : ∀ node ∈ child.preorder, P node.path node.name node.attributes) :
    (element.push child).Everywhere P := by
  refine ⟨holds.1, ?_⟩
  intro node member
  rcases List.mem_append.mp member with member | member
  · exact inside node member
  · exact holds.2 node member

end OpenElement.Everywhere

/-! ## 2. The state of reading -/

namespace Reading

/-- Whether something holds of all tags that have been read. -/
structure Everywhere (P : String → Name → Attributes → Prop) (state : Reading) : Prop where
  root : ∀ root ∈ state.root, ∀ node ∈ root.preorder, P node.path node.name node.attributes
  stack : ∀ element ∈ state.stack, element.Everywhere P

theorem everywhere_start : start.Everywhere P := ⟨by simp [start], by simp [start]⟩

theorem Everywhere.addText {state : Reading} (holds : state.Everywhere P) (text : String) :
    (state.addText text).Everywhere P := by
  obtain ⟨stack, root, count, namespaces⟩ := state
  cases stack with
  | nil => exact holds
  | cons innermost outer =>
    refine ⟨holds.root, ?_⟩
    intro element member
    rcases List.mem_cons.mp member with rfl | member
    · exact (holds.stack innermost List.mem_cons_self).pushText text
    · exact holds.stack element (List.mem_cons_of_mem _ member)

theorem Everywhere.leave {state : Reading} (holds : state.Everywhere P) :
    state.leave.Everywhere P := by
  obtain ⟨stack, root, count, namespaces⟩ := state
  match stack with
  | [] => exact holds
  | [last] =>
    refine ⟨fun root isRoot => ?_, fun element member => by cases member⟩
    cases isRoot
    exact (holds.stack last List.mem_cons_self).close
  | innermost :: parent :: outer =>
    refine ⟨holds.root, ?_⟩
    intro element member
    have closed := (holds.stack innermost List.mem_cons_self).close
    rcases List.mem_cons.mp member with rfl | member
    · exact (holds.stack parent (List.mem_cons_of_mem _ List.mem_cons_self)).push closed
    · exact holds.stack element (List.mem_cons_of_mem _ (List.mem_cons_of_mem _ member))

/-- What holds of a tag and of all tags before it holds of all tags after it was read. -/
theorem Everywhere.open {state : Reading} (holds : state.Everywhere P) {element : OpenElement}
    (new : P element.path element.name element.attributes) (childless : element.children = [])
    (count : Nat) (namespaces : List (Option String × String)) :
    Everywhere P ⟨element :: state.stack, state.root, count, namespaces⟩ := by
  refine ⟨holds.root, ?_⟩
  intro other member
  rcases List.mem_cons.mp member with rfl | member
  · refine ⟨new, ?_⟩
    rw [childless]
    intro node none
    cases none
  · exact holds.stack other member

/-- Only start tags bring in anything new. -/
theorem Everywhere.step {state next : Reading} {token : Token} (holds : state.Everywhere P)
    (opens : ∀ {raw : List Char} {opened : Reading}, state.enter raw = .ok opened →
      opened.Everywhere P)
    (h : state.step token = .ok next) : next.Everywhere P := by
  rcases step_cases h with rfl | ⟨text, rfl⟩ | rfl | ⟨raw, entered⟩ | ⟨raw, opened, entered, rfl⟩
  · exact holds
  · exact holds.addText text
  · exact holds.leave
  · exact opens entered
  · exact (opens entered).leave

/-- At the end it holds of all nodes of the document. -/
theorem Everywhere.finish {state : Reading} (holds : state.Everywhere P) {document : Document}
    (h : state.finish = .ok document) :
    ∀ node ∈ document.nodes, P node.path node.name node.attributes := by
  obtain ⟨-, root, closed, rfl⟩ := finish_eq_ok.mp h
  exact holds.root root closed

end Reading

end Intertext.Markup
