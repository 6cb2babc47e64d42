import Intertext.Proofs.Compile.Borrowed
import Intertext.Proofs.Compile.Stamps
/-!
Compiled content has no tail.

What follows an element is the business of the element around it, so whatever is compiled for an
element has an empty tail: a copy, a wrapper and a note (`tailless_levels`).
-/

namespace Intertext.Compile

open Markup (Element Name Node)

variable {library : Library} {nested : Nested} {site : Site} {node : Node}

/-- Whether the copies that frames give have no tail. -/
def Nested.Tailless (nested : Nested) : Prop :=
  ∀ home file root element, (nested.copy home file root).result = .ok element → element.tail = ""

@[simp] theorem tail_wrapper (target : String) (targetEnd : Option String)
    (extraction : Extraction) : (wrapper target targetEnd extraction).tail = "" := by
  unfold wrapper
  cases targetEnd <;> rfl

@[simp] theorem tail_insertNotes (notes : List Element) (element : Element) :
    (insertNotes notes element).tail = element.tail := by
  unfold insertNotes
  split <;> rfl

theorem tail_transclude {extraction : Extraction} {element : Element}
    (h : (transclude library nested site node extraction).result = .ok element) :
    element.tail = "" := by
  obtain ⟨start, target, found, source, -, -, fills, -, rfl⟩ := transclude_eq_ok h
  rw [tail_stampLang, tail_stampForeign]
  have fills := filled_eq_ok.mp fills
  cases extraction with
  | external =>
    obtain ⟨children, -, rfl⟩ := fills
    exact tail_wrapper _ _ .external
  | inline =>
    obtain ⟨container, -, rfl⟩ := fills
    exact tail_wrapper _ _ .inline

theorem Borrowed.tail (tailless : nested.Tailless) {note : Element}
    (borrowed : Borrowed library nested site node note) : note.tail = "" := by
  cases borrowed with
  | note row reads isThere copies =>
    rw [tail_stampLang]
    exact tailless _ _ _ _ copies

theorem tail_copy (tailless : nested.Tailless) {element : Element}
    (h : (copy library nested site node).result = .ok element) : element.tail = "" := by
  cases copyStep_iff.mp h with
  | directive role found => exact tail_transclude found
  | replaced role found => exact (borrowed_of_replace found).tail tailless
  | copied role found kept below =>
    rw [tail_insertNotes]
    rfl

theorem tail_copyNote {element : Element}
    (h : (copyNote library nested site node).result = .ok element) : element.tail = "" := by
  by_cases role : Role.of node = .directive
  · rw [copyNote, if_pos role] at h
    exact tail_transclude h
  · obtain ⟨copies, -, rfl⟩ := (copyNote_eq_ok role).mp h
    rfl

/-- The copies that frames give have no tail. -/
theorem tailless_levels : ∀ frames : Nat, (levels library frames).Tailless
  | 0, home, file, root, element, h => absurd h copy_level_none_ne_ok
  | frames + 1, home, file, root, element, h => by
    obtain ⟨document, found, -, ran, rfl⟩ := copy_level_eq_ok.mp h
    rw [tail_stampForeign]
    cases root with
    | none => exact tail_copy (tailless_levels frames) ran
    | some node => exact tail_copyNote ran

end Intertext.Compile
