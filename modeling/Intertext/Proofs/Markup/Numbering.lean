import Intertext.Markup.Reader
import Intertext.Proofs.Markup.Tree
import Intertext.Proofs.Outcome
/-!
The numbers of a document that was read.

At every moment of reading, the closed root or the open elements with their finished children hold
the numbers from zero on, one for each start tag read so far and in the order of the text
(`Reading.Numbered`). Every token keeps it so, and hence the nodes of a document are numbered in
document order (`Document.ordered_of_parse`).
-/

namespace Intertext.Markup

open Node (forestIds)
open Outcome (bind_eq_ok mapError_eq_ok)

/-! ## 1. Numbers of open elements

The open elements are kept innermost first, and the children of each last one first, so both are
turned round to get the order of the text. -/

/-- The numbers of an open element and of what has been finished in it. -/
def OpenElement.ids (element : OpenElement) : List Nat :=
  element.id :: forestIds element.children.reverse

/-- Character data has no number. -/
theorem OpenElement.ids_pushText (element : OpenElement) (text : String) :
    (element.pushText text).ids = element.ids := by
  obtain ⟨id, path, name, written, attributes, own, children, scope⟩ := element
  cases children with
  | nil => rfl
  | cons last earlier =>
    simp [OpenElement.pushText, OpenElement.ids, Node.forestIds_append, Node.ids_eq]

/-- A finished child comes after those that were finished before. -/
theorem OpenElement.ids_push (element : OpenElement) (child : Node) :
    (element.push child).ids = element.ids ++ child.ids := by
  simp [OpenElement.push, OpenElement.ids, Node.forestIds_append]

/-- Closing an element keeps its numbers. -/
theorem OpenElement.ids_close (element : OpenElement) : element.close.ids = element.ids := by
  rw [Node.ids_eq]
  rfl

namespace Reading

/-- The numbers read so far, in the order of the text. -/
def ids (state : Reading) : List Nat :=
  (state.root.map Node.ids).getD [] ++ state.stack.reverse.flatMap OpenElement.ids

/-- The numbers read so far count up from zero, and nothing is open beside a closed root. -/
structure Numbered (state : Reading) : Prop where
  ids : state.ids = List.range state.count
  alone : state.root.isSome → state.stack = []

/-! ## 2. What a token does

Only four things are done to the state of a reading: text is added, an element is opened, the
innermost one is closed, or nothing is done. What each of them keeps every token keeps. -/

/-- What a start tag makes of the state: one more open element, which has the next number. -/
theorem enter_eq_ok {state next : Reading} {raw : List Char} (h : state.enter raw = .ok next) :
    ∃ scope name path attributes namespaces,
      Scope.elementName scope (Tag.name raw) = .ok name ∧
        state.pathOf (Tag.name raw) name = .ok path ∧
        next = ⟨⟨state.count, path, name, Tag.name raw, attributes, "", [], scope⟩ :: state.stack,
          state.root, state.count + 1, namespaces⟩ := by
  obtain ⟨scope, -, h⟩ := bind_eq_ok.mp h
  obtain ⟨name, named, h⟩ := bind_eq_ok.mp h
  obtain ⟨⟨attributes, namespaces⟩, -, h⟩ := bind_eq_ok.mp h
  dsimp only at h
  split at h
  · cases h
  · obtain ⟨path, placed, h⟩ := bind_eq_ok.mp h
    cases h
    exact ⟨scope, name, path, attributes, namespaces, named, placed, rfl⟩

/-- An end tag closes the innermost element. -/
theorem closeTag_eq_ok {state next : Reading} {raw : List Char}
    (h : state.closeTag raw = .ok next) :
    ∃ innermost outer, state.stack = innermost :: outer ∧ next = state.leave := by
  unfold closeTag at h
  dsimp only at h
  split at h
  · cases h
  · rename_i innermost outer isStack
    split at h
    · cases h
      exact ⟨innermost, outer, isStack, rfl⟩
    · cases h

/-- What a token makes of the state: it adds text, opens an element, closes one, or opens one and
closes it at once. -/
theorem step_cases {state next : Reading} {token : Token} (h : state.step token = .ok next) :
    next = state ∨ (∃ text, next = state.addText text) ∨ next = state.leave ∨
      (∃ raw, state.enter raw = .ok next) ∨
      ∃ raw opened, state.enter raw = .ok opened ∧ next = opened.leave := by
  cases token with
  | text raw =>
    obtain ⟨text, -, h⟩ := bind_eq_ok.mp h
    cases h
    exact Or.inr (Or.inl ⟨_, rfl⟩)
  | cdata raw =>
    cases h
    exact Or.inr (Or.inl ⟨_, rfl⟩)
  | aside =>
    cases h
    exact Or.inl rfl
  | start raw => exact Or.inr (Or.inr (Or.inr (Or.inl ⟨raw, h⟩)))
  | empty raw =>
    obtain ⟨opened, entered, h⟩ := bind_eq_ok.mp h
    cases h
    exact Or.inr (Or.inr (Or.inr (Or.inr ⟨raw, opened, entered, rfl⟩)))
  | close raw =>
    obtain ⟨innermost, outer, -, rfl⟩ := closeTag_eq_ok h
    exact Or.inr (Or.inr (Or.inl rfl))

/-- Reading ends in the document of the root, with nothing open. -/
theorem finish_eq_ok {state : Reading} {document : Document} :
    state.finish = .ok document ↔
      state.stack = [] ∧ ∃ root, state.root = some root ∧ document = ⟨root, state.namespaces⟩ := by
  obtain ⟨stack, root, count, namespaces⟩ := state
  cases stack with
  | cons innermost outer => simp [finish]
  | nil => cases root <;> simp [finish, eq_comm]

/-! ## 3. What a token keeps

A new element gets the next number and stands innermost, so its number comes last. Closing an
element only moves its numbers from the stack to its parent or to the root. -/

/-- At the beginning there is nothing to number. -/
theorem numbered_start : start.Numbered := ⟨rfl, fun _ => rfl⟩

/-- Nothing is closed as long as something is open. -/
theorem Numbered.root_eq_none {state : Reading} (numbered : state.Numbered)
    (nested : state.stack ≠ []) : state.root = none := by
  cases closed : state.root with
  | none => rfl
  | some node => exact absurd (numbered.alone (by simp [closed])) nested

/-- Adding text changes no number. -/
theorem Numbered.addText {state : Reading} (numbered : state.Numbered) (text : String) :
    (state.addText text).Numbered := by
  obtain ⟨stack, root, count, namespaces⟩ := state
  cases stack with
  | nil => exact numbered
  | cons innermost outer =>
    refine ⟨?_, fun closed => absurd (numbered.alone closed) (List.cons_ne_nil _ _)⟩
    have counted := numbered.ids
    simp only [Reading.ids, List.reverse_cons, List.flatMap_append, List.flatMap_cons] at counted
    simp only [Reading.addText, Reading.ids, List.reverse_cons, List.flatMap_append,
      List.flatMap_cons, OpenElement.ids_pushText]
    exact counted

/-- Closing an element keeps the order of the numbers. -/
theorem Numbered.leave {state : Reading} (numbered : state.Numbered) : state.leave.Numbered := by
  obtain ⟨stack, root, count, namespaces⟩ := state
  match stack with
  | [] => exact numbered
  | innermost :: outer =>
    obtain rfl : root = none := numbered.root_eq_none (List.cons_ne_nil _ _)
    have counted := numbered.ids
    match outer with
    | [] =>
      refine ⟨?_, fun _ => rfl⟩
      simpa [Reading.leave, Reading.ids, OpenElement.ids_close] using counted
    | parent :: outer =>
      refine ⟨?_, fun closed => absurd closed (by simp [Reading.leave])⟩
      simpa [Reading.leave, Reading.ids, OpenElement.ids_close, OpenElement.ids_push] using counted

/-- A start tag takes the next number. -/
theorem Numbered.enter {state next : Reading} {raw : List Char} (numbered : state.Numbered)
    (h : state.enter raw = .ok next) : next.Numbered := by
  obtain ⟨scope, name, path, attributes, namespaces, -, placed, rfl⟩ := enter_eq_ok h
  -- after the root is closed no second one is opened
  have open? : state.root = none := by
    cases closed : state.root with
    | none => rfl
    | some node =>
      rw [pathOf, numbered.alone (by simp [closed]), closed] at placed
      cases placed
  have counted := numbered.ids
  refine ⟨?_, fun closed => absurd closed (by simp [open?])⟩
  simp only [Reading.ids, open?, Option.map_none, Option.getD_none, List.nil_append] at counted
  simp [Reading.ids, open?, counted, OpenElement.ids, List.range_succ]

/-- Every token keeps the numbering. -/
theorem Numbered.step {state next : Reading} {token : Token} (numbered : state.Numbered)
    (h : state.step token = .ok next) : next.Numbered := by
  rcases step_cases h with rfl | ⟨text, rfl⟩ | rfl | ⟨raw, entered⟩ | ⟨raw, opened, entered, rfl⟩
  · exact numbered
  · exact numbered.addText text
  · exact numbered.leave
  · exact numbered.enter entered
  · exact (numbered.enter entered).leave

/-- Character data after the root is dropped. -/
theorem root_tail_step {state next : Reading} {token : Token}
    (tailless : ∀ root, state.root = some root → root.tail = "")
    (h : state.step token = .ok next) : ∀ root, next.root = some root → root.tail = "" := by
  have leave {state : Reading} (tailless : ∀ root, state.root = some root → root.tail = "") :
      ∀ root, state.leave.root = some root → root.tail = "" := by
    intro root closed
    unfold Reading.leave at closed
    split at closed
    · exact tailless root closed
    · cases closed
      rfl
    · exact tailless root closed
  have enter {next : Reading} {raw : List Char} (entered : state.enter raw = .ok next) :
      ∀ root, next.root = some root → root.tail = "" := by
    obtain ⟨scope, name, path, attributes, namespaces, -, -, rfl⟩ := enter_eq_ok entered
    exact tailless
  rcases step_cases h with rfl | ⟨text, rfl⟩ | rfl | ⟨raw, entered⟩ | ⟨raw, opened, entered, rfl⟩
  · exact tailless
  · unfold Reading.addText
    split
    · exact tailless
    · exact tailless
  · exact leave tailless
  · exact enter entered
  · exact leave (enter entered)

end Reading

/-! ## 4. Documents

A document that was read has been through its tokens one by one, from an empty state on. Whatever is
said of all documents that were read is said here of the states of a reading (`parse_induction`). -/

namespace Document

/-- Whatever reading begins with and every token keeps holds at the end. -/
theorem parse_induction {P : Reading → Prop} {text : String} {document : Document}
    (start : P .start)
    (step : ∀ {state next : Reading} {token : Token},
      P state → state.step token = .ok next → P next)
    (h : Document.parse text = .ok document) : ∃ state, P state ∧ state.finish = .ok document := by
  obtain ⟨state, folded, h⟩ := bind_eq_ok.mp h
  split at h
  · cases h
  · refine ⟨state, ?_, h⟩
    exact run start folded
where
  run : ∀ {tokens : List Token} {state next : Reading}, P state →
      tokens.foldlM Reading.step state = .ok next → P next
    | [], _, _, holds, folded => by
      cases folded
      exact holds
    | token :: rest, state, next, holds, folded => by
      obtain ⟨between, stepped, folded⟩ := bind_eq_ok.mp folded
      exact run (step holds stepped) folded

/-- A document that was read from bytes was read from the text they stand for. -/
theorem exists_text_of_ofBytes {bytes : ByteArray} {document : Document}
    (h : ofBytes bytes = .ok document) : ∃ text, parse text = .ok document := by
  unfold ofBytes at h
  split at h
  · exact ⟨_, h⟩
  · cases h

/-- What is read from the bytes of a text is what is read from the text. -/
theorem ofBytes_toUTF8 (text : String) : ofBytes text.toUTF8 = parse text := by
  have valid : String.fromUTF8? text.toUTF8 = some text := dif_pos text.isValidUTF8
  rw [ofBytes, valid]

/-- The nodes of a document that was read are numbered from zero on, in document order. -/
theorem ids_of_parse {text : String} {document : Document} (h : parse text = .ok document) :
    document.root.ids = List.range document.size := by
  obtain ⟨state, numbered, finished⟩ :=
    parse_induction Reading.numbered_start Reading.Numbered.step h
  have counted := numbered.ids
  obtain ⟨noStack, root, closed, rfl⟩ := Reading.finish_eq_ok.mp finished
  rw [Reading.ids, noStack, closed] at counted
  have whole : root.ids = List.range state.count := by simpa using counted
  have length : root.preorder.length = state.count := by
    have := congrArg List.length whole
    rwa [Node.ids, List.length_map, List.length_range] at this
  rw [whole, size, nodes, length]

/-- The root of a document that was read has no tail. -/
theorem root_tail_of_parse {text : String} {document : Document}
    (h : parse text = .ok document) : document.root.tail = "" := by
  obtain ⟨state, tailless, finished⟩ :=
    parse_induction (P := fun state => ∀ root, state.root = some root → root.tail = "")
      (by intro root none; cases none) Reading.root_tail_step h
  obtain ⟨-, root, closed, rfl⟩ := Reading.finish_eq_ok.mp finished
  exact tailless root closed

/-- The numbers of a document that was read go up in document order. -/
theorem ordered_of_parse {text : String} {document : Document}
    (h : parse text = .ok document) : document.Ordered := by
  rw [Ordered, Node.Ordered, ids_of_parse h]
  exact List.pairwise_lt_range

end Document

end Intertext.Markup
