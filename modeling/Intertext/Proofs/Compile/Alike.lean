import Intertext.Proofs.Compile.Pieces
import Intertext.Proofs.Compile.Stretch
import Intertext.Proofs.Compile.Tailless
/-!
Walks that stand at the same place.

Two walks within the same bounds stand at the same place if neither has begun, ended or left a stop
without the other; on entering a node and on leaving it they go on doing so, whatever they extract
(`Alike.enter`, `Alike.leave`). A walk in range that meets no marker and no milestone stays where it
stands, and the structure it shows is a copy (`copy_of_external`).
-/

namespace Intertext.Compile

open Markup (Element Node Document)
open Markup.Node

/-! ## 1. Flags

Of all that a walk keeps, three flags say where it is in relation to the range. Entering and leaving
change them by the node and the bounds alone, and so change them alike in two walks within the same
bounds. -/

/-- Whether two walks stand at the same place of a range. -/
structure Alike (first second : Progress) : Prop where
  before : first.frame.beforeStart = second.frame.beforeStart
  after : first.frame.afterEnd = second.frame.afterEnd
  trailing : first.trailing = second.trailing

variable {document : Document} {bounds : Bounds} {extraction extraction' : Extraction}
  {progress progress' : Progress} {node : Node}

theorem Alike.refl (progress : Progress) : Alike progress progress := ⟨rfl, rfl, rfl⟩

theorem Alike.symm (alike : Alike progress progress') : Alike progress' progress :=
  ⟨alike.before.symm, alike.after.symm, alike.trailing.symm⟩

theorem Alike.trans {progress'' : Progress} (first : Alike progress progress')
    (second : Alike progress' progress'') : Alike progress progress'' :=
  ⟨first.before.trans second.before, first.after.trans second.after,
    first.trailing.trans second.trailing⟩

/-- Walks that stand at the same place are both in range or both not. -/
theorem Alike.inRange (alike : Alike progress progress') :
    progress.frame.inRange = progress'.frame.inRange := by
  rw [Frame.inRange, Frame.inRange, alike.before, alike.after]

/-- Entering a node keeps walks at the same place. -/
theorem Alike.enter (alike : Alike progress progress') (node : Node) :
    Alike ((Walk.within document bounds extraction).enter progress node)
      ((Walk.within document bounds extraction').enter progress' node) := by
  have ends : (Walk.within document bounds extraction).endsTrailing progress node =
      (Walk.within document bounds extraction').endsTrailing progress' node := by
    rw [Walk.endsTrailing, alike.trailing]
    rfl
  have after : ((Walk.within document bounds extraction).enter progress node).frame.afterEnd =
      ((Walk.within document bounds extraction').enter progress' node).frame.afterEnd := by
    rw [Walk.afterEnd_enter, Walk.afterEnd_enter, alike.after, ends]
  refine ⟨?_, after, alike.trailing⟩
  rw [Walk.beforeStart_enter, Walk.beforeStart_enter, alike.before, after]
  rfl

/-- Leaving a node keeps walks at the same place. -/
theorem Alike.leave (alike : Alike progress progress') (node : Node) :
    Alike ((Walk.within document bounds extraction).leave progress node)
      ((Walk.within document bounds extraction').leave progress' node) := by
  refine ⟨?_, ?_, ?_⟩
  · rw [Walk.beforeStart_leave, Walk.beforeStart_leave, alike.before]
  · rw [Walk.afterEnd_leave, Walk.afterEnd_leave, alike.after, alike.trailing, alike.inRange]
    rfl
  · rw [Walk.trailing_leave, Walk.trailing_leave, alike.trailing, alike.inRange]
    rfl

/-! ## 2. Commands -/

/-- What a walk commands is told by where it then stands. -/
theorem command_of_enter (walk : Walk) (progress : Progress) (node : Node) :
    (walk.enter progress node).frame.afterEnd = true ∧
        (walk.enter progress node).frame.command = .skip ∨
      (walk.enter progress node).frame.inRange = true ∧
        (walk.enter progress node).frame.command = walk.inRangeCommand ∨
      (walk.enter progress node).frame.afterEnd = false ∧
        (walk.enter progress node).frame.beforeStart = true ∧
        ((walk.enter progress node).frame.command = .copyTag ∧ walk.extraction = .external ∨
          (walk.enter progress node).frame.command = .pass) := by
  rw [Walk.command_enter, Frame.inRange]
  cases (walk.enter progress node).frame.afterEnd with
  | true => exact Or.inl ⟨rfl, if_pos rfl⟩
  | false =>
    cases (walk.enter progress node).frame.beforeStart with
    | false => exact Or.inr (Or.inl ⟨rfl, rfl⟩)
    | true =>
      refine Or.inr (Or.inr ⟨rfl, rfl, ?_⟩)
      rw [if_neg (by decide), if_neg (by decide)]
      split_ifs with lead
      · exact Or.inl ⟨rfl, lead.1⟩
      · exact Or.inr rfl

/-- A walk that extracts structure copies the nodes in range. -/
theorem copy_of_inRange
    (inRange : ((Walk.within document bounds .external).enter progress node).frame.inRange = true) :
    ((Walk.within document bounds .external).enter progress node).frame.command = .copy := by
  obtain ⟨begun, still⟩ := Bool.and_eq_true_iff.mp inRange
  rw [Bool.not_eq_true'] at begun still
  rw [Walk.command_enter, still, begun]
  rfl

/-- A walk that extracts structure passes nodes before the range only. -/
theorem before_of_pass {walk : Walk} (external : walk.extraction = .external)
    (command : (walk.enter progress node).frame.command = .pass ∨
      (walk.enter progress node).frame.command = .copyText) :
    (walk.enter progress node).frame.beforeStart = true := by
  have taken : walk.inRangeCommand = .copy := by rw [Walk.inRangeCommand, external]
  rcases command_of_enter walk progress node with ⟨-, other⟩ | ⟨-, other⟩ | ⟨-, before, -⟩
  · rcases command with command | command <;> rw [command] at other <;> cases other
  · rw [taken] at other
    rcases command with command | command <;> rw [command] at other <;> cases other
  · exact before

/-! ## 3. Walks that stay in range

A node at which nothing begins or ends changes no flag. Below such nodes a walk in range takes
everything, so that what it shows is what copying shows. -/

/-- Whether a walk in range stays where it stands when it comes to a node. -/
structure Quiet (document : Document) (bounds : Bounds) (node : Node) : Prop where
  noMilestone : isMilestone node = false
  noStart : node.id ≠ bounds.start
  noStop : node.id ≠ bounds.stop
  noLast : (Stretch.of document bounds).last ≠ some node.id

/-- Entering a quiet node in range changes no flag. -/
theorem Quiet.enter (quiet : Quiet document bounds node) (inRange : progress.frame.inRange = true) :
    Alike progress ((Walk.within document bounds extraction).enter progress node) := by
  obtain ⟨begun, still⟩ := Bool.and_eq_true_iff.mp inRange
  rw [Bool.not_eq_true'] at begun still
  have ends : (Walk.within document bounds extraction).endsTrailing progress node = false := by
    rw [Walk.endsTrailing, quiet.noMilestone]
    simp
  refine ⟨?_, ?_, rfl⟩
  · rw [Walk.beforeStart_enter, begun, Bool.false_and]
  · rw [Walk.afterEnd_enter, ends, Bool.or_false]

/-- Leaving a quiet node changes no flag. -/
theorem Quiet.leave (quiet : Quiet document bounds node) (extraction : Extraction)
    (progress : Progress) :
    Alike progress ((Walk.within document bounds extraction).leave progress node) := by
  have noLast : (Walk.within document bounds extraction).lastParent ≠ some node.id := quiet.noLast
  have noStop : node.id ≠ (Walk.within document bounds extraction).bounds.stop := quiet.noStop
  refine ⟨?_, ?_, ?_⟩
  · rw [Walk.beforeStart_leave]
  · rw [Walk.afterEnd_leave]
    simp [noLast, noStop]
  · rw [Walk.trailing_leave]
    simp [noLast, noStop]

variable {library : Library} {nested : Nested} {site : Site}

mutual

/-- A walk that extracts structure shows copies of what it comes to in range, as long as it stays
there. -/
theorem copy_of_external (tailless : nested.Tailless) :
    ∀ {node : Node} {progress after : Progress} {elements : List Element},
      (∀ inner ∈ node.preorder, Quiet document bounds inner) → progress.frame.inRange = true →
      (external library nested site (.within document bounds .external) progress node).result =
        .ok (elements, after) →
      Alike progress after ∧ ∃ element, elements = [element] ∧
        (copy library nested site node).result = .ok element
  | ⟨own, path, name, attributes, text, children, tail⟩, progress, after, elements, quiet, inRange,
      h => by
    have self := quiet _ (mem_preorder_self _)
    have entered : Alike progress
        ((Walk.within document bounds .external).enter progress
          ⟨own, path, name, attributes, text, children, tail⟩) := self.enter inRange
    have still := entered.inRange.symm.trans inRange
    have below (inner : Node) (member : inner ∈ forestPreorder children) :
        Quiet document bounds inner := quiet inner (List.mem_cons_of_mem _ member)
    have taken : ((Walk.within document bounds .external).enter progress
        ⟨own, path, name, attributes, text, children, tail⟩).frame.command = .copy :=
      copy_of_inRange still
    cases externalStep_of_ok h with
    | skipped command =>
      rw [taken] at command
      cases command
    | directive command role found =>
      exact ⟨entered.trans (self.leave ..), _, rfl, copyStep_iff.mpr (.directive role found)⟩
    | replaced command role found =>
      exact ⟨entered.trans (self.leave ..), _, rfl, copyStep_iff.mpr (.replaced role found)⟩
    | copied command role found kept ran =>
      obtain ⟨stays, rooted, copies⟩ := copyForest_of_externalForest tailless below still ran
      refine ⟨(entered.trans stays).trans (self.leave ..), _, rfl, ?_⟩
      rw [fill_eq _ rooted]
      exact copyStep_iff.mpr (.copied role found kept copies)
    | tag command ran =>
      rw [taken] at command
      cases command
    | passed command ran =>
      rw [taken] at command
      rcases command with command | command <;> cases command

/-- What a walk that stays in range shows of nodes is a copy of them. -/
theorem copyForest_of_externalForest (tailless : nested.Tailless) :
    ∀ {nodes : List Node} {progress after : Progress} {pieces : List Piece},
      (∀ inner ∈ forestPreorder nodes, Quiet document bounds inner) →
      progress.frame.inRange = true →
      (externalForest library nested site (.within document bounds .external) progress
        nodes).result = .ok (pieces, after) →
      Alike progress after ∧ (∀ piece ∈ pieces, piece.Rooted) ∧
        (copyForest library nested site nodes).result = .ok (pieces.flatMap Piece.shown)
  | [], progress, after, pieces, quiet, inRange, h => by
    obtain ⟨rfl, rfl⟩ := externalForest_nil h
    exact ⟨.refl _, fun piece member => (List.not_mem_nil member).elim, rfl⟩
  | first :: rest, progress, after, pieces, quiet, inRange, h => by
    obtain ⟨elements, between, others, found, below, rfl⟩ := externalForest_cons h
    obtain ⟨stays, element, rfl, copies⟩ := copy_of_external tailless
      (fun inner member => quiet inner (List.mem_append_left _ member)) inRange found
    have still := stays.inRange.symm.trans inRange
    obtain ⟨stays', rooted, copies'⟩ := copyForest_of_externalForest tailless
      (fun inner member => quiet inner (List.mem_append_right _ member)) still below
    refine ⟨stays.trans stays', ?_, ?_⟩
    · intro piece member
      rcases List.mem_cons.mp member with rfl | member
      · exact fun _ => List.cons_ne_nil _ _
      · exact rooted piece member
    · refine copyForest_cons_iff.mpr ⟨element, _, copies, copies', ?_⟩
      rw [List.flatMap_cons, Piece.shown, extendLast_singleton, tailInRange, if_pos still,
        tail_copy tailless copies, String.empty_append]
      rfl

end

end Intertext.Compile
