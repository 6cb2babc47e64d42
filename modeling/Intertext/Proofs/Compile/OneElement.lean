import Intertext.Compile.Directive
import Intertext.Proofs.Compile.Bounds
import Intertext.Proofs.Compile.Stretch
/-!
Walks through one element.

Where a range is one element, a walk through it has three phases: before the element it passes
everything, in the element it takes everything, and after the element it skips everything. The
element's number alone decides where one phase follows another (`Phase.past`), so what a walk does
with a node is known from the phase in which it comes to the node (`enter_before`, `enter_start`,
`enter_within`, `enter_after`, `At.leave`).
-/

namespace Intertext.Compile

open Markup (Document Node)
open Markup.Node (forestIds ids_eq)

/-! ## 1. Ranges of one element -/

/-- Whether a range is one element: it starts and stops there, and the element is no milestone that
text could follow. -/
structure Bounds.IsElement (document : Document) (bounds : Bounds) : Prop where
  same : bounds.stop = bounds.start
  ends : ∀ node ∈ document.nodes, node.id = bounds.stop → isMilestone node = true →
    document.parent? node.id = none

/-- Whether a walk is one through the element with that number. -/
structure Walk.Through (walk : Walk) (start : Nat) : Prop where
  bounds : walk.bounds = ⟨start, start, start⟩
  ends : walk.lastParent = none

variable {document : Document} {bounds : Bounds} {walk : Walk} {start : Nat}
  {startMarker stopMarker : String}

/-- A range that was located starts at the node that its first marker names, and that node is its
own ancestor if the range stops there. -/
theorem start_of_locate (h : Bounds.locate document startMarker stopMarker = .ok bounds) :
    ∃ node, findMarker? document startMarker = some node ∧ bounds.start = node.id ∧
      (bounds.stop = bounds.start → bounds.ancestor = bounds.start) := by
  obtain ⟨start, stop, ancestor, foundStart, -, rfl, -, reached⟩ := Bounds.locate_eq_ok h
  refine ⟨start, foundStart, rfl, fun same => ?_⟩
  rcases reached with ⟨-, rfl⟩ | ⟨apart, -⟩
  · rfl
  · exact absurd same.symm apart

/-- The language at the first marker is the one where the range starts. -/
theorem langAt?_of_locate (h : Bounds.locate document startMarker stopMarker = .ok bounds) :
    langAt? document startMarker = document.lang? bounds.start := by
  obtain ⟨node, isStart, start, -⟩ := start_of_locate h
  rw [langAt?, isStart, start]
  rfl

/-- Between a marker and itself lies one element, if the document has no milestones. -/
theorem isElement_of_locate {marker : String}
    (h : Bounds.locate document marker marker = .ok bounds)
    (noMilestone : ∀ node ∈ document.nodes, isMilestone node = false) :
    bounds.IsElement document := by
  refine ⟨?_, fun node isNode _ milestone => ?_⟩
  · obtain ⟨start, stop, ancestor, foundStart, foundStop, rfl, -⟩ := Bounds.locate_eq_ok h
    cases foundStart.symm.trans foundStop
    rfl
  · rw [noMilestone node isNode] at milestone
    cases milestone

theorem through_within (h : Bounds.locate document startMarker stopMarker = .ok bounds)
    (isElement : bounds.IsElement document) (extraction : Extraction) :
    (Walk.within document bounds extraction).Through bounds.start where
  bounds := by
    obtain ⟨node, -, -, ancestor⟩ := start_of_locate h
    have ancestor := ancestor isElement.same
    have stop := isElement.same
    obtain ⟨first, last, outer⟩ := bounds
    simp only at stop ancestor
    rw [stop, ancestor]
    rfl
  ends := by
    simp only [Walk.within, Option.bind_eq_none_iff, Option.map_eq_none_iff]
    intro node isStop
    obtain ⟨found, milestone⟩ := Option.filter_eq_some_iff.mp isStop
    exact isElement.ends node (List.mem_of_find?_eq_some found)
      (by simpa using List.find?_some found) milestone

/-! ## 2. Phases -/

/-- Where a walk through one element is. -/
inductive Phase where
  | before
  | within
  | after
deriving DecidableEq

/-- Whether the flags of a walk are those of a phase. -/
def Progress.At (progress : Progress) : Phase → Prop
  | .before => progress.frame.beforeStart = true ∧ progress.frame.afterEnd = false ∧
      progress.frame.insideAncestor = false ∧ progress.trailing = false
  | .within => progress.frame.beforeStart = false ∧ progress.frame.afterEnd = false ∧
      progress.trailing = false
  | .after => progress.frame.afterEnd = true

/-- The phase after nodes with these numbers have been passed. -/
def Phase.past (start : Nat) (ids : List Nat) : Phase → Phase
  | before => if start ∈ ids then after else before
  | phase => phase

theorem Phase.past_before (start : Nat) (ids : List Nat) :
    before.past start ids = if start ∈ ids then after else before := rfl

theorem Phase.within_of_past {start : Nat} {ids : List Nat} {phase : Phase}
    (h : phase.past start ids = .within) : phase = .within := by
  cases phase with
  | before =>
    rw [past_before] at h
    split at h <;> cases h
  | within => rfl
  | after => cases h

/-- Passing a node that is not the element changes the phase as what is in the node does. -/
theorem Phase.past_ids {start : Nat} {node : Node} (other : node.id ≠ start) (phase : Phase) :
    phase.past start node.ids = phase.past start (forestIds node.children) := by
  have notOwn : start ≠ node.id := Ne.symm other
  cases phase with
  | before => simp [past, ids_eq, notOwn]
  | within => rfl
  | after => rfl

theorem Phase.past_append (start : Nat) (first rest : List Nat) (phase : Phase) :
    phase.past start (first ++ rest) = (phase.past start first).past start rest := by
  cases phase with
  | before =>
    by_cases inFirst : start ∈ first
    · simp [past, inFirst]
    · simp [past, inFirst]
  | within => rfl
  | after => rfl

@[simp] theorem Phase.past_nil (start : Nat) (phase : Phase) : phase.past start [] = phase := by
  cases phase <;> simp [past]

theorem at_start (file : SourceFile) : (Walk.start file startMarker stopMarker).At .before :=
  ⟨rfl, rfl, rfl, rfl⟩

variable {progress : Progress} {node : Node} {phase : Phase}

/-- A walk that is not over goes on if no text follows the stop. -/
theorem afterEnd_enter_eq_false (notAfter : progress.frame.afterEnd = false)
    (notTrailing : progress.trailing = false) :
    (walk.enter progress node).frame.afterEnd = false := by
  rw [Walk.afterEnd_enter, notAfter, Walk.endsTrailing, notTrailing]
  rfl

/-- Before the element a walk passes everything else. -/
theorem enter_before (bounds : walk.bounds = ⟨start, start, start⟩) (before : progress.At .before)
    (other : node.id ≠ start) : (walk.enter progress node).At .before ∧
      (walk.enter progress node).frame.command = .pass := by
  obtain ⟨isBefore, notAfter, notInside, notTrailing⟩ := before
  have goesOn : (walk.enter progress node).frame.afterEnd = false :=
    afterEnd_enter_eq_false notAfter notTrailing
  have stillBefore : (walk.enter progress node).frame.beforeStart = true := by
    rw [Walk.beforeStart_enter, isBefore, goesOn, bounds]
    simpa using other
  have notAncestor : node.id ≠ walk.bounds.ancestor := by rwa [bounds]
  refine ⟨⟨stillBefore, goesOn, ?_, notTrailing⟩, ?_⟩
  · cases extraction : walk.extraction with
    | external =>
      rw [walk.insideAncestor_enter extraction goesOn stillBefore, notInside]
      simpa using notAncestor
    | inline => grind [Walk.enter, Walk.give]
  · rw [Walk.command_enter, goesOn, stillBefore, notInside]
    simp [notAncestor]

/-- In the element a walk takes what it enters. -/
theorem command_of_within (within : (walk.enter progress node).At .within) :
    (walk.enter progress node).frame.command = walk.inRangeCommand := by
  rw [Walk.command_enter, within.1, within.2.1]
  simp

/-- On entering the element a walk is in it. -/
theorem enter_start (bounds : walk.bounds = ⟨start, start, start⟩) (before : progress.At .before)
    (isStart : node.id = start) : (walk.enter progress node).At .within := by
  obtain ⟨-, notAfter, -, notTrailing⟩ := before
  have goesOn : (walk.enter progress node).frame.afterEnd = false :=
    afterEnd_enter_eq_false notAfter notTrailing
  refine ⟨?_, goesOn, notTrailing⟩
  rw [Walk.beforeStart_enter, goesOn, bounds, isStart]
  simp

/-- A walk stays in the element until it leaves it. -/
theorem enter_within (within : progress.At .within) : (walk.enter progress node).At .within := by
  obtain ⟨notBefore, notAfter, notTrailing⟩ := within
  refine ⟨?_, afterEnd_enter_eq_false notAfter notTrailing, notTrailing⟩
  rw [Walk.beforeStart_enter, notBefore]
  rfl

/-- After the element a walk skips everything. -/
theorem enter_after (after : progress.At .after) : (walk.enter progress node).At .after ∧
    (walk.enter progress node).frame.command = .skip := by
  have after : progress.frame.afterEnd = true := after
  have stays : (walk.enter progress node).frame.afterEnd = true := by
    rw [Walk.afterEnd_enter, after]
    rfl
  exact ⟨stays, by rw [Walk.command_enter, if_pos stays]⟩

/-- Leaving a node changes the phase only if the node is the element. -/
theorem Progress.At.leave (bounds : walk.bounds = ⟨start, start, start⟩) (isAt : progress.At phase)
    (other : phase ≠ .after → node.id ≠ start) : (walk.leave progress node).At phase := by
  obtain ⟨bounds, extraction, endUrn, lastParent⟩ := walk
  subst bounds
  cases phase with
  | before =>
    have other := other (by decide)
    obtain ⟨isBefore, notAfter, notInside, notTrailing⟩ := isAt
    simp [Walk.leave, Progress.At, Frame.inRange, isBefore, notAfter, notInside, notTrailing, other]
  | within =>
    have other := other (by decide)
    obtain ⟨notBefore, notAfter, notTrailing⟩ := isAt
    simp [Walk.leave, Progress.At, Frame.inRange, notBefore, notAfter, notTrailing, other]
  | after =>
    have after : progress.frame.afterEnd = true := isAt
    rw [Progress.At, Walk.afterEnd_leave, after]
    rfl

/-- A walk that leaves the element is after it. -/
theorem leave_start (through : walk.Through start) (within : progress.At .within)
    (isStart : node.id = start) : (walk.leave progress node).At .after := by
  obtain ⟨notBefore, notAfter, notTrailing⟩ := within
  rw [Progress.At, Walk.afterEnd_leave, Frame.inRange, notBefore, notAfter, notTrailing,
    through.ends, through.bounds, isStart]
  simp

end Intertext.Compile
