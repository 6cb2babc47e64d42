import Intertext.Compile.Walk
import Intertext.Proofs.Markup.Edges
import Mathlib.Data.List.TakeWhile
/-!
Where a walk stands.

A range covers a stretch of text, and which part of the text that is can be told without a walk: the
stretch is open once its start has begun, until it is over. `Stretch.isOver` says when that is, from
the edges passed so far. A walk keeps a few flags instead. `Standing` says what the flags have to be
after these edges; entering a node and leaving it keep it so (`Standing.enter`, `Standing.leave`),
and what a walk commands is what the edges tell (`Standing.command_enter`).
-/

namespace Intertext.Compile

open Markup (Node Document Edge)

/-! ## 1. Stretches

The start begins a stretch, and leaving the stop ends it or, if the stop is a milestone, lets it run
on until a later edge ends it. All of this is asked of the list of edges that were passed, and each
question is answered for one more edge. -/

/-- Whether an element has begun after these edges. -/
def hasBegun (passed : List Edge) (id : Nat) : Bool := passed.contains (.opening id)

theorem hasBegun_iff {passed : List Edge} {id : Nat} :
    hasBegun passed id = true ↔ .opening id ∈ passed := by
  rw [hasBegun, List.contains_eq_mem, decide_eq_true_eq]

theorem hasBegun_append_opening (passed : List Edge) (opened id : Nat) :
    hasBegun (passed ++ [.opening opened]) id = (hasBegun passed id || decide (opened = id)) := by
  rw [Bool.eq_iff_iff, hasBegun_iff, Bool.or_eq_true, hasBegun_iff, decide_eq_true_eq]
  simp [eq_comm]

theorem hasBegun_append_closing (passed : List Edge) (closed id : Nat) :
    hasBegun (passed ++ [.closing closed]) id = hasBegun passed id := by
  rw [Bool.eq_iff_iff]
  simp [hasBegun_iff]

/-- The stretch of text that a range covers. -/
structure Stretch where
  start : Nat
  stop : Nat
  /-- The element at whose end a stretch is over at last that runs on past its stop. -/
  last : Option Nat
  /-- The elements that end a stretch that runs on when they begin. -/
  breaks : Nat → Bool

namespace Stretch

/-- The stretch of a range. It runs on past its stop if that is a milestone with a parent, until a
milestone begins that does not continue the stop. -/
def of (document : Document) (bounds : Bounds) : Stretch :=
  let stop := document.node? bounds.stop
  { start := bounds.start
    stop := bounds.stop
    last := (stop.filter isMilestone).bind fun stop => (document.parent? stop.id).map (·.id)
    breaks := fun id => (document.node? id).any fun node => isMilestone node &&
      !((stop.bind (·.corresp?)).any fun urn => node.corresp?.any (Walk.continues urn)) }

/-- Whether the stretch has begun after these edges. -/
def isBegun (stretch : Stretch) (passed : List Edge) : Bool :=
  hasBegun passed stretch.start

/-- Whether the stop of the stretch has ended after these edges. -/
def isStopped (stretch : Stretch) (passed : List Edge) : Bool :=
  passed.contains (.closing stretch.stop)

/-- Whether an edge ends a stretch that runs on. -/
def ends (stretch : Stretch) (last : Nat) : Edge → Bool
  | .opening id => stretch.breaks id
  | .closing id => id = last

/-- The edges from the end of the stop on. -/
def beyond (stretch : Stretch) (passed : List Edge) : List Edge :=
  passed.dropWhile (· ≠ .closing stretch.stop)

/-- Whether the stretch is over after these edges. -/
def isOver (stretch : Stretch) (passed : List Edge) : Bool :=
  match stretch.last with
  | none => stretch.isStopped passed
  | some last => (stretch.beyond passed).any (stretch.ends last)

/-- Whether the text is in the stretch after these edges. -/
def isOpen (stretch : Stretch) (passed : List Edge) : Bool :=
  stretch.isBegun passed && !stretch.isOver passed

variable {stretch : Stretch} {passed : List Edge} {id : Nat}

@[simp] theorem isBegun_append (more : List Edge) :
    stretch.isBegun (passed ++ more) = (stretch.isBegun passed || stretch.isBegun more) := by
  simp [isBegun, hasBegun]

@[simp] theorem isStopped_append (more : List Edge) :
    stretch.isStopped (passed ++ more) = (stretch.isStopped passed || stretch.isStopped more) := by
  simp [isStopped]

theorem isStopped_iff : stretch.isStopped passed = true ↔ .closing stretch.stop ∈ passed := by
  rw [isStopped, List.contains_eq_mem, decide_eq_true_eq]

/-- Nothing is beyond a stop that has not been left. -/
theorem beyond_eq_nil (h : stretch.isStopped passed = false) : stretch.beyond passed = [] := by
  rw [beyond, List.dropWhile_eq_nil_iff]
  intro edge member
  refine decide_eq_true ?_
  intro same
  rw [isStopped_iff.mpr (same ▸ member)] at h
  cases h

/-- What is passed after the stop is beyond it. -/
theorem beyond_append (more : List Edge) :
    stretch.beyond (passed ++ more) =
      if stretch.isStopped passed then stretch.beyond passed ++ more else stretch.beyond more := by
  induction passed with
  | nil => rfl
  | cons first rest ih =>
    by_cases h : first = .closing stretch.stop
    · simp [beyond, isStopped, h]
    · have same : stretch.isStopped (first :: rest) = stretch.isStopped rest := by
        simp [isStopped, Ne.symm h]
      rw [same, List.cons_append, beyond, beyond, List.dropWhile_cons_of_pos (by simpa using h),
        List.dropWhile_cons_of_pos (by simpa using h)]
      exact ih

/-- A stretch that is over has been stopped. -/
theorem isStopped_of_isOver (h : stretch.isOver passed = true) :
    stretch.isStopped passed = true := by
  unfold isOver at h
  split at h
  · exact h
  · by_contra stopped
    rw [beyond_eq_nil (Bool.eq_false_iff.mpr stopped)] at h
    simp at h

/-- A stretch that is over stays over. -/
theorem isOver_append (more : List Edge) (h : stretch.isOver passed = true) :
    stretch.isOver (passed ++ more) = true := by
  have stopped := isStopped_of_isOver h
  unfold isOver at h ⊢
  split at h
  · rw [isStopped_append, stopped, Bool.true_or]
  · rw [beyond_append, if_pos stopped, List.any_append, h, Bool.true_or]

/-- A stretch that is not over has not been over. -/
theorem not_isOver_of_append {more : List Edge} (h : stretch.isOver (passed ++ more) = false) :
    stretch.isOver passed = false := by
  by_contra hasEnded
  rw [Bool.not_eq_false] at hasEnded
  rw [isOver_append more hasEnded] at h
  cases h

/-- Entering the start begins the stretch. -/
theorem isBegun_append_opening (stretch : Stretch) (passed : List Edge) (id : Nat) :
    stretch.isBegun (passed ++ [.opening id]) =
      (stretch.isBegun passed || decide (id = stretch.start)) :=
  hasBegun_append_opening passed id stretch.start

theorem isBegun_append_closing (stretch : Stretch) (passed : List Edge) (id : Nat) :
    stretch.isBegun (passed ++ [.closing id]) = stretch.isBegun passed :=
  hasBegun_append_closing passed id stretch.start

theorem isStopped_append_opening (stretch : Stretch) (passed : List Edge) (id : Nat) :
    stretch.isStopped (passed ++ [.opening id]) = stretch.isStopped passed := by
  simp [isStopped]

/-- Leaving the stop stops the stretch. -/
theorem isStopped_append_closing (stretch : Stretch) (passed : List Edge) (id : Nat) :
    stretch.isStopped (passed ++ [.closing id]) =
      (stretch.isStopped passed || decide (id = stretch.stop)) := by
  simp [isStopped, eq_comm]

/-- Where a stretch is not over, an element that begins can end it after the stop only. -/
theorem isOver_append_opening (h : stretch.isOver passed = false) :
    stretch.isOver (passed ++ [.opening id]) = (stretch.isStopped passed && stretch.breaks id) := by
  unfold isOver at h ⊢
  split at h
  · rw [isStopped_append, h]
    rfl
  · rw [beyond_append]
    cases stopped : stretch.isStopped passed with
    | true => simp [h, ends]
    | false => simp [beyond]

/-- Where a stretch is not over, the end of an element ends it if that is the stop, or the last
element after the stop. -/
theorem isOver_append_closing (h : stretch.isOver passed = false)
    (later : stretch.last ≠ some stretch.stop) :
    stretch.isOver (passed ++ [.closing id]) =
      match stretch.last with
      | none => decide (id = stretch.stop)
      | some last => stretch.isStopped passed && decide (id = last) := by
  unfold isOver at h ⊢
  split
  · rename_i none
    simp only [none] at h
    rw [isStopped_append, h]
    simp [isStopped, eq_comm]
  · rename_i last found
    rw [found] at later
    simp only [found] at h
    rw [beyond_append]
    cases stopped : stretch.isStopped passed with
    | true =>
      rw [if_pos rfl, List.any_append, h]
      simp [ends]
    | false =>
      by_cases same : id = stretch.stop
      · have other : stretch.stop ≠ last := fun equal => later (congrArg some equal.symm)
        simp [beyond, ends, same, other]
      · simp [beyond, same]

end Stretch

/-! ## 2. What the flags of a walk tell

A walk forgets the edges and keeps whether it has reached the start, whether it is past the end,
whether it is inside the ancestor and whether it runs on after a milestone. Each flag is a question
about the edges. -/

variable {document : Document} {bounds : Bounds} {extraction : Extraction} {passed : List Edge}
  {progress : Progress} {node : Node}

/-- Whether the flags of a walk are what the passed edges tell. -/
structure Standing (document : Document) (bounds : Bounds) (extraction : Extraction)
    (passed : List Edge) (progress : Progress) : Prop where
  before : progress.frame.beforeStart = !(Stretch.of document bounds).isBegun passed
  after : progress.frame.afterEnd = (Stretch.of document bounds).isOver passed
  trailing : (Stretch.of document bounds).isOver passed = false →
    progress.trailing = (Stretch.of document bounds).isStopped passed
  inside : extraction = .external → (Stretch.of document bounds).isBegun passed = false →
    progress.frame.insideAncestor = hasBegun passed bounds.ancestor

/-- At the start of a walk no edge has been passed. -/
theorem Standing.start (extraction : Extraction) (file : SourceFile)
    (startMarker stopMarker : String) :
    Standing document bounds extraction [] (Walk.start file startMarker stopMarker) where
  before := rfl
  after := by
    unfold Stretch.isOver
    split <;> rfl
  trailing _ := rfl
  inside _ _ := rfl

/-- A walk is in range exactly while the stretch is open. -/
theorem Standing.inRange (standing : Standing document bounds extraction passed progress) :
    progress.frame.inRange = (Stretch.of document bounds).isOpen passed := by
  rw [Frame.inRange, standing.before, standing.after, Bool.not_not]
  rfl

/-- Once a stretch is over, the flags stay what they are. -/
theorem Standing.append_of_isOver (standing : Standing document bounds extraction passed progress)
    (begun : (Stretch.of document bounds).isBegun passed = true)
    (hasEnded : (Stretch.of document bounds).isOver passed = true) (more : List Edge) :
    Standing document bounds extraction (passed ++ more) progress where
  before := by rw [standing.before, Stretch.isBegun_append, begun, Bool.true_or]
  after := by rw [standing.after, hasEnded, Stretch.isOver_append more hasEnded]
  trailing still := by
    rw [Stretch.isOver_append more hasEnded] at still
    cases still
  inside _ still := by
    rw [Stretch.isBegun_append, begun, Bool.true_or] at still
    cases still

/-- In a document a node breaks the stretch of a range as a walk has it. -/
theorem Stretch.breaks_of (ordered : document.Ordered) (isNode : node ∈ document.nodes) :
    (Stretch.of document bounds).breaks node.id =
      (isMilestone node && !(Walk.within document bounds extraction).continuesEnd node) := by
  have found : document.node? node.id = some node :=
    (Document.node?_eq_some ordered).mpr ⟨isNode, rfl⟩
  simp only [Stretch.of, Walk.within, Walk.continuesEnd, found, Option.any_some]
  cases (document.node? bounds.stop).bind (·.corresp?) with
  | none => rfl
  | some urn =>
    cases node.corresp? with
    | none => rfl
    | some continued => rfl

/-! ## 3. Entering a node

Entering passes one edge, which can begin the range or, where it runs on, end it. The flags after it
and the command are read off the definition, and then off the edges. -/

namespace Walk

variable (walk : Walk)

@[simp] theorem trailing_enter : (walk.enter progress node).trailing = progress.trailing := rfl

/-- Entering a node can end a range that runs on. -/
theorem afterEnd_enter : (walk.enter progress node).frame.afterEnd =
    (progress.frame.afterEnd || walk.endsTrailing progress node) := by
  cases extraction : walk.extraction with
  | external => grind [enter, give]
  | inline => grind [enter, give]

/-- The range opens on entering the start. -/
theorem beforeStart_enter : (walk.enter progress node).frame.beforeStart =
    (progress.frame.beforeStart &&
      ((walk.enter progress node).frame.afterEnd || decide (node.id ≠ walk.bounds.start))) := by
  cases extraction : walk.extraction with
  | external => grind [enter, give]
  | inline => grind [enter, give]

/-- Before the start a walk that extracts structure notes whether it is inside the ancestor. -/
theorem insideAncestor_enter (external : walk.extraction = .external)
    (still : (walk.enter progress node).frame.afterEnd = false)
    (before : (walk.enter progress node).frame.beforeStart = true) :
    (walk.enter progress node).frame.insideAncestor =
      (progress.frame.insideAncestor || decide (node.id = walk.bounds.ancestor)) := by
  rw [beforeStart_enter, still, Bool.false_or, Bool.and_eq_true, decide_eq_true_eq] at before
  rw [afterEnd_enter, Bool.or_eq_false_iff] at still
  grind [enter, give]

/-- In range a walk copies or takes text, and does nothing else. -/
theorem inRangeCommand_ne : walk.inRangeCommand ≠ .skip ∧ walk.inRangeCommand ≠ .copyTag ∧
    walk.inRangeCommand ≠ .pass := by
  unfold inRangeCommand
  cases walk.extraction <;> decide

/-- The command for a node that is entered. -/
theorem command_enter : (walk.enter progress node).frame.command =
    if (walk.enter progress node).frame.afterEnd then .skip
    else if (walk.enter progress node).frame.beforeStart = false then walk.inRangeCommand
    else if walk.extraction = .external ∧ (node.id = walk.bounds.ancestor ∨
      progress.frame.insideAncestor = true ∧ node.contains walk.bounds.start = true) then .copyTag
    else .pass := by
  cases extraction : walk.extraction with
  | external => grind [enter, give, inRangeCommand]
  | inline => grind [enter, give, inRangeCommand]

end Walk

/-- What a walk commands for a node, told by the edges passed with the node's beginning. -/
def Stretch.command (document : Document) (bounds : Bounds) (extraction : Extraction)
    (now : List Edge) (node : Node) : Command :=
  let stretch := Stretch.of document bounds
  if stretch.isOver now then .skip
  else if stretch.isBegun now then (Walk.within document bounds extraction).inRangeCommand
  else if extraction = .external ∧ (node.id = bounds.ancestor ∨
      hasBegun now bounds.ancestor ∧ node.contains bounds.start) then .copyTag
  else .pass

/-- A walk skips a node after the range, takes it in range and leads through it before. -/
theorem Stretch.command_cases (document : Document) (bounds : Bounds) (extraction : Extraction)
    (now : List Edge) (node : Node) :
    (Stretch.of document bounds).isOver now = true ∧
        Stretch.command document bounds extraction now node = .skip ∨
      (Stretch.of document bounds).isOpen now = true ∧
        Stretch.command document bounds extraction now node =
          (Walk.within document bounds extraction).inRangeCommand ∨
      (Stretch.of document bounds).isOver now = false ∧
        (Stretch.of document bounds).isBegun now = false ∧
        (Stretch.command document bounds extraction now node = .copyTag ∨
          Stretch.command document bounds extraction now node = .pass) := by
  cases hasEnded : (Stretch.of document bounds).isOver now with
  | true => exact Or.inl ⟨rfl, by rw [command, if_pos hasEnded]⟩
  | false =>
    have notOver : ¬(Stretch.of document bounds).isOver now = true := by simp [hasEnded]
    refine Or.inr ?_
    cases begun : (Stretch.of document bounds).isBegun now with
    | true =>
      refine Or.inl ⟨by rw [isOpen, begun, hasEnded]; rfl, ?_⟩
      rw [command, if_neg notOver, if_pos begun]
    | false =>
      refine Or.inr ⟨rfl, rfl, ?_⟩
      rw [command, if_neg notOver, if_neg (by simp [begun])]
      split_ifs
      · exact Or.inl rfl
      · exact Or.inr rfl

/-- A walk skips what begins after the range. -/
theorem Stretch.isOver_of_skip {now : List Edge}
    (h : Stretch.command document bounds extraction now node = .skip) :
    (Stretch.of document bounds).isOver now = true := by
  rcases command_cases document bounds extraction now node with
    ⟨hasEnded, -⟩ | ⟨-, other⟩ | ⟨-, -, other | other⟩
  · exact hasEnded
  · rw [h] at other
    cases extraction <;> cases other
  · rw [h] at other
    cases other
  · rw [h] at other
    cases other

/-- A walk takes what begins in range. -/
theorem Stretch.isOpen_of_inRange {now : List Edge}
    (h : Stretch.command document bounds extraction now node =
      (Walk.within document bounds extraction).inRangeCommand) :
    (Stretch.of document bounds).isOpen now = true := by
  rcases command_cases document bounds extraction now node with
    ⟨-, other⟩ | ⟨isOpen, -⟩ | ⟨-, -, other | other⟩
  · rw [h] at other
    cases extraction <;> cases other
  · exact isOpen
  · rw [h] at other
    cases extraction <;> cases other
  · rw [h] at other
    cases extraction <;> cases other

/-- A walk leads through what begins before the range. -/
theorem Stretch.before_of_lead {now : List Edge}
    (noSkip : Stretch.command document bounds extraction now node ≠ .skip)
    (notTaken : Stretch.command document bounds extraction now node ≠
      (Walk.within document bounds extraction).inRangeCommand) :
    (Stretch.of document bounds).isOver now = false ∧
      (Stretch.of document bounds).isBegun now = false := by
  rcases command_cases document bounds extraction now node with
    ⟨-, skip⟩ | ⟨-, taken⟩ | ⟨notOver, notBegun, -⟩
  · exact absurd skip noSkip
  · exact absurd taken notTaken
  · exact ⟨notOver, notBegun⟩

/-- The flag for the end tells, after entering, whether the stretch is over. -/
theorem Standing.afterEnd_enter (ordered : document.Ordered) (isNode : node ∈ document.nodes)
    (standing : Standing document bounds extraction passed progress) :
    ((Walk.within document bounds extraction).enter progress node).frame.afterEnd =
      (Stretch.of document bounds).isOver (passed ++ [.opening node.id]) := by
  rw [Walk.afterEnd_enter, standing.after]
  cases hasEnded : (Stretch.of document bounds).isOver passed with
  | true => rw [Stretch.isOver_append _ hasEnded, Bool.true_or]
  | false =>
    rw [Walk.endsTrailing, standing.trailing hasEnded, Stretch.isOver_append_opening hasEnded,
      Stretch.breaks_of ordered isNode, Bool.and_assoc, Bool.false_or]

/-- A walk has not come to the start as long as no edge tells that the range has begun, if the range
has not stopped before. -/
theorem Standing.beforeStart_enter (ordered : document.Ordered) (isNode : node ∈ document.nodes)
    (standing : Standing document bounds extraction passed progress)
    (begun : (Stretch.of document bounds).isStopped passed = true →
      (Stretch.of document bounds).isBegun passed = true) :
    ((Walk.within document bounds extraction).enter progress node).frame.beforeStart =
      !(Stretch.of document bounds).isBegun (passed ++ [.opening node.id]) := by
  rw [Walk.beforeStart_enter, standing.afterEnd_enter ordered isNode, standing.before,
    Stretch.isBegun_append_opening]
  cases hasEnded : (Stretch.of document bounds).isOver (passed ++ [.opening node.id]) with
  | true =>
    have stopped := Stretch.isStopped_of_isOver hasEnded
    rw [Stretch.isStopped_append_opening] at stopped
    rw [begun stopped]
    rfl
  | false =>
    rw [Bool.false_or, decide_not, ← Bool.not_or]
    rfl

/-- Before the start a walk that extracts structure knows whether the ancestor has begun. -/
theorem Standing.insideAncestor_enter (ordered : document.Ordered)
    (isNode : node ∈ document.nodes)
    (standing : Standing document bounds .external passed progress)
    (begun : (Stretch.of document bounds).isStopped passed = true →
      (Stretch.of document bounds).isBegun passed = true)
    (notBegun : (Stretch.of document bounds).isBegun (passed ++ [.opening node.id]) = false) :
    ((Walk.within document bounds .external).enter progress node).frame.insideAncestor =
      hasBegun (passed ++ [.opening node.id]) bounds.ancestor := by
  have before : ((Walk.within document bounds .external).enter progress node).frame.beforeStart =
      true := by
    rw [standing.beforeStart_enter ordered isNode begun, notBegun]
    rfl
  rw [Stretch.isBegun_append_opening, Bool.or_eq_false_iff] at notBegun
  have still : (Stretch.of document bounds).isOver (passed ++ [.opening node.id]) = false := by
    by_contra hasEnded
    rw [Bool.not_eq_false] at hasEnded
    have stopped := Stretch.isStopped_of_isOver hasEnded
    rw [Stretch.isStopped_append_opening] at stopped
    rw [begun stopped] at notBegun
    cases notBegun.1
  rw [Walk.insideAncestor_enter _ rfl ((standing.afterEnd_enter ordered isNode).trans still) before,
    standing.inside rfl notBegun.1, hasBegun_append_opening]
  rfl

/-- What a walk commands for a node is what the edges tell. -/
theorem Standing.command_enter (ordered : document.Ordered) (isNode : node ∈ document.nodes)
    (standing : Standing document bounds extraction passed progress)
    (begun : (Stretch.of document bounds).isStopped passed = true →
      (Stretch.of document bounds).isBegun passed = true) :
    ((Walk.within document bounds extraction).enter progress node).frame.command =
      Stretch.command document bounds extraction (passed ++ [.opening node.id]) node := by
  rw [Walk.command_enter, standing.afterEnd_enter ordered isNode,
    standing.beforeStart_enter ordered isNode begun, Stretch.command]
  cases hasEnded : (Stretch.of document bounds).isOver (passed ++ [.opening node.id]) with
  | true => rfl
  | false =>
    cases notBegun : (Stretch.of document bounds).isBegun (passed ++ [.opening node.id]) with
    | true => rfl
    | false =>
      cases extraction with
      | inline => rfl
      | external =>
        rw [Stretch.isBegun_append_opening, Bool.or_eq_false_iff] at notBegun
        rw [standing.inside rfl notBegun.1, hasBegun_append_opening]
        show (if _ then Command.copyTag else .pass) = if _ then .copyTag else .pass
        refine if_congr (and_congr_right fun _ => ?_) rfl rfl
        rw [Bool.or_eq_true, decide_eq_true_eq]
        constructor
        · exact Or.imp id (And.imp Or.inl id)
        · rintro (same | ⟨has | same, below⟩)
          · exact Or.inl same
          · exact Or.inr ⟨has, below⟩
          · exact Or.inl same

/-- A walk that enters a node goes on as the edges tell, if the range has not stopped before it has
begun. -/
theorem Standing.enter (ordered : document.Ordered) (isNode : node ∈ document.nodes)
    (standing : Standing document bounds extraction passed progress)
    (begun : (Stretch.of document bounds).isStopped passed = true →
      (Stretch.of document bounds).isBegun passed = true) :
    Standing document bounds extraction (passed ++ [.opening node.id])
      ((Walk.within document bounds extraction).enter progress node) where
  before := standing.beforeStart_enter ordered isNode begun
  after := standing.afterEnd_enter ordered isNode
  trailing still := by
    rw [Walk.trailing_enter, Stretch.isStopped_append_opening]
    exact standing.trailing (Stretch.not_isOver_of_append still)
  inside external notBegun := by
    subst external
    exact standing.insideAncestor_enter ordered isNode begun notBegun

/-! ## 4. Leaving a node

Leaving passes an edge that can stop the range and that ends it if it does not run on. Nothing
begins there. -/

namespace Walk

variable (walk : Walk)

/-- Leaving a node begins no range. -/
theorem beforeStart_leave :
    (walk.leave progress node).frame.beforeStart = progress.frame.beforeStart := by
  simp only [leave]
  split_ifs <;> (try cases walk.lastParent) <;> rfl

/-- Leaving the ancestor leaves it, and leaving anything else does not. -/
theorem insideAncestor_leave : (walk.leave progress node).frame.insideAncestor =
    (progress.frame.insideAncestor && decide (node.id ≠ walk.bounds.ancestor)) := by
  cases lastParent : walk.lastParent with
  | none => grind [leave]
  | some parent => grind [leave]

/-- On leaving a node a range ends that runs on if the node is its last parent, and another one if
the node is its stop. -/
theorem afterEnd_leave : (walk.leave progress node).frame.afterEnd =
    (progress.frame.afterEnd || progress.trailing && decide (walk.lastParent = some node.id) ||
      progress.frame.inRange && !progress.trailing && decide (node.id = walk.bounds.stop) &&
        walk.lastParent.isNone) := by
  cases lastParent : walk.lastParent with
  | none => grind [leave, Frame.inRange]
  | some parent => grind [leave, Frame.inRange]

/-- A range runs on from its stop to its last parent. -/
theorem trailing_leave : (walk.leave progress node).trailing =
    if progress.trailing then decide (walk.lastParent ≠ some node.id)
    else progress.frame.inRange && decide (node.id = walk.bounds.stop) &&
      walk.lastParent.isSome := by
  cases lastParent : walk.lastParent with
  | none => grind [leave, Frame.inRange]
  | some parent => grind [leave, Frame.inRange]

end Walk

/-- A stop that is left before the range is over is in range. -/
theorem Standing.inRange_stop (standing : Standing document bounds extraction passed progress)
    (atStop : node.id = bounds.stop → (Stretch.of document bounds).isBegun passed = true)
    (notOver : (Stretch.of document bounds).isOver passed = false) :
    (progress.frame.inRange && decide (node.id = bounds.stop)) =
      decide (node.id = bounds.stop) := by
  by_cases same : node.id = bounds.stop
  · rw [standing.inRange, Stretch.isOpen, atStop same, notOver]
    rfl
  · simp [same]

/-- The flag for the end tells, after leaving, whether the stretch is over. -/
theorem Standing.afterEnd_leave (standing : Standing document bounds extraction passed progress)
    (later : (Stretch.of document bounds).last ≠ some bounds.stop)
    (atStop : node.id = bounds.stop → (Stretch.of document bounds).isBegun passed = true) :
    ((Walk.within document bounds extraction).leave progress node).frame.afterEnd =
      (Stretch.of document bounds).isOver (passed ++ [.closing node.id]) := by
  rw [Walk.afterEnd_leave, standing.after]
  cases hasEnded : (Stretch.of document bounds).isOver passed with
  | true => rw [Stretch.isOver_append _ hasEnded, Bool.true_or, Bool.true_or]
  | false =>
    rw [standing.trailing hasEnded, Stretch.isOver_append_closing hasEnded later]
    show (false || _ && decide ((Stretch.of document bounds).last = some node.id) ||
      _ && _ && decide (node.id = bounds.stop) && (Stretch.of document bounds).last.isNone) = _
    cases last : (Stretch.of document bounds).last with
    | none =>
      have none : (Stretch.of document bounds).isStopped passed = false := by
        rw [← hasEnded, Stretch.isOver, last]
      simp only [none, Bool.false_and, Bool.false_or, Bool.not_false, Bool.and_true,
        Option.isNone_none]
      exact standing.inRange_stop atStop hasEnded
    | some parent => simp [eq_comm]

/-- As long as a range is not over, it runs on once its stop has ended. -/
theorem Standing.trailing_leave (standing : Standing document bounds extraction passed progress)
    (later : (Stretch.of document bounds).last ≠ some bounds.stop)
    (atStop : node.id = bounds.stop → (Stretch.of document bounds).isBegun passed = true)
    (still : (Stretch.of document bounds).isOver (passed ++ [.closing node.id]) = false) :
    ((Walk.within document bounds extraction).leave progress node).trailing =
      (Stretch.of document bounds).isStopped (passed ++ [.closing node.id]) := by
  have notOver := Stretch.not_isOver_of_append still
  have goesOn := (standing.afterEnd_leave later atStop).trans still
  rw [Walk.afterEnd_leave, standing.trailing notOver, Bool.or_eq_false_iff,
    Bool.or_eq_false_iff] at goesOn
  rw [Walk.trailing_leave, standing.trailing notOver, Stretch.isStopped_append_closing]
  cases isStopped : (Stretch.of document bounds).isStopped passed with
  | true => simpa [isStopped] using goesOn.1.2
  | false =>
    have runsOn := goesOn.2
    rw [isStopped, Bool.not_false, Bool.and_true] at runsOn
    show (progress.frame.inRange && decide (node.id = bounds.stop) && _) =
      decide (node.id = bounds.stop)
    change (progress.frame.inRange && decide (node.id = bounds.stop) && _) = false at runsOn
    rw [standing.inRange_stop atStop notOver] at runsOn ⊢
    by_cases same : node.id = bounds.stop
    · simpa [same, Option.isSome_iff_ne_none] using runsOn
    · simp [same]

/-- A walk that leaves a node goes on as the edges tell, if the range has begun when its stop is
left or its ancestor. -/
theorem Standing.leave (standing : Standing document bounds extraction passed progress)
    (later : (Stretch.of document bounds).last ≠ some bounds.stop)
    (atStop : node.id = bounds.stop → (Stretch.of document bounds).isBegun passed = true)
    (atAncestor : node.id = bounds.ancestor → (Stretch.of document bounds).isBegun passed = true) :
    Standing document bounds extraction (passed ++ [.closing node.id])
      ((Walk.within document bounds extraction).leave progress node) where
  before := by
    rw [Walk.beforeStart_leave, Stretch.isBegun_append_closing, standing.before]
  after := standing.afterEnd_leave later atStop
  trailing := standing.trailing_leave later atStop
  inside external notBegun := by
    rw [Stretch.isBegun_append_closing] at notBegun
    rw [Walk.insideAncestor_leave, standing.inside external notBegun, hasBegun_append_closing]
    have other : node.id ≠ bounds.ancestor := by
      intro same
      rw [atAncestor same] at notBegun
      cases notBegun
    rw [decide_eq_true (show node.id ≠ (Walk.within document bounds extraction).bounds.ancestor
      from other), Bool.and_true]

end Intertext.Compile
