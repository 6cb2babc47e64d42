import Intertext.Proofs.Compile.Route
/-!
Walks before their start and from it on.

Once a walk has begun it goes on so (`Progress.Begun.visit`) and takes whatever it does not skip. As
long as it has not, it takes nothing. A walk that extracts structure then shows the tags of those
nodes that lead from the ancestor of the range to the start, and no others: it may pass through
nodes to get to the ancestor, but below the ancestor all that it passes is beside the way. Which of
the three holds is told by what has been walked (`Progress.OnTrack`), and it is kept into the node
that stands next (`OnTrack.into`, `OnTrack.through`) and past it (`OnTrack.past`).
-/

namespace Intertext.Compile

open Markup (Document Node)
open Markup.Node

variable {walk : Walk} {hides : Node → Bool} {progress : Progress} {node : Node} {nodes : List Node}
  {document : Document} {bounds : Bounds}

/-! ## 1. From the start on

The flag that says so is never set again, so this holds for the rest of the walk, and the commands
are down to two. -/

/-- Whether a walk has come to its start. -/
def Progress.Begun (progress : Progress) : Prop := progress.frame.beforeStart = false

namespace Progress.Begun

/-- A walk that has begun goes on so when it enters a node. -/
theorem enter (begun : progress.Begun) : (walk.enter progress node).Begun := by
  rw [Begun, Walk.beforeStart_enter, show progress.frame.beforeStart = false from begun]
  rfl

/-- A walk that has begun goes on so when it leaves a node. -/
theorem leave (begun : progress.Begun) : (walk.leave progress node).Begun := by
  rw [Begun, Walk.beforeStart_leave]
  exact begun

/-- A walk that has begun takes what it does not skip. -/
theorem command (begun : (walk.enter progress node).Begun) :
    (walk.enter progress node).frame.command = .skip ∨
      (walk.enter progress node).frame.command = walk.inRangeCommand := by
  rw [Walk.command_enter, if_pos (show (walk.enter progress node).frame.beforeStart = false from
    begun)]
  split
  · exact Or.inl rfl
  · exact Or.inr rfl

/-- A walk that has begun leads through nothing. -/
theorem not_lead (begun : (walk.enter progress node).Begun) :
    (walk.enter progress node).frame.command ≠ .copyTag ∧
      (walk.enter progress node).frame.command ≠ .pass := by
  obtain ⟨-, noTag, noPass⟩ := walk.inRangeCommand_ne
  rcases begun.command with command | command
  · rw [command]
    decide
  · rw [command]
    exact ⟨noTag, noPass⟩

theorem visit (begun : progress.Begun) : (visit walk hides progress node).Begun :=
  visit_keeps (fun _ _ => enter) (fun _ _ => leave) begun

theorem visitForest (begun : progress.Begun) : (visitForest walk hides progress nodes).Begun :=
  visitForest_keeps (fun _ _ => enter) (fun _ _ => leave) begun

end Progress.Begun

/-- A walk that takes a node has begun. -/
theorem begun_of_taken (taken : (walk.enter progress node).frame.command = walk.inRangeCommand) :
    (walk.enter progress node).Begun := by
  obtain ⟨noSkip, noTag, noPass⟩ := walk.inRangeCommand_ne
  cases before : (walk.enter progress node).frame.beforeStart with
  | false => exact before
  | true =>
    rw [Walk.command_enter, before] at taken
    split at taken
    · exact absurd taken.symm noSkip
    · split at taken
      · rename_i wrong
        cases wrong
      · split at taken
        · exact absurd taken.symm noTag
        · exact absurd taken.symm noPass

/-! ## 2. Before the start

A walk that has not begun keeps one flag more, whether it is in the ancestor. As the start lies in
the ancestor, the ancestor is not left before the start is entered. -/

/-- The children of a node of a document are nodes of it. -/
theorem children_mem_nodes (isNode : node ∈ document.nodes) :
    ∀ child ∈ node.children, child ∈ document.nodes := by
  intro child isChild
  exact (preorder_sublist isNode).subset (child_mem_preorder isChild)

/-- Whether a walk has not come to its start, and is inside the ancestor of the range or not. -/
structure Progress.Before (inside : Bool) (progress : Progress) : Prop where
  notBegun : progress.frame.beforeStart = true
  notOver : progress.frame.afterEnd = false
  notTrailing : progress.trailing = false
  insideAncestor : progress.frame.insideAncestor = inside

/-- Whether every node around the ancestor of a range has the start in it. -/
def Bounds.AreNested (document : Document) (bounds : Bounds) : Prop :=
  ∀ node ∈ document.nodes, bounds.ancestor ∈ node.ids → bounds.start ∈ node.ids

theorem Located.areNested (ordered : document.Ordered) (located : Located document bounds) :
    bounds.AreNested document := by
  intro node isNode inside
  obtain ⟨ancestor, isAncestor, same, holds⟩ := located.ancestor
  obtain ⟨inner, isInner, sameInner⟩ := mem_ids.mp inside
  have isThere := (preorder_sublist isNode).subset isInner
  cases Node.Ordered.eq_of_id_eq ordered isThere isAncestor (sameInner.trans same.symm)
  exact (ids_sublist isInner).subset holds

theorem before_start (file : SourceFile) (startMarker stopMarker : String) :
    (Walk.start file startMarker stopMarker).Before false := ⟨rfl, rfl, rfl, rfl⟩

namespace Progress.Before

variable {inside : Bool}

theorem afterEnd_enter (before : progress.Before inside) :
    (walk.enter progress node).frame.afterEnd = false := by
  rw [Walk.afterEnd_enter, before.notOver, Walk.endsTrailing, before.notTrailing]
  rfl

/-- On entering the start a walk begins. -/
theorem enter_start (before : progress.Before inside) (isStart : node.id = walk.bounds.start) :
    (walk.enter progress node).Begun := by
  rw [Begun, Walk.beforeStart_enter, before.afterEnd_enter, isStart]
  simp

variable (external : walk.extraction = .external)

include external

/-- Before the start a walk shows tags inside the ancestor, of what has the start in it, and
nothing else. -/
theorem enter (before : progress.Before inside) (other : node.id ≠ walk.bounds.start) :
    (walk.enter progress node).Before (inside || decide (node.id = walk.bounds.ancestor)) ∧
      (walk.enter progress node).frame.command =
        if node.id = walk.bounds.ancestor ∨ inside = true ∧ walk.bounds.start ∈ node.ids then
          .copyTag
        else .pass := by
  have goesOn : (walk.enter progress node).frame.afterEnd = false := before.afterEnd_enter
  have still : (walk.enter progress node).frame.beforeStart = true := by
    rw [Walk.beforeStart_enter, before.notBegun, goesOn]
    simpa using other
  refine ⟨⟨still, goesOn, before.notTrailing, ?_⟩, ?_⟩
  · rw [walk.insideAncestor_enter external goesOn still, before.insideAncestor]
  · rw [Walk.command_enter, goesOn, still, before.insideAncestor]
    simp only [external, true_and, contains_iff, Bool.false_eq_true, Bool.true_eq_false, if_false]

omit external in
/-- Leaving a node beside the way changes nothing. -/
theorem leave (before : progress.Before inside) (other : node.id ≠ walk.bounds.ancestor) :
    (walk.leave progress node).Before inside where
  notBegun := by rw [Walk.beforeStart_leave, before.notBegun]
  notOver := by
    rw [Walk.afterEnd_leave, before.notOver, before.notTrailing, Frame.inRange, before.notBegun]
    rfl
  notTrailing := by
    rw [Walk.trailing_leave, before.notTrailing, Frame.inRange, before.notBegun]
    rfl
  insideAncestor := by
    rw [Walk.insideAncestor_leave, before.insideAncestor, decide_eq_true other, Bool.and_true]

/-- What leads on or is passed is neither skipped nor taken. -/
theorem goes_on (before : progress.Before inside) (other : node.id ≠ walk.bounds.start) :
    (walk.enter progress node).frame.command ≠ .skip ∧
      (walk.enter progress node).frame.command ≠ walk.inRangeCommand := by
  obtain ⟨-, noTag, noPass⟩ := walk.inRangeCommand_ne
  rw [(before.enter external other).2]
  split
  · exact ⟨by decide, noTag.symm⟩
  · exact ⟨by decide, noPass.symm⟩

-- in a mutual recursion the linter misses what only the other theorem uses
set_option linter.unusedSectionVars false

mutual

/-- A walk goes past what has neither the start nor the ancestor in it as if it were not there. -/
theorem visit : ∀ {node : Node} {progress : Progress}, progress.Before inside →
    walk.bounds.start ∉ node.ids → walk.bounds.ancestor ∉ node.ids →
    (visit walk hides progress node).Before inside
  | ⟨own, path, name, attributes, text, children, tail⟩, progress, before, noStart, noAncestor => by
    rw [ids_eq, List.mem_cons, not_or] at noStart noAncestor
    have other := Ne.symm noStart.1
    obtain ⟨noSkip, notTaken⟩ := goes_on external before other
    obtain ⟨entered, -⟩ := before.enter external other
    rw [decide_eq_false (Ne.symm noAncestor.1), Bool.or_false] at entered
    rw [visit_eq, if_neg noSkip, if_neg fun both => notTaken both.1]
    exact (visitForest entered noStart.2 noAncestor.2).leave (Ne.symm noAncestor.1)

theorem visitForest : ∀ {nodes : List Node} {progress : Progress}, progress.Before inside →
    walk.bounds.start ∉ forestIds nodes → walk.bounds.ancestor ∉ forestIds nodes →
    (visitForest walk hides progress nodes).Before inside
  | [], _, before, _, _ => before
  | first :: rest, progress, before, noStart, noAncestor => by
    rw [forestIds_cons, List.mem_append, not_or] at noStart noAncestor
    rw [Compile.visitForest]
    exact visitForest (visit before noStart.1 noAncestor.1) noStart.2 noAncestor.2

end

mutual

/-- Past what has the start in it a walk has begun. -/
theorem begun_visit (nested : walk.bounds.AreNested document) : ∀ {node : Node}
    {progress : Progress} {inside : Bool}, node ∈ document.nodes → progress.Before inside →
    walk.bounds.start ∈ node.ids → (Compile.visit walk hides progress node).Begun
  | ⟨own, path, name, attributes, text, children, tail⟩, progress, inside, isNode, before,
      hasStart => by
    by_cases isStart : Node.id ⟨own, path, name, attributes, text, children, tail⟩ =
        walk.bounds.start
    · have begun := before.enter_start isStart
      rw [visit_eq]
      split
      · exact begun
      · split
        · exact begun.leave
        · exact begun.visitForest.leave
    · obtain ⟨noSkip, notTaken⟩ := goes_on external before isStart
      rw [ids_eq, List.mem_cons] at hasStart
      rw [visit_eq, if_neg noSkip, if_neg fun both => notTaken both.1]
      exact (begun_visitForest nested (children_mem_nodes isNode)
        (before.enter external isStart).1 (hasStart.resolve_left (Ne.symm isStart))).leave

theorem begun_visitForest (nested : walk.bounds.AreNested document) : ∀ {nodes : List Node}
    {progress : Progress} {inside : Bool}, (∀ node ∈ nodes, node ∈ document.nodes) →
    progress.Before inside → walk.bounds.start ∈ forestIds nodes →
    (Compile.visitForest walk hides progress nodes).Begun
  | [], _, _, _, _, hasStart => by cases hasStart
  | first :: rest, progress, inside, areNodes, before, hasStart => by
    rw [Compile.visitForest]
    by_cases inFirst : walk.bounds.start ∈ first.ids
    · exact (begun_visit nested (areNodes first List.mem_cons_self) before inFirst).visitForest
    · have noAncestor : walk.bounds.ancestor ∉ first.ids := fun isInside =>
        inFirst (nested first (areNodes first List.mem_cons_self) isInside)
      rw [forestIds_cons, List.mem_append] at hasStart
      exact begun_visitForest nested
        (fun node member => areNodes node (List.mem_cons_of_mem _ member))
        (before.visit external inFirst noAncestor) (hasStart.resolve_left inFirst)

end

end Progress.Before

/-! ## 3. The three parts of a walk

What a walk has come to is said for the nodes that are still to come: where it is in the ancestor
none of these holds that once more. -/

/-- Whether a walk that comes to some nodes has begun, or is before the start: with `inside` set, in
the ancestor of the range. -/
def Progress.OnTrack (walk : Walk) (inside : Bool) (nodes : List Node) (progress : Progress) :
    Prop :=
  progress.Begun ∨ progress.Before inside ∧
    (inside = true → ∀ node ∈ nodes, walk.bounds.ancestor ∉ node.ids)

namespace Progress.OnTrack

variable {inside : Bool} {first : Node} {rest : List Node}

/-- In a node that is taken or whose tag is shown, a walk has begun or is in the ancestor. -/
theorem into (external : walk.extraction = .external) (ordered : document.Ordered)
    (isNode : first ∈ document.nodes) (track : progress.OnTrack walk inside (first :: rest))
    (shown : (walk.enter progress first).frame.command = .copy ∨
      (walk.enter progress first).frame.command = .copyTag) :
    (walk.enter progress first).OnTrack walk true first.children := by
  rcases track with begun | ⟨before, apart⟩
  · exact Or.inl begun.enter
  -- the tag is shown because the node is the ancestor or the walk is in it
  · by_cases isStart : first.id = walk.bounds.start
    · exact Or.inl (before.enter_start isStart)
    · obtain ⟨entered, command⟩ := before.enter external isStart
      rw [command] at shown
      split at shown
      · rename_i leads
        have isInside : (inside || decide (first.id = walk.bounds.ancestor)) = true := by
          rcases leads with isAncestor | ⟨isInside, -⟩
          · rw [decide_eq_true isAncestor, Bool.or_true]
          · rw [isInside, Bool.true_or]
        rw [isInside] at entered
        refine Or.inr ⟨entered, fun _ child isChild isBelow => ?_⟩
        have below : walk.bounds.ancestor ∈ forestIds first.children :=
          mem_forestIds.mpr ⟨child, isChild, isBelow⟩
        rcases leads with isAncestor | ⟨isInside, -⟩
        · exact absurd isAncestor
            (Nat.ne_of_lt ((Node.Ordered.of_mem ordered isNode).lt_of_mem below))
        · exact apart isInside first List.mem_cons_self (mem_ids_of_below below)
      · rcases shown with shown | shown <;> cases shown

/-- In a node that is passed a walk is where it was. -/
theorem through (external : walk.extraction = .external)
    (track : progress.OnTrack walk inside (first :: rest))
    (passed : (walk.enter progress first).frame.command = .pass) :
    (walk.enter progress first).OnTrack walk inside first.children ∧
      (inside = true → walk.bounds.start ∉ first.ids) := by
  rcases track with begun | ⟨before, apart⟩
  · exact absurd passed begun.enter.not_lead.2
  · have isOther : first.id ≠ walk.bounds.start := fun isStart =>
      (before.enter_start isStart).not_lead.2 passed
    obtain ⟨entered, command⟩ := before.enter external isOther
    rw [command] at passed
    split at passed
    · cases passed
    · rename_i aside
      rw [not_or, not_and] at aside
      rw [decide_eq_false aside.1, Bool.or_false] at entered
      refine ⟨Or.inr ⟨entered, fun isInside child isChild isBelow => ?_⟩, aside.2⟩
      exact apart isInside first List.mem_cons_self
        (mem_ids_of_below (mem_forestIds.mpr ⟨child, isChild, isBelow⟩))

/-- Past a node a walk has begun if the node has the start in it, or else is where it was. -/
theorem past (external : walk.extraction = .external) (nested : walk.bounds.AreNested document)
    (isNode : first ∈ document.nodes) (track : progress.OnTrack walk inside (first :: rest)) :
    (visit walk hides progress first).OnTrack walk inside rest := by
  rcases track with begun | ⟨before, apart⟩
  · exact Or.inl begun.visit
  · by_cases hasStart : walk.bounds.start ∈ first.ids
    · exact Or.inl (before.begun_visit external nested isNode hasStart)
    · refine Or.inr ⟨before.visit external hasStart fun isInside => ?_,
        fun isInside node member => ?_⟩
      · exact hasStart (nested first isNode isInside)
      · exact apart isInside node (List.mem_cons_of_mem _ member)

end Progress.OnTrack

end Intertext.Compile
