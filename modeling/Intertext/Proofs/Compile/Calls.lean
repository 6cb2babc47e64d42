import Intertext.Proofs.Compile.Alike
import Intertext.Proofs.Compile.Onset
/-!
The calls of a walk.

A walk enters nodes and leaves them. Each of these calls is made at an edge of the tree and takes
the walk from where it stands to where it goes on (`Call`), and `calls` lists all of them, in order,
if it is known which nodes hide what is in them. A single call can open the range but never undo
that, and close it but never undo that, and the range is not closed before it is opened
(`Call.IsMade.advances`). By induction on the calls the same holds of whole walks: they open the
range on entering its start and nowhere else (`Linked.opens_iff`), and give their commands in three
phases (`Linked.inPhases`). What a call depends on besides the flags goes on along the tree from one
node to the next (`Spreads`).
-/

namespace Intertext.Compile

open Markup (Node Edge)
open Markup.Node (edges forestEdges forestEdges_cons forestPreorder mem_preorder_self)

/-! ## 1. Calls

A visit takes the same way as these calls and only keeps where it ends. The lemmas about single
calls need every step between, and so do traces. -/

/-- A call at an edge, with where the walk stands before and after it. -/
structure Call where
  edge : Edge
  before : Progress
  after : Progress
deriving DecidableEq, Repr

mutual

/-- The calls of a walk at a node and in it, if the walk does not go into nodes in range that hide
what is in them. -/
def calls (walk : Walk) (hides : Node → Bool) (progress : Progress) : Node → List Call
  | node@⟨_, _, _, _, _, children, _⟩ =>
    let entered := walk.enter progress node
    let entering : Call := ⟨.opening node.id, progress, entered⟩
    if entered.frame.command = .skip then [entering]
    else if entered.frame.command = walk.inRangeCommand ∧ hides node = true then
      [entering, ⟨.closing node.id, entered, walk.leave entered node⟩]
    else
      let inside := visitForest walk hides entered children
      entering :: (callsForest walk hides entered children ++
        [⟨.closing node.id, inside, walk.leave inside node⟩])

/-- The calls of a walk at the nodes of a forest and in them. -/
def callsForest (walk : Walk) (hides : Node → Bool) (progress : Progress) : List Node → List Call
  | [] => []
  | first :: rest =>
    calls walk hides progress first ++
      callsForest walk hides (visit walk hides progress first) rest

end

/-- The node that a call enters and the command that is given for it. -/
def Call.entry? (call : Call) : Option (Nat × Command) :=
  match call.edge with
  | .opening id => some (id, call.after.frame.command)
  | .closing _ => none

/-- The nodes that some calls enter, each with the command that is given for it. -/
def entries (log : List Call) : List (Nat × Command) := log.filterMap Call.entry?

variable {walk : Walk} {hides : Node → Bool} {progress last : Progress} {node : Node}
  {nodes : List Node} {log : List Call} {call : Call}

/-- What a walk does at a node: it skips it, or it enters it, goes through what is not hidden there,
and leaves it. -/
theorem calls_cases (walk : Walk) (hides : Node → Bool) (progress : Progress) (node : Node) :
    let entered := walk.enter progress node
    entered.frame.command = .skip ∧ visit walk hides progress node = entered ∧
        calls walk hides progress node = [⟨.opening node.id, progress, entered⟩] ∨
      entered.frame.command ≠ .skip ∧ ∃ inner,
        (inner = [] ∧ (entered.frame.command = walk.inRangeCommand ∧ hides node = true) ∨
          inner = node.children ∧
            ¬ (entered.frame.command = walk.inRangeCommand ∧ hides node = true)) ∧
        visit walk hides progress node = walk.leave (visitForest walk hides entered inner) node ∧
        calls walk hides progress node = ⟨.opening node.id, progress, entered⟩ ::
          (callsForest walk hides entered inner ++
            [⟨.closing node.id, visitForest walk hides entered inner,
              walk.leave (visitForest walk hides entered inner) node⟩]) := by
  obtain ⟨id, path, name, attributes, text, children, tail⟩ := node
  intro entered
  simp only [calls, visit]
  split_ifs with skip hidden
  · exact Or.inl ⟨skip, rfl, rfl⟩
  · exact Or.inr ⟨skip, [], Or.inl ⟨rfl, hidden⟩, rfl, rfl⟩
  · exact Or.inr ⟨skip, children, Or.inr ⟨rfl, hidden⟩, rfl, rfl⟩

/-- A walk that comes to a node enters it. -/
theorem mem_calls_entering (walk : Walk) (hides : Node → Bool) (progress : Progress) (node : Node) :
    (⟨.opening node.id, progress, walk.enter progress node⟩ : Call) ∈
      calls walk hides progress node := by
  rcases calls_cases walk hides progress node with ⟨-, -, made⟩ | ⟨-, inner, -, -, made⟩
  · rw [made]
    exact List.mem_cons_self
  · rw [made]
    exact List.mem_cons_self

/-! ## 2. One call after another

The calls of a walk are linked, made at edges in their order, and each of them enters or leaves a
node of the tree. Nothing else is used of a walk in the sections below. -/

/-- Whether each of some calls goes on where the one before it left off. -/
def Linked : Progress → List Call → Progress → Prop
  | progress, [], last => progress = last
  | progress, call :: rest, last => call.before = progress ∧ Linked call.after rest last

/-- Linked calls after linked calls are linked. -/
theorem Linked.append {between : Progress} {more : List Call} :
    ∀ {log : List Call} {progress : Progress}, Linked progress log between →
      Linked between more last → Linked progress (log ++ more) last
  | [], _, linked, further => linked ▸ further
  | _ :: _, _, ⟨isFirst, linked⟩, further => ⟨isFirst, linked.append further⟩

theorem Linked.concat (linked : Linked progress log call.before) :
    Linked progress (log ++ [call]) call.after :=
  linked.append ⟨rfl, rfl⟩

mutual

/-- The calls of a walk at a node lead to where it stands after the node. -/
theorem linked_calls : ∀ {node : Node} {progress : Progress},
    Linked progress (calls walk hides progress node) (visit walk hides progress node)
  | ⟨id, path, name, attributes, text, children, tail⟩, progress => by
    rcases calls_cases walk hides progress ⟨id, path, name, attributes, text, children, tail⟩ with
      ⟨-, after, made⟩ | ⟨-, inner, part, after, made⟩
    · rw [after, made]
      exact ⟨rfl, rfl⟩
    · rw [after, made]
      refine ⟨rfl, Linked.concat ?_⟩
      rcases part with ⟨rfl, -⟩ | ⟨rfl, -⟩
      · rfl
      · exact linked_callsForest

/-- The calls at nodes lead to where the walk stands after the last of them. -/
theorem linked_callsForest : ∀ {nodes : List Node} {progress : Progress},
    Linked progress (callsForest walk hides progress nodes) (visitForest walk hides progress nodes)
  | [], _ => rfl
  | first :: rest, progress => by
    rw [callsForest, visitForest]
    exact linked_calls.append linked_callsForest

end

mutual

/-- The calls of a walk are made at edges of the tree, in their order. -/
theorem edges_calls_sublist : ∀ {node : Node} {progress : Progress},
    ((calls walk hides progress node).map (·.edge)).Sublist node.edges
  | ⟨id, path, name, attributes, text, children, tail⟩, progress => by
    rcases calls_cases walk hides progress ⟨id, path, name, attributes, text, children, tail⟩ with
      ⟨-, -, made⟩ | ⟨-, inner, part, -, made⟩
    · rw [made, edges]
      exact List.Sublist.cons_cons _ (List.nil_sublist _)
    · rw [made, edges, List.map_cons, List.map_append]
      refine List.Sublist.cons_cons _ (List.Sublist.append ?_ (List.Sublist.refl _))
      rcases part with ⟨rfl, -⟩ | ⟨rfl, -⟩
      · exact List.nil_sublist _
      · exact edges_callsForest_sublist

/-- The calls at nodes are made at edges of the forest, in their order. -/
theorem edges_callsForest_sublist : ∀ {nodes : List Node} {progress : Progress},
    ((callsForest walk hides progress nodes).map (·.edge)).Sublist (forestEdges nodes)
  | [], _ => List.Sublist.refl _
  | first :: rest, progress => by
    rw [callsForest, List.map_append, forestEdges_cons]
    exact edges_calls_sublist.append edges_callsForest_sublist

end

/-- Whether a call enters or leaves one of some nodes. -/
inductive Call.IsMade (walk : Walk) (nodes : List Node) : Call → Prop where
  | entering {node : Node} (progress : Progress) (isNode : node ∈ nodes) :
    IsMade walk nodes ⟨.opening node.id, progress, walk.enter progress node⟩
  | leaving {node : Node} (progress : Progress) (isNode : node ∈ nodes) :
    IsMade walk nodes ⟨.closing node.id, progress, walk.leave progress node⟩

theorem Call.IsMade.of_subset {others : List Node} (made : call.IsMade walk nodes)
    (subset : nodes ⊆ others) : call.IsMade walk others := by
  cases made with
  | entering progress isNode => exact .entering progress (subset isNode)
  | leaving progress isNode => exact .leaving progress (subset isNode)

mutual

/-- The calls of a walk enter and leave nodes of the tree. -/
theorem isMade_calls : ∀ {node : Node} {progress : Progress},
    ∀ call ∈ calls walk hides progress node, call.IsMade walk node.preorder
  | ⟨id, path, name, attributes, text, children, tail⟩, progress => by
    intro call member
    rcases calls_cases walk hides progress ⟨id, path, name, attributes, text, children, tail⟩ with
      ⟨-, -, made⟩ | ⟨-, inner, part, -, made⟩
    · rw [made] at member
      rw [List.mem_singleton.mp member]
      exact .entering progress (mem_preorder_self _)
    · rw [made] at member
      rcases List.mem_cons.mp member with rfl | member
      · exact .entering progress (mem_preorder_self _)
      · rcases List.mem_append.mp member with member | member
        · rcases part with ⟨rfl, -⟩ | ⟨rfl, -⟩
          · cases member
          · exact (isMade_callsForest call member).of_subset (List.subset_cons_self _ _)
        · rw [List.mem_singleton.mp member]
          exact .leaving _ (mem_preorder_self _)

/-- The calls at nodes enter and leave nodes of the forest. -/
theorem isMade_callsForest : ∀ {nodes : List Node} {progress : Progress},
    ∀ call ∈ callsForest walk hides progress nodes, call.IsMade walk (forestPreorder nodes)
  | [], _ => fun _ member => by cases member
  | first :: rest, progress => by
    intro call member
    rw [callsForest] at member
    rcases List.mem_append.mp member with member | member
    · exact (isMade_calls call member).of_subset (List.subset_append_left _ _)
    · exact (isMade_callsForest call member).of_subset (List.subset_append_right _ _)

end

/-- Whether what holds of a walk at a node goes on to what it enters there: from the node to its
children, and from one of them to the next. -/
structure Spreads (walk : Walk) (hides : Node → Bool) (P : Progress → Node → Prop)
    (PForest : Progress → List Node → Prop) : Prop where
  into : ∀ {progress : Progress} {node : Node}, P progress node →
    (walk.enter progress node).frame.command ≠ .skip →
    ¬ ((walk.enter progress node).frame.command = walk.inRangeCommand ∧ hides node = true) →
      PForest (walk.enter progress node) node.children
  first : ∀ {progress : Progress} {first : Node} {rest : List Node},
    PForest progress (first :: rest) → P progress first
  next : ∀ {progress : Progress} {first : Node} {rest : List Node},
    PForest progress (first :: rest) → PForest (visit walk hides progress first) rest

section Spreads

variable {P : Progress → Node → Prop} {PForest : Progress → List Node → Prop}
  (spreads : Spreads walk hides P PForest)

include spreads

-- in a mutual recursion the linter misses what only the other theorem uses
set_option linter.unusedSectionVars false

mutual

/-- What goes on holds wherever a walk enters a node. -/
theorem Spreads.of_calls : ∀ {node : Node} {progress : Progress}, P progress node →
    ∀ call ∈ calls walk hides progress node, ∀ id, call.edge = .opening id →
      ∃ inner ∈ node.preorder, inner.id = id ∧ call.after = walk.enter call.before inner ∧
        P call.before inner
  | ⟨own, path, name, attributes, text, children, tail⟩, progress, holds, call, member, id,
      enters => by
    rcases calls_cases walk hides progress ⟨own, path, name, attributes, text, children, tail⟩ with
      ⟨-, -, made⟩ | ⟨noSkip, inner, part, -, made⟩
    · rw [made] at member
      cases List.mem_singleton.mp member
      exact ⟨_, mem_preorder_self _, Edge.opening.inj enters, rfl, holds⟩
    · rw [made] at member
      rcases List.mem_cons.mp member with rfl | member
      · exact ⟨_, mem_preorder_self _, Edge.opening.inj enters, rfl, holds⟩
      · rcases List.mem_append.mp member with member | member
        · rcases part with ⟨rfl, -⟩ | ⟨rfl, shown⟩
          · cases member
          · obtain ⟨found, below, rest⟩ :=
              Spreads.of_callsForest (spreads.into holds noSkip shown) call member id enters
            exact ⟨found, List.mem_cons_of_mem _ below, rest⟩
        · cases List.mem_singleton.mp member
          cases enters

/-- What goes on holds wherever nodes in a forest are entered. -/
theorem Spreads.of_callsForest : ∀ {nodes : List Node} {progress : Progress},
    PForest progress nodes →
    ∀ call ∈ callsForest walk hides progress nodes, ∀ id, call.edge = .opening id →
      ∃ inner ∈ forestPreorder nodes, inner.id = id ∧ call.after = walk.enter call.before inner ∧
        P call.before inner
  | [], _, _, _, member, _, _ => by cases member
  | first :: rest, progress, holds, call, member, id, enters => by
    rw [callsForest] at member
    rcases List.mem_append.mp member with member | member
    · obtain ⟨found, below, rest⟩ := Spreads.of_calls (spreads.first holds) call member id enters
      exact ⟨found, List.mem_append_left _ below, rest⟩
    · obtain ⟨found, below, rest⟩ :=
        Spreads.of_callsForest (spreads.next holds) call member id enters
      exact ⟨found, List.mem_append_right _ below, rest⟩

end

end Spreads

/-! ## 3. What one call does

A range that has not begun is not over either: this is what a walk starts with (`Progress.IsSound`),
and it is needed to tell that entering the start does begin the range. -/

/-- In range is what has begun and is not over. -/
theorem Frame.inRange_iff {frame : Frame} :
    frame.inRange = true ↔ frame.beforeStart = false ∧ frame.afterEnd = false := by
  simp [Frame.inRange]

/-- Whether a walk that has not come to its start has not come to its end either. -/
def Progress.IsSound (progress : Progress) : Prop :=
  progress.frame.beforeStart = true →
    progress.frame.afterEnd = false ∧ progress.trailing = false

/-- What is kept from one progress to the next. -/
structure Progress.Advances (before after : Progress) : Prop where
  begun : before.frame.beforeStart = false → after.frame.beforeStart = false
  ended : before.frame.afterEnd = true → after.frame.afterEnd = true
  sound : before.IsSound → after.IsSound

/-- Entering a node undoes nothing. -/
theorem Progress.Advances.enter (walk : Walk) (progress : Progress) (node : Node) :
    progress.Advances (walk.enter progress node) where
  begun := Progress.Begun.enter
  ended hasEnded := by rw [Walk.afterEnd_enter, hasEnded, Bool.true_or]
  sound sound notBegun := by
    rw [Walk.beforeStart_enter, Bool.and_eq_true] at notBegun
    obtain ⟨notOver, notTrailing⟩ := sound notBegun.1
    rw [Walk.afterEnd_enter, Walk.endsTrailing, notOver, notTrailing]
    exact ⟨rfl, notTrailing⟩

/-- Leaving a node undoes nothing. -/
theorem Progress.Advances.leave (walk : Walk) (progress : Progress) (node : Node) :
    progress.Advances (walk.leave progress node) where
  begun := Progress.Begun.leave
  ended hasEnded := by rw [Walk.afterEnd_leave, hasEnded, Bool.true_or, Bool.true_or]
  sound sound notBegun := by
    rw [Walk.beforeStart_leave] at notBegun
    obtain ⟨notOver, notTrailing⟩ := sound notBegun
    rw [Walk.afterEnd_leave, Walk.trailing_leave, notOver, notTrailing, Frame.inRange, notBegun]
    exact ⟨rfl, rfl⟩

/-- A call opens the range or closes it, and does not undo either. -/
theorem Call.IsMade.advances (made : call.IsMade walk nodes) : call.before.Advances call.after := by
  cases made with
  | entering progress isNode => exact .enter walk progress _
  | leaving progress isNode => exact .leave walk progress _

/-- A call before the start opens the range exactly if it enters the start. -/
theorem Call.IsMade.begun_iff (made : call.IsMade walk nodes) (sound : call.before.IsSound)
    (notBegun : call.before.frame.beforeStart = true) :
    call.after.frame.beforeStart = false ↔ call.edge = .opening walk.bounds.start := by
  cases made with
  | @entering node progress isNode =>
    obtain ⟨notOver, notTrailing⟩ := sound notBegun
    rw [Walk.beforeStart_enter, Walk.afterEnd_enter, Walk.endsTrailing]
    change progress.frame.beforeStart = true at notBegun
    change progress.frame.afterEnd = false at notOver
    change progress.trailing = false at notTrailing
    simp [notBegun, notOver, notTrailing]
  | @leaving node progress isNode =>
    change progress.frame.beforeStart = true at notBegun
    rw [Walk.beforeStart_leave, notBegun]
    simp

/-- No call closes the range before the start. -/
theorem Call.IsMade.not_over (made : call.IsMade walk nodes) (sound : call.before.IsSound)
    (notBegun : call.before.frame.beforeStart = true) : call.after.frame.afterEnd = false := by
  cases made with
  | @entering node progress isNode =>
    obtain ⟨notOver, notTrailing⟩ := sound notBegun
    change progress.frame.afterEnd = false at notOver
    change progress.trailing = false at notTrailing
    rw [Walk.afterEnd_enter, Walk.endsTrailing, notOver, notTrailing]
    rfl
  | @leaving node progress isNode =>
    refine ((Progress.Advances.leave walk progress node).sound sound ?_).1
    rw [Walk.beforeStart_leave]
    exact notBegun

/-- The command for a node is told by where the walk stands after it has been entered. -/
theorem Call.IsMade.command (made : call.IsMade walk nodes) {id : Nat}
    (enters : call.edge = .opening id) :
    call.after.frame.afterEnd = true ∧ call.after.frame.command = .skip ∨
      call.after.frame.inRange = true ∧ call.after.frame.command = walk.inRangeCommand ∨
      call.after.frame.afterEnd = false ∧ call.after.frame.beforeStart = true ∧
        (call.after.frame.command = .copyTag ∧ walk.extraction = .external ∨
          call.after.frame.command = .pass) := by
  cases made with
  | leaving progress isNode => cases enters
  | entering progress isNode => exact command_of_enter walk progress _

/-! ## 4. What many calls do

By induction on the calls. All edges of a tree are different, so the start is entered by one call at
most, and the range begins with that and no other. -/

/-- Where nothing is done nothing is undone. -/
theorem Progress.Advances.refl (progress : Progress) : progress.Advances progress := ⟨id, id, id⟩

/-- What undoes nothing, one after another, undoes nothing. -/
theorem Progress.Advances.trans {first second third : Progress} (early : first.Advances second)
    (late : second.Advances third) : first.Advances third :=
  ⟨late.begun ∘ early.begun, late.ended ∘ early.ended, late.sound ∘ early.sound⟩

/-- Calls one after another keep what each of them keeps. -/
theorem Linked.advances : ∀ {log : List Call} {progress : Progress}, Linked progress log last →
    (∀ call ∈ log, call.IsMade walk nodes) → progress.Advances last
  | [], _, linked, _ => linked ▸ .refl _
  | _ :: _, _, ⟨isFirst, linked⟩, made => by
    obtain ⟨isMade, made⟩ := List.forall_mem_cons.mp made
    rw [← isFirst]
    exact isMade.advances.trans (linked.advances made)

/-- The calls before a call lead to where it is made. -/
theorem Linked.split {before after : List Call} : ∀ {progress : Progress},
    Linked progress (before ++ call :: after) last → Linked progress before call.before := by
  induction before with
  | nil => exact fun linked => linked.1.symm
  | cons first before ih => exact fun ⟨isFirst, linked⟩ => ⟨isFirst, ih linked⟩

/-- Calls that open the range enter its start. -/
theorem Linked.exists_opening : ∀ {log : List Call} {progress : Progress},
    Linked progress log last → (∀ call ∈ log, call.IsMade walk nodes) → progress.IsSound →
      progress.frame.beforeStart = true → last.frame.beforeStart = false →
        ∃ call ∈ log, call.edge = .opening walk.bounds.start
  | [], progress, linked, _, _, before, after => by
    cases linked
    rw [before] at after
    cases after
  | first :: rest, progress, ⟨isFirst, linked⟩, made, sound, before, after => by
    obtain ⟨isMade, made⟩ := List.forall_mem_cons.mp made
    rw [← isFirst] at sound before
    -- the first call enters the start, or the start is still to come
    cases opened : first.after.frame.beforeStart with
    | false => exact ⟨first, List.mem_cons_self, (isMade.begun_iff sound before).mp opened⟩
    | true =>
      obtain ⟨call, member, enters⟩ :=
        linked.exists_opening made (isMade.advances.sound sound) opened after
      exact ⟨call, List.mem_cons_of_mem _ member, enters⟩

section Run

variable (linked : Linked progress log last) (made : ∀ call ∈ log, call.IsMade walk nodes)
  (sound : progress.IsSound)

include linked made sound

/-- Before each of some calls that begin soundly the walk stands soundly. -/
theorem Linked.sound_before (member : call ∈ log) : call.before.IsSound := by
  obtain ⟨before, after, rfl⟩ := List.append_of_mem member
  exact (linked.split.advances fun earlier isEarlier =>
    made earlier (List.mem_append_left _ isEarlier)).sound sound

/-- Of calls at different edges the one that enters the start opens the range, and no other one
opens it or undoes that. -/
theorem Linked.opens_iff (distinct : (log.map (·.edge)).Nodup)
    (notBegun : progress.frame.beforeStart = true) (member : call ∈ log) :
    call.edge = .opening walk.bounds.start ∧ call.before.frame.beforeStart = true ∧
        call.after.frame.beforeStart = false ∨
      call.edge ≠ .opening walk.bounds.start ∧
        call.after.frame.beforeStart = call.before.frame.beforeStart := by
  have isMade := made call member
  have isSound := linked.sound_before made sound member
  obtain ⟨before, after, rfl⟩ := List.append_of_mem member
  cases begun : call.before.frame.beforeStart with
  | true =>
    by_cases enters : call.edge = .opening walk.bounds.start
    · exact Or.inl ⟨enters, rfl, (isMade.begun_iff isSound begun).mpr enters⟩
    · refine Or.inr ⟨enters, (Bool.not_eq_false _).mp fun opened => enters ?_⟩
      exact (isMade.begun_iff isSound begun).mp opened
  | false =>
    -- an earlier call has entered the start
    refine Or.inr ⟨fun enters => ?_, isMade.advances.begun begun⟩
    obtain ⟨earlier, isEarlier, same⟩ := linked.split.exists_opening
      (fun other isOther => made other (List.mem_append_left _ isOther)) sound notBegun begun
    rw [List.map_append, List.map_cons, List.nodup_append] at distinct
    exact distinct.2.2 _ (List.mem_map_of_mem isEarlier) _ List.mem_cons_self
      (same.trans enters.symm)

/-- A call that closes the range is made after the start, and none undoes that. -/
theorem Linked.closes (member : call ∈ log) :
    call.after.frame.afterEnd = call.before.frame.afterEnd ∨
      call.before.frame.beforeStart = false ∧ call.before.frame.afterEnd = false ∧
        call.after.frame.afterEnd = true := by
  have isMade := made call member
  cases hasEnded : call.before.frame.afterEnd with
  | true => exact Or.inl (isMade.advances.ended hasEnded)
  | false =>
    cases ended : call.after.frame.afterEnd with
    | false => exact Or.inl rfl
    | true =>
      refine Or.inr ⟨(Bool.not_eq_true _).mp fun notBegun => ?_, rfl, rfl⟩
      rw [isMade.not_over (linked.sound_before made sound member) notBegun] at ended
      cases ended

end Run

/-! ## 5. Commands

The commands of the calls come in three phases since the flags of a walk only go one way. By
induction from the last call on: the command of a call is put before those of the later ones, and
what the later ones may be is told by where the call leads to. -/

/-- The numbers of the nodes that are entered are those of the edges at which that is done. -/
theorem map_fst_entries (log : List Call) :
    (entries log).map (·.1) = (log.map (·.edge)).filterMap Edge.opened? := by
  rw [entries, List.map_filterMap, List.filterMap_map]
  refine congrArg (log.filterMap ·) (funext fun call => ?_)
  rw [Function.comp_apply, Call.entry?]
  cases call.edge <;> rfl

/-- Whether commands come in three phases: first those that lead to a range, then those that take
what is in it, then those that skip what comes after it. -/
def InPhases (walk : Walk) (commands : List Command) : Prop :=
  ∃ lead taken skipped, commands = lead ++ taken ++ skipped ∧
    (∀ command ∈ lead, command = .pass ∨ command = .copyTag) ∧
    (∀ command ∈ taken, command = walk.inRangeCommand) ∧ ∀ command ∈ skipped, command = .skip

/-- The commands of a walk come in phases; none leads to the range once it has begun, and all skip
once it is over. -/
theorem Linked.phases : ∀ {log : List Call} {progress : Progress}, Linked progress log last →
    (∀ call ∈ log, call.IsMade walk nodes) →
      ∃ lead taken skipped, (entries log).map (·.2) = lead ++ taken ++ skipped ∧
        (∀ command ∈ lead, command = .pass ∨ command = .copyTag) ∧
        (∀ command ∈ taken, command = walk.inRangeCommand) ∧
        (∀ command ∈ skipped, command = .skip) ∧
        (progress.frame.beforeStart = false → lead = []) ∧
        (progress.frame.afterEnd = true → lead = [] ∧ taken = [])
  | [], _, _, _ => ⟨[], [], [], rfl, by simp, by simp, by simp, fun _ => rfl, fun _ => ⟨rfl, rfl⟩⟩
  | first :: rest, progress, ⟨isFirst, linked⟩, made => by
    obtain ⟨isMade, made⟩ := List.forall_mem_cons.mp made
    obtain ⟨lead, taken, skipped, whole, leads, takes, skips, begun, ended⟩ := linked.phases made
    have advances := isMade.advances
    rw [isFirst] at advances
    -- only a call that enters a node gives a command
    cases edge : first.edge with
    | closing id =>
      have same : entries (first :: rest) = entries rest := by
        rw [entries, List.filterMap_cons_none]
        · rfl
        · rw [Call.entry?, edge]
      rw [same]
      exact ⟨lead, taken, skipped, whole, leads, takes, skips, fun before => begun
        (advances.begun before), fun after => ended (advances.ended after)⟩
    | opening id =>
      have command : (entries (first :: rest)).map (·.2) =
          first.after.frame.command :: (lead ++ taken ++ skipped) := by
        rw [← whole, entries, List.filterMap_cons_some (b := (id, first.after.frame.command))]
        · rfl
        · rw [Call.entry?, edge]
      rw [command]
      rcases isMade.command edge with ⟨hasEnded, skip⟩ | ⟨inside, inRange⟩ |
        ⟨still, notBegun, leading⟩
      -- over: all later ones skip
      · obtain ⟨rfl, rfl⟩ := ended hasEnded
        refine ⟨[], [], .skip :: skipped, by rw [skip]; rfl, by simp, by simp, ?_, fun _ => rfl,
          fun _ => ⟨rfl, rfl⟩⟩
        exact List.forall_mem_cons.mpr ⟨rfl, skips⟩
      -- in range: none of the later ones leads there
      · obtain ⟨hasBegun, still⟩ := Frame.inRange_iff.mp inside
        obtain rfl := begun hasBegun
        refine ⟨[], walk.inRangeCommand :: taken, skipped, by rw [inRange]; rfl, by simp, ?_, skips,
          fun _ => rfl, fun after => ?_⟩
        · exact List.forall_mem_cons.mpr ⟨rfl, takes⟩
        · rw [advances.ended after] at still
          cases still
      -- before the range: the walk has neither begun nor ended
      · refine ⟨first.after.frame.command :: lead, taken, skipped, rfl, ?_, takes, skips,
          fun before => ?_, fun after => ?_⟩
        · exact List.forall_mem_cons.mpr ⟨(leading.imp_left And.left).symm, leads⟩
        · rw [advances.begun before] at notBegun
          cases notBegun
        · rw [advances.ended after] at still
          cases still

/-- The commands of linked calls come in phases. -/
theorem Linked.inPhases (linked : Linked progress log last)
    (made : ∀ call ∈ log, call.IsMade walk nodes) : InPhases walk ((entries log).map (·.2)) := by
  obtain ⟨lead, taken, skipped, whole, leads, takes, skips, -⟩ := linked.phases made
  exact ⟨lead, taken, skipped, whole, leads, takes, skips⟩

end Intertext.Compile
