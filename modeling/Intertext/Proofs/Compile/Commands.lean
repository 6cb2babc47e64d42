import Intertext.Proofs.Compile.Calls
import Intertext.Proofs.Compile.Gathered
import Intertext.Proofs.Compile.Shown
import Intertext.Proofs.Compile.Traces
/-!
The commands in the trace of a walk.

The trace of a walk lists the nodes that it enters, each with the command for it, between whatever
happens in further frames meanwhile. Further frames are closed again, so what they enter can be told
apart by counting (`commandsAt`). What a walk that succeeds enters itself is what its calls enter
(`enters_external`, `enters_inline`).
-/

namespace Intertext.Compile

open Markup (Element Node)

/-! ## 1. Commands at a depth

Only what is entered at depth zero counts. A trace may lower the depth below the one it began at,
and the counting would not notice at zero, so a trace is quiet if it changes nothing at any depth,
and balanced if it is so within a frame that is open. -/

/-- The nodes that are entered outside of further frames, with the commands for them, if so many
frames are open. -/
def commandsAt : Nat → List Event → List (Nat × Command)
  | _, [] => []
  | depth, .opened _ :: rest => commandsAt (depth + 1) rest
  | depth, .closed :: rest => commandsAt (depth - 1) rest
  | depth, .read _ _ :: rest => commandsAt depth rest
  | 0, .entered id command :: rest => (id, command) :: commandsAt 0 rest
  | depth + 1, .entered _ _ :: rest => commandsAt (depth + 1) rest

/-- Whether nothing of a trace is entered outside of further frames, and all frames are closed that
are opened in it. -/
def IsQuiet (trace : List Event) : Prop :=
  ∀ depth rest, commandsAt depth (trace ++ rest) = commandsAt depth rest

/-- Whether all frames are closed that are opened in a trace, and no others. -/
def IsBalanced (trace : List Event) : Prop :=
  ∀ depth rest, commandsAt (depth + 1) (trace ++ rest) = commandsAt (depth + 1) rest

/-- Further frames are quiet. -/
theorem frames_quiet (library : Library) : library.Frames IsBalanced IsQuiet where
  keepsWithin := {
    nil := fun _ _ => rfl
    append := fun early late depth rest => by rw [List.append_assoc, early, late]
    read := fun _ _ _ => by simp [commandsAt] }
  keepsClosed := {
    nil := fun _ _ => rfl
    append := fun early late depth rest => by rw [List.append_assoc, early, late]
    read := fun _ _ _ => by simp [commandsAt] }
  entered _ _ _ _ := by simp [commandsAt]
  weaken quiet depth := quiet (depth + 1)
  -- a frame is opened around what happens in it, and is closed after that
  inside frame trace balanced depth rest := by
    rw [List.cons_append, List.append_assoc, commandsAt, balanced]
    simp [commandsAt]

/-! ## 2. Runs that succeed

A run that fails may stop before some of its calls, so what is said here is said of runs that
succeed. What two runs enter one after the other is put together in the order of the runs. -/

variable {α β : Type}

/-- Whether a run itself enters these nodes and is given these commands for them. -/
def Run.Enters (run : Run α) (own : List (Nat × Command)) : Prop :=
  ∀ rest, commandsAt 0 (run.trace ++ rest) = own ++ commandsAt 0 rest

/-- What is entered by one run after another is entered by each in turn. -/
theorem Run.Enters.bind {first : Run α} {second : α → Run β} {value : α}
    {own more : List (Nat × Command)} (ran : first.result = .ok value) (enters : first.Enters own)
    (entersMore : (second value).Enters more) : (first >>= second).Enters (own ++ more) := by
  intro rest
  rw [Run.trace_bind_of_ok ran, List.append_assoc, enters, entersMore, List.append_assoc]

/-- A run that only gives a value enters nothing. -/
theorem Run.enters_pure (value : α) : (pure value : Run α).Enters [] := fun _ => rfl

/-- Before anything else a quiet run happens. -/
theorem Run.Enters.after_quiet {first : Run α} {second : α → Run β} {value : α}
    {own : List (Nat × Command)} (ran : first.result = .ok value) (quiet : first.Leaves IsQuiet)
    (enters : (second value).Enters own) : (first >>= second).Enters own := by
  have both : (first >>= second).Enters ([] ++ own) := .bind ran (quiet 0) enters
  exact both

/-- Before anything else a node is entered. -/
theorem Run.Enters.after_record {second : Unit → Run α} {own : List (Nat × Command)} {id : Nat}
    {command : Command} (enters : (second ()).Enters own) :
    (Run.record (.entered id command) >>= second).Enters ((id, command) :: own) := by
  have first : (Run.record (.entered id command)).Enters [(id, command)] := fun _ => rfl
  exact first.bind rfl enters

/-- After a run nothing more is entered. -/
theorem Run.Enters.before_nothing {first : Run α} {second : α → Run β} {value : α}
    {own : List (Nat × Command)} (ran : first.result = .ok value) (enters : first.Enters own)
    (nothing : (second value).Enters []) : (first >>= second).Enters own := by
  have both := Run.Enters.bind ran enters nothing
  rwa [List.append_nil] at both

/-! ## 3. The commands of a walk

A walk records a node before it does anything there, and the notes and directives that it looks at
are quiet. So what it enters itself is the node and, where it goes into that, what it enters below.
The calls of a walk are made in the same way. -/

variable {library : Library} {nested : Nested} {site : Site} {walk : Walk} {hides : Node → Bool}
  {progress : Progress} {node : Node}

/-- What is entered by some calls and then by others is put together. -/
theorem entries_append (log more : List Call) :
    entries (log ++ more) = entries log ++ entries more := List.filterMap_append ..

/-- Of what is skipped only the node itself is entered. -/
theorem entries_of_skip (skip : (walk.enter progress node).frame.command = .skip) :
    entries (calls walk hides progress node) =
      [(node.id, (walk.enter progress node).frame.command)] := by
  rcases calls_cases walk hides progress node with ⟨-, -, made⟩ | ⟨noSkip, -⟩
  · rw [made]
    rfl
  · exact absurd skip noSkip

/-- What is entered at a node that hides what is in it. -/
theorem entries_of_hidden (taken : (walk.enter progress node).frame.command = walk.inRangeCommand)
    (hidden : hides node = true) :
    entries (calls walk hides progress node) =
      [(node.id, (walk.enter progress node).frame.command)] := by
  rcases calls_cases walk hides progress node with ⟨-, -, made⟩ |
    ⟨-, inner, ⟨rfl, -⟩ | ⟨-, shown⟩, -, made⟩
  · rw [made]
    rfl
  · rw [made]
    rfl
  -- the walk would go into the node only if it did not hide what is in it
  · exact absurd ⟨taken, hidden⟩ shown

/-- What is entered at a node and in it. -/
theorem entries_of_shown (noSkip : (walk.enter progress node).frame.command ≠ .skip)
    (shown : ¬ ((walk.enter progress node).frame.command = walk.inRangeCommand ∧
      hides node = true)) :
    entries (calls walk hides progress node) =
      (node.id, (walk.enter progress node).frame.command) ::
        entries (callsForest walk hides (walk.enter progress node) node.children) := by
  rcases calls_cases walk hides progress node with ⟨skip, -⟩ |
    ⟨-, inner, ⟨-, hidden⟩ | ⟨rfl, -⟩, -, made⟩
  · exact absurd skip noSkip
  · exact absurd hidden shown
  · rw [made, entries, List.filterMap_cons_some (f := Call.entry?) rfl, List.filterMap_append]
    simp [entries, Call.entry?]

section

variable (quiet : nested.Leaves IsQuiet)

include quiet

-- in a mutual recursion the linter misses what only the other theorem uses
set_option linter.unusedSectionVars false

mutual

/-- What a walk that extracts structure enters is what its calls enter. -/
theorem enters_external (extraction : walk.extraction = .external) :
    ∀ {node : Node} {progress after : Progress} {elements : List Element},
      (external library nested site walk progress node).result = .ok (elements, after) →
        (external library nested site walk progress node).Enters
          (entries (calls walk (externalHides library nested site) progress node))
  | ⟨own, path, name, attributes, text, children, tail⟩, progress, after, elements, h => by
    have taken : walk.inRangeCommand = .copy := by rw [Walk.inRangeCommand, extraction]
    have keeps := (frames_quiet library).keepsClosed
    have step := externalStep_of_ok h
    rw [external]
    cases step with
    | skipped command =>
      rw [entries_of_skip command]
      refine Run.Enters.after_record ?_
      simp only [command]
      exact Run.enters_pure _
    -- what is looked up for the node is quiet, be it a directive or a note
    | directive command role found =>
      rw [entries_of_hidden (command.trans taken.symm)
        (by rw [externalHides, externalReplacement?_of_directive role found]; rfl)]
      refine Run.Enters.after_record ?_
      simp only [command, if_pos role]
      exact .after_quiet found (keeps.transclude quiet site _ _) (Run.enters_pure _)
    | replaced command role found =>
      rw [entries_of_hidden (command.trans taken.symm)
        (by rw [externalHides, externalReplacement?_of_replaced role found]; rfl)]
      refine Run.Enters.after_record ?_
      simp only [command, if_neg role]
      exact .after_quiet found (keeps.annotate quiet site _) (Run.enters_pure _)
    | @copied applied pieces inside command role found kept below =>
      rw [entries_of_shown (by simp [command])
        (by rw [externalHides, externalReplacement?_of_kept role found kept]; simp)]
      refine Run.Enters.after_record ?_
      simp only [command, if_neg role]
      refine .after_quiet found (keeps.annotate quiet site _) ?_
      cases applied with
      | replace note => exact absurd rfl (kept note)
      | _ =>
        exact .before_nothing below (enters_externalForest extraction below) (Run.enters_pure _)
    | tag command below =>
      rw [entries_of_shown (by simp [command]) (by rw [command, taken]; simp)]
      refine Run.Enters.after_record ?_
      simp only [command]
      exact .before_nothing below (enters_externalForest extraction below) (Run.enters_pure _)
    | passed command below =>
      rcases command with command | command <;>
        rw [entries_of_shown (by simp [command]) (by rw [command, taken]; simp)] <;>
        refine Run.Enters.after_record ?_ <;>
        simp only [command] <;>
        exact .before_nothing below (enters_externalForest extraction below) (Run.enters_pure _)

/-- What is entered at nodes is what their calls enter, one node after another. -/
theorem enters_externalForest (extraction : walk.extraction = .external) :
    ∀ {nodes : List Node} {progress after : Progress} {pieces : List Piece},
      (externalForest library nested site walk progress nodes).result = .ok (pieces, after) →
        (externalForest library nested site walk progress nodes).Enters
          (entries (callsForest walk (externalHides library nested site) progress nodes))
  | [], _, _, _, _ => Run.enters_pure _
  | first :: rest, progress, after, pieces, h => by
    obtain ⟨elements, between, others, found, below, -⟩ := externalForest_cons h
    rw [externalForest, callsForest, entries_append, visit_of_external extraction found]
    exact .bind found (enters_external extraction found)
      (.before_nothing below (enters_externalForest extraction below) (Run.enters_pure _))

end

mutual

/-- What a walk that extracts text enters is what its calls enter. -/
theorem enters_inline (extraction : walk.extraction = .inline) :
    ∀ {node : Node} {lang : Option String} {progress after : Progress} {items : List Item},
      (inline library nested site walk lang progress node).result = .ok (items, after) →
        (inline library nested site walk lang progress node).Enters
          (entries (calls walk (inlineHides library nested site) progress node))
  | ⟨own, path, name, attributes, text, children, tail⟩, lang, progress, after, items, h => by
    have taken : walk.inRangeCommand = .copyText := by rw [Walk.inRangeCommand, extraction]
    have keeps := (frames_quiet library).keepsClosed
    have step := inlineStep_of_ok h
    rw [inline]
    cases step with
    | skipped command =>
      rw [entries_of_skip command]
      refine Run.Enters.after_record ?_
      simp only [command]
      exact Run.enters_pure _
    -- as before, and an instruction is looked up on its own
    | directive command role found =>
      rw [entries_of_hidden (command.trans taken.symm)
        (by rw [inlineHides, inlineReplacement?_of_directive role found]; rfl)]
      refine Run.Enters.after_record ?_
      simp only [command, role]
      exact .after_quiet found (keeps.transclude quiet site _ _) (Run.enters_pure _)
    | instruction command role found =>
      rw [entries_of_hidden (command.trans taken.symm)
        (by rw [inlineHides, inlineReplacement?_of_instruction role found]; rfl)]
      refine Run.Enters.after_record ?_
      simp only [command, role]
      exact .after_quiet found (keeps.inlineInstruction quiet site _) (Run.enters_pure _)
    | copied command noDirective noInstruction found below =>
      rw [entries_of_shown (by simp [command])
        (by rw [inlineHides, inlineReplacement?_of_kept noDirective noInstruction]; simp)]
      refine Run.Enters.after_record ?_
      simp only [command]
      exact .after_quiet found (keeps.annotate quiet site _)
        (.before_nothing below (enters_inlineForest extraction below) (Run.enters_pure _))
    | passed noSkip noText below =>
      rw [entries_of_shown noSkip (by rw [taken]; exact fun both => noText both.1)]
      refine Run.Enters.after_record ?_
      split
      · exact absurd ‹_› noSkip
      · exact absurd ‹_› noText
      · exact .before_nothing below (enters_inlineForest extraction below) (Run.enters_pure _)

/-- What is entered where text is extracted is what the calls enter there. -/
theorem enters_inlineForest (extraction : walk.extraction = .inline) :
    ∀ {nodes : List Node} {lang : Option String} {progress after : Progress} {items : List Item},
      (inlineForest library nested site walk lang progress nodes).result = .ok (items, after) →
        (inlineForest library nested site walk lang progress nodes).Enters
          (entries (callsForest walk (inlineHides library nested site) progress nodes))
  | [], _, _, _, _, _ => Run.enters_pure _
  | first :: rest, lang, progress, after, items, h => by
    obtain ⟨shown, between, others, found, below, -⟩ := inlineForest_cons h
    rw [inlineForest, callsForest, entries_append, visit_of_inline extraction found]
    exact .bind found (enters_inline extraction found)
      (.before_nothing below (enters_inlineForest extraction below) (Run.enters_pure _))

end

end

end Intertext.Compile
