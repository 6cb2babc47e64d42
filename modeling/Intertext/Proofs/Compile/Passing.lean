import Intertext.Proofs.Compile.Calls
import Intertext.Proofs.Compile.Gathered
import Intertext.Proofs.Compile.SameText
import Intertext.Proofs.Compile.Shown
/-!
Tails of what is passed.

Where a walk passes a node it shows nothing of the node itself, so the tail of a child has no place
unless something stands before it. It always does: a walk that stands in range after a node has
shown some element there, or taken some text (`elements_ne_nil`, `items_ne_nil`). So no tail in
range is dropped (`keepsTails_of_pass`, `keepsTextTails_of_pass`). This goes for all that a walk
enters, since wherever it does it succeeds there (`spreads_external`, `spreads_inline`).
-/

namespace Intertext.Compile

open Markup (Element Node)

variable {library : Library} {nested : Nested} {site : Site} {walk : Walk}

/-! ## 1. Commands and where a walk stands

Every command says where the walk stands: it skips behind the range, takes within it, and passes or
shows a bare tag only before it. What has begun stays so, and therefore a walk that passes a node
had not begun when it came there. -/

/-- A walk that skips a node stands after its range. -/
theorem not_inRange_of_skip {progress : Progress} {node : Node}
    (skip : (walk.enter progress node).frame.command = .skip) :
    (walk.enter progress node).frame.inRange = false := by
  rcases command_of_enter walk progress node with ⟨hasEnded, -⟩ | ⟨-, taken⟩ | ⟨-, -, leads⟩
  · rw [Frame.inRange, hasEnded, Bool.not_true, Bool.and_false]
  · exact absurd (taken.symm.trans skip) walk.inRangeCommand_ne.1
  · rcases leads with ⟨leads, -⟩ | leads <;> cases leads.symm.trans skip

/-- Entering a node may begin the range but does not undo that. -/
theorem notBegun_of_enter {progress : Progress} {node : Node}
    (notBegun : (walk.enter progress node).frame.beforeStart = true) :
    progress.frame.beforeStart = true := by
  rw [Walk.beforeStart_enter, Bool.and_eq_true] at notBegun
  exact notBegun.1

/-- A walk that neither skips a node nor takes it has not begun. -/
theorem notBegun_of_passed {progress : Progress} {node : Node}
    (noSkip : (walk.enter progress node).frame.command ≠ .skip)
    (noTake : (walk.enter progress node).frame.command ≠ walk.inRangeCommand) :
    (walk.enter progress node).frame.beforeStart = true := by
  rcases command_of_enter walk progress node with ⟨-, skip⟩ | ⟨-, take⟩ | ⟨-, notBegun, -⟩
  · exact absurd skip noSkip
  · exact absurd take noTake
  · exact notBegun

/-- Where a walk passes a node it has not begun before. -/
theorem notBegun_of_pass {progress : Progress} {node : Node}
    (pass : (walk.enter progress node).frame.command = .pass) :
    progress.frame.beforeStart = true := by
  have noSkip : (walk.enter progress node).frame.command ≠ .skip := by
    rw [pass]
    decide
  have noTake : (walk.enter progress node).frame.command ≠ walk.inRangeCommand := by
    rw [pass]
    exact walk.inRangeCommand_ne.2.2.symm
  exact notBegun_of_enter (notBegun_of_passed noSkip noTake)

/-! ## 2. What stands before a tail

For a walk that has begun before the node there is nothing to prove but that the node itself is
shown. For one that begins in the node the start lies in it, and the induction follows the children
up to the one where the range begins. -/

/-- A walk that extracts structure and stands in range after a node has shown some element there. -/
theorem elements_ne_nil (extraction : walk.extraction = .external) {progress last : Progress}
    {node : Node} {elements : List Element}
    (ran : (external library nested site walk progress node).result = .ok (elements, last))
    (inRange : last.frame.inRange = true) : elements ≠ [] := by
  -- a range that begins in the node has the start shown, and else the node is in range itself
  cases before : progress.frame.beforeStart with
  | true =>
    exact ne_nil_of_begun extraction ran before (Frame.inRange_iff.mp inRange).1
  | false =>
    cases externalStep_of_ok ran with
    | skipped command =>
      rw [not_inRange_of_skip command] at inRange
      cases inRange
    | passed command below =>
      -- what has begun passes nothing
      cases before.symm.trans (notBegun_of_enter (before_of_pass extraction command))
    | directive command role found => exact List.cons_ne_nil _ _
    | replaced command role found => exact List.cons_ne_nil _ _
    | copied command role found kept below => exact List.cons_ne_nil _ _
    | tag command below => exact List.cons_ne_nil _ _

/-- A stamp for the language takes nothing away. -/
theorem inLang_ne_nil (changed : Option String) {items : List Item} (some : items ≠ []) :
    inLang changed items ≠ [] := by
  cases changed with
  | none => exact some
  | some lang => exact List.cons_ne_nil _ _

mutual

/-- A walk that extracts text has taken something by the time its range has begun. -/
theorem items_ne_nil_of_begun (extraction : walk.extraction = .inline) :
    ∀ {node : Node} {lang : Option String} {progress last : Progress} {items : List Item},
      (inline library nested site walk lang progress node).result = .ok (items, last) →
        progress.frame.beforeStart = true → last.frame.beforeStart = false → items ≠ []
  | ⟨own, path, name, attributes, text, children, tail⟩, lang, progress, last, items, ran, before,
      begun => by
    have taken : walk.inRangeCommand = .copyText := by rw [Walk.inRangeCommand, extraction]
    cases inlineStep_of_ok ran with
    | skipped command =>
      -- what is skipped stands after the range, and the start is not in it
      rcases command_of_enter walk progress ⟨own, path, name, attributes, text, children, tail⟩ with
        ⟨hasEnded, -⟩ | ⟨-, take⟩ | ⟨-, notBegun, -⟩
      · rw [Walk.beforeStart_enter, hasEnded, before] at begun
        cases begun
      · exact absurd (take.symm.trans command) walk.inRangeCommand_ne.1
      · cases notBegun.symm.trans begun
    | directive command role found => exact List.cons_ne_nil _ _
    | instruction command role found => exact List.cons_ne_nil _ _
    | copied command noDirective noInstruction found below =>
      exact inLang_ne_nil _ (List.append_ne_nil_of_right_ne_nil _ (List.cons_ne_nil _ _))
    | passed noSkip noText below =>
      rw [Walk.beforeStart_leave] at begun
      exact forestItems_ne_nil_of_begun extraction below
        (notBegun_of_passed noSkip (taken ▸ noText)) begun

/-- Of the children the one in which the range begins has taken something. -/
theorem forestItems_ne_nil_of_begun (extraction : walk.extraction = .inline) :
    ∀ {nodes : List Node} {lang : Option String} {progress last : Progress} {items : List Item},
      (inlineForest library nested site walk lang progress nodes).result = .ok (items, last) →
        progress.frame.beforeStart = true → last.frame.beforeStart = false → items ≠ []
  | [], lang, progress, last, items, ran, before, begun => by
    obtain ⟨-, rfl⟩ := inlineForest_nil ran
    cases before.symm.trans begun
  | first :: rest, lang, progress, last, items, ran, before, begun => by
    obtain ⟨shown, between, others, found, below, rfl⟩ := inlineForest_cons ran
    rw [List.append_assoc]
    -- the range begins in the first node or in a later one
    cases still : between.frame.beforeStart with
    | false =>
      exact List.append_ne_nil_of_left_ne_nil
        (items_ne_nil_of_begun extraction found before still) _
    | true =>
      exact List.append_ne_nil_of_right_ne_nil _ (List.append_ne_nil_of_right_ne_nil _
        (forestItems_ne_nil_of_begun extraction below still begun))

end

/-- A walk that extracts text and stands in range after a node has taken something there. -/
theorem items_ne_nil (extraction : walk.extraction = .inline) {node : Node} {lang : Option String}
    {progress last : Progress} {items : List Item}
    (ran : (inline library nested site walk lang progress node).result = .ok (items, last))
    (inRange : last.frame.inRange = true) : items ≠ [] := by
  cases before : progress.frame.beforeStart with
  | true => exact items_ne_nil_of_begun extraction ran before (Frame.inRange_iff.mp inRange).1
  | false =>
    cases inlineStep_of_ok ran with
    | skipped command =>
      rw [not_inRange_of_skip command] at inRange
      cases inRange
    | passed noSkip noText below =>
      have taken : walk.inRangeCommand = .copyText := by rw [Walk.inRangeCommand, extraction]
      cases before.symm.trans (notBegun_of_enter (notBegun_of_passed noSkip (taken ▸ noText)))
    | directive command role found => exact List.cons_ne_nil _ _
    | instruction command role found => exact List.cons_ne_nil _ _
    | copied command noDirective noInstruction found below =>
      exact inLang_ne_nil _ (List.append_ne_nil_of_right_ne_nil _ (List.cons_ne_nil _ _))

/-! ## 3. Nodes that are passed

To speak of one child, the run over the children is split before it and after it. What the earlier
ones have shown comes first, and the child stands where the walk has left the last of them. -/

/-- Forests one after the other are walked one after the other. -/
theorem externalForest_append {nodes more : List Node} : ∀ {progress last : Progress}
    {pieces : List Piece},
    (externalForest library nested site walk progress (nodes ++ more)).result = .ok (pieces, last) →
      ∃ earlier between later,
        (externalForest library nested site walk progress nodes).result = .ok (earlier, between) ∧
        (externalForest library nested site walk between more).result = .ok (later, last) ∧
        pieces = earlier ++ later := by
  induction nodes with
  | nil => exact fun ran => ⟨[], _, _, rfl, ran, rfl⟩
  | cons first rest ih =>
    intro progress last pieces ran
    obtain ⟨elements, beyond, others, found, below, rfl⟩ := externalForest_cons ran
    obtain ⟨earlier, between, later, isEarlier, isLater, rfl⟩ := ih below
    refine ⟨⟨elements, tailInRange beyond first⟩ :: earlier, between, later, ?_, isLater, rfl⟩
    rw [externalForest, Run.bind_eq_ok]
    exact ⟨_, found, Run.bind_eq_ok.mpr ⟨_, isEarlier, rfl⟩⟩

/-- The same for the extraction of text. -/
theorem inlineForest_append {nodes more : List Node} {lang : Option String} :
    ∀ {progress last : Progress} {items : List Item},
    (inlineForest library nested site walk lang progress (nodes ++ more)).result =
      .ok (items, last) →
      ∃ earlier between later,
        (inlineForest library nested site walk lang progress nodes).result =
          .ok (earlier, between) ∧
        (inlineForest library nested site walk lang between more).result = .ok (later, last) ∧
        items = earlier ++ later := by
  induction nodes with
  | nil => exact fun ran => ⟨[], _, _, rfl, ran, rfl⟩
  | cons first rest ih =>
    intro progress last items ran
    obtain ⟨shown, beyond, others, found, below, rfl⟩ := inlineForest_cons ran
    obtain ⟨earlier, between, later, isEarlier, isLater, rfl⟩ := ih below
    refine ⟨_, between, later, ?_, isLater, (List.append_assoc ..).symm⟩
    rw [inlineForest, Run.bind_eq_ok]
    exact ⟨_, found, Run.bind_eq_ok.mpr ⟨_, isEarlier, rfl⟩⟩

/-- Whether a walk that extracts structure shows the tails in range of the children of a node: each
stands after some element that the child has shown. -/
def KeepsTails (library : Library) (nested : Nested) (site : Site) (walk : Walk)
    (progress : Progress) (node : Node) : Prop :=
  ∃ pieces last,
    (external library nested site walk progress node).result =
      .ok (pieces.flatMap Piece.shown, walk.leave last node) ∧
    ∀ before child after, node.children = before ++ child :: after →
      ∃ earlier between elements beyond others,
        (externalForest library nested site walk (walk.enter progress node) before).result =
          .ok (earlier, between) ∧
        (external library nested site walk between child).result = .ok (elements, beyond) ∧
        pieces = earlier ++ ⟨elements, tailInRange beyond child⟩ :: others ∧
        (beyond.frame.inRange = true → elements ≠ [])

/-- Whether a walk that extracts text shows the tails in range of the children of a node: each
stands after something that has been taken of the child. -/
def KeepsTextTails (library : Library) (nested : Nested) (site : Site) (walk : Walk)
    (lang : Option String) (progress : Progress) (node : Node) : Prop :=
  ∃ items last,
    (inline library nested site walk lang progress node).result =
      .ok (items, walk.leave last node) ∧
    ∀ before child after, node.children = before ++ child :: after →
      ∃ earlier between shown beyond others,
        (inlineForest library nested site walk lang (walk.enter progress node) before).result =
          .ok (earlier, between) ∧
        (inline library nested site walk lang between child).result = .ok (shown, beyond) ∧
        items = earlier ++ (shown ++ tailItems beyond child ++ others) ∧
        (beyond.frame.inRange = true → shown ≠ [])

/-- Where a walk that extracts structure passes on what it has found each tail has an element. -/
theorem rooted_of_externalForest (extraction : walk.extraction = .external) {nodes : List Node}
    {progress last : Progress} {pieces : List Piece}
    (ran : (externalForest library nested site walk progress nodes).result = .ok (pieces, last)) :
    ∀ piece ∈ pieces, piece.Rooted := by
  induction nodes generalizing progress pieces with
  | nil =>
    obtain ⟨rfl, -⟩ := externalForest_nil ran
    exact fun _ member => absurd member List.not_mem_nil
  | cons first rest ih =>
    obtain ⟨elements, between, others, found, below, rfl⟩ := externalForest_cons ran
    refine List.forall_mem_cons.mpr ⟨fun tail => ?_, ih below⟩
    refine elements_ne_nil extraction found (by_contra fun outside => tail ?_)
    rw [tailInRange, if_neg outside]

/-- A walk that extracts structure drops no tail in range where it passes a node. -/
theorem keepsTails_of_pass (extraction : walk.extraction = .external) {progress last : Progress}
    {node : Node} {elements : List Element}
    (ran : (external library nested site walk progress node).result = .ok (elements, last))
    (pass : (walk.enter progress node).frame.command = .pass) :
    KeepsTails library nested site walk progress node := by
  obtain ⟨pieces, inside, below, rfl, rfl⟩ := (externalStep_of_ok ran).of_pass pass
  refine ⟨pieces, inside, ?_, fun before child after children => ?_⟩
  · rw [ran, passOn_eq (rooted_of_externalForest extraction below)]
  · rw [children] at below
    obtain ⟨earlier, between, later, isEarlier, isLater, rfl⟩ := externalForest_append below
    obtain ⟨shown, beyond, others, found, -, rfl⟩ := externalForest_cons isLater
    exact ⟨earlier, between, shown, beyond, others, isEarlier, found, rfl,
      elements_ne_nil extraction found⟩

/-- A walk that extracts text drops no tail in range where it passes a node. -/
theorem keepsTextTails_of_pass (extraction : walk.extraction = .inline) {progress last : Progress}
    {node : Node} {lang : Option String} {items : List Item}
    (ran : (inline library nested site walk lang progress node).result = .ok (items, last))
    (pass : (walk.enter progress node).frame.command = .pass) :
    KeepsTextTails library nested site walk lang progress node := by
  obtain ⟨inside, below, rfl⟩ := (inlineStep_of_ok ran).of_pass pass
  refine ⟨items, inside, ran, fun before child after children => ?_⟩
  rw [children] at below
  obtain ⟨earlier, between, later, isEarlier, isLater, rfl⟩ := inlineForest_append below
  obtain ⟨shown, beyond, others, found, -, rfl⟩ := inlineForest_cons isLater
  exact ⟨earlier, between, shown, beyond, others, isEarlier, found, rfl,
    items_ne_nil extraction found⟩

/-! ## 4. Runs within a run

A run that succeeds has succeeded at every node that it enters, since an error would have been
passed on. The language is a part of the run where text is extracted: it changes where something is
taken, so up to the start it is the one that was given. -/

/-- Wherever a walk that extracts structure enters a node, it succeeds there if it does at all. -/
theorem spreads_external (extraction : walk.extraction = .external) :
    Spreads walk (externalHides library nested site)
      (fun progress node => ∃ value,
        (external library nested site walk progress node).result = .ok value)
      (fun progress nodes => ∃ value,
        (externalForest library nested site walk progress nodes).result = .ok value) where
  into := by
    rintro progress node ⟨⟨elements, last⟩, ran⟩ noSkip shown
    have taken : walk.inRangeCommand = .copy := by rw [Walk.inRangeCommand, extraction]
    cases externalStep_of_ok ran with
    | skipped command => exact absurd command noSkip
    -- nothing is entered in what is replaced
    | directive command role found =>
      refine absurd ⟨command.trans taken.symm, ?_⟩ shown
      rw [externalHides, externalReplacement?_of_directive role found]
      rfl
    | replaced command role found =>
      refine absurd ⟨command.trans taken.symm, ?_⟩ shown
      rw [externalHides, externalReplacement?_of_replaced role found]
      rfl
    | copied command role found kept below => exact ⟨_, below⟩
    | tag command below => exact ⟨_, below⟩
    | passed command below => exact ⟨_, below⟩
  first := by
    rintro progress first rest ⟨⟨pieces, last⟩, ran⟩
    obtain ⟨elements, between, others, found, -⟩ := externalForest_cons ran
    exact ⟨_, found⟩
  next := by
    rintro progress first rest ⟨⟨pieces, last⟩, ran⟩
    obtain ⟨elements, between, others, found, below, -⟩ := externalForest_cons ran
    rw [visit_of_external extraction found]
    exact ⟨_, below⟩

/-- Whether a walk that extracts text succeeds; up to the start the language in scope does not
change. -/
def Reaches (library : Library) (nested : Nested) (site : Site) (walk : Walk)
    (lang : Option String) (progress : Progress) (node : Node) : Prop :=
  ∃ inScope value, (inline library nested site walk inScope progress node).result = .ok value ∧
    (progress.frame.beforeStart = true → inScope = lang)

/-- Wherever a walk that extracts text enters a node, it succeeds there if it does at all. -/
theorem spreads_inline (extraction : walk.extraction = .inline) (lang : Option String) :
    Spreads walk (inlineHides library nested site) (Reaches library nested site walk lang)
      (fun progress nodes => ∃ inScope value,
        (inlineForest library nested site walk inScope progress nodes).result = .ok value ∧
        (progress.frame.beforeStart = true → inScope = lang)) where
  into := by
    rintro progress node ⟨inScope, ⟨items, last⟩, ran, same⟩ noSkip shown
    have taken : walk.inRangeCommand = .copyText := by rw [Walk.inRangeCommand, extraction]
    cases inlineStep_of_ok ran with
    | skipped command => exact absurd command noSkip
    | directive command role found =>
      refine absurd ⟨command.trans taken.symm, ?_⟩ shown
      rw [inlineHides, inlineReplacement?_of_directive role found]
      rfl
    | instruction command role found =>
      refine absurd ⟨command.trans taken.symm, ?_⟩ shown
      rw [inlineHides, inlineReplacement?_of_instruction role found]
      rfl
    | copied command noDirective noInstruction found below =>
      refine ⟨_, _, below, fun notBegun => ?_⟩
      -- what is copied is in range
      rw [begun_of_taken (command.trans taken.symm)] at notBegun
      cases notBegun
    | passed noSkip noText below =>
      exact ⟨_, _, below, fun notBegun => same (notBegun_of_enter notBegun)⟩
  first := by
    rintro progress first rest ⟨inScope, ⟨items, last⟩, ran, same⟩
    obtain ⟨shown, between, others, found, -⟩ := inlineForest_cons ran
    exact ⟨_, _, found, same⟩
  next := by
    rintro progress first rest ⟨inScope, ⟨items, last⟩, ran, same⟩
    obtain ⟨shown, between, others, found, below, -⟩ := inlineForest_cons ran
    refine ⟨_, (others, last), by rwa [visit_of_inline extraction found], fun notBegun => same ?_⟩
    by_contra begun
    rw [Progress.Begun.visit ((Bool.not_eq_true _).mp begun)] at notBegun
    cases notBegun

end Intertext.Compile
