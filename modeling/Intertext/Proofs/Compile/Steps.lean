import Intertext.Compile.Compilation
import Intertext.Proofs.Outcome
/-!
What one step of a walk can do.

A walk that succeeds at a node has done one of a few things there: it skipped the node, replaced it,
copied it around what its children show, or passed it. `ExternalStep`, `InlineStep` and `CopyStep`
list these cases with everything that has to hold in each; `externalStep_of_ok`, `inlineStep_of_ok`
and `copyStep_iff` say that there are no others.
-/

namespace Intertext.Compile

open Markup (Element Node)

/-! ## 1. Runs

A run has a result and a trace. The steps are read off the results, for which a sequence of runs
succeeds exactly if each run of it does; what was recorded on the way plays no part. -/

/-- A sequence of runs gives a value if the first gives one and the second does with it. -/
theorem Run.bind_eq_ok {α β : Type} {first : Run α} {second : α → Run β} {value : β} :
    (first >>= second).result = .ok value ↔
      ∃ between, first.result = .ok between ∧ (second between).result = .ok value := by
  rw [Run.result_bind]
  exact Outcome.bind_eq_ok

/-- What happens after something was recorded does not depend on the record. -/
theorem Run.result_record_bind {α : Type} (event : Event) (second : Unit → Run α) :
    (Run.record event >>= second).result = (second ()).result := by
  rw [Run.result_bind]
  rfl

/-- Runs follow one another as the laws of monads say, traces included. -/
instance : LawfulMonad Run := LawfulMonad.mk' Run
  (fun run => by
    obtain ⟨result, trace⟩ := run
    cases result <;> simp [Functor.map, Run.andThen, Run.done])
  (fun value next => by simp [pure, bind, Run.andThen, Run.done])
  (fun run next last => by
    obtain ⟨result, trace⟩ := run
    cases result with
    | error fault => rfl
    | ok value =>
      simp only [bind, Run.andThen]
      cases (next value).result <;> simp)

/-- A changed run gives the changed value. -/
theorem Run.map_eq_ok {α β : Type} {change : α → β} {run : Run α} {value : β} :
    (change <$> run).result = .ok value ↔
      ∃ between, run.result = .ok between ∧ change between = value := by
  rw [map_eq_pure_bind, Run.bind_eq_ok]
  exact exists_congr fun between => and_congr_right fun _ => iff_of_eq (Except.ok.injEq _ _)

/-! ## 2. Extracting structure

The command of the frame decides what is done with a node, and for a node that is taken its role
does. The cases stand under the command that the walk has on entering the node, since this is what
the lemmas about walks speak of. -/

variable {library : Library} {nested : Nested} {site : Site} {walk : Walk}

/-- What a walk that extracts structure does at a node, what the node then shows, and where the walk
stands after it. -/
inductive ExternalStep (library : Library) (nested : Nested) (site : Site) (walk : Walk)
    (progress : Progress) (node : Node) : List Element → Progress → Prop where
  /-- The range is over, and nothing of the node is shown. -/
  | skipped (command : (walk.enter progress node).frame.command = .skip) :
    ExternalStep library nested site walk progress node [] (walk.enter progress node)
  /-- What the directive includes stands in its place. -/
  | directive {element : Element} (command : (walk.enter progress node).frame.command = .copy)
    (role : Role.of node = .directive)
    (found : (transclude library nested site node (.of node)).result = .ok element) :
    ExternalStep library nested site walk progress node [element]
      (walk.leave (walk.enter progress node) node)
  /-- An instruction asks for another note instead of the node. -/
  | replaced {note : Element} (command : (walk.enter progress node).frame.command = .copy)
    (role : Role.of node ≠ .directive)
    (found : (annotate library nested site node).result = .ok (.replace note)) :
    ExternalStep library nested site walk progress node [note]
      (walk.leave (walk.enter progress node) node)
  /-- The node is copied whole: its notes, its text and what its children show. -/
  | copied {applied : Annotation} {pieces : List Piece} {inside : Progress}
    (command : (walk.enter progress node).frame.command = .copy)
    (role : Role.of node ≠ .directive)
    (found : (annotate library nested site node).result = .ok applied)
    (kept : ∀ note, applied ≠ .replace note)
    (below : (externalForest library nested site walk (walk.enter progress node)
      node.children).result = .ok (pieces, inside)) :
    ExternalStep library nested site walk progress node
      [insertNotes applied.notes (fill { node.shell with text := node.text } pieces)]
      (walk.leave inside node)
  /-- The node is on the way down to the start, and its tag is kept. -/
  | tag {pieces : List Piece} {inside : Progress}
    (command : (walk.enter progress node).frame.command = .copyTag)
    (below : (externalForest library nested site walk (walk.enter progress node)
      node.children).result = .ok (pieces, inside)) :
    ExternalStep library nested site walk progress node [fill node.shell pieces]
      (walk.leave inside node)
  /-- Nothing of the node itself is shown, only what its children show. -/
  | passed {pieces : List Piece} {inside : Progress}
    (command : (walk.enter progress node).frame.command = .pass ∨
      (walk.enter progress node).frame.command = .copyText)
    (below : (externalForest library nested site walk (walk.enter progress node)
      node.children).result = .ok (pieces, inside)) :
    ExternalStep library nested site walk progress node (passOn pieces) (walk.leave inside node)

/-- A walk that extracts structure does at a node what one of the steps says. -/
theorem externalStep_of_ok {progress after : Progress} {node : Node} {elements : List Element}
    (h : (external library nested site walk progress node).result = .ok (elements, after)) :
    ExternalStep library nested site walk progress node elements after := by
  obtain ⟨id, path, name, attributes, text, children, tail⟩ := node
  rw [external, Run.result_record_bind] at h
  split at h
  · rename_i command
    cases h
    exact .skipped command
  · rename_i command
    split at h
    · rename_i role
      obtain ⟨element, found, h⟩ := Run.bind_eq_ok.mp h
      cases h
      exact .directive command role found
    · rename_i role
      obtain ⟨applied, found, h⟩ := Run.bind_eq_ok.mp h
      split at h
      · cases h
        exact .replaced command role found
      · rename_i kept
        obtain ⟨⟨pieces, inside⟩, below, h⟩ := Run.bind_eq_ok.mp h
        cases h
        exact .copied command role found kept below
  · rename_i command
    obtain ⟨⟨pieces, inside⟩, below, h⟩ := Run.bind_eq_ok.mp h
    cases h
    exact .tag command below
  -- The last branch is for all other commands, and two are left.
  · rename_i noSkip noCopy noTag
    obtain ⟨⟨pieces, inside⟩, below, h⟩ := Run.bind_eq_ok.mp h
    cases h
    refine .passed ?_ below
    cases command :
        (walk.enter progress ⟨id, path, name, attributes, text, children, tail⟩).frame.command with
    | pass => exact Or.inl rfl
    | copyText => exact Or.inr rfl
    | skip => exact absurd command noSkip
    | copy => exact absurd command noCopy
    | copyTag => exact absurd command noTag

/-- What is skipped shows nothing, and the walk goes on from where it entered it. -/
theorem ExternalStep.of_skip {progress after : Progress} {node : Node} {elements : List Element}
    (step : ExternalStep library nested site walk progress node elements after)
    (skip : (walk.enter progress node).frame.command = .skip) :
    elements = [] ∧ after = walk.enter progress node := by
  -- Each step names its command, and no two commands are the same.
  cases step with
  | skipped command => exact ⟨rfl, rfl⟩
  | directive command role found => exact absurd (skip.symm.trans command) (by decide)
  | replaced command role found => exact absurd (skip.symm.trans command) (by decide)
  | copied command role found kept below => exact absurd (skip.symm.trans command) (by decide)
  | tag command below => exact absurd (skip.symm.trans command) (by decide)
  | passed command below =>
    rcases command with command | command <;> exact absurd (skip.symm.trans command) (by decide)

/-- What a walk takes is replaced, as a directive or an instruction is, or copied with what its
children show. -/
theorem ExternalStep.of_copy {progress after : Progress} {node : Node} {elements : List Element}
    (step : ExternalStep library nested site walk progress node elements after)
    (copy : (walk.enter progress node).frame.command = .copy) :
    (Role.of node = .directive ∧ ∃ element,
      (transclude library nested site node (.of node)).result = .ok element ∧
        elements = [element] ∧ after = walk.leave (walk.enter progress node) node) ∨
    (Role.of node ≠ .directive ∧ ∃ note,
      (annotate library nested site node).result = .ok (.replace note) ∧
        elements = [note] ∧ after = walk.leave (walk.enter progress node) node) ∨
    Role.of node ≠ .directive ∧ ∃ applied pieces inside,
      (annotate library nested site node).result = .ok applied ∧
        (∀ note, applied ≠ .replace note) ∧
        (externalForest library nested site walk (walk.enter progress node)
          node.children).result = .ok (pieces, inside) ∧
        elements =
          [insertNotes applied.notes (fill { node.shell with text := node.text } pieces)] ∧
        after = walk.leave inside node := by
  cases step with
  | skipped command => exact absurd (copy.symm.trans command) (by decide)
  | directive command role found => exact Or.inl ⟨role, _, found, rfl, rfl⟩
  | replaced command role found => exact Or.inr (Or.inl ⟨role, _, found, rfl, rfl⟩)
  | copied command role found kept below =>
    exact Or.inr (Or.inr ⟨role, _, _, _, found, kept, below, rfl, rfl⟩)
  | tag command below => exact absurd (copy.symm.trans command) (by decide)
  | passed command below =>
    rcases command with command | command <;> exact absurd (copy.symm.trans command) (by decide)

/-- Where a walk takes a tag only, the node keeps what its children show and loses its own text. -/
theorem ExternalStep.of_copyTag {progress after : Progress} {node : Node} {elements : List Element}
    (step : ExternalStep library nested site walk progress node elements after)
    (tag : (walk.enter progress node).frame.command = .copyTag) :
    ∃ pieces inside, (externalForest library nested site walk (walk.enter progress node)
      node.children).result = .ok (pieces, inside) ∧
        elements = [fill node.shell pieces] ∧ after = walk.leave inside node := by
  cases step with
  | skipped command => exact absurd (tag.symm.trans command) (by decide)
  | directive command role found => exact absurd (tag.symm.trans command) (by decide)
  | replaced command role found => exact absurd (tag.symm.trans command) (by decide)
  | copied command role found kept below => exact absurd (tag.symm.trans command) (by decide)
  | tag command below => exact ⟨_, _, below, rfl, rfl⟩
  | passed command below =>
    rcases command with command | command <;> exact absurd (tag.symm.trans command) (by decide)

/-- What is passed gives on what its children show. -/
theorem ExternalStep.of_pass {progress after : Progress} {node : Node} {elements : List Element}
    (step : ExternalStep library nested site walk progress node elements after)
    (pass : (walk.enter progress node).frame.command = .pass) :
    ∃ pieces inside, (externalForest library nested site walk (walk.enter progress node)
      node.children).result = .ok (pieces, inside) ∧
        elements = passOn pieces ∧ after = walk.leave inside node := by
  cases step with
  | skipped command => exact absurd (pass.symm.trans command) (by decide)
  | directive command role found => exact absurd (pass.symm.trans command) (by decide)
  | replaced command role found => exact absurd (pass.symm.trans command) (by decide)
  | copied command role found kept below => exact absurd (pass.symm.trans command) (by decide)
  | tag command below => exact absurd (pass.symm.trans command) (by decide)
  | passed command below => exact ⟨_, _, below, rfl, rfl⟩

theorem externalForest_nil {progress after : Progress} {pieces : List Piece}
    (h : (externalForest library nested site walk progress []).result = .ok (pieces, after)) :
    pieces = [] ∧ after = progress := by
  cases h
  exact ⟨rfl, rfl⟩

/-- A list of nodes shows what the first shows, then the tail of it if the walk is in range there,
and then what the rest shows from where the first was left. -/
theorem externalForest_cons {progress after : Progress} {first : Node} {rest : List Node}
    {pieces : List Piece}
    (h : (externalForest library nested site walk progress (first :: rest)).result =
      .ok (pieces, after)) :
    ∃ elements between others,
      (external library nested site walk progress first).result = .ok (elements, between) ∧
        (externalForest library nested site walk between rest).result = .ok (others, after) ∧
        pieces = ⟨elements, tailInRange between first⟩ :: others := by
  rw [externalForest] at h
  obtain ⟨⟨elements, between⟩, found, h⟩ := Run.bind_eq_ok.mp h
  obtain ⟨⟨others, last⟩, below, h⟩ := Run.bind_eq_ok.mp h
  cases h
  exact ⟨elements, between, others, found, below, rfl⟩

/-! ## 3. Extracting text

Text is taken under one command only, and under every other but skipping the walk looks for text
further down. The language of the surroundings is handed down, and it changes only where text is
taken from a node that has another. -/

/-- What a walk that extracts text does at a node, what the node then shows, and where the walk
stands after it. -/
inductive InlineStep (library : Library) (nested : Nested) (site : Site) (walk : Walk)
    (lang : Option String) (progress : Progress) (node : Node) : List Item → Progress → Prop where
  /-- The range is over, and nothing of the node is shown. -/
  | skipped (command : (walk.enter progress node).frame.command = .skip) :
    InlineStep library nested site walk lang progress node [] (walk.enter progress node)
  /-- What the directive includes stands in its place, as text. -/
  | directive {element : Element} (command : (walk.enter progress node).frame.command = .copyText)
    (role : Role.of node = .directive)
    (found : (transclude library nested site node .inline).result = .ok element) :
    InlineStep library nested site walk lang progress node [.element element]
      (walk.leave (walk.enter progress node) node)
  /-- An instruction stays an element in the text. -/
  | instruction {note : Element} (command : (walk.enter progress node).frame.command = .copyText)
    (role : Role.of node = .instruction)
    (found : (inlineInstruction library nested site node).result = .ok note) :
    InlineStep library nested site walk lang progress node [.element note]
      (walk.leave (walk.enter progress node) node)
  /-- The notes on the node, its text and what its children show, in its language. -/
  | copied {applied : Annotation} {items : List Item} {inside : Progress}
    (command : (walk.enter progress node).frame.command = .copyText)
    (noDirective : Role.of node ≠ .directive) (noInstruction : Role.of node ≠ .instruction)
    (found : (annotate library nested site node).result = .ok applied)
    (below : (inlineForest library nested site walk (changedLang? node lang <|> lang)
      (walk.enter progress node) node.children).result = .ok (items, inside)) :
    InlineStep library nested site walk lang progress node
      (inLang (changedLang? node lang) (applied.notes.map .element ++ .text node.text :: items))
      (walk.leave inside node)
  /-- Nothing of the node itself is shown, only what its children show. -/
  | passed {items : List Item} {inside : Progress}
    (noSkip : (walk.enter progress node).frame.command ≠ .skip)
    (noText : (walk.enter progress node).frame.command ≠ .copyText)
    (below : (inlineForest library nested site walk lang (walk.enter progress node)
      node.children).result = .ok (items, inside)) :
    InlineStep library nested site walk lang progress node items (walk.leave inside node)

/-- A walk that extracts text does at a node what one of the steps says. -/
theorem inlineStep_of_ok {lang : Option String} {progress after : Progress} {node : Node}
    {items : List Item}
    (h : (inline library nested site walk lang progress node).result = .ok (items, after)) :
    InlineStep library nested site walk lang progress node items after := by
  obtain ⟨id, path, name, attributes, text, children, tail⟩ := node
  rw [inline, Run.result_record_bind] at h
  split at h
  · rename_i command
    cases h
    exact .skipped command
  · rename_i command
    split at h
    · rename_i role
      obtain ⟨element, found, h⟩ := Run.bind_eq_ok.mp h
      cases h
      exact .directive command role found
    · rename_i role
      obtain ⟨note, found, h⟩ := Run.bind_eq_ok.mp h
      cases h
      exact .instruction command role found
    · rename_i noDirective noInstruction
      obtain ⟨applied, found, h⟩ := Run.bind_eq_ok.mp h
      obtain ⟨⟨items, inside⟩, below, h⟩ := Run.bind_eq_ok.mp h
      cases h
      exact .copied command noDirective noInstruction found below
  · rename_i noSkip noText
    obtain ⟨⟨items, inside⟩, below, h⟩ := Run.bind_eq_ok.mp h
    cases h
    exact .passed noSkip noText below

theorem InlineStep.of_skip {lang : Option String} {progress after : Progress} {node : Node}
    {items : List Item}
    (step : InlineStep library nested site walk lang progress node items after)
    (skip : (walk.enter progress node).frame.command = .skip) :
    items = [] ∧ after = walk.enter progress node := by
  cases step with
  | skipped command => exact ⟨rfl, rfl⟩
  | directive command role found => exact absurd (skip.symm.trans command) (by decide)
  | instruction command role found => exact absurd (skip.symm.trans command) (by decide)
  | copied command noDirective noInstruction found below =>
    exact absurd (skip.symm.trans command) (by decide)
  | passed noSkip noText below => exact absurd skip noSkip

/-- Where a walk takes text, a directive or an instruction is replaced, and any other node shows its
notes, its text and what its children show. -/
theorem InlineStep.of_copyText {lang : Option String} {progress after : Progress} {node : Node}
    {items : List Item}
    (step : InlineStep library nested site walk lang progress node items after)
    (text : (walk.enter progress node).frame.command = .copyText) :
    (Role.of node = .directive ∧ ∃ element,
      (transclude library nested site node .inline).result = .ok element ∧
        items = [.element element] ∧ after = walk.leave (walk.enter progress node) node) ∨
    (Role.of node = .instruction ∧ ∃ note,
      (inlineInstruction library nested site node).result = .ok note ∧
        items = [.element note] ∧ after = walk.leave (walk.enter progress node) node) ∨
    (Role.of node ≠ .directive ∧ Role.of node ≠ .instruction) ∧ ∃ applied others inside,
      (annotate library nested site node).result = .ok applied ∧
        (inlineForest library nested site walk (changedLang? node lang <|> lang)
          (walk.enter progress node) node.children).result = .ok (others, inside) ∧
        items = inLang (changedLang? node lang)
          (applied.notes.map .element ++ .text node.text :: others) ∧
        after = walk.leave inside node := by
  cases step with
  | skipped command => exact absurd (text.symm.trans command) (by decide)
  | directive command role found => exact Or.inl ⟨role, _, found, rfl, rfl⟩
  | instruction command role found => exact Or.inr (Or.inl ⟨role, _, found, rfl, rfl⟩)
  | copied command noDirective noInstruction found below =>
    exact Or.inr (Or.inr ⟨⟨noDirective, noInstruction⟩, _, _, _, found, below, rfl, rfl⟩)
  | passed noSkip noText below => exact absurd text noText

/-- What is passed shows what its children show, in the language that it was entered in. -/
theorem InlineStep.of_pass {lang : Option String} {progress after : Progress} {node : Node}
    {items : List Item}
    (step : InlineStep library nested site walk lang progress node items after)
    (pass : (walk.enter progress node).frame.command = .pass) :
    ∃ inside, (inlineForest library nested site walk lang (walk.enter progress node)
      node.children).result = .ok (items, inside) ∧ after = walk.leave inside node := by
  cases step with
  | skipped command => exact absurd (pass.symm.trans command) (by decide)
  | directive command role found => exact absurd (pass.symm.trans command) (by decide)
  | instruction command role found => exact absurd (pass.symm.trans command) (by decide)
  | copied command noDirective noInstruction found below =>
    exact absurd (pass.symm.trans command) (by decide)
  | passed noSkip noText below => exact ⟨_, below, rfl⟩

/-- A tail is no element. -/
theorem element_notMem_tailItems (progress : Progress) (child : Node) (element : Element) :
    .element element ∉ tailItems progress child := by
  unfold tailItems
  split <;> simp

/-- In extracted text an instruction is the note that replaces it, or else a copy of itself. -/
theorem inlineInstruction_eq_ok {node : Node} {note : Element} :
    (inlineInstruction library nested site node).result = .ok note ↔
      (annotate library nested site node).result = .ok (.replace note) ∨
        ∃ applied copied, (annotate library nested site node).result = .ok applied ∧
          (∀ note, applied ≠ .replace note) ∧
          (nested.copy (some site.file) site.file (some node)).result = .ok copied ∧
          note = insertNotes applied.notes copied := by
  rw [inlineInstruction, Run.bind_eq_ok]
  constructor
  · rintro ⟨applied, found, h⟩
    split at h
    · cases h
      exact Or.inl found
    -- An instruction that is not replaced is copied as a file of its own is, in a frame of its own.
    · rename_i kept
      obtain ⟨copied, copies, h⟩ := Run.bind_eq_ok.mp h
      cases h
      exact Or.inr ⟨applied, copied, found, kept, copies, rfl⟩
  · rintro (found | ⟨applied, copied, found, kept, copies, rfl⟩)
    · exact ⟨_, found, rfl⟩
    · refine ⟨applied, found, ?_⟩
      cases applied with
      | replace note => exact absurd rfl (kept note)
      | _ => exact Run.bind_eq_ok.mpr ⟨copied, copies, rfl⟩

theorem inlineForest_nil {lang : Option String} {progress after : Progress} {items : List Item}
    (h : (inlineForest library nested site walk lang progress []).result = .ok (items, after)) :
    items = [] ∧ after = progress := by
  cases h
  exact ⟨rfl, rfl⟩

/-- A list of nodes shows in turn what each shows and the tail after it. -/
theorem inlineForest_cons {lang : Option String} {progress after : Progress} {first : Node}
    {rest : List Node} {items : List Item}
    (h : (inlineForest library nested site walk lang progress (first :: rest)).result =
      .ok (items, after)) :
    ∃ shown between others,
      (inline library nested site walk lang progress first).result = .ok (shown, between) ∧
        (inlineForest library nested site walk lang between rest).result = .ok (others, after) ∧
        items = shown ++ tailItems between first ++ others := by
  rw [inlineForest] at h
  obtain ⟨⟨shown, between⟩, found, h⟩ := Run.bind_eq_ok.mp h
  obtain ⟨⟨others, last⟩, below, h⟩ := Run.bind_eq_ok.mp h
  cases h
  exact ⟨shown, between, others, found, below, rfl⟩

/-! ## 4. Copying

A copy needs no walk: no range is asked about and nothing is skipped. So the steps are those of a
node that is taken, and they give the copy exactly, in both directions. -/

/-- What a copy of a node is. -/
inductive CopyStep (library : Library) (nested : Nested) (site : Site) (node : Node) :
    Element → Prop where
  /-- What the directive includes stands in its place. -/
  | directive {element : Element} (role : Role.of node = .directive)
    (found : (transclude library nested site node (.of node)).result = .ok element) :
    CopyStep library nested site node element
  /-- An instruction asks for another note instead of the node. -/
  | replaced {note : Element} (role : Role.of node ≠ .directive)
    (found : (annotate library nested site node).result = .ok (.replace note)) :
    CopyStep library nested site node note
  /-- The node with its notes and the copies of its children. -/
  | copied {applied : Annotation} {copies : List Element} (role : Role.of node ≠ .directive)
    (found : (annotate library nested site node).result = .ok applied)
    (kept : ∀ note, applied ≠ .replace note)
    (below : (copyForest library nested site node.children).result = .ok copies) :
    CopyStep library nested site node (insertNotes applied.notes (withChildren node copies))

/-- A copy of a node is what one of the steps says. -/
theorem copyStep_iff {node : Node} {element : Element} :
    (copy library nested site node).result = .ok element ↔
      CopyStep library nested site node element := by
  obtain ⟨id, path, name, attributes, text, children, tail⟩ := node
  rw [copy]
  constructor
  · intro h
    split at h
    · rename_i role
      exact .directive role h
    · rename_i role
      obtain ⟨applied, found, h⟩ := Run.bind_eq_ok.mp h
      split at h
      · cases h
        exact .replaced role found
      · rename_i kept
        obtain ⟨copies, below, h⟩ := Run.bind_eq_ok.mp h
        cases h
        exact .copied role found kept below
  · intro step
    cases step with
    | directive role found => rw [if_pos role, found]
    | replaced role found =>
      rw [if_neg role]
      exact Run.bind_eq_ok.mpr ⟨_, found, rfl⟩
    | @copied applied copies role found kept below =>
      rw [if_neg role]
      refine Run.bind_eq_ok.mpr ⟨applied, found, ?_⟩
      cases applied with
      | replace note => exact absurd rfl (kept note)
      | _ => exact Run.bind_eq_ok.mpr ⟨copies, below, rfl⟩

theorem copyForest_nil {copies : List Element}
    (h : (copyForest library nested site []).result = .ok copies) : copies = [] := by
  cases h
  rfl

/-- Copies of siblings are made one by one, each with the tail that its node has in the file. -/
theorem copyForest_cons_iff {first : Node} {rest : List Node} {copies : List Element} :
    (copyForest library nested site (first :: rest)).result = .ok copies ↔
      ∃ element others, (copy library nested site first).result = .ok element ∧
        (copyForest library nested site rest).result = .ok others ∧
        copies = { element with tail := first.tail } :: others := by
  rw [copyForest, Run.bind_eq_ok]
  constructor
  · rintro ⟨element, found, h⟩
    obtain ⟨others, below, h⟩ := Run.bind_eq_ok.mp h
    cases h
    exact ⟨element, others, found, below, rfl⟩
  · rintro ⟨element, others, found, below, rfl⟩
    exact ⟨element, found, Run.bind_eq_ok.mpr ⟨others, below, rfl⟩⟩

/-- A note that is no directive is copied without being annotated. -/
theorem copyNote_eq_ok {node : Node} {element : Element} (role : Role.of node ≠ .directive) :
    (copyNote library nested site node).result = .ok element ↔
      ∃ copies, (copyForest library nested site node.children).result = .ok copies ∧
        element = withChildren node copies := by
  rw [copyNote, if_neg role, Run.bind_eq_ok]
  constructor
  · rintro ⟨copies, below, h⟩
    cases h
    exact ⟨copies, below, rfl⟩
  · rintro ⟨copies, below, rfl⟩
    exact ⟨copies, below, rfl⟩

/-! ## 5. Frames

Everything that is fetched from a file is fetched in a frame: the file is read, the range is located
in it, and a walk starts at its root. If no frame is left, the run fails after these steps, with
nothing taken. -/

variable {file : SourceFile} {startMarker stopMarker : String}

/-- What a frame gives that extracts structure. -/
theorem external_level_eq_ok {deeper : Unit → Nested} {elements : List Element} :
    ((level library (some deeper)).external file startMarker stopMarker).result = .ok elements ↔
      ∃ document bounds after, library.document file = .ok document ∧
        Bounds.locate document startMarker stopMarker = .ok bounds ∧
        (external library (deeper ()) ⟨file, document⟩ (.within document bounds .external)
          (Walk.start file startMarker stopMarker) document.root).result =
            .ok (elements, after) := by
  simp only [level, Run.bind_eq_ok, Library.result_read, Run.result_ofExcept, Deeper.within,
    Run.result_inside]
  constructor
  · rintro ⟨document, reads, bounds, located, ⟨found, after⟩, ran, same⟩
    cases same
    exact ⟨document, bounds, after, reads, located, ran⟩
  · rintro ⟨document, bounds, after, reads, located, ran⟩
    exact ⟨document, reads, bounds, located, (elements, after), ran, rfl⟩

/-- What a frame gives that extracts text. -/
theorem inline_level_eq_ok {deeper : Unit → Nested} {element : Element} :
    ((level library (some deeper)).inline file startMarker stopMarker).result = .ok element ↔
      ∃ document bounds items after, library.document file = .ok document ∧
        Bounds.locate document startMarker stopMarker = .ok bounds ∧
        (inline library (deeper ()) ⟨file, document⟩ (.within document bounds .inline)
          (document.lang? bounds.start) (Walk.start file startMarker stopMarker)
          document.root).result = .ok (items, after) ∧
        element = append (container (document.lang? bounds.start)) items := by
  simp only [level, Run.bind_eq_ok, Library.result_read, Run.result_ofExcept, Deeper.within,
    Run.result_inside]
  constructor
  · rintro ⟨document, reads, bounds, located, ⟨items, after⟩, ran, same⟩
    cases same
    exact ⟨document, bounds, items, after, reads, located, ran, rfl⟩
  · rintro ⟨document, bounds, items, after, reads, located, ran, rfl⟩
    exact ⟨document, reads, bounds, located, (items, after), ran, rfl⟩

/-- A frame that is not allowed gives no structure. -/
theorem external_level_none_ne_ok {elements : List Element} :
    ((level library none).external file startMarker stopMarker).result ≠ .ok elements := by
  intro h
  -- The file is read and the range located before the frame is refused.
  simp only [level, Run.bind_eq_ok, Deeper.within, Run.result_fail] at h
  obtain ⟨_, _, _, _, _, wrong, _⟩ := h
  cases wrong

/-- A frame that is not allowed gives no text. -/
theorem inline_level_none_ne_ok {element : Element} :
    ((level library none).inline file startMarker stopMarker).result ≠ .ok element := by
  intro h
  simp only [level, Run.bind_eq_ok, Deeper.within, Run.result_fail] at h
  obtain ⟨_, _, _, _, _, wrong, _⟩ := h
  cases wrong

/-- What a frame gives that copies a file, or the subtree at a node of the file. -/
theorem copy_level_eq_ok {deeper : Unit → Nested} {home : Option SourceFile} {root : Option Node}
    {element : Element} :
    ((level library (some deeper)).copy home file root).result = .ok element ↔
      ∃ document found, library.document file = .ok document ∧
        (match root with
          | none => copy library (deeper ()) ⟨file, document⟩ document.root
          | some node => copyNote library (deeper ()) ⟨file, document⟩ node).result = .ok found ∧
        element = stampForeign found home file := by
  simp only [level, Run.bind_eq_ok, Library.result_read, Deeper.within, Run.result_inside]
  constructor
  · rintro ⟨document, reads, found, ran, same⟩
    cases same
    exact ⟨document, found, reads, ran, rfl⟩
  · rintro ⟨document, found, reads, ran, rfl⟩
    exact ⟨document, reads, found, ran, rfl⟩

/-- A frame that is not allowed gives no copy. -/
theorem copy_level_none_ne_ok {home : Option SourceFile} {root : Option Node} {element : Element} :
    ((level library none).copy home file root).result ≠ .ok element := by
  intro h
  simp only [level, Run.bind_eq_ok, Deeper.within, Run.result_fail] at h
  obtain ⟨_, _, _, wrong, _⟩ := h
  cases wrong

/-- A compiled tree is a copy of the root of its document, with a stamp: there is no frame around
it that the file could be at home in. -/
theorem compile_eq_ok {tree : Element} :
    (compile library file).result = .ok tree ↔
      ∃ remaining document root, library.settings.maxDepth = remaining + 1 ∧
        library.document file = .ok document ∧
        (copy library (levels library remaining) ⟨file, document⟩ document.root).result =
          .ok root ∧
        tree = stampOrigin root file := by
  unfold compile
  -- Without any frame nothing is copied; with one, all the others are left for what the file
  -- includes.
  cases frames : library.settings.maxDepth with
  | zero =>
    refine iff_of_false copy_level_none_ne_ok ?_
    rintro ⟨remaining, -, -, wrong, -⟩
    cases wrong
  | succ remaining =>
    refine copy_level_eq_ok.trans ⟨?_, ?_⟩
    · rintro ⟨document, root, reads, copied, rfl⟩
      exact ⟨remaining, document, root, rfl, reads, copied, rfl⟩
    · rintro ⟨_, document, root, same, reads, copied, rfl⟩
      cases same
      exact ⟨document, root, reads, copied, rfl⟩

end Intertext.Compile
