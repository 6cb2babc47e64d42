import Intertext.Proofs.Compile.Placing
/-!
What a directive quotes.

The target of a directive leads to a range of a document (`Quotes`), and what extraction takes of
the range fills the wrapper that replaces the directive (`fills_of_transclude`). Where a node or a
piece of text is put in the wrapper is told by the walk of the range (`CopiesTo`, `TakesTo`), and it
stands there (`Fills.copied`, `Fills.taken`). All else in a wrapper of copies was inserted
(`Fills.copied_or_inserted`).
-/

namespace Intertext.Compile

open Markup (Document Element Name Node)
open Markup.Element (untailed)

/-! ## 1. Filling -/

/-- Appending adds to the content, whatever the tag is. -/
theorem append_eq (element content : Element) (items : List Item) :
    append { element with text := content.text, children := content.children } items =
      { element with
        text := (append content items).text, children := (append content items).children } := by
  induction items generalizing content with
  | nil => rfl
  | cons first rest ih =>
    cases first with
    | text text =>
      have pushed : ({ element with text := content.text, children := content.children } :
          Element).pushText text = { element with
            text := (content.pushText text).text
            children := (content.pushText text).children } := by
        unfold Element.pushText
        dsimp only
        split <;> rfl
      exact (congrArg (append · rest) pushed).trans (ih (content.pushText text))
    | element child => exact ih (content.push child)

/-- Whether a directive in a file quotes a range: the one that its target leads to. -/
structure Quotes (library : Library) (home : SourceFile) (directive : Node) (target : Target)
    (source : Document) (bounds : Bounds) : Prop where
  leads : ∃ start, directive.value? (.plain "target") = some start ∧
    (Target.locate library home start (directive.value? (.plain "targetEnd"))).result = .ok target
  reads : library.document target.file = .ok source
  bounded : Bounds.locate source target.start target.stop = .ok bounds

/-- Whether an element holds what is extracted from a range, by frames of which no more than so many
may be open. -/
inductive Fills (library : Library) (frames : Nat) (target : Target) (source : Document)
    (bounds : Bounds) (element : Element) : Extraction → Prop where
  | external {elements : List Element} {after : Progress}
    (ran : (external library (levels library frames) ⟨target.file, source⟩
      (.within source bounds .external) (Walk.start target.file target.start target.stop)
      source.root).result = .ok (elements, after))
    (children : element.children = elements) :
    Fills library frames target source bounds element .external
  | inline {items : List Item} {after : Progress}
    (ran : (inline library (levels library frames) ⟨target.file, source⟩
      (.within source bounds .inline) (source.lang? bounds.start)
      (Walk.start target.file target.start target.stop) source.root).result = .ok (items, after))
    (text : element.text = (append (container (source.lang? bounds.start)) items).text)
    (children : element.children =
      (append (container (source.lang? bounds.start)) items).children) :
    Fills library frames target source bounds element .inline

variable {library : Library} {home : SourceFile} {directive : Node} {frames : Nat}
  {target : Target} {source : Document} {bounds : Bounds} {element : Element}

/-- A directive is replaced by a wrapper that declares no language before its stamps, and it is
filled with what is extracted from the range that the directive quotes. -/
theorem fills_of_transclude {document : Document} {extraction : Extraction}
    (found : (transclude library (levels library frames) ⟨home, document⟩ directive
      extraction).result = .ok element) :
    ∃ fewer target source bounds wrapped, frames = fewer + 1 ∧
      Quotes library home directive target source bounds ∧
      Fills library fewer target source bounds element extraction ∧
      wrapped.ownLang? = none ∧
      element = stampLang (stampForeign wrapped (some home) target.file)
        (source.lang? bounds.start) (document.lang? directive.id) := by
  obtain ⟨start, target, wrapped, source, given, leads, fills, reads, rfl⟩ := transclude_eq_ok found
  have silent := (isWrapper_of_filled fills).silent
  have fills := filled_eq_ok.mp fills
  cases extraction with
  | external =>
    obtain ⟨children, extracted, rfl⟩ := fills
    cases frames with
    | zero => exact absurd extracted external_level_none_ne_ok
    | succ fewer =>
      obtain ⟨source', bounds, after, reads', bounded, ran⟩ := external_level_eq_ok.mp extracted
      cases reads.symm.trans reads'
      rw [langAt?_of_locate bounded]
      refine ⟨fewer, target, source, bounds, _, rfl, ⟨⟨start, given, leads⟩, reads, bounded⟩,
        .external ran ?_, silent, rfl⟩
      rw [children_stampLang, children_stampForeign]
  | inline =>
    obtain ⟨content, extracted, rfl⟩ := fills
    cases frames with
    | zero => exact absurd extracted inline_level_none_ne_ok
    | succ fewer =>
      obtain ⟨source', bounds, items, after, reads', bounded, ran, rfl⟩ :=
        inline_level_eq_ok.mp extracted
      cases reads.symm.trans reads'
      rw [langAt?_of_locate bounded]
      refine ⟨fewer, target, source, bounds, _, rfl, ⟨⟨start, given, leads⟩, reads, bounded⟩,
        .inline ran ?_ ?_, silent, rfl⟩
      · rw [text_stampLang, text_stampForeign]
      · rw [children_stampLang, children_stampForeign]

/-! ## 2. Places -/

/-- Whether extraction of structure copies a node of a range to some positions of what it fills, and
the nodes that are copied around it, nearest first. -/
def CopiesTo (library : Library) (frames : Nat) (target : Target) (source : Document)
    (bounds : Bounds) (positions : List Nat) (copied : Node) (around : List Node) : Prop :=
  CopiedAt library (levels library frames) ⟨target.file, source⟩ (.within source bounds .external)
    (Walk.start target.file target.start target.stop) [source.root] positions (copied :: around)

/-- Whether extraction of text takes a piece of text of a node to some positions of what it fills,
and the nodes whose text is taken around it, nearest first. -/
def TakesTo (library : Library) (frames : Nat) (target : Target) (source : Document)
    (bounds : Bounds) (positions : List Nat) (text : String) (origin : Node)
    (around : List Node) : Prop :=
  TextAt library (levels library frames) ⟨target.file, source⟩ (.within source bounds .inline)
    (source.lang? bounds.start) (Walk.start target.file target.start target.stop) source.root
    [source.root] positions origin around text

variable {positions : List Nat} {around : List Node}

/-- What extraction of structure copies stands where it should, and what is declared around it there
is what the nodes around it declare, or else what the element that is filled does. -/
theorem Fills.copied {copied : Node}
    (fills : Fills library frames target source bounds element .external)
    (place : CopiesTo library frames target source bounds positions copied around) :
    ∃ inner, element.at? positions = some inner ∧ inner.name = copied.name ∧
      inner.attributes = copied.attributes ∧ nearestLang? element positions =
        ((copied :: around).findSome? (·.ownLang?) <|> element.ownLang?) := by
  cases fills with
  | @external elements after ran children =>
    have forest : (externalForest library (levels library frames) ⟨target.file, source⟩
        (.within source bounds .external) (Walk.start target.file target.start target.stop)
        [source.root]).result =
          .ok ([⟨elements, tailInRange after source.root⟩], after) := by
      rw [externalForest, Run.bind_eq_ok]
      exact ⟨_, ran, rfl⟩
    have same : element.children.map untailed =
        ([] ++ List.flatMap Piece.elements [⟨elements, tailInRange after source.root⟩] ++
          []).map untailed := by
      simp [children]
    obtain ⟨first, outer, inner, isChain, isThere, name, attributes, nearest⟩ :=
      CopiedAt.shown place forest same
    cases isChain
    rw [List.length_nil, shift_zero] at isThere nearest
    exact ⟨inner, isThere, name, attributes, nearest⟩

/-- What stands in an element that is filled with copies is a copy, or is or stands in what was
inserted. -/
theorem Fills.copied_or_inserted {position : Nat} {more : List Nat} {inner : Element}
    (fills : Fills library frames target source bounds element .external)
    (isThere : element.at? (position :: more) = some inner) :
    (∃ copied around,
      CopiesTo library frames target source bounds (position :: more) copied around) ∨
      ∃ child, element.children[position]? = some child ∧
        IntoInserted library (levels library frames) ⟨target.file, source⟩ child more := by
  obtain ⟨child, isChild, below⟩ := Option.bind_eq_some_iff.mp isThere
  cases fills with
  | external ran children =>
    rw [children] at isChild
    rcases copiedAt_or_of_external rfl ran isChild below with ⟨chain, place⟩ | into
    · obtain ⟨copied, around, rfl⟩ := place.exists_cons
      exact Or.inl ⟨copied, around, place⟩
    · exact Or.inr ⟨child, children ▸ isChild, into⟩

/-- What extraction of text takes is held where it should be, and what is declared around it there
is what the nodes around it declare, or else what the element that is filled does. -/
theorem Fills.taken {origin : Node} {text : String} {spoken : Option String}
    (fills : Fills library frames target source bounds element .inline)
    (place : TakesTo library frames target source bounds positions text origin around)
    (rootTail : source.root.tail = "")
    (speaks : Speaks (element.ownLang? <|> spoken) (source.lang? bounds.start)) :
    ∃ inner, element.at? positions = some inner ∧ inner.Holds text ∧
      (positions ≠ [] → inner.name = .processing "transcludeInline") ∧
      (nearestLang? element positions <|> spoken) =
        (around.findSome? (·.ownLang?) <|> element.ownLang? <|> spoken) := by
  cases fills with
  | @inline items after ran own children =>
    have forest : (inlineForest library (levels library frames) ⟨target.file, source⟩
        (.within source bounds .inline) (source.lang? bounds.start)
        (Walk.start target.file target.start target.stop) [source.root]).result =
          .ok (items, after) := by
      rw [inlineForest, Run.bind_eq_ok]
      refine ⟨_, ran, ?_⟩
      have none : tailItems after source.root = [] := by simp [tailItems, rootTail]
      simp [none, inlineForest]
    have whole : element = append { element with text := "", children := [] } items := by
      have content := append_eq element (container (source.lang? bounds.start)) items
      rw [← own, ← children, children_container, text_container] at content
      cases element
      exact content.symm
    obtain ⟨inner, isThere, holds, name, nearest⟩ := TextAt.shown place forest
      { element with text := "", children := [] } [] [] spoken speaks
    rw [List.append_nil, List.nil_append, ← whole] at isThere nearest
    simp only [elementsOf, List.filterMap_nil, List.length_nil, Nat.add_zero, shift_zero]
      at isThere nearest
    exact ⟨inner, isThere, holds, name, nearest⟩

end Intertext.Compile
