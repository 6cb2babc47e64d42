import Intertext.Proofs.Compile.Splices
/-!
Trees that read in their own languages.

An element of an output tree shows a node of a file, or what the target of a directive bounds. It
fits where it is if the language in scope there, in the tree, is the one in scope at what it shows,
in its document (`Fits`). `Spoken` holds of a tree in which every element fits if a language is
spoken around the tree, but for two things: nothing is said of what took the place of a masked node,
and nothing of what stands in a wrapper of a range that is not one element, where languages may
change on the way. So in such a tree the nearest declaration around an element is right
(`Spoken.at?`). What compilation puts together is spoken if its parts are where they land, be it the
tag of a node over its content (`Voices.lands`) or content that gets stamps (`lands_stamped`).
-/

namespace Intertext.Compile

open Markup (Element Name Node Document)

/-! ## 1. Elements that fit -/

/-- Whether an element reads in the language of what it shows if `lang` is in scope at it. What it
shows comes from the file `home`. -/
inductive Fits (library : Library) (home : SourceFile) (lang : Option String) (element : Element) :
    Prop where
  /-- The element is a copy of a node. -/
  | copy {document : Document} {node : Node} (reads : library.document home = .ok document)
    (isNode : node ∈ document.nodes) (name : element.name = node.name)
    (same : ∀ name ∉ addedNames, element.value? name = node.value? name)
    (speaks : Speaks lang (document.lang? node.id))
  /-- The element is the wrapper of what a target bounds, seen from the file of the directive. -/
  | wrapper {outer : SourceFile} {start : String} {target : Target} {source : Document}
    (made : Made element) (given : element.value? (.plain "target") = some start)
    (located : (Target.locate library outer start (element.value? (.plain "targetEnd"))).result =
      .ok target)
    (isHome : target.file = home) (reads : library.document home = .ok source)
    (speaks : Speaks lang (langAt? source target.start))
  /-- The element is a container and shows nothing itself. -/
  | container (made : Made element) (name : element.name = .processing "transcludeInline")

/-- Whether every element of a tree fits, if `spoken` is in scope around the tree and `outer` is the
file that is named last outside of it. -/
inductive Spoken (library : Library) : SourceFile → Option String → Element → Prop where
  | element {outer home : SourceFile} {spoken : Option String} {element : Element}
    (origin : library.Unstamped → (origin? element).getD outer = home)
    (fits : Fits library home (element.ownLang? <|> spoken) element)
    (below : ¬QuotesRange library element → ∀ child ∈ element.children,
      Spoken library home (element.ownLang? <|> spoken) child) :
    Spoken library outer spoken element
  | masked {outer : SourceFile} {spoken : Option String} {element : Element}
    (masked : ReplacesMasked library element) : Spoken library outer spoken element

/-- Whether an element is spoken wherever a language is. -/
def Lands (library : Library) (file : SourceFile) (lang : Option String) (element : Element) :
    Prop :=
  ∀ spoken, Speaks spoken lang → Spoken library file spoken element

variable {library : Library} {outer home file : SourceFile}
  {lang spoken source inScope : Option String} {element other : Element} {document : Document}
  {node : Node}

/-- Whether an element fits depends on its tag alone, without what compilation adds to it. -/
theorem Fits.congr (fits : Fits library home lang element) (tag : SameTag other element) :
    Fits library home lang other := by
  have isMade (made : Made element) : Made other := by
    refine ⟨tag.name ▸ made.name, fun name notMade => ?_⟩
    rw [tag.values name fun isAdded => notMade (List.mem_append_right _ isAdded)]
    exact made.attributes name notMade
  cases fits with
  | copy reads isNode name same speaks =>
    exact .copy reads isNode (tag.name.trans name)
      (fun key notAdded => (tag.values key notAdded).trans (same key notAdded)) speaks
  | @wrapper outer start target source made given located isHome reads speaks =>
    refine @Fits.wrapper _ _ _ _ outer start target source (isMade made) ?_ ?_ isHome reads speaks
    · rw [tag.values _ (by decide), given]
    · rw [tag.values _ (by decide), located]
  | container made name => exact .container (isMade made) (tag.name.trans name)

theorem QuotesRange.congr (quotes : QuotesRange library element) (tag : SameTag other element) :
    QuotesRange library other := by
  obtain ⟨outer, start, target, source, bounds, name, given, located, rest⟩ := quotes
  refine ⟨outer, start, target, source, bounds, tag.name.trans name, ?_, ?_, rest⟩
  · rw [tag.values _ (by decide), given]
  · rw [tag.values _ (by decide), located]

theorem Lands.withTail (element : Element) (tail : String)
    (lands : Lands library file lang element) : Lands library file lang { element with tail } := by
  intro spoken speaks
  cases lands spoken speaks with
  | element origin fits below =>
    exact .element origin (fits.congr (.of_attributes rfl rfl)) below
  | masked masked => exact .masked masked

theorem self_mem_spineAt (positions : List Nat) (tree : Element) :
    tree ∈ spineAt positions tree := by
  cases positions with
  | nil => exact List.mem_singleton_self tree
  | cons position rest =>
    rw [spineAt]
    split
    · exact List.mem_append_right _ (List.mem_singleton_self tree)
    · exact List.mem_singleton_self tree

/-- In a tree that is spoken, outside of quoted ranges, the nearest element around another one that
declares a language declares the one that it has to read in, unless something around it took the
place of a masked node. -/
theorem Spoken.at? : ∀ {positions : List Nat} {outer : SourceFile} {spoken : Option String}
    {tree inner : Element}, Spoken library outer spoken tree → tree.at? positions = some inner →
      (∀ around ∈ (spineAt positions tree).tail, ¬QuotesRange library around) →
      (∃ around ∈ spineAt positions tree, ReplacesMasked library around) ∨
        ∃ home, (library.Unstamped →
            ((spineAt positions tree).findSome? origin?).getD outer = home) ∧
          Fits library home ((spineAt positions tree).findSome? (·.ownLang?) <|> spoken) inner
  | [], outer, spoken, tree, inner, reads, isThere, _ => by
    cases isThere
    cases reads with
    | masked masked => exact Or.inl ⟨tree, self_mem_spineAt [] tree, masked⟩
    | @element _ home _ _ origin fits below =>
      refine Or.inr ⟨home, fun unstamped => ?_, ?_⟩
      · rw [← origin unstamped, spineAt, List.findSome?_singleton]
      · rw [spineAt, List.findSome?_singleton]
        exact fits
  | position :: rest, outer, spoken, tree, inner, reads, isThere, narrow => by
    obtain ⟨child, isChild, inside⟩ := Option.bind_eq_some_iff.mp isThere
    cases reads with
    | masked masked => exact Or.inl ⟨tree, self_mem_spineAt _ tree, masked⟩
    | element origin fits below =>
      rw [spineAt, isChild] at narrow ⊢
      simp only [List.tail_append_of_ne_nil (List.ne_nil_of_mem (self_mem_spineAt rest child))]
        at narrow
      have single := narrow tree (List.mem_append_right _ (List.mem_singleton_self tree))
      obtain ⟨around, isAround, masked⟩ | ⟨home, nearest, own⟩ :=
        (below single child (List.mem_of_getElem? isChild)).at? inside
          fun around isAround => narrow around (List.mem_append_left _ isAround)
      · exact Or.inl ⟨around, List.mem_append_left _ isAround, masked⟩
      · simp only [List.findSome?_append, List.findSome?_singleton]
        refine Or.inr ⟨home, fun unstamped => ?_, ?_⟩
        · rw [← nearest unstamped, ← origin unstamped]
          cases (spineAt rest child).findSome? origin? <;> rfl
        · cases declared : (spineAt rest child).findSome? (·.ownLang?) with
          | none =>
            rw [declared] at own
            exact own
          | some lang =>
            rw [declared] at own
            exact own

/-! ## 2. Putting together -/

/-- Whether an element is the tag of a node over content that reads in the node's language. -/
structure Voices (library : Library) (file : SourceFile) (document : Document) (node : Node)
    (element : Element) : Prop where
  name : element.name = node.name
  attributes : element.attributes = node.attributes
  below : ∀ child ∈ element.children, Lands library file (document.lang? node.id) child

/-- Whether a language is in scope at a node, for what replaces it or for what is in it. -/
def InScope (document : Document) (node : Node) (lang : Option String) : Prop :=
  lang = document.langAround? node.id ∨ lang = document.lang? node.id

/-- What is spoken at a node or around it, with what the node declares, is right for the node. -/
theorem InScope.declared (ordered : document.Ordered) (isNode : node ∈ document.nodes)
    (place : InScope document node lang) :
    (node.ownLang? <|> lang) = document.lang? node.id := by
  rcases place with rfl | rfl
  · exact (Document.lang?_eq ordered isNode).symm
  · rw [Document.lang?_eq ordered isNode]
    cases node.ownLang? <;> rfl

/-- The tag of a node over what reads in its language can stand where the node does. -/
theorem Voices.lands (voices : Voices library file document node element)
    (ordered : document.Ordered) (reads : library.document file = .ok document)
    (isNode : node ∈ document.nodes) (place : InScope document node lang) :
    Lands library file lang element := by
  intro spoken speaks
  have declares : element.ownLang? = node.ownLang? := ownLang?_of_node voices.attributes
  have own : Speaks (element.ownLang? <|> spoken) (document.lang? node.id) := by
    rw [declares, ← place.declared ordered isNode]
    exact .declared _ speaks
  refine .element (fun unstamped => ?_) (.copy reads isNode voices.name (fun key _ => ?_) own)
    fun _ child isChild => voices.below child isChild _ own
  · rw [origin?_of_node unstamped reads isNode voices.attributes]
    rfl
  · exact value?_of_node voices.attributes key

theorem Voices.insertNotes {notes : List Element}
    (voices : Voices library file document node element)
    (all : ∀ note ∈ notes, Lands library file (document.lang? node.id) note) :
    Voices library file document node (insertNotes notes element) where
  name := (name_insertNotes ..).trans voices.name
  attributes := (attributes_insertNotes ..).trans voices.attributes
  below := forall_children_insertNotes Lands.withTail voices.below all

theorem voices_withChildren {copies : List Element}
    (all : ∀ copied ∈ copies, Lands library file (document.lang? node.id) copied) :
    Voices library file document node (withChildren node copies) := ⟨rfl, rfl, all⟩

theorem voices_fill {text : String} {pieces : List Piece}
    (all : ∀ piece ∈ pieces, ∀ shown ∈ piece.elements,
      Lands library file (document.lang? node.id) shown) :
    Voices library file document node (fill { node.shell with text } pieces) where
  name := name_fill ..
  attributes := attributes_fill ..
  below := forall_children_fill Lands.withTail (fun child none => by cases none) all

/-- Content from a file, with its stamps, is spoken where it lands if its language is spoken there
in case the stamp is left out. -/
theorem lands_stamped (unstamped : library.Unstamped → origin? element = none)
    (declares : ∀ own, element.ownLang? = some own → source = some own)
    (fits : ∀ lang, Speaks lang source → Fits library file lang element)
    (below : ¬QuotesRange library element →
      ∀ child ∈ element.children, Lands library file source child)
    (place : element.ownLang? = none → source = inScope → Speaks lang source) :
    Lands library home lang (stampLang (stampForeign element (some home) file) source inScope) := by
  intro spoken speaks
  have own : Speaks ((stampLang (stampForeign element (some home) file) source inScope).ownLang? <|>
      spoken) source := by
    refine speaks_stampLang fun same => ?_
    rw [ownLang?_stampForeign]
    exact .of_declares declares fun silent => speaks.trans (place silent same)
  have tag := (sameTag_stampForeign element (some home) file).stampLang source inScope
  refine @Spoken.element _ home file _ _ (fun isUnstamped => ?_) ((fits _ own).congr tag)
    fun narrow child isChild => ?_
  · rw [origin?_stampLang, stampForeign]
    split
    · rename_i isHome
      cases isHome
      rw [unstamped isUnstamped]
      rfl
    · rw [origin?_stampOrigin]
      rfl
  · rw [children_stampLang, children_stampForeign] at isChild
    exact below (fun quotes => narrow (quotes.congr tag)) child isChild _ own

end Intertext.Compile
