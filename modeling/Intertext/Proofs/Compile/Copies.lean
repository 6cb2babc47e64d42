import Intertext.Proofs.Compile.Spoken
/-!
The languages of copies.

What a frame gives to another one reads in the language that it comes from (`Nested.Speaks`). So a
note lands in the element into which it is inserted, and what takes the place of a node lands where
the node does, or else the node is masked (`lands_of_mem_notes`, `lands_of_replace`,
`lands_of_transclude`). A copy of a node is made of these and can stand where the node does
(`lands_of_copy`).
-/

namespace Intertext.Compile

open Markup (Element Name Node Document)
open Markup.Node

/-! ## 1. What frames give

A language is handed on from frame to frame with the file and the node that it belongs to. Where a
stamp is written the language is named; where it is left out, the language around is the same,
unless the node that is replaced declares one of its own. That case is set apart (`Masked`), and
nothing is said of it. -/

/-- Whether what frames give reads in the language that it comes from. -/
structure Nested.Speaks (library : Library) (nested : Nested) : Prop where
  /-- The frames are those that some limit allows. -/
  isLevel : ∃ frames, nested = levels library frames
  copy : ∀ home file document node element, library.document file = .ok document →
    node ∈ document.nodes → Role.of node ≠ .directive →
    (nested.copy (some home) file (some node)).result = .ok element →
    ∃ root, element = stampForeign root (some home) file ∧ Voices library file document node root
  external : ∀ file document start stop elements, library.document file = .ok document →
    (∀ bounds, Bounds.locate document start stop = .ok bounds → bounds.IsElement document) →
    (nested.external file start stop).result = .ok elements →
    ∀ element ∈ elements, Lands library file (langAt? document start) element
  inline : ∀ file document start stop element, library.document file = .ok document →
    (∀ bounds, Bounds.locate document start stop = .ok bounds → bounds.IsElement document) →
    (nested.inline file start stop).result = .ok element →
    ∀ child ∈ element.children, Lands library file (langAt? document start) child

variable {library : Library} {nested : Nested} {file : SourceFile} {document : Document}
  {node : Node} {element : Element} {lang source inScope : Option String}

/-- Where what replaces a node gets no stamp, its language is spoken at the node and around it. -/
theorem InScope.speaks (place : InScope document node lang) (ordered : document.Ordered)
    (isNode : node ∈ document.nodes)
    (unmasked : ∀ own, source = some own → ¬Masked document node own)
    (same : source = document.lang? node.id) : Speaks lang source := by
  rcases place with rfl | rfl
  · exact speaks_around ordered isNode unmasked same
  · exact same ▸ .refl _

/-- At a child the language of its parent is in scope. -/
theorem inScope_of_child {child : Node} (ordered : document.Ordered)
    (isNode : node ∈ document.nodes) (isChild : child ∈ node.children) :
    child ∈ document.nodes ∧ InScope document child (document.lang? node.id) :=
  ⟨(preorder_sublist isNode).subset (child_mem_preorder isChild),
    Or.inl (Document.langAround?_child ordered isNode isChild).symm⟩

/-- Nothing is said of what takes the place of a masked node. -/
theorem lands_of_masked {own : String} (speaks : nested.Speaks library)
    (reads : library.document file = .ok document) (isNode : node ∈ document.nodes)
    (replaces : Replaces library ⟨file, document⟩ node own) (masked : Masked document node own)
    (replacement : Replacement library nested ⟨file, document⟩ node element) :
    Lands library file lang element := by
  obtain ⟨frames, rfl⟩ := speaks.isLevel
  obtain ⟨name, attributes, text, children, tail⟩ := element
  exact fun _ _ => .masked ⟨frames, file, document, node, own, tail, reads, isNode, replaces,
    masked, replacement⟩

/-- The content of a wrapper lands where its language is spoken, if it is one element. -/
theorem lands_of_filled {target : Target} {source : Document} {extraction : Extraction}
    {found : Element} (speaks : nested.Speaks library)
    (reads : library.document target.file = .ok source)
    (fills : (filled nested target extraction element).result = .ok found)
    (isElement : ∀ bounds, Bounds.locate source target.start target.stop = .ok bounds →
      bounds.IsElement source) :
    ∀ child ∈ found.children, Lands library target.file (langAt? source target.start) child := by
  have fills := filled_eq_ok.mp fills
  cases extraction with
  | external =>
    obtain ⟨children, extracted, rfl⟩ := fills
    exact speaks.external _ _ _ _ _ reads isElement extracted
  | inline =>
    obtain ⟨container, extracted, rfl⟩ := fills
    exact speaks.inline _ _ _ _ container reads isElement extracted

section

variable (parsed : library.Parsed) (synced : library.Synced) (speaks : nested.Speaks library)

include parsed synced speaks

/-- A note with its stamps lands where its language is spoken in case it gets no stamp. -/
theorem lands_of_note {home : SourceFile} {path : String} {copied : Element}
    (row : NoteRow library file path) (reads : library.document file = .ok document)
    (isThere : document.byPath? path = some node)
    (copies : (nested.copy (some home) file (some node)).result = .ok copied)
    (place : node.ownLang? = none → document.lang? node.id = inScope →
      Compile.Speaks lang (document.lang? node.id)) :
    Lands library home lang (stampLang copied (document.lang? node.id) inScope) := by
  have isNode : node ∈ document.nodes :=
    List.mem_reverse.mp (List.mem_of_find?_eq_some isThere)
  have role := role_of_noteRow parsed synced row reads isThere
  obtain ⟨root, rfl, voices⟩ := speaks.copy _ _ _ _ _ reads isNode role copies
  have declares : root.ownLang? = node.ownLang? := ownLang?_of_node voices.attributes
  refine lands_stamped (fun unstamped => origin?_of_node unstamped reads isNode voices.attributes)
    (fun own isOwn => ?_) (fun spoken own => .copy reads isNode voices.name (fun key _ => ?_) own)
    (fun _ => voices.below) (fun silent same => place (declares.symm.trans silent) same)
  · rw [Document.lang?_eq (parsed.ordered reads) isNode, ← declares, isOwn]
    rfl
  · exact value?_of_node voices.attributes key

/-- A note that is inserted into an element lands where the element's language is spoken. -/
theorem lands_of_mem_notes {applied : Annotation} {note : Element}
    (found : (annotate library nested ⟨file, document⟩ node).result = .ok applied)
    (member : note ∈ applied.notes) : Lands library file (document.lang? node.id) note := by
  cases borrowed_of_mem_notes found member with
  | note row readsNote isThere copies =>
    exact lands_of_note parsed synced speaks row readsNote isThere copies
      fun _ same => same ▸ .refl _

/-- Inserted notes do not change in what language an element reads. -/
theorem Voices.annotated (voices : Voices library file document node element)
    {applied : Annotation}
    (found : (annotate library nested ⟨file, document⟩ node).result = .ok applied) :
    Voices library file document node (Compile.insertNotes applied.notes element) :=
  voices.insertNotes fun _ member => lands_of_mem_notes parsed synced speaks found member

variable (reads : library.document file = .ok document)

include reads

section

variable (isNode : node ∈ document.nodes) (place : InScope document node lang)

include isNode place

/-- A note that takes the place of an instruction lands where the instruction is. -/
theorem lands_of_replace {note : Element}
    (h : (annotate library nested ⟨file, document⟩ node).result = .ok (.replace note)) :
    Lands library file lang note := by
  obtain ⟨home, source, found, copied, supplants, copies, rfl⟩ := supplants_of_replace h
  obtain ⟨path, row, isThere⟩ := supplants.row
  -- the note may lack a stamp because the instruction itself declares the language
  by_cases masked : ∃ own, source.lang? found.id = some own ∧ found.ownLang? = none ∧
      Masked document node own
  · obtain ⟨own, isOwn, silent, masked⟩ := masked
    exact lands_of_masked speaks reads isNode (.instruction supplants silent isOwn) masked
      (.instruction h)
  · refine lands_of_note parsed synced speaks row supplants.reads isThere copies
      fun silent same => ?_
    exact place.speaks (parsed.ordered reads) isNode
      (fun own isOwn hides => masked ⟨own, isOwn, silent, hides⟩) same

omit synced in
/-- What replaces a directive lands where the directive is. -/
theorem lands_of_transclude {extraction : Extraction} (role : Role.of node = .directive)
    (h : (transclude library nested ⟨file, document⟩ node extraction).result = .ok element) :
    Lands library file lang element := by
  obtain ⟨start, target, found, source, given, located, fills, readsSource, rfl⟩ :=
    transclude_eq_ok h
  have isWrapper := isWrapper_of_filled fills
  have located' : (Target.locate library file start (found.value? (.plain "targetEnd"))).result =
      .ok target := by
    rw [isWrapper.targetEnd, located]
  -- likewise, where the directive declares the language of what it stands for
  by_cases masked : ∃ own, langAt? source target.start = some own ∧ Masked document node own
  · obtain ⟨own, isOwn, masked⟩ := masked
    exact lands_of_masked speaks reads isNode (.directive role given located readsSource isOwn)
      masked (.directive role h)
  · refine lands_stamped (fun _ => isWrapper.unstamped) (fun own isOwn => ?_)
      (fun spoken own => .wrapper isWrapper.made isWrapper.target located' rfl readsSource own)
      (fun narrow => lands_of_filled speaks readsSource fills fun bounds bounded => ?_)
      (fun _ same => ?_)
    · rw [isWrapper.silent] at isOwn
      cases isOwn
    · by_contra wide
      exact narrow ⟨file, start, target, source, bounds, isWrapper.name, isWrapper.target, located',
        readsSource, bounded, wide⟩
    · exact place.speaks (parsed.ordered reads) isNode
        (fun own isOwn hides => masked ⟨own, isOwn, hides⟩) same

end

/-! ## 2. Copies

By induction on the tree. A node that is kept declares its language or takes it from its parent, and
its children are in the scope of that. -/

-- in a mutual recursion the linter misses what only the other theorem uses
set_option linter.unusedSectionVars false

mutual

/-- A copy of a node can stand where the node does. -/
theorem lands_of_copy : ∀ {node : Node} {element : Element} {lang : Option String},
    node ∈ document.nodes → InScope document node lang →
    (copy library nested ⟨file, document⟩ node).result = .ok element →
    Lands library file lang element
  | ⟨own, path, name, attributes, text, children, tail⟩, element, lang, isNode, place, h => by
    have ordered := parsed.ordered reads
    cases copyStep_iff.mp h with
    | directive role found => exact lands_of_transclude parsed speaks reads isNode place role found
    | replaced role found => exact lands_of_replace parsed synced speaks reads isNode place found
    | copied role found kept below =>
      have copies := lands_of_copyForest (fun _ => inScope_of_child ordered isNode) below
      exact ((voices_withChildren copies).annotated parsed synced speaks found).lands ordered
        reads isNode place

/-- Copies of nodes can stand where the nodes do. -/
theorem lands_of_copyForest : ∀ {nodes : List Node} {copies : List Element} {lang : Option String},
    (∀ child ∈ nodes, child ∈ document.nodes ∧ InScope document child lang) →
    (copyForest library nested ⟨file, document⟩ nodes).result = .ok copies →
    ∀ element ∈ copies, Lands library file lang element
  | [], copies, lang, _, h, element, member => by
    cases copyForest_nil h
    cases member
  | first :: rest, copies, lang, inside, h, element, member => by
    obtain ⟨copied, others, found, below, rfl⟩ := copyForest_cons_iff.mp h
    obtain ⟨isNode, place⟩ := inside first List.mem_cons_self
    rcases List.mem_cons.mp member with rfl | member
    · exact (lands_of_copy isNode place found).withTail _ _
    · exact lands_of_copyForest (fun child isChild => inside child (List.mem_cons_of_mem _ isChild))
        below element member

end

/-- The copy of a note voices the note. -/
theorem voices_of_copyNote (isNode : node ∈ document.nodes) (role : Role.of node ≠ .directive)
    (h : (copyNote library nested ⟨file, document⟩ node).result = .ok element) :
    Voices library file document node element := by
  obtain ⟨copies, below, rfl⟩ := (copyNote_eq_ok role).mp h
  exact voices_withChildren (lands_of_copyForest parsed synced speaks reads
    (fun _ => inScope_of_child (parsed.ordered reads) isNode) below)

end

end Intertext.Compile
