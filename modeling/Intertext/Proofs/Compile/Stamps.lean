import Intertext.Compile.External
import Intertext.Compile.Inline
import Intertext.Proofs.Compile.Parts
/-!
Stamps that are right.

A stamp says which file the content of an element comes from, as far as no element inside says
otherwise. `Sourced` holds of a tree whose stamps are right: every element in it was made by
compilation or copied from the file that the nearest stamp names. A tree without a stamp of its own
that is right in its file is right everywhere once it is stamped (`Sourced.stampOrigin`).
-/

namespace Intertext.Compile

open Markup (Element Name Node Document)

/-! ## 1. Stamps

A stamp is a pair of attributes on an element that was put somewhere else, and another attribute
marks its language. What the tag of a node or of a wrapper is otherwise does not change, and nothing
in the element does. -/

/-- The file that an element says its content comes from. -/
def origin? (element : Element) : Option SourceFile :=
  match element.value? (.processing "project"), element.value? (.processing "file_name") with
  | some project, some name => some ⟨project, name⟩
  | _, _ => none

/-- The attributes that compilation adds to an element. -/
def addedNames : List Name := [.processing "project", .processing "file_name", .xml "lang"]

/-- The attributes that an element can have that compilation makes. -/
def madeNames : List Name := [.plain "target", .plain "targetEnd", .plain "type"] ++ addedNames

/-- Whether an element is a wrapper or a container. -/
structure Made (element : Element) : Prop where
  name : element.name = .processing "transclude" ∨ element.name = .processing "transcludeInline"
  attributes : ∀ name ∉ madeNames, element.value? name = none

/-- Whether an element has the name and, but for what compilation adds, the attributes of a node
of a file. -/
def CopyOf (library : Library) (file : SourceFile) (element : Element) : Prop :=
  ∃ document node, library.document file = .ok document ∧ node ∈ document.nodes ∧
    element.name = node.name ∧ ∀ name ∉ addedNames, element.value? name = node.value? name

/-- Whether the stamps in a tree are right, if the file that is named last outside of it is
`outer`. -/
inductive Sourced (library : Library) : SourceFile → Element → Prop where
  | element {outer home : SourceFile} {element : Element}
    (origin : (origin? element).getD outer = home)
    (own : Made element ∨ CopyOf library home element)
    (below : ∀ child ∈ element.children, Sourced library home child) :
    Sourced library outer element

/-- Without a project there is no stamp. -/
theorem origin?_eq_none {element : Element} (h : element.value? (.processing "project") = none) :
    origin? element = none := by
  rw [origin?, h]

/-- Marking the language does not change the stamp. -/
theorem origin?_setLang (element : Element) (lang : String) :
    origin? (element.setValue (.xml "lang") lang) = origin? element := by
  rw [origin?, value?_setValue_of_ne _ _ (by decide), value?_setValue_of_ne _ _ (by decide)]
  rfl

/-- A stamp that names a file is made of two attributes: what setting these keeps, it keeps. -/
theorem stampForeign_keeps {P : Element → Prop} {element : Element}
    (set : ∀ name ∈ [Name.processing "project", .processing "file_name"],
      ∀ (element : Element) (value : String), P element → P (element.setValue name value))
    (holds : P element) (home : Option SourceFile) (file : SourceFile) :
    P (stampForeign element home file) := by
  unfold stampForeign
  split
  · exact holds
  · exact set _ (by decide) _ _ (set _ (by decide) _ _ holds)

/-- A stamp that names a language is one attribute: what setting it keeps, the stamp keeps. -/
theorem stampLang_keeps {P : Element → Prop} {element : Element}
    (set : ∀ (element : Element) (value : String), P element →
      P (element.setValue (.xml "lang") value))
    (holds : P element) (source inScope : Option String) :
    P (stampLang element source inScope) := by
  unfold stampLang
  split
  · split
    · exact holds
    · exact set _ _ holds
  · exact holds

theorem origin?_stampLang (element : Element) (source inScope : Option String) :
    origin? (stampLang element source inScope) = origin? element :=
  stampLang_keeps (P := (origin? · = origin? element))
    (fun other lang same => (origin?_setLang other lang).trans same) rfl source inScope

theorem origin?_stampOrigin (element : Element) (file : SourceFile) :
    origin? (stampOrigin element file) = some file := by
  rw [origin?, stampOrigin, value?_setValue, value?_setValue_of_ne _ _ (by decide), value?_setValue]

/-- Stamps are attributes and leave the rest of an element as it is. -/
theorem stampForeign_withTail (element : Element) (tail : String) (home : Option SourceFile)
    (file : SourceFile) :
    stampForeign { element with tail } home file =
      { stampForeign element home file with tail } := by
  unfold stampForeign
  split <;> rfl

/-- Marking the language commutes with giving a tail. -/
theorem stampLang_withTail (element : Element) (tail : String) (source inScope : Option String) :
    stampLang { element with tail } source inScope =
      { stampLang element source inScope with tail } := by
  unfold stampLang
  split
  · split <;> rfl
  · rfl

@[simp] theorem children_stampForeign (element : Element) (home : Option SourceFile)
    (file : SourceFile) : (stampForeign element home file).children = element.children :=
  stampForeign_keeps (P := (·.children = element.children)) (fun _ _ _ _ same => same) rfl home file

@[simp] theorem children_stampLang (element : Element) (source inScope : Option String) :
    (stampLang element source inScope).children = element.children :=
  stampLang_keeps (P := (·.children = element.children)) (fun _ _ same => same) rfl source inScope

@[simp] theorem text_stampForeign (element : Element) (home : Option SourceFile)
    (file : SourceFile) : (stampForeign element home file).text = element.text :=
  stampForeign_keeps (P := (·.text = element.text)) (fun _ _ _ _ same => same) rfl home file

@[simp] theorem text_stampLang (element : Element) (source inScope : Option String) :
    (stampLang element source inScope).text = element.text :=
  stampLang_keeps (P := (·.text = element.text)) (fun _ _ same => same) rfl source inScope

@[simp] theorem tail_stampForeign (element : Element) (home : Option SourceFile)
    (file : SourceFile) : (stampForeign element home file).tail = element.tail :=
  stampForeign_keeps (P := (·.tail = element.tail)) (fun _ _ _ _ same => same) rfl home file

@[simp] theorem tail_stampLang (element : Element) (source inScope : Option String) :
    (stampLang element source inScope).tail = element.tail :=
  stampLang_keeps (P := (·.tail = element.tail)) (fun _ _ same => same) rfl source inScope

/-- A stamp adds no characters. -/
theorem characters_stampForeign (element : Element) (home : Option SourceFile) (file : SourceFile) :
    (stampForeign element home file).characters = element.characters := by
  rw [characters_eq, characters_eq, text_stampForeign, children_stampForeign]

theorem characters_stampLang (element : Element) (source inScope : Option String) :
    (stampLang element source inScope).characters = element.characters := by
  rw [characters_eq, characters_eq, text_stampLang, children_stampLang]

variable {library : Library} {outer file : SourceFile} {element : Element}

/-- What compilation makes may be marked and stamped. -/
theorem Made.setValue (made : Made element) {name : Name} (isMade : name ∈ madeNames)
    (value : String) : Made (element.setValue name value) := by
  refine ⟨made.name, ?_⟩
  intro other notMade
  have differ : other ≠ name := by
    rintro rfl
    exact notMade isMade
  rw [value?_setValue_of_ne _ _ differ]
  exact made.attributes other notMade

/-- A copy may be marked and stamped. -/
theorem CopyOf.setValue (copied : CopyOf library file element) {name : Name}
    (isAdded : name ∈ addedNames) (value : String) :
    CopyOf library file (element.setValue name value) := by
  obtain ⟨document, node, reads, isNode, sameName, same⟩ := copied
  refine ⟨document, node, reads, isNode, sameName, ?_⟩
  intro other notAdded
  have differ : other ≠ name := by
    rintro rfl
    exact notAdded isAdded
  rw [value?_setValue_of_ne _ _ differ]
  exact same other notAdded

/-- The stamp is told by the attributes. -/
theorem origin?_congr {other : Element} (attributes : other.attributes = element.attributes) :
    origin? other = origin? element := by
  simp only [origin?, value?_congr attributes]

theorem Made.congr (made : Made element) {other : Element} (name : other.name = element.name)
    (attributes : other.attributes = element.attributes) : Made other := by
  refine ⟨name ▸ made.name, ?_⟩
  intro key notMade
  rw [value?_congr attributes]
  exact made.attributes key notMade

/-- What stands in an element is right where the file that it says its content comes from is. -/
theorem Sourced.children (sourced : Sourced library outer element) :
    ∀ child ∈ element.children, Sourced library ((origin? element).getD outer) child := by
  cases sourced with
  | element origin own below => exact origin ▸ below

/-- Marking the language leaves stamps right. -/
theorem Sourced.stampLang (source inScope : Option String)
    (sourced : Sourced library outer element) :
    Sourced library outer (stampLang element source inScope) := by
  refine stampLang_keeps (fun other lang sourced => ?_) sourced source inScope
  cases sourced with
  | element origin own below =>
    refine .element ?_ (own.imp (·.setValue (by decide) _) (·.setValue (by decide) _)) below
    rw [origin?_setLang, origin]

/-- An element without a stamp that is right in its file is right everywhere once it is stamped. -/
theorem Sourced.stampOrigin (unstamped : origin? element = none)
    (sourced : Sourced library file element) (outer : SourceFile) :
    Sourced library outer (stampOrigin element file) := by
  cases sourced with
  | element origin own below =>
    rw [unstamped] at origin
    cases origin
    refine .element (by rw [origin?_stampOrigin]; rfl)
      (own.imp (fun made => ?_) (fun copied => ?_)) below
    · exact (made.setValue (by decide) _).setValue (by decide) _
    · exact (copied.setValue (by decide) _).setValue (by decide) _

/-- A stamp names the file, unless the file is at home where the stamp would stand. -/
theorem getD_origin?_stampForeign (unstamped : origin? element = none) (home : SourceFile) :
    (origin? (Compile.stampForeign element (some home) file)).getD home = file := by
  unfold Compile.stampForeign
  split
  · rename_i same
    cases same
    rw [unstamped]
    rfl
  · rw [origin?_stampOrigin]
    rfl

/-- Stamping what comes from another file makes it right in the file it is put into. -/
theorem Sourced.stampForeign (unstamped : origin? element = none)
    (sourced : Sourced library file element) (home : SourceFile) :
    Sourced library home (stampForeign element (some home) file) ∧
      (origin? (Compile.stampForeign element (some home) file)).getD home = file := by
  refine ⟨?_, getD_origin?_stampForeign unstamped home⟩
  unfold Compile.stampForeign
  split
  · rename_i same
    cases same
    exact sourced
  · exact sourced.stampOrigin unstamped home

/-- Whether two elements differ in nothing but their content and what compilation adds. -/
structure SameTag (other element : Element) : Prop where
  name : other.name = element.name
  values : ∀ key ∉ addedNames, other.value? key = element.value? key

theorem SameTag.of_attributes {other : Element} (name : other.name = element.name)
    (attributes : other.attributes = element.attributes) : SameTag other element :=
  ⟨name, fun key _ => value?_congr attributes key⟩

/-- Marks and stamps leave the rest of a tag as it was. -/
theorem SameTag.setValue {other : Element} (same : SameTag other element) {name : Name}
    (isAdded : name ∈ addedNames) (value : String) :
    SameTag (other.setValue name value) element := by
  refine ⟨same.name, fun key notAdded => ?_⟩
  have differ : key ≠ name := by
    rintro rfl
    exact notAdded isAdded
  rw [value?_setValue_of_ne _ _ differ, same.values key notAdded]

theorem sameTag_stampOrigin (element : Element) (file : SourceFile) :
    SameTag (Compile.stampOrigin element file) element :=
  (SameTag.setValue (.of_attributes rfl rfl) (by decide) _).setValue (by decide) _

theorem sameTag_stampForeign (element : Element) (home : Option SourceFile) (file : SourceFile) :
    SameTag (Compile.stampForeign element home file) element :=
  stampForeign_keeps (P := (SameTag · element)) (fun _ isOrigin _ _ same =>
    same.setValue (List.mem_append_left [.xml "lang"] isOrigin) _) (.of_attributes rfl rfl) home
      file

theorem SameTag.stampLang {other : Element} (same : SameTag other element)
    (source inScope : Option String) :
    SameTag (Compile.stampLang other source inScope) element :=
  stampLang_keeps (P := (SameTag · element)) (fun _ _ same => same.setValue (by decide) _) same
    source inScope

/-! ## 2. Copies and wrappers

Two kinds of elements come about: copies of nodes, which have no stamp if the sources have none, and
wrappers and containers, which compilation makes. Both are right in the file that their content
comes from. -/

/-- Whether no node of a document looks as if compilation had stamped it. -/
def Library.Unstamped (library : Library) : Prop :=
  ∀ file document, library.document file = .ok document → ∀ node ∈ document.nodes,
    node.value? (.processing "project") = none ∧ node.value? (.processing "file_name") = none

/-- An element with the attributes of a node has no stamp. -/
theorem origin?_of_node (unstamped : library.Unstamped) {document : Document} {node : Node}
    (reads : library.document file = .ok document) (isNode : node ∈ document.nodes)
    (attributes : element.attributes = node.attributes) : origin? element = none := by
  refine origin?_eq_none ?_
  rw [value?_of_node attributes]
  exact (unstamped file document reads node isNode).1

/-- An element with the tag of a node of the file, and with such children, is right in the file. -/
theorem sourced_of_node (unstamped : library.Unstamped) {document : Document} {node : Node}
    (reads : library.document file = .ok document) (isNode : node ∈ document.nodes)
    (name : element.name = node.name) (attributes : element.attributes = node.attributes)
    (below : ∀ child ∈ element.children, Sourced library file child) :
    Sourced library file element := by
  have copied : CopyOf library file element :=
    ⟨document, node, reads, isNode, name, fun key _ => value?_of_node attributes key⟩
  have none : origin? element = none := origin?_of_node unstamped reads isNode attributes
  exact .element (by rw [none]; rfl) (Or.inr copied) below

/-- A wrapper or container without a stamp is right where its children are. -/
theorem Made.sourced (made : Made element) (unstamped : origin? element = none)
    (below : ∀ child ∈ element.children, Sourced library file child) :
    Sourced library file element :=
  .element (by rw [unstamped]; rfl) (Or.inl made) below

/-- Wrappers and containers are made by compilation. -/
theorem made_ofName {part : String} (isPart : part = "transclude" ∨ part = "transcludeInline") :
    Made (Element.ofName (.processing part)) :=
  ⟨isPart.imp (congrArg Name.processing) (congrArg Name.processing), fun _ _ => rfl⟩

/-- A wrapper is made by compilation and has no stamp yet. -/
theorem made_wrapper (target : String) (targetEnd : Option String) (extraction : Extraction) :
    Made (wrapper target targetEnd extraction) ∧
      origin? (wrapper target targetEnd extraction) = none := by
  have blank : Made (Element.ofName (.processing "transclude")) := made_ofName (Or.inl rfl)
  constructor
  · unfold wrapper
    cases targetEnd with
    | none => exact (blank.setValue (by decide) _).setValue (by decide) _
    | some stop =>
      exact ((blank.setValue (by decide) _).setValue (by decide) _).setValue (by decide) _
  · refine origin?_eq_none ?_
    unfold wrapper
    cases targetEnd <;> rfl

/-- Wrappers and containers have no attribute twice. -/
theorem distinctKeys_wrapper (target : String) (targetEnd : Option String)
    (extraction : Extraction) : (wrapper target targetEnd extraction).HasDistinctKeys := by
  have blank : (Element.ofName (.processing "transclude")).HasDistinctKeys := List.nodup_nil
  unfold wrapper
  cases targetEnd with
  | none => exact distinctKeys_setValue (distinctKeys_setValue blank _ _) _ _
  | some stop =>
    exact distinctKeys_setValue (distinctKeys_setValue (distinctKeys_setValue blank _ _) _ _) _ _

theorem distinctKeys_container (lang : Option String) : (container lang).HasDistinctKeys := by
  have blank : (Element.ofName (.processing "transcludeInline")).HasDistinctKeys := List.nodup_nil
  cases lang with
  | none => exact blank
  | some lang => exact distinctKeys_setValue blank _ _

/-- A wrapper has its own name, not that of the directive. -/
theorem name_wrapper (target : String) (targetEnd : Option String) (extraction : Extraction) :
    (wrapper target targetEnd extraction).name = .processing "transclude" := by
  unfold wrapper
  cases targetEnd <;> rfl

/-- A wrapper repeats the target of its directive. -/
theorem target_wrapper (target : String) (targetEnd : Option String) (extraction : Extraction) :
    (wrapper target targetEnd extraction).value? (.plain "target") = some target ∧
      (wrapper target targetEnd extraction).value? (.plain "targetEnd") = targetEnd := by
  unfold wrapper
  cases targetEnd with
  | none =>
    rw [value?_setValue_of_ne _ _ (by decide), value?_setValue,
      value?_setValue_of_ne _ _ (by decide), value?_setValue_of_ne _ _ (by decide)]
    exact ⟨rfl, rfl⟩
  | some stop =>
    rw [value?_setValue_of_ne _ _ (by decide), value?_setValue_of_ne _ _ (by decide),
      value?_setValue, value?_setValue_of_ne _ _ (by decide), value?_setValue]
    exact ⟨rfl, rfl⟩

/-- A container is made by compilation and has no stamp yet. -/
theorem made_container (lang : Option String) :
    Made (container lang) ∧ origin? (container lang) = none := by
  have blank : Made (Element.ofName (.processing "transcludeInline")) := made_ofName (Or.inr rfl)
  cases lang with
  | none => exact ⟨blank, rfl⟩
  | some lang => exact ⟨blank.setValue (by decide) _, rfl⟩

theorem text_container (lang : Option String) : (container lang).text = "" := by
  cases lang <;> rfl

theorem children_container (lang : Option String) : (container lang).children = [] := by
  cases lang <;> rfl

end Intertext.Compile
