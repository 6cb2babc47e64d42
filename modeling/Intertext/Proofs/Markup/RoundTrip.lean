import Intertext.Proofs.Markup.Legible
import Intertext.Proofs.Markup.Tokens
/-!
Reading back what was written.

A tree that is written as a text is read back (`parse_serialize`): escaping is undone, the names get
their namespaces back, and every text and every tail is where it was. The proof follows the text
from left to right. An element that stands next is opened with its name, its attributes and the
scope of the tree (`enter_startTag`), whether the declarations are in its own tag or on the root
around it; whatever follows it, it is closed as what was written (`readOn_element`), and a forest
becomes the children of the element that is open (`forestReads`).

Of names and labels only that they are legible is used here. That they are, for all elements of a
tree, is `legible_of_nameable`.
-/

namespace Intertext.Markup

open Serializer (Labels)

/-! ## 1. What is written for an element

What is written is a text, and it is read as characters. So each part is told as characters once:
attributes and declarations as assignments, one after another in the tag, and an element as its tag
and what is in it. -/

namespace Serializer

/-- An attribute as it is written. -/
def attributeItem (labels : Labels) (item : Name × String) : RawAttribute :=
  ⟨(labels.qualify item.1).toList, (Text.escape item.2).toList⟩

/-- The key that declares a label. -/
def declarationKey : Option String → List Char
  | some label => ['x', 'm', 'l', 'n', 's'] ++ ':' :: label.toList
  | none => ['x', 'm', 'l', 'n', 's']

/-- The declaration of a label as it is written. -/
def declarationItem (entry : String × Option String) : RawAttribute :=
  ⟨declarationKey entry.2, (Text.escape entry.1).toList⟩

/-- What is written of an element after its name and attributes. -/
def content (labels : Labels) (element : Element) : List Char :=
  if element.text = "" && element.children.isEmpty then ['/', '>']
  else
    '>' :: (Text.escape element.text).toList ++ (writeForest labels element.children).toList ++
      '<' :: '/' :: (labels.qualify element.name).toList ++ ['>']

/-- An assignment is written with a blank before it and its value in double quotes. -/
theorem toList_assignment (name value : String) : (assignment name value).toList =
    RawAttribute.assigned ⟨name.toList, (Text.escape value).toList⟩ := by
  simp [assignment, RawAttribute.assigned]

theorem toList_writeAttributes (labels : Labels) (attributes : Attributes) :
    (writeAttributes labels attributes).toList =
      (attributes.map (attributeItem labels)).flatMap (·.assigned) := by
  simp only [writeAttributes, String.toList_join, List.flatMap_map, toList_assignment,
    attributeItem]

/-- Declarations are written as assignments of their keys. -/
theorem toList_declarations (labels : Labels) :
    labels.declarations.toList = (labels.map declarationItem).flatMap (·.assigned) := by
  rw [Labels.declarations, String.toList_join, List.flatMap_map, List.flatMap_map]
  congr 1
  funext ⟨space, label⟩
  cases label with
  | none => exact toList_assignment _ _
  | some label =>
    have key : ("xmlns:" ++ label).toList = declarationKey (some label) := by
      simp [declarationKey]
    rw [declarationItem, ← key]
    exact toList_assignment _ _

/-- An element is written as its start tag and its content. -/
theorem toList_writeElement {labels : Labels} {declarations : String}
    {declared : List RawAttribute} (same : declarations.toList = declared.flatMap (·.assigned))
    (element : Element) :
    (writeElement labels declarations element).toList =
      '<' :: startTag (labels.qualify element.name).toList
        (declared ++ element.attributes.map (attributeItem labels)) ++ content labels element := by
  obtain ⟨name, attributes, text, children, tail⟩ := element
  have start : ("<" ++ labels.qualify name ++ declarations ++
      writeAttributes labels attributes).toList =
        '<' :: startTag (labels.qualify name).toList
          (declared ++ attributes.map (attributeItem labels)) := by
    simp [startTag, same, toList_writeAttributes]
  rw [writeElement, content]
  split
  · rw [String.toList_append, start]
    rfl
  · simp only [String.toList_append, start]
    simp

/-- What is written for a forest begins with a tag, if with anything. -/
theorem head?_writeForest (labels : Labels) (forest : List Element) {rest : List Char}
    (starts : rest.head? = some '<') :
    ((writeForest labels forest).toList ++ rest).head? = some '<' := by
  cases forest with
  | nil => simpa [writeForest] using starts
  | cons first others =>
    have tag := @toList_writeElement labels "" [] rfl first
    simp [writeForest, tag]

/-! ## 2. Start tags

The tag of the root has declarations before its attributes, every other tag only attributes. Reading
sorts them out by their keys: a key is that of a declaration or reads as an attribute's name, never
both, and no key is written twice. -/

variable {labels : Labels} {element : Element}

/-- A declaration is read as it was written. -/
theorem isPlain_declarationItem {mustLabel : String → Bool} {entry : String × Option String}
    (usable : Usable (mustLabel entry.1) entry.2) : (declarationItem entry).IsPlain := by
  have xmlns : IsKey "xmlns".toList := by decide
  obtain ⟨space, label⟩ := entry
  constructor
  · cases label with
    | none => exact xmlns
    | some label => exact xmlns.labelled usable.1.toIsKey
  · simp only [declarationItem]
    exact Text.not_mem_escape (by decide) space

/-- An attribute with a legible name is read as it was written. -/
theorem isPlain_attributeItem {name : Name} (legible : LegibleKey labels name) (value : String) :
    (attributeItem labels (name, value)).IsPlain := by
  constructor
  · exact legible.written
  · simp only [attributeItem]
    exact Text.not_mem_escape (by decide) value

/-- The key of a declaration declares its label. -/
theorem declared?_declarationItem (entry : String × Option String) :
    Scope.declared? (declarationItem entry).key = some (entry.2.map String.toList) := by
  obtain ⟨space, label⟩ := entry
  cases label with
  | none => rfl
  | some label => rfl

/-- The keys of a start tag are told apart: those of declarations by their labels, and those of
attributes by the names that they are read as. -/
theorem nodup_keys {mustLabel : String → Bool} {entries : Labels} (fair : Fair mustLabel entries)
    (legible : Legible labels element) :
    ((entries.map declarationItem ++ element.attributes.map (attributeItem labels)).map
      (·.key)).Nodup := by
  rw [List.map_append, List.map_map, List.map_map, List.nodup_append]
  refine ⟨?_, ?_, ?_⟩
  -- Declarations have distinct labels, attributes distinct names that they are read as, and a key
  -- of one kind is not of the other.
  · refine List.Nodup.map_on (fun first isFirst second isSecond same => ?_)
      (List.Nodup.of_map _ fair.distinct)
    have keys := congrArg Scope.declared? same
    simp only [Function.comp_apply, declared?_declarationItem, Option.some.injEq] at keys
    exact List.inj_on_of_nodup_map fair.distinct isFirst isSecond
      (Option.map_injective (fun _ _ => String.toList_inj.mp) keys)
  · refine List.Nodup.map_on (fun first isFirst second isSecond same => ?_)
      (List.Nodup.of_map _ legible.distinct)
    have one := (legible.keys _ _ isFirst).reads
    have other := (legible.keys _ _ isSecond).reads
    have names : first.1 = second.1 := by
      rw [show (labels.qualify first.1).toList = (labels.qualify second.1).toList from same,
        other] at one
      exact (Except.ok.inj one).symm
    exact List.inj_on_of_nodup_map legible.distinct isFirst isSecond names
  · rintro key isDeclared other isAttribute rfl
    obtain ⟨entry, -, isKey⟩ := List.mem_map.mp isDeclared
    obtain ⟨⟨name, value⟩, member, isAttribute⟩ := List.mem_map.mp isAttribute
    have declared := declared?_declarationItem entry
    have undeclared := (legible.keys name value member).undeclared
    rw [show (declarationItem entry).key = key from isKey,
      ← show (labels.qualify name).toList = key from isAttribute, undeclared] at declared
    cases declared

/-- Attributes with legible keys are read with their names and values. -/
theorem readAttributes_attributes {attributes : Attributes}
    (keys : ∀ name value, (name, value) ∈ attributes → LegibleKey labels name)
    (namespaces : List (Option String × String)) :
    readAttributes (scopeOf labels) namespaces (attributes.map (attributeItem labels)) =
      .ok (attributes, namespaces) := by
  induction attributes with
  | nil => rfl
  | cons first others ih =>
    obtain ⟨name, value⟩ := first
    have key := keys name value List.mem_cons_self
    have inside := ih fun name value member => keys name value (List.mem_cons_of_mem _ member)
    rw [List.map_cons, readAttributes]
    simp only [attributeItem, key.undeclared, key.reads, Text.expand_escape, Except.mapError, bind,
      Except.bind]
    rw [inside]
    simp [pure, Except.pure]

/-- The attributes are read back; declarations are none. -/
theorem readAttributes_written (legible : Legible labels element) (entries : Labels)
    (namespaces : List (Option String × String)) :
    ∃ found, readAttributes (scopeOf labels) namespaces
      (entries.map declarationItem ++ element.attributes.map (attributeItem labels)) =
        .ok (element.attributes, found) := by
  induction entries generalizing namespaces with
  | nil => exact ⟨namespaces, readAttributes_attributes legible.keys namespaces⟩
  | cons entry others ih =>
    rw [List.map_cons, List.cons_append, readAttributes, declared?_declarationItem]
    simp only [declarationItem, Text.expand_escape, Except.mapError, bind, Except.bind]
    exact ih _

/-- The declarations on the root bring its scope about. -/
theorem declareAll_declarations {mustLabel : String → Bool} {labels : Labels}
    (fair : Fair mustLabel labels)
    (plain : ∀ space label, (space, label) ∈ labels → IsPlainSpace space ∧ space ≠ xmlSpace)
    (scope : Scope) (items : List RawAttribute) :
    scope.declareAll (labels.map declarationItem ++ items) =
      Scope.declareAll ((labels.map binding).reverse ++ scope) items := by
  have usable := fair.usable
  clear fair
  induction labels generalizing scope with
  | nil => rfl
  | cons entry others ih =>
    obtain ⟨space, label⟩ := entry
    obtain ⟨isPlain, notXml⟩ := plain space label List.mem_cons_self
    have inside := ih (fun space label member => plain space label (List.mem_cons_of_mem _ member))
      (binding (space, label) :: scope)
      fun space label member => usable space label (List.mem_cons_of_mem _ member)
    have written : String.ofList (declarationItem (space, label)).value = space := by
      rw [declarationItem, Text.escape_eq isPlain.unescaped, String.ofList_toList]
    rw [List.map_cons, List.cons_append, Scope.declareAll, declared?_declarationItem]
    -- A declaration of a label is let through, since it is neither `xml` nor `xmlns`.
    cases label with
    | none =>
      simp only [Option.map_none, written]
      rw [List.map_cons, List.reverse_cons, List.append_assoc]
      exact inside
    | some label =>
      obtain ⟨-, notXmlLabel, notXmlnsLabel⟩ := usable _ _ List.mem_cons_self
      simp only [Option.map_some, written, String.ofList_toList, Scope.declare,
        if_neg notXmlLabel, if_neg notXmlnsLabel, if_neg notXml, if_neg isPlain.ne_xmlns]
      rw [List.map_cons, List.reverse_cons, List.append_assoc]
      exact inside

/-- Attributes with legible keys declare nothing. -/
theorem declareAll_attributes {attributes : Attributes}
    (keys : ∀ name value, (name, value) ∈ attributes → LegibleKey labels name) (scope : Scope) :
    scope.declareAll (attributes.map (attributeItem labels)) = .ok scope := by
  induction attributes with
  | nil => rfl
  | cons first others ih =>
    have key := (keys first.1 first.2 List.mem_cons_self).undeclared
    rw [List.map_cons, Scope.declareAll]
    simp only [attributeItem, key]
    exact ih fun name value member => keys name value (List.mem_cons_of_mem _ member)

end Serializer

/-! ## 3. Elements and forests

Reading goes on from a state, so that an element is read back in any state whose scope knows the
labels. The element itself comes out without its tail, which is text of whatever is around it; a
forest gives the tails to its trees. -/

namespace Reading

open Serializer

variable {labels : Labels} {element : Element}

/-- An element that was just opened. -/
def opening (labels : Labels) (id : Nat) (path : String) (element : Element) : OpenElement :=
  ⟨id, path, element.name, (labels.qualify element.name).toList, element.attributes, "", [],
    scopeOf labels⟩

/-- Everything in a start tag is read as it was written. -/
theorem isPlain_items {mustLabel : String → Bool} {entries : Labels} (fair : Fair mustLabel entries)
    (legible : Legible labels element) : ∀ item ∈ entries.map declarationItem ++
      element.attributes.map (attributeItem labels), item.IsPlain := by
  intro item member
  rcases List.mem_append.mp member with isDeclared | isAttribute
  · obtain ⟨entry, isEntry, rfl⟩ := List.mem_map.mp isDeclared
    exact isPlain_declarationItem (fair.usable _ _ isEntry)
  · obtain ⟨⟨name, value⟩, isItem, rfl⟩ := List.mem_map.mp isAttribute
    exact isPlain_attributeItem (legible.keys name value isItem) value

/-- A legible element is opened where the declarations in its tag bring the scope about. -/
theorem enter_startTag {state : Reading} {mustLabel : String → Bool} {entries : Labels}
    {path : String} (fair : Fair mustLabel entries) (legible : Legible labels element)
    (scopes : ∀ items, state.scope.declareAll (entries.map declarationItem ++ items) =
      (scopeOf labels).declareAll items)
    (places : state.pathOf (labels.qualify element.name).toList element.name = .ok path) :
    ∃ namespaces, state.enter (startTag (labels.qualify element.name).toList
      (entries.map declarationItem ++ element.attributes.map (attributeItem labels))) =
        .ok ⟨opening labels state.count path element :: state.stack, state.root, state.count + 1,
          namespaces⟩ := by
  have scanned (distinct : Bool) := @Tag.attributes_written _ distinct []
    (isPlain_items fair legible) (nodup_keys fair legible) (by simp)
  obtain ⟨isName, after⟩ := @Tag.name_startTag _ legible.written (entries.map declarationItem ++
    element.attributes.map (attributeItem labels))
  obtain ⟨found, read⟩ := readAttributes_written legible entries state.namespaces
  refine ⟨found, ?_⟩
  rw [enter, isName, after, scanned false, scanned true]
  simp only [scopes, declareAll_attributes legible.keys, Except.mapError, bind, Except.bind,
    legible.reads, read, places]
  rfl

/-- Whether a forest that stands next is read, whatever follows it, as further children of the
element that is open. -/
def ForestReads (labels : Labels) (forest : List Element) : Prop :=
  ∀ (parent : OpenElement) (outer : List OpenElement) (root : Option Node) (count : Nat)
    (namespaces : List (Option String × String)) (rest : List Char),
    parent.scope = scopeOf labels → rest.head? = some '<' →
      ∃ nodes count' namespaces', Node.toElements nodes = forest ∧
        readOn ⟨parent :: outer, root, count, namespaces⟩
            ((writeForest labels forest).toList ++ rest) =
          readOn ⟨{ parent with children := nodes.reverse ++ parent.children } :: outer, root,
            count', namespaces'⟩ rest

/-- An element that stands next is opened and closed again as what was written, whatever follows
it. -/
theorem readOn_element {state : Reading} {mustLabel : String → Bool} {entries : Labels}
    {path declarations : String} (fair : Fair mustLabel entries) (legible : Legible labels element)
    (same : declarations.toList = (entries.map declarationItem).flatMap (·.assigned))
    (scopes : ∀ items, state.scope.declareAll (entries.map declarationItem ++ items) =
      (scopeOf labels).declareAll items)
    (places : state.pathOf (labels.qualify element.name).toList element.name = .ok path)
    (reads : ForestReads labels element.children) (rest : List Char) :
    ∃ opened count namespaces, opened.close.toElement = { element with tail := "" } ∧
      state.readOn ((writeElement labels declarations element).toList ++ rest) =
        (leave ⟨opened :: state.stack, state.root, count, namespaces⟩).readOn rest := by
  obtain ⟨namespaces, entered⟩ := enter_startTag fair legible scopes places
  have plain := isPlain_items fair legible
  rw [toList_writeElement same, content]
  generalize (entries.map declarationItem ++
    element.attributes.map (attributeItem labels)) = items at entered plain ⊢
  split
  -- An element with nothing in it is written as an empty tag.
  · rename_i hollow
    rw [Bool.and_eq_true, decide_eq_true_eq, List.isEmpty_iff] at hollow
    refine ⟨opening labels state.count path element, state.count + 1, namespaces, ?_, ?_⟩
    · rw [hollow.1, hollow.2]
      rfl
    · rw [List.append_assoc, List.cons_append]
      refine readOn_next (next_emptyTag legible.written plain) ?_
      rw [step, entered]
      rfl
  · obtain ⟨nodes, count, namespaces', isForest, inside⟩ :=
      reads ((opening labels state.count path element).pushText element.text) state.stack
        state.root (state.count + 1) namespaces
        ('<' :: '/' :: (labels.qualify element.name).toList ++ '>' :: rest) rfl rfl
    refine ⟨{ opening labels state.count path element with
      text := element.text, children := nodes.reverse }, count, namespaces', ?_, ?_⟩
    · rw [← isForest]
      simp [OpenElement.close, Node.toElement, opening]
    · have starts := @head?_writeForest labels element.children
        ('<' :: '/' :: (labels.qualify element.name).toList ++ '>' :: rest) rfl
      -- The parts of the text in the order in which they are read: tag, text, children, end tag.
      have whole : '<' :: startTag (labels.qualify element.name).toList items ++
          ('>' :: (Text.escape element.text).toList ++
            (writeForest labels element.children).toList ++
              '<' :: '/' :: (labels.qualify element.name).toList ++ ['>']) ++ rest =
          '<' :: (startTag (labels.qualify element.name).toList items ++
            '>' :: ((Text.escape element.text).toList ++
              ((writeForest labels element.children).toList ++
                ('<' :: '/' :: (labels.qualify element.name).toList ++ '>' :: rest)))) := by
        simp
      rw [whole, readOn_next (next_startTag legible.written plain) entered,
        readOn_text element.text starts, inside]
      refine (readOn_endTag legible.written).trans ?_
      simp [OpenElement.pushText, opening]

/-- Giving a node a tail gives it to the element as well. -/
theorem toElement_setTail (node : Node) (tail : String) :
    Node.toElement { node with tail := tail } = { node.toElement with tail := tail } := by
  cases node
  rfl

mutual

/-- The children of a tree whose elements are all legible are read. -/
theorem childrenRead : ∀ element : Element,
    (∀ inner ∈ element.preorder, Legible labels inner) → ForestReads labels element.children
  | ⟨_, _, _, children, _⟩, legible =>
    forestReads children fun inner member => legible inner (List.mem_cons_of_mem _ member)

/-- A forest whose elements are all legible is read. -/
theorem forestReads : ∀ forest : List Element,
    (∀ inner ∈ Element.forestPreorder forest, Legible labels inner) → ForestReads labels forest
  | [], _ => fun parent outer root count namespaces rest _ _ =>
    ⟨[], count, namespaces, rfl, rfl⟩
  | first :: others, legible => by
    intro parent outer root count namespaces rest inScope starts
    have ofFirst : ∀ inner ∈ first.preorder, Legible labels inner := fun inner member =>
      legible inner (List.mem_append_left _ member)
    have ofOthers : ∀ inner ∈ Element.forestPreorder others, Legible labels inner :=
      fun inner member => legible inner (List.mem_append_right _ member)
    have fair : Fair (fun _ => false) [] := ⟨by simp, by simp⟩
    obtain ⟨opened, count, namespaces, isFirst, read⟩ :=
      @readOn_element labels first ⟨parent :: outer, root, count, namespaces⟩ _ [] _ "" fair
        (ofFirst first (by cases first; exact List.mem_cons_self)) rfl
        (fun items => congrArg (fun scope : Scope => scope.declareAll items) inScope) rfl
        (childrenRead first ofFirst)
        ((Text.escape first.tail).toList ++ ((writeForest labels others).toList ++ rest))
    -- What is written after the first tree is its tail, and it is read before the others are.
    have tail := @readOn_text _ (parent.push opened.close) outer root count namespaces first.tail
      (head?_writeForest labels others starts)
    obtain ⟨nodes, count, namespaces, isForest, after⟩ :=
      forestReads others ofOthers ((parent.push opened.close).pushText first.tail) outer root count
        namespaces rest inScope starts
    refine ⟨{ opened.close with tail := first.tail } :: nodes, count, namespaces, ?_, ?_⟩
    · rw [Node.toElements, isForest, toElement_setTail, isFirst]
      cases first
      rfl
    · rw [writeForest, String.toList_append, String.toList_append, List.append_assoc,
        List.append_assoc, read]
      refine (tail.trans after).trans ?_
      simp [OpenElement.pushText, OpenElement.push, OpenElement.close]

end

end Reading

/-! ## 4. Documents

The root is read in the first scope with its own declarations in its tag. What may stand before it,
the declaration of the version and a line break, adds nothing. -/

open Serializer Reading

/-- The standard labels can be used, and so can labels that a document declares. -/
theorem usable_standard {declarations : List (Option String × String)}
    (usable : ∀ declaration ∈ declarations, ∀ label ∈ declaration.1,
      IsLabel label ∧ label ≠ "xmlns") :
    (Serializer.standard.withDeclarations declarations).HintsUsable := by
  have usual : ∀ hint ∈ usualLabels, ∀ label ∈ hint.1, IsNCName label ∧ label ≠ "xmlns" := by
    decide
  intro hint member
  rcases List.mem_append.mp member with isDeclared | isUsual
  · exact usable hint isDeclared
  · exact fun label isLabel => (usual hint isUsual label isLabel).imp_left IsNCName.isLabel

/-- Every namespace that gets a label can be declared. -/
theorem plain_of_labels {serializer : Serializer} {root : Element}
    (nameable : ∀ element ∈ root.preorder, Nameable element) {space : String}
    {label : Option String} (member : (space, label) ∈ serializer.labels root) :
    IsPlainSpace space ∧ space ≠ xmlSpace := by
  have isSpace : space ∈ spaces root := by
    rw [← @spaces_labels serializer root]
    exact List.mem_map_of_mem member
  rcases exists_of_mem_spaces isSpace with
    ⟨element, isThere, inSpace⟩ | ⟨notXml, element, isThere, ⟨name, value⟩, isAttribute, inSpace⟩
  · exact (nameable element isThere).space space inSpace
  · exact ⟨((nameable element isThere).attributes _ isAttribute).2.2 space inSpace, notXml⟩

/-- A tree that is written with its declarations is read as the root. -/
theorem readOn_root {serializer : Serializer} {root : Element} (usable : serializer.HintsUsable)
    (nameable : ∀ element ∈ root.preorder, Nameable element)
    (distinct : ∀ element ∈ root.preorder, (element.attributes.map (·.1)).Nodup)
    (noTail : root.tail = "") :
    ∃ document, Reading.start.readOn (writeElement (serializer.labels root)
      (serializer.labels root).declarations root).toList = .ok document ∧
        document.root.toElement = root := by
  have fair := fair_labels usable root
  have legible : ∀ element ∈ root.preorder, Legible (serializer.labels root) element :=
    fun element member => legible_of_nameable usable nameable member (distinct element member)
  obtain ⟨opened, count, namespaces, isRoot, read⟩ :=
    @readOn_element (serializer.labels root) root Reading.start _ (serializer.labels root) _ _ fair
      (legible root (by cases root; exact List.mem_cons_self)) (toList_declarations _)
      (declareAll_declarations fair (fun _ _ => plain_of_labels nameable) Scope.initial) rfl
      (childrenRead root legible) []
  refine ⟨⟨opened.close, namespaces⟩, ?_, ?_⟩
  · rw [List.append_nil] at read
    rw [read, readOn_nil]
    rfl
  · rw [isRoot]
    cases root
    cases noTail
    rfl

/-- The declaration of the format says nothing about the tree. -/
theorem readOn_header {input : List Char} (starts : input.head? = some '<') :
    Reading.start.readOn (header.toList ++ input) = Reading.start.readOn input := by
  obtain ⟨more, rfl⟩ : ∃ more, input = '<' :: more := List.head?_eq_some_iff.mp starts
  obtain ⟨body, written, aside⟩ : ∃ body, header.toList ++ '<' :: more = '<' :: body ∧
      Token.next '<' body = .ok (.aside, '\n' :: '<' :: more) := by
    refine ⟨"?xml version=\"1.0\" encoding=\"UTF-8\"?>\n".toList ++ '<' :: more, ?_, ?_⟩
    · simp [header]
    · simp [Token.next, Token.markup, Token.instruction, Token.cut?]
  have blank : Token.next '\n' ('<' :: more) = .ok (.text ['\n'], '<' :: more) :=
    @next_text more '\n' [] (by decide)
  have first := readOn_next aside (show Reading.start.step .aside = .ok Reading.start from rfl)
  have second := readOn_next blank
    (show Reading.start.step (.text ['\n']) = .ok Reading.start from rfl)
  rw [written, first, second]

/-- A text that begins with markup is read from its first character. -/
theorem parse_eq_readOn {text : String} (starts : text.toList.head? = some '<') :
    Document.parse text = Reading.start.readOn text.toList := by
  obtain ⟨more, written⟩ := List.head?_eq_some_iff.mp starts
  rw [Document.parse, Document.read, written]
  rfl

/-- A tree is read from its text as from what is written for its root, with or without the
declaration of the format before it. -/
theorem parse_serialize_eq (serializer : Serializer) (root : Element) :
    Document.parse (serializer.serialize root) =
      Reading.start.readOn (writeElement (serializer.labels root)
        (serializer.labels root).declarations root).toList := by
  have starts : (writeElement (serializer.labels root) (serializer.labels root).declarations
      root).toList.head? = some '<' := by
    rw [toList_writeElement (toList_declarations _)]
    rfl
  rw [parse_eq_readOn, serialize, String.toList_append]
  · split
    · exact readOn_header starts
    · rfl
  · rw [serialize, String.toList_append]
    split
    · rw [header]
      rfl
    · exact starts

/-- Parsing undoes serialization: a tree that can be written is read back as it is, whatever labels
are preferred and whether or not the declaration of the format comes first. -/
theorem parse_serialize (root : Element) (declarations : List (Option String × String))
    (usable : ∀ declaration ∈ declarations, ∀ label ∈ declaration.1,
      IsNCName label ∧ label ≠ "xmlns")
    (writable : ∀ element ∈ root.preorder, Writable element) (noTail : root.tail = "")
    (serializer : Serializer)
    (isOne : serializer = Serializer.standard.withDeclarations declarations ∨
      serializer = (Serializer.standard.withDeclarations declarations).withoutDeclaration) :
    ∃ document, Document.parse (serializer.serialize root) = .ok document ∧
      document.root.toElement = root := by
  have bare : (Serializer.standard.withDeclarations declarations).HintsUsable :=
    usable_standard fun declaration member label isLabel =>
      (usable declaration member label isLabel).imp_left IsNCName.isLabel
  have hints : serializer.HintsUsable := by
    rcases isOne with rfl | rfl
    · exact bare
    · exact bare
  rw [parse_serialize_eq]
  exact readOn_root hints (fun element member => (writable element member).nameable)
    (fun element member => (writable element member).distinct) noTail

/-- A tree with names of every kind: in the namespace that is the default, in namespaces that
attributes are in, in that of the format, and in none. -/
def mixedTree : Element :=
  ⟨.tei "TEI", [(.xml "lang", "he"), (.plain "n", "a < \"b\" & c"), (⟨some "urn:x", "n"⟩, "2")],
    "one & two", [⟨⟨some "urn:x", "seg"⟩, [(.link "type", "it's")], "", [], " > three "⟩,
      ⟨.tei "p", [], "", [⟨.link "lb", [], "", [], "\nfour"⟩], "five"⟩], ""⟩

theorem parse_serialize_mixed :
    (∀ element ∈ mixedTree.preorder, Writable element) ∧
      ∃ document, Document.parse ((Serializer.standard.withDeclarations
          [(none, teiSpace), (some "x", "urn:x")]).serialize mixedTree) = .ok document ∧
        document.root.toElement = mixedTree := by
  have writable : ∀ element ∈ mixedTree.preorder, Writable element := by decide
  exact ⟨writable, parse_serialize mixedTree _ (by decide) writable rfl _ (Or.inl rfl)⟩

end Intertext.Markup
