import Intertext.Proofs.Markup.Admitted
import Intertext.Proofs.Markup.RoundTrip
/-!
Documents that survive being written.

A document that was read can be written with its own labels and read again. Reading is lenient and
lets through what writing has no means for: names that hold what tags are cut at, labels that are
empty or reserved, and elements that have an attribute twice because two labels name one namespace.
Where names are orderly (`Node.IsOrderly`), the last of these is all that can go wrong: the document
is read again as it was if, and only if, no element has an attribute twice (`survives_iff`).

In one direction this is `readOn_root`, applied to what reading lets through. In the other, every
start tag that was written is read on the way to the end, and a start tag with a key that is there
twice is a fault (`distinct_of_readOn`).
-/

namespace Intertext.Markup

open Serializer Reading
open Node (mem_preorder_self)

/-! ## 1. Orderly names

Reading admits more names than writing can repeat: a name with a sign that cuts a tag, or a
namespace with one that has to be escaped. The names that are left are called orderly, and for them
reading has checked all else that writing asks for. -/

/-- Whether a text stands in a document as it is. -/
def IsUnescaped (text : String) : Prop :=
  ∀ mark ∈ ['<', '>', '&', '\'', '"'], mark ∉ text.toList

instance (text : String) : Decidable (IsUnescaped text) :=
  decidable_of_iff
    ((['<', '>', '&', '\'', '"'].all fun mark => !text.toList.contains mark) = true)
    all_not_contains_iff

/-- Whether the names of a node can be written: tags are not cut inside them, they hold no colon,
the namespaces stand in a declaration as they are, and those of the format are not those of
elements. -/
structure Node.IsOrderly (node : Node) : Prop where
  part : IsTagName node.name.part.toList
  parts : ∀ item ∈ node.attributes, IsKey item.1.part.toList
  colonless : ∀ name ∈ node.name :: node.attributes.map (·.1), ':' ∉ name.part.toList
  unescaped : ∀ name ∈ node.name :: node.attributes.map (·.1), ∀ space ∈ name.space,
    IsUnescaped space
  notXml : node.name.space ≠ some xmlSpace
  notXmlns : node.name.space ≠ some xmlnsSpace

instance (node : Node) : Decidable node.IsOrderly :=
  decidable_of_iff
    (IsTagName node.name.part.toList ∧ (∀ item ∈ node.attributes, IsKey item.1.part.toList) ∧
      (∀ name ∈ node.name :: node.attributes.map (·.1), ':' ∉ name.part.toList) ∧
      (∀ name ∈ node.name :: node.attributes.map (·.1), ∀ space ∈ name.space,
        IsUnescaped space) ∧
      node.name.space ≠ some xmlSpace ∧ node.name.space ≠ some xmlnsSpace)
    ⟨fun ⟨part, parts, colonless, unescaped, notXml, notXmlns⟩ =>
        ⟨part, parts, colonless, unescaped, notXml, notXmlns⟩,
      fun ⟨part, parts, colonless, unescaped, notXml, notXmlns⟩ =>
        ⟨part, parts, colonless, unescaped, notXml, notXmlns⟩⟩

variable {document : Document} {node : Node} {element : Element}

/-- The tag of an orderly node of a document that was read can be written. -/
theorem Node.IsOrderly.nameable {text : String} (orderly : node.IsOrderly)
    (read : Document.parse text = .ok document) (isNode : node ∈ document.nodes)
    (name : element.name = node.name) (attributes : element.attributes = node.attributes) :
    Nameable element := by
  have admitted := Document.admitted_of_parse read node isNode
  -- the part of the name, the colon, the namespace, and the attributes
  refine ⟨?_, ?_, ?_, ?_⟩
  · rw [name]
    exact orderly.part
  · rw [name]
    exact orderly.colonless _ List.mem_cons_self
  · rw [name]
    intro space inSpace
    have isSpace : node.name.space = some space := inSpace
    refine ⟨⟨?_, orderly.unescaped _ List.mem_cons_self space inSpace, ?_⟩, ?_⟩
    · rintro rfl
      exact admitted.nonempty isSpace
    · rintro rfl
      exact orderly.notXmlns isSpace
    · rintro rfl
      exact orderly.notXml isSpace
  · rw [attributes]
    intro item member
    have isKey := admitted.attributes item member
    have isName := List.mem_cons_of_mem node.name (List.mem_map_of_mem (f := (·.1)) member)
    refine ⟨⟨orderly.parts item member, orderly.colonless _ isName⟩, isKey.undeclaring,
      fun space inSpace => ?_⟩
    have isSpace : item.1.space = some space := inSpace
    refine ⟨?_, orderly.unescaped _ isName space inSpace, ?_⟩
    · rintro rfl
      exact isKey.nonempty isSpace
    · rintro rfl
      exact isKey.unreserved isSpace

/-- The labels of a document that was read can be preferred if they can be written. -/
theorem Document.hintsUsable_of_parse {text : String} (read : Document.parse text = .ok document)
    (labels : ∀ declaration ∈ document.namespaces, ∀ label ∈ declaration.1, IsLabel label) :
    (Serializer.standard.withDeclarations document.namespaces).HintsUsable := by
  refine usable_standard fun declaration member label isLabel => ?_
  refine ⟨labels declaration member label isLabel, ?_⟩
  rintro rfl
  exact Document.label_ne_xmlns_of_parse read declaration member isLabel

mutual

/-- The tags of a copy are those of the subtree. -/
theorem Node.tags_toElement : ∀ node : Node,
    node.toElement.preorder.map (fun element => (element.name, element.attributes)) =
      node.preorder.map fun inner => (inner.name, inner.attributes)
  | ⟨_, _, name, attributes, _, children, _⟩ => by
    rw [Node.toElement, Element.preorder, Node.preorder, List.map_cons, List.map_cons,
      forestTags_toElements children]

/-- The tags of copies of nodes are those of the nodes and of what is below them. -/
theorem Node.forestTags_toElements : ∀ nodes : List Node,
    (Element.forestPreorder (Node.toElements nodes)).map
        (fun element => (element.name, element.attributes)) =
      (Node.forestPreorder nodes).map fun inner => (inner.name, inner.attributes)
  | [] => rfl
  | first :: rest => by
    rw [Node.toElements, Element.forestPreorder, Node.forestPreorder, List.map_append,
      List.map_append, tags_toElement first, forestTags_toElements rest]

end

/-- Whatever holds of the tags of all nodes holds of the tags of a copy, and the other way round. -/
theorem Node.forall_tags_toElement {P : Name → Attributes → Prop} (node : Node) :
    (∀ element ∈ node.toElement.preorder, P element.name element.attributes) ↔
      ∀ inner ∈ node.preorder, P inner.name inner.attributes := by
  have onTags : (∀ tag ∈ node.toElement.preorder.map
      (fun element => (element.name, element.attributes)), P tag.1 tag.2) ↔
      ∀ tag ∈ node.preorder.map (fun inner => (inner.name, inner.attributes)), P tag.1 tag.2 := by
    rw [Node.tags_toElement]
  simpa only [List.forall_mem_map] using onTags

/-! ## 2. Reading what was written

For the other direction what was written is taken to have been read, and every tag in it is looked
at as it was read. A document that is read is read token by token, and so each written tag was
understood on the way. -/

namespace Reading

/-- What is read to the end is read from one token to the next. -/
theorem exists_of_readOn {state : Reading} {c : Char} {input rest : List Char} {token : Token}
    (found : Token.next c input = .ok (token, rest))
    (h : state.readOn (c :: input) = .ok document) :
    ∃ next, state.step token = .ok next ∧ next.readOn rest = .ok document := by
  cases stepped : state.step token with
  | ok next =>
    rw [readOn_next found stepped] at h
    exact ⟨next, rfl, h⟩
  | error fault =>
    have scans : ∃ later, (Token.scan (c :: input)).1 = token :: later := by
      rw [Token.scan]
      split
      · rename_i failed
        rw [found] at failed
        cases failed
      · rename_i other remaining isNext
        rw [found] at isNext
        cases isNext
        exact ⟨_, rfl⟩
    obtain ⟨later, scans⟩ := scans
    rw [readOn] at h
    dsimp only at h
    rw [scans, List.foldlM_cons, stepped] at h
    cases h

/-- Character data that was written is read, and something is read after it. -/
theorem exists_of_readOn_text {state : Reading} (text : String) {rest : List Char}
    (starts : rest.head? = some '<')
    (h : state.readOn ((Text.escape text).toList ++ rest) = .ok document) :
    ∃ next : Reading, next.readOn rest = .ok document := by
  obtain ⟨more, rfl⟩ : ∃ more, rest = '<' :: more := List.head?_eq_some_iff.mp starts
  have plain := Text.not_mem_escape (show '<' ∈ ['<', '>', '"', '\''] by decide) text
  cases written : (Text.escape text).toList with
  | nil =>
    rw [written] at h
    exact ⟨state, h⟩
  | cons c chars =>
    rw [written] at h plain
    obtain ⟨next, -, after⟩ := exists_of_readOn (next_text plain) h
    exact ⟨next, after⟩

/-- A start tag that was written is entered only if no key is there twice. -/
theorem nodup_of_enter {state next : Reading} {name : List Char} {items : List RawAttribute}
    (isName : IsTagName name) (plain : ∀ item ∈ items, item.IsPlain)
    (h : state.enter (startTag name items) = .ok next) : (items.map (·.key)).Nodup := by
  obtain ⟨scope, _, path, attributes, namespaces, -, -, -, noFault, -⟩ := enter_parts h
  rw [(Tag.name_startTag isName items).2] at noFault
  exact (Tag.nodup_of_attributes plain noFault).1

variable {labels : Labels}

/-- Whether the names in the tag of an element are written so that the tag can be cut at them. -/
structure IsTagged (labels : Labels) (element : Element) : Prop where
  name : IsTagName (labels.qualify element.name).toList
  keys : ∀ item ∈ element.attributes, IsKey (labels.qualify item.1).toList

/-- Names are written as they are looked up, so attributes with the same name have the same key. -/
theorem distinct_of_nodup {declared : List RawAttribute}
    (nodup : ((declared ++ element.attributes.map (attributeItem labels)).map (·.key)).Nodup) :
    (element.attributes.map (·.1)).Nodup := by
  rw [List.map_append, List.map_map] at nodup
  have keys : element.attributes.map ((·.key) ∘ attributeItem labels) =
      (element.attributes.map (·.1)).map fun name => (labels.qualify name).toList := by
    rw [List.map_map]
    rfl
  rw [keys] at nodup
  exact List.Nodup.of_map _ (List.nodup_append.mp nodup).2.1

mutual

/-- An element that was written is read only if nothing in it has an attribute twice. -/
theorem distinct_of_readOn : ∀ {element : Element} {state : Reading} {declarations : String}
    {declared : List RawAttribute} {rest : List Char},
    declarations.toList = declared.flatMap (·.assigned) → (∀ item ∈ declared, item.IsPlain) →
    (∀ inner ∈ element.preorder, IsTagged labels inner) →
    state.readOn ((writeElement labels declarations element).toList ++ rest) = .ok document →
    (∀ inner ∈ element.preorder, (inner.attributes.map (·.1)).Nodup) ∧
      ∃ next : Reading, next.readOn rest = .ok document
  | ⟨name, attributes, text, children, tail⟩, state, declarations, declared, rest, same, plain,
      tagged, h => by
    obtain ⟨isName, isKey⟩ := tagged ⟨name, attributes, text, children, tail⟩ List.mem_cons_self
    dsimp only at isName isKey
    have items : ∀ item ∈ declared ++ attributes.map (attributeItem labels), item.IsPlain := by
      intro item member
      rcases List.mem_append.mp member with isDeclared | isAttribute
      · exact plain item isDeclared
      · obtain ⟨⟨key, value⟩, isItem, rfl⟩ := List.mem_map.mp isAttribute
        exact ⟨isKey _ isItem, Text.not_mem_escape (by decide) value⟩
    have distinct : ∀ next, state.enter (startTag (labels.qualify name).toList
        (declared ++ attributes.map (attributeItem labels))) = .ok next →
          (attributes.map (·.1)).Nodup := fun next entered =>
      @distinct_of_nodup ⟨name, attributes, text, children, tail⟩ labels declared
        (nodup_of_enter isName items entered)
    have inside : ∀ inner ∈ Element.forestPreorder children, IsTagged labels inner :=
      fun inner member => tagged inner (List.mem_cons_of_mem _ member)
    rw [toList_writeElement same, content] at h
    dsimp only at h
    generalize declared ++ attributes.map (attributeItem labels) = written at h items distinct
    split at h
    · rename_i hollow
      rw [Bool.and_eq_true, List.isEmpty_iff] at hollow
      rw [List.append_assoc, List.cons_append] at h
      obtain ⟨next, stepped, after⟩ := exists_of_readOn (next_emptyTag isName items) h
      obtain ⟨opened, entered, -⟩ := Outcome.bind_eq_ok.mp stepped
      refine ⟨?_, next, after⟩
      intro inner member
      rw [Element.preorder, hollow.2] at member
      cases List.mem_singleton.mp member
      exact distinct opened entered
    · have whole : '<' :: startTag (labels.qualify name).toList written ++
          ('>' :: (Text.escape text).toList ++ (writeForest labels children).toList ++
            '<' :: '/' :: (labels.qualify name).toList ++ ['>']) ++ rest =
          '<' :: (startTag (labels.qualify name).toList written ++
            '>' :: ((Text.escape text).toList ++ ((writeForest labels children).toList ++
              ('<' :: ('/' :: (labels.qualify name).toList ++ '>' :: rest))))) := by
        simp
      rw [whole] at h
      obtain ⟨opened, entered, h⟩ := exists_of_readOn (next_startTag isName items) h
      obtain ⟨filled, h⟩ := exists_of_readOn_text text (head?_writeForest labels children rfl) h
      obtain ⟨below, closing, h⟩ := forestDistinct_of_readOn inside rfl h
      obtain ⟨closed, -, h⟩ := exists_of_readOn (next_endTag isName) h
      exact ⟨List.forall_mem_cons.mpr ⟨distinct opened entered, below⟩, closed, h⟩

theorem forestDistinct_of_readOn : ∀ {forest : List Element} {state : Reading} {rest : List Char},
    (∀ inner ∈ Element.forestPreorder forest, IsTagged labels inner) → rest.head? = some '<' →
    state.readOn ((writeForest labels forest).toList ++ rest) = .ok document →
    (∀ inner ∈ Element.forestPreorder forest, (inner.attributes.map (·.1)).Nodup) ∧
      ∃ next : Reading, next.readOn rest = .ok document
  | [], state, rest, _, _, h => ⟨fun inner none => (by cases none), state, h⟩
  | first :: others, state, rest, tagged, starts, h => by
    rw [writeForest, String.toList_append, String.toList_append, List.append_assoc,
      List.append_assoc] at h
    obtain ⟨ofFirst, after, h⟩ := @distinct_of_readOn _ _ _ [] _ rfl
      (fun item none => by cases none)
      (fun inner member => tagged inner (List.mem_append_left _ member)) h
    obtain ⟨next, h⟩ := exists_of_readOn_text first.tail (head?_writeForest labels others starts) h
    obtain ⟨ofOthers, last, h⟩ := forestDistinct_of_readOn
      (fun inner member => tagged inner (List.mem_append_right _ member)) starts h
    refine ⟨fun inner member => ?_, last, h⟩
    exact (List.mem_append.mp member).elim (ofFirst inner) (ofOthers inner)

end

end Reading

/-! ## 3. Documents -/

namespace Document

/-- What is written for a document with its own labels. -/
def rewritten (document : Document) : String :=
  (Serializer.standard.withDeclarations document.namespaces).serialize document.root.toElement

/-- Whether a document is written as a text that is read as the same tree. -/
def Survives (document : Document) : Prop :=
  ∃ again, parse document.rewritten = .ok again ∧ again.root.toElement = document.root.toElement

end Document

/-- *What survives being written.* Of the documents whose names are orderly and whose labels can be
written, those are read again as they were in which no element has an attribute twice, and no
others. -/
theorem survives_iff {text : String} (read : Document.parse text = .ok document)
    (orderly : ∀ node ∈ document.nodes, node.IsOrderly)
    (labels : ∀ declaration ∈ document.namespaces, ∀ label ∈ declaration.1, IsLabel label) :
    document.Survives ↔ ∀ node ∈ document.nodes, (node.attributes.map (·.1)).Nodup := by
  have usable := Document.hintsUsable_of_parse read labels
  have nameable : ∀ element ∈ document.root.toElement.preorder, Nameable element := by
    intro element member
    have isTag :=
      List.mem_map_of_mem (f := fun element => (element.name, element.attributes)) member
    rw [Node.tags_toElement] at isTag
    obtain ⟨node, isNode, sameTag⟩ := List.mem_map.mp isTag
    obtain ⟨sameName, sameAttributes⟩ := Prod.mk.inj sameTag
    exact (orderly node isNode).nameable read isNode sameName.symm sameAttributes.symm
  have noTail : document.root.toElement.tail = "" := by
    have rootTail := Document.root_tail_of_parse read
    cases isRoot : document.root with
    | mk id path name attributes text children tail =>
      rw [isRoot] at rootTail
      exact rootTail
  unfold Document.Survives Document.rewritten
  rw [parse_serialize_eq]
  refine Iff.trans ?_ (Node.forall_tags_toElement
    (P := fun _ attributes => (attributes.map (·.1)).Nodup) document.root)
  constructor
  · rintro ⟨again, reread, -⟩
    have fair := fair_labels usable document.root.toElement
    have tagged : ∀ element ∈ document.root.toElement.preorder, IsTagged
        ((Serializer.standard.withDeclarations document.namespaces).labels document.root.toElement)
        element := fun element member =>
      ⟨(legible_elementName usable member (nameable element member)).1, fun item isItem =>
        (legible_attributeName usable member (nameable element member) isItem).written⟩
    have plain : ∀ item ∈ ((Serializer.standard.withDeclarations document.namespaces).labels
        document.root.toElement).map declarationItem, item.IsPlain := by
      intro item member
      obtain ⟨entry, isEntry, rfl⟩ := List.mem_map.mp member
      exact isPlain_declarationItem (fair.usable _ _ isEntry)
    rw [← List.append_nil (String.toList _)] at reread
    exact (distinct_of_readOn (toList_declarations _) plain tagged reread).1
  · intro distinct
    exact readOn_root usable nameable distinct noTail

/-- A document with two labels for one namespace, of which one is another's inside. -/
def aliased : Document where
  root := ⟨0, "/r", .plain "r", [(⟨some "urn:u", "x"⟩, "1")], "",
    [⟨1, "/r/b:s[1]", ⟨some "urn:u", "s"⟩, [(⟨some "urn:v", "x"⟩, "2")], "t", [], " < u"⟩], ""⟩
  namespaces := [(some "a", "urn:u"), (some "b", "urn:u")]

/-- A document with an attribute under two labels of its namespace. -/
def doubled : Document where
  root := ⟨0, "/r", .plain "r", [(⟨some "urn:u", "x"⟩, "1"), (⟨some "urn:u", "x"⟩, "2")], "", [],
    ""⟩
  namespaces := [(some "a", "urn:u"), (some "b", "urn:u")]

/-- The first survives although its labels change, the second does not. -/
theorem survives_aliased : aliased.Survives ∧ ¬ doubled.Survives := by
  have aliased_parse : Document.parse ("<r xmlns:a=\"urn:u\" xmlns:b=\"urn:u\" a:x=\"1\">" ++
      "<b:s xmlns:a=\"urn:v\" a:x=\"2\">t</b:s> &lt; u</r>") = .ok aliased := by
    cbv
  have doubled_parse : Document.parse ("<r xmlns:a=\"urn:u\" xmlns:b=\"urn:u\" a:x=\"1\" " ++
      "b:x=\"2\"/>") = .ok doubled := by
    cbv
  constructor
  · exact (survives_iff aliased_parse (by decide) (by decide)).mpr (by decide)
  · exact fun survives => absurd
      ((survives_iff doubled_parse (by decide) (by decide)).mp survives) (by decide)

/-- Whether a text is read as a document that does not survive. -/
def IsLost (text : String) : Prop :=
  ∃ document, Document.parse text = .ok document ∧ ¬ document.Survives

/-- A document is lost if what is written is read as another tree, or not at all. -/
theorem isLost_of_differs {text : String} (differs : (Document.parse text).map (fun document =>
    decide ((Document.parse document.rewritten).map (·.root.toElement) =
      .ok document.root.toElement)) = .ok false) : IsLost text := by
  obtain ⟨document, read, differs⟩ := Outcome.map_eq_ok.mp differs
  refine ⟨document, read, ?_⟩
  rintro ⟨again, reread, same⟩
  exact absurd (Outcome.map_eq_ok.mpr ⟨again, reread, same⟩) (of_decide_eq_false differs)

/-- Lost are texts with an attribute under two labels of its namespace, with a name that ends as a
tag does, with a label that is empty or holds a colon, and with an element in a namespace of the
format or in one that is escaped where it is declared. -/
theorem lenient_lost :
    IsLost "<r xmlns:a=\"urn:u\" xmlns:b=\"urn:u\" a:x=\"1\" b:x=\"2\"/>" ∧
      IsLost "<r/ >t</r/>" ∧ IsLost "<r xmlns:=\"urn:u\"/>" ∧
      IsLost "<r xmlns:a:b=\"urn:u\" xmlns=\"urn:u\"/>" ∧ IsLost "<xmlns:r/>" ∧
      IsLost "<xml:r/>" ∧ IsLost "<a:r xmlns:a=\"urn:u&amp;v\"/>" := by
  refine ⟨?_, ?_, ?_, ?_, ?_, ?_, ?_⟩ <;>
    exact isLost_of_differs (by decide +kernel)

end Intertext.Markup
