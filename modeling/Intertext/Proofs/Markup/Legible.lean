import Intertext.Proofs.Markup.Tags
/-!
Names as they are written, and what they are read as.

All labels of a tree are declared on its root, so one scope, `scopeOf`, holds everywhere in what is
written. In this scope a written name is read as the name it was written for: the labels of a tree
are fair, so each finds its own namespace (`find?_scopeOf`), and the default declaration, where
there is one, reaches no element without a namespace and is never relied on by an attribute
(`legible_of_nameable`).
-/

namespace Intertext.Markup

/-! ## 1. What can be written

Escaping takes care of values, and nothing takes care of names: a name is written as it is, and a
namespace that has to be escaped in its declaration is not read back. -/

/-- Whether a namespace can be declared, and its text stands in a declaration as it is. -/
structure IsPlainSpace (space : String) : Prop where
  ne_empty : space ≠ ""
  unescaped : ∀ mark ∈ ['<', '>', '&', '\'', '"'], mark ∉ space.toList
  ne_xmlns : space ≠ xmlnsSpace

instance (space : String) : Decidable (IsPlainSpace space) :=
  decidable_of_iff
    (space ≠ "" ∧ (['<', '>', '&', '\'', '"'].all fun mark => !space.toList.contains mark) = true ∧
      space ≠ xmlnsSpace)
    ⟨fun ⟨notEmpty, unescaped, notXmlns⟩ =>
        ⟨notEmpty, all_not_contains_iff.mp unescaped, notXmlns⟩,
      fun plain =>
        ⟨plain.ne_empty, all_not_contains_iff.mpr plain.unescaped, plain.ne_xmlns⟩⟩

/-- Whether an element can be written as it is: its names are names, its namespaces can be declared,
and no attribute looks like a declaration or has the name of another. Texts and values may hold any
characters. -/
structure Writable (element : Element) : Prop where
  part : IsNCName element.name.part
  space : ∀ space ∈ element.name.space, IsPlainSpace space ∧ space ≠ xmlSpace
  attributes : ∀ item ∈ element.attributes, IsNCName item.1.part ∧ item.1 ≠ .plain "xmlns" ∧
    ∀ space ∈ item.1.space, IsPlainSpace space
  distinct : (element.attributes.map (·.1)).Nodup

/-- Whether the names in the tag of an element can be written, though it may have an attribute
twice: they have none of the characters that tags are cut at, nor a colon, their namespaces can be
declared, and no attribute looks like a declaration. -/
structure Nameable (element : Element) : Prop where
  part : IsTagName element.name.part.toList
  colonless : ':' ∉ element.name.part.toList
  space : ∀ space ∈ element.name.space, IsPlainSpace space ∧ space ≠ xmlSpace
  attributes : ∀ item ∈ element.attributes, (IsKey item.1.part.toList ∧ ':' ∉ item.1.part.toList) ∧
    item.1 ≠ .plain "xmlns" ∧ ∀ space ∈ item.1.space, IsPlainSpace space

/-- An element that can be written has names that can be read. -/
theorem Writable.nameable {element : Element} (writable : Writable element) : Nameable element where
  part := writable.part.isLabel.toIsTagName
  colonless := writable.part.isLabel.colonless
  space := writable.space
  attributes item member := by
    obtain ⟨isName, undeclaring, plain⟩ := writable.attributes item member
    exact ⟨⟨isName.isLabel.toIsKey, isName.isLabel.colonless⟩, undeclaring, plain⟩

instance (element : Element) : Decidable (Writable element) :=
  decidable_of_iff
    (IsNCName element.name.part ∧
      (∀ space ∈ element.name.space, IsPlainSpace space ∧ space ≠ xmlSpace) ∧
      (∀ item ∈ element.attributes, IsNCName item.1.part ∧ item.1 ≠ .plain "xmlns" ∧
        ∀ space ∈ item.1.space, IsPlainSpace space) ∧
      (element.attributes.map (·.1)).Nodup)
    ⟨fun ⟨part, space, attributes, distinct⟩ => ⟨part, space, attributes, distinct⟩,
      fun writable => ⟨writable.part, writable.space, writable.attributes, writable.distinct⟩⟩

/-! ## 2. Written names

A name is written with a label and a colon, or without. Reading splits it at the first colon, looks
up the label in the scope, and takes the default only for an element without a label. -/

/-- A label, a colon and a name together hold none of the marks that they do not hold apart. -/
theorem IsUncut.labelled {label part : List Char} (isLabel : IsUncut label)
    (isPart : IsUncut part) : IsUncut (label ++ ':' :: part) where
  ne_nil := by simp
  unmarked mark isMark member := by
    rw [List.mem_append, List.mem_cons] at member
    rcases member with member | rfl | member
    · exact isLabel.unmarked mark isMark member
    · exact absurd isMark (by decide)
    · exact isPart.unmarked mark isMark member

theorem IsTagName.labelled {label part : List Char} (isLabel : IsTagName label)
    (isPart : IsTagName part) : IsTagName (label ++ ':' :: part) where
  toIsUncut := isLabel.toIsUncut.labelled isPart.toIsUncut
  begins c isFirst := by
    obtain ⟨first, others, rfl⟩ := List.exists_cons_of_ne_nil isLabel.ne_nil
    exact isLabel.begins c isFirst
  ends isLast := by
    obtain ⟨others, last, rfl⟩ := List.eq_nil_or_concat' part |>.resolve_left isPart.ne_nil
    rw [← List.cons_append, ← List.append_assoc, List.getLast?_concat] at isLast
    exact isPart.ends (by rw [List.getLast?_concat, isLast])

/-- A key with a label is a key. -/
theorem IsKey.labelled {label part : List Char} (isLabel : IsKey label) (isPart : IsKey part) :
    IsKey (label ++ ':' :: part) where
  toIsUncut := isLabel.toIsUncut.labelled isPart.toIsUncut
  unequal member := by
    rw [List.mem_append, List.mem_cons] at member
    rcases member with inLabel | isColon | inPart
    · exact isLabel.unequal inLabel
    · exact absurd isColon (by decide)
    · exact isPart.unequal inPart

namespace Scope

/-- A key without a colon declares something only if it is `xmlns`. -/
theorem declared?_plain {key : List Char} (noColon : ':' ∉ key) (other : key ≠ "xmlns".toList) :
    declared? key = none := by
  unfold declared?
  split
  · exact absurd rfl other
  · simp at noColon
  · rfl

/-- A key with another label than `xmlns` declares nothing. -/
theorem declared?_labelled {label part : List Char} (noColon : ':' ∉ label)
    (other : label ≠ "xmlns".toList) : declared? (label ++ ':' :: part) = none := by
  have split := @Tag.splitLabel_labelled label part noColon
  unfold declared?
  split
  · rename_i same
    rw [same] at split
    cases split
  · rename_i rest same
    rw [same] at split
    have first := congrArg Prod.fst split
    have isXmlns : some "xmlns".toList = some label := first
    exact absurd (Option.some.inj isXmlns).symm other
  · rfl

variable {scope : Scope}

/-- An element's name without a label is in the default namespace. -/
theorem elementName_plain {part : String} (noColon : ':' ∉ part.toList) :
    scope.elementName part.toList = .ok ⟨scope.default?, part⟩ := by
  rw [elementName, Tag.splitLabel_plain noColon]
  simp only [String.ofList_toList]

/-- An attribute's name without a label is in no namespace. -/
theorem attributeName_plain {part : String} (noColon : ':' ∉ part.toList) :
    scope.attributeName part.toList = .ok ⟨none, part⟩ := by
  rw [attributeName, Tag.splitLabel_plain noColon]
  simp only [String.ofList_toList]

/-- A label that is in scope names its namespace. -/
theorem labelled_of_find? {label space : String} (notDefault : label ≠ "") (notEmpty : space ≠ "")
    (found : scope.find? label = some space) : scope.labelled label = .ok space := by
  rw [labelled, found]
  simp only [notDefault, notEmpty, or_self, if_false]

/-- A label that is in scope is read as its namespace, by elements and by attributes. -/
theorem names_labelled {label space part : String} (noColon : ':' ∉ label.toList)
    (notDefault : label ≠ "") (notEmpty : space ≠ "") (found : scope.find? label = some space) :
    scope.elementName (label ++ ":" ++ part).toList = .ok ⟨some space, part⟩ ∧
      scope.attributeName (label ++ ":" ++ part).toList = .ok ⟨some space, part⟩ := by
  have written : (label ++ ":" ++ part).toList = label.toList ++ ':' :: part.toList := by simp
  have resolved := labelled_of_find? notDefault notEmpty found
  constructor
  · rw [written, elementName, Tag.splitLabel_labelled noColon]
    simp only [String.ofList_toList, resolved]
    rfl
  · rw [written, attributeName, Tag.splitLabel_labelled noColon]
    simp only [String.ofList_toList, resolved]
    rfl

end Scope

/-! ## 3. The scope of a tree

Declarations are read in their order, so the scope has the last of them first. As labels are
distinct, the order does not matter to a lookup. -/

namespace Serializer

/-- The binding that an entry declares. -/
def binding (entry : String × Option String) : Binding := ⟨entry.2.getD "", entry.1⟩

/-- What is in scope where all labels are declared. -/
def scopeOf (labels : Labels) : Scope := (labels.map binding).reverse ++ Scope.initial

variable {mustLabel : String → Bool} {labels : Labels}

/-- No label of a tree is empty. -/
theorem Fair.label_ne_empty (fair : Fair mustLabel labels) {space label : String}
    (member : (space, some label) ∈ labels) : label ≠ "" := by
  rintro rfl
  exact (fair.usable _ _ member).1.ne_empty rfl

/-- Fair labels bind each label once, the default declaration included. -/
theorem Fair.eq_of_binding_label (fair : Fair mustLabel labels)
    {first second : String × Option String} (isFirst : first ∈ labels) (isSecond : second ∈ labels)
    (same : (binding first).label = (binding second).label) : first = second := by
  refine List.inj_on_of_nodup_map fair.distinct isFirst isSecond ?_
  obtain ⟨space, label⟩ := first
  obtain ⟨other, label'⟩ := second
  cases label with
  | none =>
    cases label' with
    | none => rfl
    | some text => exact absurd same.symm (fair.label_ne_empty isSecond)
  | some text =>
    cases label' with
    | none => exact absurd same (fair.label_ne_empty isFirst)
    | some text' => exact congrArg some same

/-- A label finds its namespace. -/
theorem find?_scopeOf (fair : Fair mustLabel labels) {space : String} {label : Option String}
    (member : (space, label) ∈ labels) : (scopeOf labels).find? (label.getD "") = some space := by
  have isThere : binding (space, label) ∈ (labels.map binding).reverse :=
    List.mem_reverse.mpr (List.mem_map_of_mem member)
  rw [Scope.find?, scopeOf, List.find?_append]
  cases found : (labels.map binding).reverse.find? fun b => b.label = label.getD "" with
  | none =>
    have absent := List.find?_eq_none.mp found _ isThere
    simp [binding] at absent
  | some first =>
    obtain ⟨entry, isEntry, rfl⟩ := List.mem_map.mp
      (List.mem_reverse.mp (List.mem_of_find?_eq_some found))
    have same : (binding entry).label = label.getD "" := by simpa using List.find?_some found
    rw [fair.eq_of_binding_label isEntry member same]
    rfl

/-- Labels that are not declared stand for what they stand for everywhere. -/
theorem find?_scopeOf_of_absent {label : String}
    (absent : ∀ entry ∈ labels, (binding entry).label ≠ label) :
    (scopeOf labels).find? label = Scope.initial.find? label := by
  have none : (labels.map binding).reverse.find? (fun b => b.label = label) = none := by
    rw [List.find?_eq_none]
    intro found member
    obtain ⟨entry, isEntry, rfl⟩ := List.mem_map.mp (List.mem_reverse.mp member)
    simpa using absent entry isEntry
  rw [Scope.find?, scopeOf, List.find?_append, none, Option.none_or]
  rfl

/-- The label of the format stands for the namespace of the format. -/
theorem find?_scopeOf_xml (fair : Fair mustLabel labels) :
    (scopeOf labels).find? "xml" = some xmlSpace := by
  rw [find?_scopeOf_of_absent]
  · rfl
  · rintro ⟨space, label⟩ member
    cases label with
    | none =>
      intro same
      have first := congrArg String.toList same
      cases first
    | some text => exact (fair.usable _ _ member).2.1

/-- Without a default declaration there is no default namespace. -/
theorem default?_scopeOf_of_absent (fair : Fair mustLabel labels)
    (absent : ∀ space, (space, none) ∉ labels) : (scopeOf labels).default? = none := by
  rw [Scope.default?, find?_scopeOf_of_absent]
  · rfl
  · rintro ⟨space, label⟩ member
    cases label with
    | none => exact absurd member (absent space)
    | some text => exact fair.label_ne_empty member

/-- The default namespace is the one that was declared. -/
theorem default?_scopeOf (fair : Fair mustLabel labels) {space : String} (notEmpty : space ≠ "")
    (member : (space, none) ∈ labels) : (scopeOf labels).default? = some space := by
  have found := find?_scopeOf fair member
  rw [Option.getD_none] at found
  rw [Scope.default?, found]
  simp [notEmpty]

/-! ## 4. Legible elements

A name is in no namespace, in that of `xml`, or in one that the tree has a label for. In each of
these cases it is written so that the scope gives it back. -/

/-- Whether the name that is written for an attribute is read as its name. -/
structure LegibleKey (labels : Labels) (name : Name) : Prop where
  written : IsKey (labels.qualify name).toList
  undeclared : Scope.declared? (labels.qualify name).toList = none
  reads : (scopeOf labels).attributeName (labels.qualify name).toList = .ok name

/-- Whether the names in the tags of an element are read as what they were written for. -/
structure Legible (labels : Labels) (element : Element) : Prop where
  written : IsTagName (labels.qualify element.name).toList
  reads : (scopeOf labels).elementName (labels.qualify element.name).toList = .ok element.name
  keys : ∀ name value, (name, value) ∈ element.attributes → LegibleKey labels name
  distinct : (element.attributes.map (·.1)).Nodup

/-- A name with a label is written with it in front, and read as the name. -/
theorem reads_labelled {name : Name} {space label : String} (inSpace : name.space = some space)
    (notEmpty : space ≠ "") (isLabel : IsLabel label)
    (found : (scopeOf labels).find? label = some space)
    (written : labels.qualify name = label ++ ":" ++ name.part) :
    (labels.qualify name).toList = label.toList ++ ':' :: name.part.toList ∧
      (scopeOf labels).elementName (labels.qualify name).toList = .ok name ∧
      (scopeOf labels).attributeName (labels.qualify name).toList = .ok name := by
  obtain ⟨ofSpace, part⟩ := name
  cases inSpace
  rw [written]
  refine ⟨?_, Scope.names_labelled isLabel.colonless isLabel.ne_empty notEmpty found⟩
  simp

/-- A key with a label that is in scope is read as the name it was written for. -/
theorem legibleKey_labelled {name : Name} {space label : String} (inSpace : name.space = some space)
    (notEmpty : space ≠ "") (isKey : IsKey name.part.toList) (isLabel : IsLabel label)
    (other : label ≠ "xmlns") (found : (scopeOf labels).find? label = some space)
    (written : labels.qualify name = label ++ ":" ++ name.part) : LegibleKey labels name := by
  obtain ⟨parts, -, reads⟩ := reads_labelled inSpace notEmpty isLabel found written
  refine ⟨?_, ?_, reads⟩
  · rw [parts]
    exact isLabel.toIsKey.labelled isKey
  · rw [parts]
    exact Scope.declared?_labelled isLabel.colonless fun same =>
      other (String.toList_inj.mp same)

variable {serializer : Serializer} {root element : Element}

/-- A name in a namespace with a label is written with the label. -/
theorem qualify_labelled {labels : Labels} {space part label : String} (notXml : space ≠ xmlSpace)
    (found : labels.lookup space = some (some label)) :
    labels.qualify ⟨some space, part⟩ = label ++ ":" ++ part := by
  simp only [Labels.qualify, if_neg notXml, found]

/-- The default declaration is given only where no element is without a namespace. -/
theorem default?_of_plain (usable : serializer.HintsUsable) (member : element ∈ root.preorder)
    (plain : element.name.space = none) : (scopeOf (serializer.labels root)).default? = none := by
  have fair := fair_labels usable root
  have someElement : hasPlainElement root = true :=
    List.any_eq_true.mpr ⟨element, member, by rw [plain]; rfl⟩
  refine default?_scopeOf_of_absent fair fun space isEntry => ?_
  have unused : needsLabel root space = false := fair.usable _ _ isEntry
  rw [needsLabel, someElement, Bool.true_or] at unused
  cases unused

/-- The name of an element of a tree is legible. -/
theorem legible_elementName (usable : serializer.HintsUsable) (member : element ∈ root.preorder)
    (nameable : Nameable element) :
    IsTagName ((serializer.labels root).qualify element.name).toList ∧
      (scopeOf (serializer.labels root)).elementName
        ((serializer.labels root).qualify element.name).toList = .ok element.name := by
  have fair := fair_labels usable root
  obtain ⟨⟨ofSpace, part⟩, others⟩ := element
  have isPart : IsTagName part.toList := nameable.part
  have noColon : ':' ∉ part.toList := nameable.colonless
  cases ofSpace with
  | none =>
    have written : (serializer.labels root).qualify ⟨none, part⟩ = part := rfl
    rw [written, Scope.elementName_plain noColon, default?_of_plain usable member rfl]
    exact ⟨isPart, rfl⟩
  | some space =>
    obtain ⟨plain, notXml⟩ := nameable.space space rfl
    obtain ⟨label, isLabel, isEntry⟩ :=
      @exists_label serializer _ _ (mem_spaces_of_element member rfl)
    cases label with
    | none =>
      have written : (serializer.labels root).qualify ⟨some space, part⟩ = part := by
        simp only [Labels.qualify, if_neg notXml, isLabel]
      rw [written, Scope.elementName_plain noColon, default?_scopeOf fair plain.ne_empty isEntry]
      exact ⟨isPart, rfl⟩
    | some label =>
      obtain ⟨usableLabel, -, -⟩ := fair.usable _ _ isEntry
      obtain ⟨parts, reads, -⟩ := @reads_labelled _ ⟨some space, part⟩ _ _ rfl plain.ne_empty
        usableLabel (find?_scopeOf fair isEntry) (qualify_labelled notXml isLabel)
      refine ⟨?_, reads⟩
      rw [parts]
      exact usableLabel.toIsTagName.labelled isPart

/-- The name of an attribute in a tree is legible. -/
theorem legible_attributeName (usable : serializer.HintsUsable) (member : element ∈ root.preorder)
    (nameable : Nameable element) {name : Name} {value : String}
    (isAttribute : (name, value) ∈ element.attributes) :
    LegibleKey (serializer.labels root) name := by
  have fair := fair_labels usable root
  obtain ⟨⟨isKey, noColon⟩, notXmlns, plainSpace⟩ := nameable.attributes _ isAttribute
  obtain ⟨ofSpace, part⟩ := name
  cases ofSpace with
  | none =>
    refine ⟨isKey, Scope.declared?_plain noColon fun same => ?_,
      Scope.attributeName_plain noColon⟩
    exact notXmlns (congrArg Name.plain (String.toList_inj.mp same))
  | some space =>
    have plain := plainSpace space rfl
    by_cases isXml : space = xmlSpace
    · subst isXml
      have isLabel : IsLabel "xml" := IsNCName.isLabel (by decide)
      have written : (serializer.labels root).qualify ⟨some xmlSpace, part⟩ =
          "xml" ++ ":" ++ part := by
        simp only [Labels.qualify, if_true]
        rfl
      exact legibleKey_labelled rfl plain.ne_empty isKey isLabel (by decide)
        (find?_scopeOf_xml fair) written
    · have inAttributes := mem_attributeSpaces member isAttribute rfl isXml
      obtain ⟨label, isLabel, isEntry⟩ :=
        @exists_label serializer root _ (mem_distinct.mpr (List.mem_append_right _ inAttributes))
      cases label with
      | none =>
        -- A namespace of attributes is never given the default declaration.
        have unused : needsLabel root space = false := fair.usable _ _ isEntry
        rw [needsLabel, List.contains_iff_mem.mpr inAttributes, Bool.or_true] at unused
        cases unused
      | some label =>
        obtain ⟨usableLabel, -, notXmlns⟩ := fair.usable _ _ isEntry
        exact legibleKey_labelled rfl plain.ne_empty isKey usableLabel notXmlns
          (find?_scopeOf fair isEntry) (qualify_labelled isXml isLabel)

/-- What is written for an element of a tree is legible. -/
theorem legible_of_nameable (usable : serializer.HintsUsable)
    (nameable : ∀ element ∈ root.preorder, Nameable element) (member : element ∈ root.preorder)
    (distinct : (element.attributes.map (·.1)).Nodup) :
    Legible (serializer.labels root) element := by
  have isNameable := nameable element member
  obtain ⟨written, reads⟩ := legible_elementName usable member isNameable
  exact ⟨written, reads,
    fun _ _ isAttribute => legible_attributeName usable member isNameable isAttribute, distinct⟩

end Serializer

end Intertext.Markup
