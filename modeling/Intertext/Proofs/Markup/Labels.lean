import Mathlib.Data.List.Nodup
import Mathlib.Data.List.Perm.Subperm
import Intertext.Markup.Serializer
/-!
The labels that a tree is written with.

Labels are given one after another, and each is told from all before it: a hint is taken only if its
label is free, and of one more numbers than there are labels one has a free label
(`taken_freeNumber`). So no two namespaces of a tree share a label, every namespace has one, and
none is a label that belongs to the format (`fair_labels`). The default declaration names a
namespace only if no element is without one and no attribute is in it.
-/

namespace Intertext.Markup

/-! ## 1. Names without a colon -/

/-- The ranges of code points that a name without a colon begins with. -/
def nameStartRanges : List (Nat × Nat) :=
  [(0x41, 0x5A), (0x5F, 0x5F), (0x61, 0x7A), (0xC0, 0xD6), (0xD8, 0xF6), (0xF8, 0x2FF),
    (0x370, 0x37D), (0x37F, 0x1FFF), (0x200C, 0x200D), (0x2070, 0x218F), (0x2C00, 0x2FEF),
    (0x3001, 0xD7FF), (0xF900, 0xFDCF), (0xFDF0, 0xFFFD), (0x10000, 0xEFFFF)]

/-- The ranges of the code points that it goes on with. -/
def nameRanges : List (Nat × Nat) :=
  nameStartRanges ++
    [(0x2D, 0x2E), (0x30, 0x39), (0xB7, 0xB7), (0x300, 0x36F), (0x203F, 0x2040)]

/-- Whether the code point of a character is in one of some ranges. -/
def isInRanges (ranges : List (Nat × Nat)) (c : Char) : Bool :=
  ranges.any fun (first, last) => first ≤ c.toNat && c.toNat ≤ last

/-- Whether a text is a name without a colon, as local parts and labels are. -/
def IsNCName (text : String) : Prop :=
  text.toList.head?.any (isInRanges nameStartRanges) = true ∧
    text.toList.all (isInRanges nameRanges) = true

instance (text : String) : Decidable (IsNCName text) := inferInstanceAs (Decidable (_ ∧ _))

theorem IsNCName.inRanges {text : String} (isName : IsNCName text) {c : Char}
    (member : c ∈ text.toList) : isInRanges nameRanges c = true :=
  List.all_eq_true.mp isName.2 c member

/-- The characters that a tag is cut at: behind names, around values and at its end. -/
def tagMarks : List Char := [' ', '\t', '\r', '\n', '>', '"', '\'']

/-- Whether characters stay together in a tag. -/
structure IsUncut (chars : List Char) : Prop where
  ne_nil : chars ≠ []
  unmarked : ∀ mark ∈ tagMarks, mark ∉ chars

/-- Quantifiers over characters could be decided by trying every one of them, `all` cannot. -/
theorem all_not_contains_iff {marks chars : List Char} :
    (marks.all fun mark => !chars.contains mark) = true ↔ ∀ mark ∈ marks, mark ∉ chars := by
  simp

instance (chars : List Char) : Decidable (IsUncut chars) :=
  decidable_of_iff (chars ≠ [] ∧ (tagMarks.all fun mark => !chars.contains mark) = true)
    ⟨fun ⟨notNil, unmarked⟩ => ⟨notNil, all_not_contains_iff.mp unmarked⟩,
      fun uncut => ⟨uncut.ne_nil, all_not_contains_iff.mpr uncut.unmarked⟩⟩

/-- Whether characters can be written as the name of an element, or as a part of one: they do not
begin as other markup does, nor end as a tag that is closed at once. -/
structure IsTagName (chars : List Char) : Prop extends IsUncut chars where
  begins : ∀ c ∈ chars.head?, c ∉ ['!', '?', '/']
  ends : chars.getLast? ≠ some '/'

instance (chars : List Char) : Decidable (IsTagName chars) :=
  decidable_of_iff
    (IsUncut chars ∧ (chars.head?.toList.all fun c => !(['!', '?', '/'].contains c)) = true ∧
      chars.getLast? ≠ some '/')
    ⟨fun ⟨uncut, begins, ends⟩ => ⟨uncut, by simpa using all_not_contains_iff.mp begins, ends⟩,
      fun isName =>
        ⟨isName.toIsUncut, all_not_contains_iff.mpr (by simpa using isName.begins), isName.ends⟩⟩

/-- Whether characters can be written as the name of an attribute, or as a part of one. -/
structure IsKey (chars : List Char) : Prop extends IsUncut chars where
  unequal : '=' ∉ chars

instance (chars : List Char) : Decidable (IsKey chars) :=
  decidable_of_iff (IsUncut chars ∧ '=' ∉ chars)
    ⟨fun ⟨uncut, unequal⟩ => ⟨uncut, unequal⟩, fun isKey => ⟨isKey.toIsUncut, isKey.unequal⟩⟩

/-- Whether a text can be written as a label, of elements and of attributes. -/
structure IsLabel (text : String) : Prop extends IsTagName text.toList, IsKey text.toList where
  colonless : ':' ∉ text.toList

instance (text : String) : Decidable (IsLabel text) :=
  decidable_of_iff (IsTagName text.toList ∧ IsKey text.toList ∧ ':' ∉ text.toList)
    ⟨fun ⟨isName, isKey, colonless⟩ => ⟨isName, isKey.unequal, colonless⟩,
      fun isLabel => ⟨isLabel.toIsTagName, isLabel.toIsKey, isLabel.colonless⟩⟩

theorem IsLabel.ne_empty {text : String} (isLabel : IsLabel text) : text ≠ "" := by
  rintro rfl
  exact isLabel.ne_nil rfl

theorem IsNCName.not_mem {text : String} (isName : IsNCName text) {c : Char}
    (outside : isInRanges nameRanges c = false) : c ∉ text.toList := by
  intro member
  rw [isName.inRanges member] at outside
  cases outside

theorem IsNCName.isLabel {text : String} (isName : IsNCName text) : IsLabel text where
  ne_nil none := by
    have first := isName.1
    rw [none] at first
    cases first
  unmarked mark isMark := by
    have apart : (tagMarks.all (!isInRanges nameRanges ·)) = true := by decide
    exact isName.not_mem (by simpa using List.all_eq_true.mp apart mark isMark)
  begins c isFirst isMark := by
    have apart : (['!', '?', '/'].all (!isInRanges nameRanges ·)) = true := by decide
    exact isName.not_mem (by simpa using List.all_eq_true.mp apart c isMark)
      (List.mem_of_mem_head? isFirst)
  ends isLast := isName.not_mem (by decide) (List.mem_of_getLast? isLast)
  unequal := isName.not_mem (by decide)
  colonless := isName.not_mem (by decide)

/-! ## 2. Free labels -/

namespace Serializer

/-- Whether a label can be declared for a namespace; the default declaration may not be asked to
name a namespace that needs a label. -/
def Usable (mustLabel : Bool) : Option String → Prop
  | none => mustLabel = false
  | some label => IsLabel label ∧ label ≠ "xml" ∧ label ≠ "xmlns"

/-- Whether hints have labels that can be declared, except for that of the format itself, which is
not taken. -/
def HintsUsable (serializer : Serializer) : Prop :=
  ∀ hint ∈ serializer.hints, ∀ label ∈ hint.1, IsLabel label ∧ label ≠ "xmlns"

theorem numbered_inj {m n : Nat} (same : numbered m = numbered n) : m = n := by
  have digits : toString m = toString n := (String.append_right_inj _).mp (Option.some.inj same)
  have numbers := congrArg (fun text => Nat.ofDigitChars 10 text.toList 0) digits
  simpa [Nat.toString_eq_repr, Nat.toList_repr, Nat.ofDigitChars_toDigits] using numbers

theorem usable_numbered (n : Nat) (mustLabel : Bool) : Usable mustLabel (numbered n) := by
  have digits (c : Char) (member : c ∈ (toString n).toList) : isInRanges nameRanges c = true := by
    rw [Nat.toString_eq_repr, Nat.toList_repr] at member
    have isDigit := Nat.isDigit_of_mem_toDigits (by decide) (by decide) member
    simp only [Char.isDigit, Bool.and_eq_true, decide_eq_true_eq] at isDigit
    refine List.any_eq_true.mpr ⟨(0x30, 0x39), by decide, ?_⟩
    simpa [UInt32.le_iff_toNat_le] using isDigit
  have letters : ("ns" ++ toString n).toList = 'n' :: 's' :: (toString n).toList := by simp
  refine ⟨IsNCName.isLabel ⟨?_, ?_⟩, fun same => ?_, fun same => ?_⟩
  · rw [letters]
    rfl
  · rw [letters, List.all_eq_true]
    intro c member
    rcases List.mem_cons.mp member with rfl | member
    · decide
    · rcases List.mem_cons.mp member with rfl | member
      · decide
      · exact digits c member
  · have first := congrArg (·.toList.head?) same
    rw [letters] at first
    cases first
  · have first := congrArg (·.toList.head?) same
    rw [letters] at first
    cases first

/-- Of one more numbers than there are labels, one has a free label. -/
theorem taken_freeNumber (labels : Labels) (n : Nat) :
    labels.taken (numbered (freeNumber labels n)) = false := by
  unfold freeNumber
  cases found : (List.range' n (labels.length + 1)).find? fun k => !labels.taken (numbered k) with
  | some k =>
    have free := List.find?_some found
    simpa using free
  | none =>
    exfalso
    rw [List.find?_eq_none] at found
    have tried : ((List.range' n (labels.length + 1)).map numbered).Nodup :=
      List.Nodup.map (fun _ _ same => numbered_inj same) (List.nodup_range' 1)
    have inside : (List.range' n (labels.length + 1)).map numbered ⊆ labels.map (·.2) := by
      intro label member
      obtain ⟨k, isTried, rfl⟩ := List.mem_map.mp member
      have taken : labels.taken (numbered k) = true := by simpa using found k isTried
      obtain ⟨entry, isEntry, same⟩ := List.any_eq_true.mp taken
      exact List.mem_map.mpr ⟨entry, isEntry, of_decide_eq_true same⟩
    have shorter := (tried.subperm inside).length_le
    simp only [List.length_map, List.length_range'] at shorter
    omega

/-! ## 3. Fair labels -/

/-- Whether labels can be declared, no two namespaces having the same one. -/
structure Fair (mustLabel : String → Bool) (labels : Labels) : Prop where
  distinct : (labels.map (·.2)).Nodup
  usable : ∀ space label, (space, label) ∈ labels → Usable (mustLabel space) label

theorem not_mem_of_taken {labels : Labels} {label : Option String}
    (free : labels.taken label = false) : label ∉ labels.map (·.2) := by
  intro member
  obtain ⟨entry, isEntry, rfl⟩ := List.mem_map.mp member
  have taken : labels.taken entry.2 = true := List.any_eq_true.mpr ⟨entry, isEntry, by simp⟩
  rw [free] at taken
  cases taken

/-- One more free label that can be declared keeps labels fair. -/
theorem Fair.concat {mustLabel : String → Bool} {labels : Labels} (fair : Fair mustLabel labels)
    {space : String} {label : Option String} (free : labels.taken label = false)
    (usable : Usable (mustLabel space) label) : Fair mustLabel (labels ++ [(space, label)]) where
  distinct := by
    rw [List.map_append, List.nodup_append]
    refine ⟨fair.distinct, by simp, ?_⟩
    intro one isOne other isOther same
    rw [List.map_singleton, List.mem_singleton] at isOther
    subst same isOther
    exact not_mem_of_taken free isOne
  usable other found member := by
    rcases List.mem_append.mp member with member | member
    · exact fair.usable other found member
    · cases List.mem_singleton.mp member
      exact usable

variable {serializer : Serializer}

/-- A label that hints give is free and can be declared. -/
theorem of_hinted? (usable : serializer.HintsUsable) {labels : Labels} {mustLabel : Bool}
    {space : String} {label : Option String}
    (found : serializer.hinted? labels mustLabel space = some label) :
    labels.taken label = false ∧ Usable mustLabel label := by
  unfold hinted? at found
  have isHint := List.mem_of_find?_eq_some found
  have fits := List.find?_some found
  simp only [ne_eq, Bool.and_eq_true, decide_eq_true_eq, Bool.not_eq_true'] at fits
  obtain ⟨⟨other, uri⟩, member, rfl⟩ := List.mem_map.mp isHint
  obtain ⟨isHint, allowed⟩ := List.mem_filter.mp member
  refine ⟨fits.2, ?_⟩
  cases other with
  | none => simp_all [Usable]
  | some label =>
    obtain ⟨bare, notXmlns⟩ := usable _ isHint label rfl
    exact ⟨bare, fun same => fits.1 (congrArg some same), notXmlns⟩

theorem fair_labelsFrom (usable : serializer.HintsUsable) {mustLabel : String → Bool}
    {labels : Labels} (fair : Fair mustLabel labels) (n : Nat) (spaces : List String) :
    Fair mustLabel (serializer.labelsFrom mustLabel labels n spaces) := by
  induction spaces generalizing labels n with
  | nil => exact fair
  | cons space rest ih =>
    rw [labelsFrom]
    split
    · rename_i label found
      obtain ⟨free, isUsable⟩ := of_hinted? usable found
      exact ih (fair.concat free isUsable) n
    · exact ih (fair.concat (taken_freeNumber labels n) (usable_numbered _ _)) _

/-- The namespaces that have labels are those that were asked for. -/
theorem spaces_labelsFrom (mustLabel : String → Bool) (labels : Labels) (n : Nat)
    (spaces : List String) :
    (serializer.labelsFrom mustLabel labels n spaces).map (·.1) = labels.map (·.1) ++ spaces := by
  induction spaces generalizing labels n with
  | nil => simp [labelsFrom]
  | cons space rest ih =>
    rw [labelsFrom]
    split
    · rw [ih]
      simp
    · rw [ih]
      simp

/-! ## 4. Namespaces -/

theorem mem_distinct {texts : List String} {text : String} :
    text ∈ distinct texts ↔ text ∈ texts := by
  have all (seen : List String) :
      text ∈ texts.foldl (fun seen text => if text ∈ seen then seen else seen ++ [text]) seen ↔
        text ∈ seen ∨ text ∈ texts := by
    induction texts generalizing seen with
    | nil => simp
    | cons first rest ih =>
      rw [List.foldl_cons, ih, List.mem_cons]
      split
      · rename_i known
        constructor
        · exact fun member => member.imp_right Or.inr
        · rintro (member | rfl | member)
          · exact Or.inl member
          · exact Or.inl known
          · exact Or.inr member
      · rw [List.mem_append, List.mem_singleton, or_assoc]
  exact (all []).trans (by simp)

/-! ## 5. The labels of a tree -/

/-- Whether a namespace of a tree may not be named by the default declaration. -/
def needsLabel (root : Element) (space : String) : Bool :=
  hasPlainElement root || (attributeSpaces root).contains space

/-- The labels of a tree can be declared, and no two namespaces have the same one. -/
theorem fair_labels (usable : serializer.HintsUsable) (root : Element) :
    Fair (needsLabel root) (serializer.labels root) :=
  fair_labelsFrom usable ⟨by simp, by simp⟩ 0 _

theorem spaces_labels (root : Element) :
    (serializer.labels root).map (·.1) = spaces root := by
  rw [labels, spaces_labelsFrom, List.map_nil, List.nil_append]

variable {root element : Element}

/-- The namespace of an element of a tree has a label. -/
theorem mem_spaces_of_element (member : element ∈ root.preorder) {space : String}
    (inSpace : element.name.space = some space) : space ∈ spaces root := by
  refine mem_distinct.mpr (List.mem_append_left _ (mem_distinct.mpr ?_))
  exact List.mem_filterMap.mpr ⟨element, member, inSpace⟩

theorem mem_attributeSpaces (member : element ∈ root.preorder) {name : Name} {value space : String}
    (isAttribute : (name, value) ∈ element.attributes) (inSpace : name.space = some space)
    (notXml : space ≠ xmlSpace) : space ∈ attributeSpaces root := by
  refine mem_distinct.mpr (List.mem_filter.mpr ⟨?_, by simpa using notXml⟩)
  exact List.mem_flatMap.mpr ⟨element, member, List.mem_filterMap.mpr ⟨_, isAttribute, inSpace⟩⟩

/-- A namespace of a tree is that of an element or of an attribute. -/
theorem exists_of_mem_spaces {space : String} (member : space ∈ spaces root) :
    (∃ element ∈ root.preorder, element.name.space = some space) ∨
      space ≠ xmlSpace ∧ ∃ element ∈ root.preorder, ∃ item ∈ element.attributes,
        item.1.space = some space := by
  rcases List.mem_append.mp (mem_distinct.mp member) with ofElement | ofAttribute
  · obtain ⟨element, isThere, inSpace⟩ := List.mem_filterMap.mp (mem_distinct.mp ofElement)
    exact Or.inl ⟨element, isThere, inSpace⟩
  · obtain ⟨used, notXml⟩ := List.mem_filter.mp (mem_distinct.mp ofAttribute)
    obtain ⟨element, isThere, used⟩ := List.mem_flatMap.mp used
    obtain ⟨item, isAttribute, inSpace⟩ := List.mem_filterMap.mp used
    exact Or.inr ⟨by simpa using notXml, element, isThere, item, isAttribute, inSpace⟩

/-- Every namespace of a tree has one label. -/
theorem exists_label {space : String} (member : space ∈ spaces root) :
    ∃ label, (serializer.labels root).lookup space = some label ∧
      (space, label) ∈ serializer.labels root := by
  rw [← @spaces_labels serializer root] at member
  obtain ⟨⟨other, label⟩, isEntry, rfl⟩ := List.mem_map.mp member
  cases found : (serializer.labels root).lookup other with
  | none =>
    have absent := List.lookup_eq_none_iff.mp found _ isEntry
    simp at absent
  | some first =>
    obtain ⟨before, after, same, -⟩ := List.lookup_eq_some_iff.mp found
    exact ⟨first, rfl, by simp [same]⟩

end Serializer

end Intertext.Markup
