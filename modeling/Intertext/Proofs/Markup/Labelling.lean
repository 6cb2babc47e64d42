import Mathlib.Data.List.Induction
import Mathlib.Order.Bounds.Basic
import Intertext.Proofs.Markup.Labels
/-!
How labels are chosen.

Labels are given in the order in which namespaces are used, and what a namespace gets depends on
what has been given before it and on nothing that comes later: the first label the hints offer it
that is free, and if they offer none, `ns` with the least number that is free (`Chosen`). As every
choice is free when it is made, no two namespaces have one label, wherever the labels come from.

`binds_labels` puts this together for the labels of a tree, whatever the hints are. It says of the
default declaration that no attribute uses its namespace, except where that is the namespace of
`xml`: names in it are written with `xml` in any case, and a hint can make it the default
declaration beside attributes that are in it (`default_with_attribute`).
-/

namespace Intertext.Markup

namespace Serializer

variable {serializer : Serializer} {mustLabel : String → Bool} {labels : Labels} {space : String}
  {label : Option String}

/-! ## 1. What hints offer -/

/-- Whether hints offer a label to a namespace. The label `xml` is never offered, nor the default
declaration to a namespace that must have a label. -/
def Offers (hints : List (Option String × String)) (mustLabel : Bool) (space : String)
    (label : Option String) : Prop :=
  (label, space) ∈ hints ∧ label ≠ some "xml" ∧ (label = none → mustLabel = false)

instance (hints : List (Option String × String)) (mustLabel : Bool) (space : String)
    (label : Option String) : Decidable (Offers hints mustLabel space label) :=
  inferInstanceAs (Decidable (_ ∧ _ ∧ _))

/-- How the label of a namespace is chosen when some labels have been given. -/
inductive Chosen (serializer : Serializer) (mustLabel : Bool) (given : Labels) (space : String) :
    Option String → Prop where
  /-- It is the first one that the hints offer and that is free. -/
  | hinted {earlier later : List (Option String × String)} {label : Option String}
    (hints : serializer.hints = earlier ++ (label, space) :: later)
    (offered : Offers serializer.hints mustLabel space label)
    (free : label ∉ given.map (·.2))
    (first : ∀ other, Offers earlier mustLabel space other → other ∈ given.map (·.2)) :
    Chosen serializer mustLabel given space label
  /-- It is made up with the least number that is free, as none is free that the hints offer. No
  more numbers are tried than labels have been given. -/
  | made {n : Nat}
    (taken : ∀ other, Offers serializer.hints mustLabel space other → other ∈ given.map (·.2))
    (least : IsLeast {k | numbered k ∉ given.map (·.2)} n) (found : n ≤ given.length) :
    Chosen serializer mustLabel given space (numbered n)

theorem taken_iff : labels.taken label = true ↔ label ∈ labels.map (·.2) := by
  rw [Labels.taken, List.any_eq_true, List.mem_map]
  simp

theorem Chosen.free {mustLabel : Bool} (chosen : Chosen serializer mustLabel labels space label) :
    label ∉ labels.map (·.2) := by
  cases chosen with
  | hinted _ _ free _ => exact free
  | made _ least _ => exact least.1

theorem Chosen.ne_xml {mustLabel : Bool} (chosen : Chosen serializer mustLabel labels space label) :
    label ≠ some "xml" := by
  cases chosen with
  | hinted _ offered _ _ => exact offered.2.1
  | made _ _ _ => exact (usable_numbered _ false).2.1 ∘ Option.some.inj

/-- Only hints make a namespace the default one, and only where it can go without a label. -/
theorem Chosen.may_go_without {mustLabel : Bool}
    (chosen : Chosen serializer mustLabel labels space none) : mustLabel = false := by
  cases chosen with
  | hinted _ offered _ _ => exact offered.2.2 rfl

/-! ## 2. One choice -/

/-- The label that the hints give is that of the first hint that offers a free one. -/
theorem hinted?_eq (serializer : Serializer) (labels : Labels) (mustLabel : Bool) (space : String) :
    serializer.hinted? labels mustLabel space =
      (serializer.hints.find? fun hint => decide (Offers [hint] mustLabel space hint.1 ∧
        hint.1 ∉ labels.map (·.2))).map (·.1) := by
  rw [hinted?, List.find?_map, List.find?_filter]
  congr 2
  funext ⟨label, uri⟩
  rw [decide_eq_decide, ← taken_iff, Offers, List.mem_singleton, Prod.mk.injEq, eq_comm (b := uri)]
  cases label <;> cases mustLabel <;> simp [and_assoc]

/-- A label that the hints give is chosen. -/
theorem chosen_of_hinted? {mustLabel : Bool}
    (found : serializer.hinted? labels mustLabel space = some label) :
    Chosen serializer mustLabel labels space label := by
  rw [hinted?_eq, Option.map_eq_some_iff] at found
  obtain ⟨⟨label, uri⟩, found, rfl⟩ := found
  obtain ⟨fits, earlier, later, hints, others⟩ := List.find?_eq_some_iff_append.mp found
  obtain ⟨⟨isHint, offered⟩, free⟩ := of_decide_eq_true fits
  cases List.mem_singleton.mp isHint
  have isThere : (label, space) ∈ serializer.hints := by
    rw [hints]
    exact List.mem_append_right _ List.mem_cons_self
  refine .hinted hints ⟨isThere, offered⟩ free fun other ⟨isEarlier, offered⟩ => ?_
  by_contra isFree
  have passedOver := others _ isEarlier
  rw [Bool.not_eq_true', decide_eq_false_iff_not] at passedOver
  exact passedOver ⟨⟨List.mem_singleton_self _, offered⟩, isFree⟩

/-- Where the hints give no label, every one that they offer is taken. -/
theorem taken_of_hinted? {mustLabel : Bool}
    (none : serializer.hinted? labels mustLabel space = none) {other : Option String}
    (offered : Offers serializer.hints mustLabel space other) : other ∈ labels.map (·.2) := by
  rw [hinted?_eq, Option.map_eq_none_iff, List.find?_eq_none] at none
  by_contra isFree
  exact none _ offered.1 (decide_eq_true ⟨⟨List.mem_singleton_self _, offered.2⟩, isFree⟩)

/-- A search for a free number tries no number twice and leaves none out. -/
theorem taken_of_lt_freeNumber {n k : Nat} (tried : n ≤ k) (failed : k < freeNumber labels n) :
    numbered k ∈ labels.map (·.2) := by
  unfold freeNumber at failed
  cases found : (List.range' n (labels.length + 1)).find? fun k => !labels.taken (numbered k) with
  | none =>
    rw [found] at failed
    exact absurd (Nat.lt_of_lt_of_le failed tried) (Nat.lt_irrefl _)
  | some last =>
    rw [found] at failed
    obtain ⟨-, -, others⟩ := List.find?_range'_eq_some.mp found
    rw [← taken_iff]
    simpa using others k tried failed

/-- The least free number is no greater than the count of the labels: each smaller one is that of a
label. -/
theorem le_length_of_isLeast {n : Nat} (least : IsLeast {k | numbered k ∉ labels.map (·.2)} n) :
    n ≤ labels.length := by
  have tried : ((List.range n).map numbered).Nodup :=
    List.Nodup.map (fun _ _ same => numbered_inj same) List.nodup_range
  have inside : (List.range n).map numbered ⊆ labels.map (·.2) := by
    intro label member
    obtain ⟨k, before, rfl⟩ := List.mem_map.mp member
    by_contra isFree
    exact absurd (least.2 isFree) (Nat.not_le.mpr (List.mem_range.mp before))
  simpa using (tried.subperm inside).length_le

/-! ## 3. All choices -/

/-- Whether each label is chosen when those before it have been given. -/
def InTurn (serializer : Serializer) (mustLabel : String → Bool) (labels : Labels) : Prop :=
  ∀ before space label after, labels = before ++ (space, label) :: after →
    Chosen serializer (mustLabel space) before space label

theorem inTurn_nil : InTurn serializer mustLabel [] := by
  intro before space label after split
  simp at split

theorem InTurn.concat (inTurn : InTurn serializer mustLabel labels)
    (chosen : Chosen serializer (mustLabel space) labels space label) :
    InTurn serializer mustLabel (labels ++ [(space, label)]) := by
  intro before other found after split
  rcases List.eq_nil_or_concat after with rfl | ⟨between, last, rfl⟩
  · obtain ⟨rfl, same⟩ := List.append_inj' split rfl
    cases same
    exact chosen
  · rw [List.concat_eq_append, ← List.cons_append, ← List.append_assoc] at split
    exact inTurn before other found between (List.append_inj' split rfl).1

theorem InTurn.of_append {more : Labels} (inTurn : InTurn serializer mustLabel (labels ++ more)) :
    InTurn serializer mustLabel labels := by
  intro before space label after split
  refine inTurn before space label (after ++ more) ?_
  rw [split, List.append_assoc, List.cons_append]

/-- Labels that are chosen one after another are distinct, as each of them was free. -/
theorem InTurn.nodup (inTurn : InTurn serializer mustLabel labels) :
    (labels.map (·.2)).Nodup := by
  induction labels using List.reverseRecOn with
  | nil => exact List.nodup_nil
  | append_singleton given entry ih =>
    have chosen := inTurn given entry.1 entry.2 [] rfl
    rw [List.map_append, List.map_singleton, List.nodup_append]
    refine ⟨ih inTurn.of_append, List.nodup_singleton _, ?_⟩
    rintro label isGiven other isLast rfl
    cases List.mem_singleton.mp isLast
    exact chosen.free isGiven

/-- Labels are chosen one after another. The number that the search for made-up labels goes on from
is passed along: every smaller one is taken. -/
theorem inTurn_labelsFrom (inTurn : InTurn serializer mustLabel labels) {n : Nat}
    (tried : ∀ k < n, numbered k ∈ labels.map (·.2)) (spaces : List String) :
    InTurn serializer mustLabel (serializer.labelsFrom mustLabel labels n spaces) := by
  induction spaces generalizing labels n with
  | nil => exact inTurn
  | cons space rest ih =>
    rw [labelsFrom]
    split
    · rename_i label found
      refine ih (inTurn.concat (chosen_of_hinted? found)) fun k before => ?_
      rw [List.map_append]
      exact List.mem_append_left _ (tried k before)
    · rename_i none
      have isTaken (k : Nat) (before : k < freeNumber labels n) : numbered k ∈ labels.map (·.2) :=
        (Nat.lt_or_ge k n).elim (tried k) fun later => taken_of_lt_freeNumber later before
      have least : IsLeast {k | numbered k ∉ labels.map (·.2)} (freeNumber labels n) :=
        ⟨not_mem_of_taken (taken_freeNumber labels n), fun k isFree =>
          Nat.not_lt.mp fun before => isFree (isTaken k before)⟩
      refine ih (inTurn.concat (.made (fun _ => taken_of_hinted? none) least
        (le_length_of_isLeast least))) fun k before => ?_
      rw [List.map_append, List.mem_append]
      rcases Nat.lt_succ_iff_lt_or_eq.mp before with before | rfl
      · exact Or.inl (isTaken k before)
      · exact Or.inr (List.mem_singleton_self _)

/-! ## 4. The labels of a tree -/

theorem nodup_distinct (texts : List String) : (distinct texts).Nodup := by
  have all (seen : List String) (none : seen.Nodup) : (texts.foldl (fun seen text =>
      if text ∈ seen then seen else seen ++ [text]) seen).Nodup := by
    induction texts generalizing seen with
    | nil => exact none
    | cons first rest ih =>
      rw [List.foldl_cons]
      refine ih _ ?_
      split
      · exact none
      · rename_i new
        exact List.nodup_append.mpr ⟨none, List.nodup_singleton _, fun text member other isFirst =>
          fun same => new (List.mem_singleton.mp isFirst ▸ same ▸ member)⟩
  exact all [] List.nodup_nil

/-- Whether a tree uses a namespace that needs a label: for an element, or for an attribute if it
is not that of `xml`. -/
def Uses (root : Element) (space : String) : Prop :=
  (∃ element ∈ root.preorder, element.name.space = some space) ∨
    space ≠ xmlSpace ∧ ∃ element ∈ root.preorder, ∃ item ∈ element.attributes,
      item.1.space = some space

theorem mem_spaces_iff {root : Element} : space ∈ spaces root ↔ Uses root space := by
  refine ⟨exists_of_mem_spaces, ?_⟩
  rintro (⟨element, member, inSpace⟩ | ⟨notXml, element, member, item, isAttribute, inSpace⟩)
  · exact mem_spaces_of_element member inSpace
  · exact mem_distinct.mpr (List.mem_append_right _
      (mem_attributeSpaces member isAttribute inSpace notXml))

/-- A namespace may go without a label if no element is without a namespace and no attribute uses
it, that of `xml` apart. -/
theorem needsLabel_eq_false {root : Element} (unneeded : needsLabel root space = false) :
    (∀ element ∈ root.preorder, element.name.space ≠ none) ∧
      ∀ element ∈ root.preorder, ∀ item ∈ element.attributes, item.1.space = some space →
        space = xmlSpace := by
  obtain ⟨noPlain, noAttribute⟩ := Bool.or_eq_false_iff.mp unneeded
  constructor
  · intro element member isPlain
    have plain := List.any_eq_false.mp noPlain element member
    rw [isPlain] at plain
    exact plain rfl
  · intro element member item isAttribute inSpace
    by_contra notXml
    have used := mem_attributeSpaces member isAttribute inSpace notXml
    rw [List.contains_eq_mem, decide_eq_false_iff_not] at noAttribute
    exact noAttribute used

/-- Whether labels bind the namespaces of a tree soundly. -/
structure Binds (serializer : Serializer) (root : Element) (labels : Labels) : Prop where
  /-- Each namespace that is used has one label, and no other one has any. -/
  each : ∀ space, Uses root space ↔ ∃! label, (space, label) ∈ labels
  /-- No namespace is bound twice. -/
  once : (labels.map (·.1)).Nodup
  /-- No two namespaces have one label, hinted or made up. -/
  apart : (labels.map (·.2)).Nodup
  notXml : ∀ entry ∈ labels, entry.2 ≠ some "xml"
  /-- The default declaration takes in no element and no attribute that is not in its namespace. -/
  default : ∀ space, (space, none) ∈ labels →
    (∀ element ∈ root.preorder, element.name.space ≠ none) ∧
      ∀ element ∈ root.preorder, ∀ item ∈ element.attributes, item.1.space = some space →
        space = xmlSpace
  /-- A label is a free one that the hints offer, or else it is made up: all that the hints offer is
  then taken by namespaces bound before. -/
  chosen : ∀ before space label after, labels = before ++ (space, label) :: after →
    Chosen serializer (needsLabel root space) before space label

/-- *Labels are bound soundly.* Whatever the hints are, each namespace that a tree uses gets one
label, no two get the same one, and none gets `xml`. The default declaration goes at most to one
namespace, and only if every element has a namespace and no attribute uses this one, the namespace
of `xml` apart. A label is made up only where all that the hints offer has been given before, and it
is none that any other namespace has. -/
theorem binds_labels (serializer : Serializer) (root : Element) :
    Binds serializer root (serializer.labels root) := by
  have inTurn : InTurn serializer (needsLabel root) (serializer.labels root) :=
    inTurn_labelsFrom inTurn_nil (by simp) _
  have once : ((serializer.labels root).map (·.1)).Nodup := by
    rw [spaces_labels]
    exact nodup_distinct _
  have split {space : String} {label : Option String}
      (member : (space, label) ∈ serializer.labels root) :
      ∃ before, Chosen serializer (needsLabel root space) before space label := by
    obtain ⟨before, after, whole⟩ := List.append_of_mem member
    exact ⟨before, inTurn before space label after whole⟩
  refine ⟨fun space => ?_, once, inTurn.nodup, fun entry member => ?_, fun space member => ?_,
    inTurn⟩
  · rw [← mem_spaces_iff]
    constructor
    · intro member
      obtain ⟨label, -, isEntry⟩ := @exists_label serializer root space member
      refine ⟨label, isEntry, fun other isOther => ?_⟩
      exact (Prod.mk.inj (List.inj_on_of_nodup_map once isOther isEntry rfl)).2
    · rintro ⟨label, isEntry, -⟩
      rw [← @spaces_labels serializer root]
      exact List.mem_map_of_mem (f := Prod.fst) isEntry
  · obtain ⟨before, chosen⟩ := split member
    exact chosen.ne_xml
  · obtain ⟨before, chosen⟩ := split member
    exact needsLabel_eq_false chosen.may_go_without

/-- A hint looks like a made-up label. The namespace it is for is used last: it finds its label
taken and gets the next number. -/
example : (Serializer.standard.withDeclarations [(some "x", "a"), (some "x", "b"),
      (some "ns0", "c")]).labels
    ⟨⟨some "a", "r"⟩, [], "", [⟨⟨some "b", "s"⟩, [(⟨some "c", "k"⟩, "")], "", [], ""⟩], ""⟩ =
    [("a", some "x"), ("b", some "ns0"), ("c", some "ns1")] := by
  decide +kernel

/-- An element of the namespace of `xml` with an attribute in it. -/
def innate : Element := ⟨.xml "a", [(.xml "id", "1")], "", [], ""⟩

/-- A hint makes the namespace of `xml` the default one, while an attribute uses it. -/
theorem default_with_attribute :
    (xmlSpace, none) ∈ (Serializer.standard.withDeclarations [(none, xmlSpace)]).labels innate ∧
      ∃ element ∈ innate.preorder, ∃ item ∈ element.attributes,
        item.1.space = some xmlSpace := by
  refine ⟨by decide +kernel, innate, by decide +kernel, (.xml "id", "1"), by decide, rfl⟩

end Serializer

end Intertext.Markup
