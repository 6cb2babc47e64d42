import Intertext.Proofs.Markup.Everywhere
import Intertext.Proofs.Markup.Tags
/-!
What reading lets through.

Local parts may hold almost anything, and attributes that are written with different labels may turn
out to have one name. But what is read as an attribute is never a declaration, a namespace is never
the empty text, and the namespace of declarations is left to declarations as far as attributes are
concerned (`Document.admitted_of_parse`); only an element can be in it, through the label `xmlns` or
as the default. The label `xmlns` is never among the declarations of a document
(`Document.label_ne_xmlns_of_parse`).
-/

namespace Intertext.Markup

open Outcome (bind_eq_ok mapError_eq_ok)

/-! ## 1. Scopes

Names get their namespaces from the scope of their element. What keeps an attribute from being taken
for a declaration is that no usual label can stand for the namespace of declarations: a declaration
that would make one do so is refused, and the scope outside has none. -/

/-- The label of a written name and its local part make up the name. -/
theorem Tag.splitLabel_eq (name : List Char) :
    match splitLabel name with
    | (none, part) => name = part
    | (some label, part) => name = label ++ ':' :: part := by
  have parts := List.takeWhile_append_dropWhile (p := (· != ':')) (l := name)
  have first := List.head?_dropWhile_not (· != ':') name
  unfold splitLabel
  cases found : name.dropWhile (· != ':') with
  | nil => rfl
  | cons colon part =>
    rw [found] at parts first
    have isColon : colon = ':' := by simpa using first
    rw [isColon] at parts
    exact parts.symm

namespace Scope

/-- Whether no label but `xmlns` and the default declaration names the namespace of declarations. -/
def Reserves (scope : Scope) : Prop :=
  ∀ binding ∈ scope, binding.space = xmlnsSpace → binding.label = "" ∨ binding.label = "xmlns"

/-- Outside all elements only `xmlns` names the namespace of declarations. -/
theorem reserves_initial : Reserves initial := by
  intro binding member inSpace
  simp only [initial, List.mem_cons, List.not_mem_nil, or_false] at member
  rcases member with rfl | rfl
  · exact Or.inr rfl
  · exact absurd inSpace (by decide)

variable {scope inner : Scope}

/-- A further binding keeps this, if it does not name the namespace or is one of the two. -/
theorem Reserves.cons (reserves : scope.Reserves) {label space : String}
    (allowed : space = xmlnsSpace → label = "" ∨ label = "xmlns") :
    Reserves (⟨label, space⟩ :: scope) := by
  intro binding member inSpace
  rcases List.mem_cons.mp member with rfl | member
  · exact allowed inSpace
  · exact reserves binding member inSpace

/-- A declaration that is let through keeps this. -/
theorem Reserves.declare (reserves : scope.Reserves) {label space : String}
    (h : scope.declare label space = .ok inner) : inner.Reserves := by
  unfold Scope.declare at h
  split at h
  · split at h
    · cases h
      exact reserves
    · cases h
  · split at h
    · cases h
    · split at h
      · cases h
      · split at h
        · cases h
        · rename_i notXmlns
          cases h
          exact reserves.cons fun isXmlns => absurd isXmlns notXmlns

/-- Declarations leave the namespace of declarations alone, and its label. -/
theorem Reserves.declareAll {items : List RawAttribute} (reserves : scope.Reserves)
    (h : scope.declareAll items = .ok inner) :
    inner.Reserves ∧ ∀ item ∈ items, declared? item.key ≠ some (some "xmlns".toList) := by
  induction items generalizing scope with
  | nil =>
    cases h
    exact ⟨reserves, fun item none => by cases none⟩
  | cons item rest ih =>
    rw [Scope.declareAll] at h
    -- An attribute is no declaration, or declares the default namespace, or declares a label.
    cases declares : declared? item.key with
    | none =>
      rw [declares] at h
      obtain ⟨reservesStill, others⟩ := ih reserves h
      refine ⟨reservesStill, List.forall_mem_cons.mpr ⟨?_, others⟩⟩
      rw [declares]
      intro impossible
      cases impossible
    | some label =>
      rw [declares] at h
      cases label with
      | none =>
        obtain ⟨reservesStill, others⟩ := ih (reserves.cons fun _ => Or.inl rfl) h
        refine ⟨reservesStill, List.forall_mem_cons.mpr ⟨?_, others⟩⟩
        rw [declares]
        intro impossible
        cases impossible
      | some label =>
        obtain ⟨between, declared, h⟩ := bind_eq_ok.mp h
        obtain ⟨reservesStill, others⟩ := ih (reserves.declare declared) h
        refine ⟨reservesStill, List.forall_mem_cons.mpr ⟨?_, others⟩⟩
        rw [declares]
        intro isXmlns
        cases isXmlns
        cases declared

/-- A label names a namespace that is not empty, and that of declarations only if it is theirs. -/
theorem Reserves.labelled (reserves : scope.Reserves) {label space : String}
    (h : scope.labelled label = .ok space) :
    space ≠ "" ∧ (space = xmlnsSpace → label = "xmlns") := by
  unfold Scope.labelled at h
  split at h
  · rename_i found isFound
    split at h
    · cases h
    · rename_i usual
      obtain ⟨notDefault, notEmpty⟩ := not_or.mp usual
      cases h
      refine ⟨notEmpty, fun isXmlns => ?_⟩
      obtain ⟨binding, isBinding, rfl⟩ := Option.map_eq_some_iff.mp isFound
      have sameLabel : binding.label = label := by simpa using List.find?_some isBinding
      rw [← sameLabel] at notDefault ⊢
      exact (reserves binding (List.mem_of_find?_eq_some isBinding) isXmlns).resolve_left notDefault
  · cases h

/-- An element has a namespace or none, and never the empty one. -/
theorem space_of_elementName (reserves : scope.Reserves) {written : List Char} {name : Name}
    (h : scope.elementName written = .ok name) : name.space ≠ some "" := by
  unfold elementName at h
  split at h
  · cases h
    intro isEmpty
    have isDefault : scope.default? = some "" := isEmpty
    simp [default?, Option.filter_eq_some_iff] at isDefault
  · obtain ⟨space, labels, h⟩ := bind_eq_ok.mp h
    cases h
    intro isEmpty
    exact (reserves.labelled labels).1 (Option.some.inj isEmpty)

/-- Whether a name can be that of an attribute. -/
structure IsAttributeName (name : Name) : Prop where
  undeclaring : name ≠ .plain "xmlns"
  nonempty : name.space ≠ some ""
  unreserved : name.space ≠ some xmlnsSpace

/-- An attribute that declares nothing has a name that an attribute can have. -/
theorem isAttributeName_of_attributeName (reserves : scope.Reserves) {key : List Char} {name : Name}
    (undeclared : declared? key = none) (h : scope.attributeName key = .ok name) :
    IsAttributeName name := by
  have whole := Tag.splitLabel_eq key
  unfold attributeName at h
  generalize Tag.splitLabel key = parts at whole h
  obtain ⟨label, part⟩ := parts
  cases label with
  | none =>
    cases h
    refine ⟨fun isXmlns => ?_, fun isEmpty => (by cases isEmpty), fun isXmlns => (by cases isXmlns)⟩
    have isPart : String.ofList part = "xmlns" := congrArg Name.part isXmlns
    have isKey : key = "xmlns".toList :=
      whole.trans (String.toList_ofList.symm.trans (congrArg String.toList isPart))
    rw [isKey] at undeclared
    cases undeclared
  | some label =>
    obtain ⟨space, labels, h⟩ := bind_eq_ok.mp h
    cases h
    obtain ⟨nonempty, own⟩ := reserves.labelled labels
    refine ⟨fun isXmlns => (by cases congrArg Name.space isXmlns),
      fun isEmpty => nonempty (Option.some.inj isEmpty), fun isXmlns => ?_⟩
    -- Only `xmlns` stands for the namespace of declarations, and with this label it would be one.
    have isLabel : label = "xmlns".toList :=
      String.toList_ofList.symm.trans (congrArg String.toList (own (Option.some.inj isXmlns)))
    rw [whole, isLabel] at undeclared
    cases undeclared

end Scope

/-! ## 2. Start tags

A tag is read twice: once for its declarations, which does not stop at repeated keys, and once for
its attributes, which does. All that the second reading meets was met by the first. -/

/-- What can be read with some keys taken is read in the same way with none. -/
theorem Tag.nextAttribute_free {taken : List (List Char)} {c : Char} {input rest : List Char}
    {item : RawAttribute} (h : nextAttribute taken c input = .ok (item, rest)) :
    nextAttribute [] c input = .ok (item, rest) := by
  unfold nextAttribute at h ⊢
  simp only at h ⊢
  split at h
  · split at h
    · cases h
    · simpa using h
  · cases h

/-- Refusing repeated keys cuts the attributes of a tag short, if it changes anything. -/
theorem Tag.attributes_isPrefix (taken taken' : List (List Char)) (input : List Char) :
    (attributes true taken input).1 <+: (attributes false taken' input).1 := by
  induction taken, input using Tag.attributes.induct true generalizing taken' with
  | case1 taken input ends =>
    rw [attributes_nil ends]
    exact List.nil_prefix
  | case2 taken input c body starts fault failed =>
    rw [attributes_error starts (by simpa using failed)]
    exact List.nil_prefix
  -- The two readings take the same attribute here, and go on with other keys taken.
  | case3 taken input c body starts item rest read others fault _ ih =>
    have isRead : nextAttribute taken c body = .ok (item, rest) := by simpa using read
    rw [attributes_cons starts (by simpa using isRead),
      attributes_cons starts (by simpa using nextAttribute_free isRead)]
    exact (List.prefix_cons_inj item).mpr (ih _)

/-- What a start tag makes of the state, and what had to be read for it. -/
theorem Reading.enter_parts {state next : Reading} {raw : List Char}
    (h : state.enter raw = .ok next) : ∃ scope name path attributes namespaces,
      state.scope.declareAll (Tag.attributes false [] (Tag.afterName raw)).1 = .ok scope ∧
        Scope.elementName scope (Tag.name raw) = .ok name ∧
        readAttributes scope state.namespaces (Tag.attributes true [] (Tag.afterName raw)).1 =
          .ok (attributes, namespaces) ∧
        (Tag.attributes true [] (Tag.afterName raw)).2 = none ∧
        next = ⟨⟨state.count, path, name, Tag.name raw, attributes, "", [], scope⟩ :: state.stack,
          state.root, state.count + 1, namespaces⟩ := by
  obtain ⟨scope, declared, h⟩ := bind_eq_ok.mp h
  obtain ⟨name, named, h⟩ := bind_eq_ok.mp h
  obtain ⟨⟨attributes, namespaces⟩, read, h⟩ := bind_eq_ok.mp h
  dsimp only at h
  split at h
  · cases h
  · rename_i noFault
    obtain ⟨path, placed, h⟩ := bind_eq_ok.mp h
    cases h
    exact ⟨scope, name, path, attributes, namespaces, mapError_eq_ok.mp declared, named, read,
      noFault, rfl⟩

/-- Recording a namespace brings up no label but its own. -/
theorem label_ne_of_recordNamespace {namespaces : List (Option String × String)}
    {label : Option String} {space : String} {refused : Option String}
    (others : ∀ declaration ∈ namespaces, declaration.1 ≠ refused) (other : label ≠ refused) :
    ∀ declaration ∈ recordNamespace namespaces label space, declaration.1 ≠ refused := by
  unfold recordNamespace
  split
  · exact others
  · intro declaration member
    rcases List.mem_append.mp member with member | member
    · exact others declaration member
    · cases List.mem_singleton.mp member
      exact other

/-- What is read of the attributes of a tag: attributes have names of attributes, and the label
`xmlns` is not declared. -/
theorem admitted_of_readAttributes {scope : Scope} (reserves : scope.Reserves)
    {items : List RawAttribute} {namespaces namespaces' : List (Option String × String)}
    {attributes : Attributes}
    (others : ∀ item ∈ items, Scope.declared? item.key ≠ some (some "xmlns".toList))
    (labels : ∀ declaration ∈ namespaces, declaration.1 ≠ some "xmlns")
    (h : readAttributes scope namespaces items = .ok (attributes, namespaces')) :
    (∀ item ∈ attributes, Scope.IsAttributeName item.1) ∧
      ∀ declaration ∈ namespaces', declaration.1 ≠ some "xmlns" := by
  induction items generalizing namespaces attributes with
  | nil =>
    cases h
    exact ⟨fun item none => (by cases none), labels⟩
  | cons item rest ih =>
    obtain ⟨other, others⟩ := List.forall_mem_cons.mp others
    rw [readAttributes] at h
    cases declares : Scope.declared? item.key with
    -- A declaration is recorded under its label and gives no attribute.
    | some label =>
      rw [declares] at h other
      obtain ⟨space, -, h⟩ := bind_eq_ok.mp h
      refine ih others (label_ne_of_recordNamespace labels fun isXmlns => other ?_) h
      obtain ⟨chars, rfl, isXmlns⟩ := Option.map_eq_some_iff.mp isXmlns
      have isLabel : chars = "xmlns".toList :=
        String.toList_ofList.symm.trans (congrArg String.toList (Option.some.inj isXmlns))
      rw [isLabel]
    | none =>
      rw [declares] at h
      obtain ⟨name, named, h⟩ := bind_eq_ok.mp h
      obtain ⟨value, -, h⟩ := bind_eq_ok.mp h
      obtain ⟨⟨found, after⟩, read, h⟩ := bind_eq_ok.mp h
      cases h
      obtain ⟨names, labels⟩ := ih others labels read
      refine ⟨List.forall_mem_cons.mpr ⟨?_, names⟩, labels⟩
      exact Scope.isAttributeName_of_attributeName reserves declares named

/-! ## 3. Documents

What has been read is right in three places: in the tags of the nodes, in the scopes of the open
elements, and in the list of declarations. Each token changes at most one open element, so this is
kept from the start to the end of the text. -/

/-- Whether names can be those of an element and of its attributes. -/
structure Admitted (name : Name) (attributes : Attributes) : Prop where
  nonempty : name.space ≠ some ""
  attributes : ∀ item ∈ attributes, Scope.IsAttributeName item.1

namespace Reading

/-- The scopes of the open elements, innermost first. -/
def scopes (state : Reading) : List Scope := state.stack.map (·.scope)

/-- Text changes no scope. -/
theorem scopes_addText (state : Reading) (text : String) :
    (state.addText text).scopes = state.scopes := by
  obtain ⟨stack, root, count, namespaces⟩ := state
  cases stack with
  | nil => rfl
  | cons innermost outer =>
    have sameScope : (innermost.pushText text).scope = innermost.scope := by
      unfold OpenElement.pushText
      split <;> rfl
    simp only [scopes, addText, List.map_cons, sameScope]

/-- Leaving an element leaves its scope. -/
theorem scopes_leave (state : Reading) : state.leave.scopes = state.scopes.tail := by
  obtain ⟨stack, root, count, namespaces⟩ := state
  match stack with
  | [] => rfl
  | [last] => rfl
  | innermost :: parent :: outer => rfl

theorem namespaces_addText (state : Reading) (text : String) :
    (state.addText text).namespaces = state.namespaces := by
  unfold addText
  split <;> rfl

theorem namespaces_leave (state : Reading) : state.leave.namespaces = state.namespaces := by
  unfold leave
  split <;> rfl

/-- Whether what has been read so far is what reading lets through. -/
structure Admits (state : Reading) : Prop where
  tags : state.Everywhere fun _ name attributes => Admitted name attributes
  scopes : ∀ scope ∈ state.scopes, scope.Reserves
  labels : ∀ declaration ∈ state.namespaces, declaration.1 ≠ some "xmlns"

theorem admits_start : start.Admits := ⟨everywhere_start, by simp [start, scopes], by simp [start]⟩

/-- Text brings no names. -/
theorem Admits.addText {state : Reading} (admits : state.Admits) (text : String) :
    (state.addText text).Admits where
  tags := admits.tags.addText text
  scopes := by
    rw [scopes_addText]
    exact admits.scopes
  labels := by
    rw [namespaces_addText]
    exact admits.labels

/-- Leaving an element brings no names, and the scopes that are left were right. -/
theorem Admits.leave {state : Reading} (admits : state.Admits) : state.leave.Admits where
  tags := admits.tags.leave
  scopes := by
    rw [scopes_leave]
    exact fun scope member => admits.scopes scope (List.mem_of_mem_tail member)
  labels := by
    rw [namespaces_leave]
    exact admits.labels

/-- The scope in which the next tag is read is right. -/
theorem Admits.scope {state : Reading} (admits : state.Admits) : state.scope.Reserves := by
  have outer := admits.scopes
  unfold Reading.scopes at outer
  unfold Reading.scope
  split
  · exact Scope.reserves_initial
  · rename_i isStack
    rw [isStack] at outer
    exact outer _ List.mem_cons_self

/-- A start tag that is let through brings names that are admitted. -/
theorem Admits.enter {state next : Reading} {raw : List Char} (admits : state.Admits)
    (h : state.enter raw = .ok next) : next.Admits := by
  obtain ⟨scope, name, path, attributes, namespaces, declared, named, read, -, rfl⟩ :=
    enter_parts h
  obtain ⟨reserves, others⟩ := admits.scope.declareAll declared
  have sooner := Tag.attributes_isPrefix [] [] (Tag.afterName raw)
  obtain ⟨names, labels⟩ := admitted_of_readAttributes reserves
    (fun item member => others item (sooner.subset member)) admits.labels read
  have admitted : Admitted name attributes := ⟨Scope.space_of_elementName reserves named, names⟩
  exact ⟨Everywhere.open admits.tags admitted rfl _ _,
    List.forall_mem_cons.mpr ⟨reserves, admits.scopes⟩, labels⟩

/-- A token that is let through keeps what has been read admitted. -/
theorem Admits.step {state next : Reading} {token : Token} (admits : state.Admits)
    (h : state.step token = .ok next) : next.Admits := by
  rcases step_cases h with rfl | ⟨text, rfl⟩ | rfl | ⟨raw, entered⟩ | ⟨raw, opened, entered, rfl⟩
  · exact admits
  · exact admits.addText text
  · exact admits.leave
  · exact admits.enter entered
  · exact (admits.enter entered).leave

end Reading

namespace Document

variable {text : String} {document : Document}

/-- The names in a document are those of elements and of attributes. -/
theorem admitted_of_parse (h : parse text = .ok document) :
    ∀ node ∈ document.nodes, Admitted node.name node.attributes := by
  obtain ⟨state, admits, finished⟩ := parse_induction Reading.admits_start Reading.Admits.step h
  exact admits.tags.finish finished

/-- No document declares the label of declarations. -/
theorem label_ne_xmlns_of_parse (h : parse text = .ok document) :
    ∀ declaration ∈ document.namespaces, declaration.1 ≠ some "xmlns" := by
  obtain ⟨state, admits, finished⟩ := parse_induction Reading.admits_start Reading.Admits.step h
  obtain ⟨-, root, -, rfl⟩ := Reading.finish_eq_ok.mp finished
  exact admits.labels

end Document

end Intertext.Markup
