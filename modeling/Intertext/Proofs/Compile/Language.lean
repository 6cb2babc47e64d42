import Intertext.Proofs.Compile.Bounds
import Intertext.Proofs.Compile.Parts
/-!
The language in scope.

At a node of a document that language is in scope which the node declares, or else the one around it
(`lang?_eq`); around a child it is the one at its parent (`langAround?_child`). In an output tree it
is the language of the nearest element that declares one, so an element that is put somewhere speaks
the language it declares, or else the one spoken there. `Speaks` says that this is right where there
is something to be right about: what has no language may be read in any.

A stamp compares the language of content with the one at the node that the content replaces, and
declares it where they differ. Whether this makes the content speak its language depends on what is
spoken where it lands (`speaks_stampLang`). What the node itself declares is not spoken there, since
the node is gone: at a node that is *masked* the stamp is left out although it is needed
(`stampLang_speaks_iff`).
-/

namespace Intertext.Markup

/-- The language that an element declares. -/
def Element.ownLang? (element : Element) : Option String := element.value? (.xml "lang")

namespace Document

open Node

/-- The language in scope around a node, whatever the node itself declares. -/
def langAround? (document : Document) (id : Nat) : Option String :=
  (document.ancestors id).findSome? (·.ownLang?)

variable {document : Document} {node child : Node}

/-- The language at a node is the one it declares, or else the one around it. -/
theorem lang?_eq (ordered : document.Ordered) (isNode : node ∈ document.nodes) :
    document.lang? node.id = (node.ownLang? <|> document.langAround? node.id) := by
  have inside : node.id ∈ document.root.ids := (ids_sublist isNode).subset node.id_mem_ids
  obtain ⟨own, spine, isOwn, same⟩ := spine_eq_cons inside ordered
  cases Node.Ordered.eq_of_id_eq ordered isOwn isNode same
  rw [lang?, spine, List.findSome?_cons, langAround?]
  cases node.ownLang? <;> rfl

/-- The language around a child is the one at its parent. -/
theorem langAround?_child (ordered : document.Ordered) (isNode : node ∈ document.nodes)
    (isChild : child ∈ node.children) : document.langAround? child.id = document.lang? node.id := by
  rw [langAround?, ancestors_child ordered isNode isChild]
  rfl

/-- Around the root no language is in scope. -/
theorem langAround?_root (ordered : document.Ordered) :
    document.langAround? document.root.id = none := by
  have none : document.ancestors document.root.id = [] := by
    refine List.eq_nil_iff_forall_not_mem.mpr fun outer isOuter => ?_
    obtain ⟨isNode, below⟩ := (mem_ancestors ordered).mp isOuter
    have later := (Node.Ordered.of_mem ordered isNode).lt_of_mem below
    have earlier := Node.Ordered.le_of_mem ordered ((ids_sublist isNode).subset outer.id_mem_ids)
    exact absurd later (Nat.not_lt.mpr earlier)
  rw [langAround?, none]
  rfl

end Document

end Intertext.Markup

namespace Intertext.Compile

open Markup (Document Element Name Node)

/-! ## 1. Speaking a language -/

/-- Whether what has the language `lang` reads in it where `spoken` is in scope. -/
def Speaks (spoken lang : Option String) : Prop := ∀ own, lang = some own → spoken = some own

theorem Speaks.refl (lang : Option String) : Speaks lang lang := fun _ same => same

theorem Speaks.trans {spoken between lang : Option String} (first : Speaks spoken between)
    (second : Speaks between lang) : Speaks spoken lang :=
  fun own same => first own (second own same)

/-- What the language changes to is spoken as what the node declares is. -/
theorem changedLang?_or {spoken lang : Option String} (node : Node) (speaks : Speaks spoken lang) :
    (changedLang? node lang <|> spoken) = (node.ownLang? <|> spoken) := by
  unfold changedLang?
  cases node.ownLang? with
  | none => rfl
  | some own =>
    by_cases same : some own = lang
    · rw [speaks own same.symm]
      simp [Option.filter, same]
    · simp [Option.filter, same]

/-- What an element declares is spoken in it whatever is spoken around it. -/
theorem Speaks.declared (own : Option String) {spoken around : Option String}
    (speaks : Speaks spoken around) : Speaks (own <|> spoken) (own <|> around) := by
  cases own with
  | none => exact speaks
  | some lang => exact .refl _

/-- What declares no other language than it has speaks it if it is spoken around it. -/
theorem Speaks.of_declares {own spoken lang : Option String}
    (declares : ∀ declared, own = some declared → lang = some declared)
    (speaks : own = none → Speaks spoken lang) : Speaks (own <|> spoken) lang := by
  cases own with
  | none => exact speaks rfl
  | some declared =>
    rw [declares declared rfl]
    exact .refl _

/-! ## 2. Stamps -/

variable {element : Element} {source inScope spoken : Option String}

theorem ownLang?_setValue (element : Element) (lang : String) :
    (element.setValue (.xml "lang") lang).ownLang? = some lang := value?_setValue ..

theorem ownLang?_congr {other : Element} (attributes : other.attributes = element.attributes) :
    other.ownLang? = element.ownLang? := value?_congr attributes _

theorem ownLang?_of_node {node : Node} (attributes : element.attributes = node.attributes) :
    element.ownLang? = node.ownLang? := value?_of_node attributes _

/-- A stamp that names a file declares no language. -/
theorem ownLang?_stampOrigin (element : Element) (file : SourceFile) :
    (stampOrigin element file).ownLang? = element.ownLang? := by
  rw [Element.ownLang?, stampOrigin, value?_setValue_of_ne _ _ (by decide),
    value?_setValue_of_ne _ _ (by decide)]
  rfl

theorem ownLang?_stampForeign (element : Element) (home : Option SourceFile) (file : SourceFile) :
    (stampForeign element home file).ownLang? = element.ownLang? := by
  unfold stampForeign
  split
  · rfl
  · exact ownLang?_stampOrigin element file

/-- A wrapper declares no language before it is stamped. -/
theorem ownLang?_wrapper (target : String) (targetEnd : Option String) (extraction : Extraction) :
    (wrapper target targetEnd extraction).ownLang? = none := by
  unfold wrapper
  cases targetEnd <;> rfl

theorem ownLang?_container (lang : Option String) : (container lang).ownLang? = lang := by
  cases lang with
  | none => rfl
  | some lang => exact ownLang?_setValue _ lang

/-- Content declares its language or leaves it alone, as the stamp says. -/
theorem ownLang?_stampLang (element : Element) (source inScope : Option String) :
    (stampLang element source inScope).ownLang? =
      if source = inScope then element.ownLang? else (source <|> element.ownLang?) := by
  unfold stampLang
  cases source with
  | none => exact (ite_self _).symm
  | some lang =>
    dsimp only
    split
    · rfl
    · exact ownLang?_setValue _ lang

/-- Stamped content speaks its language if it does so without a stamp, wherever the stamp is left
out. -/
theorem speaks_stampLang
    (unstamped : source = inScope → Speaks (element.ownLang? <|> spoken) source) :
    Speaks ((stampLang element source inScope).ownLang? <|> spoken) source := by
  rw [ownLang?_stampLang]
  split
  · rename_i same
    exact unstamped same
  · intro lang same
    rw [same]
    rfl

/-! ## 3. Masked nodes -/

variable {document : Document} {node : Node} {lang : String}

/-- Whether a node declares a language that is not spoken around it. Content in this language that
replaces the node gets no stamp, although it needs one. -/
def Masked (document : Document) (node : Node) (lang : String) : Prop :=
  node.ownLang? = some lang ∧ document.langAround? node.id ≠ some lang

/-- At a node that is not masked, what is spoken around it is right for content that the stamp is
left out for. -/
theorem speaks_around (ordered : document.Ordered) (isNode : node ∈ document.nodes)
    (clear : ∀ lang, source = some lang → ¬Masked document node lang)
    (same : source = document.lang? node.id) :
    Speaks (document.langAround? node.id) source := by
  intro lang isLang
  by_contra other
  have own : node.ownLang? ≠ some lang := fun declares => clear lang isLang ⟨declares, other⟩
  rw [Document.lang?_eq ordered isNode, isLang] at same
  cases declared : node.ownLang? with
  | none =>
    rw [declared] at same
    exact other same.symm
  | some declares =>
    rw [declared] at same own
    exact own same.symm

/-- Content that declares no language itself and replaces a node speaks its language wherever the
language around the node is spoken, exactly if the node is not masked. -/
theorem stampLang_speaks_iff (ordered : document.Ordered) (isNode : node ∈ document.nodes)
    (silent : element.ownLang? = none) :
    (∀ spoken, Speaks spoken (document.langAround? node.id) →
      ((stampLang element (some lang) (document.lang? node.id)).ownLang? <|> spoken) = some lang) ↔
      ¬Masked document node lang := by
  constructor
  · rintro all ⟨own, other⟩
    have atNode : document.lang? node.id = some lang := by
      rw [Document.lang?_eq ordered isNode, own]
      rfl
    have wrong := all _ (.refl (document.langAround? node.id))
    rw [ownLang?_stampLang, if_pos atNode.symm, silent] at wrong
    exact other wrong
  · intro clear spoken around
    refine speaks_stampLang (fun same => ?_) lang rfl
    rw [silent]
    refine around.trans (speaks_around ordered isNode (fun other isLang => ?_) same)
    cases isLang
    exact clear

end Intertext.Compile
