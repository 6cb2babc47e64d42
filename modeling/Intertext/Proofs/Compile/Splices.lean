import Intertext.Proofs.Compile.Language
import Intertext.Proofs.Compile.OneElement
import Intertext.Proofs.Compile.Provenance
/-!
What is spliced in.

A directive is replaced by a wrapper of what its target bounds, and an instruction may be by a note
of another project (`Replacement`). What replaces a node gets a stamp if its language is another one
than the node has. The language of the node may be one that the node declares itself, and then it is
gone with the node. So what needs a stamp reads in its language, wherever the language around the
node is spoken, exactly if the node is not masked (`replacement_speaks_iff`).
-/

namespace Intertext.Compile

open Markup (Element Name Node Document)

/-! ## 1. What replaces a node -/

/-- Whether what replaces a node has a language that it needs a stamp for: the content that a
directive points at, or the note that takes the place of an instruction, if the note does not
declare its language itself. -/
inductive Replaces (library : Library) (site : Site) (node : Node) : String → Prop where
  | directive {start lang : String} {target : Target} {source : Document}
    (role : Role.of node = .directive) (given : node.value? (.plain "target") = some start)
    (located : (Target.locate library site.file start (node.value? (.plain "targetEnd"))).result =
      .ok target)
    (reads : library.document target.file = .ok source)
    (speaks : langAt? source target.start = some lang) :
    Replaces library site node lang
  | instruction {lang : String} {file : SourceFile} {source : Document} {found : Node}
    (supplants : Supplants library site node file source found) (silent : found.ownLang? = none)
    (speaks : source.lang? found.id = some lang) :
    Replaces library site node lang

/-- What takes the place of a node: the wrapper of what a directive points at, or a note. -/
inductive Replacement (library : Library) (nested : Nested) (site : Site) (node : Node) :
    Element → Prop where
  | directive {extraction : Extraction} {element : Element} (role : Role.of node = .directive)
    (found : (transclude library nested site node extraction).result = .ok element) :
    Replacement library nested site node element
  | instruction {note : Element}
    (found : (annotate library nested site node).result = .ok (.replace note)) :
    Replacement library nested site node note

/-- Whether an element took the place of a masked node. -/
def ReplacesMasked (library : Library) (element : Element) : Prop :=
  ∃ frames file document node own tail, library.document file = .ok document ∧
    node ∈ document.nodes ∧ Replaces library ⟨file, document⟩ node own ∧
    Masked document node own ∧
    Replacement library (levels library frames) ⟨file, document⟩ node { element with tail }

/-- Whether an element is a wrapper whose target, seen from some file, bounds more than one
element. -/
def QuotesRange (library : Library) (element : Element) : Prop :=
  ∃ outer start target source bounds, element.name = .processing "transclude" ∧
    element.value? (.plain "target") = some start ∧
    (Target.locate library outer start (element.value? (.plain "targetEnd"))).result = .ok target ∧
    library.document target.file = .ok source ∧
    Bounds.locate source target.start target.stop = .ok bounds ∧ ¬bounds.IsElement source

/-! ## 2. What gets its stamp -/

/-- What a wrapper is before it gets its stamps. -/
structure IsWrapper (start : String) (stop : Option String) (element : Element) : Prop where
  made : Made element
  name : element.name = .processing "transclude"
  target : element.value? (.plain "target") = some start
  targetEnd : element.value? (.plain "targetEnd") = stop
  unstamped : origin? element = none
  silent : element.ownLang? = none

theorem isWrapper_of_filled {nested : Nested} {target : Target} {extraction : Extraction}
    {start : String} {stop : Option String} {found : Element}
    (fills : (filled nested target extraction (wrapper start stop extraction)).result = .ok found) :
    IsWrapper start stop found := by
  obtain ⟨name, attributes⟩ := tag_filled fills
  obtain ⟨made, unstamped⟩ := made_wrapper start stop extraction
  obtain ⟨isStart, isStop⟩ := target_wrapper start stop extraction
  have same := SameTag.of_attributes name attributes
  exact {
    made := made.congr name attributes
    name := name.trans (name_wrapper ..)
    target := (same.values _ (by decide)).trans isStart
    targetEnd := (same.values _ (by decide)).trans isStop
    unstamped := (origin?_congr attributes).trans unstamped
    silent := (ownLang?_congr attributes).trans (ownLang?_wrapper ..) }

/-- What takes the place of a node and needs a stamp speaks its language wherever the language
around the node is spoken, exactly if the node is not masked. -/
theorem replacement_speaks_iff {library : Library} {file : SourceFile} {document : Document}
    {node : Node} {element : Element} {lang : String} {frames : Nat} (parsed : library.Parsed)
    (synced : library.Synced) (reads : library.document file = .ok document)
    (isNode : node ∈ document.nodes) (replaces : Replaces library ⟨file, document⟩ node lang)
    (replacement : Replacement library (levels library frames) ⟨file, document⟩ node element) :
    (∀ spoken, Speaks spoken (document.langAround? node.id) →
      (element.ownLang? <|> spoken) = some lang) ↔ ¬Masked document node lang := by
  have ordered := parsed.ordered reads
  cases replacement with
  | directive role found =>
    obtain ⟨start, target, found, source, given, located, fills, readsSource, rfl⟩ :=
      transclude_eq_ok found
    cases replaces with
    | directive _ given' located' readsSource' speaks =>
      cases given.symm.trans given'
      cases located.symm.trans located'
      cases readsSource.symm.trans readsSource'
      rw [speaks]
      refine stampLang_speaks_iff ordered isNode ?_
      rw [ownLang?_stampForeign, (isWrapper_of_filled fills).silent]
    | instruction supplants _ _ => exact absurd (role.symm.trans supplants.role) (by decide)
  | instruction replaced =>
    obtain ⟨home, source, found, copied, supplants, copies, rfl⟩ := supplants_of_replace replaced
    cases replaces with
    | directive role _ _ _ _ => exact absurd (role.symm.trans supplants.role) (by decide)
    | instruction supplants' silent speaks =>
      obtain ⟨rfl, rfl, rfl⟩ := supplants'.unique supplants
      obtain ⟨path, row, isThere⟩ := supplants.row
      obtain ⟨root, rfl, -, shows⟩ := (outputs_levels parsed frames).copy _ _ _ _ _
        supplants.reads (List.mem_reverse.mp (List.mem_of_find?_eq_some isThere)) copies
      have attributes := (shows (role_of_noteRow parsed synced row supplants.reads
        isThere)).attributes
      rw [speaks]
      refine stampLang_speaks_iff ordered isNode ?_
      rw [ownLang?_stampForeign, ownLang?_of_node attributes]
      exact silent

end Intertext.Compile
