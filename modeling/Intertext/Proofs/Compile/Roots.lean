import Intertext.Proofs.Compile.Provenance
/-!
Roots whose content comes from another file.

A directive is replaced by a wrapper, and an instruction by a note, that names the file its content
comes from if that is not the file of the node (`SplicedFrom.of_copy`). At the root of a compiled
document there is no frame around, so the root is stamped once more, with the compiled file
(`compile_eq_ok`). The second stamp takes the place of the first: where the root is spliced, it
names the right file exactly if the content comes from the compiled file itself
(`root_origin_of_compile`). What stands in the root is from the file that the first stamp named.
-/

namespace Intertext.Compile

open Markup (Element Node Document)
open Markup.Node (mem_preorder_self)

variable {library : Library} {nested : Nested} {file source : SourceFile} {document : Document}
  {node : Node} {element : Element}

/-! ## 1. Spliced nodes -/

/-- Whether what takes the place of a node is content of a file: the node is a directive that points
into the file, or an instruction that a note in the file takes the place of. -/
inductive SplicedFrom (library : Library) (site : Site) (node : Node) : SourceFile → Prop where
  | directive {start : String} {target : Target} (role : Role.of node = .directive)
    (given : node.value? (.plain "target") = some start)
    (located : (Target.locate library site.file start (node.value? (.plain "targetEnd"))).result =
      .ok target) : SplicedFrom library site node target.file
  | instruction {file : SourceFile} {source : Document} {found : Node}
    (supplants : Supplants library site node file source found) :
    SplicedFrom library site node file

/-- An instruction that a note takes the place of does not stay. -/
theorem Supplants.replaced {site : Site} {document : Document} {found : Node} {applied : Annotation}
    (supplants : Supplants library site node file document found)
    (h : (annotate library nested site node).result = .ok applied) :
    ∃ note, applied = .replace note := by
  obtain ⟨urn, tables, best, path, named, -⟩ := supplants.isBest
  rw [annotate, supplants.role, named] at h
  obtain ⟨-, none⟩ | ⟨file', source, found', copied, -, -, same⟩ :=
    instruction_cases supplants.role named h
  · exact absurd supplants (none _ _ _)
  · exact ⟨_, same⟩

/-- What replaces a directive names the file that it points into, unless it is the directive's. -/
theorem origin_of_transclude {extraction : Extraction}
    (h : (transclude library nested ⟨file, document⟩ node extraction).result = .ok element) :
    ∃ start target, node.value? (.plain "target") = some start ∧
      (Target.locate library file start (node.value? (.plain "targetEnd"))).result = .ok target ∧
      (origin? element).getD file = target.file := by
  obtain ⟨start, target, found, read, given, located, fills, -, rfl⟩ := transclude_eq_ok h
  refine ⟨start, target, given, located, ?_⟩
  have blank : origin? found = none :=
    (origin?_congr (tag_filled fills).2).trans (made_wrapper ..).2
  rw [origin?_stampLang, getD_origin?_stampForeign blank]

/-- What takes the place of an instruction names the file of the note, unless it is the
instruction's. -/
theorem origin_of_replace (pristine : library.Pristine) {frames : Nat}
    (h : (annotate library (levels library frames) ⟨file, document⟩ node).result =
      .ok (.replace element)) :
    ∃ home source found, Supplants library ⟨file, document⟩ node home source found ∧
      (origin? element).getD file = home := by
  obtain ⟨home, source, found, copied, supplants, copies, rfl⟩ := supplants_of_replace h
  refine ⟨home, source, found, supplants, ?_⟩
  obtain ⟨path, row, isThere⟩ := supplants.row
  have isNode : found ∈ source.nodes :=
    List.mem_reverse.mp (List.mem_of_find?_eq_some isThere)
  have noDirective : Role.of found ≠ .directive :=
    role_of_noteRow pristine.parsed pristine.synced row supplants.reads isThere
  rw [origin?_stampLang]
  exact ((sourcing_levels pristine frames).copy _ _ _ _ _ supplants.reads isNode noDirective
    copies).2

/-- Wherever a spliced node is copied, the copy names the file that its content comes from, unless
it is the node's own. -/
theorem SplicedFrom.of_copy (pristine : library.Pristine) {frames : Nat}
    (spliced : SplicedFrom library ⟨file, document⟩ node source)
    (h : (copy library (levels library frames) ⟨file, document⟩ node).result = .ok element) :
    (origin? element).getD file = source := by
  cases copyStep_iff.mp h with
  | directive role found =>
    obtain ⟨start, target, given, located, origin⟩ := origin_of_transclude found
    cases spliced with
    | directive _ given' located' =>
      cases given.symm.trans given'
      cases located.symm.trans located'
      exact origin
    | instruction supplants => exact absurd (role.symm.trans supplants.role) (by decide)
  | replaced role found =>
    obtain ⟨home, document', inner, supplants, origin⟩ := origin_of_replace pristine found
    cases spliced with
    | directive isDirective => exact absurd isDirective role
    | instruction supplants' => exact origin.trans (supplants.unique supplants').1
  | copied role found kept below =>
    cases spliced with
    | directive isDirective => exact absurd isDirective role
    | instruction supplants =>
      obtain ⟨note, isNote⟩ := supplants.replaced found
      exact absurd isNote (kept note)

/-! ## 2. Spliced roots -/

/-- *The root of a compiled tree names the compiled file, wherever its content comes from.* If the
root of a document is spliced, the root of the compiled tree names the right file exactly if the
content comes from the compiled file itself. What the walk puts at the root names the right file,
and so does everything in it; the stamp for the compiled file is set over it. -/
theorem root_origin_of_compile (pristine : library.Pristine)
    (reads : library.document file = .ok document)
    (spliced : SplicedFrom library ⟨file, document⟩ document.root source) {tree : Element}
    (ran : (compile library file).result = .ok tree) :
    origin? tree = some file ∧ (origin? tree = some source ↔ source = file) ∧
      (∀ child ∈ tree.children, Sourced library source child) ∧
      ∃ frames root,
        (copy library (levels library frames) ⟨file, document⟩ document.root).result = .ok root ∧
        (origin? root).getD file = source ∧ tree = stampOrigin root file := by
  obtain ⟨frames, document', root, -, reads', copied, rfl⟩ := compile_eq_ok.mp ran
  cases reads.symm.trans reads'
  -- what the walk gives still names the right file; `stampOrigin` is what takes the name away
  have named : (origin? root).getD file = source := spliced.of_copy pristine copied
  have output : Output library file root :=
    output_of_copy (outputs_levels pristine.parsed frames) reads (mem_preorder_self _) copied
  refine ⟨origin?_stampOrigin .., ?_, ?_, frames, root, copied, named, rfl⟩
  · rw [origin?_stampOrigin, Option.some.injEq, eq_comm]
  · exact named ▸ (output.sourced pristine).children

/-- A document that is nothing but a quotation. -/
def excerpt : Document where
  root := ⟨0, "/j:transclude", .link "transclude", [(.plain "target", "urn:x-opensiddur:b")], "",
    [], ""⟩
  namespaces := [(some "j", "http://jewishliturgy.org/ns/jlptei/2")]

/-- The file of that document. -/
def excerptFile : SourceFile := ⟨"A", "a.xml"⟩

/-- A library of the document and of the one it quotes. -/
def excerpts : Library :=
  { quotes with document := fun file => if file = quotedFile then .ok quoted else .ok excerpt }

theorem excerpts_document {file : SourceFile} {document : Document}
    (reads : excerpts.document file = .ok document) : document = quoted ∨ document = excerpt := by
  simp only [excerpts] at reads
  split at reads
  · cases reads
    exact Or.inl rfl
  · cases reads
    exact Or.inr rfl

theorem excerpts_pristine : excerpts.Pristine where
  parsed file document reads := by
    have excerpt_parse : Document.parse ("<j:transclude " ++
        "xmlns:j=\"http://jewishliturgy.org/ns/jlptei/2\" target=\"urn:x-opensiddur:b\"/>") =
          .ok excerpt := by
      cbv
    obtain rfl | rfl := excerpts_document reads
    · exact ⟨_, quoted_parse⟩
    · exact ⟨_, excerpt_parse⟩
  synced tables found := by
    cases found
    exact quotedRows_synced
  unstamped file document reads := by
    obtain rfl | rfl := excerpts_document reads
    · decide
    · decide

/-- The document quotes the other one. -/
theorem excerpt_spliced :
    SplicedFrom excerpts ⟨excerptFile, excerpt⟩ excerpt.root quotedFile := by
  have located : (Target.locate excerpts excerptFile "urn:x-opensiddur:b" none).result =
      .ok ⟨quotedFile, "urn:x-opensiddur:b", "urn:x-opensiddur:b"⟩ := by
    decide +kernel
  exact SplicedFrom.directive (show Role.of excerpt.root = .directive by decide) rfl located

/-- Compiled, the quotation says that it is from the file that quotes. -/
theorem excerpt_misnamed : ∃ tree, excerpts.Pristine ∧
    SplicedFrom excerpts ⟨excerptFile, excerpt⟩ excerpt.root quotedFile ∧
    (compile excerpts excerptFile).result = .ok tree ∧
    origin? tree = some excerptFile ∧ excerptFile ≠ quotedFile := by
  have named : (compile excerpts excerptFile).result.map origin? = .ok (some excerptFile) := by
    decide +kernel
  obtain ⟨tree, ran, isNamed⟩ := Outcome.map_eq_ok.mp named
  exact ⟨tree, excerpts_pristine, excerpt_spliced, ran, isNamed, by decide⟩

/-- What the quotation holds is from the file that is quoted. -/
theorem excerpt_holds : ∃ tree child, (compile excerpts excerptFile).result = .ok tree ∧
    tree.children = [child] ∧ child.text = "B" ∧ Sourced excerpts quotedFile child ∧
    origin? tree ≠ some quotedFile := by
  have shown : (compile excerpts excerptFile).result.map
      (fun tree => tree.children.map (·.text)) = .ok ["B"] := by
    decide +kernel
  obtain ⟨tree, ran, texts⟩ := Outcome.map_eq_ok.mp shown
  obtain ⟨child, children, text⟩ := List.map_eq_singleton_iff.mp texts
  have reads : excerpts.document excerptFile = .ok excerpt := rfl
  obtain ⟨-, misnamed, sourced, -⟩ :=
    root_origin_of_compile excerpts_pristine reads excerpt_spliced ran
  exact ⟨tree, child, ran, children, text, sourced child (children ▸ List.mem_singleton_self _),
    fun named => absurd (misnamed.mp named) (by decide)⟩

end Intertext.Compile
