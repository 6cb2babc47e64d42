import Intertext.Proofs.Compile.Borrowed
import Intertext.Proofs.Compile.Library
/-!
Elements that stay as they are.

An element stays as it is if it is no directive and no note applies to it. The index tells which
elements do: those to which no note of a listed project refers, and instructions that are the best
ones themselves (`untouched_of_unlinked`). A document of nothing else is compiled into the tree that
it is, with its origin on the root (`compile_of_unlinked`).
-/

namespace Intertext.Compile

open Index (Reference Tables)
open Markup (Node Document)
open Markup.Node

variable {library : Library} {nested : Nested} {site : Site} {file : SourceFile}

/-- Whether an element stays as it is: it is no directive, and no note applies to it. -/
structure Untouched (library : Library) (nested : Nested) (site : Site) (node : Node) : Prop where
  noDirective : Role.of node ≠ .directive
  noNote : (annotate library nested site node).result = .ok .nothing ∨
    (annotate library nested site node).result = .ok .keep

/-! ## 1. What the index links -/

/-- Whether nothing is linked to an element of a file: it is no directive, no note of a project that
is listed for annotations refers to it, and if it is an instruction with an identifier, no project
that is listed for instructions defines it or the best definition is the instruction itself. -/
structure Library.Unlinked (library : Library) (file : SourceFile) (node : Node) : Prop where
  noDirective : Role.of node ≠ .directive
  /-- Where there are no tables, there is nothing to ask. -/
  unasked : library.tables = none → node.corresp? = none ∧ node.xmlId? = none
  unannotated : ∀ tables, library.tables = some tables →
    ∀ reference ∈ tables.referencesTo node.corresp? (node.xmlId?.map (·, file)),
      reference.tag = noteTag → reference.file.project ∉ library.settings.annotations
  unreplaced : ∀ tables urn, library.tables = some tables → Role.of node = .instruction →
    node.corresp? = some urn →
      (∀ mapping ∈ tables.mappingsOf (some urn) none, mapping.tag = some noteTag →
          mapping.file.project ∉ library.settings.instructions) ∨
        ∃ best, Compile.bestInstruction? tables library.settings.instructions urn = some best ∧
          best.file = file ∧ best.path = some node.path

/-- No note refers to an element if those that do are of projects that are not listed. -/
theorem noteReferences_eq_nil {tables : Tables} {annotations : List String} {node : Node} :
    noteReferences tables annotations file node = [] ↔
      ∀ reference ∈ tables.referencesTo node.corresp? (node.xmlId?.map (·, file)),
        reference.tag = noteTag → reference.file.project ∉ annotations := by
  rw [noteReferences, Priority.ranked_eq_nil]
  simp only [List.mem_filter, decide_eq_true_eq, and_imp]
  rfl

/-- There is no best instruction if those that there are are of projects that are not listed. -/
theorem bestInstruction?_eq_none {tables : Tables} {priority : List String} {urn : String} :
    bestInstruction? tables priority urn = none ↔
      ∀ mapping ∈ tables.mappingsOf (some urn) none, mapping.tag = some noteTag →
        mapping.file.project ∉ priority := by
  rw [bestInstruction?, Priority.best?, List.head?_eq_none_iff, Priority.ranked_eq_nil]
  simp only [List.mem_filter, decide_eq_true_eq, and_imp]
  rfl

/-- An element to which nothing is linked stays as it is. -/
theorem untouched_of_unlinked {node : Node} (unlinked : library.Unlinked site.file node) :
    Untouched library nested site node := by
  refine ⟨unlinked.noDirective, ?_⟩
  unfold annotate
  split
  · rename_i urn role defines
    refine Or.inr ?_
    cases inStore : library.tables with
    | none => exact absurd (unlinked.unasked inStore).1 (by simp [defines])
    | some tables =>
      refine Run.bind_eq_ok.mpr ⟨tables, ask_eq_ok.mpr inStore, ?_⟩
      rcases unlinked.unreplaced tables urn inStore role defines with none | ⟨best, isBest, isHere⟩
      · rw [bestInstruction?_eq_none.mpr none]
        rfl
      · rw [isBest]
        dsimp only
        rw [if_pos isHere]
        rfl
  · refine Or.inl ?_
    unfold commentary
    cases inStore : library.tables with
    | none =>
      obtain ⟨noUrn, noId⟩ := unlinked.unasked inStore
      rw [noUrn, noId]
      rfl
    | some tables =>
      split
      · rfl
      · refine Run.bind_eq_ok.mpr ⟨tables, ask_eq_ok.mpr inStore, ?_⟩
        rw [noteReferences_eq_nil.mpr (unlinked.unannotated tables inStore)]
        rfl

/-- An index without rows has no references. -/
theorem referencesTo_empty (urn : Option String) (fragment : Option (String × SourceFile)) :
    Tables.empty.referencesTo urn fragment = [] := by
  have none (p : Reference → Bool) : Tables.empty.referencesWhere p = [] := by
    simp [Tables.referencesWhere, Tables.empty]
  cases urn <;> cases fragment <;> simp [Tables.referencesTo, Tables.addNew, none]

/-- Where the index has no rows, every element but a directive stays as it is. -/
theorem untouched_of_empty (tables : library.tables = some .empty) {node : Node}
    (noDirective : Role.of node ≠ .directive) : Untouched library nested site node := by
  refine untouched_of_unlinked ⟨noDirective, fun none => ?_, fun rows inStore => ?_,
    fun rows urn inStore _ _ => Or.inl ?_⟩
  · cases tables.symm.trans none
  · cases tables.symm.trans inStore
    simp [referencesTo_empty]
  · cases tables.symm.trans inStore
    simp [Tables.mappingsOf, Tables.empty]

/-! ## 2. Copies -/

mutual

/-- The copy of a tree of elements that stay as they are is the tree. -/
theorem copy_of_untouched : ∀ {node : Node},
    (∀ inner ∈ node.preorder, Untouched library nested site inner) →
      (copy library nested site node).result = .ok { node.toElement with tail := "" }
  | ⟨own, path, name, attributes, text, children, tail⟩, untouched => by
    obtain ⟨noDirective, noNote⟩ := untouched _ (mem_preorder_self _)
    have below : (copyForest library nested site children).result = .ok (toElements children) :=
      copyForest_of_untouched fun inner member => untouched inner (List.mem_cons_of_mem _ member)
    rcases noNote with found | found
    · exact copyStep_iff.mpr (.copied noDirective found (by simp) below)
    · exact copyStep_iff.mpr (.copied noDirective found (by simp) below)

theorem copyForest_of_untouched : ∀ {nodes : List Node},
    (∀ inner ∈ forestPreorder nodes, Untouched library nested site inner) →
      (copyForest library nested site nodes).result = .ok (toElements nodes)
  | [], _ => rfl
  | ⟨own, path, name, attributes, text, children, tail⟩ :: rest, untouched => by
    refine copyForest_cons_iff.mpr ⟨_, _,
      copy_of_untouched fun inner member => untouched inner (List.mem_append_left _ member),
      copyForest_of_untouched fun inner member => untouched inner (List.mem_append_right _ member),
      rfl⟩

end

/-! ## 3. Documents -/

/-- Without a tail there is none to lose. -/
theorem toElement_of_tailless {node : Node} (tailless : node.tail = "") :
    { node.toElement with tail := "" } = node.toElement := by
  obtain ⟨own, path, name, attributes, text, children, tail⟩ := node
  cases tailless
  rfl

/-- A document to which nothing is linked is compiled into the tree that it is, with its origin on
the root, whatever else there is in the library. -/
theorem compile_of_unlinked {document : Document} {text : String}
    (parsed : Document.parse text = .ok document) (reads : library.document file = .ok document)
    (deep : 0 < library.settings.maxDepth)
    (unlinked : ∀ node ∈ document.nodes, library.Unlinked file node) :
    (compile library file).result = .ok (stampOrigin document.root.toElement file) := by
  obtain ⟨frames, deep⟩ := Nat.exists_eq_add_one_of_ne_zero (Nat.ne_of_gt deep)
  unfold compile
  rw [deep]
  refine copy_level_eq_ok.mpr ⟨document, document.root.toElement, reads, ?_, rfl⟩
  have copied : (copy library (levels library frames) ⟨file, document⟩ document.root).result =
      .ok { document.root.toElement with tail := "" } :=
    copy_of_untouched fun inner member => untouched_of_unlinked (unlinked inner member)
  rwa [toElement_of_tailless (Document.root_tail_of_parse parsed)] at copied

/-- A document with an identifier, a name and an instruction. -/
def settled : Document where
  root := ⟨0, "/r", .tei "r", [(.plain "corresp", "urn:x-opensiddur:r")], "A",
    [⟨1, "/r/note[1]", .tei "note",
        [(.plain "type", "instruction"), (.plain "corresp", "urn:x-opensiddur:i")],
        "Rise.", [], "B"⟩,
     ⟨2, "/r/p[1]", .tei "p", [(.xml "id", "p")], "C", [], "D"⟩], ""⟩
  namespaces := [(none, "http://www.tei-c.org/ns/1.0")]

/-- The file of that document. -/
def settledFile : SourceFile := ⟨"A", "a.xml"⟩

/-- The document's definitions, and a project that is not listed: it has an instruction, too, and a
note on the document. -/
def settledRows : Tables where
  mappings :=
    [⟨⟨"urn:x-opensiddur:i", settledFile, some "/r/note[1]", some noteTag, some "instruction"⟩, 0⟩,
     ⟨⟨"urn:x-opensiddur:i", ⟨"B", "b.xml"⟩, some "/note", some noteTag, some "instruction"⟩, 0⟩]
  references :=
    [⟨⟨"/note", noteTag, none, "urn:x-opensiddur:r", "urn:x-opensiddur:r", false, none,
      ⟨"B", "b.xml"⟩⟩, 0⟩]
  ledger := []

/-- A library with the document where only its own project is listed. -/
def settles : Library :=
  ⟨⟨["A"], ["A"], ["A"], 1⟩, some settledRows, fun _ => .ok settled⟩

/-- The instruction is the best one, and the note is of a project that is not asked. -/
theorem compile_settled : (compile settles settledFile).result =
    .ok (stampOrigin settled.root.toElement settledFile) := by
  have parsed : Document.parse
      ("<r xmlns=\"http://www.tei-c.org/ns/1.0\" corresp=\"urn:x-opensiddur:r\">A" ++
        "<note type=\"instruction\" corresp=\"urn:x-opensiddur:i\">Rise.</note>B" ++
        "<p xml:id=\"p\">C</p>D</r>") = .ok settled := by
    cbv
  have unannotated : ∀ node ∈ settled.nodes,
      ∀ reference ∈ settledRows.referencesTo node.corresp? (node.xmlId?.map (·, settledFile)),
        reference.tag = noteTag → reference.file.project ∉ ["A"] := by
    decide +kernel
  have preferred : bestInstruction? settledRows ["A"] "urn:x-opensiddur:i" =
      some ⟨"urn:x-opensiddur:i", settledFile, some "/r/note[1]", some noteTag,
        some "instruction"⟩ := by
    have inOrder : settledRows.mappingsOf (some "urn:x-opensiddur:i") none =
        settledRows.mappings.map (·.row) :=
      List.mergeSort_of_pairwise (by decide)
    rw [bestInstruction?, inOrder]
    decide +kernel
  have instructions : ∀ node ∈ settled.nodes, Role.of node = .instruction →
      node.corresp? = some "urn:x-opensiddur:i" ∧ node.path = "/r/note[1]" := by
    decide
  have noDirective : ∀ node ∈ settled.nodes, Role.of node ≠ .directive := by
    decide
  refine compile_of_unlinked parsed rfl (by decide) fun node member =>
    ⟨noDirective node member, ?_, ?_, ?_⟩
  · intro none
    cases none
  · intro tables inStore
    cases inStore
    exact unannotated node member
  · intro tables urn inStore role defines
    cases inStore
    obtain ⟨isUrn, isPath⟩ := instructions node member role
    cases isUrn.symm.trans defines
    exact Or.inr ⟨_, preferred, rfl, isPath ▸ rfl⟩

end Intertext.Compile
