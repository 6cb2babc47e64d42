import Intertext.Proofs.Compile.Borrowed
import Intertext.Proofs.Compile.Marked
import Intertext.Proofs.Compile.Opening
import Intertext.Proofs.Compile.OwnNames
import Intertext.Proofs.Markup.Addresses
/-!
What an identifier means to the index and to a compilation.

In one document an identifier may be defined more than once. Later definitions win in the index: the
mapping of a scan describes the last element that has the identifier
(`Index.exists_isDefined_of_mem_scan`). A marker names the first one, and directives for the
identifier are replaced by a copy of that one, with what follows it if it is a milestone.
Instructions are replaced by what the path in the index leads to. So the two mean the same element
exactly if no other element has the identifier (`agree_on_element_iff`), as long as the path leads
back to the element that was recorded.
-/

namespace Intertext

namespace Compile

open Markup (Document Element Node)
open Index (IsDefined Mapping isFragment kind? scan)

variable {document : Document} {urn : String} {first last node : Node}

/-! ## 1. One element or several -/

theorem nodes_pairwise (ordered : document.Ordered) :
    document.nodes.Pairwise (fun one other => one.id < other.id) :=
  List.pairwise_map.mp ordered

/-- The first and the last node that have an identifier are one if and only if no other node has
it. -/
theorem eq_iff_of_isMarked (ordered : document.Ordered) (noFragment : isFragment urn = false)
    (marked : IsMarked document urn first) (defined : IsDefined document urn last) :
    last = first ↔ ∀ node ∈ document.nodes, node.corresp? = some urn → node = first := by
  refine ⟨?_, fun alone => alone last defined.mem defined.1⟩
  rintro rfl node isNode named
  obtain ⟨-, before, after, nodes, notBefore⟩ := marked
  obtain ⟨-, before', after', nodes', notAfter⟩ := defined
  have ascending := nodes_pairwise ordered
  rw [nodes] at isNode
  rcases List.mem_append.mp isNode with member | member
  · exact absurd ((names_plain noFragment).mpr named) (notBefore node member)
  rcases List.mem_cons.mp member with rfl | member
  · rfl
  -- what comes after it in one way to cut the list does so in the other
  have later : last.id < node.id := by
    rw [nodes, List.pairwise_append, List.pairwise_cons] at ascending
    exact ascending.2.1.1 node member
  have isNode' : node ∈ document.nodes := nodes ▸ isNode
  rw [nodes'] at isNode' ascending
  rw [List.pairwise_append] at ascending
  rcases List.mem_append.mp isNode' with member' | member'
  · exact absurd later (Nat.lt_asymm (ascending.2.2 node member' last List.mem_cons_self))
  · rcases List.mem_cons.mp member' with rfl | member'
    · rfl
    · exact absurd named (notAfter node member')

/-! ## 2. What stands for an identifier -/

/-- Whether directives whose target is an identifier in a file are replaced by wrappers around
copies of a node. -/
def Library.Transcludes (library : Library) (file : SourceFile) (document : Document)
    (urn : String) (node : Node) : Prop :=
  ∀ remaining site directive target wrapper, directive.value? (.plain "target") = some target →
    (Target.locate library site.file target (directive.value? (.plain "targetEnd"))).result =
      .ok ⟨file, urn, urn⟩ →
    (transclude library (levels library remaining) site directive .external).result = .ok wrapper →
    ∃ fewer element, remaining = fewer + 1 ∧ wrapper.children = [element] ∧
      (copy library (levels library fewer) ⟨file, document⟩ node).result = .ok element

/-- Whether directives whose target is an identifier in a file are replaced by wrappers that begin
with a copy of a node and the text that follows it. -/
def Library.TranscludesFrom (library : Library) (file : SourceFile) (document : Document)
    (urn : String) (node : Node) : Prop :=
  ∀ remaining site directive target wrapper, directive.value? (.plain "target") = some target →
    (Target.locate library site.file target (directive.value? (.plain "targetEnd"))).result =
      .ok ⟨file, urn, urn⟩ →
    (transclude library (levels library remaining) site directive .external).result = .ok wrapper →
    ∃ fewer, remaining = fewer + 1 ∧
      Begins library (levels library fewer) ⟨file, document⟩ node wrapper.children

/-- Whether instructions for which a mapping is the best one are replaced by copies of a node. -/
def Library.Instructs (library : Library) (mapping : Mapping) (document : Document) (node : Node) :
    Prop :=
  ∀ nested site replaced note tables, replaced.corresp? = some mapping.urn →
    library.tables = some tables →
    Compile.bestInstruction? tables library.settings.instructions mapping.urn = some mapping →
    (annotate library nested site replaced).result = .ok (.replace note) →
    ∃ copied, (nested.copy (some site.file) mapping.file (some node)).result = .ok copied ∧
      note = stampLang copied (document.lang? node.id) (site.document.lang? replaced.id)

/-- Instructions are replaced by copies of the node to which the path of the mapping leads. -/
theorem instructs_of_byPath? {library : Library} {mapping : Mapping} {path : String}
    (reads : library.document mapping.file = .ok document) (atPath : mapping.path = some path)
    (isThere : document.byPath? path = some node) : library.Instructs mapping document node := by
  intro nested site replaced note tables named inStore isBest replaces
  obtain ⟨file, source, found, copied, supplants, copies, rfl⟩ := supplants_of_replace replaces
  obtain ⟨urn, tables', best, path', named', inStore', isBest', -, isFile, atPath', isThere'⟩ :=
    supplants.isBest
  cases named.symm.trans named'
  cases inStore.symm.trans inStore'
  cases isBest.symm.trans isBest'
  subst isFile
  cases atPath.symm.trans atPath'
  cases reads.symm.trans supplants.reads
  cases isThere.symm.trans isThere'
  exact ⟨copied, copies, rfl⟩

/-- *What an identifier of a document means.* The mapping of a scan describes the last node that has
its identifier. A marker names the first one, which bounds the range of a directive for the
identifier, and what stands for the directive holds a copy of this node and nothing else, or begins
with one if the node is a milestone. Where no other node has the path of the last one, the path
leads to it, and instructions are replaced by copies of it; this is the node that the marker names
exactly if no other node of the document has the identifier. -/
theorem agree_on_element_iff {text : String} (h : Document.parse text = .ok document)
    {file : SourceFile} {mapping : Mapping} (scanned : mapping ∈ (scan document file).mappings) :
    ∃ first last, IsMarked document mapping.urn first ∧ IsDefined document mapping.urn last ∧
      findMarker? document mapping.urn = some first ∧
      Bounds.locate document mapping.urn mapping.urn = .ok ⟨first.id, first.id, first.id⟩ ∧
      mapping = ⟨mapping.urn, file, some last.path, some last.name.clark, kind? last⟩ ∧
      (∀ library : Library, library.document file = .ok document → isMilestone first = false →
        library.Transcludes file document mapping.urn first) ∧
      (∀ library : Library, library.document file = .ok document → isMilestone first = true →
        library.TranscludesFrom file document mapping.urn first) ∧
      ((∀ node ∈ document.nodes, node.path = last.path → node = last) →
        document.byPath? last.path = some last ∧
        (∀ library : Library, library.document file = .ok document →
          library.Instructs mapping document last) ∧
        (document.byPath? last.path = findMarker? document mapping.urn ↔
          ∀ node ∈ document.nodes, node.corresp? = some mapping.urn → node = first)) := by
  have ordered := Document.ordered_of_parse h
  have noFragment := Index.isFragment_of_mem_scan scanned
  obtain ⟨last, defined, describes⟩ := Index.exists_isDefined_of_mem_scan scanned
  obtain ⟨first, isMarked⟩ : ∃ first, findMarker? document mapping.urn = some first := by
    cases found : findMarker? document mapping.urn with
    | some first => exact ⟨first, rfl⟩
    | none =>
      exact absurd ((names_plain noFragment).mpr defined.1)
        (findMarker?_eq_none.mp found last defined.mem)
  have marked := findMarker?_eq_some.mp isMarked
  refine ⟨first, last, marked, defined, isMarked, locate_of_findMarker? isMarked, describes, ?_,
    ?_, fun alone => ?_⟩
  · intro library reads noMilestone remaining site directive target wrapper points located ran
    exact children_of_transclude ordered reads isMarked noMilestone points located ran
  · intro library reads milestone remaining site directive target wrapper points located ran
    exact begins_of_transclude ordered (Document.root_tail_of_parse h) reads isMarked milestone
      points located ran
  · have isThere := Document.byPath?_of_alone defined.mem alone
    refine ⟨isThere, fun library reads => ?_, ?_⟩
    · rw [← Index.file_of_mem_scan scanned] at reads
      exact instructs_of_byPath? reads (congrArg Mapping.path describes) isThere
    · rw [isThere, isMarked, Option.some.injEq]
      exact eq_iff_of_isMarked ordered noFragment marked defined

/-- A document in which two elements have one identifier, and one element has another. -/
def homonymsText : String :=
  "<r><p corresp=\"urn:x-opensiddur:u\">first</p><q corresp=\"urn:x-opensiddur:u\">second</q>" ++
    "<s corresp=\"urn:x-opensiddur:v\"/></r>"

/-- The document of that text. -/
def homonyms : Document where
  root := ⟨0, "/r", .plain "r", [], "",
    [⟨1, "/r/p[1]", .plain "p", [(.plain "corresp", "urn:x-opensiddur:u")], "first", [], ""⟩,
      ⟨2, "/r/q[1]", .plain "q", [(.plain "corresp", "urn:x-opensiddur:u")], "second", [], ""⟩,
      ⟨3, "/r/s[1]", .plain "s", [(.plain "corresp", "urn:x-opensiddur:v")], "", [], ""⟩], ""⟩
  namespaces := []

/-- The file with that text. -/
def homonymsFile : SourceFile := ⟨"A", "a.xml"⟩

/-- The identifier that one element has means this element to both. -/
theorem once_defined :
    ⟨"urn:x-opensiddur:v", homonymsFile, some "/r/s[1]", some "s", none⟩ ∈
        (scan homonyms homonymsFile).mappings ∧
      homonyms.byPath? "/r/s[1]" = findMarker? homonyms "urn:x-opensiddur:v" := by
  have parsed : Document.parse homonymsText = .ok homonyms := by cbv
  have scanned : (⟨"urn:x-opensiddur:v", homonymsFile, some "/r/s[1]", some "s", none⟩ : Mapping) ∈
      (scan homonyms homonymsFile).mappings := by
    decide +kernel
  have identifies : homonyms.Identifies :=
    (Document.identifies_iff_nodup (Document.ordered_of_parse parsed)).mpr (by decide)
  obtain ⟨first, last, marked, defined, -, -, describes, -, -, means⟩ :=
    agree_on_element_iff parsed scanned
  obtain ⟨-, -, same⟩ := means fun node isNode samePath =>
    identifies.eq_of_path_eq isNode defined.mem samePath
  have path : "/r/s[1]" = last.path := Option.some.inj (congrArg Mapping.path describes)
  rw [path]
  refine ⟨path ▸ scanned, same.mpr fun node isNode named => ?_⟩
  have alone : ∀ one ∈ homonyms.nodes, one.corresp? = some "urn:x-opensiddur:v" → one.id = 3 := by
    decide +kernel
  refine Node.Ordered.eq_of_id_eq (Document.ordered_of_parse parsed) isNode marked.mem ?_
  have isFirst := (names_plain (Index.isFragment_of_mem_scan scanned)).mp marked.1
  rw [alone node isNode named, alone first marked.mem isFirst]

/-- Of the two elements that have one identifier, the index has the second, and a marker names the
first. -/
theorem twice_defined : Document.parse homonymsText = .ok homonyms ∧
    ⟨"urn:x-opensiddur:u", homonymsFile, some "/r/q[1]", some "q", none⟩ ∈
      (scan homonyms homonymsFile).mappings ∧
    (homonyms.byPath? "/r/q[1]").map (·.id) = some 2 ∧
    (findMarker? homonyms "urn:x-opensiddur:u").map (·.id) = some 1 := by
  refine ⟨by cbv, ?_, ?_, ?_⟩ <;> decide +kernel

end Compile

end Intertext
