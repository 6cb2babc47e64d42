import Intertext.Proofs.Compile.Shown
import Intertext.Proofs.Compile.Untouched
/-!
Extraction of structure where nothing is put in.

In a document without directives to which no note applies, the structure between two markers is
the pruning of the document to the range, and nothing else (`external_eq_pruning`): what begins in
range is copied with its text, what leads from the ancestor of the range to its start is copied as
a shell, and each of them keeps its tail if it ends in range. No tail is lost, since what ends in
range is shown.
-/

namespace Intertext.Compile

open Markup (Node Document)
open Markup.Node

/-! ## 1. Prunings that agree -/

/-- Whether two prunings say the same of a node. -/
structure Pruning.Agree (a b : Pruning) (node : Node) : Prop where
  whole : a.whole node = b.whole node
  shell : a.shell node = b.shell node
  tail : a.tail node = b.tail node
  replacement? : a.replacement? node = b.replacement? node
  notes : a.notes node = b.notes node

mutual

theorem Pruning.shown_congr {a b : Pruning} : ∀ {node : Node},
    (∀ inner ∈ node.preorder, a.Agree b inner) → a.shown node = b.shown node
  | ⟨own, path, name, attributes, text, children, tail⟩, agree => by
    have here := agree _ (mem_preorder_self _)
    have below : a.forestShown children = b.forestShown children :=
      forestShown_congr fun inner member => agree inner (List.mem_cons_of_mem _ member)
    rw [shown, shown, here.whole, here.shell, here.replacement?, here.notes, below, tailOf, tailOf,
      here.tail]

theorem Pruning.forestShown_congr {a b : Pruning} : ∀ {nodes : List Node},
    (∀ inner ∈ forestPreorder nodes, a.Agree b inner) → a.forestShown nodes = b.forestShown nodes
  | [], _ => rfl
  | first :: rest, agree => by
    rw [forestShown, forestShown,
      shown_congr fun inner member => agree inner (List.mem_append_left _ member),
      forestShown_congr fun inner member => agree inner (List.mem_append_right _ member)]

end

/-! ## 2. Walks that succeed -/

variable {library : Library} {nested : Nested} {site : Site} {walk : Walk}

mutual

/-- A walk over elements that stay as they are succeeds. -/
theorem external_isOk : ∀ {node : Node} (progress : Progress),
    (∀ inner ∈ node.preorder, Untouched library nested site inner) →
      ∃ result, (external library nested site walk progress node).result = .ok result
  | ⟨own, path, name, attributes, text, children, tail⟩, progress, untouched => by
    obtain ⟨noDirective, noNote⟩ := untouched _ (mem_preorder_self _)
    obtain ⟨result, found⟩ := externalForest_isOk
      (walk.enter progress ⟨own, path, name, attributes, text, children, tail⟩)
      fun inner member => untouched inner (List.mem_cons_of_mem _ member)
    rw [external, Run.result_record_bind]
    split
    · exact ⟨_, rfl⟩
    · rw [if_neg noDirective]
      rcases noNote with none | keep
      · exact ⟨_, Run.bind_eq_ok.mpr ⟨_, none, Run.bind_eq_ok.mpr ⟨result, found, rfl⟩⟩⟩
      · exact ⟨_, Run.bind_eq_ok.mpr ⟨_, keep, Run.bind_eq_ok.mpr ⟨result, found, rfl⟩⟩⟩
    · exact ⟨_, Run.bind_eq_ok.mpr ⟨result, found, rfl⟩⟩
    · exact ⟨_, Run.bind_eq_ok.mpr ⟨result, found, rfl⟩⟩

theorem externalForest_isOk : ∀ {nodes : List Node} (progress : Progress),
    (∀ inner ∈ forestPreorder nodes, Untouched library nested site inner) →
      ∃ result, (externalForest library nested site walk progress nodes).result = .ok result
  | [], progress, _ => ⟨_, rfl⟩
  | first :: rest, progress, untouched => by
    obtain ⟨result, found⟩ := external_isOk progress
      fun inner member => untouched inner (List.mem_append_left _ member)
    obtain ⟨others, below⟩ := externalForest_isOk result.2
      fun inner member => untouched inner (List.mem_append_right _ member)
    rw [externalForest]
    exact ⟨_, Run.bind_eq_ok.mpr ⟨result, found, Run.bind_eq_ok.mpr ⟨others, below, rfl⟩⟩⟩

end

/-- Nothing takes the place of an element that stays as it is. -/
theorem Untouched.externalReplacement? {node : Node}
    (untouched : Untouched library nested site node) :
    externalReplacement? library nested site node = none := by
  rcases untouched.noNote with found | found
  · exact externalReplacement?_of_kept untouched.noDirective found (by simp)
  · exact externalReplacement?_of_kept untouched.noDirective found (by simp)

/-- No notes are inserted into an element that stays as it is. -/
theorem Untouched.insertedNotes {node : Node} (untouched : Untouched library nested site node) :
    insertedNotes library nested site node = [] := by
  rcases untouched.noNote with found | found <;> rw [Compile.insertedNotes, found] <;> rfl

/-! ## 3. The extraction -/

variable {document : Document} {bounds : Bounds}

/-- Where every element stays as it is, a walk reaches the whole document. -/
theorem reached_eq_root (untouched : ∀ node ∈ site.document.nodes,
      Untouched library nested site node) :
    reached site.document bounds (externalHides library nested site) = site.document.root := by
  refine trim_eq_self ?_
  intro inner member
  rw [hidden, externalHides, (untouched inner member).externalReplacement?]
  exact Bool.and_false _

/-- In a document whose elements stay as they are, what a walk shows is the pruning to the range. -/
theorem externalPruning_shown (untouched : ∀ node ∈ site.document.nodes,
      Untouched library nested site node) :
    (externalPruning library nested site bounds).shown site.document.root =
      (Pruning.within site.document bounds site.document.root).shown site.document.root := by
  refine Pruning.shown_congr ?_
  intro inner member
  have same : reached site.document bounds (externalHides library nested site) =
      site.document.root := reached_eq_root untouched
  refine ⟨?_, rfl, ?_, (untouched inner member).externalReplacement?,
    (untouched inner member).insertedNotes⟩
  · rw [externalPruning, same]
  · rw [externalPruning, same]

/-- Where nothing is hidden, all that there is to a node is reached. -/
theorem trim_hidden_none (node : Node) : node.trim (hidden bounds fun _ => false) = node :=
  trim_eq_self fun _ _ => Bool.and_false _

/-- Where nothing is hidden, every node is on the way. -/
theorem exists_atNode {node : Node} (isNode : node ∈ document.nodes) :
    ∃ passed rest, AtNode document bounds (fun _ => false) passed rest node := by
  have all : reached document bounds (fun _ => false) = document.root := trim_hidden_none _
  obtain ⟨passed, rest, whole⟩ := edges_isInfix isNode
  refine ⟨passed, rest, isNode, ?_⟩
  rw [all, trim_hidden_none, whole]

/-- What ends in range is shown, whole or as a shell. -/
theorem whole_or_shell_of_tail (ordered : document.Ordered) (located : Located document bounds)
    {node : Node} (isNode : node ∈ document.nodes)
    (ends : (Pruning.within document bounds document.root).tail node = true) :
    (Pruning.within document bounds document.root).whole node = true ∨
      (Pruning.within document bounds document.root).shell node = true := by
  have all : reached document bounds (fun _ => false) = document.root := trim_hidden_none _
  have spans := spans_reached (fun _ => false) ordered located
  obtain ⟨passed, rest, place⟩ := exists_atNode isNode
  have stop : bounds.stop ∈ (reached document bounds fun _ => false).ids := all ▸ located.stop_mem
  rw [← all, tail_within spans place] at ends
  rw [← all, whole_within spans place]
  exact isOpen_or_isShell ordered located spans stop place ends

/-- What leads to the start does not begin in range. -/
theorem whole_eq_false_of_shell (ordered : document.Ordered) (located : Located document bounds)
    {node : Node} (isNode : node ∈ document.nodes)
    (shell : (Pruning.within document bounds document.root).shell node = true) :
    (Pruning.within document bounds document.root).whole node = false := by
  have all : reached document bounds (fun _ => false) = document.root := trim_hidden_none _
  have spans := spans_reached (fun _ => false) ordered located
  obtain ⟨passed, rest, place⟩ := exists_atNode isNode
  rw [← all, whole_within spans place]
  refine Bool.eq_false_iff.mpr ?_
  intro isOpen
  have later := spans.start_le place.opening (Bool.and_eq_true_iff.mp isOpen).1
  exact absurd later (Nat.not_le.mpr (isShell_lt ordered isNode shell).2)

/-- Within a document in which every element stays as it is, the structure between two markers is
the pruning to the range they bound. What is shown as a shell is not shown whole, and whatever
keeps its tail is shown. -/
theorem external_eq_pruning {file : SourceFile} {text startMarker stopMarker : String}
    (remaining : Nat) (parsed : Document.parse text = .ok document)
    (reads : library.document file = .ok document)
    (untouched : ∀ node ∈ document.nodes,
      Untouched library (levels library remaining) ⟨file, document⟩ node)
    (located : Bounds.locate document startMarker stopMarker = .ok bounds) :
    ((levels library (remaining + 1)).external file startMarker stopMarker).result =
        .ok ((Pruning.within document bounds document.root).shown document.root) ∧
      ∀ node ∈ document.nodes,
        ((Pruning.within document bounds document.root).shell node = true →
          (Pruning.within document bounds document.root).whole node = false) ∧
        ((Pruning.within document bounds document.root).tail node = true →
          (Pruning.within document bounds document.root).whole node = true ∨
            (Pruning.within document bounds document.root).shell node = true) := by
  have ordered := Document.ordered_of_parse parsed
  have bounded := located_of_locate ordered located
  refine ⟨?_, fun node isNode => ⟨whole_eq_false_of_shell ordered bounded isNode,
    whole_or_shell_of_tail ordered bounded isNode⟩⟩
  have succeeds : ∃ result, (external library (levels library remaining) ⟨file, document⟩
      (.within document bounds .external) (Walk.start file startMarker stopMarker)
      document.root).result = .ok result := external_isOk _ untouched
  obtain ⟨⟨elements, after⟩, ran⟩ := succeeds
  obtain ⟨-, closes, shown⟩ := shown_of_external_root ordered bounded ran
  have all : reached document bounds
      (externalHides library (levels library remaining) ⟨file, document⟩) = document.root :=
    reached_eq_root untouched
  have hasEnded : after.frame.afterEnd = true := closes.mpr (all ▸ bounded.stop_mem)
  have pruned : elements =
      (Pruning.within document bounds document.root).shown document.root :=
    (shown hasEnded).trans (externalPruning_shown untouched)
  exact external_level_eq_ok.mpr ⟨document, bounds, after, reads, located, pruned ▸ ran⟩

/-- A document with a range that goes from one branch to another. -/
def branches : Document where
  root := ⟨0, "/r", .plain "r", [], "",
    [⟨1, "/r/a[1]", .plain "a", [(.plain "n", "1")], "x",
      [⟨2, "/r/a[1]/b[1]", .plain "b", [(.xml "id", "s")], "S", [], "t"⟩], "y"⟩,
     ⟨3, "/r/c[1]", .plain "c", [(.xml "id", "e")], "E", [], "z"⟩], ""⟩
  namespaces := []

/-- The range leaves the first branch without its text and takes the second one without its tail. -/
theorem external_branches :
    ((levels (single branches) 1).external ⟨"p", "f"⟩ "#s" "#e").result =
      .ok [⟨.plain "r", [], "",
        [⟨.plain "a", [(.plain "n", "1")], "",
            [⟨.plain "b", [(.xml "id", "s")], "S", [], "t"⟩], "y"⟩,
         ⟨.plain "c", [(.xml "id", "e")], "E", [], ""⟩], ""⟩] := by
  have parsed : Document.parse
      "<r><a n=\"1\">x<b xml:id=\"s\">S</b>t</a>y<c xml:id=\"e\">E</c>z</r>" = .ok branches := by
    cbv
  have noDirective : ∀ node ∈ branches.nodes, Role.of node ≠ .directive := by
    decide
  have located : Bounds.locate branches "#s" "#e" = .ok ⟨2, 3, 0⟩ := by decide +kernel
  rw [(external_eq_pruning 0 parsed rfl
    (fun node member => untouched_of_empty rfl (noDirective node member)) located).1]
  decide +kernel
end Intertext.Compile
