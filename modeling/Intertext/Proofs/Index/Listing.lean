import Intertext.Proofs.Index.Recorded
import Intertext.Proofs.Index.Turns
import Intertext.Proofs.Markup.Addresses
import Intertext.Proofs.Text.Order
/-!
The order in which a project's references are listed.

The list is sorted by the path of the element, as a text, and only what has one path keeps the order
of the document. The path of a node begins those below it, so nothing is listed before what contains
it. Siblings and what they contain are listed in the order of the steps to them as texts: by their
names as written, and by their positions as digits with a bracket after them, so that the tenth
sibling of a name comes before the first. The references of a file are listed in document order
exactly if this order of steps is that of the siblings (`listed_inOrder_iff`), which it need not be
(`misplaced_listed`).
-/

namespace Intertext

namespace Markup

open Node (mem_forestPreorder mem_preorder_self)

/-! ## 1. Paths as texts -/

section Steps

variable {name name' : List Char} {position position' : Nat}

/-- A step to a name without a bracket begins with no other step. -/
theorem eq_of_pathStep_isPrefix (plain : '[' ∉ name')
    (begins : pathStep name position <+: pathStep name' position') :
    name = name' ∧ position = position' := by
  have digits {c : Char} (notDigit : c.isDigit = false) (other : c ≠ ']') :
      c ∉ (toString position').toList ++ [']'] := by
    rw [List.mem_append, List.mem_singleton, not_or]
    exact ⟨not_mem_toString notDigit position', other⟩
  obtain ⟨rest, whole⟩ := begins
  simp only [pathStep, List.cons_append, List.append_assoc, List.cons.injEq, true_and] at whole
  obtain ⟨sameName, -, samePlace⟩ :=
    (List.append_cons_inj_of_notMem plain (digits (by decide) (by decide))).mp whole.symm
  obtain ⟨samePosition, -⟩ :=
    (List.append_cons_inj_of_notMem (not_mem_toString (by decide) position') (by simp)).mp samePlace
  exact ⟨sameName.symm, (toString_inj samePosition).symm⟩

end Steps

namespace Document

variable {text : String} {document : Document} {parent node first second inner other : Node}

/-- The step to a child of a node. -/
def stepTo (text : String) (parent child : Node) : List Char :=
  pathStep (written text child) (parent.position child)

/-- The path of a node comes before those of the nodes below it. -/
theorem path_le_of_below (h : parse text = .ok document) (isNode : node ∈ document.nodes)
    (below : inner ∈ node.preorder) : node.path ≤ inner.path := by
  obtain ⟨rest, path, -⟩ := path_below_of_parse h isNode below
  have begins : node.path.toList <+: inner.path.toList := path ▸ List.prefix_append _ _
  rw [← String.ofList_toList (s := node.path), ← String.ofList_toList (s := inner.path)]
  exact Text.ofList_le_of_isPrefix begins

/-- The paths below two children compare as the steps to these do, if neither step begins the
other. -/
theorem path_le_iff_of_siblings (h : parse text = .ok document) (isParent : parent ∈ document.nodes)
    (isFirst : first ∈ parent.children) (isSecond : second ∈ parent.children)
    (apart : ¬ stepTo text parent first <+: stepTo text parent second)
    (apart' : ¬ stepTo text parent second <+: stepTo text parent first)
    (inFirst : inner ∈ first.preorder) (inSecond : other ∈ second.preorder) :
    inner.path ≤ other.path ↔
      String.ofList (stepTo text parent first) ≤ String.ofList (stepTo text parent second) := by
  have isNode {child : Node} (isChild : child ∈ parent.children) : child ∈ document.nodes :=
    Node.mem_preorder_of_child isParent isChild (mem_preorder_self child)
  obtain ⟨rest, path, -⟩ := path_below_of_parse h (isNode isFirst) inFirst
  obtain ⟨rest', path', -⟩ := path_below_of_parse h (isNode isSecond) inSecond
  rw [path_child_of_parse h isParent isFirst, ← stepTo, List.append_assoc] at path
  rw [path_child_of_parse h isParent isSecond, ← stepTo, List.append_assoc] at path'
  rw [← String.ofList_toList (s := inner.path), path, ← String.ofList_toList (s := other.path),
    path', Text.ofList_append_left_le_iff, Text.ofList_append_le_iff apart apart']

/-- What holds of the nodes in document order holds of those with ascending numbers. -/
theorem Ordered.pairwise_nodes_iff (ordered : document.Ordered) {R : Node → Node → Prop} :
    document.nodes.Pairwise R ↔
      ∀ one ∈ document.nodes, ∀ other ∈ document.nodes, one.id < other.id → R one other := by
  have ascending : document.nodes.Pairwise (·.id < ·.id) := List.pairwise_map.mp ordered
  constructor
  · intro holds one isOne other isOther less
    obtain ⟨before, after, whole⟩ := List.append_of_mem isOne
    rw [whole] at holds ascending isOther
    rw [List.pairwise_append] at holds ascending
    rcases List.mem_append.mp isOther with isBefore | isLater
    · have more := ascending.2.2 other isBefore one List.mem_cons_self
      exact absurd less (Nat.lt_asymm more)
    · rcases List.mem_cons.mp isLater with rfl | isAfter
      · exact absurd less (Nat.lt_irrefl _)
      · exact (List.pairwise_cons.mp holds.2.1).1 other isAfter
  · intro all
    exact ascending.imp_of_mem fun isOne isOther less => all _ isOne _ isOther less

/-- The paths of some nodes ascend exactly if those below siblings do. -/
theorem pairwise_path_iff (h : parse text = .ok document) (P : Node → Prop) :
    document.nodes.Pairwise (fun one other => P one → P other → one.path ≤ other.path) ↔
      ∀ parent ∈ document.nodes, ∀ first ∈ parent.children, ∀ second ∈ parent.children,
        first.id < second.id → ∀ inner ∈ first.preorder, ∀ other ∈ second.preorder,
          P inner → P other → inner.path ≤ other.path := by
  have ordered := ordered_of_parse h
  have numbered {node inner : Node} (below : inner ∈ node.preorder) : inner.id ∈ node.ids :=
    List.mem_map_of_mem below
  rw [ordered.pairwise_nodes_iff]
  constructor
  · intro all parent isParent first isFirst second isSecond earlier inner inFirst other inSecond
    refine all inner (Node.mem_preorder_of_child isParent isFirst inFirst) other
      (Node.mem_preorder_of_child isParent isSecond inSecond) ?_
    exact Node.ForestOrdered.lt_of_lt earlier (numbered inFirst) (numbered inSecond)
      (Node.Ordered.of_mem ordered isParent).children isFirst isSecond
  · intro siblings one isOne other isOther less refers refers'
    -- One of the nodes is inside the other, or they stand in different children of a node.
    rcases Node.nested_or_siblings isOne isOther with below | above |
      ⟨parent, isParent, first, isFirst, second, isSecond, different, inFirst, inSecond⟩
    · exact path_le_of_below h isOne below
    · have notLess := (Node.Ordered.of_mem ordered isOther).le_of_mem (numbered above)
      exact absurd less (Nat.not_lt_of_le notLess)
    · have isNode {child : Node} (isChild : child ∈ parent.children) : child ∈ document.nodes :=
        Node.mem_preorder_of_child isParent isChild (mem_preorder_self child)
      refine siblings parent isParent first isFirst second isSecond ?_ one inFirst other inSecond
        refers refers'
      refine Nat.lt_of_not_le fun notEarlier => ?_
      rcases Nat.lt_or_eq_of_le notEarlier with later | sameId
      · have more := Node.ForestOrdered.lt_of_lt later (numbered inSecond) (numbered inFirst)
          (Node.Ordered.of_mem ordered isParent).children isSecond isFirst
        exact absurd less (Nat.lt_asymm more)
      · exact different
          (Node.Ordered.eq_of_id_eq ordered (isNode isFirst) (isNode isSecond) sameId.symm)

end Document

end Markup

namespace Index

open Markup (Document Node)
open Markup.Document (written stepTo Alike startTags)

/-! ## 2. The list -/

/-- Whether a node or something below it refers to anything. -/
def Refers (node : Node) : Prop := ∃ inner ∈ node.preorder, targetWords inner ≠ []

instance (node : Node) : Decidable (Refers node) :=
  inferInstanceAs (Decidable (∃ inner ∈ node.preorder, _))

variable {text : String} {document : Document} {file : SourceFile} {tables : Tables}

theorem path_trans (a b c : Reference) (first : Text.le a.path b.path)
    (second : Text.le b.path c.path) : Text.le a.path c.path :=
  Text.le_trans _ _ _ first second

theorem path_total (a b : Reference) : Text.le a.path b.path || Text.le b.path a.path :=
  Text.le_total _ _

/-- The references of a file that is alone in its project are those that were stored, sorted. -/
theorem Tables.projectReferences_storeFile (new : file.project ∉ tables.projects) (now : Nat)
    (mappings : List Mapping) {references : List Reference}
    (own : ∀ reference ∈ references, reference.file = file) :
    (tables.storeFile now file mappings references).projectReferences file.project =
      references.mergeSort fun a b => Text.le a.path b.path := by
  have others : (tables.references.map (·.row)).filter (·.file.project = file.project) = [] := by
    refine List.filter_eq_nil_iff.mpr fun reference isReference same => new ?_
    obtain ⟨row, isRow, rfl⟩ := List.mem_map.mp isReference
    refine Tables.mem_projects_iff.mpr ⟨row.row.file, ?_, of_decide_eq_true same⟩
    exact List.mem_append_left _ (List.mem_append_right _ (List.mem_map_of_mem isRow))
  have all : references.filter (·.file.project = file.project) = references :=
    List.filter_eq_self.mpr fun reference isReference =>
      decide_eq_true (congrArg _ (own reference isReference))
  have rows : (references.map fun reference => (⟨reference, now⟩ : Stamped Reference)).map
      (·.row) = references := by
    simp [Function.comp_def]
  rw [projectReferences, references_storeFile, List.map_append, rows, List.filter_append, others,
    all, List.nil_append]

/-- What was scanned is in the order of the paths exactly if the elements are that refer to
something. -/
theorem pairwise_references_scan_iff :
    (scan document file).references.Pairwise (fun a b => a.path ≤ b.path) ↔
      document.nodes.Pairwise fun one other =>
        targetWords one ≠ [] → targetWords other ≠ [] → one.path ≤ other.path := by
  rw [references_scan, List.pairwise_flatMap]
  have within (node : Node) : ((targetWords node).map (referenceBy file node)).Pairwise
      fun a b => a.path ≤ b.path :=
    List.pairwise_map.mpr (List.pairwise_of_forall fun _ _ => String.le_refl _)
  rw [and_iff_right fun node _ => within node]
  refine iff_of_eq (congrArg (document.nodes.Pairwise ·) (funext₂ fun one other => propext ?_))
  constructor
  · intro all hasWord hasWord'
    obtain ⟨word, isWord⟩ := List.exists_mem_of_ne_nil _ hasWord
    obtain ⟨word', isWord'⟩ := List.exists_mem_of_ne_nil _ hasWord'
    exact all _ (List.mem_map_of_mem isWord) _ (List.mem_map_of_mem isWord')
  · intro inOrder a isA b isB
    obtain ⟨word, isWord, rfl⟩ := List.mem_map.mp isA
    obtain ⟨word', isWord', rfl⟩ := List.mem_map.mp isB
    exact inOrder (List.ne_nil_of_mem isWord) (List.ne_nil_of_mem isWord')

/-- Where names have no brackets and no siblings are alike, the order of what siblings contain is
that of the steps to them. -/
theorem path_le_iff_of_plain (h : Document.parse text = .ok document)
    (plain : ∀ raw ∈ startTags text, '[' ∉ Markup.Tag.name raw) {parent first second : Node}
    (isParent : parent ∈ document.nodes) (isFirst : first ∈ parent.children)
    (isSecond : second ∈ parent.children) (earlier : first.id < second.id)
    (notAlike : ¬ Alike text parent first second) {inner other : Node}
    (inFirst : inner ∈ first.preorder) (inSecond : other ∈ second.preorder) :
    inner.path ≤ other.path ↔
      String.ofList (stepTo text parent first) ≤ String.ofList (stepTo text parent second) := by
  have ordered := Document.ordered_of_parse h
  have differ : ¬ (written text first = written text second ∧
      parent.position first = parent.position second) := by
    rintro ⟨sameWritten, samePosition⟩
    refine notAlike ⟨fun sameName => ?_, sameWritten, samePosition⟩
    exact absurd samePosition
      (Nat.ne_of_lt (ordered.position_lt isParent isFirst isSecond earlier sameName))
  refine Document.path_le_iff_of_siblings h isParent isFirst isSecond (fun begins => ?_)
    (fun begins => ?_) inFirst inSecond
  · exact differ (Markup.eq_of_pathStep_isPrefix (Document.not_mem_written plain second) begins)
  · obtain ⟨sameWritten, samePosition⟩ :=
      Markup.eq_of_pathStep_isPrefix (Document.not_mem_written plain first) begins
    exact differ ⟨sameWritten.symm, samePosition.symm⟩

/-- *When a project's references are listed in document order.* Of a file that is alone in its
project the references that were scanned are listed, sorted by path, those of one path as they were
scanned. They are listed as they were scanned exactly if no element below a later child of some node
has a path before one below an earlier child, of the elements that refer to something. Where names
have no brackets and no siblings are alike, that is exactly if the steps to siblings that contain
references are in the order of the siblings, as texts. -/
theorem listed_inOrder_iff (h : Document.parse text = .ok document)
    (new : file.project ∉ tables.projects) (now : Nat) :
    let found := scan document file
    let listed := (tables.storeFile now file found.mappings found.references).projectReferences
      file.project
    listed.Perm found.references ∧
    listed.Pairwise (fun a b => a.path ≤ b.path) ∧
    (∀ path, listed.filter (·.path = path) = found.references.filter (·.path = path)) ∧
    (listed = found.references ↔ ∀ parent ∈ document.nodes, ∀ first ∈ parent.children,
      ∀ second ∈ parent.children, first.id < second.id →
        ∀ inner ∈ first.preorder, ∀ other ∈ second.preorder,
          targetWords inner ≠ [] → targetWords other ≠ [] → inner.path ≤ other.path) ∧
    ((∀ raw ∈ startTags text, '[' ∉ Markup.Tag.name raw) →
      (∀ parent ∈ document.nodes, ∀ first ∈ parent.children, ∀ second ∈ parent.children,
        ¬ Alike text parent first second) →
      (listed = found.references ↔ ∀ parent ∈ document.nodes, ∀ first ∈ parent.children,
        ∀ second ∈ parent.children, first.id < second.id → Refers first → Refers second →
          String.ofList (stepTo text parent first) ≤
            String.ofList (stepTo text parent second))) := by
  intro found listed
  have sorted : listed = found.references.mergeSort fun a b => Text.le a.path b.path :=
    Tables.projectReferences_storeFile new now _ fun _ => file_of_mem_scan_references
  have inOrder : listed.Pairwise fun a b => a.path ≤ b.path := by
    rw [sorted]
    exact (List.pairwise_mergeSort path_trans path_total _).imp of_decide_eq_true
  -- What was sorted is as it was scanned exactly if the scan was in order.
  have inOrder_iff : listed = found.references ↔
      ∀ parent ∈ document.nodes, ∀ first ∈ parent.children, ∀ second ∈ parent.children,
        first.id < second.id → ∀ inner ∈ first.preorder, ∀ other ∈ second.preorder,
          targetWords inner ≠ [] → targetWords other ≠ [] → inner.path ≤ other.path := by
    rw [← Document.pairwise_path_iff h (targetWords · ≠ []), ← pairwise_references_scan_iff]
    refine ⟨fun same => same ▸ inOrder, fun asScanned => ?_⟩
    rw [sorted]
    exact List.mergeSort_of_pairwise (asScanned.imp (decide_eq_true ·))
  refine ⟨sorted ▸ List.mergeSort_perm _ _, inOrder, fun path => ?_, inOrder_iff,
    fun plain noneAlike => inOrder_iff.trans ?_⟩
  · rw [sorted]
    refine Text.filter_mergeSort_of_ties path_trans path_total fun a _ b _ isA isB => ?_
    exact decide_eq_true (Std.le_of_eq ((of_decide_eq_true isA).trans (of_decide_eq_true isB).symm))
  · refine forall₂_congr fun parent isParent => forall₂_congr fun first isFirst =>
      forall₃_congr fun second isSecond earlier => ?_
    have step {inner other : Node} (inFirst : inner ∈ first.preorder)
        (inSecond : other ∈ second.preorder) :=
      path_le_iff_of_plain h plain isParent isFirst isSecond earlier
        (noneAlike parent isParent first isFirst second isSecond) inFirst inSecond
    constructor
    · rintro all ⟨inner, inFirst, refers⟩ ⟨other, inSecond, refers'⟩
      exact (step inFirst inSecond).mp (all inner inFirst other inSecond refers refers')
    · intro steps inner inFirst other inSecond refers refers'
      exact (step inFirst inSecond).mpr
        (steps ⟨inner, inFirst, refers⟩ ⟨other, inSecond, refers'⟩)

/-- Nine siblings of a name are listed in order. The tenth comes before the first. -/
example : (List.range 9).Pairwise (fun i j =>
      String.ofList (Markup.pathStep ['p'] (i + 1)) ≤
        String.ofList (Markup.pathStep ['p'] (j + 1))) ∧
    ¬ String.ofList (Markup.pathStep ['p'] 1) ≤ String.ofList (Markup.pathStep ['p'] 10) := by
  decide +kernel

/-- A text in which parents, children and siblings refer to something. -/
def nestedText : String :=
  "<r target=\"#a\"><p target=\"#c #b\"><s target=\"#d\"/></p><a/><p target=\"#b\"/></r>"

/-- The document of that text. -/
def nested : Document where
  root := ⟨0, "/r", .plain "r", [(.plain "target", "#a")], "",
    [⟨1, "/r/p[1]", .plain "p", [(.plain "target", "#c #b")], "",
        [⟨2, "/r/p[1]/s[1]", .plain "s", [(.plain "target", "#d")], "", [], ""⟩], ""⟩,
      ⟨3, "/r/a[1]", .plain "a", [], "", [], ""⟩,
      ⟨4, "/r/p[2]", .plain "p", [(.plain "target", "#b")], "", [], ""⟩], ""⟩
  namespaces := []

/-- The sibling that would come first refers to nothing. -/
theorem nested_listed : Document.parse nestedText = .ok nested ∧ "C" ∉ elsewhere.projects ∧
    (elsewhere.storeFile 1 ⟨"C", "c.xml"⟩ (scan nested ⟨"C", "c.xml"⟩).mappings
      (scan nested ⟨"C", "c.xml"⟩).references).projectReferences "C" =
        (scan nested ⟨"C", "c.xml"⟩).references := by
  have parsed : Document.parse nestedText = .ok nested := by cbv
  have tags : startTags nestedText = ["r target=\"#a\"".toList, "p target=\"#c #b\"".toList,
      "s target=\"#d\"".toList, "a".toList, "p target=\"#b\"".toList] := by
    cbv
  have new : (⟨"C", "c.xml"⟩ : SourceFile).project ∉ elsewhere.projects := by
    rw [Tables.mem_projects_iff]
    decide +kernel
  obtain ⟨-, -, -, -, steps⟩ := listed_inOrder_iff parsed new 1
  refine ⟨parsed, new, (steps ?_ ?_).mpr ?_⟩
  · rw [tags]
    decide
  · simp only [Alike, written, tags]
    decide
  · simp only [stepTo, written, tags]
    decide +kernel

/-- A text in which a later sibling has the name that comes first. -/
def misplacedText : String := "<r><b target=\"#x\"/><a target=\"#y\"/></r>"

/-- The document of that text. -/
def misplaced : Document where
  root := ⟨0, "/r", .plain "r", [], "",
    [⟨1, "/r/b[1]", .plain "b", [(.plain "target", "#x")], "", [], ""⟩,
      ⟨2, "/r/a[1]", .plain "a", [(.plain "target", "#y")], "", [], ""⟩], ""⟩
  namespaces := []

/-- The later sibling is listed first. -/
theorem misplaced_listed : Document.parse misplacedText = .ok misplaced ∧
    (scan misplaced ⟨"A", "a.xml"⟩).references.map (·.targetStart) = ["#x", "#y"] ∧
    ((Tables.empty.storeFile 0 ⟨"A", "a.xml"⟩ (scan misplaced ⟨"A", "a.xml"⟩).mappings
      (scan misplaced ⟨"A", "a.xml"⟩).references).projectReferences "A").map (·.targetStart) =
        ["#y", "#x"] := by
  refine ⟨by cbv, by decide +kernel, ?_⟩
  have scanned : (scan misplaced ⟨"A", "a.xml"⟩).references =
      [⟨"/r/b[1]", "b", none, "#x", "#x", true, none, ⟨"A", "a.xml"⟩⟩,
        ⟨"/r/a[1]", "a", none, "#y", "#y", true, none, ⟨"A", "a.xml"⟩⟩] := by
    decide +kernel
  have new : (⟨"A", "a.xml"⟩ : SourceFile).project ∉ Tables.empty.projects := by
    rw [Tables.mem_projects_iff]
    decide +kernel
  rw [Tables.projectReferences_storeFile new 0 _
    fun _ => file_of_mem_scan_references, scanned, Text.mergeSort_cons_eq path_trans path_total,
    List.mergeSort_singleton]
  decide +kernel

end Index

end Intertext
