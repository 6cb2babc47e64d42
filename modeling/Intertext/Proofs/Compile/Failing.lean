import Intertext.Proofs.Compile.Borrowed
import Intertext.Proofs.Compile.Bounds
import Intertext.Proofs.Compile.Library
import Intertext.Proofs.Index.Mirror
/-!
Why a compilation can fail.

An index that mirrors its corpus leads nowhere where nothing is: every row was scanned from the
document that its file holds now (`Library.Agrees`). So what a compilation reads because a row says
so is there, and the node it looks for is in it. What can still fail is listed by `Failure`: the
compiled file itself cannot be read, a target leads nowhere or names a fragment that is not there,
two markers bound no range, or the limit of frames is reached.

Failing only for certain causes is kept by everything that runs are made of (`Run.FailsOnly`), and
goes from the frames that are asked for to those that ask.
-/

namespace Intertext.Compile

open Markup (Element Node Document)
open Index (Tables Mapping Reference Location Resolution isFragment corpusScheme mappingOf?
  referencesOf)

/-! ## 1. Runs and their causes

A run fails for certain causes only, if each of its parts does. The lemmas go through what runs are
made of; for a part that comes after another it is enough to know what the earlier one gave. -/

namespace Run

/-- Whether a run that fails does so for a cause with a property. -/
def FailsOnly {α : Type} (causes : Error → Prop) (run : Run α) : Prop :=
  ∀ error, run.result = .error error → causes error

variable {α β : Type} {causes : Error → Prop}

theorem FailsOnly.pure (value : α) : (pure value : Run α).FailsOnly causes := by
  intro error failed
  cases failed

theorem FailsOnly.fail {error : Error} (isCause : causes error) :
    (fail error : Run α).FailsOnly causes := by
  intro other failed
  cases failed
  exact isCause

theorem FailsOnly.record (event : Event) : (record event).FailsOnly causes := by
  intro error failed
  cases failed

/-- What follows has to be looked at only for values that there are. -/
theorem FailsOnly.bind {first : Run α} {next : α → Run β} (fails : first.FailsOnly causes)
    (rest : ∀ value, first.result = .ok value → (next value).FailsOnly causes) :
    (first >>= next).FailsOnly causes := by
  intro error failed
  rw [result_bind] at failed
  cases ran : first.result with
  | error cause =>
    rw [ran] at failed
    cases failed
    exact fails _ ran
  | ok value =>
    rw [ran] at failed
    exact rest value ran error failed

/-- A run that fails is not followed by another one. -/
theorem result_bind_of_error {first : Run α} {error : Error}
    (failed : first.result = .error error) (next : α → Run β) :
    (first >>= next).result = .error error := by
  rw [result_bind, failed]
  rfl

/-- After a run that gave a value, the next one decides. -/
theorem result_bind_of_ok {first : Run α} {value : α} (ran : first.result = .ok value)
    (next : α → Run β) : (first >>= next).result = (next value).result := by
  rw [result_bind, ran]
  rfl

theorem FailsOnly.inside {run : Run α} (fails : run.FailsOnly causes) (frame : Frame) :
    (Run.inside frame run).FailsOnly causes := fails

/-- A list of runs fails for the causes of its members. -/
theorem FailsOnly.mapM {action : α → Run β} :
    ∀ {values : List α}, (∀ value ∈ values, (action value).FailsOnly causes) →
      (values.mapM action).FailsOnly causes
  | [], _ => by
    rw [List.mapM_nil]
    exact pure _
  | first :: rest, fails => by
    rw [List.mapM_cons]
    refine (fails first List.mem_cons_self).bind fun _ _ => ?_
    refine FailsOnly.bind (FailsOnly.mapM fun value member => ?_) fun _ _ => pure _
    exact fails value (List.mem_cons_of_mem _ member)

end Run

/-! ## 2. Rows that lead to nodes

A row names a file, and in it an element by its path. Where the tables agree with the documents, the
file can be read and an element with the path is in it, so that following a row does not fail. -/

/-- Whether the rows of the index lead to nodes of the documents there are. -/
structure Library.Agrees (library : Library) (tables : Tables) : Prop where
  holds : library.tables = some tables
  mappings : ∀ mapping ∈ tables.mappings.map (·.row), ∃ document,
    library.document mapping.file = .ok document ∧
      ∃ node ∈ document.nodes, mappingOf? mapping.file node = some mapping
  references : ∀ reference ∈ tables.references.map (·.row), ∃ document,
    library.document reference.file = .ok document ∧
      ∃ node ∈ document.nodes, reference ∈ referencesOf reference.file node
  /-- A file without a document is missing or malformed. -/
  unread : ∀ file error, library.document file = .error error →
    (∃ path, error = .missing (.document file path)) ∨ ∃ path fault, error = .malformed path fault

/-- Why compiling a file can fail where the index agrees with the documents. -/
inductive Failure (library : Library) (tables : Tables) (file : SourceFile) : Error → Prop where
  /-- The compiled file is missing. -/
  | missingFile {path : String}
    (missing : library.document file = .error (.missing (.document file path))) :
    Failure library tables file (.missing (.document file path))
  /-- The compiled file is no document. -/
  | malformedFile {path : String} {fault : Markup.Fault}
    (malformed : library.document file = .error (.malformed path fault)) :
    Failure library tables file (.malformed path fault)
  | directiveTarget (path : String) : Failure library tables file (.missing (.directiveTarget path))
  | target {urn : String} (nothing : tables.resolveRange urn = []) :
    Failure library tables file (.missing (.target urn))
  | listedTarget {urn : String} (unlisted :
      Priority.best? (tables.resolveRange urn) library.settings.transclusion = none) :
    Failure library tables file (.missing (.listedTarget urn))
  | targetEnd {urn project : String}
    (nothing : Priority.best? (tables.resolveRange urn) [project] = none) :
    Failure library tables file (.missing (.targetEnd urn project))
  | startMarker {marker : String} (isLocal : isFragment marker = true) :
    Failure library tables file (.missing (.startMarker marker))
  | endMarker {marker : String} (isLocal : isFragment marker = true) :
    Failure library tables file (.missing (.endMarker marker))
  | badRange (why : BadRange) : Failure library tables file (.badRange why)
  | tooDeep (inside : SourceFile) (limit : Nat) :
    Failure library tables file (.tooDeep inside limit)

variable {library : Library} {tables : Tables} {compiled : SourceFile}

/-- The tables are there, so asking them does not fail. -/
theorem ask_failsOnly (agrees : library.Agrees tables) {causes : Error → Prop} :
    library.ask.FailsOnly causes := by
  intro error failed
  rw [Library.ask, agrees.holds] at failed
  cases failed

/-- Reading a document that can be read does not fail. -/
theorem read_failsOnly {α : Type} {causes : Error → Prop} {file : SourceFile} {document : Document}
    (reads : library.document file = .ok document) {next : Document → Run α}
    (ran : (next document).FailsOnly causes) : (library.read file >>= next).FailsOnly causes := by
  have read : (library.read file).FailsOnly causes := by
    intro error failed
    rw [Library.result_read, reads] at failed
    cases failed
  refine read.bind fun source readsSource => ?_
  rw [Library.result_read, reads] at readsSource
  cases readsSource
  exact ran

/-- The path of a node leads to a node, if perhaps to another with the same path. -/
theorem exists_of_byPath? {document : Document} {node : Node} (isNode : node ∈ document.nodes) :
    ∃ found, document.byPath? node.path = some found := by
  rw [← Option.isSome_iff_exists, Document.byPath?, List.find?_isSome]
  exact ⟨node, List.mem_reverse.mpr isNode, by simp⟩

/-- A row of the index leads to a note. -/
theorem Library.Agrees.exists_note (agrees : library.Agrees tables) {file : SourceFile}
    {path : String} (row : NoteRow library file path) :
    ∃ document found, library.document file = .ok document ∧
      document.byPath? path = some found := by
  obtain ⟨others, same, row⟩ := row
  cases agrees.holds.symm.trans same
  rcases row with ⟨reference, isRow, -, rfl, rfl⟩ | ⟨mapping, isRow, -, rfl, atPath⟩
  · obtain ⟨document, reads, node, isNode, made⟩ := agrees.references reference isRow
    obtain ⟨found, isThere⟩ := exists_of_byPath? isNode
    rw [(Index.of_mem_referencesOf made).2.1]
    exact ⟨document, found, reads, isThere⟩
  · obtain ⟨document, reads, node, isNode, made⟩ := agrees.mappings mapping isRow
    obtain ⟨found, isThere⟩ := exists_of_byPath? isNode
    rw [(Index.mappingOf?_eq_some made).2.1] at atPath
    cases atPath
    exact ⟨document, found, reads, isThere⟩

/-! ## 3. Markers -/

/-- Whether a marker names a node of a document, or is a fragment. -/
def Marked (document : Document) (marker : String) : Prop :=
  isFragment marker = true ∨ (findMarker? document marker).isSome

/-- Whether the file that a target is in can be read and has its markers. -/
def Target.Reachable (library : Library) (target : Target) : Prop :=
  ∃ document, library.document target.file = .ok document ∧ Marked document target.start ∧
    Marked document target.stop

/-- An identifier of the corpus is no fragment. -/
theorem findMarker?_of_scheme {document : Document} {urn : String}
    (scheme : corpusScheme.toList.isPrefixOf urn.toList) :
    findMarker? document urn = document.find? fun node => node.corresp? = some urn := by
  unfold findMarker?
  split
  · rename_i id written
    rw [written] at scheme
    cases scheme
  · rfl

/-- The identifier of a mapping marks a node of the mapping's file. -/
theorem Library.Agrees.marked (agrees : library.Agrees tables) {mapping : Mapping}
    (isRow : mapping ∈ tables.mappings.map (·.row)) :
    ∃ document, library.document mapping.file = .ok document ∧ Marked document mapping.urn := by
  obtain ⟨document, reads, node, isNode, made⟩ := agrees.mappings mapping isRow
  obtain ⟨urn, named, same⟩ := Option.map_eq_some_iff.mp made
  obtain ⟨corresp, scheme⟩ := Option.filter_eq_some_iff.mp named
  obtain rfl : urn = mapping.urn := congrArg (·.urn) same
  refine ⟨document, reads, Or.inr ?_⟩
  rw [findMarker?_of_scheme scheme, Document.find?, List.find?_isSome]
  exact ⟨node, isNode, by simp [corresp]⟩

/-- Bounds are missing only for a fragment. -/
theorem locate_failure {document : Document} {start stop : String} (first : Marked document start)
    (last : Marked document stop) :
    (Run.ofExcept (Bounds.locate document start stop)).FailsOnly
      (Failure library tables compiled) := by
  intro error failed
  rw [Run.result_ofExcept] at failed
  obtain ⟨missing, rfl⟩ | ⟨missing, rfl⟩ | ⟨why, rfl⟩ := Bounds.locate_eq_error failed
  · exact .startMarker (first.resolve_right (by simp [missing]))
  · exact .endMarker (last.resolve_right (by simp [missing]))
  · exact .badRange _

/-! ## 4. Targets

A target that is an identifier is looked up in rows, and these lead to markers that are there. What
is left is that there is no row, that two targets are in different places, or that a fragment is not
in the document. -/

/-- Whether a mapping says where a location is. -/
def Mapped (tables : Tables) (location : Location) : Prop :=
  ∃ mapping ∈ tables.mappings.map (·.row), Tables.locationOf mapping = location

/-- A place that an identifier is resolved to has a row. -/
theorem mapped_of_mem_resolve {urn : String} {location : Location}
    (member : location ∈ tables.resolve urn) : Mapped tables location := by
  obtain ⟨mapping, isMapping, rfl⟩ := List.mem_map.mp member
  exact ⟨mapping, (List.mem_filter.mp (List.mem_mergeSort.mp isMapping)).1, rfl⟩

/-- Both ends of what an identifier resolves to are mapped, and lie in one file. -/
theorem mapped_of_mem_resolveRange {urn : String} {resolution : Resolution}
    (member : resolution ∈ tables.resolveRange urn) :
    Mapped tables resolution.start ∧ Mapped tables resolution.stop ∧
      resolution.stop.file = resolution.start.file := by
  unfold Tables.resolveRange at member
  split at member
  · obtain ⟨location, isThere, rfl⟩ := List.mem_map.mp member
    have mapped := mapped_of_mem_resolve isThere
    exact ⟨mapped, mapped, rfl⟩
  · obtain ⟨start, isStart, paired⟩ := List.mem_filterMap.mp member
    obtain ⟨stop, isStop, rfl⟩ := Option.map_eq_some_iff.mp paired
    refine ⟨mapped_of_mem_resolve isStart,
      mapped_of_mem_resolve (List.mem_of_find?_eq_some isStop), ?_⟩
    show stop.file = start.file
    simpa using List.find?_some isStop

/-- The best place has rows for both of its ends, in one file of a listed project. -/
theorem mapped_of_best? {urn : String} {priority : List String} {best : Resolution}
    (isBest : Priority.best? (tables.resolveRange urn) priority = some best) :
    Mapped tables best.start ∧ Mapped tables best.stop ∧ best.stop.file = best.start.file ∧
      best.file.project ∈ priority := by
  obtain ⟨isResolved, isListed⟩ := Priority.mem_of_best? isBest
  obtain ⟨start, stop, same⟩ := mapped_of_mem_resolveRange isResolved
  exact ⟨start, stop, same, isListed⟩

/-- Two mapped places of one file are a target that can be reached. -/
theorem Library.Agrees.reachable (agrees : library.Agrees tables) {start stop : Location}
    (first : Mapped tables start) (last : Mapped tables stop) (same : stop.file = start.file) :
    Target.Reachable library ⟨start.file, start.urn, stop.urn⟩ := by
  obtain ⟨startRow, isStart, rfl⟩ := first
  obtain ⟨stopRow, isStop, rfl⟩ := last
  obtain ⟨document, reads, marked⟩ := agrees.marked isStart
  obtain ⟨other, readsOther, markedOther⟩ := agrees.marked isStop
  have same : stopRow.file = startRow.file := same
  rw [same, reads] at readsOther
  cases readsOther
  exact ⟨document, reads, marked, markedOther⟩

/-- A target that leads nowhere may fail as a target that is missing. -/
theorem unresolved_failure {priority : List String} {target : String}
    (nothing : tables.resolveRange target = []) :
    Failure library tables compiled (Target.unresolved tables priority target) := by
  unfold Target.unresolved
  split
  · exact .target nothing
  · split
    split
    · exact .badRange _
    · exact .target nothing

/-- Whether looking for a target ends in one that can be reached, or for a listed cause. -/
def Settled (library : Library) (tables : Tables) (compiled : SourceFile) :
    Except Error Target → Prop
  | .ok target => target.Reachable library
  | .error error => Failure library tables compiled error

/-- A place for one target is settled if it has a row. -/
theorem settled_ofSingle (agrees : library.Agrees tables) {target : String}
    {targetEnd : Option String} {start : Location} (first : Mapped tables start) :
    Settled library tables compiled (Target.ofSingle tables target targetEnd start) := by
  unfold Target.ofSingle
  split
  · exact agrees.reachable first first rfl
  · split
    · rename_i nothing
      exact .targetEnd nothing
    · rename_i stop isStop
      obtain ⟨-, last, sameFile, isProject⟩ := mapped_of_best? isStop
      split
      · rename_i sameName
        have sameProject : stop.file.project = start.file.project := List.mem_singleton.mp isProject
        refine agrees.reachable first last (sameFile.trans ?_)
        show stop.file = start.file
        cases other : stop.file
        cases own : start.file
        rw [other, own] at sameName sameProject
        rw [SourceFile.mk.injEq]
        exact ⟨sameProject, sameName⟩
      · exact .badRange _

/-- What an identifier points at can be reached, if it points at anything. -/
theorem settled_ofUrn (agrees : library.Agrees tables) (target : String)
    (targetEnd : Option String) :
    Settled library tables compiled
      (Target.ofUrn tables library.settings.transclusion target targetEnd) := by
  unfold Target.ofUrn
  dsimp only
  split
  · rename_i isEmpty
    exact unresolved_failure (List.isEmpty_iff.mp isEmpty)
  · split
    · rename_i unlisted
      exact .listedTarget unlisted
    · rename_i start stop isBest
      obtain ⟨first, last, same, -⟩ := mapped_of_best? isBest
      split
      · exact .badRange _
      · exact agrees.reachable first last same
    · rename_i start isBest
      exact settled_ofSingle agrees (mapped_of_best? isBest).1

/-- Whether the document of a site is that of its file. -/
def Site.IsRead (site : Site) (library : Library) : Prop :=
  library.document site.file = .ok site.document

variable {nested : Nested} {site : Site}

/-- What a directive points at can be reached, if it points at anything. -/
theorem settled_locate (agrees : library.Agrees tables) (isRead : site.IsRead library)
    (target : String) (targetEnd : Option String) :
    Settled library tables compiled (Target.locate library site.file target targetEnd).result := by
  unfold Target.locate
  split
  · rename_i isLocal
    rw [Run.result_ofExcept]
    unfold Target.ofFragment
    dsimp only
    split
    · rename_i endsLocal
      exact ⟨site.document, isRead, Or.inl isLocal, Or.inl endsLocal⟩
    · exact .badRange _
  · rw [Run.result_bind, Library.ask, agrees.holds]
    exact settled_ofUrn agrees target targetEnd

/-! ## 5. What frames give

A walk asks other frames for targets that are reachable and for notes that rows lead to. If the
frames fail only for the causes that are listed, whatever asks them does. -/

/-- Whether frames fail for the listed causes only: copies of files that can be read or are the
compiled one, and what lies between markers that can be reached. -/
structure Nested.FailsOnly (library : Library) (tables : Tables) (compiled : SourceFile)
    (nested : Nested) : Prop where
  copy : ∀ home file root,
    (∀ error, library.document file = .error error → Failure library tables compiled error) →
      (nested.copy home file root).FailsOnly (Failure library tables compiled)
  external : ∀ target : Target, target.Reachable library →
    (nested.external target.file target.start target.stop).FailsOnly
      (Failure library tables compiled)
  inline : ∀ target : Target, target.Reachable library →
    (nested.inline target.file target.start target.stop).FailsOnly
      (Failure library tables compiled)

/-- Copying from a document that can be read fails only in what is included there. -/
theorem Nested.FailsOnly.copy_of_read (fails : nested.FailsOnly library tables compiled)
    {file : SourceFile} {document : Document} (reads : library.document file = .ok document)
    (home : Option SourceFile) (root : Option Node) :
    (nested.copy home file root).FailsOnly (Failure library tables compiled) := by
  refine fails.copy home file root ?_
  intro error failed
  rw [reads] at failed
  cases failed

/-- A wrapper is filled from a target that is reachable. -/
theorem filled_failsOnly (fails : nested.FailsOnly library tables compiled) {target : Target}
    (reachable : target.Reachable library) (extraction : Extraction) (element : Element) :
    (filled nested target extraction element).FailsOnly (Failure library tables compiled) := by
  cases extraction with
  | external => exact (fails.external target reachable).bind fun _ _ => .pure _
  | inline => exact (fails.inline target reachable).bind fun _ _ => .pure _

section

variable (agrees : library.Agrees tables) (isRead : site.IsRead library)
  (fails : nested.FailsOnly library tables compiled)

include agrees fails

/-- A note that a row of the index leads to is found and copied. -/
theorem note_failsOnly {α : Type} {file : SourceFile} {path : String}
    (row : NoteRow library file path) {missing : Error} {next : Document → Node → Element → α} :
    (library.read file >>= fun source =>
      match source.byPath? path with
      | none => .fail missing
      | some found => nested.copy (some site.file) file (some found) >>= fun note =>
        pure (next source found note)).FailsOnly (Failure library tables compiled) := by
  obtain ⟨document, found, reads, isThere⟩ := agrees.exists_note row
  refine read_failsOnly reads ?_
  rw [isThere]
  exact (fails.copy_of_read reads _ _).bind fun _ _ => .pure _

/-- The notes on an element are copied from documents that can be read. -/
theorem commentary_failsOnly (node : Node) :
    (commentary library nested site node).FailsOnly (Failure library tables compiled) := by
  unfold commentary
  split
  · exact .pure _
  · refine (ask_failsOnly agrees).bind ?_
    intro others asked
    refine Run.FailsOnly.bind (Run.FailsOnly.mapM ?_) fun _ _ => .pure _
    intro reference isReference
    obtain ⟨inTables, isNote⟩ := List.mem_filter.mp (Priority.mem_ranked.mp isReference).1
    exact note_failsOnly agrees fails ⟨others, ask_eq_ok.mp asked, Or.inl ⟨reference,
      mem_of_mem_referencesTo inTables, of_decide_eq_true isNote, rfl, rfl⟩⟩

theorem instruction_failsOnly (node : Node) (urn : String) :
    (instruction library nested site node urn).FailsOnly (Failure library tables compiled) := by
  refine (ask_failsOnly agrees).bind ?_
  intro others asked
  cases isBest : bestInstruction? others library.settings.instructions urn with
  | none => exact .pure _
  | some best =>
    obtain ⟨inTables, isNote⟩ := mem_of_bestInstruction? isBest
    have holds := ask_eq_ok.mp asked
    have isRow : best ∈ tables.mappings.map (·.row) := by
      cases agrees.holds.symm.trans holds
      exact inTables
    obtain ⟨document, -, source, -, made⟩ := agrees.mappings best isRow
    have atPath := (Index.mappingOf?_eq_some made).2.1
    dsimp only
    split
    · exact .pure _
    · rw [atPath]
      exact note_failsOnly agrees fails
        ⟨others, holds, Or.inr ⟨best, inTables, isNote, rfl, atPath⟩⟩

/-- What is applied to a node is there, if it can be had at all. -/
theorem annotate_failsOnly (node : Node) :
    (annotate library nested site node).FailsOnly (Failure library tables compiled) := by
  unfold annotate
  split
  · exact instruction_failsOnly agrees fails node _
  · exact commentary_failsOnly agrees fails node

include isRead

/-- A directive fails for its target, or in what the target holds. -/
theorem transclude_failsOnly (node : Node) (extraction : Extraction) :
    (transclude library nested site node extraction).FailsOnly
      (Failure library tables compiled) := by
  unfold transclude
  cases node.value? (.plain "target") with
  | none => exact .fail (.directiveTarget _)
  | some start =>
    have settled := @settled_locate library tables compiled site agrees isRead start
      (node.value? (.plain "targetEnd"))
    refine Run.FailsOnly.bind ?_ ?_
    · intro error failed
      rw [failed] at settled
      exact settled
    · intro target located
      rw [located] at settled
      refine (filled_failsOnly fails settled _ _).bind fun _ _ => ?_
      obtain ⟨document, reads, -⟩ := settled
      exact read_failsOnly reads (.pure _)

/-! ## 6. Walks

Walks fail in the directives and notes that they meet and nowhere else. The inductions follow the
walks themselves, each over node and forest at once. -/

-- in a mutual recursion the linter misses what only the other theorem uses
set_option linter.unusedSectionVars false

mutual

/-- A copy of a node fails only for what it includes. -/
theorem copy_failsOnly : ∀ node : Node,
    (copy library nested site node).FailsOnly (Failure library tables compiled)
  | ⟨own, path, name, attributes, text, children, tail⟩ => by
    rw [copy]
    split
    · exact transclude_failsOnly agrees isRead fails _ _
    · refine (annotate_failsOnly agrees fails _).bind ?_
      intro applied _
      split
      · exact .pure _
      · exact (copyForest_failsOnly children).bind fun _ _ => .pure _

theorem copyForest_failsOnly : ∀ nodes : List Node,
    (copyForest library nested site nodes).FailsOnly (Failure library tables compiled)
  | [] => .pure _
  | first :: rest => by
    rw [copyForest]
    exact (copy_failsOnly first).bind fun _ _ =>
      (copyForest_failsOnly rest).bind fun _ _ => .pure _

end

theorem copyNote_failsOnly (node : Node) :
    (copyNote library nested site node).FailsOnly (Failure library tables compiled) := by
  unfold copyNote
  split
  · exact transclude_failsOnly agrees isRead fails _ _
  · exact (copyForest_failsOnly agrees isRead fails _).bind fun _ _ => .pure _

variable {walk : Walk}

mutual

/-- A walk that extracts structure fails only for what it includes. -/
theorem external_failsOnly : ∀ (progress : Progress) (node : Node),
    (external library nested site walk progress node).FailsOnly (Failure library tables compiled)
  | progress, ⟨own, path, name, attributes, text, children, tail⟩ => by
    rw [external]
    refine (Run.FailsOnly.record _).bind ?_
    intro _ _
    split
    · exact .pure _
    · split
      · exact (transclude_failsOnly agrees isRead fails _ _).bind fun _ _ => .pure _
      · refine (annotate_failsOnly agrees fails _).bind ?_
        intro applied _
        split
        · exact .pure _
        · exact (externalForest_failsOnly _ children).bind fun _ _ => .pure _
    · exact (externalForest_failsOnly _ children).bind fun _ _ => .pure _
    · exact (externalForest_failsOnly _ children).bind fun _ _ => .pure _

theorem externalForest_failsOnly : ∀ (progress : Progress) (nodes : List Node),
    (externalForest library nested site walk progress nodes).FailsOnly
      (Failure library tables compiled)
  | progress, [] => .pure _
  | progress, first :: rest => by
    rw [externalForest]
    exact (external_failsOnly progress first).bind fun _ _ =>
      (externalForest_failsOnly _ rest).bind fun _ _ => .pure _

end

theorem inlineInstruction_failsOnly (node : Node) :
    (inlineInstruction library nested site node).FailsOnly (Failure library tables compiled) := by
  refine (annotate_failsOnly agrees fails node).bind ?_
  intro applied _
  split
  · exact .pure _
  · exact (fails.copy_of_read isRead _ _).bind fun _ _ => .pure _

mutual

/-- A walk that extracts text fails only for what it includes. -/
theorem inline_failsOnly :
    ∀ (lang : Option String) (progress : Progress) (node : Node),
      (inline library nested site walk lang progress node).FailsOnly
        (Failure library tables compiled)
  | lang, progress, ⟨own, path, name, attributes, text, children, tail⟩ => by
    rw [inline]
    refine (Run.FailsOnly.record _).bind ?_
    intro _ _
    split
    · exact .pure _
    · split
      · exact (transclude_failsOnly agrees isRead fails _ _).bind fun _ _ => .pure _
      · exact (inlineInstruction_failsOnly agrees isRead fails _).bind fun _ _ => .pure _
      · exact (annotate_failsOnly agrees fails _).bind fun _ _ =>
          (inlineForest_failsOnly _ _ children).bind fun _ _ => .pure _
    · exact (inlineForest_failsOnly _ _ children).bind fun _ _ => .pure _

theorem inlineForest_failsOnly :
    ∀ (lang : Option String) (progress : Progress) (nodes : List Node),
      (inlineForest library nested site walk lang progress nodes).FailsOnly
        (Failure library tables compiled)
  | lang, progress, [] => .pure _
  | lang, progress, first :: rest => by
    rw [inlineForest]
    exact (inline_failsOnly lang progress first).bind fun _ _ =>
      (inlineForest_failsOnly lang _ rest).bind fun _ _ => .pure _

end

end

/-! ## 7. Frames

A frame reads its document, finds its markers and walks. It may be refused by the limit, and
otherwise fails as its walk does, given that further frames do. -/

/-- What is done in a frame fails as its walks do, or for the limit. -/
theorem within_failsOnly {α : Type} {deeper : Deeper} {frame : Frame} {walks : Nested → Run α}
    (further : ∀ nested, deeper = some nested → (nested ()).FailsOnly library tables compiled)
    (walk : ∀ nested : Nested, nested.FailsOnly library tables compiled →
      (walks nested).FailsOnly (Failure library tables compiled)) :
    (deeper.within library frame walks).FailsOnly (Failure library tables compiled) := by
  cases deeper with
  | none => exact .fail (.tooDeep _ _)
  | some nested => exact (walk _ (further nested rfl)).inside frame

/-- What can be reached can be read and has bounds, or is refused as a range. -/
theorem bounded_failsOnly {α : Type} {target : Target} (reachable : target.Reachable library)
    {next : Document → Bounds → Run α}
    (ran : ∀ {document bounds}, Site.IsRead ⟨target.file, document⟩ library →
      (next document bounds).FailsOnly (Failure library tables compiled)) :
    (library.read target.file >>= fun document =>
      .ofExcept (Bounds.locate document target.start target.stop) >>= next document).FailsOnly
        (Failure library tables compiled) := by
  obtain ⟨document, reads, first, last⟩ := reachable
  exact read_failsOnly reads ((locate_failure first last).bind fun bounds _ => ran reads)

/-- A frame fails only for the causes that are listed if all further ones do. -/
theorem level_failsOnly (agrees : library.Agrees tables) {deeper : Deeper}
    (further : ∀ nested, deeper = some nested → (nested ()).FailsOnly library tables compiled) :
    (level library deeper).FailsOnly library tables compiled where
  copy home file root unread := by
    have read : (library.read file).FailsOnly (Failure library tables compiled) := by
      intro error failed
      rw [Library.result_read] at failed
      exact unread error failed
    refine read.bind ?_
    intro document reads
    rw [Library.result_read] at reads
    have isRead : Site.IsRead ⟨file, document⟩ library := reads
    refine (within_failsOnly further fun nested fails => ?_).bind fun _ _ => .pure _
    cases root with
    | none => exact copy_failsOnly agrees isRead fails _
    | some node => exact copyNote_failsOnly agrees isRead fails node
  external target reachable := bounded_failsOnly reachable fun isRead =>
    (within_failsOnly further fun nested fails => external_failsOnly agrees isRead fails _ _).bind
      fun _ _ => .pure _
  inline target reachable := bounded_failsOnly reachable fun isRead =>
    (within_failsOnly further fun nested fails => inline_failsOnly agrees isRead fails _ _ _).bind
      fun _ _ => .pure _

/-- However many frames are left, they fail only for the causes that are listed. -/
theorem levels_failsOnly (agrees : library.Agrees tables) : ∀ remaining : Nat,
    (levels library remaining).FailsOnly library tables compiled
  | 0 => level_failsOnly agrees fun nested found => by cases found
  | remaining + 1 => level_failsOnly agrees fun nested found => by
      cases found
      exact levels_failsOnly agrees remaining

/-- A file that cannot be read cannot be compiled. -/
theorem compile_of_unread {file : SourceFile} {error : Error}
    (fails : library.document file = .error error) :
    (compile library file).result = .error error := by
  have copies (deeper : Deeper) : ((level library deeper).copy none file none).result =
      .error error := by
    simp only [level, Run.result_bind, Library.result_read, fails]
    rfl
  unfold compile
  cases library.settings.maxDepth with
  | zero => exact copies none
  | succ remaining => exact copies _

/-- That the compiled file cannot be read is one of the causes. -/
theorem failure_of_unread (agrees : library.Agrees tables) {error : Error}
    (fails : library.document compiled = .error error) :
    Failure library tables compiled error := by
  rcases agrees.unread compiled error fails with ⟨path, rfl⟩ | ⟨path, fault, rfl⟩
  · exact .missingFile fails
  · exact .malformedFile fails

/-- A compilation fails only for the causes that are listed. -/
theorem compile_failsOnly (agrees : library.Agrees tables) (file : SourceFile) :
    (compile library file).FailsOnly (Failure library tables file) :=
  (levels_failsOnly agrees _).copy none file none fun _ => failure_of_unread agrees

/-- Compiling into a text fails for no further cause. -/
theorem compileText_failsOnly (agrees : library.Agrees tables) (file : SourceFile) :
    (compileText library file).FailsOnly (Failure library tables file) := by
  refine (compile_failsOnly agrees file).bind ?_
  intro tree _
  refine Run.FailsOnly.bind ?_ fun _ _ => .pure _
  intro error failed
  rw [Library.result_read] at failed
  exact failure_of_unread agrees failed

/-! ## 8. A synced corpus -/

/-- What a compilation works on at a moment, when no document is kept. -/
def ofMoment (moment : Index.Moment) (settings : Settings) (base : String) : Library :=
  ⟨settings, some moment.tables, Cache.document [] moment.disk base⟩

/-- What scanning a file finds, it finds in the document that a compilation reads. -/
theorem scanFile_cases (disk : Corpus.Disk) (base : String) (file : SourceFile) :
    Index.scanFile disk base file = ⟨[], []⟩ ∨ ∃ document,
      Cache.document [] disk base file = .ok document ∧
        Index.scanFile disk base file = Index.scan document file := by
  refine (Index.scanFile_cases disk base file).imp_right ?_
  rintro ⟨bytes, document, found, read, same⟩
  refine ⟨document, ?_, same⟩
  exact Cache.load_of_bytes found read

/-- An index that mirrors a corpus agrees with the documents of the corpus. -/
theorem agrees_of_mirrors {moment : Index.Moment} {base : String}
    (mirrors : moment.tables.Mirrors moment.disk base) (settings : Settings) :
    (ofMoment moment settings base).Agrees moment.tables where
  holds := rfl
  mappings mapping isRow := by
    obtain ⟨row, member, rfl⟩ := List.mem_map.mp isRow
    have scanned := (mirrors.mappings row member).2
    rcases scanFile_cases moment.disk base row.row.file with none | ⟨document, reads, same⟩
    · rw [none] at scanned
      cases scanned
    · rw [same] at scanned
      exact ⟨document, reads, Index.exists_of_mem_scan_mappings scanned⟩
  references reference isRow := by
    have scanned : reference ∈ moment.tables.referencesIn reference.file :=
      List.mem_filter.mpr ⟨isRow, by simp⟩
    rw [mirrors.references] at scanned
    split at scanned
    · rcases scanFile_cases moment.disk base reference.file with none | ⟨document, reads, same⟩
      · rw [none] at scanned
        cases scanned
      · rw [same] at scanned
        exact ⟨document, reads, List.mem_flatMap.mp scanned⟩
    · cases scanned
  unread file error fails := by
    have loads : Cache.load moment.disk base file = .error error := fails
    unfold Cache.load at loads
    split at loads
    · cases loads
      exact Or.inl ⟨_, rfl⟩
    · rename_i bytes _
      cases read : Document.ofBytes bytes with
      | ok document =>
        rw [read] at loads
        cases loads
      | error fault =>
        rw [read] at loads
        cases loads
        exact Or.inr ⟨_, _, rfl⟩

/-- Whatever was done to a corpus and its index, after the corpus was synced a compilation with
nothing kept fails only because the compiled file cannot be read, a target leads nowhere or names a
fragment that is not there, two markers bound no range, or the limit of frames is reached. -/
theorem failure_of_history {base : String} {history : List Index.Action} {projects : List String}
    (now : Nat) (timely : (Index.Moment.run base history).Timely base)
    (listed : Index.corpusProjects (Index.Moment.run base history).disk base = .ok projects)
    (settings : Settings) (file : SourceFile) :
    let synced := (Index.Moment.run base history).act base (.syncCorpus now)
    let library := ofMoment synced settings base
    (compile library file).FailsOnly (Failure library synced.tables file) ∧
      (compileText library file).FailsOnly (Failure library synced.tables file) := by
  intro synced library
  have mirrors := (Index.Moment.sound_run base history).mirrors now timely listed
  rw [← Index.Moment.disk_syncCorpus _ base now] at mirrors
  have agrees : library.Agrees synced.tables := agrees_of_mirrors mirrors settings
  exact ⟨compile_failsOnly agrees file, compileText_failsOnly agrees file⟩

/-! ## 9. A failure behind a target and a note -/

/-- A walk fails where it takes a node to which something applies that cannot be had. -/
theorem external_of_unannotated {nested : Nested} {site : Site} {walk : Walk} {progress : Progress}
    {node : Node} {error : Error} (taken : (walk.enter progress node).frame.command = .copy)
    (role : Role.of node ≠ .directive)
    (fails : (annotate library nested site node).result = .error error) :
    (external library nested site walk progress node).result = .error error := by
  obtain ⟨id, path, name, attributes, text, children, tail⟩ := node
  rw [external, Run.result_record_bind, taken]
  dsimp only
  rw [if_neg role]
  exact Run.result_bind_of_error fails _

/-- The identifier is resolved where the first file defines it. -/
theorem resolveRange_edited : Index.editedTables.resolveRange "urn:x-opensiddur:u" =
    [.single ⟨Index.firstFile, "urn:x-opensiddur:u", some "/p"⟩] := by
  decide +kernel

/-- One note is on the part that is included. -/
theorem noteReferences_edited : noteReferences Index.editedTables ["A"] Index.firstFile
    Index.partDocument.root = [Index.noteReference] := by
  have identifier : Index.partDocument.root.corresp? = some "urn:x-opensiddur:u" := by decide
  have noFragment : Index.partDocument.root.xmlId? = none := by decide
  have named : Index.editedTables.referencesTo (some "urn:x-opensiddur:u") none =
      [Index.noteReference, Index.pointerReference] :=
    List.mergeSort_of_pairwise (by decide +kernel)
  rw [noteReferences, identifier, noFragment, Option.map_none, named, Priority.ranked_eq_flatMap]
  decide +kernel

section Edited

-- the library is any with these tables and documents, so that nothing of it is computed twice
variable {library : Library} (asks : library.ask.result = .ok Index.editedTables)
  (trusts : library.settings = .forProject "A")
  (note : library.document Index.noteFile = .ok Index.noteDocument)
  (part : library.document Index.firstFile = .ok Index.partDocument)
  (pointer : library.document Index.pointerFile = .ok Index.pointerDocument)

include asks trusts

/-- The directive in the note points at nothing, so the note cannot be copied. -/
theorem copyNote_edited (nested : Nested) (site : Site) :
    (copyNote library nested site Index.noteDocument.root).result =
      .error (.missing (.target "v")) := by
  have nowhere : Index.editedTables.resolveRange "v" = [] := by decide +kernel
  have unresolved : (Target.locate library site.file "v" none).result =
      .error (.missing (.target "v")) := by
    rw [Target.locate, if_neg (by decide), Run.result_bind_of_ok asks, trusts, Target.ofUrn,
      nowhere]
    rfl
  rw [copyNote, if_neg (by decide)]
  refine Run.result_bind_of_error ?_ _
  show (copyForest library nested site [_]).result = _
  rw [copyForest]
  refine Run.result_bind_of_error ?_ _
  rw [copy, if_pos (by decide)]
  exact Run.result_bind_of_error unresolved _

include note

/-- The part that has the identifier cannot be shown, because the note applies to it. -/
theorem annotate_edited (frames : Nat) :
    (annotate library (levels library (frames + 1)) ⟨Index.firstFile, Index.partDocument⟩
      Index.partDocument.root).result = .error (.missing (.target "v")) := by
  have copies : ((levels library (frames + 1)).copy (some Index.firstFile) Index.noteFile
      (some Index.noteDocument.root)).result = .error (.missing (.target "v")) := by
    rw [levels, level, Run.result_bind_of_ok ((Library.result_read ..).trans note)]
    refine Run.result_bind_of_error ?_ _
    exact copyNote_edited asks trusts (levels library frames) _
  have fails : (noteOf library (levels library (frames + 1)) ⟨Index.firstFile, Index.partDocument⟩
      Index.partDocument.root Index.noteReference).result = .error (.missing (.target "v")) := by
    rw [noteOf, show Index.noteReference.file = Index.noteFile from rfl,
      Run.result_bind_of_ok ((Library.result_read ..).trans note)]
    exact Run.result_bind_of_error copies _
  rw [annotate, show Role.of Index.partDocument.root = .plain by decide]
  show (commentary _ _ _ _).result = _
  rw [commentary, if_neg (by decide), Run.result_bind_of_ok asks, trusts]
  refine Run.result_bind_of_error ?_ _
  show (List.mapM _ (noteReferences Index.editedTables ["A"] Index.firstFile
    Index.partDocument.root) : Run _).result = _
  rw [noteReferences_edited, List.mapM_cons]
  exact Run.result_bind_of_error fails _

include part pointer

/-- So the directive that points at the part cannot be replaced. -/
theorem compile_edited :
    (compile library Index.pointerFile).result = .error (.missing (.target "v")) := by
  have located : (Target.locate library Index.pointerFile "urn:x-opensiddur:u" none).result =
      .ok ⟨Index.firstFile, "urn:x-opensiddur:u", "urn:x-opensiddur:u"⟩ := by
    have best : Priority.best? (Index.editedTables.resolveRange "urn:x-opensiddur:u") ["A"] =
        some (.single ⟨Index.firstFile, "urn:x-opensiddur:u", some "/p"⟩) := by
      rw [resolveRange_edited]
      decide +kernel
    rw [Target.locate, if_neg (by decide), Run.result_bind_of_ok asks, trusts]
    show Target.ofUrn Index.editedTables ["A"] "urn:x-opensiddur:u" none = _
    rw [Target.ofUrn, best, resolveRange_edited]
    rfl
  have bounded : (Run.ofExcept (Bounds.locate Index.partDocument "urn:x-opensiddur:u"
      "urn:x-opensiddur:u")).result = .ok ⟨0, 0, 0⟩ := by
    decide +kernel
  have shown : ((levels library 31).external Index.firstFile "urn:x-opensiddur:u"
      "urn:x-opensiddur:u").result = .error (.missing (.target "v")) := by
    rw [levels, level, Run.result_bind_of_ok ((Library.result_read ..).trans part),
      Run.result_bind_of_ok bounded]
    refine Run.result_bind_of_error ?_ _
    exact external_of_unannotated (by decide +kernel) (by decide)
      (annotate_edited asks trusts note 29)
  rw [compile, trusts]
  show ((levels library 32).copy none Index.pointerFile none).result = _
  rw [levels, level, Run.result_bind_of_ok ((Library.result_read ..).trans pointer)]
  refine Run.result_bind_of_error ?_ _
  show (copy library (levels library 31) _ Index.pointerDocument.root).result = _
  rw [Index.pointerDocument, copy, if_pos (by decide)]
  show (Target.locate library Index.pointerFile "urn:x-opensiddur:u" none >>= _).result = _
  rw [Run.result_bind_of_ok located]
  exact Run.result_bind_of_error (Run.result_bind_of_error shown _) _

end Edited

/-- What a directive points at may be there and the note that applies to it as well, and compiling
fails all the same for a directive in the note, which points at nothing. -/
theorem failure_of_edited :
    let synced := (Index.Moment.run "project" Index.edited).act "project" (.syncCorpus 4)
    let library := ofMoment synced (.forProject "A") "project"
    synced.tables.resolveRange "urn:x-opensiddur:u" =
        [.single ⟨Index.firstFile, "urn:x-opensiddur:u", some "/p"⟩] ∧
      noteReferences synced.tables ["A"] Index.firstFile Index.partDocument.root =
        [Index.noteReference] ∧
      (compile library Index.pointerFile).result = .error (.missing (.target "v")) ∧
      Failure library synced.tables Index.pointerFile (.missing (.target "v")) := by
  intro synced library
  have tables : synced.tables = Index.editedTables := by
    have run := Index.tables_edited
    rwa [Index.Moment.run_append, List.foldl_cons, List.foldl_nil] at run
  have disk : synced.disk = Index.editedShelf :=
    (Index.Moment.disk_syncCorpus _ _ _).trans (congrArg (·.disk) Index.run_edited)
  have asks : library.ask.result = .ok Index.editedTables := congrArg Except.ok tables
  have reads {file : SourceFile} {text : String} {document : Document}
      (found : Index.editedShelf.bytes? (Index.filePath "project" file) = some text.toUTF8)
      (parsed : Document.parse text = .ok document) :
      library.document file = .ok document :=
    Cache.load_of_bytes (disk ▸ found) ((Document.ofBytes_toUTF8 text).trans parsed)
  have fails : (compile library Index.pointerFile).result = .error (.missing (.target "v")) :=
    compile_edited asks rfl (reads rfl Index.note_parse) (reads rfl Index.part_parse)
      (reads rfl Index.pointer_parse)
  refine ⟨tables ▸ resolveRange_edited, tables ▸ noteReferences_edited, fails, ?_⟩
  exact (failure_of_history 4 Index.timely_edited Index.listed_edited (.forProject "A")
    Index.pointerFile).1 _ fails

end Intertext.Compile
