import Intertext.Proofs.Compile.Borrowed
import Intertext.Proofs.Compile.Bounds
/-!
Compilations side by side.

What a compilation does can be compared with what it does over another library or with another
number of frames. A comparison of results (`Comparison`) may be anything that is kept when
computations follow one another. It goes from what two libraries answer to what the walks show,
and from the frames that are asked for to those that ask (`levels_compares`), so it has to be shown
only for the questions a compilation asks: for documents, for targets, for the notes that refer to
an element and for the best instruction of an identifier (`Library.Compares`). These questions
concern files that are *in view*: the compiled file, and every file to which an answer leads.
-/

namespace Intertext.Compile

open Markup (Document Element Node)
open Index (Mapping Reference)

/-! ## 1. Comparisons

A comparison relates the result of a run to that of another, and it may say anything as long as it
holds of equal results, goes on through what follows, and asks nothing where the first run lacks a
frame. Whoever compares two compilations says which comparison it is and shows it of the answers. -/

/-- Whether a result is not that one frame more would have been needed. -/
def IsShallow {α : Type} (result : Except Error α) : Prop :=
  ∀ file limit, result ≠ .error (.tooDeep file limit)

/-- A way to compare the result of a computation, whose frames are limited, with that of another
one. -/
structure Comparison (limit : Nat) where
  Holds : ∀ {α : Type}, Except Error α → Except Error α → Prop
  refl : ∀ {α : Type} {result : Except Error α}, IsShallow result → Holds result result
  /-- What follows is compared only after values that there are. -/
  bind : ∀ {α β : Type} {first other : Except Error α} {next next' : α → Except Error β},
    Holds first other → (∀ value, first = .ok value → Holds (next value) (next' value)) →
      Holds (first >>= next) (other >>= next')
  /-- Where the first computation lacks a frame, nothing is asked of the other one. -/
  tooDeep : ∀ {α : Type} (file : SourceFile) (other : Except Error α),
    Holds (.error (.tooDeep file limit)) other

variable {limit : Nat} {α β : Type}

/-- Whether the results of two runs compare. -/
def Comparison.Runs (comparison : Comparison limit) (run other : Run α) : Prop :=
  comparison.Holds run.result other.result

namespace Comparison

variable {comparison : Comparison limit}

/-- A run compares with itself, unless it failed for want of one more frame. -/
theorem Runs.refl {run : Run α} (shallow : IsShallow run.result) : comparison.Runs run run :=
  comparison.refl shallow

theorem Runs.pure (value : α) : comparison.Runs (pure value) (pure value) :=
  comparison.refl (by intro _ _ wrong; cases wrong)

theorem Runs.missing (what : Missing) :
    comparison.Runs (.fail (.missing what) : Run α) (.fail (.missing what)) :=
  comparison.refl (by intro _ _ wrong; cases wrong)

/-- What follows on a comparison compares, if it does for every value that came first. -/
theorem Runs.bind {run other : Run α} {next next' : α → Run β} (first : comparison.Runs run other)
    (rest : ∀ value, run.result = .ok value → comparison.Runs (next value) (next' value)) :
    comparison.Runs (run >>= next) (other >>= next') := by
  rw [Runs, Run.result_bind, Run.result_bind]
  exact comparison.bind first rest

/-- A record does not enter into a comparison. -/
theorem Runs.record (event : Event) {next : Unit → Run α} {next' : Unit → Run α}
    (rest : comparison.Runs (next ()) (next' ())) :
    comparison.Runs (Run.record event >>= next) (Run.record event >>= next') := by
  rwa [Runs, Run.result_record_bind, Run.result_record_bind]

/-- Lists of runs compare if their members do. -/
theorem Runs.mapM {action action' : α → Run β} : ∀ {values : List α},
    (∀ value ∈ values, comparison.Runs (action value) (action' value)) →
      comparison.Runs (values.mapM action) (values.mapM action')
  | [], _ => .pure []
  | first :: rest, all => by
    rw [List.mapM_cons, List.mapM_cons]
    refine (all first List.mem_cons_self).bind fun _ _ => ?_
    refine Runs.bind (Runs.mapM fun value member => ?_) fun _ _ => .pure _
    exact all value (List.mem_cons_of_mem _ member)

/-- Values are kept: where the first computation gives one, the other one gives the same. -/
def ofValues (limit : Nat) : Comparison limit where
  Holds first other := ∀ value, first = .ok value → other = .ok value
  refl _ _ same := same
  bind first rest result ran := by
    obtain ⟨value, found, ran⟩ := Outcome.bind_eq_ok.mp ran
    exact Outcome.bind_eq_ok.mpr ⟨value, first value found, rest value found result ran⟩
  tooDeep _ _ _ wrong := by cases wrong

end Comparison

/-! ## 2. Questions

Notes and instructions are looked for in the tables by several queries. They are gathered here into
one question for each, so that a library has to be compared in four questions only. -/

/-- The references of notes to an element of a file, best first. -/
def Library.referencing (library : Library) (file : SourceFile) (node : Node) :
    Run (List Reference) :=
  (noteReferences · library.settings.annotations file node) <$> library.ask

/-- The best definition of an instruction. -/
def Library.bestInstruction? (library : Library) (urn : String) : Run (Option Mapping) :=
  (Compile.bestInstruction? · library.settings.instructions urn) <$> library.ask

/-- Commentary is asked for by the references of notes. -/
theorem commentary_eq (library : Library) (nested : Nested) (site : Site) (node : Node) :
    commentary library nested site node =
      if node.corresp?.isNone && node.xmlId?.isNone then pure .nothing else do
        let references ← library.referencing site.file node
        let notes ← references.mapM (noteOf library nested site node)
        return if notes.isEmpty then .nothing else .insert notes := by
  unfold commentary
  split
  · rfl
  · rw [Library.referencing, bind_map_left]

/-- An instruction is asked for by its best definition. -/
theorem instruction_eq (library : Library) (nested : Nested) (site : Site) (node : Node)
    (urn : String) :
    instruction library nested site node urn = (library.bestInstruction? urn >>= fun
      | none => pure .keep
      | some best =>
        if best.file = site.file ∧ best.path = some node.path then pure .keep
        else
          match best.path with
          | none => .fail (.missing (.instructionPlace urn))
          | some path => do
            let source ← library.read best.file
            match source.byPath? path with
            | none => .fail (.missing (.instruction urn path best.file))
            | some found =>
              let note ← nested.copy (some site.file) best.file (some found)
              return .replace
                (stampLang note (source.lang? found.id) (site.document.lang? node.id))) := by
  rw [Library.bestInstruction?, bind_map_left]
  unfold instruction
  refine bind_congr fun tables => ?_
  cases Compile.bestInstruction? tables library.settings.instructions urn with
  | none => rfl
  | some best => rfl

/-- Whether what one library answers compares with what another one does, for files in view. -/
structure Library.Compares (comparison : Comparison limit) (inView : SourceFile → Prop)
    (library other : Library) : Prop where
  read : ∀ file, inView file → comparison.Runs (library.read file) (other.read file)
  locate : ∀ file start stop, inView file → comparison.Runs
    (Target.locate library file start stop) (Target.locate other file start stop)
  target : ∀ {file start stop found}, inView file →
    (Target.locate library file start stop).result = .ok found → inView found.file
  referencing : ∀ file node, inView file →
    comparison.Runs (library.referencing file node) (other.referencing file node)
  referring : ∀ {file node references}, inView file →
    (library.referencing file node).result = .ok references →
      ∀ reference ∈ references, inView reference.file
  instruction : ∀ urn,
    comparison.Runs (library.bestInstruction? urn) (other.bestInstruction? urn)
  best : ∀ {urn best}, (library.bestInstruction? urn).result = .ok (some best) → inView best.file

/-- Whether what frames of one kind give compares with what frames of another kind do. -/
structure Nested.Compares (comparison : Comparison limit) (inView : SourceFile → Prop)
    (nested other : Nested) : Prop where
  copy : ∀ home file root, inView file →
    comparison.Runs (nested.copy home file root) (other.copy home file root)
  external : ∀ file start stop, inView file →
    comparison.Runs (nested.external file start stop) (other.external file start stop)
  inline : ∀ file start stop, inView file →
    comparison.Runs (nested.inline file start stop) (other.inline file start stop)

variable {comparison : Comparison limit} {inView : SourceFile → Prop}
  {library other : Library} {nested nested' : Nested} {site : Site}

/-! ## 3. Directives and notes

Each of these asks the library a question and then asks another frame about a file in view. Where
the answers compare, so does what is made of them. -/

/-- Wrappers compare if what they are filled with does. -/
theorem filled_compares (frames : nested.Compares comparison inView nested') {target : Target}
    (seen : inView target.file) (extraction : Extraction) (element : Element) :
    comparison.Runs (filled nested target extraction element)
      (filled nested' target extraction element) := by
  cases extraction with
  | external => exact (frames.external _ _ _ seen).bind fun _ _ => .pure _
  | inline => exact (frames.inline _ _ _ seen).bind fun _ _ => .pure _

section

variable (answers : library.Compares comparison inView other)
  (frames : nested.Compares comparison inView nested')

include answers frames

theorem noteOf_compares (node : Node) {reference : Reference} (seen : inView reference.file) :
    comparison.Runs (noteOf library nested site node reference)
      (noteOf other nested' site node reference) := by
  refine (answers.read _ seen).bind fun source _ => ?_
  cases source.byPath? reference.path with
  | none => exact .missing _
  | some found => exact (frames.copy _ _ _ seen).bind fun _ _ => .pure _

theorem instruction_compares (node : Node) (urn : String) :
    comparison.Runs (instruction library nested site node urn)
      (instruction other nested' site node urn) := by
  rw [instruction_eq, instruction_eq]
  refine (answers.instruction urn).bind fun found isBest => ?_
  cases found with
  | none => exact .pure _
  | some best =>
    dsimp only
    split
    · exact .pure _
    · cases best.path with
      | none => exact .missing _
      | some path =>
        have seen := answers.best isBest
        refine (answers.read _ seen).bind fun source _ => ?_
        cases source.byPath? path with
        | none => exact .missing _
        | some found => exact (frames.copy _ _ _ seen).bind fun _ _ => .pure _

variable (seen : inView site.file)

include seen

/-- A directive compares if its target does, and what is fetched for it. -/
theorem transclude_compares (node : Node) (extraction : Extraction) :
    comparison.Runs (transclude library nested site node extraction)
      (transclude other nested' site node extraction) := by
  unfold transclude
  cases node.value? (.plain "target") with
  | none => exact .missing _
  | some start =>
    refine (answers.locate _ _ _ seen).bind fun target located => ?_
    have seenTarget := answers.target seen located
    exact (filled_compares frames seenTarget _ _).bind fun _ _ =>
      (answers.read _ seenTarget).bind fun _ _ => .pure _

theorem commentary_compares (node : Node) :
    comparison.Runs (commentary library nested site node)
      (commentary other nested' site node) := by
  rw [commentary_eq, commentary_eq]
  split
  · exact .pure _
  · refine (answers.referencing _ node seen).bind fun references found => ?_
    refine (Comparison.Runs.mapM fun reference member => ?_).bind fun _ _ => .pure _
    exact noteOf_compares answers frames node (answers.referring seen found reference member)

/-- What is applied to a node compares, be it notes or an instruction. -/
theorem annotate_compares (node : Node) :
    comparison.Runs (annotate library nested site node) (annotate other nested' site node) := by
  unfold annotate
  split
  · exact instruction_compares answers frames node _
  · exact commentary_compares answers frames seen node

/-! ## 4. Walks

The walks are the same functions over both libraries, and they ask about the same nodes. So they
compare step by step. -/

-- in a mutual recursion the linter misses what only the other theorem uses
set_option linter.unusedSectionVars false

mutual

/-- Copies of a node compare. -/
theorem copy_compares :
    ∀ node : Node, comparison.Runs (copy library nested site node) (copy other nested' site node)
  | ⟨own, path, name, attributes, text, children, tail⟩ => by
    rw [copy, copy]
    split
    · exact transclude_compares answers frames seen _ _
    · refine (annotate_compares answers frames seen _).bind fun applied _ => ?_
      split
      · exact .pure _
      · exact (copyForest_compares children).bind fun _ _ => .pure _

theorem copyForest_compares : ∀ nodes : List Node,
    comparison.Runs (copyForest library nested site nodes) (copyForest other nested' site nodes)
  | [] => .pure _
  | first :: rest => by
    rw [copyForest, copyForest]
    exact (copy_compares first).bind fun _ _ => (copyForest_compares rest).bind fun _ _ => .pure _

end

theorem copyNote_compares (node : Node) :
    comparison.Runs (copyNote library nested site node) (copyNote other nested' site node) := by
  unfold copyNote
  split
  · exact transclude_compares answers frames seen _ _
  · exact (copyForest_compares answers frames seen _).bind fun _ _ => .pure _

variable {walk : Walk}

mutual

/-- Walks that extract structure compare. -/
theorem external_compares : ∀ (progress : Progress) (node : Node),
    comparison.Runs (external library nested site walk progress node)
      (external other nested' site walk progress node)
  | progress, ⟨own, path, name, attributes, text, children, tail⟩ => by
    rw [external, external]
    refine .record _ ?_
    split
    · exact .pure _
    · split
      · exact (transclude_compares answers frames seen _ _).bind fun _ _ => .pure _
      · refine (annotate_compares answers frames seen _).bind fun applied _ => ?_
        split
        · exact .pure _
        · exact (externalForest_compares _ children).bind fun _ _ => .pure _
    · exact (externalForest_compares _ children).bind fun _ _ => .pure _
    · exact (externalForest_compares _ children).bind fun _ _ => .pure _

theorem externalForest_compares : ∀ (progress : Progress) (nodes : List Node),
    comparison.Runs (externalForest library nested site walk progress nodes)
      (externalForest other nested' site walk progress nodes)
  | progress, [] => .pure _
  | progress, first :: rest => by
    rw [externalForest, externalForest]
    exact (external_compares progress first).bind fun _ _ =>
      (externalForest_compares _ rest).bind fun _ _ => .pure _

end

theorem inlineInstruction_compares (node : Node) :
    comparison.Runs (inlineInstruction library nested site node)
      (inlineInstruction other nested' site node) := by
  refine (annotate_compares answers frames seen node).bind fun applied _ => ?_
  split
  · exact .pure _
  · exact (frames.copy _ _ _ seen).bind fun _ _ => .pure _

mutual

/-- Walks that extract text compare. -/
theorem inline_compares : ∀ (lang : Option String) (progress : Progress) (node : Node),
    comparison.Runs (inline library nested site walk lang progress node)
      (inline other nested' site walk lang progress node)
  | lang, progress, ⟨own, path, name, attributes, text, children, tail⟩ => by
    rw [inline, inline]
    refine .record _ ?_
    split
    · exact .pure _
    · split
      · exact (transclude_compares answers frames seen _ _).bind fun _ _ => .pure _
      · exact (inlineInstruction_compares answers frames seen _).bind fun _ _ => .pure _
      · exact (annotate_compares answers frames seen _).bind fun _ _ =>
          (inlineForest_compares _ _ children).bind fun _ _ => .pure _
    · exact (inlineForest_compares _ _ children).bind fun _ _ => .pure _

theorem inlineForest_compares : ∀ (lang : Option String) (progress : Progress) (nodes : List Node),
    comparison.Runs (inlineForest library nested site walk lang progress nodes)
      (inlineForest other nested' site walk lang progress nodes)
  | lang, progress, [] => .pure _
  | lang, progress, first :: rest => by
    rw [inlineForest, inlineForest]
    exact (inline_compares lang progress first).bind fun _ _ =>
      (inlineForest_compares lang _ rest).bind fun _ _ => .pure _

end

end

/-! ## 5. Frames

The documents that frames read are answers too, and then the walks compare, given that further
frames do. A frame that the first side may open the other may too, and where the first may open none
there is nothing to compare. -/

/-- Markers that bound no range are no want of frames. -/
theorem isShallow_locate (document : Document) (startMarker stopMarker : String) :
    IsShallow (Bounds.locate document startMarker stopMarker) := by
  intro file limit failed
  obtain ⟨-, same⟩ | ⟨-, same⟩ | ⟨why, same⟩ := Bounds.locate_eq_error failed <;> cases same

/-- What a frame gives is compared where both computations may open it; where the first one may
not, there is nothing to compare. -/
theorem within_compares {deeper further : Deeper} {frame : Frame} {walk walk' : Nested → Run α}
    (atLimit : library.settings.maxDepth = limit)
    (frames : ∀ nested, deeper = some nested →
      ∃ nested', further = some nested' ∧ (nested ()).Compares comparison inView (nested' ()))
    (walks : ∀ {nested nested' : Nested}, nested.Compares comparison inView nested' →
      comparison.Runs (walk nested) (walk' nested')) :
    comparison.Runs (deeper.within library frame walk) (further.within other frame walk') := by
  cases deeper with
  | none =>
    subst atLimit
    exact comparison.tooDeep _ _
  | some nested =>
    obtain ⟨nested', rfl, compares⟩ := frames nested rfl
    exact walks compares

/-- Frames compare if all further ones do. -/
theorem level_compares {deeper further : Deeper} (atLimit : library.settings.maxDepth = limit)
    (answers : library.Compares comparison inView other)
    (frames : ∀ nested, deeper = some nested →
      ∃ nested', further = some nested' ∧ (nested ()).Compares comparison inView (nested' ())) :
    (level library deeper).Compares comparison inView (level other further) where
  copy home file root seen := (answers.read file seen).bind fun document _ => by
    refine (within_compares atLimit frames fun compares => ?_).bind fun _ _ => .pure _
    cases root with
    | none => exact copy_compares answers compares seen _
    | some node => exact copyNote_compares answers compares seen node
  external file start stop seen := (answers.read file seen).bind fun document _ =>
    (Comparison.Runs.refl (isShallow_locate document start stop)).bind fun bounds _ =>
      (within_compares atLimit frames fun compares =>
        external_compares answers compares seen _ _).bind fun _ _ => .pure _
  inline file start stop seen := (answers.read file seen).bind fun document _ =>
    (Comparison.Runs.refl (isShallow_locate document start stop)).bind fun bounds _ =>
      (within_compares atLimit frames fun compares =>
        inline_compares answers compares seen _ _ _).bind fun _ _ => .pure _

/-- Frames compare as the libraries do, if there are no fewer of them on the other side. -/
theorem levels_compares (atLimit : library.settings.maxDepth = limit)
    (answers : library.Compares comparison inView other) : ∀ {frames more : Nat}, frames ≤ more →
      (levels library frames).Compares comparison inView (levels other more)
  | 0, 0, _ => level_compares atLimit answers fun nested found => by cases found
  | 0, _ + 1, _ => level_compares atLimit answers fun nested found => by cases found
  | frames + 1, more + 1, le => level_compares atLimit answers fun nested found => by
      cases found
      exact ⟨_, rfl, levels_compares atLimit answers (Nat.le_of_succ_le_succ le)⟩

end Intertext.Compile
