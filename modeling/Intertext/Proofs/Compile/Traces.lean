import Intertext.Proofs.Compile.Steps
/-!
What holds of the traces of a compilation.

A trace is put together in few ways: documents are read, walks enter nodes, frames are opened and
closed, and one thing happens after another. So a property of traces is settled by looking at these.
What happens within a frame may have another property than what is left once the frame is closed; if
the two fit together (`Library.Frames`), then the first holds of every walk and the second of all
that further frames give (`Frames.levels`), whether it succeeds or not.
-/

namespace Intertext.Compile

open Markup (Document Element Node)

variable {α β : Type} {library : Library} {P : List Event → Prop}

/-! ## 1. Properties of traces

Most of what a compilation does leaves no trace, and what follows on something appends its trace. So
a property that holds of nothing, is kept by appending and holds of reading a document is had by
every run that is put together without walking. -/

/-- Whether a property is kept by all that happens to a trace besides entering nodes and opening
frames. -/
structure Library.Keeps (library : Library) (P : List Event → Prop) : Prop where
  nil : P []
  append : ∀ {first second : List Event}, P first → P second → P (first ++ second)
  read : ∀ {file : SourceFile} {document : Document}, library.document file = .ok document →
    P [.read file document]

/-- Whether the trace of a run has a property. -/
def Run.Leaves (P : List Event → Prop) (run : Run α) : Prop := P run.trace

/-- Whether the traces of all that further frames give have a property. -/
structure Nested.Leaves (P : List Event → Prop) (nested : Nested) : Prop where
  copy : ∀ home file root, (nested.copy home file root).Leaves P
  external : ∀ file start stop, (nested.external file start stop).Leaves P
  inline : ∀ file start stop, (nested.inline file start stop).Leaves P

/-- The trace of two runs of which the first succeeds. -/
theorem Run.trace_bind_of_ok {first : Run α} {second : α → Run β} {value : α}
    (ran : first.result = .ok value) :
    (first >>= second).trace = first.trace ++ (second value).trace := by
  show (andThen first second).trace = _
  unfold andThen
  rw [ran]

namespace Library.Keeps

variable (keeps : library.Keeps P)

include keeps

theorem pure (value : α) : (pure value : Run α).Leaves P := keeps.nil

theorem fail (error : Error) : (Run.fail error : Run α).Leaves P := keeps.nil

theorem ofExcept (result : Except Error α) : (Run.ofExcept result).Leaves P := keeps.nil

theorem bind {first : Run α} {second : α → Run β} (leaves : first.Leaves P)
    (rest : ∀ value, (second value).Leaves P) : (first >>= second).Leaves P := by
  cases ran : first.result with
  | error error =>
    show P (Run.andThen first second).trace
    unfold Run.andThen
    rw [ran]
    exact leaves
  | ok value =>
    rw [Run.Leaves, Run.trace_bind_of_ok ran]
    exact keeps.append leaves (rest value)

theorem mapM {action : β → Run α} (each : ∀ value, (action value).Leaves P) :
    ∀ values : List β, (values.mapM action).Leaves P
  | [] => by
    rw [List.mapM_nil]
    exact keeps.pure []
  | first :: rest => by
    rw [List.mapM_cons]
    exact keeps.bind (each first) fun _ => keeps.bind (mapM each rest) fun _ => keeps.pure _

theorem reads (file : SourceFile) : (library.read file).Leaves P := by
  unfold Library.read
  cases found : library.document file with
  | error error => exact keeps.fail error
  | ok document => exact keeps.read found

theorem ask : library.ask.Leaves P := by
  unfold Library.ask
  cases library.tables with
  | none => exact keeps.fail _
  | some tables => exact keeps.pure tables

/-! ## 2. Directives and notes

What is fetched from other frames has the property by assumption, and all that is added is a look at
the tables and at documents. -/

/-- Looking for a target reads at most the document that it is in. -/
theorem locate (file : SourceFile) (target : String) (targetEnd : Option String) :
    (Target.locate library file target targetEnd).Leaves P := by
  unfold Target.locate
  split
  · exact keeps.ofExcept _
  · exact keeps.bind keeps.ask fun _ => keeps.ofExcept _

section Content

variable {nested : Nested} (leaves : nested.Leaves P) (site : Site)

include leaves

theorem filled (target : Target) (extraction : Extraction) (element : Element) :
    (filled nested target extraction element).Leaves P := by
  cases extraction with
  | external => exact keeps.bind (leaves.external _ _ _) fun _ => keeps.pure _
  | inline => exact keeps.bind (leaves.inline _ _ _) fun _ => keeps.pure _

/-- A directive locates its target and fetches what is there. -/
theorem transclude (node : Node) (extraction : Extraction) :
    (transclude library nested site node extraction).Leaves P := by
  unfold Compile.transclude
  cases node.value? (.plain "target") with
  | none => exact keeps.fail _
  | some start =>
    refine keeps.bind (keeps.locate _ _ _) fun target => ?_
    refine keeps.bind (keeps.filled leaves _ _ _) fun element => ?_
    exact keeps.bind (keeps.reads _) fun _ => keeps.pure _

theorem noteOf (node : Node) (reference : Index.Reference) :
    (noteOf library nested site node reference).Leaves P := by
  refine keeps.bind (keeps.reads _) fun source => ?_
  cases source.byPath? reference.path with
  | none => exact keeps.fail _
  | some found => exact keeps.bind (leaves.copy _ _ _) fun _ => keeps.pure _

theorem commentary (node : Node) : (commentary library nested site node).Leaves P := by
  unfold Compile.commentary
  split
  · exact keeps.pure _
  · refine keeps.bind keeps.ask fun tables => ?_
    exact keeps.bind (keeps.mapM (keeps.noteOf leaves site node) _) fun _ => keeps.pure _

theorem instruction (node : Node) (urn : String) :
    (instruction library nested site node urn).Leaves P := by
  refine keeps.bind keeps.ask fun tables => ?_
  cases Compile.bestInstruction? tables library.settings.instructions urn with
  | none => exact keeps.pure _
  | some best =>
    dsimp only
    split
    · exact keeps.pure _
    · cases best.path with
      | none => exact keeps.fail _
      | some path =>
        refine keeps.bind (keeps.reads _) fun source => ?_
        cases source.byPath? path with
        | none => exact keeps.fail _
        | some found => exact keeps.bind (leaves.copy _ _ _) fun _ => keeps.pure _

/-- What is applied to a node is fetched from other frames. -/
theorem annotate (node : Node) : (annotate library nested site node).Leaves P := by
  unfold Compile.annotate
  split
  · exact keeps.instruction leaves site _ _
  · exact keeps.commentary leaves site _

theorem inlineInstruction (node : Node) :
    (inlineInstruction library nested site node).Leaves P := by
  refine keeps.bind (keeps.annotate leaves site node) fun applied => ?_
  cases applied with
  | replace note => exact keeps.pure _
  | _ => exact keeps.bind (leaves.copy _ _ _) fun _ => keeps.pure _

/-! ## 3. Copies and walks

A walk records each node that it enters, so the property has to hold of such a record too. -/

-- in a mutual recursion the linter misses what only the other theorem uses
set_option linter.unusedSectionVars false

mutual

/-- Copying a node leaves a trace with the property. -/
theorem copy : ∀ node : Node, (copy library nested site node).Leaves P
  | ⟨id, path, name, attributes, text, children, tail⟩ => by
    rw [Compile.copy]
    split
    · exact keeps.transclude leaves site _ _
    · refine keeps.bind (keeps.annotate leaves site _) fun applied => ?_
      cases applied with
      | replace note => exact keeps.pure _
      | _ => exact keeps.bind (copyForest children) fun _ => keeps.pure _

theorem copyForest : ∀ nodes : List Node, (copyForest library nested site nodes).Leaves P
  | [] => keeps.pure []
  | first :: rest => by
    rw [Compile.copyForest]
    exact keeps.bind (copy first) fun _ => keeps.bind (copyForest rest) fun _ => keeps.pure _

end

theorem copyNote (node : Node) : (copyNote library nested site node).Leaves P := by
  unfold Compile.copyNote
  split
  · exact keeps.transclude leaves site _ _
  · exact keeps.bind (keeps.copyForest leaves site _) fun _ => keeps.pure _

variable (entered : ∀ id command, P [.entered id command]) (walk : Walk)

include entered

mutual

/-- A walk that extracts structure leaves a trace with the property. -/
theorem external : ∀ (progress : Progress) (node : Node),
    (external library nested site walk progress node).Leaves P
  | progress, ⟨id, path, name, attributes, text, children, tail⟩ => by
    rw [Compile.external]
    refine keeps.bind (entered _ _) fun _ => ?_
    split
    · exact keeps.pure _
    · split
      · exact keeps.bind (keeps.transclude leaves site _ _) fun _ => keeps.pure _
      · refine keeps.bind (keeps.annotate leaves site _) fun applied => ?_
        cases applied with
        | replace note => exact keeps.pure _
        | _ => exact keeps.bind (externalForest _ children) fun _ => keeps.pure _
    · exact keeps.bind (externalForest _ children) fun _ => keeps.pure _
    · exact keeps.bind (externalForest _ children) fun _ => keeps.pure _

theorem externalForest : ∀ (progress : Progress) (nodes : List Node),
    (externalForest library nested site walk progress nodes).Leaves P
  | _, [] => keeps.pure _
  | progress, first :: rest => by
    rw [Compile.externalForest]
    refine keeps.bind (external progress first) fun _ => ?_
    exact keeps.bind (externalForest _ rest) fun _ => keeps.pure _

end

mutual

/-- A walk that extracts text leaves a trace with the property. -/
theorem inline : ∀ (lang : Option String) (progress : Progress) (node : Node),
    (inline library nested site walk lang progress node).Leaves P
  | lang, progress, ⟨id, path, name, attributes, text, children, tail⟩ => by
    rw [Compile.inline]
    refine keeps.bind (entered _ _) fun _ => ?_
    split
    · exact keeps.pure _
    · split
      · exact keeps.bind (keeps.transclude leaves site _ _) fun _ => keeps.pure _
      · exact keeps.bind (keeps.inlineInstruction leaves site _) fun _ => keeps.pure _
      · refine keeps.bind (keeps.annotate leaves site _) fun _ => ?_
        exact keeps.bind (inlineForest _ _ children) fun _ => keeps.pure _
    · exact keeps.bind (inlineForest _ _ children) fun _ => keeps.pure _

theorem inlineForest : ∀ (lang : Option String) (progress : Progress) (nodes : List Node),
    (inlineForest library nested site walk lang progress nodes).Leaves P
  | _, _, [] => keeps.pure _
  | lang, progress, first :: rest => by
    rw [Compile.inlineForest]
    refine keeps.bind (inline lang progress first) fun _ => ?_
    exact keeps.bind (inlineForest lang _ rest) fun _ => keeps.pure _

end

end Content

end Library.Keeps

/-! ## 4. Frames

Frames are where the two properties meet: the walk in a frame has the first, and once the opening
and the closing of the frame are added to its trace, the whole has the second. -/

/-- Whether what holds of the traces within a frame fits what holds once the frame is closed. -/
structure Library.Frames (library : Library) (within closed : List Event → Prop) : Prop where
  keepsWithin : library.Keeps within
  keepsClosed : library.Keeps closed
  entered : ∀ id command, within [.entered id command]
  weaken : ∀ {trace : List Event}, closed trace → within trace
  inside : ∀ (frame : Frame) {trace : List Event}, within trace →
    closed (.opened frame :: (trace ++ [.closed]))

namespace Library.Frames

variable {within closed : List Event → Prop} (frames : library.Frames within closed)

include frames

/-- What has a property once its frames are closed has the property of what is in a frame. -/
theorem weaken_nested {nested : Nested} (leaves : nested.Leaves closed) : nested.Leaves within where
  copy home file root := frames.weaken (leaves.copy home file root)
  external file start stop := frames.weaken (leaves.external file start stop)
  inline file start stop := frames.weaken (leaves.inline file start stop)

/-- What is done in a further frame has the property of closed frames, since the walk has that of
open ones. -/
theorem deeper {deeper : Deeper} {frame : Frame} {walk : Nested → Run α}
    (allLeave : ∀ nested, deeper = some nested → (nested ()).Leaves closed)
    (walks : ∀ nested : Nested, nested.Leaves within → (walk nested).Leaves within) :
    (deeper.within library frame walk).Leaves closed := by
  cases deeper with
  | none => exact frames.keepsClosed.fail _
  | some nested =>
    exact frames.inside frame (walks _ (frames.weaken_nested (allLeave nested rfl)))

/-- What a frame gives has the property of closed frames if all further ones do. -/
theorem level {deeper : Deeper}
    (allLeave : ∀ nested, deeper = some nested → (nested ()).Leaves closed) :
    (level library deeper).Leaves closed where
  copy home file root := by
    have keeps := frames.keepsClosed
    refine keeps.bind (keeps.reads file) fun document => ?_
    refine keeps.bind (frames.deeper allLeave fun nested leaves => ?_) fun _ => keeps.pure _
    cases root with
    | none => exact frames.keepsWithin.copy leaves _ _
    | some node => exact frames.keepsWithin.copyNote leaves _ _
  external file start stop := by
    have keeps := frames.keepsClosed
    refine keeps.bind (keeps.reads file) fun document => ?_
    refine keeps.bind (keeps.ofExcept _) fun bounds => ?_
    exact keeps.bind (frames.deeper allLeave fun nested leaves =>
      frames.keepsWithin.external leaves _ frames.entered _ _ _) fun _ => keeps.pure _
  inline file start stop := by
    have keeps := frames.keepsClosed
    refine keeps.bind (keeps.reads file) fun document => ?_
    refine keeps.bind (keeps.ofExcept _) fun bounds => ?_
    exact keeps.bind (frames.deeper allLeave fun nested leaves =>
      frames.keepsWithin.inline leaves _ frames.entered _ _ _ _) fun _ => keeps.pure _

/-- However many frames the limit allows, all that they give has the property. -/
theorem levels : ∀ remaining : Nat, (levels library remaining).Leaves closed
  | 0 => frames.level fun _ impossible => by cases impossible
  | remaining + 1 => frames.level fun _ isNext => by
    cases isNext
    exact levels remaining

end Library.Frames

end Intertext.Compile
