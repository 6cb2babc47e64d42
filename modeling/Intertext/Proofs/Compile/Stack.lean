import Intertext.Compile.Compilation
/-!
Compilation on one stack of frames.

Here a compilation is written as a machine. All frames are on one stack that every walk can read and
write: a call pushes a frame where the limit allows it, walks with that frame, and cuts the stack
back to the height it had before, however the walk ends. A walk finds its frame by the height at
which it was pushed, and where content comes from is told from the frame on top.

Nothing in these definitions makes a computation end, or makes it leave frames alone that are not
its own. Calls may call one another for as long as there is fuel, which has nothing to do with the
limit; a computation that runs out of it, or looks for a frame that is not there, has no result.
That the fuel is never used up, and that calls give back the stack they were given, is shown in
`Intertext.Proofs.Compile.Discipline`, along with the fact that the results are those of `compile`.
-/

namespace Intertext.Compile

open Markup (Document Element Node)

/-! ## 1. Computations on a stack -/

/-- The frames of a compilation, outermost first. -/
structure Stack where
  frames : List Frame
  /-- The most frames there have been at once. -/
  peak : Nat

/-- A computation on the stack. It has no result if it does not come to an end. -/
def Stacked (α : Type) : Type := Stack → Option (Except Error α) × Stack

namespace Stacked

variable {α β : Type}

/-- A computation that does not touch the stack. -/
def ofExcept (result : Except Error α) : Stacked α := fun stack => (some result, stack)

/-- A computation that does not come to an end. -/
def endless : Stacked α := fun stack => (none, stack)

/-- One computation after another; only a value leads on. -/
def andThen (first : Stacked α) (second : α → Stacked β) : Stacked β := fun stack =>
  match first stack with
  | (some (.ok value), stack) => second value stack
  | (some (.error error), stack) => (some (.error error), stack)
  | (none, stack) => (none, stack)

instance : Monad Stacked where
  pure value := ofExcept (.ok value)
  bind := andThen

/-- Pushes a frame, unless there are as many as the limit allows, and tells its place. -/
def push (limit : Nat) (frame : Frame) : Stacked Nat := fun stack =>
  let height := stack.frames.length
  if height ≥ limit then (some (.error (.tooDeep frame.file limit)), stack)
  else (some (.ok height), ⟨stack.frames ++ [frame], max stack.peak (height + 1)⟩)

/-- Cuts the stack back to a height after a computation, however it ends. -/
def cutBack (height : Nat) (inner : Stacked α) : Stacked α := fun stack =>
  let (result, stack) := inner stack
  (result, { stack with frames := stack.frames.take height })

/-- Walks with a frame of its own. -/
def within (limit : Nat) (frame : Frame) (walk : Nat → Stacked α) : Stacked α := do
  let depth ← push limit frame
  cutBack depth (walk depth)

/-- The frame at a place. -/
def frameAt (depth : Nat) : Stacked Frame := fun stack =>
  match stack.frames[depth]? with
  | some frame => (some (.ok frame), stack)
  | none => (none, stack)

/-- Writes the frame at a place. -/
def setFrame (depth : Nat) (frame : Frame) : Stacked Unit := fun stack =>
  (some (.ok ()), { stack with frames := stack.frames.set depth frame })

/-- The file of the frame on top. -/
def home : Stacked (Option SourceFile) := fun stack =>
  (some (.ok (stack.frames.getLast?.map (·.file))), stack)

end Stacked

open Stacked (ofExcept within frameAt setFrame home)

namespace OnStack

/-! ## 2. Directives and notes -/

/-- The calls that push a frame. -/
structure Calls where
  copy : SourceFile → Option Node → Stacked Element
  external : SourceFile → String → String → Stacked (List Element)
  inline : SourceFile → String → String → Stacked Element

variable (library : Library) (calls : Calls)

/-- Reads the document of a file. -/
def read (file : SourceFile) : Stacked Document := ofExcept (library.read file).result

/-- Fills a wrapper with what a target bounds. -/
def filled (target : Target) (extraction : Extraction) (element : Element) : Stacked Element :=
  match extraction with
  | .external => do
    let children ← calls.external target.file target.start target.stop
    return { element with children }
  | .inline => do
    let container ← calls.inline target.file target.start target.stop
    return { element with text := container.text, children := container.children }

/-- What replaces a directive of the walk with that frame. -/
def transclude (depth : Nat) (document : Document) (node : Node) (extraction : Extraction) :
    Stacked Element :=
  match node.value? (.plain "target") with
  | none => ofExcept (.error (.missing (.directiveTarget node.path)))
  | some start => do
    let stop := node.value? (.plain "targetEnd")
    let frame ← frameAt depth
    let target ← ofExcept (Target.locate library frame.file start stop).result
    let element ← filled calls target extraction (wrapper start stop extraction)
    let frame ← frameAt depth
    let element := if frame.isHome target.file then element else stampOrigin element target.file
    let source ← read library target.file
    return stampLang element (langAt? source target.start) (document.lang? node.id)

/-- The note that makes a reference. -/
def noteOf (document : Document) (node : Node) (reference : Index.Reference) :
    Stacked Element := do
  let source ← read library reference.file
  match source.byPath? reference.path with
  | none => ofExcept (.error (.missing (.note reference.path reference.file)))
  | some found =>
    let note ← calls.copy reference.file (some found)
    return stampLang note (source.lang? found.id) (document.lang? node.id)

/-- The notes that refer to an element of the walk with that frame. -/
def commentary (depth : Nat) (document : Document) (node : Node) : Stacked Annotation := do
  if node.corresp?.isNone && node.xmlId?.isNone then return .nothing
  let frame ← frameAt depth
  let tables ← ofExcept library.ask.result
  let notes ← (noteReferences tables library.settings.annotations frame.file node).mapM
    (noteOf library calls document node)
  return if notes.isEmpty then .nothing else .insert notes

/-- The instruction that takes the place of one with an identifier. -/
def instruction (depth : Nat) (document : Document) (node : Node) (urn : String) :
    Stacked Annotation := do
  let tables ← ofExcept library.ask.result
  match bestInstruction? tables library.settings.instructions urn with
  | none => return .keep
  | some best =>
    let frame ← frameAt depth
    if frame.isHome best.file ∧ best.path = some node.path then return .keep
    match best.path with
    | none => ofExcept (.error (.missing (.instructionPlace urn)))
    | some path =>
      let source ← read library best.file
      match source.byPath? path with
      | none => ofExcept (.error (.missing (.instruction urn path best.file)))
      | some found =>
        let note ← calls.copy best.file (some found)
        return .replace (stampLang note (source.lang? found.id) (document.lang? node.id))

/-- What applies to an element of the walk with that frame. -/
def annotate (depth : Nat) (document : Document) (node : Node) : Stacked Annotation :=
  match Role.of node, node.corresp? with
  | .instruction, some urn => instruction library calls depth document node urn
  | _, _ => commentary library calls depth document node

/-! ## 3. Walks -/

mutual

/-- A copy of a subtree. -/
def copy (depth : Nat) (document : Document) : Node → Stacked Element
  | node@⟨_, _, _, _, _, children, _⟩ =>
    if Role.of node = .directive then
      transclude library calls depth document node (.of node)
    else do
      match ← annotate library calls depth document node with
      | .replace note => return note
      | annotation =>
        let copies ← copyForest depth document children
        return insertNotes annotation.notes (withChildren node copies)

/-- Copies of the trees of a forest, with their tails. -/
def copyForest (depth : Nat) (document : Document) : List Node → Stacked (List Element)
  | [] => return []
  | first :: rest => do
    let element ← copy depth document first
    let others ← copyForest depth document rest
    return { element with tail := first.tail } :: others

end

/-- A copy of the subtree of a note. -/
def copyNote (depth : Nat) (document : Document) (node : Node) : Stacked Element :=
  if Role.of node = .directive then transclude library calls depth document node (.of node)
  else do
    let copies ← copyForest library calls depth document node.children
    return withChildren node copies

/-- Enters a node: reads the frame of the walk and writes it. -/
def enter (depth : Nat) (walk : Walk) (trailing : Bool) (node : Node) : Stacked Progress := do
  let frame ← frameAt depth
  let progress := walk.enter ⟨frame, trailing⟩ node
  setFrame depth progress.frame
  return progress

/-- Leaves a node, and tells whether the range runs on after a milestone. -/
def leave (depth : Nat) (walk : Walk) (trailing : Bool) (node : Node) : Stacked Bool := do
  let frame ← frameAt depth
  let progress := walk.leave ⟨frame, trailing⟩ node
  setFrame depth progress.frame
  return progress.trailing

mutual

/-- What a node shows between markers, and whether the range runs on after a milestone. -/
def external (depth : Nat) (document : Document) (walk : Walk) (trailing : Bool) :
    Node → Stacked (List Element × Bool)
  | node@⟨_, _, _, _, text, children, _⟩ => do
    let entered ← enter depth walk trailing node
    match entered.frame.command with
    | .skip => return ([], entered.trailing)
    | .copy =>
      if Role.of node = .directive then
        let element ← transclude library calls depth document node (.of node)
        return ([element], ← leave depth walk entered.trailing node)
      else
        match ← annotate library calls depth document node with
        | .replace note => return ([note], ← leave depth walk entered.trailing node)
        | annotation =>
          let (pieces, trailing) ← externalForest depth document walk entered.trailing children
          let element := fill { node.shell with text } pieces
          return ([insertNotes annotation.notes element], ← leave depth walk trailing node)
    | .copyTag =>
      let (pieces, trailing) ← externalForest depth document walk entered.trailing children
      return ([fill node.shell pieces], ← leave depth walk trailing node)
    | _ =>
      let (pieces, trailing) ← externalForest depth document walk entered.trailing children
      return (passOn pieces, ← leave depth walk trailing node)

/-- What the nodes of a forest show between markers, each with the part of its tail that is in
range. -/
def externalForest (depth : Nat) (document : Document) (walk : Walk) (trailing : Bool) :
    List Node → Stacked (List Piece × Bool)
  | [] => return ([], trailing)
  | first :: rest => do
    let (elements, trailing) ← external depth document walk trailing first
    let frame ← frameAt depth
    let piece : Piece := ⟨elements, if frame.inRange then first.tail else ""⟩
    let (pieces, trailing) ← externalForest depth document walk trailing rest
    return (piece :: pieces, trailing)

end

/-- An instruction in extracted text: the one that replaces it, or a copy of itself. -/
def inlineInstruction (depth : Nat) (document : Document) (node : Node) : Stacked Element := do
  match ← annotate library calls depth document node with
  | .replace note => return note
  | annotation =>
    let frame ← frameAt depth
    let note ← calls.copy frame.file (some node)
    return insertNotes annotation.notes note

mutual

/-- What a node shows between markers as text, and whether the range runs on after a milestone. -/
def inline (depth : Nat) (document : Document) (walk : Walk) (lang : Option String)
    (trailing : Bool) : Node → Stacked (List Item × Bool)
  | node@⟨_, _, _, _, text, children, _⟩ => do
    let entered ← enter depth walk trailing node
    match entered.frame.command with
    | .skip => return ([], entered.trailing)
    | .copyText =>
      match Role.of node with
      | .directive =>
        let element ← transclude library calls depth document node .inline
        return ([.element element], ← leave depth walk entered.trailing node)
      | .instruction =>
        let note ← inlineInstruction library calls depth document node
        return ([.element note], ← leave depth walk entered.trailing node)
      | _ =>
        let annotation ← annotate library calls depth document node
        let changed := changedLang? node lang
        let (items, trailing) ←
          inlineForest depth document walk (changed <|> lang) entered.trailing children
        let items := annotation.notes.map .element ++ .text text :: items
        return (inLang changed items, ← leave depth walk trailing node)
    | _ =>
      let (items, trailing) ← inlineForest depth document walk lang entered.trailing children
      return (items, ← leave depth walk trailing node)

/-- What the nodes of a forest show as text, with the parts of their tails that are in range. -/
def inlineForest (depth : Nat) (document : Document) (walk : Walk) (lang : Option String)
    (trailing : Bool) : List Node → Stacked (List Item × Bool)
  | [] => return ([], trailing)
  | first :: rest => do
    let (items, trailing) ← inline depth document walk lang trailing first
    let frame ← frameAt depth
    let tail := if frame.inRange && first.tail ≠ "" then [.text " ", .text first.tail] else []
    let (others, trailing) ← inlineForest depth document walk lang trailing rest
    return (items ++ tail ++ others, trailing)

end

/-! ## 4. Calls -/

/-- The calls of a compilation, given the calls that they make themselves. -/
def next : Calls where
  copy file root := do
    let document ← read library file
    let above ← home
    let element ← within library.settings.maxDepth (.whole file) fun depth =>
      match root with
      | none => copy library calls depth document document.root
      | some node => copyNote library calls depth document node
    return if above = some file then element else stampOrigin element file
  external file start stop := do
    let document ← read library file
    let bounds ← ofExcept (Bounds.locate document start stop)
    let (elements, _) ← within library.settings.maxDepth (.bounded file start stop) fun depth =>
      external library calls depth document (.within document bounds .external) false document.root
    return elements
  inline file start stop := do
    let document ← read library file
    let bounds ← ofExcept (Bounds.locate document start stop)
    let lang := document.lang? bounds.start
    let (items, _) ← within library.settings.maxDepth (.bounded file start stop) fun depth =>
      inline library calls depth document (.within document bounds .inline) lang false document.root
    return append (container lang) items

/-- The calls of a compilation that may go that far into one another. -/
def callsUpTo (library : Library) : Nat → Calls
  | 0 => ⟨fun _ _ => .endless, fun _ _ _ => .endless, fun _ _ _ => .endless⟩
  | fuel + 1 => next library (callsUpTo library fuel)

/-- Compiles a file, starting from a stack without frames. -/
def compile (library : Library) (fuel : Nat) (file : SourceFile) :
    Option (Except Error Element) × Stack :=
  (callsUpTo library fuel).copy file none ⟨[], 0⟩

end OnStack

end Intertext.Compile
