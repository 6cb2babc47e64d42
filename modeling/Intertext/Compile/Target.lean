import Intertext.Compile.Library
/-!
What a directive points at.

A target that names a fragment stays in the file of the directive. Any other target is resolved
through the index, and among the projects that define it the one listed first for transclusion is
taken. Both ends of what is pointed at lie in one file.
-/

namespace Intertext.Compile

open Index (Tables Location Resolution isFragment)

/-- A file and the markers of a range in it. -/
structure Target where
  file : SourceFile
  start : String
  stop : String
deriving DecidableEq, Repr

namespace Target

/-- The target of a fragment of the file itself. -/
def ofFragment (file : SourceFile) (target : String) (targetEnd : Option String) :
    Except Error Target :=
  let stop := targetEnd.getD target
  if isFragment stop then .ok ⟨file, target, stop⟩
  else .error (.badRange (.localEnd target stop))

/-- Whether some project has both ends of a range, but in different files. -/
def endsApart (starts stops : List Location) : Bool :=
  starts.any fun start => stops.any fun stop =>
    stop.file.project = start.file.project && stop.file.name ≠ start.file.name

/-- Why a target that resolves to nothing does so. -/
def unresolved (tables : Tables) (priority : List String) (target : String) : Error :=
  match Urn.splitRange? target with
  | none => .missing (.target target)
  | some range =>
    let (starts, stops) := tables.endpoints range
    if endsApart (Priority.ranked starts priority) (Priority.ranked stops priority) then
      .badRange (.endsApart target)
    else .missing (.target target)

/-- The target of a single place; the end of the range is looked for in the same project and must
lie in the same file. -/
def ofSingle (tables : Tables) (target : String) (targetEnd : Option String) (start : Location) :
    Except Error Target :=
  match targetEnd with
  | none => .ok ⟨start.file, start.urn, start.urn⟩
  | some stopTarget =>
    match Priority.best? (tables.resolveRange stopTarget) [start.file.project] with
    | none => .error (.missing (.targetEnd stopTarget start.file.project))
    | some stop =>
      if stop.file.name = start.file.name then .ok ⟨start.file, start.urn, stop.stop.urn⟩
      else .error (.badRange (.differentFiles target stopTarget))

/-- The target of an identifier. -/
def ofUrn (tables : Tables) (priority : List String) (target : String)
    (targetEnd : Option String) : Except Error Target :=
  let candidates := tables.resolveRange target
  if candidates.isEmpty then .error (unresolved tables priority target)
  else
    match Priority.best? candidates priority with
    | none => .error (.missing (.listedTarget target))
    | some (.range start stop) =>
      if targetEnd.isSome then .error (.badRange (.twoEnds target))
      else .ok ⟨start.file, start.urn, stop.urn⟩
    | some (.single start) => ofSingle tables target targetEnd start

/-- What a directive in a file points at. -/
def locate (library : Library) (file : SourceFile) (target : String) (targetEnd : Option String) :
    Run Target :=
  if isFragment target then .ofExcept (ofFragment file target targetEnd)
  else do
    let tables ← library.ask
    .ofExcept (ofUrn tables library.settings.transclusion target targetEnd)

end Target

end Intertext.Compile
