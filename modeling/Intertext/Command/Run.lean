import Intertext.Command.Arguments
import Intertext.Command.Report
import Intertext.Session
/-!
Running the command line.

Every invocation opens the store, prepares it if it is new, and does one task. What goes wrong is
told as what was being done, followed by its causes.
-/

namespace Intertext.Command

/-! ## 1. Outcomes -/

/-- How an invocation ends. -/
structure Outcome where
  code : Nat
  stdout : String
  stderr : String
deriving DecidableEq, Repr

/-- What went wrong, outermost first. -/
structure Failure where
  message : String
  causes : List String
deriving DecidableEq, Repr

/-- A text after a label; its other lines begin as far right as the first. -/
def labelled (label text : String) : String :=
  label ++ ("\n" ++ "".pushn ' ' label.length).intercalate
    ((Text.pieces '\n' text.toList).map String.ofList)

/-- Causes as they are listed: numbered if there are several. -/
def causeLines (causes : List String) : List String :=
  match causes with
  | [cause] => [labelled "    " cause]
  | causes => causes.zipIdx.map fun (cause, n) => labelled ("    " ++ toString n ++ ": ") cause

/-- A failure in words. -/
def Failure.text (failure : Failure) : String :=
  if failure.causes.isEmpty then "Error: " ++ failure.message ++ "\n"
  else
    "Error: " ++ failure.message ++ "\n\nCaused by:\n" ++
      String.join ((causeLines failure.causes).map (· ++ "\n"))

def Outcome.success (stdout : String) : Outcome := ⟨0, stdout, ""⟩

def Outcome.failed (failure : Failure) : Outcome := ⟨1, "", failure.text⟩

/-- How the program is used. -/
def usage : String :=
  "Index and compile cross-referenced TEI projects\n\n" ++
  "Usage: tei-link [--projects FOLDER] [--database FILE] COMMAND\n\n" ++
  "Commands:\n" ++
  "  sync                   Bring the index in line with the project directory\n" ++
  "  index PROJECT          Scan every file of one project into the index\n" ++
  "  resolve URN            Show where a URN or URN range is defined\n" ++
  "  compile PROJECT FILE [-s SETTINGS] [-o OUTPUT]\n" ++
  "                         Compile a source file into a self-contained document\n" ++
  "  stats                  Count indexed files, URNs and references per project\n"

/-- How arguments that are no invocation end. -/
def Outcome.refused : Refusal → Outcome
  | .help => ⟨0, usage, ""⟩
  | _ => ⟨2, "", usage⟩

/-! ## 2. Causes -/

/-- The causes of a failed compilation: a malformed file has one of its own. -/
def compileCauses (error : Compile.Error) : List String :=
  match error with
  | .malformed _ fault => [error.message, fault.message]
  | .index fault => fault.causes
  | _ => [error.message]

/-- A fault of settings as a failure. -/
def settingsFailure (fault : SettingsFault) : Failure :=
  match fault with
  | .unreadable _ why => ⟨fault.message, [why.message]⟩
  | _ => ⟨fault.message, []⟩

/-! ## 3. Tasks -/

/-- The standard output of a task and the workspace after it, or what went wrong. The workspace is
the one after the failure where it was changed before. -/
abbrev Done := Except Failure String × Workspace

/-- Reports what was done with the open store. -/
def withStore {α : Type} (workspace : Workspace) (context : String)
    (result : Except Index.Fault (α × Workspace)) (report : α → String) : Done :=
  match result with
  | .ok (value, workspace) => (.ok (report value), workspace)
  | .error fault => (.error ⟨context, fault.causes⟩, workspace)

/-- Writes a compiled text to a file, or to the standard output. -/
def deliver (workspace : Workspace) (now : Nat) (text : String) : Option String → Done
  | none => (.ok (text ++ "\n"), workspace)
  | some path =>
    match workspace.disk.writeText path text now with
    | .ok disk => (.ok "", { workspace with disk })
    | .error why => (.error ⟨"writing " ++ path, [why.message]⟩, workspace)

/-- The settings of a compilation, checked. -/
def settingsOf (workspace : Workspace) (base project : String) (path : Option String) :
    Except SettingsFault Settings := do
  let settings ← match path with
    | some path => Settings.load workspace.disk path
    | none => pure (Settings.forProject project)
  settings.validate workspace.disk base
  return settings

/-- Compiles a file. -/
def compileFile (workspace : Workspace) (now : Nat) (base : String) (file : SourceFile)
    (settings output : Option String) : Done :=
  match settingsOf workspace base file.project settings with
  | .error fault => (.error (settingsFailure fault), workspace)
  | .ok settings =>
    match (Compile.compileText (workspace.library [] settings base) file).result with
    | .error error => (.error ⟨"compiling " ++ file.label, compileCauses error⟩, workspace)
    | .ok text => deliver workspace now text output

/-- Does a task in a workspace whose store is open. -/
def perform (workspace : Workspace) (now : Nat) (base : String) : Task → Done
  | .sync =>
    withStore workspace ("syncing " ++ base) (workspace.syncCorpus now base)
      fun sync => (syncReport sync).render ++ "\n"
  | .index project =>
    withStore workspace ("indexing project " ++ project)
      (workspace.indexProject now base project)
      fun count => "Indexed " ++ toString count ++ " rows from " ++ project ++ "\n"
  | .resolve urn =>
    withStore workspace ("resolving " ++ urn)
      (workspace.store.tables.map fun tables => (tables.resolveRange urn, workspace))
      fun resolutions => (resolveReport base resolutions).render ++ "\n"
  | .compile project name settings output =>
    compileFile workspace now base ⟨project, name⟩ settings output
  | .stats =>
    match workspace.store.tables with
    | .ok tables =>
      (.ok ((statsReport (tables.projects.map tables.stats)).render ++ "\n"), workspace)
    | .error fault => (.error ⟨fault.message, fault.causes.tail⟩, workspace)

/-! ## 4. Invocations -/

/-- Where data are if the arguments do not say so. -/
structure Defaults where
  projects : String
  database : String
deriving DecidableEq, Repr

/-- Runs an invocation. -/
def invoke (defaults : Defaults) (workspace : Workspace) (now : Nat) (invocation : Invocation) :
    Outcome × Workspace :=
  let base := invocation.projects.getD defaults.projects
  let database := invocation.database.getD defaults.database
  match workspace.openAt database with
  | (.error fault, workspace) =>
    (.failed ⟨"opening index database " ++ database, fault.causes⟩, workspace)
  | (.ok (), workspace) =>
    match workspace.prepare with
    | .error fault => (.failed ⟨"migrating index database", fault.causes⟩, workspace)
    | .ok prepared =>
      match perform prepared now base invocation.task with
      | (.ok stdout, workspace) => (.success stdout, workspace)
      | (.error failure, workspace) => (.failed failure, workspace)

/-- Runs the program on arguments. -/
def run (defaults : Defaults) (workspace : Workspace) (now : Nat) (arguments : List String) :
    Outcome × Workspace :=
  match invocation? arguments with
  | .ok invocation => invoke defaults workspace now invocation
  | .error refusal => (.refused refusal, workspace)

end Intertext.Command
