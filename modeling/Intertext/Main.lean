import Intertext.Command.Run
import Intertext.Index.Archive
/-!
The program.

It takes its arguments from the command line and, where they do not say where data are, from the
environment. What an invocation may look at is read before it is run, and what it has changed is
written afterwards: the store, and the file that a compilation is written to.
-/

namespace Intertext.Program

open Command (Invocation Task Outcome)
open Corpus

/-! ## 1. Reading -/

/-- A time as a number of nanoseconds. -/
def nanoseconds (time : IO.FS.SystemTime) : Nat := time.sec.toNat * 1000000000 + time.nsec.toNat

/-- What stands in a folder under a name, with all that is in it; nothing if it cannot be read. -/
partial def readEntry (entry : IO.FS.DirEntry) : IO (Option (String × Entry)) :=
  try
    let facts ← entry.path.metadata
    match facts.type with
    | .dir =>
      let inner ← (← entry.path.readDir).toList.filterMapM readEntry
      return some (entry.fileName, .folder inner)
    | .file =>
      let bytes ← IO.FS.readBinFile entry.path
      return some (entry.fileName, .file bytes (nanoseconds facts.modified))
    | _ => return none
  catch _ => return none

/-- Adds what is at a path to a disk: a file, or a folder with all that is in it. -/
def addPath (disk : Disk) (path : String) : IO Disk :=
  try
    let place ← IO.FS.realPath path
    let facts ← place.metadata
    match facts.type with
    | .dir => return disk.put path (.folder (← (← place.readDir).toList.filterMapM readEntry))
    | _ => return disk.write path (← IO.FS.readBinFile place) (nanoseconds facts.modified)
  catch _ => return disk

/-- Adds what is at a path to a disk, without what is in it. -/
def addPlace (disk : Disk) (path : String) : IO Disk :=
  try
    if disk.pathExists path then return disk
    let facts ← (← IO.FS.realPath path).metadata
    match facts.type with
    | .dir => return disk.makeFolder path
    | _ => return disk.write path ByteArray.empty (nanoseconds facts.modified)
  catch _ => return disk

/-- Adds the folders on the way to the end of a path to a disk. -/
def addAround (disk : Disk) (path : String) : IO Disk := (Path.around path).foldlM addPlace disk

/-- The time now: that of a file just made. -/
def timeNow : IO Nat := do
  let (_, place) ← IO.FS.createTempFile
  let facts ← place.metadata
  IO.FS.removeFile place
  return nanoseconds facts.modified

/-! ## 2. Invocations -/

/-- Where data are if the arguments do not say so. -/
def defaults : IO Command.Defaults := do
  let home := (← IO.getEnv "HOME").getD ""
  return ⟨(← IO.getEnv "TEI_LINKER_PROJECTS").getD "project",
    (← IO.getEnv "TEI_LINKER_DATABASE").getD (home ++ "/.local/share/tei-linker/reference.db")⟩

/-- The files and folders that a task names. -/
def addTask (disk : Disk) : Task → IO Disk
  | .compile _ _ settings output => do
    let disk ← match settings with
      | some path => addPath (← addAround disk path) path
      | none => pure disk
    match output with
    | some path => addPlace (← addAround disk path) path
    | none => return disk
  | _ => return disk

/-- The store that stands in a file; nothing if something else does. -/
def store? (bytes : ByteArray) : Option Store := do
  if bytes.isEmpty then return .blank
  return some (← Index.Archive.decode? (← String.fromUTF8? bytes))

/-- Where the file of a store is; nothing if it has none. -/
def storeNames? (database : String) : Option (List String) :=
  match Store.Opening.ofText database with
  | .ok opening => if opening.isKept then some (Path.names opening.path) else none
  | .error _ => none

/-- The workspace that an invocation finds. -/
def workspaceFor (base database : String) (task : Task) : IO Workspace := do
  let disk ← addTask (← addPath (← addAround Disk.empty base) base) task
  let disk ← addAround disk database
  match storeNames? database with
  | none => return Workspace.ofDisk disk
  | some names =>
    let place := Path.ofNames names
    let disk ← addPath (← addAround disk place) place
    match (disk.bytes? place).bind store? with
    | some store =>
      return { Workspace.ofDisk (disk.putAt names (.file Workspace.storeMark 0)) with
        kept := [(names, ⟨store, true⟩)] }
    | none => return Workspace.ofDisk disk

/-- Writes what an invocation has changed. -/
def writeBack (database : String) (task : Task) (outcome : Outcome) (workspace : Workspace) :
    IO Unit := do
  if Path.folder database ≠ "" then
    try IO.FS.createDirAll (Path.folder database) catch _ => pure ()
  match workspace.place, workspace.store with
  | .file names, some tables =>
    if workspace.changeable then
      IO.FS.writeFile (Path.ofNames names) (Index.Archive.encode tables)
  | _, _ => pure ()
  match task with
  | .compile _ _ _ (some path) =>
    if outcome.code = 0 then
      match workspace.disk.bytes? path with
      | some bytes => IO.FS.writeBinFile path bytes
      | none => pure ()
  | _ => pure ()

/-- Runs an invocation. -/
def runInvocation (defaults : Command.Defaults) (invocation : Invocation) : IO Outcome := do
  let base := invocation.projects.getD defaults.projects
  let database := invocation.database.getD defaults.database
  let workspace ← workspaceFor base database invocation.task
  let (outcome, workspace) := Command.invoke defaults workspace (← timeNow) invocation
  writeBack database invocation.task outcome workspace
  return outcome

end Intertext.Program

/-- Runs the program on the arguments of the command line. -/
def main (arguments : List String) : IO UInt32 := do
  let outcome ← match Intertext.Command.invocation? arguments with
    | .ok invocation => Intertext.Program.runInvocation (← Intertext.Program.defaults) invocation
    | .error refusal => pure (Intertext.Command.Outcome.refused refusal)
  (← IO.getStdout).putStr outcome.stdout
  (← IO.getStderr).putStr outcome.stderr
  return outcome.code.toUInt32
