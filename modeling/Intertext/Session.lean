import Intertext.Compile.Compilation
import Intertext.Settings.Reading
import Intertext.Workspace
/-!
Sessions.

A session is a workspace with a cache of documents and, once they have been chosen, settings. A
compilation without chosen settings trusts the project of the compiled file only. What a compilation
has read stays in the cache, whether it succeeds or not.
-/

namespace Intertext

open Markup (Element)

/-- A workspace at work. -/
structure Session where
  workspace : Workspace
  cache : Compile.Cache
  settings : Option Settings

namespace Session

/-- A session that has done nothing yet. -/
def ofWorkspace (workspace : Workspace) : Session := ⟨workspace, [], none⟩

/-- The settings for a file. -/
def settingsFor (session : Session) (file : SourceFile) : Settings :=
  session.settings.getD (.forProject file.project)

/-- What a compilation of a file works on. -/
def library (session : Session) (base : String) (file : SourceFile) : Compile.Library :=
  session.workspace.library session.cache (session.settingsFor file) base

/-- Keeps what a run has read. -/
def afterRun {α : Type} (session : Session) (run : Compile.Run α) :
    Except Compile.Error α × Session :=
  (run.result, { session with cache := session.cache.absorb run.trace })

/-- Compiles a file into a tree. -/
def compile (session : Session) (base : String) (file : SourceFile) :
    Except Compile.Error Element × Session :=
  session.afterRun (Compile.compile (session.library base file) file)

/-- Compiles a file into a text. -/
def compileText (session : Session) (base : String) (file : SourceFile) :
    Except Compile.Error String × Session :=
  session.afterRun (Compile.compileText (session.library base file) file)

/-- The document of a file, kept from now on. -/
def document (session : Session) (base : String) (file : SourceFile) :
    Except Compile.Error Markup.Document × Session :=
  let (result, cache) := session.cache.get session.workspace.disk base file
  (result, { session with cache })

/-- Forgets the document of a file, and tells whether there was one. -/
def evict (session : Session) (file : SourceFile) : Bool × Session :=
  let (had, cache) := session.cache.evict file
  (had, { session with cache })

/-- Takes settings from a file; on a fault the settings stay as they are. -/
def loadSettings (session : Session) (path : String) : Except SettingsFault Settings × Session :=
  match Settings.load session.workspace.disk path with
  | .ok settings => (.ok settings, { session with settings := some settings })
  | .error fault => (.error fault, session)

end Session

end Intertext
