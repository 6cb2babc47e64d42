import Intertext.Corpus.Disk
/-!
Settings of a compilation.

Three lists of projects, each best first: whose text a transclusion takes, whose instruction
replaces one of the same identifier, and whose notes are inserted. A list may name only projects
that exist.
-/

namespace Intertext

open Corpus (Disk)

/-- Settings of a compilation. -/
structure Settings where
  transclusion : List String
  instructions : List String
  annotations : List String
  /-- How deep transclusions may nest. -/
  maxDepth : Nat
deriving DecidableEq, Repr

/-- Why settings cannot be used. -/
inductive SettingsFault where
  | unreadable (path : String) (why : Disk.TextFault)
  | malformed
  | unknownProject (project path : String)
deriving DecidableEq, Repr

/-- The cause in words. -/
def SettingsFault.message : SettingsFault → String
  | .unreadable path why => "Failed to read settings file " ++ path ++ ": " ++ why.message
  | .malformed => "Invalid settings: malformed"
  | .unknownProject project path =>
    "Project '" ++ project ++ "' is listed in settings but " ++ path ++ " does not exist"

namespace Settings

/-- The depth allowed where nothing else is said. -/
def usualDepth : Nat := 32

/-- Settings that say nothing. -/
def empty : Settings := ⟨[], [], [], usualDepth⟩

/-- Settings that trust one project only. -/
def forProject (project : String) : Settings := ⟨[project], [project], [project], usualDepth⟩

/-- Every project that is listed, list by list. -/
def listed (settings : Settings) : List String :=
  settings.transclusion ++ settings.instructions ++ settings.annotations

/-- Checks that every listed project exists. -/
def validate (settings : Settings) (disk : Disk) (base : String) : Except SettingsFault Unit :=
  match settings.listed.find? fun project => !disk.pathExists (Corpus.Path.join base project) with
  | some project => .error (.unknownProject project (Corpus.Path.join base project))
  | none => .ok ()

end Settings

end Intertext
