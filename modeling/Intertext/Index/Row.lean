import Intertext.Urn.Priority
/-!
What the index records.

A mapping says where an identifier is defined, a reference says which element points at which
target, and a file is known by its project and its name within the project.
-/

namespace Intertext

/-- A file of the corpus: the project it belongs to and its name there. -/
structure SourceFile where
  project : String
  name : String
deriving DecidableEq, Repr, Inhabited

/-- The file as it is named in messages. -/
def SourceFile.label (file : SourceFile) : String := file.project ++ "/" ++ file.name

namespace Index

/-- An element of `file` defines `urn`. Rows that were entered by hand may leave the element
open. -/
structure Mapping where
  urn : String
  file : SourceFile
  path : Option String
  tag : Option String
  kind : Option String
deriving DecidableEq, Repr, Inhabited

/-- An element of `file` points at a target. -/
structure Reference where
  path : String
  /-- The name of the element, in Clark notation. -/
  tag : String
  kind : Option String
  targetStart : String
  targetEnd : String
  /-- The target is a fragment of the same file. -/
  isLocal : Bool
  /-- The identifier the element itself defines. -/
  corresp : Option String
  file : SourceFile
deriving DecidableEq, Repr, Inhabited

/-- Where an identifier was found. -/
structure Location where
  file : SourceFile
  urn : String
  path : Option String
deriving DecidableEq, Repr, Inhabited

/-- What an identifier, with or without a range, was resolved to. -/
inductive Resolution where
  | single (location : Location)
  /-- Both ends lie in one file. -/
  | range (start stop : Location)
deriving DecidableEq, Repr, Inhabited

namespace Resolution

def start : Resolution → Location
  | single location => location
  | range start _ => start

/-- The end of a range; a single location is its own end. -/
def stop : Resolution → Location
  | single location => location
  | range _ stop => stop

def file (resolution : Resolution) : SourceFile := resolution.start.file

def isRange : Resolution → Bool
  | single _ => false
  | range _ _ => true

end Resolution

instance : Owned Mapping := ⟨(·.file.project)⟩
instance : Owned Reference := ⟨(·.file.project)⟩
instance : Owned Location := ⟨(·.file.project)⟩
instance : Owned Resolution := ⟨(·.file.project)⟩

end Index

end Intertext
