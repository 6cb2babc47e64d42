import Intertext.Compile.Target
/-!
Content from other frames.

A compilation opens a frame for each file it goes into: for the compiled file, for the file of a
note, for the file a directive points at. What one frame asks of the next is a value of `Nested`;
the walks of a frame are written for any such value, so that each of them is a recursion on the tree
it walks. `Deeper.within` opens a frame where the limit allows another one.
-/

namespace Intertext.Compile

open Markup (Document Element Name Node)

/-! ## 1. What a frame asks of the next -/

/-- Where a frame is: the file it walks and the file's document. -/
structure Site where
  file : SourceFile
  document : Document

/-- Content that is compiled in a frame of its own. -/
structure Nested where
  /-- A file, or the subtree at one of its nodes, for a frame that is in another file or in the
  same; `none` stands for no frame. -/
  copy : Option SourceFile → SourceFile → Option Node → Run Element
  /-- The structure between two markers of a file. -/
  external : SourceFile → String → String → Run (List Element)
  /-- The text between two markers of a file, in a container. -/
  inline : SourceFile → String → String → Run Element

/-- The content that further frames give, if the limit allows another frame. -/
abbrev Deeper := Option (Unit → Nested)

/-- Walks in a frame of its own, with the content that further frames give. -/
def Deeper.within {α : Type} (deeper : Deeper) (library : Library) (frame : Frame)
    (walk : Nested → Run α) : Run α :=
  match deeper with
  | none => .fail (.tooDeep frame.file library.settings.maxDepth)
  | some nested => .inside frame (walk (nested ()))

/-! ## 2. Stamps -/

/-- Records where content comes from. -/
def stampOrigin (element : Element) (file : SourceFile) : Element :=
  (element.setValue (.processing "project") file.project).setValue (.processing "file_name")
    file.name

/-- Records where content comes from if it is not at home there. -/
def stampForeign (element : Element) (home : Option SourceFile) (file : SourceFile) : Element :=
  if home = some file then element else stampOrigin element file

/-- Declares the language of content where it differs from the one in scope. -/
def stampLang (element : Element) (source inScope : Option String) : Element :=
  match source with
  | some lang => if source = inScope then element else element.setValue (.xml "lang") lang
  | none => element

end Intertext.Compile
