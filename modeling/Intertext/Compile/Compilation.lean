import Intertext.Compile.Copying
import Intertext.Compile.External
import Intertext.Compile.Inline
import Intertext.Markup.Serializer
/-!
Compilation.

The content that frames give to one another is tied together by the number of frames that the limit
still allows: a frame gets its nested content from frames with one less, and the last frame gets
none. So compilation ends whatever refers to what.
-/

namespace Intertext.Compile

open Markup (Element Node Serializer)

/-! ## 1. Frames within frames -/

/-- The content that a frame asks for, given what further frames give. -/
def level (library : Library) (deeper : Deeper) : Nested where
  copy home file root := do
    let document ← library.read file
    let element ← deeper.within library (.whole file) fun nested =>
      match root with
      | none => copy library nested ⟨file, document⟩ document.root
      | some node => copyNote library nested ⟨file, document⟩ node
    return stampForeign element home file
  external file start stop := do
    let document ← library.read file
    let bounds ← Run.ofExcept (Bounds.locate document start stop)
    let (elements, _) ← deeper.within library (.bounded file start stop) fun nested =>
      external library nested ⟨file, document⟩ (.within document bounds .external)
        (Walk.start file start stop) document.root
    return elements
  inline file start stop := do
    let document ← library.read file
    let bounds ← Run.ofExcept (Bounds.locate document start stop)
    let lang := document.lang? bounds.start
    let (items, _) ← deeper.within library (.bounded file start stop) fun nested =>
      inline library nested ⟨file, document⟩ (.within document bounds .inline) lang
        (Walk.start file start stop) document.root
    return append (container lang) items

/-- The content that a frame asks for when that many frames may be opened, one in the other. -/
def levels (library : Library) : Nat → Nested
  | 0 => level library none
  | remaining + 1 => level library (some fun _ => levels library remaining)

/-! ## 2. Compiling a file -/

/-- Compiles a file into a tree. -/
def compile (library : Library) (file : SourceFile) : Run Element :=
  (levels library library.settings.maxDepth).copy none file none

/-- Compiles a file into a text that prefers the labels of the file. -/
def compileText (library : Library) (file : SourceFile) : Run String := do
  let tree ← compile library file
  let source ← library.read file
  return (Serializer.standard.withDeclarations source.namespaces).serialize tree

end Intertext.Compile
