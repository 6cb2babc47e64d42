import Intertext.Proofs.Compile.Traces
/-!
What a compilation reads.

The trace of a run lists the documents that were read. Every one of them is the document that the
library has for its file (`Run.Reads`): this is so of the one step that reads, and opening frames
and entering nodes reads nothing (`frames_given`). So it holds of whole compilations
(`reads_compile`, `reads_compileText`), whether they succeed or not.
-/

namespace Intertext.Compile

open Markup (Document)

variable {library : Library}

/-- Whether a trace reads nothing but the documents of a library. -/
def Library.Given (library : Library) (trace : List Event) : Prop :=
  ∀ file document, .read file document ∈ trace → library.document file = .ok document

/-- Whether a run reads nothing but the documents of a library. -/
def Run.Reads {α : Type} (library : Library) (run : Run α) : Prop := library.Given run.trace

/-- Reading a document of the library is all there is to read. -/
theorem keeps_given (library : Library) : library.Keeps library.Given where
  nil _ _ read := by cases read
  append early late file document read :=
    (List.mem_append.mp read).elim (early file document) (late file document)
  read found other kept read := by
    obtain ⟨rfl, rfl⟩ := Event.read.inj (List.mem_singleton.mp read)
    exact found

/-- A frame reads what is read in it. -/
theorem frames_given (library : Library) : library.Frames library.Given library.Given where
  keepsWithin := keeps_given library
  keepsClosed := keeps_given library
  entered id command file document read := by simp at read
  weaken given := given
  inside frame trace given file document read := given file document (by simpa using read)

theorem reads_compile (file : SourceFile) : (compile library file).Reads library :=
  ((frames_given library).levels _).copy _ _ _

theorem reads_compileText (file : SourceFile) : (compileText library file).Reads library :=
  (keeps_given library).bind (reads_compile file) fun _ =>
    (keeps_given library).bind ((keeps_given library).reads file) fun _ =>
      (keeps_given library).pure _

end Intertext.Compile
