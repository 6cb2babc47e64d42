import Intertext.Compile.Run
import Intertext.Index.Resolve
import Intertext.Index.Sync
import Intertext.Settings
/-!
What a compilation works on: documents, the index and settings.

Documents are kept in a cache once they have been read, and a kept document is not looked at again
when its file changes. During a compilation no file changes, so each file has one document, or one
reason why it has none; which documents the cache keeps afterwards is told by the trace of the run.
-/

namespace Intertext.Compile

open Markup (Document)
open Corpus (Disk)
open Index (Tables)

/-! ## 1. The cache -/

/-- The documents that are kept, each with its file. -/
abbrev Cache := List (SourceFile × Document)

namespace Cache

/-- The document of a file as it is now on disk. -/
def load (disk : Disk) (base : String) (file : SourceFile) : Except Error Document :=
  match disk.bytes? (Index.filePath base file) with
  | none => .error (.missing (.document file (Index.filePath base file)))
  | some bytes => (Document.ofBytes bytes).mapError (.malformed (Index.filePath base file))

/-- The document of a file: the one that is kept, or else the one on disk. -/
def document (cache : Cache) (disk : Disk) (base : String) (file : SourceFile) :
    Except Error Document :=
  match cache.lookup file with
  | some document => .ok document
  | none => load disk base file

/-- Keeps a document, unless one of its file is kept. -/
def keep (cache : Cache) (file : SourceFile) (document : Document) : Cache :=
  if (cache.lookup file).isSome then cache else cache ++ [(file, document)]

/-- The document of a file, kept from now on. -/
def get (cache : Cache) (disk : Disk) (base : String) (file : SourceFile) :
    Except Error Document × Cache :=
  match cache.document disk base file with
  | .ok document => (.ok document, cache.keep file document)
  | .error error => (.error error, cache)

/-- Forgets the document of a file, and tells whether there was one. -/
def evict (cache : Cache) (file : SourceFile) : Bool × Cache :=
  ((cache.lookup file).isSome, cache.filter (·.1 ≠ file))

/-- Keeps every document that was read during a run. -/
def absorb (cache : Cache) (trace : List Event) : Cache :=
  trace.foldl (fun cache event =>
    match event with
    | .read file document => cache.keep file document
    | _ => cache) cache

end Cache

/-! ## 2. The library -/

/-- What a compilation works on. -/
structure Library where
  settings : Settings
  /-- The tables of the index, if the store has any. -/
  tables : Option Tables
  /-- The document of each file, or why there is none. -/
  document : SourceFile → Except Error Document

namespace Library

/-- Reads the document of a file. -/
def read (library : Library) (file : SourceFile) : Run Document :=
  match library.document file with
  | .ok document => ⟨.ok document, [.read file document]⟩
  | .error error => .fail error

/-- Asks the index. -/
def ask (library : Library) : Run Tables :=
  match library.tables with
  | some tables => pure tables
  | none => .fail (.index (.store .noTables))

@[simp] theorem result_read (library : Library) (file : SourceFile) :
    (library.read file).result = library.document file := by
  unfold read
  cases library.document file <;> rfl

end Library

end Intertext.Compile
