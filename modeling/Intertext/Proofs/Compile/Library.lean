import Intertext.Proofs.Markup.Numbering
import Intertext.Session
/-!
Libraries of documents that were read.

Every document that a compilation works on was read from a text, be it now or when it was put into
the cache (`parsed_library`). So what reading establishes holds of every document of a library.
-/

namespace Intertext.Compile

open Markup (Document)
open Corpus (Disk)

/-- Every document of the library was read from a text. -/
def Library.Parsed (library : Library) : Prop :=
  ∀ file document, library.document file = .ok document →
    ∃ text, Document.parse text = .ok document

/-- Every document that is kept was read from a text. -/
def Cache.Parsed (cache : Cache) : Prop :=
  ∀ entry ∈ cache, ∃ text, Document.parse text = .ok entry.2

variable {library : Library} {cache : Cache}

/-- The nodes of a document of a library are numbered in document order. -/
theorem Library.Parsed.ordered (parsed : library.Parsed) {file : SourceFile} {document : Document}
    (reads : library.document file = .ok document) : document.Ordered := by
  obtain ⟨text, read⟩ := parsed file document reads
  exact Document.ordered_of_parse read

/-- A document that is loaded from disk was read from a text. -/
theorem Cache.exists_text_of_load {disk : Disk} {base : String} {file : SourceFile}
    {document : Document} (h : Cache.load disk base file = .ok document) :
    ∃ text, Document.parse text = .ok document := by
  unfold Cache.load at h
  split at h
  · cases h
  · exact Document.exists_text_of_ofBytes (Outcome.mapError_eq_ok.mp h)

/-- A file whose bytes are a document is read as that document. -/
theorem Cache.load_of_bytes {disk : Disk} {base : String} {file : SourceFile} {bytes : ByteArray}
    {document : Document} (found : disk.bytes? (Index.filePath base file) = some bytes)
    (read : Document.ofBytes bytes = .ok document) : Cache.load disk base file = .ok document := by
  unfold Cache.load
  rw [found]
  dsimp only
  rw [read]
  rfl

/-- What a workspace compiles from was read from texts, if what its cache keeps was. -/
theorem parsed_library (workspace : Workspace) (kept : cache.Parsed) (settings : Settings)
    (base : String) : (workspace.library cache settings base).Parsed := by
  intro file document reads
  have reads : cache.document workspace.disk base file = .ok document := reads
  unfold Cache.document at reads
  split at reads
  · rename_i isKept
    cases reads
    obtain ⟨before, after, rfl, -⟩ := List.lookup_eq_some_iff.mp isKept
    exact kept (file, document) (List.mem_append_right _ List.mem_cons_self)
  · exact Cache.exists_text_of_load reads

/-- A library of one document and an index without rows. -/
def single (document : Document) : Library :=
  ⟨Settings.empty, some .empty, fun _ => .ok document⟩

/-- A library of one document that was read holds nothing else. -/
theorem parsed_single {document : Document} {text : String}
    (h : Document.parse text = .ok document) : (single document).Parsed := by
  intro file found reads
  cases reads
  exact ⟨text, h⟩

end Intertext.Compile
