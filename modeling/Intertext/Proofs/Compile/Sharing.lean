import Intertext.Proofs.Compile.Reads
import Intertext.Session
/-!
Compilations that share a cache.

A session keeps every document that a compilation has read, and a later compilation takes a kept
document instead of the one on disk. While nothing changes on disk the two are the same: a kept
document is what its file gives (`Cache.Current`), a compilation reads nothing but documents of its
library, and so what it leaves in the cache is again what the files give. A session that starts with
an empty cache therefore answers a list of requests one by one as it would answer each of them alone
(`served_alone`), whatever has been asked and whatever has failed before.

That a compilation has one library from beginning to end is no loss either: read one after another
from the cache as it grows on the way, the documents are the same (`Cache.Current.replays`).
-/

namespace Intertext.Compile

open Markup (Document)
open Corpus (Disk)

/-! ## 1. Caches -/

namespace Cache

variable {cache : Cache} {disk : Disk} {base : String} {file : SourceFile} {document : Document}

/-- Whether every document that is kept is what its file gives. -/
def Current (cache : Cache) (disk : Disk) (base : String) : Prop :=
  ∀ file document, cache.lookup file = some document → load disk base file = .ok document

theorem current_nil : Current [] disk base := by
  intro file document kept
  cases kept

/-- Whether a document is kept or read makes no difference. -/
theorem Current.document_eq (current : cache.Current disk base) (file : SourceFile) :
    cache.document disk base file = load disk base file := by
  unfold Cache.document
  cases kept : cache.lookup file with
  | none => rfl
  | some document => exact (current file document kept).symm

theorem lookup_keep (other : SourceFile) :
    (cache.keep file document).lookup other =
      (cache.lookup other).or (if other = file then some document else none) := by
  unfold keep
  by_cases same : other = file
  · subst same
    cases kept : cache.lookup other with
    | none => simp [List.lookup_append, kept]
    | some earlier => simp [kept]
  · have different : (other == file) = false := beq_eq_false_iff_ne.mpr same
    cases cache.lookup file with
    | none => simp [List.lookup_append, List.lookup_cons, same, different]
    | some earlier => simp [same]

theorem Current.keep (current : cache.Current disk base)
    (read : load disk base file = .ok document) : (cache.keep file document).Current disk base := by
  intro other found kept
  rw [lookup_keep, Option.or_eq_some_iff] at kept
  rcases kept with earlier | ⟨-, now⟩
  · exact current other found earlier
  · obtain ⟨rfl, rfl⟩ : other = file ∧ document = found := by
      simpa [Option.ite_none_right_eq_some] using now
    exact read

/-- What is kept of a run that has read documents of the disk are documents of the disk. -/
theorem Current.absorb {trace : List Event} (current : cache.Current disk base)
    (reads : ∀ file document, .read file document ∈ trace → load disk base file = .ok document) :
    (cache.absorb trace).Current disk base := by
  induction trace generalizing cache with
  | nil => exact current
  | cons event rest ih =>
    have readsLater := fun file document inRest =>
      reads file document (List.mem_cons_of_mem event inRest)
    cases event with
    | read file document =>
      exact ih (current.keep (reads file document List.mem_cons_self)) readsLater
    | _ => exact ih current readsLater

/-- Whether the documents of a trace are those that a cache gives which is asked for them in this
order and keeps each of them from then on. -/
def Replays (disk : Disk) (base : String) : Cache → List Event → Prop
  | _, [] => True
  | cache, .read file document :: rest =>
    cache.get disk base file = (.ok document, cache.keep file document) ∧
      Replays disk base (cache.keep file document) rest
  | cache, _ :: rest => Replays disk base cache rest

/-- Asking the growing cache gives a run what asking the cache from before the run gives. -/
theorem Current.replays {trace : List Event} (current : cache.Current disk base)
    (reads : ∀ file document, .read file document ∈ trace → load disk base file = .ok document) :
    Replays disk base cache trace := by
  induction trace generalizing cache with
  | nil => trivial
  | cons event rest ih =>
    have readsLater := fun file document inRest =>
      reads file document (List.mem_cons_of_mem event inRest)
    cases event with
    | read file document =>
      have isRead := reads file document List.mem_cons_self
      refine ⟨?_, ih (current.keep isRead) readsLater⟩
      rw [get, current.document_eq, isRead]
    | _ => exact ih current readsLater

end Cache

end Intertext.Compile

/-! ## 2. Sessions -/

namespace Intertext

open Compile (Cache Event)
open Markup (Element)

/-- A compilation that a session is asked for: of a file, into a tree or into a text. -/
inductive Request where
  | tree (file : SourceFile)
  | text (file : SourceFile)

/-- The result of a compilation that was asked for. -/
inductive Answer where
  | tree (result : Except Compile.Error Element)
  | text (result : Except Compile.Error String)

namespace Session

variable {session : Session} {base : String}

/-- Answers a request. -/
def answer (session : Session) (base : String) : Request → Answer × Session
  | .tree file => ((session.compile base file).map .tree id)
  | .text file => ((session.compileText base file).map .text id)

/-- What happens while a request is answered. -/
def trace (session : Session) (base : String) : Request → List Event
  | .tree file => (Compile.compile (session.library base file) file).trace
  | .text file => (Compile.compileText (session.library base file) file).trace

/-- Answers requests one after another. -/
def serve (session : Session) (base : String) : List Request → List Answer × Session
  | [] => ([], session)
  | first :: rest =>
    let (answered, session) := session.answer base first
    let (others, session) := session.serve base rest
    (answered :: others, session)

/-- Whether the documents a session keeps are those on its disk. -/
def IsCurrent (session : Session) (base : String) : Prop :=
  session.cache.Current session.workspace.disk base

theorem answer_eq (request : Request) :
    (session.answer base request).2 =
      { session with cache := session.cache.absorb (session.trace base request) } := by
  cases request <;> rfl

/-- A session with current documents compiles from the same library as one without documents. -/
theorem IsCurrent.library_eq (current : session.IsCurrent base) (file : SourceFile) :
    session.library base file = { session with cache := [] }.library base file := by
  have sameDocuments : session.cache.document session.workspace.disk base =
      Cache.document [] session.workspace.disk base := by
    funext file
    rw [current.document_eq, Compile.Cache.current_nil.document_eq]
  unfold library Workspace.library
  rw [sameDocuments]
  rfl

/-- So it gives the same answer. -/
theorem IsCurrent.answer_eq (current : session.IsCurrent base) (request : Request) :
    (session.answer base request).1 = ({ session with cache := [] }.answer base request).1 := by
  cases request with
  | tree file =>
    show Answer.tree (Compile.compile (session.library base file) file).result = _
    rw [current.library_eq]
    rfl
  | text file =>
    show Answer.text (Compile.compileText (session.library base file) file).result = _
    rw [current.library_eq]
    rfl

/-- While it answers, it reads what is on disk. -/
theorem IsCurrent.reads (current : session.IsCurrent base) (request : Request) :
    ∀ file document, .read file document ∈ session.trace base request →
      Cache.load session.workspace.disk base file = .ok document := by
  intro file document read
  rw [← current.document_eq]
  cases request with
  | tree compiled => exact Compile.reads_compile compiled file document read
  | text compiled => exact Compile.reads_compileText compiled file document read

/-- And it has current documents afterwards. -/
theorem IsCurrent.answer (current : session.IsCurrent base) (request : Request) :
    (session.answer base request).2.IsCurrent base := by
  rw [Session.answer_eq]
  exact Cache.Current.absorb current (current.reads request)

theorem IsCurrent.serve (current : session.IsCurrent base) (requests : List Request) :
    (session.serve base requests).2.IsCurrent base ∧
      { (session.serve base requests).2 with cache := [] } = { session with cache := [] } ∧
      (session.serve base requests).1 =
        requests.map fun request => ({ session with cache := [] }.answer base request).1 := by
  induction requests generalizing session with
  | nil => exact ⟨current, rfl, rfl⟩
  | cons first rest ih =>
    have blankAgain : { (session.answer base first).2 with cache := [] } =
        { session with cache := [] } := by
      rw [Session.answer_eq]
    obtain ⟨currentStill, blank, others⟩ := ih (current.answer first)
    rw [blankAgain] at blank others
    refine ⟨currentStill, blank, ?_⟩
    rw [List.map_cons, ← current.answer_eq first, ← others]
    rfl

/-- *Compilations do not affect one another.* A session without documents that answers requests one
after another, and keeps all documents it reads, gives each answer that it gives to that request
alone; and what it reads meanwhile is what its cache gives that grows with every document read. -/
theorem served_alone (workspace : Workspace) (settings : Option Settings) (base : String)
    (requests : List Request) :
    let fresh : Session := ⟨workspace, [], settings⟩
    let served := fresh.serve base requests
    served.1 = requests.map (fun request => (fresh.answer base request).1) ∧
      (∀ request, (served.2.answer base request).1 = (fresh.answer base request).1) ∧
      ∀ request, Cache.Replays workspace.disk base served.2.cache
        (served.2.trace base request) := by
  intro fresh served
  have isFresh : fresh.IsCurrent base := Cache.current_nil
  obtain ⟨current, blank, answers⟩ := isFresh.serve requests
  have sameDisk : served.2.workspace = workspace := congrArg Session.workspace blank
  refine ⟨answers, fun request => ?_, fun request => ?_⟩
  · rw [current.answer_eq, blank]
  · rw [← sameDisk]
    exact Cache.Current.replays current (current.reads request)

end Session

end Intertext
