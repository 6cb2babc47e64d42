import Intertext.Compile.Walk
/-!
Runs of a compilation.

A run has a result and a trace. The result is all that the compiled text depends on. The trace lists
what happened on the way, in order: which files were read, which frames were opened and closed, and
which command was given for which node. Runs follow one another like computations that can fail;
nothing in a trace influences a result (`result_bind`), and a trace is kept also when the run fails.
-/

namespace Intertext.Compile

open Markup (Document)

/-! ## 1. Runs -/

/-- Something that happened during a compilation. -/
inductive Event where
  | read (file : SourceFile) (document : Document)
  | opened (frame : Frame)
  | closed
  /-- A walk within bounds entered a node. -/
  | entered (id : Nat) (command : Command)

/-- A result and how it came about. -/
structure Run (α : Type) where
  result : Except Error α
  trace : List Event

namespace Run

/-- A run in which nothing happens. -/
def done {α : Type} (value : α) : Run α := ⟨.ok value, []⟩

/-- A run that fails at once. -/
def fail {α : Type} (error : Error) : Run α := ⟨.error error, []⟩

/-- One run after another, which knows the value of the first. -/
def andThen {α β : Type} (first : Run α) (second : α → Run β) : Run β :=
  match first.result with
  | .ok value => ⟨(second value).result, first.trace ++ (second value).trace⟩
  | .error error => ⟨.error error, first.trace⟩

instance : Monad Run where
  pure := done
  bind := andThen

/-- A computation without a trace. -/
def ofExcept {α : Type} (result : Except Error α) : Run α := ⟨result, []⟩

/-- A run in which one thing happens. -/
def record (event : Event) : Run Unit := ⟨.ok (), [event]⟩

/-- A run inside a frame of its own, which is closed however the run ends. -/
def inside {α : Type} (frame : Frame) (run : Run α) : Run α :=
  ⟨run.result, .opened frame :: (run.trace ++ [.closed])⟩

/-! ## 2. Results -/

variable {α β : Type}

@[simp] theorem result_pure (value : α) : (pure value : Run α).result = .ok value := rfl

@[simp] theorem result_fail (error : Error) : (fail error : Run α).result = .error error := rfl

@[simp] theorem result_ofExcept (result : Except Error α) : (ofExcept result).result = result := rfl

@[simp] theorem result_record (event : Event) : (record event).result = .ok () := rfl

@[simp] theorem result_inside (frame : Frame) (run : Run α) :
    (inside frame run).result = run.result := rfl

/-- The result of two runs is made of their results alone. -/
@[simp] theorem result_bind (first : Run α) (second : α → Run β) :
    (first >>= second).result = first.result >>= fun value => (second value).result := by
  show (andThen first second).result = _
  unfold andThen
  cases first.result <;> rfl

end Run

end Intertext.Compile
