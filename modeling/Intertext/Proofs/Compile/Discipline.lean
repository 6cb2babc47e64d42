import Intertext.Proofs.Compile.Library
import Intertext.Proofs.Compile.SideBySide
import Intertext.Proofs.Compile.Stack
/-!
The discipline of the stack.

Compilation on one stack comes to an end with the result of `compile`, whatever refers to what: the
calls that can be open at once are bounded by the frames the limit allows, because every call that
goes into another document pushes one. Each call gives back the stack as it was on entry, on success
and on error, and there are never more frames than the limit (`stack_discipline`).

A computation `Mimics` a run if it has its result and leaves the frames as they were. A walk within
bounds `Follows` a run: it changes the frame on top, which afterwards is the one where the run has
come to, and no other frame. Both are kept when computations follow one another, so the proof goes
through the functions as they are written, and then by induction on the frames that are left
(`calls_mimic`).
-/

namespace Intertext.Compile

open Markup (Document Element Node)
open Stacked (ofExcept within frameAt setFrame home)

/-! ## 1. How computations end

A computation on the stack says what it gives, which frames it leaves, and that it never holds more
of them than the limit on the way. That it ends so is kept when another follows, on success and on
error. -/

namespace Stacked

variable {α β : Type}

/-- Whether a computation on these frames ends with that result and those frames, and meanwhile has
no more frames than the limit. -/
def Ends (computation : Stacked α) (limit : Nat) (frames : List Frame) (result : Except Error α)
    (after : List Frame) : Prop :=
  ∀ peak ≤ limit, ∃ most, peak ≤ most ∧ most ≤ limit ∧
    computation ⟨frames, peak⟩ = (some result, ⟨after, most⟩)

variable {limit depth : Nat} {frames middle after : List Frame} {computation : Stacked α}
  {next : α → Stacked β}

/-- A result that is there needs no frames. -/
theorem ends_ofExcept (result : Except Error α) :
    (ofExcept result).Ends limit frames result frames :=
  fun peak le => ⟨peak, Nat.le_refl _, le, rfl⟩

/-- What follows on a success ends as it does from the frames that were left. -/
theorem Ends.bind {value : α} {result : Except Error β}
    (first : computation.Ends limit frames (.ok value) middle)
    (second : (next value).Ends limit middle result after) :
    (computation >>= next).Ends limit frames result after := by
  intro peak le
  obtain ⟨most, grows, bounded, ran⟩ := first peak le
  obtain ⟨last, growsMore, boundedStill, ranOn⟩ := second most bounded
  refine ⟨last, Nat.le_trans grows growsMore, boundedStill, ?_⟩
  show andThen computation next _ = _
  rw [andThen, ran]
  exact ranOn

/-- Nothing follows on an error, and the frames are as the error left them. -/
theorem Ends.bind_error {error : Error}
    (first : computation.Ends limit frames (.error error) after) :
    (computation >>= next).Ends limit frames (.error error) after := by
  intro peak le
  obtain ⟨most, grows, bounded, ran⟩ := first peak le
  refine ⟨most, grows, bounded, ?_⟩
  show andThen computation next _ = _
  rw [andThen, ran]

/-- Looking at a frame changes none. -/
theorem ends_frameAt {frame : Frame} (isThere : frames[depth]? = some frame) :
    (frameAt depth).Ends limit frames (.ok frame) frames := by
  intro peak le
  refine ⟨peak, Nat.le_refl _, le, ?_⟩
  rw [frameAt]
  dsimp only
  rw [isThere]

/-- Setting a frame changes this one. -/
theorem ends_setFrame (frame : Frame) :
    (setFrame depth frame).Ends limit frames (.ok ()) (frames.set depth frame) :=
  fun peak le => ⟨peak, Nat.le_refl _, le, rfl⟩

theorem ends_home : home.Ends limit frames (.ok (frames.getLast?.map (·.file))) frames :=
  fun peak le => ⟨peak, Nat.le_refl _, le, rfl⟩

/-- Where the limit allows another frame, it is pushed; it is gone afterwards, whatever the walk has
made of it. -/
theorem ends_within {frame last : Frame} {walk : Nat → Stacked α} {result : Except Error α}
    (room : frames.length < limit)
    (walks : (walk frames.length).Ends limit (frames ++ [frame]) result (frames ++ [last])) :
    (within limit frame walk).Ends limit frames result frames := by
  intro peak le
  obtain ⟨most, grows, bounded, ran⟩ :=
    walks (max peak (frames.length + 1)) (Nat.max_le.mpr ⟨le, room⟩)
  refine ⟨most, Nat.le_trans (Nat.le_max_left _ _) grows, bounded, ?_⟩
  have pushed : push limit frame ⟨frames, peak⟩ =
      (some (.ok frames.length), ⟨frames ++ [frame], max peak (frames.length + 1)⟩) :=
    if_neg (Nat.not_le.mpr room)
  show andThen (push limit frame) _ _ = _
  rw [andThen, pushed]
  show cutBack frames.length (walk frames.length) _ = _
  rw [cutBack, ran]
  simp

/-- Where it does not, nothing happens. -/
theorem ends_within_of_full (full : limit ≤ frames.length) (frame : Frame)
    (walk : Nat → Stacked α) :
    (within limit frame walk).Ends limit frames (.error (.tooDeep frame.file limit)) frames := by
  intro peak le
  refine ⟨peak, Nat.le_refl _, le, ?_⟩
  have refused : push limit frame ⟨frames, peak⟩ =
      (some (.error (.tooDeep frame.file limit)), ⟨frames, peak⟩) := if_pos full
  show andThen (push limit frame) _ _ = _
  rw [andThen, refused]

/-- Computations follow one another as the laws of monads say. -/
instance : LawfulMonad Stacked := LawfulMonad.mk' Stacked
  (fun computation => by
    funext stack
    show andThen computation _ stack = _
    unfold andThen
    rcases computation stack with ⟨_ | _ | _, rest⟩ <;> rfl)
  (fun value next => rfl)
  (fun computation next last => by
    funext stack
    show andThen (andThen computation next) last stack = andThen computation _ stack
    unfold andThen
    rcases computation stack with ⟨_ | _ | _, rest⟩ <;> rfl)

/-! ## 2. Mimicking runs

A run knows no stack. A computation mimics it if it comes to the same result with the frames it
began with, so that computations which mimic runs can follow one another as the runs do. -/

/-- Whether a computation has the result of a run and leaves the frames as they were. -/
def Mimics (computation : Stacked α) (limit : Nat) (frames : List Frame) (run : Run α) : Prop :=
  computation.Ends limit frames run.result frames

variable {run : Run α} {runNext : α → Run β}

/-- The result of a run is mimicked by itself. -/
theorem mimics_result (run : Run α) : (ofExcept run.result).Mimics limit frames run :=
  ends_ofExcept _

/-- A value is mimicked by itself. -/
theorem mimics_pure (value : α) : (pure value : Stacked α).Mimics limit frames (pure value) :=
  ends_ofExcept _

/-- What follows mimics what follows, if the first parts mimic one another. -/
theorem Mimics.bind (first : computation.Mimics limit frames run)
    (rest : ∀ value, run.result = .ok value →
      (next value).Mimics limit frames (runNext value)) :
    (computation >>= next).Mimics limit frames (run >>= runNext) := by
  unfold Mimics at *
  rw [Run.result_bind]
  cases ran : run.result with
  | error error => exact Ends.bind_error (ran ▸ first)
  | ok value => exact Ends.bind (ran ▸ first) (rest value ran)

/-- Looking at a frame has no counterpart in a run. -/
theorem Mimics.frameAt {frame : Frame} {next : Frame → Stacked α}
    (isThere : frames[depth]? = some frame) (rest : (next frame).Mimics limit frames run) :
    (frameAt depth >>= next).Mimics limit frames run :=
  Ends.bind (ends_frameAt isThere) rest

/-- Lists of computations mimic lists of runs. -/
theorem Mimics.mapM {action : β → Stacked α} {runAction : β → Run α}
    (each : ∀ value, (action value).Mimics limit frames (runAction value)) :
    ∀ values : List β, (values.mapM action).Mimics limit frames (values.mapM runAction)
  | [] => by
    rw [List.mapM_nil, List.mapM_nil]
    exact mimics_pure []
  | first :: rest => by
    rw [List.mapM_cons, List.mapM_cons]
    exact (each first).bind fun _ _ => (Mimics.mapM each rest).bind fun _ _ => mimics_pure _

end Stacked

/-- Whether calls have the results of frames that are opened on top of these. -/
structure OnStack.Calls.Mimic (calls : OnStack.Calls) (limit : Nat) (frames : List Frame)
    (nested : Nested) : Prop where
  copy : ∀ file root, (calls.copy file root).Mimics limit frames
    (nested.copy (frames.getLast?.map (·.file)) file root)
  external : ∀ file start stop, (calls.external file start stop).Mimics limit frames
    (nested.external file start stop)
  inline : ∀ file start stop, (calls.inline file start stop).Mimics limit frames
    (nested.inline file start stop)

/-! ## 3. Directives and notes

These are written on the stack as they are for runs, but for the file of the walk, which is asked of
the frame on top. Where the frame of the walk is on top, the answers are the same. -/

section Content

open Stacked (Mimics mimics_pure mimics_result)

variable {library : Library} {calls : OnStack.Calls} {nested : Nested} {limit : Nat}
  {base : List Frame} {frame : Frame} {site : Site}

/-- The frame of the walk is the one after those that were there before. -/
theorem frame_on_top : (base ++ [frame])[base.length]? = some frame := by simp

theorem file_on_top : (base ++ [frame]).getLast?.map (·.file) = some frame.file := by simp

/-- Filling a wrapper on the stack mimics filling it in a run. -/
theorem filled_mimics {frames : List Frame} (mimic : calls.Mimic limit frames nested)
    (target : Target) (extraction : Extraction) (element : Element) :
    (OnStack.filled calls target extraction element).Mimics limit frames
      (filled nested target extraction element) := by
  cases extraction with
  | external => exact (mimic.external _ _ _).bind fun _ _ => mimics_pure _
  | inline => exact (mimic.inline _ _ _).bind fun _ _ => mimics_pure _

variable (mimic : calls.Mimic limit (base ++ [frame]) nested) (own : frame.file = site.file)

include mimic own

/-- What is copied for a frame on top is copied for its file. -/
theorem copy_call_mimics (file : SourceFile) (root : Option Node) :
    (calls.copy file root).Mimics limit (base ++ [frame])
      (nested.copy (some site.file) file root) := by
  have called := mimic.copy file root
  rwa [file_on_top, own] at called

/-- A directive on the stack mimics the one in a run. -/
theorem transclude_mimics (node : Node) (extraction : Extraction) :
    (OnStack.transclude library calls base.length site.document node extraction).Mimics limit
      (base ++ [frame]) (transclude library nested site node extraction) := by
  unfold OnStack.transclude transclude
  cases node.value? (.plain "target") with
  | none => exact mimics_result (.fail _)
  | some start =>
    refine Mimics.frameAt frame_on_top ?_
    rw [own]
    refine (mimics_result _).bind fun target _ => ?_
    refine (filled_mimics mimic _ _ _).bind fun element _ => ?_
    refine Mimics.frameAt frame_on_top ?_
    refine (mimics_result _).bind fun source _ => ?_
    simp only [Frame.isHome, own, decide_eq_true_eq, stampForeign, Option.some.injEq]
    exact mimics_pure _

theorem noteOf_mimics (node : Node) (reference : Index.Reference) :
    (OnStack.noteOf library calls site.document node reference).Mimics limit (base ++ [frame])
      (noteOf library nested site node reference) := by
  refine (mimics_result _).bind fun source _ => ?_
  cases source.byPath? reference.path with
  | none => exact mimics_result (.fail _)
  | some found => exact (copy_call_mimics mimic own _ _).bind fun _ _ => mimics_pure _

theorem commentary_mimics (node : Node) :
    (OnStack.commentary library calls base.length site.document node).Mimics limit
      (base ++ [frame]) (commentary library nested site node) := by
  unfold OnStack.commentary commentary
  split
  · exact mimics_pure _
  · refine Mimics.frameAt frame_on_top ?_
    rw [own]
    refine (mimics_result _).bind fun tables _ => ?_
    exact (Mimics.mapM (noteOf_mimics mimic own node) _).bind fun _ _ => mimics_pure _

theorem instruction_mimics (node : Node) (urn : String) :
    (OnStack.instruction library calls base.length site.document node urn).Mimics limit
      (base ++ [frame]) (instruction library nested site node urn) := by
  unfold OnStack.instruction instruction
  refine (mimics_result library.ask).bind fun tables _ => ?_
  cases bestInstruction? tables library.settings.instructions urn with
  | none => exact mimics_pure _
  | some best =>
    refine Mimics.frameAt frame_on_top ?_
    have isSelf : (frame.isHome best.file = true ∧ best.path = some node.path) ↔
        best.file = site.file ∧ best.path = some node.path := by
      rw [Frame.isHome, own, decide_eq_true_eq, eq_comm]
    simp only [isSelf]
    split
    · exact mimics_pure _
    · cases best.path with
      | none => exact mimics_result (.fail _)
      | some path =>
        refine (mimics_result _).bind fun source _ => ?_
        cases source.byPath? path with
        | none => exact mimics_result (.fail _)
        | some found => exact (copy_call_mimics mimic own _ _).bind fun _ _ => mimics_pure _

/-- Annotating on the stack mimics annotating in a run. -/
theorem annotate_mimics (node : Node) :
    (OnStack.annotate library calls base.length site.document node).Mimics limit
      (base ++ [frame]) (annotate library nested site node) := by
  unfold OnStack.annotate annotate
  cases Role.of node with
  | instruction =>
    cases node.corresp? with
    | some urn => exact instruction_mimics mimic own node urn
    | none => exact commentary_mimics mimic own node
  | _ => exact commentary_mimics mimic own node

theorem inlineInstruction_mimics (node : Node) :
    (OnStack.inlineInstruction library calls base.length site.document node).Mimics limit
      (base ++ [frame]) (inlineInstruction library nested site node) := by
  refine (annotate_mimics mimic own node).bind fun applied _ => ?_
  cases applied with
  | replace note => exact mimics_pure _
  | _ =>
    refine Mimics.frameAt frame_on_top ?_
    rw [own]
    exact (copy_call_mimics mimic own _ _).bind fun _ _ => mimics_pure _

/-! ## 4. Copies

Copies change no frame, so they mimic throughout. -/

-- in a mutual recursion the linter misses what only the other theorem uses
set_option linter.unusedSectionVars false

mutual

/-- A copy on the stack mimics the copy in a run. -/
theorem copy_mimics : ∀ node : Node,
    (OnStack.copy library calls base.length site.document node).Mimics limit (base ++ [frame])
      (copy library nested site node)
  | ⟨id, path, name, attributes, text, children, tail⟩ => by
    rw [OnStack.copy, copy]
    split
    · exact transclude_mimics mimic own _ _
    · refine (annotate_mimics mimic own _).bind fun applied _ => ?_
      cases applied with
      | replace note => exact mimics_pure _
      | _ => exact (copyForest_mimics children).bind fun _ _ => mimics_pure _

theorem copyForest_mimics : ∀ nodes : List Node,
    (OnStack.copyForest library calls base.length site.document nodes).Mimics limit
      (base ++ [frame]) (copyForest library nested site nodes)
  | [] => mimics_pure _
  | first :: rest => by
    rw [OnStack.copyForest, copyForest]
    exact (copy_mimics first).bind fun _ _ =>
      (copyForest_mimics rest).bind fun _ _ => mimics_pure _

end

theorem copyNote_mimics (node : Node) :
    (OnStack.copyNote library calls base.length site.document node).Mimics limit
      (base ++ [frame]) (copyNote library nested site node) := by
  unfold OnStack.copyNote copyNote
  split
  · exact transclude_mimics mimic own _ _
  · exact (copyForest_mimics mimic own _).bind fun _ _ => mimics_pure _

end Content

/-! ## 5. Walks within bounds

A walk within bounds keeps its flags in the frame on top and changes them as it goes. So it does not
mimic a run but follows it, and the frame it leaves on top holds the flags that the run has come
to. -/

/-- Whether a walk with a frame on top ends as a run does that starts where the frame is: below the
frame the stack is as it was, and if the run succeeds, the frame is the one where the run ends. -/
structure Follows {α : Type} (computation : Stacked (α × Bool)) (limit : Nat) (base : List Frame)
    (progress : Progress) (run : Run (α × Progress)) : Prop where
  succeeds : ∀ value last, run.result = .ok (value, last) →
    last.frame.file = progress.frame.file ∧
      computation.Ends limit (base ++ [progress.frame]) (.ok (value, last.trailing))
        (base ++ [last.frame])
  fails : ∀ error, run.result = .error error → ∃ frame,
    computation.Ends limit (base ++ [progress.frame]) (.error error) (base ++ [frame])

section Walking

open Stacked (Mimics)

variable {α β : Type} {limit : Nat} {base : List Frame} {progress : Progress} {walk : Walk}

/-- A value follows itself and leaves the frame as it is. -/
theorem follows_pure (value : α) :
    Follows (pure (value, progress.trailing)) limit base progress (pure (value, progress)) where
  succeeds found last isLast := by
    cases isLast
    exact ⟨rfl, Stacked.ends_ofExcept _⟩
  fails error wrong := by cases wrong

/-- What follows goes on from the frame on top. -/
theorem Follows.bind {computation : Stacked (α × Bool)} {run : Run (α × Progress)}
    {next : α × Bool → Stacked (β × Bool)} {runNext : α × Progress → Run (β × Progress)}
    (first : Follows computation limit base progress run)
    (rest : ∀ value last, run.result = .ok (value, last) →
      last.frame.file = progress.frame.file →
        Follows (next (value, last.trailing)) limit base last (runNext (value, last))) :
    Follows (computation >>= next) limit base progress (run >>= runNext) where
  succeeds found last isLast := by
    obtain ⟨⟨value, between⟩, ran, isLast⟩ := Run.bind_eq_ok.mp isLast
    obtain ⟨sameFile, ends⟩ := first.succeeds value between ran
    obtain ⟨stillSame, endsOn⟩ := (rest value between ran sameFile).succeeds found last isLast
    exact ⟨stillSame.trans sameFile, ends.bind endsOn⟩
  fails error isError := by
    rw [Run.result_bind] at isError
    cases ran : run.result with
    | error other =>
      rw [ran] at isError
      cases isError
      obtain ⟨frame, ends⟩ := first.fails error ran
      exact ⟨frame, ends.bind_error⟩
    | ok found =>
      obtain ⟨value, between⟩ := found
      rw [ran] at isError
      obtain ⟨sameFile, ends⟩ := first.succeeds value between ran
      obtain ⟨frame, endsOn⟩ := (rest value between ran sameFile).fails error isError
      exact ⟨frame, ends.bind endsOn⟩

/-- A call leaves the frame on top alone, so the walk goes on where it was. -/
theorem Follows.after {computation : Stacked α} {run : Run α} {next : α → Stacked (β × Bool)}
    {runNext : α → Run (β × Progress)}
    (first : computation.Mimics limit (base ++ [progress.frame]) run)
    (rest : ∀ value, run.result = .ok value →
      Follows (next value) limit base progress (runNext value)) :
    Follows (computation >>= next) limit base progress (run >>= runNext) where
  succeeds found last isLast := by
    obtain ⟨value, ran, isLast⟩ := Run.bind_eq_ok.mp isLast
    obtain ⟨sameFile, ends⟩ := (rest value ran).succeeds found last isLast
    exact ⟨sameFile, Stacked.Ends.bind (ran ▸ first) ends⟩
  fails error isError := by
    rw [Run.result_bind] at isError
    unfold Stacked.Mimics at first
    cases ran : run.result with
    | error other =>
      rw [ran] at isError first
      cases isError
      exact ⟨_, first.bind_error⟩
    | ok value =>
      rw [ran] at isError first
      obtain ⟨frame, ends⟩ := (rest value ran).fails error isError
      exact ⟨frame, first.bind ends⟩

/-- A walk may look at its frame. -/
theorem Follows.frameAt {next : Frame → Stacked (α × Bool)} {run : Run (α × Progress)}
    (rest : Follows (next progress.frame) limit base progress run) :
    Follows (frameAt base.length >>= next) limit base progress run where
  succeeds found last isLast := by
    obtain ⟨sameFile, ends⟩ := rest.succeeds found last isLast
    exact ⟨sameFile, (Stacked.ends_frameAt frame_on_top).bind ends⟩
  fails error isError := by
    obtain ⟨frame, ends⟩ := rest.fails error isError
    exact ⟨frame, (Stacked.ends_frameAt frame_on_top).bind ends⟩

/-- Setting the frame on top leaves all others. -/
theorem set_on_top (frame other : Frame) :
    (base ++ [frame]).set base.length other = base ++ [other] := by simp

/-- Entering a node does not change the file of the frame. -/
theorem file_enter (node : Node) : (walk.enter progress node).frame.file = progress.frame.file := by
  unfold Walk.enter Walk.give
  dsimp only
  repeat' split
  all_goals rfl

theorem file_leave (node : Node) : (walk.leave progress node).frame.file = progress.frame.file := by
  unfold Walk.leave
  dsimp only
  repeat' split
  all_goals rfl

/-- Entering a node writes the frame of the walk. -/
theorem ends_enter (node : Node) :
    (OnStack.enter base.length walk progress.trailing node).Ends limit (base ++ [progress.frame])
      (.ok (walk.enter progress node)) (base ++ [(walk.enter progress node).frame]) := by
  have written := @Stacked.ends_setFrame limit base.length (base ++ [progress.frame])
    (walk.enter progress node).frame
  rw [set_on_top] at written
  exact (Stacked.ends_frameAt frame_on_top).bind (written.bind (Stacked.ends_ofExcept _))

/-- Leaving a node writes the frame of the walk. -/
theorem ends_leave (node : Node) :
    (OnStack.leave base.length walk progress.trailing node).Ends limit (base ++ [progress.frame])
      (.ok (walk.leave progress node).trailing) (base ++ [(walk.leave progress node).frame]) := by
  have written := @Stacked.ends_setFrame limit base.length (base ++ [progress.frame])
    (walk.leave progress node).frame
  rw [set_on_top] at written
  exact (Stacked.ends_frameAt frame_on_top).bind (written.bind (Stacked.ends_ofExcept _))

/-- Entering a node sets the flags that entering gives. -/
theorem follows_enter {next : Progress → Stacked (α × Bool)} {run : Unit → Run (α × Progress)}
    (event : Event) (node : Node)
    (rest : Follows (next (walk.enter progress node)) limit base (walk.enter progress node)
      (run ())) :
    Follows (OnStack.enter base.length walk progress.trailing node >>= next) limit base progress
      (Run.record event >>= run) where
  succeeds found last isLast := by
    rw [Run.result_record_bind] at isLast
    obtain ⟨sameFile, ends⟩ := rest.succeeds found last isLast
    exact ⟨sameFile.trans (file_enter node), (ends_enter node).bind ends⟩
  fails error isError := by
    rw [Run.result_record_bind] at isError
    obtain ⟨frame, ends⟩ := rest.fails error isError
    exact ⟨frame, (ends_enter node).bind ends⟩

/-- Leaving a node sets the flags that leaving gives. -/
theorem follows_leave (value : α) (node : Node) :
    Follows (OnStack.leave base.length walk progress.trailing node >>= fun trailing =>
      pure (value, trailing)) limit base progress (pure (value, walk.leave progress node)) where
  succeeds found last isLast := by
    cases isLast
    exact ⟨file_leave node, (ends_leave node).bind (Stacked.ends_ofExcept _)⟩
  fails error wrong := by cases wrong

variable {library : Library} {calls : OnStack.Calls} {nested : Nested} {site : Site}
  (mimic : ∀ frame : Frame, frame.file = site.file → calls.Mimic limit (base ++ [frame]) nested)

include mimic

-- in a mutual recursion the linter misses what only the other theorem uses
set_option linter.unusedSectionVars false

mutual

/-- A walk that extracts structure on the stack follows the one in a run. -/
theorem external_follows : ∀ (progress : Progress) (node : Node),
    progress.frame.file = site.file →
      Follows (OnStack.external library calls base.length site.document walk progress.trailing node)
        limit base progress (external library nested site walk progress node)
  | progress, ⟨id, path, name, attributes, text, children, tail⟩, own => by
    rw [OnStack.external, external]
    refine follows_enter _ _ ?_
    have ownNow := (@file_enter progress walk ⟨id, path, name, attributes, text, children,
      tail⟩).trans own
    generalize (walk.enter progress ⟨id, path, name, attributes, text, children,
      tail⟩).frame.command = command
    cases command with
    | skip => exact follows_pure _
    | copy =>
      dsimp only
      split
      · exact .after (transclude_mimics (mimic _ ownNow) ownNow _ _) fun _ _ => follows_leave _ _
      · refine .after (annotate_mimics (mimic _ ownNow) ownNow _) fun applied _ => ?_
        cases applied with
        | replace note => exact follows_leave _ _
        | _ => exact (externalForest_follows _ children ownNow).bind fun _ _ _ _ =>
            follows_leave _ _
    | _ => exact (externalForest_follows _ children ownNow).bind fun _ _ _ _ => follows_leave _ _

theorem externalForest_follows : ∀ (progress : Progress) (nodes : List Node),
    progress.frame.file = site.file →
      Follows (OnStack.externalForest library calls base.length site.document walk
        progress.trailing nodes) limit base progress
        (externalForest library nested site walk progress nodes)
  | progress, [], own => follows_pure _
  | progress, first :: rest, own => by
    rw [OnStack.externalForest, externalForest]
    refine (external_follows progress first own).bind fun elements last _ same => .frameAt ?_
    exact (externalForest_follows last rest (same.trans own)).bind fun _ _ _ _ => follows_pure _

end

mutual

/-- A walk that extracts text on the stack follows the one in a run. -/
theorem inline_follows : ∀ (lang : Option String) (progress : Progress) (node : Node),
    progress.frame.file = site.file →
      Follows (OnStack.inline library calls base.length site.document walk lang progress.trailing
        node) limit base progress (inline library nested site walk lang progress node)
  | lang, progress, ⟨id, path, name, attributes, text, children, tail⟩, own => by
    rw [OnStack.inline, inline]
    refine follows_enter _ _ ?_
    have ownNow := (@file_enter progress walk ⟨id, path, name, attributes, text, children,
      tail⟩).trans own
    generalize (walk.enter progress ⟨id, path, name, attributes, text, children,
      tail⟩).frame.command = command
    cases command with
    | skip => exact follows_pure _
    | copyText =>
      dsimp only
      generalize Role.of _ = role
      cases role with
      | directive =>
        exact .after (transclude_mimics (mimic _ ownNow) ownNow _ _) fun _ _ => follows_leave _ _
      | instruction =>
        exact .after (inlineInstruction_mimics (mimic _ ownNow) ownNow _) fun _ _ =>
          follows_leave _ _
      | _ =>
        exact .after (annotate_mimics (mimic _ ownNow) ownNow _) fun _ _ =>
          (inlineForest_follows _ _ children ownNow).bind fun _ _ _ _ => follows_leave _ _
    | _ => exact (inlineForest_follows _ _ children ownNow).bind fun _ _ _ _ => follows_leave _ _

theorem inlineForest_follows : ∀ (lang : Option String) (progress : Progress) (nodes : List Node),
    progress.frame.file = site.file →
      Follows (OnStack.inlineForest library calls base.length site.document walk lang
        progress.trailing nodes) limit base progress
        (inlineForest library nested site walk lang progress nodes)
  | lang, progress, [], own => follows_pure _
  | lang, progress, first :: rest, own => by
    rw [OnStack.inlineForest, inlineForest]
    refine (inline_follows lang progress first own).bind fun items last _ same => .frameAt ?_
    exact (inlineForest_follows lang last rest (same.trans own)).bind fun _ _ _ _ =>
      follows_pure _

end

end Walking

/-! ## 6. Calls

Calls take fuel, and each that opens a frame uses some of it up. As long as there is more fuel than
frames are left, the fuel does not run out before the limit refuses, and then what a call gives is
what a run gives. The induction is on the frames that are left. -/

section Frames

open Stacked (mimics_pure mimics_result)

variable {α β : Type} {library : Library} {calls : OnStack.Calls} {nested : Nested}
  {frames : List Frame} {frame : Frame}

/-- A walk that leaves its frame alone is a run inside a frame. -/
theorem within_mimics {limit : Nat} {walk : Nat → Stacked α} {run : Run α}
    (room : frames.length < limit)
    (walks : (walk frames.length).Mimics limit (frames ++ [frame]) run) :
    (within limit frame walk).Mimics limit frames (.inside frame run) :=
  Stacked.ends_within room walks

/-- So is a walk within bounds, once the frame is gone. -/
theorem within_bind_mimics {limit : Nat} {walk : Nat → Stacked (α × Bool)}
    {run : Run (α × Progress)} {next : α × Bool → Stacked β} {runNext : α × Progress → Run β}
    (progress : Progress) (room : frames.length < limit)
    (walks : Follows (walk frames.length) limit frames progress run)
    (rest : ∀ value last, (next (value, last.trailing)).Mimics limit frames
      (runNext (value, last))) :
    (within limit progress.frame walk >>= next).Mimics limit frames
      (.inside progress.frame run >>= runNext) := by
  unfold Stacked.Mimics
  rw [Run.result_bind, Run.result_inside]
  cases ran : run.result with
  | error error =>
    obtain ⟨frame, ends⟩ := walks.fails error ran
    exact (Stacked.ends_within room ends).bind_error
  | ok found =>
    obtain ⟨value, last⟩ := found
    obtain ⟨-, ends⟩ := walks.succeeds value last ran
    exact (Stacked.ends_within room ends).bind (rest value last)

/-- Where another frame may be pushed, calls have the results of a level above those below. -/
theorem next_mimic (room : frames.length < library.settings.maxDepth)
    (mimic : ∀ frame : Frame, calls.Mimic library.settings.maxDepth (frames ++ [frame]) nested) :
    (OnStack.next library calls).Mimic library.settings.maxDepth frames
      (level library (some fun _ => nested)) where
  copy file root := by
    refine (mimics_result _).bind fun document _ => ?_
    refine Stacked.Ends.bind Stacked.ends_home ?_
    refine Stacked.Mimics.bind (within_mimics room ?_) fun element _ => mimics_pure _
    cases root with
    | none => exact @copy_mimics library _ _ _ frames (.whole file) ⟨file, document⟩ (mimic _) rfl _
    | some node =>
      exact @copyNote_mimics library _ _ _ frames (.whole file) ⟨file, document⟩ (mimic _) rfl node
  external file start stop := by
    refine (mimics_result _).bind fun document _ => ?_
    refine (mimics_result (.ofExcept _)).bind fun bounds _ => ?_
    refine within_bind_mimics (Walk.start file start stop) room ?_ fun elements last => ?_
    · exact @external_follows _ frames _ library calls nested ⟨file, document⟩
        (fun frame _ => mimic frame) (Walk.start file start stop) _ rfl
    · exact mimics_pure _
  inline file start stop := by
    refine (mimics_result _).bind fun document _ => ?_
    refine (mimics_result (.ofExcept _)).bind fun bounds _ => ?_
    refine within_bind_mimics (Walk.start file start stop) room ?_ fun items last => ?_
    · exact @inline_follows _ frames _ library calls nested ⟨file, document⟩
        (fun frame _ => mimic frame) _ (Walk.start file start stop) _ rfl
    · exact mimics_pure _

/-- Where no other frame may be pushed, calls fail like the last level. -/
theorem next_mimic_of_full (full : frames.length = library.settings.maxDepth) :
    (OnStack.next library calls).Mimic library.settings.maxDepth frames (level library none) where
  copy file root := by
    refine (mimics_result _).bind fun document _ => ?_
    refine Stacked.Ends.bind Stacked.ends_home ?_
    exact (Stacked.ends_within_of_full (Nat.le_of_eq full.symm) _ _).bind_error
  external file start stop := by
    refine (mimics_result _).bind fun document _ => ?_
    refine (mimics_result (.ofExcept _)).bind fun bounds _ => ?_
    exact (Stacked.ends_within_of_full (Nat.le_of_eq full.symm) _ _).bind_error
  inline file start stop := by
    refine (mimics_result _).bind fun document _ => ?_
    refine (mimics_result (.ofExcept _)).bind fun bounds _ => ?_
    exact (Stacked.ends_within_of_full (Nat.le_of_eq full.symm) _ _).bind_error

/-- Calls that may go further into one another than there are frames left have the results of
that many levels. -/
theorem calls_mimic : ∀ {room fuel : Nat} {frames : List Frame},
    frames.length + room = library.settings.maxDepth → room < fuel →
      (OnStack.callsUpTo library fuel).Mimic library.settings.maxDepth frames (levels library room)
  | _, 0, _, _, enough => absurd enough (Nat.not_lt_zero _)
  | 0, fuel + 1, frames, height, _ => next_mimic_of_full height
  | room + 1, fuel + 1, frames, height, enough => by
    refine next_mimic (by omega) fun frame => calls_mimic ?_ (Nat.lt_of_succ_lt_succ enough)
    rw [List.length_append, List.length_singleton]
    omega

end Frames

/-- Whatever refers to what, and whatever the limit is: with any fuel beyond the limit, compilation
that starts on a stack without frames comes to an end with the result of `compile`, with no frame
left, and without ever having had more frames than the limit. And every call that is made on a stack
of no more frames than the limit, be it of a document, of a part between markers, of what replaces a
directive of the frame on top or of what applies to one of its elements, comes to an end, on success
or on error, with all these frames as they were and without ever having more frames than the
limit. -/
theorem stack_discipline (library : Library) (fuel : Nat) :
    (library.settings.maxDepth < fuel → ∀ file, ∃ most ≤ library.settings.maxDepth,
      OnStack.compile library fuel file = (some (compile library file).result, ⟨[], most⟩)) ∧
    ∀ room (frames : List Frame), frames.length + room = library.settings.maxDepth → room < fuel →
      (OnStack.callsUpTo library fuel).Mimic library.settings.maxDepth frames
        (levels library room) ∧
      ∀ base frame document node, frames = base ++ [frame] →
        (∀ extraction, (OnStack.transclude library (OnStack.callsUpTo library fuel) base.length
          document node extraction).Mimics library.settings.maxDepth frames
            (transclude library (levels library room) ⟨frame.file, document⟩ node extraction)) ∧
        (OnStack.annotate library (OnStack.callsUpTo library fuel) base.length document
          node).Mimics library.settings.maxDepth frames
            (annotate library (levels library room) ⟨frame.file, document⟩ node) := by
  constructor
  · intro enough file
    have mimic : (OnStack.callsUpTo library fuel).Mimic library.settings.maxDepth []
        (levels library library.settings.maxDepth) := calls_mimic (Nat.zero_add _) enough
    obtain ⟨most, -, bounded, ran⟩ := mimic.copy file none 0 (Nat.zero_le _)
    exact ⟨most, bounded, ran⟩
  · intro room frames height enough
    have mimic := @calls_mimic library room fuel frames height enough
    refine ⟨mimic, ?_⟩
    rintro base frame document node rfl
    exact ⟨fun extraction => @transclude_mimics library _ _ _ base frame ⟨frame.file, document⟩
        mimic rfl node extraction,
      @annotate_mimics library _ _ _ base frame ⟨frame.file, document⟩ mimic rfl node⟩

/-! ## 7. A document that contains itself -/

/-- A directive that points at the root of its document. -/
def wholeAgain : Node :=
  ⟨1, "/r/j:transclude[1]", .link "transclude", [(.plain "target", "#r")], "", [], ""⟩

/-- A document that repeats the whole of itself. -/
def spiral : Document where
  root := ⟨0, "/r", .plain "r", [(.xml "id", "r")], "", [wholeAgain], ""⟩
  namespaces := [(some "j", "http://jewishliturgy.org/ns/jlptei/2")]

/-- The file of that document. -/
def spiralFile : SourceFile := ⟨"A", "a.xml"⟩

/-- What is compiled from that document, with three frames. -/
def spirals : Library :=
  ⟨{ Settings.empty with maxDepth := 3 }, some .empty, fun _ => .ok spiral⟩

/-- Compiling it comes to an end on an empty stack, with the error that the limit was reached. The
directive that is met with one frame on the stack fails, too, and leaves this frame as it was. -/
theorem stack_discipline_spiral :
    (∃ most ≤ 3, OnStack.compile spirals 4 spiralFile =
      (some (.error (.tooDeep spiralFile 3)), ⟨[], most⟩)) ∧
    ∃ most ≤ 3, OnStack.transclude spirals (OnStack.callsUpTo spirals 4) 0 spiral wholeAgain
      .external ⟨[.whole spiralFile], 1⟩ =
        (some (.error (.tooDeep spiralFile 3)), ⟨[.whole spiralFile], most⟩) := by
  obtain ⟨whole, calls⟩ := stack_discipline spirals 4
  constructor
  · obtain ⟨most, bounded, ran⟩ := whole (by decide) spiralFile
    have deep : (compile spirals spiralFile).result = .error (.tooDeep spiralFile 3) := by
      decide +kernel
    exact ⟨most, bounded, ran.trans (by rw [deep])⟩
  · obtain ⟨-, onTop⟩ := calls 2 [.whole spiralFile] (by decide) (by decide)
    obtain ⟨transcludes, -⟩ := onTop [] (.whole spiralFile) spiral wholeAgain rfl
    obtain ⟨most, -, bounded, ran⟩ := transcludes .external 1 (by decide)
    have deep : (transclude spirals (levels spirals 2) ⟨spiralFile, spiral⟩ wholeAgain
        .external).result = .error (.tooDeep spiralFile 3) := by
      decide +kernel
    exact ⟨most, bounded, ran.trans (by rw [← deep]; rfl)⟩

end Intertext.Compile
