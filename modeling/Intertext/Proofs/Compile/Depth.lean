import Intertext.Proofs.Compile.Library
import Intertext.Proofs.Compile.SideBySide
/-!
The limit of frames.

The number of frames that may be opened decides whether a run gets to its end and nothing else. Of
two compilations that differ in it only, the one with fewer frames ends as the other one does, or it
ends because it would have needed one more, and then it says how many it was allowed
(`compile_of_fewer_frames`).
-/

namespace Intertext.Compile

open Markup (Document Element Node)

/-- A library with another limit. -/
def Library.withDepth (library : Library) (limit : Nat) : Library :=
  { library with settings := { library.settings with maxDepth := limit } }

variable {library : Library} {limit : Nat} {site : Site}

/-! ## 1. Values -/

/-- A copy that some frames allow is the same with more of them. -/
theorem copyNote_of_le {frames more : Nat} (le : frames ≤ more) {node : Node} {element : Element}
    (ran : (copyNote library (levels library frames) site node).result = .ok element) :
    (copyNote library (levels library more) site node).result = .ok element := by
  have answers : library.Compares (.ofValues library.settings.maxDepth) (fun _ => True) library :=
    ⟨fun _ _ _ same => same, fun _ _ _ _ _ same => same, fun _ _ => trivial,
      fun _ _ _ _ same => same, fun _ _ _ _ => trivial, fun _ _ same => same, fun _ => trivial⟩
  exact copyNote_compares answers (levels_compares rfl answers le) trivial node element ran

/-! ## 2. All results -/

/-- Results are the same, unless the first computation ends for want of a frame and names the
limit. -/
def Comparison.upToDepth (limit : Nat) : Comparison limit where
  Holds first other :=
    (∃ file, first = .error (.tooDeep file limit)) ∨ first = other ∧ IsShallow first
  refl shallow := Or.inr ⟨rfl, shallow⟩
  bind {_ _ first other _ _} before rest := by
    rcases before with ⟨file, rfl⟩ | ⟨rfl, shallow⟩
    · exact Or.inl ⟨file, rfl⟩
    · cases first with
      | error fault =>
        refine Or.inr ⟨rfl, ?_⟩
        intro file limit wrong
        cases wrong
        exact shallow file limit rfl
      | ok value => exact rest value rfl
  tooDeep file _ := Or.inl ⟨file, rfl⟩

/-- A file without a document is no want of frames. -/
def Library.ReadsShallowly (library : Library) : Prop :=
  ∀ file, IsShallow (library.document file)

theorem isShallow_ask (library : Library) : IsShallow library.ask.result := by
  intro file limit
  unfold Library.ask
  cases library.tables <;> simp

theorem isShallow_map {α β : Type} {run : Run α} (change : α → β)
    (shallow : IsShallow run.result) : IsShallow (change <$> run).result := by
  intro file limit failed
  rw [map_eq_pure_bind, Run.result_bind] at failed
  cases ran : run.result with
  | error fault =>
    rw [ran] at failed
    cases failed
    exact shallow file limit ran
  | ok value =>
    rw [ran] at failed
    cases failed

/-- A target is not found for other reasons only. -/
theorem isShallow_ofUrn (tables : Index.Tables) (priority : List String) (target : String)
    (targetEnd : Option String) : IsShallow (Target.ofUrn tables priority target targetEnd) := by
  intro file limit
  unfold Target.ofUrn Target.unresolved Target.ofSingle
  grind

theorem isShallow_locateTarget (library : Library) (file : SourceFile) (target : String)
    (targetEnd : Option String) :
    IsShallow (Target.locate library file target targetEnd).result := by
  intro inside limit
  unfold Target.locate
  split
  · unfold Target.ofFragment
    rw [Run.result_ofExcept]
    dsimp only
    split <;> simp
  · rw [Run.result_bind]
    cases asked : library.ask.result with
    | error fault =>
      intro failed
      cases failed
      exact isShallow_ask library inside limit asked
    | ok tables => exact isShallow_ofUrn tables _ target targetEnd inside limit

/-- A library answers the same, whatever its limit is. -/
theorem answers_withDepth (reads : library.ReadsShallowly) (limit more : Nat) :
    (library.withDepth limit).Compares (.upToDepth limit) (fun _ => True)
      (library.withDepth more) where
  read file _ := by
    have shallow : IsShallow ((library.withDepth limit).read file).result := by
      rw [Library.result_read]
      exact reads file
    exact .refl shallow
  locate file start stop _ :=
    .refl (isShallow_locateTarget (library.withDepth limit) file start stop)
  target _ _ := trivial
  referencing file node _ := .refl (isShallow_map _ (isShallow_ask (library.withDepth limit)))
  referring _ _ _ _ := trivial
  instruction urn := .refl (isShallow_map _ (isShallow_ask (library.withDepth limit)))
  best _ := trivial

/-- What a workspace cannot read is missing or malformed. -/
theorem readsShallowly_library (workspace : Workspace) (cache : Cache) (settings : Settings)
    (base : String) : (workspace.library cache settings base).ReadsShallowly := by
  intro file inside limit failed
  have failed : cache.document workspace.disk base file = .error (.tooDeep inside limit) := failed
  unfold Cache.document at failed
  split at failed
  · cases failed
  · unfold Cache.load at failed
    split at failed
    · cases failed
    · rename_i bytes _
      cases read : Document.ofBytes bytes <;> rw [read] at failed <;> cases failed

/-- Of two compilations whose limits differ, the one with the lower limit ends as the other one
does, in a tree or in an error, unless it ends because it would have needed one more frame than its
limit; and if it ends so, it names its own limit. -/
theorem compile_of_fewer_frames (workspace : Workspace) (cache : Cache) (settings : Settings)
    (base : String) (file : SourceFile) {limit more : Nat} (le : limit ≤ more) :
    let lower := (workspace.library cache { settings with maxDepth := limit } base)
    let higher := (workspace.library cache { settings with maxDepth := more } base)
    ((∀ inside named, (compile lower file).result ≠ .error (.tooDeep inside named)) →
        (compile higher file).result = (compile lower file).result) ∧
      ∀ inside named, (compile lower file).result = .error (.tooDeep inside named) →
        named = limit := by
  intro lower higher
  have answers : lower.Compares (.upToDepth limit) (fun _ => True) higher :=
    answers_withDepth (readsShallowly_library workspace cache settings base) limit more
  have atLimit : lower.settings.maxDepth = limit := rfl
  have frames := levels_compares atLimit answers le
  rcases frames.copy none file none trivial with ⟨inside, deep⟩ | ⟨same, shallow⟩
  · have deep : (compile lower file).result = .error (.tooDeep inside limit) := deep
    refine ⟨fun noLimit => absurd deep (noLimit inside limit), ?_⟩
    intro other named failed
    rw [deep] at failed
    cases failed
    rfl
  · exact ⟨fun _ => same.symm, fun other named failed => absurd failed (shallow other named)⟩

/-- A document that repeats a part of itself. -/
def echo : Document where
  root := ⟨0, "/r", .plain "r", [], "",
    [⟨1, "/r/p[1]", .plain "p", [(.xml "id", "p")], "P", [], ""⟩,
     ⟨2, "/r/j:transclude[1]", .link "transclude", [(.plain "target", "#p")], "", [], ""⟩], ""⟩
  namespaces := [(some "j", "http://jewishliturgy.org/ns/jlptei/2")]

/-- The file of that document. -/
def echoFile : SourceFile := ⟨"A", "a.xml"⟩

/-- What a workspace compiles from that has read the document, with a limit. -/
def echoes (limit : Nat) : Library :=
  { Workspace.ofDisk ⟨[]⟩ with remembered := some .empty }.library [(echoFile, echo)]
    { Settings.empty with maxDepth := limit } "project"

/-- The document needs two frames: one is named as the limit where it is the limit, and more than
two change nothing. -/
theorem compile_of_fewer_frames_echo :
    (compile (echoes 1) echoFile).result = .error (.tooDeep echoFile 1) ∧
      (compile (echoes 2) echoFile).result.map Element.characters = .ok "PP" ∧
      (compile (echoes 9) echoFile).result = (compile (echoes 2) echoFile).result := by
  have deep : (compile (echoes 1) echoFile).result = .error (.tooDeep echoFile 1) := by
    decide +kernel
  have shown : (compile (echoes 2) echoFile).result.map Element.characters = .ok "PP" := by
    decide +kernel
  obtain ⟨tree, ran, -⟩ := Outcome.map_eq_ok.mp shown
  have enough : ∀ inside named, (compile (echoes 2) echoFile).result ≠
      .error (.tooDeep inside named) := by
    intro inside named wrong
    rw [ran] at wrong
    cases wrong
  exact ⟨deep, shown, (compile_of_fewer_frames _ _ _ _ _ (by decide)).1 enough⟩

end Intertext.Compile
