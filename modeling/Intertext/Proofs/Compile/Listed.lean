import Intertext.Proofs.Compile.Provenance
import Intertext.Proofs.Compile.SideBySide
import Intertext.Proofs.Index.Visible
/-!
Projects that are not listed.

A compilation reads the compiled file and files of listed projects, and of the index it sees the
rows of listed projects only. So a tree that it gives is the same over any other library that
shares these with the first one (`compile_of_sharesListed`), whatever other projects hold. Which
error a compilation ends in may differ: a target that only other projects define is reported in
another way than one that nobody defines.
-/

namespace Intertext.Compile

open Markup (Element Node)
open Index (Tables Location)
open Priority (best?)

/-! ## 1. Targets

A search ranks what it finds by the list of projects, and nothing that is not listed is ranked. So
the rows of listed projects are all that the outcome depends on, as long as something is found. -/

variable {tables others : Tables} {priority projects : List String} {target : String}
  {targetEnd : Option String}

/-- An identifier points at the best range, or at the best place and an end in the same project. -/
theorem ofUrn_eq_ok {found : Target} :
    Target.ofUrn tables priority target targetEnd = .ok found ↔
      (∃ start stop, best? (tables.resolveRange target) priority = some (.range start stop) ∧
        targetEnd = none ∧ found = ⟨start.file, start.urn, stop.urn⟩) ∨
      ∃ start, best? (tables.resolveRange target) priority = some (.single start) ∧
        Target.ofSingle tables target targetEnd start = .ok found := by
  unfold Target.ofUrn
  dsimp only
  cases isBest : best? (tables.resolveRange target) priority with
  | none =>
    split <;> simp
  | some best =>
    have nonempty : (tables.resolveRange target).isEmpty = false := by
      rw [List.isEmpty_eq_false_iff]
      exact List.ne_nil_of_mem (Priority.mem_of_best? isBest).1
    rw [nonempty, if_neg Bool.false_ne_true]
    cases best with
    | single start => simp
    | range start stop =>
      cases targetEnd with
      | none => simp [eq_comm]
      | some stop => simp

/-- A second end leaves the file as it is. -/
theorem file_of_ofSingle {start : Location} {found : Target}
    (h : Target.ofSingle tables target targetEnd start = .ok found) : found.file = start.file := by
  unfold Target.ofSingle at h
  split at h
  · cases h
    rfl
  · split at h
    · cases h
    · split at h
      · cases h
        rfl
      · cases h

/-- What an identifier points at is in a listed project. -/
theorem project_of_ofUrn {found : Target}
    (h : Target.ofUrn tables priority target targetEnd = .ok found) :
    found.file.project ∈ priority := by
  rcases ofUrn_eq_ok.mp h with ⟨start, stop, isBest, -, rfl⟩ | ⟨start, isBest, single⟩
  · exact (Priority.mem_of_best? isBest).2
  · rw [file_of_ofSingle single]
    exact (Priority.mem_of_best? isBest).2

/-- What an identifier points at is seen from the rows of listed projects. -/
theorem ofUrn_of_sameRows (same : tables.SameRows others projects)
    (covers : ∀ project ∈ priority, project ∈ projects) {found : Target}
    (h : Target.ofUrn tables priority target targetEnd = .ok found) :
    Target.ofUrn others priority target targetEnd = .ok found := by
  have best := Priority.best?_congr covers (same.resolveRange target)
  rw [ofUrn_eq_ok] at h ⊢
  rw [← best]
  refine h.imp_right ?_
  rintro ⟨start, isBest, single⟩
  refine ⟨start, isBest, ?_⟩
  rw [← single]
  unfold Target.ofSingle
  -- the second end is looked for in the project of the first, which is listed
  cases targetEnd with
  | none => rfl
  | some stopTarget =>
    have inside : ∀ project ∈ [start.file.project], project ∈ projects := by
      intro project member
      cases List.mem_singleton.mp member
      exact covers _ (Priority.mem_of_best? isBest).2
    dsimp only
    rw [Priority.best?_congr inside (same.resolveRange stopTarget)]

/-! ## 2. What is shared

From the compiled file one only comes to itself and to files of listed projects, since all that a
directive, a note or an instruction leads to has been ranked. That is what makes it possible to
follow a compilation over both libraries at once. -/

variable {library other : Library} {compiled : SourceFile}

/-- Whether a compilation may look at a file: it is the compiled one or of a listed project. -/
def Library.InView (library : Library) (compiled file : SourceFile) : Prop :=
  file = compiled ∨ file.project ∈ library.settings.listed

/-- Whether another library has the settings, the compiled file, and of listed projects the files
and the rows. -/
structure Library.SharesListed (library other : Library) (compiled : SourceFile) : Prop where
  settings : other.settings = library.settings
  documents : ∀ file document, library.InView compiled file →
    library.document file = .ok document → other.document file = .ok document
  tables : ∀ tables, library.tables = some tables →
    ∃ others, other.tables = some others ∧ tables.SameRows others library.settings.listed

/-- A project is listed if it is listed for any purpose. -/
theorem Library.mem_listed {library : Library} {project : String} :
    project ∈ library.settings.listed ↔ project ∈ library.settings.transclusion ∨
      project ∈ library.settings.instructions ∨ project ∈ library.settings.annotations := by
  simp [Settings.listed]

/-- A question that is answered from the rows of listed projects has the same answer. -/
theorem Library.SharesListed.ask (shares : library.SharesListed other compiled) {α : Type}
    {answer answer' : Tables → α}
    (sees : ∀ {tables others : Tables}, tables.SameRows others library.settings.listed →
      answer tables = answer' others) {value : α}
    (found : (answer <$> library.ask).result = .ok value) :
    (answer' <$> other.ask).result = .ok value := by
  obtain ⟨tables, asked, same⟩ := Run.map_eq_ok.mp found
  obtain ⟨others, holds, rows⟩ := shares.tables tables (ask_eq_ok.mp asked)
  exact Run.map_eq_ok.mpr ⟨others, ask_eq_ok.mpr holds, (sees rows).symm.trans same⟩

/-- A fragment is found in the file of the directive, any other target by the tables. -/
theorem locate_eq_ok {file : SourceFile} {found : Target} :
    (Target.locate library file target targetEnd).result = .ok found ↔
      Index.isFragment target = true ∧ Target.ofFragment file target targetEnd = .ok found ∨
        Index.isFragment target = false ∧ ∃ tables, library.tables = some tables ∧
          Target.ofUrn tables library.settings.transclusion target targetEnd = .ok found := by
  unfold Target.locate
  split
  · rename_i isLocal
    simp [isLocal, Run.result_ofExcept]
  · rename_i noFragment
    rw [Run.bind_eq_ok]
    simp [noFragment, ask_eq_ok, Run.result_ofExcept]

/-- A fragment stays in the file of the directive. -/
theorem file_of_ofFragment {file : SourceFile} {found : Target}
    (h : Target.ofFragment file target targetEnd = .ok found) : found.file = file := by
  unfold Target.ofFragment at h
  dsimp only at h
  split at h
  · cases h
    rfl
  · cases h

/-- A target that is found is found with the other library, too. -/
theorem Library.SharesListed.locate (shares : library.SharesListed other compiled)
    {file : SourceFile} {found : Target}
    (h : (Target.locate library file target targetEnd).result = .ok found) :
    (Target.locate other file target targetEnd).result = .ok found := by
  refine locate_eq_ok.mpr ((locate_eq_ok.mp h).imp_right ?_)
  rintro ⟨noFragment, tables, holds, located⟩
  obtain ⟨others, holds', rows⟩ := shares.tables tables holds
  refine ⟨noFragment, others, holds', ?_⟩
  rw [shares.settings]
  exact ofUrn_of_sameRows rows (fun _ listed => Library.mem_listed.mpr (Or.inl listed)) located

/-- What a directive of a file in view points at is in view. -/
theorem Library.inView_of_locate {file : SourceFile} (seen : library.InView compiled file)
    {found : Target} (h : (Target.locate library file target targetEnd).result = .ok found) :
    library.InView compiled found.file := by
  rcases locate_eq_ok.mp h with ⟨-, located⟩ | ⟨-, tables, -, located⟩
  · rwa [file_of_ofFragment located]
  · exact Or.inr (Library.mem_listed.mpr (Or.inl (project_of_ofUrn located)))

/-- The notes that refer to an element are seen from the rows of listed projects. -/
theorem noteReferences_of_sameRows (same : tables.SameRows others projects)
    (covers : ∀ project ∈ priority, project ∈ projects) (file : SourceFile) (node : Node) :
    noteReferences tables priority file node = noteReferences others priority file node :=
  Priority.ranked_congr covers (Priority.ofProjects_filter_congr _ (same.referencesTo _ _))

/-- The best instruction is seen from the rows of listed projects. -/
theorem bestInstruction?_of_sameRows (same : tables.SameRows others projects)
    (covers : ∀ project ∈ priority, project ∈ projects) (urn : String) :
    bestInstruction? tables priority urn = bestInstruction? others priority urn :=
  Priority.best?_congr covers (Priority.ofProjects_filter_congr _ (same.mappingsOf _ _))

/-- What one library answers, the other one does. -/
theorem Library.SharesListed.compares (shares : library.SharesListed other compiled)
    (limit : Nat) : library.Compares (.ofValues limit) (library.InView compiled) other where
  read file seen document reads := by
    rw [Library.result_read] at reads ⊢
    exact shares.documents file document seen reads
  locate file start stop seen found located := shares.locate located
  target seen located := Library.inView_of_locate seen located
  referencing file node seen references found := by
    refine shares.ask (fun rows => ?_) found
    rw [shares.settings]
    exact noteReferences_of_sameRows rows
      (fun _ listed => Library.mem_listed.mpr (Or.inr (Or.inr listed))) file node
  referring seen found reference member := by
    obtain ⟨tables, -, same⟩ := Run.map_eq_ok.mp found
    rw [← same] at member
    exact Or.inr (Library.mem_listed.mpr (Or.inr (Or.inr (Priority.mem_ranked.mp member).2)))
  instruction urn best found := by
    refine shares.ask (fun rows => ?_) found
    rw [shares.settings]
    exact bestInstruction?_of_sameRows rows
      (fun _ listed => Library.mem_listed.mpr (Or.inr (Or.inl listed))) urn
  best found := by
    obtain ⟨tables, -, isBest⟩ := Run.map_eq_ok.mp found
    exact Or.inr (Library.mem_listed.mpr (Or.inr (Or.inl (Priority.mem_of_best? isBest).2)))

/-! ## 3. Compilations -/

/-- A tree that is compiled is compiled over every other library that shares with the first one the
settings, the compiled file and what it has of listed projects. -/
theorem compile_of_sharesListed (shares : library.SharesListed other compiled) {tree : Element}
    (ran : (compile library compiled).result = .ok tree) :
    (compile other compiled).result = .ok tree := by
  have frames := levels_compares rfl (shares.compares library.settings.maxDepth)
    (Nat.le_refl library.settings.maxDepth)
  unfold compile
  rw [shares.settings]
  exact frames.copy none compiled none (Or.inl rfl) tree ran

/-- A library where a project that is not listed defines what is quoted, before the listed one does,
and comments on it. -/
def crowded : Library :=
  let uninvited : SourceFile := ⟨"C", "c.xml"⟩
  { quotes with
    tables := some { quotedRows with
      mappings := ⟨⟨"urn:x-opensiddur:b", uninvited, some "/q", some "q", none⟩, 0⟩ ::
        quotedRows.mappings
      references := [⟨⟨"/note", noteTag, none, "urn:x-opensiddur:b", "urn:x-opensiddur:b", false,
        none, uninvited⟩, 0⟩] }
    document := fun file =>
      if file = uninvited then .error (.missing (.document uninvited "C/c.xml"))
      else quotes.document file }

theorem quotes_sharesListed_crowded : quotes.SharesListed crowded ⟨"A", "a.xml"⟩ where
  settings := rfl
  documents file document seen reads := by
    have notThere : file ≠ ⟨"C", "c.xml"⟩ := by
      rintro rfl
      exact absurd seen (by simp [Library.InView, Settings.listed, quotes])
    show (if file = _ then _ else _) = _
    rw [if_neg notThere]
    exact reads
  tables tables found := by
    cases found
    exact ⟨_, rfl, ⟨by decide, by decide⟩⟩

/-- What is quoted is quoted whatever the project says that is not listed. -/
theorem compile_crowded : ∃ tree, (compile quotes ⟨"A", "a.xml"⟩).result = .ok tree ∧
    tree.characters = "B" ∧ (compile crowded ⟨"A", "a.xml"⟩).result = .ok tree := by
  have shown : (compile quotes ⟨"A", "a.xml"⟩).result.map Element.characters = .ok "B" := by
    decide +kernel
  obtain ⟨tree, ran, isShown⟩ := Outcome.map_eq_ok.mp shown
  exact ⟨tree, ran, isShown, compile_of_sharesListed quotes_sharesListed_crowded ran⟩

end Intertext.Compile
