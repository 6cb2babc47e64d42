import Intertext.Compile.Target
import Intertext.Proofs.Index.Denoted
import Intertext.Proofs.Urn.Priority
/-!
Where a target leads.

The target of a transclusion leads to the first listed project in which it is resolved, and there to
the one file that it is in (`Best`). A second target is looked for in the same project and has to be
in the same file. All that can come of this is told by the tables and the priority list
(`locate_best`): which place is found (`Leads`), when the two ends are refused (`Refused`), and that
in every other case the target is missing. Neither depends on the order of rows.
-/

namespace Intertext.Compile

open Index (Tables Location Resolution isFragment)
open Index.Tables

variable {tables : Tables} {priority : List String} {target : String} {targetEnd : Option String}

/-! ## 1. What can come of a target

These are stated of tables and the priority list alone. What an identifier resolves to is a relation
to files (`Tables.Resolves`), so that nothing depends on how the rows are searched. -/

/-- Whether a target is resolved in a file, and in no file of a project that is listed before. -/
def Best (tables : Tables) (priority : List String) (target : String) (file : SourceFile)
    (start stop : String) : Prop :=
  tables.Resolves target file start stop ∧
    ∃ before after, priority = before ++ file.project :: after ∧
      ∀ (other : SourceFile) (start stop : String), other.project ∈ before →
        ¬ tables.Resolves target other start stop

/-- The place that a target leads to, without or with a second target for the end. -/
inductive Leads (tables : Tables) (priority : List String) (target : String) :
    Option String → Target → Prop where
  | whole {file : SourceFile} {start stop : String}
    (best : Best tables priority target file start stop) :
    Leads tables priority target none ⟨file, start, stop⟩
  | upTo {file : SourceFile} {start last first stop : String}
    (plain : Urn.splitRange? target = none) (best : Best tables priority target file start start)
    (ends : tables.Resolves last file first stop) :
    Leads tables priority target (some last) ⟨file, start, stop⟩

/-- When the two ends of what a target points at make no range: the target is a range and there is
a second target, the second target is in another file of the project, or the ends of a range are in
different files of a listed project and nowhere in one file. -/
inductive Refused (tables : Tables) (priority : List String) (target : String) :
    Option String → Prop where
  | twoEnds {file : SourceFile} {start stop last : String} {range : Urn.Range}
    (split : Urn.splitRange? target = some range)
    (best : Best tables priority target file start stop) :
    Refused tables priority target (some last)
  | elsewhere {file other : SourceFile} {start last first stop : String}
    (plain : Urn.splitRange? target = none) (best : Best tables priority target file start start)
    (ends : tables.Resolves last other first stop) (sameProject : other.project = file.project)
    (apart : other ≠ file) : Refused tables priority target (some last)
  | endsApart {targetEnd : Option String} {file other : SourceFile} {start stop : String}
    {range : Urn.Range} (split : Urn.splitRange? target = some range)
    (nowhere : ∀ file start stop, ¬ tables.Resolves target file start stop)
    (first : tables.Places range.start start file) (last : tables.Places range.stop stop other)
    (sameProject : other.project = file.project) (listed : file.project ∈ priority)
    (apart : other ≠ file) : Refused tables priority target targetEnd

/-- What a search for a target has to come to: a place that the target leads to, a refusal of its
two ends, or, where it is neither, that something is missing. -/
def Tells (tables : Tables) (priority : List String) (target : String) (targetEnd : Option String)
    (result : Except Error Target) : Prop :=
  (∃ place, result = .ok place ∧ Leads tables priority target targetEnd place) ∨
  (∃ why, result = .error (.badRange why) ∧ Refused tables priority target targetEnd) ∨
  ∃ what, result = .error (.missing what) ∧ ¬ Refused tables priority target targetEnd ∧
    ∀ place, ¬ Leads tables priority target targetEnd place

/-! ## 2. The best file

Ranking orders what was found by the place of its project in the list. In one project an identifier
is mapped to one file, so the first project fixes the file. -/

/-- The best file is in a listed project. -/
theorem Best.mem_priority {file : SourceFile} {start stop : String}
    (best : Best tables priority target file start stop) : file.project ∈ priority := by
  obtain ⟨-, before, after, rfl, -⟩ := best
  exact List.mem_append_right _ List.mem_cons_self

/-- There is one best file at most. -/
theorem Best.unique (keyed : tables.Keyed) {file other : SourceFile}
    {start stop start' stop' : String}
    (best : Best tables priority target file start stop)
    (bestOther : Best tables priority target other start' stop') :
    other = file ∧ start' = start ∧ stop' = stop := by
  obtain ⟨resolves, before, after, whole, none⟩ := best
  obtain ⟨resolvesOther, before', after', whole', none'⟩ := bestOther
  refine keyed.resolves_unique resolves resolvesOther ?_
  rw [whole, List.append_eq_append_iff] at whole'
  -- neither project is listed before the other
  rcases whole' with ⟨between, rfl, rest⟩ | ⟨between, rfl, rest⟩
  · cases between with
    | nil => exact (List.cons.inj rest).1.symm
    | cons project between =>
      obtain ⟨rfl, -⟩ := List.cons.inj rest
      exact absurd resolves (none' file start stop (List.mem_append_right _ List.mem_cons_self))
  · cases between with
    | nil => exact (List.cons.inj rest).1
    | cons project between =>
      obtain ⟨rfl, -⟩ := List.cons.inj rest
      exact absurd resolvesOther
        (none other start' stop' (List.mem_append_right _ List.mem_cons_self))

/-- What is ranked best is the best file. -/
theorem best_of_best? {resolution : Resolution}
    (isBest : Priority.best? (tables.resolveRange target) priority = some resolution) :
    Best tables priority target resolution.file resolution.start.urn resolution.stop.urn ∧
      resolution.isRange = (Urn.splitRange? target).isSome := by
  obtain ⟨resolves, kind⟩ := resolves_of_mem (Priority.mem_of_best? isBest).1
  obtain ⟨before, after, whole, none⟩ := Priority.exists_of_best? isBest
  refine ⟨⟨resolves, before, after, whole, fun other start stop earlier resolvesOther => ?_⟩, kind⟩
  obtain ⟨found, isFound, rfl, -⟩ := exists_resolution resolvesOther
  exact none found isFound earlier

/-- Where nothing is ranked, a target is resolved in no listed project. -/
theorem not_mem_of_best?_eq_none
    (nothing : Priority.best? (tables.resolveRange target) priority = none) {file : SourceFile}
    {start stop : String} (resolves : tables.Resolves target file start stop) :
    file.project ∉ priority := by
  obtain ⟨found, isFound, rfl, -⟩ := exists_resolution resolves
  exact Priority.best?_eq_none.mp nothing found isFound

/-! ## 3. What excludes what

A place and a refusal exclude each other, and so do two places: there is one best file at most, and
ends count as apart only where there is none. -/

/-- A target leads to one place at most. -/
theorem Leads.unique (keyed : tables.Keyed) {place other : Target}
    (leads : Leads tables priority target targetEnd place)
    (leadsOther : Leads tables priority target targetEnd other) : other = place := by
  cases leads with
  | whole best =>
    cases leadsOther with
    | whole best' =>
      obtain ⟨rfl, rfl, rfl⟩ := best.unique keyed best'
      rfl
  | upTo _ best ends =>
    cases leadsOther with
    | upTo _ best' ends' =>
      obtain ⟨rfl, rfl, -⟩ := best.unique keyed best'
      obtain ⟨-, -, rfl⟩ := keyed.resolves_unique ends ends' rfl
      rfl

/-- A target that leads somewhere is not refused. -/
theorem Leads.not_refused (keyed : tables.Keyed) {place : Target}
    (leads : Leads tables priority target targetEnd place) :
    ¬ Refused tables priority target targetEnd := by
  intro refused
  cases leads with
  | whole best =>
    cases refused with
    | endsApart _ nowhere => exact nowhere _ _ _ best.1
  | upTo plain best ends =>
    cases refused with
    | twoEnds split _ =>
      rw [plain] at split
      cases split
    | elsewhere _ best' ends' sameProject apart =>
      obtain ⟨rfl, -, -⟩ := best.unique keyed best'
      exact apart (keyed.resolves_unique ends ends' sameProject).1
    | endsApart _ nowhere => exact nowhere _ _ _ best.1

/-- What has no best file leads nowhere. -/
theorem nowhere_of_not_best
    (none : ∀ file start stop, ¬ Best tables priority target file start stop) (place : Target) :
    ¬ Leads tables priority target targetEnd place := by
  intro leads
  cases leads with
  | whole best => exact none _ _ _ best
  | upTo _ best => exact none _ _ _ best

/-- What has no best file is refused only if its ends are apart. -/
theorem Refused.endsApart_of_not_best (refused : Refused tables priority target targetEnd)
    (none : ∀ file start stop, ¬ Best tables priority target file start stop) :
    ∃ range, Urn.splitRange? target = some range ∧
      (∀ file start stop, ¬ tables.Resolves target file start stop) ∧
      ∃ file other start stop, tables.Places range.start start file ∧
        tables.Places range.stop stop other ∧ other.project = file.project ∧
        file.project ∈ priority ∧ other ≠ file := by
  cases refused with
  | twoEnds _ best => exact absurd best (none _ _ _)
  | elsewhere _ best => exact absurd best (none _ _ _)
  | endsApart split nowhere first last sameProject listed apart =>
    exact ⟨_, split, nowhere, _, _, _, _, first, last, sameProject, listed, apart⟩

/-! ## 4. The search

The search is followed branch by branch, and each of its answers is shown to be what `Tells` asks
for. That nothing else can be the case follows from what excludes what, so each of the equivalences
of the result needs one direction only. -/

/-- A file is told by its project and its name. -/
theorem eq_of_parts {a b : SourceFile} (project : a.project = b.project) (name : a.name = b.name) :
    a = b := by
  cases a
  cases b
  cases project
  cases name
  rfl

/-- Two ends are found apart if they are in different files of a listed project. -/
theorem endsApart_iff {first last : String} :
    Target.endsApart (Priority.ranked (tables.resolve first) priority)
        (Priority.ranked (tables.resolve last) priority) = true ↔
      ∃ file other start stop, tables.Places first start file ∧ tables.Places last stop other ∧
        other.project = file.project ∧ file.project ∈ priority ∧ other ≠ file := by
  simp only [Target.endsApart, List.any_eq_true, Priority.mem_ranked, Bool.and_eq_true,
    decide_eq_true_eq]
  constructor
  · rintro ⟨start, ⟨isStart, listed⟩, stop, ⟨isStop, -⟩, sameProject, otherName⟩
    exact ⟨start.file, stop.file, start.urn, stop.urn,
      exists_location_iff.mp ⟨start, isStart, rfl, rfl⟩,
      exists_location_iff.mp ⟨stop, isStop, rfl, rfl⟩, sameProject, listed,
      fun same => otherName (congrArg SourceFile.name same)⟩
  · rintro ⟨file, other, start, stop, first, last, sameProject, listed, apart⟩
    obtain ⟨location, isThere, rfl, -⟩ := exists_location_iff.mpr first
    obtain ⟨location', isThere', rfl, -⟩ := exists_location_iff.mpr last
    have listed' : location'.file.project ∈ priority := by rwa [sameProject]
    exact ⟨location, ⟨isThere, listed⟩, location', ⟨isThere', listed'⟩, sameProject,
      fun sameName => apart (eq_of_parts sameProject sameName)⟩

/-- What comes of a single place. -/
theorem ofSingle_cases (keyed : tables.Keyed) {start : Location}
    (plain : Urn.splitRange? target = none)
    (best : Best tables priority target start.file start.urn start.urn) :
    Tells tables priority target targetEnd (Target.ofSingle tables target targetEnd start) := by
  unfold Target.ofSingle
  cases targetEnd with
  | none => exact Or.inl ⟨_, rfl, .whole best⟩
  | some last =>
    dsimp only
    split
    · rename_i nothing
      have unresolved {file : SourceFile} {first stop : String}
          (ends : tables.Resolves last file first stop) : file.project ≠ start.file.project :=
        fun same => not_mem_of_best?_eq_none nothing ends (List.mem_singleton.mpr same)
      refine Or.inr (Or.inr ⟨_, rfl, fun refused => ?_, fun place leads => ?_⟩)
      · cases refused with
        | twoEnds split _ =>
          rw [plain] at split
          cases split
        | elsewhere _ best' ends sameProject _ =>
          obtain ⟨rfl, -⟩ := best.unique keyed best'
          exact unresolved ends sameProject
        | endsApart split _ =>
          rw [plain] at split
          cases split
      · cases leads with
        | upTo _ best' ends =>
          obtain ⟨rfl, -⟩ := best.unique keyed best'
          exact unresolved ends rfl
    · rename_i stop isBest
      -- the second end was looked for in the project of the first one only
      obtain ⟨bestEnd, -⟩ := best_of_best? isBest
      have sameProject : stop.file.project = start.file.project :=
        List.mem_singleton.mp bestEnd.mem_priority
      split
      · rename_i sameName
        have sameFile : stop.file = start.file := eq_of_parts sameProject sameName
        exact Or.inl ⟨_, rfl, .upTo plain best (sameFile ▸ bestEnd.1)⟩
      · rename_i otherName
        exact Or.inr (Or.inl ⟨_, rfl, .elsewhere plain best bestEnd.1 sameProject
          fun same => otherName (congrArg SourceFile.name same)⟩)

/-- What comes of a target that resolves to nothing. -/
theorem unresolved_cases (nothing : tables.resolveRange target = []) :
    Tells tables priority target targetEnd (.error (Target.unresolved tables priority target)) := by
  have nowhere (file : SourceFile) (start stop : String) :
      ¬ tables.Resolves target file start stop := by
    intro resolves
    obtain ⟨found, isFound, -⟩ := exists_resolution resolves
    rw [nothing] at isFound
    cases isFound
  have notBest (file : SourceFile) (start stop : String) :
      ¬ Best tables priority target file start stop := fun best => nowhere _ _ _ best.1
  unfold Target.unresolved
  split
  · rename_i plain
    refine Or.inr (Or.inr ⟨_, rfl, fun refused => ?_, nowhere_of_not_best notBest⟩)
    obtain ⟨range, split, -⟩ := refused.endsApart_of_not_best notBest
    rw [plain] at split
    cases split
  · rename_i range isRange
    -- the target is a range, and its ends are looked up on their own
    dsimp only [endpoints]
    split
    · rename_i apart
      obtain ⟨file, other, start, stop, first, last, sameProject, listed, otherFile⟩ :=
        endsApart_iff.mp apart
      exact Or.inr (Or.inl ⟨_, rfl,
        .endsApart isRange nowhere first last sameProject listed otherFile⟩)
    · rename_i together
      refine Or.inr (Or.inr ⟨_, rfl, fun refused => ?_, nowhere_of_not_best notBest⟩)
      obtain ⟨other, split, -, apart⟩ := refused.endsApart_of_not_best notBest
      rw [isRange] at split
      cases split
      exact together (endsApart_iff.mpr apart)

/-- What comes of a target: it leads to a place, its two ends are refused, or it is missing. -/
theorem ofUrn_cases (keyed : tables.Keyed) (priority : List String) (target : String)
    (targetEnd : Option String) :
    Tells tables priority target targetEnd (Target.ofUrn tables priority target targetEnd) := by
  unfold Target.ofUrn
  dsimp only
  split
  · rename_i isEmpty
    exact unresolved_cases (List.isEmpty_iff.mp isEmpty)
  · rename_i notEmpty
    split
    · rename_i nothing
      have notBest (file : SourceFile) (start stop : String) :
          ¬ Best tables priority target file start stop :=
        fun best => not_mem_of_best?_eq_none nothing best.1 best.mem_priority
      refine Or.inr (Or.inr ⟨_, rfl, fun refused => ?_, nowhere_of_not_best notBest⟩)
      obtain ⟨-, -, nowhere, -⟩ := refused.endsApart_of_not_best notBest
      -- something is resolved, so the ends do not count as apart
      obtain ⟨found, isFound⟩ := List.exists_mem_of_ne_nil _ (mt List.isEmpty_iff.mpr notEmpty)
      exact nowhere _ _ _ (resolves_of_mem isFound).1
    · rename_i start stop isBest
      obtain ⟨best, isRange⟩ := best_of_best? isBest
      obtain ⟨range, split⟩ := Option.isSome_iff_exists.mp isRange.symm
      cases targetEnd with
      | none => exact Or.inl ⟨_, rfl, .whole best⟩
      | some last => exact Or.inr (Or.inl ⟨_, rfl, .twoEnds split best⟩)
    · rename_i start isBest
      obtain ⟨best, isRange⟩ := best_of_best? isBest
      have plain : Urn.splitRange? target = none :=
        Option.isNone_iff_eq_none.mp (Option.isSome_eq_false_iff.mp isRange.symm)
      exact ofSingle_cases keyed plain best

/-- A target that is no fragment is looked for in the tables. -/
theorem result_locate {library : Library} (inStore : library.tables = some tables)
    (home : SourceFile) (noFragment : isFragment target = false) :
    (Target.locate library home target targetEnd).result =
      Target.ofUrn tables library.settings.transclusion target targetEnd := by
  rw [Target.locate, if_neg (by simp [noFragment]), Library.ask, inStore]
  rfl

/-- *Where targets lead, for all tables, all priority lists and all targets that are no fragments.*
A place is found exactly if the target leads there: to the file of the first listed project in which
the target is resolved, from the target's own identifier or the first end of its range on, and up to
an end in the same file. So the project of the place is listed, and the tables map both of its
identifiers to its file. The range is refused exactly if the target is a range and has a second end,
if the second end is in another file of the project, or if the two ends of the target are in
different files of a listed project and in no project in one file. In every other case something is
missing. -/
theorem locate_best {library : Library} (reachable : tables.Reachable)
    (inStore : library.tables = some tables) (home : SourceFile)
    (noFragment : isFragment target = false) (targetEnd : Option String) :
    (∀ place, (Target.locate library home target targetEnd).result = .ok place ↔
        Leads tables library.settings.transclusion target targetEnd place) ∧
      (∀ place, (Target.locate library home target targetEnd).result = .ok place →
        place.file.project ∈ library.settings.transclusion ∧
          tables.Maps place.start place.file ∧ tables.Maps place.stop place.file) ∧
      ((∃ why, (Target.locate library home target targetEnd).result = .error (.badRange why)) ↔
        Refused tables library.settings.transclusion target targetEnd) ∧
      ∀ error, (Target.locate library home target targetEnd).result = .error error →
        (∃ why, error = .badRange why) ∨ ∃ what, error = .missing what := by
  have keyed := reachable.keyed
  have listed {place : Target}
      (leads : Leads tables library.settings.transclusion target targetEnd place) :
      place.file.project ∈ library.settings.transclusion ∧
        tables.Maps place.start place.file ∧ tables.Maps place.stop place.file := by
    cases leads with
    | whole best => exact ⟨best.mem_priority, best.1.maps⟩
    | upTo _ best ends => exact ⟨best.mem_priority, best.1.maps.1, ends.maps.2⟩
  rw [result_locate inStore home noFragment]
  -- what comes of the target excludes the other two
  rcases ofUrn_cases keyed library.settings.transclusion target targetEnd with
    ⟨place, found, leads⟩ | ⟨why, fails, refused⟩ | ⟨what, fails, notRefused, nowhere⟩
  · rw [found]
    refine ⟨fun other => ⟨?_, ?_⟩, ?_, iff_of_false (by simp) (leads.not_refused keyed), by simp⟩
    · rintro ⟨⟩
      exact leads
    · intro leads'
      rw [leads.unique keyed leads']
    · rintro other ⟨⟩
      exact listed leads
  · rw [fails]
    refine ⟨fun other => iff_of_false (by simp) ?_, by simp, iff_of_true ⟨why, rfl⟩ refused, ?_⟩
    · intro leads
      exact leads.not_refused keyed refused
    · rintro error ⟨⟩
      exact Or.inl ⟨why, rfl⟩
  · rw [fails]
    refine ⟨fun other => iff_of_false (by simp) (nowhere other), by simp,
      iff_of_false (by simp) notRefused, ?_⟩
    rintro error ⟨⟩
    exact Or.inr ⟨what, rfl⟩

/-- Two verses in one file, entered by hand, and a second copy of the first one elsewhere. -/
def verses : Tables :=
  ((Tables.empty.addMapping 1 ⟨"urn:t/1", ⟨"a", "x"⟩, none, none, none⟩).addMapping 1
    ⟨"urn:t/1", ⟨"b", "y"⟩, none, none, none⟩).addMapping 2
      ⟨"urn:t/2", ⟨"b", "y"⟩, none, none, none⟩

def versesLibrary : Library :=
  ⟨{ Settings.empty with transclusion := ["a", "b"] }, some verses,
    fun file => .error (.missing (.document file ""))⟩

/-- The two verses are in the project that is listed second, since the first one lacks one of
them. -/
theorem best_verses :
    Best verses ["a", "b"] "urn:t/1-2" ⟨"b", "y"⟩ "urn:t/1" "urn:t/2" := by
  have split : Urn.splitRange? "urn:t/1-2" = some ⟨"urn:t/1", "urn:t/2"⟩ := by decide +kernel
  have here {urn : String} (stamp : Nat) (plain : '@' ∉ urn.toList)
      (isRow : ⟨⟨urn, ⟨"b", "y"⟩, none, none, none⟩, stamp⟩ ∈ verses.mappings) :
      verses.Places urn urn ⟨"b", "y"⟩ :=
    ⟨Or.inl ⟨plain, rfl⟩, _, isRow, rfl, rfl⟩
  have elsewhere : ∀ row ∈ verses.mappings, row.row.urn = "urn:t/2" →
      row.row.file.project = "b" := by decide
  refine ⟨.range split (here 1 (by decide) (by decide)) (here 2 (by decide) (by decide)), ["a"], [],
    rfl, ?_⟩
  rintro other start stop listed (⟨plain, -⟩ | ⟨split', -, denotes, row, isRow, isUrn, rfl⟩)
  · rw [split] at plain
    cases plain
  · rw [split] at split'
    cases split'
    have named : stop = "urn:t/2" := (Urn.denotes_iff.mp denotes).1.trans (by decide +kernel)
    rw [elsewhere row isRow (isUrn.trans named)] at listed
    exact absurd listed (by decide)

/-- The range over both verses is found where both of them are, and it cannot have a second end. -/
theorem locate_verses :
    (Target.locate versesLibrary ⟨"a", "x"⟩ "urn:t/1-2" none).result =
        .ok ⟨⟨"b", "y"⟩, "urn:t/1", "urn:t/2"⟩ ∧
      ∃ why, (Target.locate versesLibrary ⟨"a", "x"⟩ "urn:t/1-2" (some "urn:t/2")).result =
        .error (.badRange why) := by
  have reachable : verses.Reachable := .addMapping (.addMapping (.addMapping .empty _ _) _ _) _ _
  have split : Urn.splitRange? "urn:t/1-2" = some ⟨"urn:t/1", "urn:t/2"⟩ := by decide +kernel
  have inStore : versesLibrary.tables = some verses := rfl
  obtain ⟨leads, -, -, -⟩ := locate_best reachable inStore ⟨"a", "x"⟩
    (show isFragment "urn:t/1-2" = false from rfl) none
  obtain ⟨-, -, refused, -⟩ := locate_best reachable inStore ⟨"a", "x"⟩
    (show isFragment "urn:t/1-2" = false from rfl) (some "urn:t/2")
  exact ⟨(leads _).mpr (.whole best_verses), refused.mpr (.twoEnds split best_verses)⟩

end Intertext.Compile
