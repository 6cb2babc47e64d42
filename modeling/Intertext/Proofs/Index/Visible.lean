import Intertext.Index.Resolve
import Intertext.Proofs.Text.Order
import Intertext.Proofs.Urn.Priority
/-!
What some projects see of the index.

Queries answer from the rows of all projects. Whoever looks only at the answers that belong to
certain projects sees what the rows of these projects give, in the order in which they were
recorded, and nothing of the other rows (`Tables.SameRows`). Sorting, pairing the ends of a range
and leaving out elements that were found before come before the answers are looked at, but none of
them lets a row of one project have an effect on the answers of another one.
-/

namespace Intertext.Index.Tables

open Priority (ofProjects)

/-- Whether two indexes have the same rows of some projects, in the same order. -/
structure SameRows (tables other : Tables) (projects : List String) : Prop where
  mappings : ofProjects projects (tables.mappings.map (·.row)) =
    ofProjects projects (other.mappings.map (·.row))
  references : ofProjects projects (tables.references.map (·.row)) =
    ofProjects projects (other.references.map (·.row))

variable {tables other : Tables} {projects : List String}

/-- Rows can be picked and sorted after those of some projects were. -/
theorem ofProjects_query {α : Type} [Owned α] (key : α → String × String) (p : α → Bool)
    (rows : List α) :
    ofProjects projects ((rows.filter p).mergeSort fun a b => Text.lePair (key a) (key b)) =
      ((ofProjects projects rows).filter p).mergeSort fun a b => Text.lePair (key a) (key b) := by
  have trans (a b c : α) : Text.lePair (key a) (key b) → Text.lePair (key b) (key c) →
      Text.lePair (key a) (key c) := Text.lePair_trans _ _ _
  have total (a b : α) : Text.lePair (key a) (key b) || Text.lePair (key b) (key a) :=
    Text.lePair_total _ _
  unfold ofProjects
  rw [Text.filter_mergeSort trans total, List.filter_filter, List.filter_filter]
  simp only [Bool.and_comm]

/-! ## 1. Definitions

Looking at some projects only is a filter, and so is picking rows. A filter goes past sorting where
the order is total, and it goes past pairing since two ends are paired in one file. -/

/-- Of the rows for an identifier those of the projects are seen. -/
theorem SameRows.mappingsOf (same : tables.SameRows other projects) (urn project : Option String) :
    ofProjects projects (tables.mappingsOf urn project) =
      ofProjects projects (other.mappingsOf urn project) := by
  unfold Tables.mappingsOf
  rw [ofProjects_query fun mapping : Mapping => (mapping.file.project, mapping.urn), same.mappings,
    ofProjects_query fun mapping : Mapping => (mapping.file.project, mapping.urn)]

/-- Of the places of an identifier those in the projects are seen. -/
theorem SameRows.resolve (same : tables.SameRows other projects) (urn : String) :
    ofProjects projects (tables.resolve urn) = ofProjects projects (other.resolve urn) := by
  unfold Tables.resolve
  dsimp only
  exact Priority.ofProjects_map_congr (fun _ => rfl) (same.mappingsOf _ _)

/-- In a file of a project that is seen, nothing is left out. -/
theorem find?_ofProjects {start : Location} (seen : start.file.project ∈ projects)
    (stops : List Location) :
    (ofProjects projects stops).find? (·.file = start.file) =
      stops.find? (·.file = start.file) := by
  unfold ofProjects
  rw [List.find?_filter]
  congr 1
  funext stop
  -- what is searched for is in the same file, and so it is seen as well
  by_cases sameFile : stop.file = start.file
  · have seenStop : Owned.project stop ∈ projects := by
      show stop.file.project ∈ projects
      rwa [sameFile]
    simp [sameFile, seenStop]
  · simp [sameFile]

/-- Ends are paired within a file, and so within a project. -/
theorem ofProjects_paired (starts stops : List Location) :
    ofProjects projects (paired starts stops) =
      paired (ofProjects projects starts) (ofProjects projects stops) := by
  unfold paired
  induction starts with
  | nil => rfl
  | cons start rest ih =>
    rw [List.filterMap_cons]
    -- a start is seen with its end, and one that is not seen has no part in what is
    by_cases seen : start.file.project ∈ projects
    · rw [Priority.ofProjects_cons_of_mem seen, List.filterMap_cons, find?_ofProjects seen]
      cases stops.find? (·.file = start.file) with
      | none => exact ih
      | some stop => exact (Priority.ofProjects_cons_of_mem seen _).trans (congrArg _ ih)
    · rw [Priority.ofProjects_cons_of_not_mem seen]
      cases stops.find? (·.file = start.file) with
      | none => exact ih
      | some stop => exact (Priority.ofProjects_cons_of_not_mem seen _).trans ih

/-- Of the places of a range those in the projects are seen. -/
theorem SameRows.resolveRange (same : tables.SameRows other projects) (urn : String) :
    ofProjects projects (tables.resolveRange urn) =
      ofProjects projects (other.resolveRange urn) := by
  unfold Tables.resolveRange
  split
  · exact Priority.ofProjects_map_congr (fun _ => rfl) (same.resolve urn)
  · rw [ofProjects_paired, same.resolve, same.resolve, ofProjects_paired]

/-! ## 2. References

Leaving out what was found before looks at earlier answers, but only at those for the same element
of the same file. So an answer that is not seen never stands in the way of one that is. -/

/-- Of the references with some property those of the projects are seen. -/
theorem SameRows.referencesWhere (same : tables.SameRows other projects) (p : Reference → Bool) :
    ofProjects projects (tables.referencesWhere p) =
      ofProjects projects (other.referencesWhere p) := by
  unfold Tables.referencesWhere
  rw [ofProjects_query fun reference : Reference => (reference.file.project, reference.file.name),
    same.references,
    ofProjects_query fun reference : Reference => (reference.file.project, reference.file.name)]

/-- An element of a project that is seen is found again among what is seen. -/
theorem any_ofProjects {reference : Reference} (seen : reference.file.project ∈ projects)
    (found : List Reference) :
    (ofProjects projects found).any (sameElement reference) =
      found.any (sameElement reference) := by
  unfold ofProjects
  rw [List.any_filter]
  congr 1
  funext earlier
  by_cases sameFile : reference.file = earlier.file
  · have seenEarlier : Owned.project earlier ∈ projects := by
      show earlier.file.project ∈ projects
      rwa [← sameFile]
    simp [seenEarlier]
  · simp [sameElement, sameFile]

/-- An element that was found before is one of the same file, and so of the same project. -/
theorem ofProjects_addNew (found more : List Reference) :
    ofProjects projects (addNew found more) =
      addNew (ofProjects projects found) (ofProjects projects more) := by
  unfold addNew
  induction more generalizing found with
  | nil => rfl
  | cons reference rest ih =>
    have append : ofProjects projects (found ++ [reference]) =
        ofProjects projects found ++ ofProjects projects [reference] := List.filter_append ..
    rw [List.foldl_cons, ih]
    by_cases seen : reference.file.project ∈ projects
    · rw [Priority.ofProjects_cons_of_mem seen, List.foldl_cons, any_ofProjects seen]
      congr 1
      split
      · rfl
      · rw [append, Priority.ofProjects_cons_of_mem seen]
        rfl
    · rw [Priority.ofProjects_cons_of_not_mem seen]
      congr 1
      split
      · rfl
      · rw [append, Priority.ofProjects_cons_of_not_mem seen]
        exact List.append_nil _

/-- Of the references to a target those of the projects are seen. -/
theorem SameRows.referencesTo (same : tables.SameRows other projects) (urn : Option String)
    (fragment : Option (String × SourceFile)) :
    ofProjects projects (tables.referencesTo urn fragment) =
      ofProjects projects (other.referencesTo urn fragment) := by
  unfold Tables.referencesTo
  cases fragment with
  | none =>
    cases urn with
    | none => rfl
    | some urn => exact same.referencesWhere _
  | some place =>
    dsimp only
    rw [ofProjects_addNew, ofProjects_addNew, same.referencesWhere]
    cases urn with
    | none => rfl
    | some urn =>
      dsimp only
      rw [same.referencesWhere]

end Intertext.Index.Tables
