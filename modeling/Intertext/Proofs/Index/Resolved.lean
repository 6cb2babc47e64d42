import Intertext.Proofs.Index.Denoted
import Intertext.Proofs.Text.Order
/-!
What resolving finds, row by row.

Looking an identifier up finds every row that it denotes and no other (`resolve_perm`). Since a
project has one row for an identifier at most, the places found are of different projects, in order
(`Keyed.pairwise_resolve`). So the first end in the file of a start is the only one there, and
pairing misses no end and takes no wrong one (`mem_paired_iff`): whatever was written to the tables
and removed from them, a target is resolved to exactly what the rows say (`resolveRange_exact`).
-/

namespace Intertext.Index.Tables

variable {tables : Tables} {target : String}

/-! ## 1. Looking identifiers up -/

/-- The rows that a target denotes. -/
def rowsOf (tables : Tables) (target : String) : List (Stamped Mapping) :=
  tables.mappings.filter fun row => Urn.Denotes target row.row.urn row.row.file.project

theorem mem_rowsOf {row : Stamped Mapping} :
    row ∈ tables.rowsOf target ↔
      row ∈ tables.mappings ∧ Urn.Denotes target row.row.urn row.row.file.project := by
  rw [rowsOf, List.mem_filter, decide_eq_true_eq]

/-- Looking an identifier up gives the rows that it denotes in their order. -/
theorem resolve_eq (tables : Tables) (target : String) :
    tables.resolve target =
      (((tables.rowsOf target).map (·.row)).mergeSort fun a b =>
        Text.lePair (a.file.project, a.urn) (b.file.project, b.urn)).map locationOf := by
  unfold resolve mappingsOf
  dsimp only
  rw [rowsOf, List.filter_map]
  refine congrArg (List.map _) (congrArg (List.mergeSort · _) (congrArg (List.map _)
    (List.filter_congr fun row _ => ?_)))
  rw [Bool.eq_iff_iff, decide_eq_true_eq, Urn.denotes_iff, Function.comp_apply, Option.all_some,
    Bool.and_eq_true, decide_eq_true_eq]
  cases (Urn.Qualified.ofList target.toList).project <;> simp

/-- Looking an identifier up finds the rows that it denotes, each once. -/
theorem resolve_perm (tables : Tables) (target : String) :
    (tables.resolve target).Perm ((tables.rowsOf target).map (locationOf ·.row)) := by
  have located := (List.mergeSort_perm ((tables.rowsOf target).map (·.row)) fun a b =>
    Text.lePair (a.file.project, a.urn) (b.file.project, b.urn)).map locationOf
  rw [List.map_map] at located
  rw [resolve_eq]
  exact located

theorem mem_resolve {location : Location} :
    location ∈ tables.resolve target ↔
      ∃ row ∈ tables.rowsOf target, location = locationOf row.row := by
  rw [(resolve_perm tables target).mem_iff, List.mem_map]
  simp only [eq_comm]

/-- A target denotes one row of a project at most. -/
theorem Keyed.nodup_rowsOf (keyed : tables.Keyed) (target : String) :
    ((tables.rowsOf target).map (·.row.file.project)).Nodup := by
  let body := String.ofList (Urn.Qualified.ofList target.toList).body
  have claims : ((tables.rowsOf target).map fun row => claimOf row.row).Nodup :=
    keyed.claims.sublist (List.filter_sublist.map _)
  have same : (tables.rowsOf target).map (fun row => claimOf row.row) =
      ((tables.rowsOf target).map (·.row.file.project)).map (·, body) := by
    rw [List.map_map]
    refine List.map_congr_left fun row member => ?_
    rw [claimOf, (Urn.denotes_iff.mp (mem_rowsOf.mp member).2).1]
    rfl
  rw [same] at claims
  exact claims.of_map

/-- What a target is found at is in the order of the projects. -/
theorem pairwise_resolve (tables : Tables) (target : String) :
    ((tables.resolve target).map (·.file.project)).Pairwise (· ≤ ·) := by
  rw [resolve_eq, List.map_map, List.pairwise_map]
  exact (Text.pairwise_mergeSort_lePair (·.file.project) Mapping.urn _).imp of_decide_eq_true

/-- A target is found in each project once, and in the order of the projects. -/
theorem Keyed.pairwise_resolve (keyed : tables.Keyed) (target : String) :
    ((tables.resolve target).map (·.file.project)).Pairwise (· < ·) := by
  have distinct : ((tables.resolve target).map (·.file.project)).Nodup := by
    rw [((resolve_perm tables target).map _).nodup_iff, List.map_map]
    exact keyed.nodup_rowsOf target
  refine ((Tables.pairwise_resolve tables target).and distinct).imp fun {a b} both => ?_
  exact String.not_le.mp fun before => both.2 (String.le_antisymm both.1 before)

/-! ## 2. Pairing the ends of ranges -/

section Paired

variable {starts stops : List Location} {resolution : Resolution}

/-- Where the ends are of different projects, each start is paired with the end in its file. -/
theorem mem_paired_iff (distinct : (stops.map (·.file.project)).Nodup) :
    resolution ∈ paired starts stops ↔
      ∃ start ∈ starts, ∃ stop ∈ stops, stop.file = start.file ∧
        resolution = .range start stop := by
  unfold paired
  rw [List.mem_filterMap]
  constructor
  · rintro ⟨start, isStart, found⟩
    obtain ⟨stop, isStop, rfl⟩ := Option.map_eq_some_iff.mp found
    exact ⟨start, isStart, stop, List.mem_of_find?_eq_some isStop,
      by simpa using List.find?_some isStop, rfl⟩
  · rintro ⟨start, isStart, stop, isStop, sameFile, rfl⟩
    refine ⟨start, isStart, ?_⟩
    have isSome : (stops.find? (·.file = start.file)).isSome :=
      List.find?_isSome.mpr ⟨stop, isStop, decide_eq_true sameFile⟩
    obtain ⟨found, isFound⟩ := Option.isSome_iff_exists.mp isSome
    have foundFile : found.file = start.file := by simpa using List.find?_some isFound
    -- an end of the same project is the same end
    have same : found = stop := List.inj_on_of_nodup_map distinct
      (List.mem_of_find?_eq_some isFound) isStop (by rw [foundFile, sameFile])
    rw [isFound, same]
    rfl

/-- The ends of a range are paired exactly if they are found in one file. -/
theorem Keyed.mem_paired_resolve_iff (keyed : tables.Keyed) (start stop : String) :
    resolution ∈ paired (tables.resolve start) (tables.resolve stop) ↔
      ∃ first ∈ tables.rowsOf start, ∃ last ∈ tables.rowsOf stop,
        last.row.file = first.row.file ∧
          resolution = .range (locationOf first.row) (locationOf last.row) := by
  rw [mem_paired_iff ((keyed.pairwise_resolve stop).imp String.ne_of_lt)]
  constructor
  · rintro ⟨start, isStart, stop, isStop, sameFile, rfl⟩
    obtain ⟨first, isFirst, rfl⟩ := mem_resolve.mp isStart
    obtain ⟨last, isLast, rfl⟩ := mem_resolve.mp isStop
    exact ⟨first, isFirst, last, isLast, sameFile, rfl⟩
  · rintro ⟨first, isFirst, last, isLast, sameFile, rfl⟩
    exact ⟨_, mem_resolve.mpr ⟨first, isFirst, rfl⟩, _, mem_resolve.mpr ⟨last, isLast, rfl⟩,
      sameFile, rfl⟩

/-- Pairs are in the order of their starts. -/
theorem pairwise_paired (inOrder : (starts.map (·.file.project)).Pairwise (· < ·)) :
    ((paired starts stops).map (·.file.project)).Pairwise (· < ·) := by
  rw [List.pairwise_map] at inOrder ⊢
  refine List.Pairwise.filterMap _ (fun first second before a isA b isB => ?_) inOrder
  obtain ⟨-, -, rfl⟩ := Option.map_eq_some_iff.mp isA
  obtain ⟨-, -, rfl⟩ := Option.map_eq_some_iff.mp isB
  exact before

end Paired

/-! ## 3. What a target is resolved to -/

/-- *Resolving is sound and complete, for all tables that come about.* A target that is no range is
resolved to one place for each row that it denotes. A range is resolved to one pair for each project
that maps both of its ends to one file, the places of these two rows, and to nothing else. In both
cases the results are of different projects, in order, and both ends of a result are in one file. -/
theorem resolveRange_exact (reachable : tables.Reachable) (target : String) :
    (Urn.splitRange? target = none →
      (tables.resolveRange target).Perm
        ((tables.rowsOf target).map fun row => .single (locationOf row.row))) ∧
    (∀ range, Urn.splitRange? target = some range → ∀ resolution,
      resolution ∈ tables.resolveRange target ↔
        ∃ first ∈ tables.rowsOf range.start, ∃ last ∈ tables.rowsOf range.stop,
          last.row.file = first.row.file ∧
            resolution = .range (locationOf first.row) (locationOf last.row)) ∧
    ((tables.resolveRange target).map (·.file.project)).Pairwise (· < ·) ∧
    ∀ resolution ∈ tables.resolveRange target, resolution.stop.file = resolution.start.file := by
  have keyed := reachable.keyed
  -- A single target is resolved in each project, and a range by pairing the places of its two ends.
  cases split : Urn.splitRange? target with
  | none =>
    have resolved : tables.resolveRange target = (tables.resolve target).map .single := by
      rw [resolveRange, split]
    rw [resolved]
    refine ⟨fun _ => ?_, by simp, ?_, fun resolution member => ?_⟩
    · have placed := (resolve_perm tables target).map Resolution.single
      rwa [List.map_map] at placed
    · rw [List.map_map]
      exact keyed.pairwise_resolve target
    · obtain ⟨location, -, rfl⟩ := List.mem_map.mp member
      rfl
  | some range =>
    have resolved : tables.resolveRange target =
        paired (tables.resolve range.start) (tables.resolve range.stop) := by
      rw [resolveRange, split]
    rw [resolved]
    refine ⟨by simp, ?_, pairwise_paired (keyed.pairwise_resolve range.start),
      fun resolution member => ?_⟩
    · rintro _ ⟨⟩ resolution
      exact keyed.mem_paired_resolve_iff range.start range.stop
    · obtain ⟨first, -, last, -, sameFile, rfl⟩ := (keyed.mem_paired_resolve_iff ..).mp member
      exact sameFile

/-- Two copies of a text in two verses, one of which is spread over two files. -/
def copies : Tables :=
  (((Tables.empty.addMapping 1 ⟨"urn:t/1", ⟨"b", "x"⟩, none, none, none⟩).addMapping 2
    ⟨"urn:t/1", ⟨"a", "x"⟩, none, none, none⟩).addMapping 3
      ⟨"urn:t/2", ⟨"a", "y"⟩, none, none, none⟩).addMapping 4
        ⟨"urn:t/2", ⟨"b", "x"⟩, none, none, none⟩

/-- The first verse is found in both copies, and the range over both verses in the one that holds
them in one file. -/
theorem resolveRange_copies :
    copies.Reachable ∧
      (copies.resolveRange "urn:t/1").Perm
        [.single ⟨⟨"b", "x"⟩, "urn:t/1", none⟩, .single ⟨⟨"a", "x"⟩, "urn:t/1", none⟩] ∧
      ∀ resolution, resolution ∈ copies.resolveRange "urn:t/1-2" ↔
        resolution = .range ⟨⟨"b", "x"⟩, "urn:t/1", none⟩ ⟨⟨"b", "x"⟩, "urn:t/2", none⟩ := by
  have reachable : copies.Reachable :=
    .addMapping (.addMapping (.addMapping (.addMapping .empty _ _) _ _) _ _) _ _
  have plain : Urn.splitRange? "urn:t/1" = none := by decide +kernel
  have split : Urn.splitRange? "urn:t/1-2" = some ⟨"urn:t/1", "urn:t/2"⟩ := by decide +kernel
  have firsts : copies.rowsOf "urn:t/1" =
      [⟨⟨"urn:t/1", ⟨"b", "x"⟩, none, none, none⟩, 1⟩,
        ⟨⟨"urn:t/1", ⟨"a", "x"⟩, none, none, none⟩, 2⟩] := by decide +kernel
  have lasts : copies.rowsOf "urn:t/2" =
      [⟨⟨"urn:t/2", ⟨"a", "y"⟩, none, none, none⟩, 3⟩,
        ⟨⟨"urn:t/2", ⟨"b", "x"⟩, none, none, none⟩, 4⟩] := by decide +kernel
  obtain ⟨single, -, -, -⟩ := resolveRange_exact reachable "urn:t/1"
  obtain ⟨-, range, -, -⟩ := resolveRange_exact reachable "urn:t/1-2"
  refine ⟨reachable, ?_, fun resolution => ?_⟩
  · have found := single plain
    rw [firsts] at found
    exact found
  · rw [range _ split, firsts, lasts]
    simp [locationOf]

end Intertext.Index.Tables
