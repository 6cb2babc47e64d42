import Intertext.Proofs.Text.Order
import Intertext.Urn.Priority
/-!
What a ranking takes from its candidates.

A ranking sorts the candidates whose project is listed by where that is (`ranked_eq_mergeSort`) and
holds no others (`mem_ranked`). So candidates of other projects change nothing in it, however many
there are and wherever they stand (`ranked_congr`). It is the only list that has the projects in
turn and the candidates of each in the order they had (`eq_ranked_iff`): the listed projects come
one after the other (`ranked_eq_flatMap`). The best candidate is of the first listed project that
has any (`exists_of_best?`), and it stays the best where further projects are listed after all
others (`best?_append`). Only where a project is listed first matters (`ranks_by_first_listing`).
-/

namespace Intertext.Priority

/-! ## 1. Candidates that are ranked -/

variable {α : Type} [Owned α] {candidates others : List α} {priority : List String} {candidate : α}

theorem rank?_eq_none : rank? priority candidate = none ↔ Owned.project candidate ∉ priority := by
  unfold rank?
  exact List.idxOf?_eq_none_iff

theorem rank?_eq_some (listed : Owned.project candidate ∈ priority) :
    rank? priority candidate = some (priority.idxOf (Owned.project candidate)) :=
  List.findIdx?_eq_some_of_exists ⟨_, listed, beq_self_eq_true _⟩

/-- The candidates whose project is listed, each with the place where that is. -/
def placed (candidates : List α) (priority : List String) : List (Nat × α) :=
  candidates.filterMap fun candidate => (rank? priority candidate).map (·, candidate)

theorem placed_eq (candidates : List α) (priority : List String) :
    placed candidates priority = (candidates.filter (Owned.project · ∈ priority)).map
      fun candidate => (priority.idxOf (Owned.project candidate), candidate) := by
  rw [placed, ← List.filterMap_eq_map, List.filterMap_filter]
  congr 1
  funext candidate
  by_cases listed : Owned.project candidate ∈ priority
  · rw [rank?_eq_some listed, if_pos (decide_eq_true listed)]
    rfl
  · rw [rank?_eq_none.mpr listed, if_neg (by simpa using listed)]
    rfl

/-- Ranking is sorting the candidates of listed projects by where these are first listed. -/
theorem ranked_eq_mergeSort (candidates : List α) (priority : List String) :
    ranked candidates priority =
      (candidates.filter (Owned.project · ∈ priority)).mergeSort fun a b =>
        priority.idxOf (Owned.project a) ≤ priority.idxOf (Owned.project b) := by
  let place (candidate : α) := priority.idxOf (Owned.project candidate)
  let listed := candidates.filter (Owned.project · ∈ priority)
  have sorted : ranked candidates priority =
      ((placed candidates priority).mergeSort fun a b => a.1 ≤ b.1).map (·.2) := rfl
  -- that the places stand beside the candidates makes no difference to the sorting
  have beside : (listed.mergeSort fun a b => place a ≤ place b).map
        (fun candidate => (place candidate, candidate)) =
      (listed.map fun candidate => (place candidate, candidate)).mergeSort fun a b => a.1 ≤ b.1 :=
    List.map_mergeSort fun _ _ _ _ => rfl
  rw [sorted, placed_eq, ← beside, List.map_map]
  exact List.map_id _

/-- A ranking holds the candidates of the listed projects, each as often as it is given. -/
theorem ranked_perm (candidates : List α) (priority : List String) :
    (ranked candidates priority).Perm (candidates.filter (Owned.project · ∈ priority)) := by
  rw [ranked_eq_mergeSort]
  exact List.mergeSort_perm _ _

theorem mem_ranked :
    candidate ∈ ranked candidates priority ↔
      candidate ∈ candidates ∧ Owned.project candidate ∈ priority := by
  rw [(ranked_perm candidates priority).mem_iff, List.mem_filter, decide_eq_true_eq]

/-- A ranking is empty exactly if no candidate is of a listed project. -/
theorem ranked_eq_nil :
    ranked candidates priority = [] ↔
      ∀ candidate ∈ candidates, Owned.project candidate ∉ priority := by
  simp only [List.eq_nil_iff_forall_not_mem, mem_ranked, not_and]

theorem mem_of_best? (isBest : best? candidates priority = some candidate) :
    candidate ∈ candidates ∧ Owned.project candidate ∈ priority :=
  mem_ranked.mp (List.mem_of_mem_head? isBest)

/-! ## 2. Projects that are not listed -/

/-- The candidates of some projects. -/
def ofProjects (projects : List String) (candidates : List α) : List α :=
  candidates.filter (Owned.project · ∈ projects)

variable {projects : List String}

theorem ofProjects_cons_of_mem (seen : Owned.project candidate ∈ projects) (rest : List α) :
    ofProjects projects (candidate :: rest) = candidate :: ofProjects projects rest :=
  List.filter_cons_of_pos (decide_eq_true seen)

theorem ofProjects_cons_of_not_mem (unseen : Owned.project candidate ∉ projects) (rest : List α) :
    ofProjects projects (candidate :: rest) = ofProjects projects rest :=
  List.filter_cons_of_neg (by simpa using unseen)

/-- What keeps its project is seen as what it is made of. -/
theorem ofProjects_map_congr {β : Type} [Owned β] {change : α → β}
    (keeps : ∀ candidate, Owned.project (change candidate) = Owned.project candidate)
    (same : ofProjects projects candidates = ofProjects projects others) :
    ofProjects projects (candidates.map change) = ofProjects projects (others.map change) := by
  have inside (candidates : List α) : ofProjects projects (candidates.map change) =
      (ofProjects projects candidates).map change := by
    unfold ofProjects
    rw [List.filter_map]
    simp only [Function.comp_def, keeps]
  rw [inside, same, inside]

/-- Candidates may be picked before or after those of some projects are. -/
theorem ofProjects_filter_congr (p : α → Bool)
    (same : ofProjects projects candidates = ofProjects projects others) :
    ofProjects projects (candidates.filter p) = ofProjects projects (others.filter p) := by
  have inside (candidates : List α) : ofProjects projects (candidates.filter p) =
      (ofProjects projects candidates).filter p := by
    simp only [ofProjects, List.filter_filter, Bool.and_comm]
  rw [inside, same, inside]

/-- Only candidates of listed projects are looked at. -/
theorem ranked_ofProjects (covers : ∀ project ∈ priority, project ∈ projects)
    (candidates : List α) :
    ranked (ofProjects projects candidates) priority = ranked candidates priority := by
  unfold ranked ofProjects
  rw [List.filterMap_filter]
  congr 3
  funext candidate
  split
  · rfl
  · rename_i elsewhere
    have unlisted : Owned.project candidate ∉ priority := fun listed =>
      elsewhere (decide_eq_true (covers _ listed))
    rw [rank?_eq_none.mpr unlisted]
    rfl

/-- Candidates that are the same as far as listed projects go are ranked the same. -/
theorem ranked_congr (covers : ∀ project ∈ priority, project ∈ projects)
    (same : ofProjects projects candidates = ofProjects projects others) :
    ranked candidates priority = ranked others priority := by
  rw [← ranked_ofProjects covers candidates, same, ranked_ofProjects covers others]

theorem best?_congr (covers : ∀ project ∈ priority, project ∈ projects)
    (same : ofProjects projects candidates = ofProjects projects others) :
    best? candidates priority = best? others priority := by
  rw [best?, best?, ranked_congr covers same]

/-! ## 3. One project after the other -/

/-- Whether two projects are the same or the first of them is listed before the second. -/
def InTurn (priority : List String) (project other : String) : Prop :=
  priority.idxOf project < priority.idxOf other ∨ project = other

theorem inTurn_antisymm (project other : String) (turn : InTurn priority project other)
    (turn' : InTurn priority other project) : project = other := by
  rcases turn with before | same
  · rcases turn' with after | same
    · exact absurd after (Nat.lt_asymm before)
    · exact same.symm
  · exact same

/-- The projects of ranked candidates take their turns as they are first listed. -/
theorem pairwise_ranked (candidates : List α) (priority : List String) :
    (ranked candidates priority).Pairwise fun a b =>
      InTurn priority (Owned.project a) (Owned.project b) := by
  have sorted := Text.pairwise_mergeSort_key (fun candidate : α =>
    priority.idxOf (Owned.project candidate)) (candidates.filter (Owned.project · ∈ priority))
  rw [← ranked_eq_mergeSort] at sorted
  refine sorted.imp_of_mem fun isRanked _ notAfter => ?_
  exact (Nat.lt_or_eq_of_le notAfter).imp_right (List.idxOf_inj (mem_ranked.mp isRanked).2).mp

/-- The candidates of a listed project are ranked in the order they had. -/
theorem filter_ranked (candidates : List α) (priority : List String) (project : String) :
    (ranked candidates priority).filter (Owned.project · = project) =
      if project ∈ priority then candidates.filter (Owned.project · = project) else [] := by
  rw [ranked_eq_mergeSort, Text.filter_mergeSort_key, List.filter_filter]
  · split
    · rename_i listed
      refine List.filter_congr fun candidate _ => ?_
      by_cases own : Owned.project candidate = project <;> simp [own, listed]
    · rename_i unlisted
      refine List.filter_eq_nil_iff.mpr fun candidate _ => ?_
      by_cases own : Owned.project candidate = project <;> simp [own, unlisted]
  · intro a _ b _ ofA ofB
    rw [of_decide_eq_true ofA, of_decide_eq_true ofB]

/-- Only one list has its projects in turn and of each listed one the candidates that are given. -/
theorem eq_ranked_iff {result : List α} :
    result = ranked candidates priority ↔
      result.Pairwise (fun a b => InTurn priority (Owned.project a) (Owned.project b)) ∧
      ∀ project, result.filter (Owned.project · = project) =
        if project ∈ priority then candidates.filter (Owned.project · = project) else [] := by
  constructor
  · rintro rfl
    exact ⟨pairwise_ranked _ _, filter_ranked _ _⟩
  · rintro ⟨inTurn, same⟩
    refine @Text.eq_of_keys α String _ Owned.project (InTurn priority) (fun _ => Or.inr rfl)
      inTurn_antisymm _ _ inTurn (pairwise_ranked _ _) fun project => ?_
    exact (same project).trans (filter_ranked candidates priority project).symm

theorem filter_own (candidates : List α) (project other : String) :
    (candidates.filter (Owned.project · = project)).filter (Owned.project · = other) =
      if other = project then candidates.filter (Owned.project · = project) else [] := by
  rw [List.filter_filter]
  split
  · rename_i same
    simp only [same, Bool.and_self]
  · rename_i differs
    refine List.filter_eq_nil_iff.mpr fun candidate _ => ?_
    by_cases own : Owned.project candidate = other <;> simp [own, differs]

theorem filter_others (candidates : List α) (project other : String) :
    (candidates.filter (Owned.project · ≠ project)).filter (Owned.project · = other) =
      if other = project then [] else candidates.filter (Owned.project · = other) := by
  rw [List.filter_filter]
  split
  · rename_i same
    exact List.filter_eq_nil_iff.mpr fun candidate _ => by simp [same]
  · rename_i differs
    refine List.filter_congr fun candidate _ => ?_
    by_cases own : Owned.project candidate = other <;> simp [own, differs]

/-- The candidates of the project that is listed first come before all others. -/
theorem ranked_cons (candidates : List α) (project : String) (rest : List String) :
    ranked candidates (project :: rest) =
      candidates.filter (Owned.project · = project) ++
        ranked (candidates.filter (Owned.project · ≠ project)) rest := by
  have isOwn {candidate : α} (member : candidate ∈ candidates.filter (Owned.project · = project)) :
      Owned.project candidate = project := of_decide_eq_true (List.mem_filter.mp member).2
  have later {candidate : α}
      (member : candidate ∈ ranked (candidates.filter (Owned.project · ≠ project)) rest) :
      (project :: rest).idxOf (Owned.project candidate) =
        rest.idxOf (Owned.project candidate) + 1 := by
    have other : Owned.project candidate ≠ project :=
      of_decide_eq_true (List.mem_filter.mp (mem_ranked.mp member).1).2
    exact List.idxOf_cons_ne rest other.symm
  refine (eq_ranked_iff.mpr ⟨List.pairwise_append.mpr ⟨?_, ?_, ?_⟩, fun other => ?_⟩).symm
  · exact List.pairwise_of_forall_mem_list fun a isA b isB =>
      Or.inr ((isOwn isA).trans (isOwn isB).symm)
  · refine (pairwise_ranked _ rest).imp_of_mem fun isA isB inTurn => ?_
    rw [InTurn, later isA, later isB]
    exact inTurn.imp_left Nat.succ_lt_succ
  · intro a isA b isB
    refine Or.inl ?_
    rw [isOwn isA, later isB, List.idxOf_cons_self]
    exact Nat.succ_pos _
  · rw [List.filter_append, filter_ranked, filter_own, filter_others]
    by_cases same : other = project <;> simp [same]

/-- The candidates of all projects but one are those of each of the others. -/
theorem flatMap_others (candidates : List α) (project : String) : ∀ projects : List String,
    (projects.flatMap fun other =>
        (candidates.filter (Owned.project · ≠ project)).filter (Owned.project · = other)) =
      (projects.filter fun other => !other == project).flatMap fun other =>
        candidates.filter (Owned.project · = other)
  | [] => rfl
  | first :: rest => by
    rw [List.flatMap_cons, flatMap_others candidates project rest, filter_others]
    by_cases same : first = project
    · rw [if_pos same, List.nil_append, List.filter_cons_of_neg (by simp [same])]
    · rw [if_neg same, List.filter_cons_of_pos (by simpa using same), List.flatMap_cons]

/-- *Ranking puts one listed project after the other, and of each its candidates as they were.* -/
theorem ranked_eq_flatMap : ∀ (priority : List String) (candidates : List α),
    ranked candidates priority =
      priority.eraseDups.flatMap fun project => candidates.filter (Owned.project · = project)
  | [], candidates => by
    rw [List.eraseDups_nil, List.flatMap_nil, ranked_eq_nil]
    exact fun _ _ => List.not_mem_nil
  | project :: rest, candidates => by
    rw [ranked_cons, ranked_eq_flatMap rest, List.eraseDups_cons, List.flatMap_cons,
      ← Text.filter_eraseDups, flatMap_others]

/-! ## 4. The best candidate -/

/-- There is no best candidate if none is of a listed project. -/
theorem best?_eq_none :
    best? candidates priority = none ↔
      ∀ candidate ∈ candidates, Owned.project candidate ∉ priority := by
  rw [best?, List.head?_eq_none_iff, ranked_eq_nil]

/-- The best candidate is of a listed project, and no project that is listed before has any. -/
theorem exists_of_best? : ∀ {priority : List String} {candidates : List α} {best : α},
    best? candidates priority = some best →
      ∃ before after, priority = before ++ Owned.project best :: after ∧
        ∀ candidate ∈ candidates, Owned.project candidate ∉ before
  | [], candidates, best, isBest => absurd (mem_of_best? isBest).2 List.not_mem_nil
  | project :: rest, candidates, best, isBest => by
    rw [best?, ranked_cons] at isBest
    cases own : candidates.filter (Owned.project · = project) with
    | cons first others =>
      rw [own, List.cons_append, List.head?_cons] at isBest
      cases isBest
      have isOwn : best ∈ candidates.filter (Owned.project · = project) := by
        rw [own]
        exact List.mem_cons_self
      have same : Owned.project best = project := by simpa using (List.mem_filter.mp isOwn).2
      exact ⟨[], rest, by rw [same]; rfl, fun _ _ => List.not_mem_nil⟩
    | nil =>
      rw [own, List.nil_append] at isBest
      have isBestOfRest : best? (candidates.filter (Owned.project · ≠ project)) rest = some best :=
        isBest
      obtain ⟨before, after, listed, none⟩ := exists_of_best? isBestOfRest
      have other : ∀ candidate ∈ candidates, Owned.project candidate ≠ project := by
        simpa using List.filter_eq_nil_iff.mp own
      refine ⟨project :: before, after, by rw [listed]; rfl, fun candidate member listed => ?_⟩
      rcases List.mem_cons.mp listed with same | earlier
      · exact other candidate member same
      · exact none candidate (List.mem_filter.mpr ⟨member, by simpa using other candidate member⟩)
          earlier

/-! ## 5. Longer lists -/

/-- A longer list ranks what the shorter one ranks, in the same order, before all else. -/
theorem ranked_prefix_append (more : List String) : ∀ (priority : List String)
    (candidates : List α), ranked candidates priority <+: ranked candidates (priority ++ more)
  | [], candidates => by
    rw [ranked_eq_nil.mpr fun _ _ => List.not_mem_nil]
    exact List.nil_prefix
  | project :: rest, candidates => by
    rw [List.cons_append, ranked_cons, ranked_cons]
    exact (List.prefix_append_right_inj _).mpr (ranked_prefix_append more rest _)

/-- Where there is a best candidate, listing further projects after all others keeps it. -/
theorem best?_append (more : List String) {best : α}
    (isBest : best? candidates priority = some best) :
    best? candidates (priority ++ more) = some best := by
  obtain ⟨others, longer⟩ := ranked_prefix_append more priority candidates
  have first : (ranked candidates priority).head? = some best := isBest
  rw [best?, ← longer, List.head?_append, first, Option.some_or]

/-! ## 6. First listings -/

/-- Lists that name the same projects in the same order rank the same, however often they do. -/
theorem ranked_congr_of_eraseDups {first second : List String}
    (same : first.eraseDups = second.eraseDups) (candidates : List α) :
    ranked candidates first = ranked candidates second := by
  rw [ranked_eq_flatMap, ranked_eq_flatMap, same]

/-- *Candidates are ranked by where their project is first listed.* The listed projects come one
after the other, each once and in the order in which they are first listed, and of each there are
its candidates as they were given. So each candidate of a listed project is there as often as it was
given, and no other candidate is. A project that is listed again may as well be left out there, and
so may all repetitions at once. The best candidate is the first one. -/
theorem ranks_by_first_listing (candidates : List α) (priority : List String) :
    let projects := priority.eraseDups
    let oneByOne := projects.flatMap fun project => candidates.filter (Owned.project · = project)
    (∀ project, project ∈ projects ↔ project ∈ priority) ∧
    projects.Pairwise (priority.idxOf · < priority.idxOf ·) ∧
    ranked candidates priority = oneByOne ∧
    (ranked candidates priority).Perm (candidates.filter (Owned.project · ∈ priority)) ∧
    (∀ candidate, candidate ∈ ranked candidates priority ↔
      candidate ∈ candidates ∧ Owned.project candidate ∈ priority) ∧
    (∀ before project after, priority = before ++ project :: after → project ∈ before →
      ranked candidates (before ++ after) = ranked candidates priority) ∧
    ranked candidates projects = ranked candidates priority ∧
    best? candidates priority = oneByOne.head? := by
  intro projects oneByOne
  have inTurn : ranked candidates priority = oneByOne := ranked_eq_flatMap priority candidates
  refine ⟨fun project => List.mem_eraseDups, Text.pairwise_idxOf_eraseDups priority, inTurn,
    ranked_perm candidates priority, fun candidate => mem_ranked, ?_, ?_,
    congrArg List.head? inTurn⟩
  · rintro before project after rfl earlier
    exact ranked_congr_of_eraseDups
      (Text.eraseDups_append_cons_of_mem earlier after).symm candidates
  · exact ranked_congr_of_eraseDups (Text.eraseDups_eraseDups priority) candidates

end Intertext.Priority
