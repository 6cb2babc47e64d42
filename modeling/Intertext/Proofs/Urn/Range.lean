import Intertext.Index.Resolve
import Intertext.Proofs.Urn.Qualified
/-!
What the ends of a range are.

An identifier that denotes a range is its start, a dash and what takes the place of as many
components at the end of the start (`SpellsRange`). There is one way at most to spell a range, and
splitting finds it (`splitRange?_eq_some_iff`), for exactly the identifiers in which a component
after the first holds a dash; both ends are looked up in the project that qualifies the whole
(`ends_of_split`). The end keeps the scheme and the number of components of the start as long as
less than the start is replaced (`same_level_iff`). A replacement that is as long as the start takes
the place of the scheme as well, and a longer one makes the end longer than the start
(`scheme_replaced`).
-/

namespace Intertext.Urn

open Index (Tables)
open Index.Tables (locationOf)
open Text (pieces joined splitFirst?)

/-! ## 1. The last component with a dash -/

theorem lastDashed?_eq_none :
    ∀ {parts : List (List Char)}, lastDashed? parts = none ↔ ∀ part ∈ parts, '-' ∉ part
  | [] => by simp [lastDashed?]
  | first :: rest => by
    have ih : lastDashed? rest = none ↔ ∀ part ∈ rest, '-' ∉ part := lastDashed?_eq_none
    rw [List.forall_mem_cons, ← ih, lastDashed?]
    cases lastDashed? rest with
    | some cut => simp
    | none => by_cases dash : '-' ∈ first <;> simp [dash]

/-- Components are split at the one that holds a dash while none after it does. -/
theorem lastDashed?_eq_some :
    ∀ {parts before after : List (List Char)} {dashed : List Char},
      lastDashed? parts = some (before, dashed, after) ↔
        parts = before ++ dashed :: after ∧ '-' ∈ dashed ∧ ∀ part ∈ after, '-' ∉ part
  | [], before, after, dashed => by simp [lastDashed?]
  | first :: rest, before, after, dashed => by
    rw [lastDashed?]
    cases found : lastDashed? rest with
    | some cut =>
      obtain ⟨before', dashed', after'⟩ := cut
      obtain ⟨whole, dash, plain⟩ := lastDashed?_eq_some.mp found
      constructor
      · intro same
        cases same
        exact ⟨by rw [whole]; rfl, dash, plain⟩
      · rintro ⟨whole', dash', plain'⟩
        cases before with
        | nil =>
          obtain ⟨rfl, rfl⟩ := List.cons.inj whole'
          rw [lastDashed?_eq_none.mpr plain'] at found
          cases found
        | cons head before =>
          obtain ⟨rfl, below⟩ := List.cons.inj whole'
          rw [lastDashed?_eq_some.mpr ⟨below, dash', plain'⟩] at found
          cases found
          rfl
    | none =>
      have plain := lastDashed?_eq_none.mp found
      constructor
      · intro same
        by_cases dash : '-' ∈ first
        · rw [if_pos dash] at same
          cases same
          exact ⟨rfl, dash, plain⟩
        · rw [if_neg dash] at same
          cases same
      · rintro ⟨whole, dash, -⟩
        cases before with
        | nil =>
          obtain ⟨rfl, rfl⟩ := List.cons.inj whole
          exact if_pos dash
        | cons head before =>
          obtain ⟨-, rfl⟩ := List.cons.inj whole
          exact absurd dash (plain _ (List.mem_append_right _ List.mem_cons_self))

/-- The components of a range: there are some before the last one with a dash, and its first dash
stands between the end of the start and the replacement. -/
theorem splitComponents?_eq_some {parts start stop : List (List Char)} :
    splitComponents? parts = some (start, stop) ↔
      ∃ before last first after, before ≠ [] ∧ parts = before ++ (last ++ '-' :: first) :: after ∧
        '-' ∉ last ∧ (∀ part ∈ after, '-' ∉ part) ∧ start = before ++ [last] ∧
        stop = start.take (start.length - (first :: after).length) ++ first :: after := by
  cases parts with
  | nil => simp [splitComponents?]
  | cons scheme path =>
    simp only [splitComponents?, Option.bind_eq_bind, Option.bind_eq_some_iff, Prod.exists,
      Option.pure_def, Option.some.injEq, Prod.mk.injEq]
    constructor
    · rintro ⟨before, dashed, after, cut, last, first, cut', rfl, rfl⟩
      obtain ⟨rfl, -, plain⟩ := lastDashed?_eq_some.mp cut
      obtain ⟨rfl, fresh⟩ := Text.splitFirst?_eq_some.mp cut'
      exact ⟨scheme :: before, last, first, after, by simp, rfl, fresh, plain, rfl, rfl⟩
    · rintro ⟨before, last, first, after, notEmpty, whole, fresh, plain, rfl, rfl⟩
      cases before with
      | nil => exact absurd rfl notEmpty
      | cons head before =>
        obtain ⟨rfl, rfl⟩ := List.cons.inj whole
        exact ⟨before, _, after, lastDashed?_eq_some.mpr ⟨rfl, by simp, plain⟩, last, first,
          Text.splitFirst?_eq_some.mpr ⟨rfl, fresh⟩, rfl, rfl⟩

theorem splitComponents?_eq_none {parts : List (List Char)} :
    splitComponents? parts = none ↔ ∀ part ∈ parts.tail, '-' ∉ part := by
  cases parts with
  | nil => simp [splitComponents?]
  | cons scheme path =>
    rw [List.tail_cons, ← lastDashed?_eq_none]
    constructor
    · intro nothing
      cases cut : lastDashed? path with
      | none => rfl
      | some parts =>
        obtain ⟨before, dashed, after⟩ := parts
        obtain ⟨-, dash, -⟩ := lastDashed?_eq_some.mp cut
        obtain ⟨⟨last, first⟩, cut'⟩ := Option.ne_none_iff_exists'.mp
          (mt Text.splitFirst?_eq_none.mp (not_not_intro dash))
        simp [splitComponents?, cut, cut'] at nothing
    · intro plain
      simp [splitComponents?, plain]

/-! ## 2. How ranges are spelled -/

/-- How the body of an identifier spells a range: it is the start, a dash and the replacement. The
dash stands in a component after the first; it is the first dash of its component, and no component
after that holds one. Both ends have the qualifier of the whole. The components of the replacement
take the place of as many components at the end of the start, or of all if there are not so
many. -/
structure SpellsRange (whole : Qualified) (range : Range) (start replacement stop : List Char) :
    Prop where
  start_writes : Qualified.Writes ⟨start, whole.project⟩ range.start
  stop_writes : Qualified.Writes ⟨stop, whole.project⟩ range.stop
  body_eq : whole.body = start ++ '-' :: replacement
  in_path : 2 ≤ (pieces '/' start).length
  first_dash : ∀ last, (pieces '/' start).getLast? = some last → '-' ∉ last
  last_dashed : ∀ part ∈ (pieces '/' replacement).tail, '-' ∉ part
  stop_pieces : pieces '/' stop =
    (pieces '/' start).take ((pieces '/' start).length - (pieces '/' replacement).length) ++
      pieces '/' replacement

variable {urn : String} {whole : Qualified} {range : Range}
  {body start replacement stop : List Char}

/-- The components of the whole, of which one lies on both sides of the dash. -/
theorem pieces_dashed {before after : List (List Char)} {last first : List Char}
    (start_eq : pieces '/' start = before ++ [last])
    (replacement_eq : pieces '/' replacement = first :: after) :
    pieces '/' (start ++ '-' :: replacement) = before ++ (last ++ '-' :: first) :: after := by
  have starts : pieces '/' ('-' :: replacement) = ('-' :: first) :: after := by
    rw [pieces, if_neg (by decide), replacement_eq]
  exact Text.pieces_append starts start_eq

/-- The components on either side of a dash can be joined to texts of their own. -/
theorem exists_sides {before after : List (List Char)} {last first : List Char}
    (cut : pieces '/' body = before ++ (last ++ '-' :: first) :: after) :
    ∃ start replacement, pieces '/' start = before ++ [last] ∧
      pieces '/' replacement = first :: after ∧ body = start ++ '-' :: replacement := by
  have slashless {part : List Char} (isPart : part ∈ before ++ (last ++ '-' :: first) :: after) :
      '/' ∉ part :=
    Text.not_mem_of_mem_pieces (cut ▸ isPart)
  have inside : '/' ∉ last ++ '-' :: first :=
    slashless (List.mem_append_right _ List.mem_cons_self)
  have start_eq : pieces '/' (joined '/' (before ++ [last])) = before ++ [last] := by
    refine Text.pieces_joined (by simp) fun part isPart => ?_
    rcases List.mem_append.mp isPart with isPart | isPart
    · exact slashless (List.mem_append_left _ isPart)
    · rw [List.mem_singleton.mp isPart]
      exact fun slash => inside (List.mem_append_left _ slash)
  have replacement_eq : pieces '/' (joined '/' (first :: after)) = first :: after := by
    refine Text.pieces_joined (by simp) fun part isPart => ?_
    rcases List.mem_cons.mp isPart with rfl | isPart
    · exact fun slash => inside (List.mem_append_right _ (List.mem_cons_of_mem _ slash))
    · exact slashless (List.mem_append_right _ (List.mem_cons_of_mem _ isPart))
  exact ⟨_, _, start_eq, replacement_eq,
    Text.eq_of_pieces_eq (cut.trans (pieces_dashed start_eq replacement_eq).symm)⟩

/-- What the end of a range holds was in the identifier. -/
theorem mem_of_mem_stop {c : Char} {count : Nat} (body_eq : body = start ++ '-' :: replacement)
    (stop_pieces : pieces '/' stop = (pieces '/' start).take count ++ pieces '/' replacement)
    (notSlash : c ≠ '/') (member : c ∈ stop) : c ∈ body := by
  obtain ⟨piece, isPiece, inside⟩ := (Text.mem_iff_exists_piece notSlash).mp member
  rw [stop_pieces] at isPiece
  rw [body_eq]
  rcases List.mem_append.mp isPiece with isPiece | isPiece
  · exact List.mem_append_left _
      ((Text.mem_iff_exists_piece notSlash).mpr ⟨piece, List.mem_of_mem_take isPiece, inside⟩)
  · exact List.mem_append_right _ (List.mem_cons_of_mem _
      ((Text.mem_iff_exists_piece notSlash).mpr ⟨piece, isPiece, inside⟩))

/-- Components that are split spell a range when they are joined. -/
theorem exists_spells (written : whole.Writes urn) {startParts stopParts : List (List Char)}
    (split : splitComponents? (pieces '/' whole.body) = some (startParts, stopParts)) :
    ∃ start replacement stop, startParts = pieces '/' start ∧ stopParts = pieces '/' stop ∧
      SpellsRange whole ⟨String.ofList (Qualified.toList ⟨start, whole.project⟩),
        String.ofList (Qualified.toList ⟨stop, whole.project⟩)⟩ start replacement stop := by
  obtain ⟨before, last, first, after, notEmpty, cut, fresh, plain, startParts_eq, stopParts_eq⟩ :=
    splitComponents?_eq_some.mp split
  obtain ⟨start, replacement, start_eq, replacement_eq, body_eq⟩ := exists_sides cut
  rw [← start_eq] at startParts_eq
  rw [← replacement_eq, startParts_eq] at stopParts_eq
  have stop_pieces : pieces '/' (joined '/' stopParts) = stopParts := by
    rw [stopParts_eq]
    refine Text.pieces_joined (List.append_ne_nil_of_right_ne_nil _
      (Text.pieces_ne_nil '/' replacement)) fun part isPart => ?_
    rcases List.mem_append.mp isPart with isPart | isPart
    · exact Text.not_mem_of_mem_pieces (List.mem_of_mem_take isPart)
    · exact Text.not_mem_of_mem_pieces isPart
  refine ⟨start, replacement, joined '/' stopParts, startParts_eq, stop_pieces.symm,
    written.part fun member => body_eq ▸ List.mem_append_left _ member,
    written.part (mem_of_mem_stop body_eq (stop_pieces.trans stopParts_eq) (by decide)),
    body_eq, ?_, ?_, ?_, stop_pieces.trans stopParts_eq⟩
  · have := List.length_pos_iff.mpr notEmpty
    rw [start_eq, List.length_append, List.length_singleton]
    omega
  · rw [start_eq, List.getLast?_concat]
    rintro _ ⟨⟩
    exact fresh
  · rw [replacement_eq]
    exact plain

/-- A range that the components spell is what splitting them gives. -/
theorem SpellsRange.split (spells : SpellsRange whole range start replacement stop) :
    splitComponents? (pieces '/' whole.body) = some (pieces '/' start, pieces '/' stop) := by
  obtain ⟨before, last, start_eq⟩ := Text.exists_pieces_eq_concat '/' start
  obtain ⟨first, after, replacement_eq⟩ :=
    List.exists_cons_of_ne_nil (Text.pieces_ne_nil '/' replacement)
  have long := spells.in_path
  have plain := spells.last_dashed
  rw [replacement_eq] at plain
  refine splitComponents?_eq_some.mpr
    ⟨before, last, first, after, ?_, ?_, ?_, plain, start_eq, ?_⟩
  · rintro rfl
    simp [start_eq] at long
  · rw [spells.body_eq, pieces_dashed start_eq replacement_eq]
  · exact spells.first_dash last (by rw [start_eq, List.getLast?_concat])
  · rw [spells.stop_pieces, replacement_eq]

/-- Splitting an identifier finds the range that it spells. -/
theorem splitRange?_eq_some_iff (written : whole.Writes urn) :
    splitRange? urn = some range ↔
      ∃ start replacement stop, SpellsRange whole range start replacement stop := by
  simp only [splitRange?, Qualified.ofList_eq_iff.mpr written, Option.map_eq_some_iff, Prod.exists]
  constructor
  · rintro ⟨startParts, stopParts, split, rfl⟩
    obtain ⟨start, replacement, stop, rfl, rfl, spells⟩ := exists_spells written split
    rw [Text.joined_pieces, Text.joined_pieces]
    exact ⟨start, replacement, stop, spells⟩
  · rintro ⟨start, replacement, stop, spells⟩
    refine ⟨_, _, spells.split, ?_⟩
    rw [Text.joined_pieces, Text.joined_pieces, ← spells.start_writes.1, ← spells.stop_writes.1,
      String.ofList_toList, String.ofList_toList]

/-- An identifier denotes no range if no component after the first holds a dash. -/
theorem splitRange?_eq_none_iff (written : whole.Writes urn) :
    splitRange? urn = none ↔ ∀ part ∈ (pieces '/' whole.body).tail, '-' ∉ part := by
  rw [splitRange?, Qualified.ofList_eq_iff.mpr written, Option.map_eq_none_iff,
    splitComponents?_eq_none]

/-- An identifier is looked up by its body, in the project that qualifies it. -/
theorem resolve_of_writes (tables : Tables) (written : whole.Writes urn) :
    tables.resolve urn = (tables.mappingsOf (some (String.ofList whole.body))
      (whole.project.map String.ofList)).map locationOf := by
  rw [Tables.resolve, Qualified.ofList_eq_iff.mpr written]

/-- *Splitting loses nothing and finds the right dash, in all identifiers.* An identifier denotes a
range exactly if a component of its body after the first holds a dash. The range is the one that the
body spells, and its ends are looked up without the qualifier, in the project that this names or in
all projects. -/
theorem ends_of_split (urn : String) :
    ∃ whole : Qualified, whole.Writes urn ∧
      ((splitRange? urn).isSome ↔ ∃ part ∈ (pieces '/' whole.body).tail, '-' ∈ part) ∧
      (∀ range, splitRange? urn = some range ↔
        ∃ start replacement stop, SpellsRange whole range start replacement stop) ∧
      ∀ range start replacement stop, SpellsRange whole range start replacement stop →
        ∀ tables : Tables,
          tables.resolve range.start = (tables.mappingsOf (some (String.ofList start))
            (whole.project.map String.ofList)).map locationOf ∧
          tables.resolve range.stop = (tables.mappingsOf (some (String.ofList stop))
            (whole.project.map String.ofList)).map locationOf := by
  have written := Qualified.writes_ofList urn
  refine ⟨_, written, ?_, fun range => splitRange?_eq_some_iff written, ?_⟩
  · rw [Option.isSome_iff_ne_none, ne_eq, splitRange?_eq_none_iff written]
    simp
  · intro range start replacement stop spells tables
    exact ⟨resolve_of_writes tables spells.start_writes,
      resolve_of_writes tables spells.stop_writes⟩

example : splitRange? "bible/genesis/1-1/1-2/3@wlc" =
    some ⟨"bible/genesis/1-1/1@wlc", "bible/genesis/2/3@wlc"⟩ := by decide +kernel

/-! ## 3. Whether the ends are on one level -/

/-- Whether two identifiers have the same first component, which holds the scheme, and as many
components. -/
def SameLevel (urn other : List Char) : Prop :=
  (pieces '/' urn).head? = (pieces '/' other).head? ∧
    (pieces '/' urn).length = (pieces '/' other).length

instance (urn other : List Char) : Decidable (SameLevel urn other) :=
  inferInstanceAs (Decidable (_ ∧ _))

/-- A qualifier leaves the first component of a longer body as it is, and adds components
after it. -/
theorem pieces_toList (whole : Qualified) (long : 2 ≤ (pieces '/' whole.body).length) :
    (pieces '/' whole.toList).head? = (pieces '/' whole.body).head? ∧
      (pieces '/' whole.toList).length = (pieces '/' whole.body).length +
        (whole.project.elim 0 fun project => (pieces '/' project).length - 1) := by
  obtain ⟨body, project⟩ := whole
  cases project with
  | none => exact ⟨rfl, rfl⟩
  | some project =>
    obtain ⟨before, last, body_eq⟩ := Text.exists_pieces_eq_concat '/' body
    obtain ⟨first, after, project_eq⟩ :=
      List.exists_cons_of_ne_nil (Text.pieces_ne_nil '/' project)
    have starts : pieces '/' ('@' :: project) = ('@' :: first) :: after := by
      rw [pieces, if_neg (by decide), project_eq]
    have whole_eq : pieces '/' (Qualified.toList ⟨body, some project⟩) =
        before ++ (last ++ '@' :: first) :: after :=
      Text.pieces_append starts body_eq
    rw [whole_eq, body_eq, Option.elim_some, project_eq]
    cases before with
    | nil => simp [body_eq] at long
    | cons scheme before => simp; omega

/-- Whether two identifiers are on one level does not depend on the qualifier they share. -/
theorem sameLevel_toList {other : List Char} (project : Option (List Char))
    (long : 2 ≤ (pieces '/' body).length) (long' : 2 ≤ (pieces '/' other).length) :
    SameLevel (Qualified.toList ⟨body, project⟩) (Qualified.toList ⟨other, project⟩) ↔
      SameLevel body other := by
  obtain ⟨head, length⟩ := pieces_toList ⟨body, project⟩ long
  obtain ⟨head', length'⟩ := pieces_toList ⟨other, project⟩ long'
  rw [SameLevel, SameLevel, head, head', length, length', Nat.add_right_cancel_iff]

theorem SpellsRange.length_stop (spells : SpellsRange whole range start replacement stop) :
    (pieces '/' stop).length = max (pieces '/' start).length (pieces '/' replacement).length := by
  rw [spells.stop_pieces, List.length_append, List.length_take]
  omega

/-- *When an end replaces more than components of the path, for all identifiers of ranges.* The ends
of a range are on one level exactly if less than the start is replaced, or all of it by an
identifier of the same level. A replacement that is not shorter than the start is the end of the
range by itself. -/
theorem same_level_iff (split : splitRange? urn = some range) :
    ∃ whole start replacement stop, whole.Writes urn ∧
      SpellsRange whole range start replacement stop ∧
      (SameLevel range.start.toList range.stop.toList ↔
        (pieces '/' replacement).length < (pieces '/' start).length ∨
          SameLevel start replacement) ∧
      ((pieces '/' start).length ≤ (pieces '/' replacement).length → stop = replacement) := by
  have written := Qualified.writes_ofList urn
  obtain ⟨start, replacement, stop, spells⟩ := (splitRange?_eq_some_iff written).mp split
  have long := spells.in_path
  have length := spells.length_stop
  have all (enough : (pieces '/' start).length ≤ (pieces '/' replacement).length) :
      stop = replacement := by
    have same : pieces '/' stop = pieces '/' replacement := by
      rw [spells.stop_pieces, Nat.sub_eq_zero_of_le enough, List.take_zero, List.nil_append]
    exact Text.eq_of_pieces_eq same
  refine ⟨_, start, replacement, stop, written, spells, ?_, all⟩
  rw [spells.start_writes.1, spells.stop_writes.1, sameLevel_toList _ long (by omega)]
  rcases Nat.lt_or_ge (pieces '/' replacement).length (pieces '/' start).length with less | enough
  · refine iff_of_true ⟨?_, by omega⟩ (Or.inl less)
    obtain ⟨scheme, path, start_eq⟩ := List.exists_cons_of_ne_nil (Text.pieces_ne_nil '/' start)
    obtain ⟨kept, isKept⟩ := Nat.exists_eq_add_of_lt less
    rw [spells.stop_pieces, show (pieces '/' start).length - (pieces '/' replacement).length =
      kept + 1 by omega, start_eq]
    rfl
  · rw [all enough, or_iff_right (Nat.not_lt.mpr enough)]

/-- Two components that replace the end of a start with two components leave nothing of it, and
three make an end of three components: neither end is an identifier of the corpus. -/
theorem scheme_replaced :
    splitRange? "urn:x-opensiddur:text:bible:genesis/1-2/3" =
        some ⟨"urn:x-opensiddur:text:bible:genesis/1", "2/3"⟩ ∧
      ¬ SameLevel "urn:x-opensiddur:text:bible:genesis/1".toList "2/3".toList ∧
      splitRange? "urn:x-opensiddur:text:bible:genesis/1-2/3/4" =
        some ⟨"urn:x-opensiddur:text:bible:genesis/1", "2/3/4"⟩ ∧
      (pieces '/' "urn:x-opensiddur:text:bible:genesis/1".toList).length = 2 ∧
      (pieces '/' "2/3/4".toList).length = 3 := by
  decide +kernel

/-- The verses of two chapters in one project are on one level: two components of three are
replaced. -/
theorem same_level_chapters :
    splitRange? "urn:x-opensiddur:text:bible:genesis/1/1-2/3@wlc" =
        some ⟨"urn:x-opensiddur:text:bible:genesis/1/1@wlc",
          "urn:x-opensiddur:text:bible:genesis/2/3@wlc"⟩ ∧
      SameLevel "urn:x-opensiddur:text:bible:genesis/1/1@wlc".toList
        "urn:x-opensiddur:text:bible:genesis/2/3@wlc".toList := by
  have split : splitRange? "urn:x-opensiddur:text:bible:genesis/1/1-2/3@wlc" =
      some ⟨"urn:x-opensiddur:text:bible:genesis/1/1@wlc",
        "urn:x-opensiddur:text:bible:genesis/2/3@wlc"⟩ := by decide +kernel
  obtain ⟨whole, start, replacement, stop, written, spells, level, -⟩ := same_level_iff split
  have apart : whole = ⟨"urn:x-opensiddur:text:bible:genesis/1/1-2/3".toList, "wlc".toList⟩ :=
    (Qualified.ofList_eq_iff.mpr written).symm.trans (by decide +kernel)
  subst apart
  have first : (⟨start, "wlc".toList⟩ : Qualified) =
      ⟨"urn:x-opensiddur:text:bible:genesis/1/1".toList, "wlc".toList⟩ :=
    (Qualified.ofList_eq_iff.mpr spells.start_writes).symm.trans (by decide +kernel)
  obtain rfl : start = "urn:x-opensiddur:text:bible:genesis/1/1".toList :=
    congrArg Qualified.body first
  obtain rfl : replacement = "2/3".toList :=
    (List.cons.inj (List.append_cancel_left (spells.body_eq.symm.trans
      (show _ = "urn:x-opensiddur:text:bible:genesis/1/1".toList ++ '-' :: "2/3".toList by
        decide +kernel)))).2
  exact ⟨split, level.mpr (Or.inl (by decide +kernel))⟩

end Intertext.Urn
