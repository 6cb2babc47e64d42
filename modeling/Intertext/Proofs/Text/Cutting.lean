import Mathlib.Data.List.Basic
import Mathlib.Data.List.TakeWhile
import Intertext.Text.Cutting
import Intertext.Text.WhiteSpace
/-!
What texts are cut into.

Cutting a text into pieces loses nothing: joining the pieces gives the text again
(`joined_pieces`), and pieces without the separator are found again after they were joined
(`pieces_joined`). The first and the last occurrence of a character are where the text before or
the text after it lacks that character (`splitFirst?_eq_some`, `splitLast?_eq_some`). Words are what
white space separates, without what is empty between two white spaces (`words_eq_splitOnP`).
-/

namespace Intertext.Text

/-! ## 1. Pieces

Cutting gives at least one piece, and it gives one more for each separator. So pieces and texts
without the separator in a piece determine one another. -/

theorem pieces_ne_nil (separator : Char) (text : List Char) : pieces separator text ≠ [] := by
  cases text with
  | nil => simp [pieces]
  | cons c rest =>
    unfold pieces
    split
    · simp
    · split <;> simp

/-- There is a last piece, which is what a path is asked for. -/
theorem exists_pieces_eq_concat (separator : Char) (text : List Char) :
    ∃ before last, pieces separator text = before ++ [last] :=
  ⟨_, _, (List.dropLast_append_getLast (pieces_ne_nil separator text)).symm⟩

/-- Pieces are cut where the separator stands. -/
theorem pieces_append_cons (separator : Char) (rest : List Char) :
    ∀ text : List Char,
      pieces separator (text ++ separator :: rest) = pieces separator text ++ pieces separator rest
  | [] => by simp [pieces]
  | c :: text => by
    have ih := pieces_append_cons separator rest text
    rw [List.cons_append, pieces, pieces, ih]
    by_cases isMark : c = separator
    · simp [isMark]
    · cases h : pieces separator text with
      | nil => exact absurd h (pieces_ne_nil separator text)
      | cons first others => simp [isMark]

/-- A text without the separator is one piece. -/
theorem pieces_of_not_mem {separator : Char} :
    ∀ {text : List Char}, separator ∉ text → pieces separator text = [text]
  | [], _ => rfl
  | c :: text, h => by
    rw [List.mem_cons, not_or] at h
    simp [pieces, pieces_of_not_mem h.2, Ne.symm h.1]

/-- No piece has the separator in it. -/
theorem not_mem_of_mem_pieces {separator : Char} :
    ∀ {text piece : List Char}, piece ∈ pieces separator text → separator ∉ piece
  | [], piece, h => by
    simp only [pieces, List.mem_singleton] at h
    simp [h]
  | c :: text, piece, h => by
    have inside : ∀ piece ∈ pieces separator text, separator ∉ piece :=
      fun _ => not_mem_of_mem_pieces
    unfold pieces at h
    split at h
    · rcases List.mem_cons.mp h with rfl | h
      · simp
      · exact inside piece h
    · rename_i notMark
      split at h
      · simp only [List.mem_singleton] at h
        simp [h, Ne.symm notMark]
      · rename_i first others found
        rw [found] at inside
        rcases List.mem_cons.mp h with rfl | h
        · simpa [Ne.symm notMark] using inside first List.mem_cons_self
        · exact inside piece (List.mem_cons_of_mem _ h)

/-- Cutting is the library's `List.splitOn`, whose lemmas are used from here on. -/
theorem pieces_eq_splitOn (separator : Char) :
    ∀ text : List Char, pieces separator text = text.splitOn separator
  | [] => rfl
  | c :: rest => by
    have ih := pieces_eq_splitOn separator rest
    unfold pieces
    rw [List.splitOn, List.splitOnP_cons_eq_if_modifyHead, ← List.splitOn, ← ih]
    by_cases isMark : c = separator
    · simp [isMark]
    · cases found : pieces separator rest with
      | nil => exact absurd found (pieces_ne_nil separator rest)
      | cons first others => simp [isMark]

/-- Joining is the library's `List.intercalate`. -/
theorem joined_eq_intercalate (separator : Char) :
    ∀ list : List (List Char), joined separator list = [separator].intercalate list
  | [] => rfl
  | [last] => by simp [joined, List.intercalate]
  | first :: second :: rest => by
    rw [joined, joined_eq_intercalate separator (second :: rest), List.intercalate_cons_cons,
      List.append_assoc, List.singleton_append]
    exact List.cons_ne_nil _ _

/-- Joining undoes cutting. -/
theorem joined_pieces (separator : Char) (text : List Char) :
    joined separator (pieces separator text) = text := by
  rw [pieces_eq_splitOn, joined_eq_intercalate, List.intercalate_splitOn]

/-- Cutting undoes joining. -/
theorem pieces_joined {separator : Char} {list : List (List Char)} (notEmpty : list ≠ [])
    (fresh : ∀ piece ∈ list, separator ∉ piece) :
    pieces separator (joined separator list) = list := by
  rw [pieces_eq_splitOn, joined_eq_intercalate, List.splitOn_intercalate separator fresh notEmpty]

/-- Texts with the same pieces are the same. -/
theorem eq_of_pieces_eq {separator : Char} {text other : List Char}
    (same : pieces separator text = pieces separator other) : text = other := by
  rw [← joined_pieces separator text, same, joined_pieces]

/-- Every character but the separator is in some piece. -/
theorem mem_iff_exists_piece {separator c : Char} (other : c ≠ separator) :
    ∀ {text : List Char}, c ∈ text ↔ ∃ piece ∈ pieces separator text, c ∈ piece
  | [] => by simp [pieces]
  | first :: rest => by
    have ih : c ∈ rest ↔ ∃ piece ∈ pieces separator rest, c ∈ piece := mem_iff_exists_piece other
    unfold pieces
    split
    · rename_i isMark
      simp [ih, isMark, other]
    · split
      · rename_i none
        exact absurd none (pieces_ne_nil separator rest)
      · rename_i head others found
        rw [found] at ih
        simp [ih, or_assoc]

/-- Where two texts meet, the last piece of the first one goes on with the first piece of the
second one. -/
theorem pieces_append {separator : Char} {next : List Char} {last first : List Char}
    {after : List (List Char)} (starts : pieces separator next = first :: after) :
    ∀ {text : List Char} {before : List (List Char)}, pieces separator text = before ++ [last] →
      pieces separator (text ++ next) = before ++ (last ++ first) :: after
  | [], before, ends => by
    obtain ⟨rfl, rfl⟩ : before = [] ∧ last = [] := by
      cases before <;> simp_all [pieces]
    simpa using starts
  | c :: rest, before, ends => by
    unfold pieces at ends
    rw [List.cons_append, pieces]
    split at ends
    · rename_i isMark
      cases before with
      | nil => simp [pieces_ne_nil] at ends
      | cons head before =>
        obtain ⟨rfl, below⟩ := List.cons.inj ends
        rw [if_pos isMark, pieces_append starts below]
        rfl
    · rename_i notMark
      rw [if_neg notMark]
      split at ends
      · rename_i none
        exact absurd none (pieces_ne_nil separator rest)
      · rename_i head others found
        cases before with
        | nil =>
          obtain ⟨rfl, rfl⟩ := List.cons.inj ends
          rw [pieces_append starts (found.trans (List.nil_append _).symm)]
          rfl
        | cons head' before =>
          obtain ⟨rfl, rfl⟩ := List.cons.inj ends
          rw [pieces_append starts (found.trans (List.cons_append ..).symm)]
          rfl

/-! ## 2. The first and the last occurrence of a character

Splitting at the last occurrence is splitting the reversed text at the first. Either way the parts
are determined by where the character is lacking. -/

variable {mark : Char} {text before after : List Char}

/-- The part before the first occurrence is the one without the character. -/
theorem splitFirst?_eq_some :
    splitFirst? mark text = some (before, after) ↔
      text = before ++ mark :: after ∧ mark ∉ before := by
  constructor
  · intro h
    unfold splitFirst? at h
    split at h
    · cases h
    · rename_i first rest found
      cases h
      have stops := List.head?_dropWhile_not (· != mark) text
      rw [found] at stops
      obtain rfl : first = mark := by simpa using stops
      refine ⟨?_, fun member => ?_⟩
      · rw [← found, List.takeWhile_append_dropWhile]
      · simpa using List.mem_takeWhile_imp member
  · rintro ⟨rfl, fresh⟩
    have passes : ∀ c ∈ before, (c != mark) = true := by
      intro c member
      simpa using fun same : c = mark => fresh (same ▸ member)
    rw [splitFirst?, List.dropWhile_append_of_pos passes, List.takeWhile_append_of_pos passes]
    simp

/-- A text is not split exactly if it lacks the character. -/
theorem splitFirst?_eq_none : splitFirst? mark text = none ↔ mark ∉ text := by
  constructor
  · intro nothing member
    obtain ⟨before, after, whole, fresh⟩ := List.eq_append_cons_of_mem member
    rw [splitFirst?_eq_some.mpr ⟨whole, fresh⟩] at nothing
    cases nothing
  · intro fresh
    cases found : splitFirst? mark text with
    | none => rfl
    | some parts =>
      refine absurd ?_ fresh
      rw [(splitFirst?_eq_some.mp found).1]
      exact List.mem_append_right _ List.mem_cons_self

/-- The part after the last occurrence is the one without the character. -/
theorem splitLast?_eq_some :
    splitLast? mark text = some (before, after) ↔
      text = before ++ mark :: after ∧ mark ∉ after := by
  rw [splitLast?, Option.map_eq_some_iff]
  constructor
  · rintro ⟨⟨last, first⟩, found, same⟩
    cases same
    obtain ⟨whole, fresh⟩ := splitFirst?_eq_some.mp found
    refine ⟨?_, by simpa using fresh⟩
    rw [← List.reverse_inj, whole]
    simp
  · rintro ⟨rfl, fresh⟩
    refine ⟨(after.reverse, before.reverse), splitFirst?_eq_some.mpr ⟨by simp, ?_⟩, by simp⟩
    simpa using fresh

theorem splitLast?_eq_none : splitLast? mark text = none ↔ mark ∉ text := by
  rw [splitLast?, Option.map_eq_none_iff, splitFirst?_eq_none, List.mem_reverse]

/-! ## 3. Words -/

theorem modifyHead_nil_append (list : List (List Char)) :
    list.modifyHead (([] : List Char).reverse ++ ·) = list := by
  cases list <;> rfl

/-- What is left to read makes the words that it would make with the word being read before it. -/
theorem wordsFrom_eq_splitOnP : ∀ word input : List Char,
    wordsFrom word input =
      (((input.splitOnP isWhiteSpace).modifyHead (word.reverse ++ ·)).filter
        (!·.isEmpty)).map String.ofList
  | word, [] => by cases word <;> simp [wordsFrom]
  | word, c :: rest => by
    rw [wordsFrom, List.splitOnP_cons_eq_if_modifyHead]
    by_cases white : isWhiteSpace c
    · rw [if_pos white, if_pos white, wordsFrom_eq_splitOnP [] rest, modifyHead_nil_append]
      cases word <;> simp
    · rw [if_neg white, if_neg white, wordsFrom_eq_splitOnP (c :: word) rest,
        List.modifyHead_modifyHead]
      simp [Function.comp_def]

/-- Words are what lies between white spaces, where it is not empty. -/
theorem words_eq_splitOnP (text : String) :
    words text =
      ((text.toList.splitOnP isWhiteSpace).filter (!·.isEmpty)).map String.ofList := by
  rw [words, wordsFrom_eq_splitOnP, modifyHead_nil_append]

end Intertext.Text
