import Intertext.Proofs.Text.Cutting
import Intertext.Urn.Range
/-!
What the qualifier of an identifier says.

An identifier that holds an at sign is qualified: what stands after the last one is the project, and
what stands before it is the identifier itself. Every identifier is written in this way from one
body and one qualifier (`Qualified.ofList_eq_iff`). So a target denotes an identifier in one project
or in every project (`denotes_iff`).
-/

namespace Intertext.Urn

/-! ## 1. Identifiers as they are written -/

namespace Qualified

variable {whole : Qualified} {urn : String}

/-- Whether an identifier is written from a body and a qualifier: it ends in an at sign and the
project, which holds none, or it is the body and holds none. -/
def Writes (whole : Qualified) (urn : String) : Prop :=
  urn.toList = whole.toList ∧ '@' ∉ whole.project.getD whole.body

/-- An identifier is taken apart into what it is written from. -/
theorem ofList_eq_iff : ofList urn.toList = whole ↔ whole.Writes urn := by
  constructor
  · rintro rfl
    unfold Writes ofList
    cases found : Text.splitLast? '@' urn.toList with
    | none => exact ⟨rfl, Text.splitLast?_eq_none.mp found⟩
    | some parts => exact Text.splitLast?_eq_some.mp found
  · rintro ⟨written, fresh⟩
    obtain ⟨body, project⟩ := whole
    cases project with
    | none =>
      have nothing : Text.splitLast? '@' body = none := Text.splitLast?_eq_none.mpr fresh
      rw [ofList, written, toList, nothing]
    | some project =>
      have found : Text.splitLast? '@' (body ++ '@' :: project) = some (body, project) :=
        Text.splitLast?_eq_some.mpr ⟨rfl, fresh⟩
      rw [ofList, written, toList, found]

theorem writes_ofList (urn : String) : (ofList urn.toList).Writes urn := ofList_eq_iff.mp rfl

/-- The qualifier of an identifier can be put after every part of its body. -/
theorem Writes.part (written : whole.Writes urn) {part : List Char}
    (within : '@' ∈ part → '@' ∈ whole.body) :
    Writes ⟨part, whole.project⟩ (String.ofList (toList ⟨part, whole.project⟩)) := by
  obtain ⟨body, project⟩ := whole
  have fresh := written.2
  cases project with
  | none => exact ⟨String.toList_ofList, fun member => fresh (within member)⟩
  | some project => exact ⟨String.toList_ofList, fresh⟩

end Qualified

/-! ## 2. Targets -/

/-- Whether a target denotes an identifier in a project: it is the identifier and not qualified, or
it is the identifier and then the project as its qualifier. -/
def Denotes (target urn project : String) : Prop :=
  '@' ∉ target.toList ∧ urn = target ∨ '@' ∉ project.toList ∧ target = urn ++ "@" ++ project

instance (target urn project : String) : Decidable (Denotes target urn project) :=
  inferInstanceAs (Decidable (_ ∨ _))

theorem denotes_iff {target urn project : String} :
    Denotes target urn project ↔
      urn = String.ofList (Qualified.ofList target.toList).body ∧
        ∀ qualifier, (Qualified.ofList target.toList).project = some qualifier →
          project = String.ofList qualifier := by
  have letters : target = urn ++ "@" ++ project ↔
      target.toList = urn.toList ++ '@' :: project.toList := by
    rw [← String.toList_inj, String.toList_append, String.toList_append, List.append_assoc]
    rfl
  unfold Denotes Qualified.ofList
  rw [letters]
  cases found : Text.splitLast? '@' target.toList with
  | none =>
    have plain := Text.splitLast?_eq_none.mp found
    constructor
    · rintro (⟨-, rfl⟩ | ⟨-, whole⟩)
      · exact ⟨String.ofList_toList.symm, fun _ none => by cases none⟩
      · exact absurd (whole ▸ List.mem_append_right _ List.mem_cons_self) plain
    · rintro ⟨same, -⟩
      exact Or.inl ⟨plain, same.trans String.ofList_toList⟩
  | some parts =>
    obtain ⟨body, qualifier⟩ := parts
    obtain ⟨whole, fresh⟩ := Text.splitLast?_eq_some.mp found
    constructor
    · rintro (⟨plain, -⟩ | ⟨alone, split⟩)
      · exact absurd (whole ▸ List.mem_append_right _ List.mem_cons_self) plain
      · have same := Text.splitLast?_eq_some.mpr ⟨split, alone⟩
        rw [found] at same
        cases same
        exact ⟨String.ofList_toList.symm, fun _ some => by cases some; rw [String.ofList_toList]⟩
    · rintro ⟨rfl, qualified⟩
      rw [qualified qualifier rfl, String.toList_ofList, String.toList_ofList]
      exact Or.inr ⟨fresh, whole⟩

end Intertext.Urn
