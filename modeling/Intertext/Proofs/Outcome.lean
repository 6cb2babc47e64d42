/-!
Computations that end in a value or in an error.

A computation made of two steps ends in a value exactly when both steps do; these lemmas take such a
computation apart.
-/

namespace Intertext.Outcome

variable {ε ε' α β : Type}

theorem bind_eq_ok {first : Except ε α} {second : α → Except ε β} {value : β} :
    first >>= second = .ok value ↔ ∃ between, first = .ok between ∧ second between = .ok value := by
  cases first with
  | error fault =>
    constructor
    · intro h
      cases h
    · rintro ⟨between, h, -⟩
      cases h
  | ok between =>
    constructor
    · intro h
      exact ⟨between, rfl, h⟩
    · rintro ⟨_, h, result⟩
      cases h
      exact result

theorem mapError_eq_ok {change : ε → ε'} {result : Except ε α} {value : α} :
    result.mapError change = .ok value ↔ result = .ok value := by
  cases result with
  | error fault => exact ⟨fun h => (by cases h), fun h => (by cases h)⟩
  | ok found => exact ⟨fun h => (by cases h; rfl), fun h => (by cases h; rfl)⟩

theorem map_eq_ok {change : α → β} {result : Except ε α} {value : β} :
    result.map change = .ok value ↔ ∃ found, result = .ok found ∧ change found = value := by
  cases result with
  | error fault => simp [Except.map]
  | ok found => simp [Except.map]

theorem map_eq_error {change : α → β} {result : Except ε α} {fault : ε} :
    result.map change = .error fault ↔ result = .error fault := by
  cases result with
  | error other => exact ⟨fun h => (by cases h; rfl), fun h => (by cases h; rfl)⟩
  | ok found => exact ⟨fun h => (by cases h), fun h => (by cases h)⟩

theorem isOk_iff {result : Except ε α} : result.isOk = true ↔ ∃ value, result = .ok value := by
  cases result with
  | error fault => simp [Except.isOk, Except.toBool]
  | ok found => simp [Except.isOk, Except.toBool]

end Intertext.Outcome
