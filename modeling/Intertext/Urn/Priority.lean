/-!
Choosing between projects.

A priority list names projects, best first. Candidates of unlisted projects are dropped; the others
are ranked by where their project is listed first, and among candidates of one project the given
order is kept.
-/

namespace Intertext

/-- What belongs to a project. -/
class Owned (α : Type) where
  project : α → String

namespace Priority

variable {α : Type} [Owned α]

/-- Where a project is first listed. -/
def rank? (priority : List String) (candidate : α) : Option Nat :=
  priority.idxOf? (Owned.project candidate)

/-- The candidates whose project is listed, best first. -/
def ranked (candidates : List α) (priority : List String) : List α :=
  (candidates.filterMap fun candidate => (rank? priority candidate).map (·, candidate))
    |>.mergeSort (fun a b => a.1 ≤ b.1)
    |>.map (·.2)

/-- The best candidate. -/
def best? (candidates : List α) (priority : List String) : Option α :=
  (ranked candidates priority).head?

end Priority

end Intertext
