/-!
The order of names.

Names are ordered by the code points of their characters.
-/

namespace Intertext.Text

/-- Whether one text stands before another or is the same. -/
def le (a b : String) : Bool := decide (a ≤ b)

/-- Whether one pair of texts stands before another or is the same: the first texts decide unless
they are the same. -/
def lePair (a b : String × String) : Bool :=
  if a.1 = b.1 then le a.2 b.2 else le a.1 b.1

/-- The texts in order, each once. -/
def sortedDistinct (texts : List String) : List String :=
  (texts.mergeSort le).eraseDups

end Intertext.Text
