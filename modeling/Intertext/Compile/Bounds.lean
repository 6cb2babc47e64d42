import Intertext.Compile.Error
import Intertext.Markup.Document
/-!
Markers and the bounds of a range.

A marker names a node: by the name it has within its file where it begins with a hash sign, else by
the identifier the node defines; the first such node counts. Two markers bound a range when the end
does not come before the start, unless it encloses it. The range's *ancestor* is the outermost
element its extraction may show: the start itself when both ends are one node or siblings, else the
nearest node that holds both.
-/

namespace Intertext.Compile

open Markup (Node Document)

/-- The node a marker names. -/
def findMarker? (document : Document) (marker : String) : Option Node :=
  match marker.toList with
  | '#' :: id => document.find? fun node => node.xmlId? = some (String.ofList id)
  | _ => document.find? fun node => node.corresp? = some marker

/-- The numbers of the nodes that bound a range. -/
structure Bounds where
  start : Nat
  stop : Nat
  ancestor : Nat
deriving DecidableEq, Repr

namespace Bounds

/-- The bounds of the range from one node to another, if they bound one. The markers are for
messages. -/
def between (document : Document) (start stop : Node) (startMarker stopMarker : String) :
    Except Error Bounds :=
  if stop.id < start.id ∧ ¬ document.contains stop.id start.id then
    .error (.badRange (.reversed startMarker stopMarker))
  else if start.id = stop.id ∨
      (document.parent? start.id).map (·.id) = (document.parent? stop.id).map (·.id) then
    .ok ⟨start.id, stop.id, start.id⟩
  else
    match (document.spine start.id).find? (·.contains stop.id) with
    | some node => .ok ⟨start.id, stop.id, node.id⟩
    | none => .error (.badRange (.unrelated startMarker stopMarker))

/-- The bounds of the range between two markers. -/
def locate (document : Document) (startMarker stopMarker : String) : Except Error Bounds :=
  match findMarker? document startMarker with
  | none => .error (.missing (.startMarker startMarker))
  | some start =>
    match findMarker? document stopMarker with
    | none => .error (.missing (.endMarker stopMarker))
    | some stop => between document start stop startMarker stopMarker

end Bounds

end Intertext.Compile
