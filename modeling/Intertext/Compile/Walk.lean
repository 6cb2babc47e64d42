import Intertext.Compile.Bounds
import Intertext.Compile.Role
/-!
Walking a document within bounds.

A walk visits the elements of a document in order and is told, on entering each, what to do with it.
The range opens on entering the start and closes on leaving the end. Where the end is a milestone,
the text it marks follows it; the range then runs on until the next milestone that does not continue
the end's identifier, or until the milestone's parent is left. Before the range opens, an extraction
with structure shows the elements that lead from the range's ancestor down to the start.
-/

namespace Intertext.Compile

open Markup (Node Document)

/-! ## 1. Commands and frames -/

/-- What to do with an element and what is in it. -/
inductive Command where
  /-- Copy the element with its text and its notes, then go into it. -/
  | copy
  /-- Copy the tag and the attributes, then go into it. -/
  | copyTag
  /-- Show nothing of the element itself, but go into it. -/
  | pass
  /-- Leave the element out, and all that is in it. -/
  | skip
  /-- Take the element's text, then go into it. -/
  | copyText
deriving DecidableEq, Repr

/-- A file being walked and, for a walk within bounds, where it stands relative to its range. -/
structure Frame where
  file : SourceFile
  /-- The markers of a walk within bounds. -/
  markers : Option (String × String)
  beforeStart : Bool
  afterEnd : Bool
  insideAncestor : Bool
  /-- The last command given. -/
  command : Command
deriving DecidableEq, Repr

namespace Frame

/-- A frame for copying a whole file or a subtree of it. -/
def whole (file : SourceFile) : Frame := ⟨file, none, false, false, false, .copy⟩

/-- A frame for a walk within bounds; nothing is in range yet. -/
def bounded (file : SourceFile) (start stop : String) : Frame :=
  { whole file with markers := some (start, stop), beforeStart := true, command := .pass }

/-- Whether the walk has reached its start and not yet its end. -/
def inRange (frame : Frame) : Bool := !frame.beforeStart && !frame.afterEnd

/-- Whether the frame walks that file. -/
def isHome (frame : Frame) (file : SourceFile) : Bool := frame.file = file

end Frame

/-! ## 2. The walk -/

/-- What does not change during a walk. -/
structure Walk where
  bounds : Bounds
  extraction : Extraction
  /-- The identifier the end defines. -/
  endUrn : Option String
  /-- The node after which a range that ends in a milestone is over at last, if the end is a
  milestone that has a parent. -/
  lastParent : Option Nat
deriving DecidableEq, Repr

/-- Where a walk stands. -/
structure Progress where
  frame : Frame
  /-- A milestone that ends the range has been left, and the range runs on. -/
  trailing : Bool
deriving DecidableEq, Repr

namespace Walk

/-- The walk of a document within bounds. -/
def within (document : Document) (bounds : Bounds) (extraction : Extraction) : Walk :=
  let stop := document.node? bounds.stop
  { bounds, extraction
    endUrn := stop.bind (·.corresp?)
    lastParent := (stop.filter isMilestone).bind fun stop =>
      (document.parent? stop.id).map (·.id) }

/-- A walk that has not begun. -/
def start (file : SourceFile) (startMarker stopMarker : String) : Progress :=
  ⟨.bounded file startMarker stopMarker, false⟩

/-- The command for elements in range. -/
def inRangeCommand (walk : Walk) : Command :=
  match walk.extraction with
  | .external => .copy
  | .inline => .copyText

/-- Whether an identifier continues another by further components. -/
def continues (urn continued : String) : Bool :=
  (urn ++ "/").toList.isPrefixOf continued.toList

/-- Whether a later milestone belongs to the end all the same. -/
def continuesEnd (walk : Walk) (node : Node) : Bool :=
  match walk.endUrn, node.corresp? with
  | some urn, some continued => continues urn continued
  | _, _ => false

/-- Whether entering a node ends a range that runs on after a milestone. -/
def endsTrailing (walk : Walk) (progress : Progress) (node : Node) : Bool :=
  progress.trailing && isMilestone node && !walk.continuesEnd node

/-- The frame after a command has been given. -/
def give (frame : Frame) (command : Command) : Frame := { frame with command }

/-- Enters a node. The command for it is the one the frame then holds. -/
def enter (walk : Walk) (progress : Progress) (node : Node) : Progress :=
  let frame := progress.frame
  let frame :=
    if frame.afterEnd then give frame .skip
    else if walk.endsTrailing progress node then give { frame with afterEnd := true } .skip
    else if node.id = walk.bounds.start then
      give { frame with beforeStart := false } walk.inRangeCommand
    else if frame.beforeStart then
      match walk.extraction with
      | .external =>
        if node.id = walk.bounds.ancestor then
          give { frame with insideAncestor := true } .copyTag
        else if frame.insideAncestor && node.contains walk.bounds.start then give frame .copyTag
        else give frame .pass
      | .inline => give frame .pass
    else give frame walk.inRangeCommand
  { progress with frame }

/-- Leaves a node that was entered and not skipped. -/
def leave (walk : Walk) (progress : Progress) (node : Node) : Progress :=
  let frame := progress.frame
  let frame :=
    if node.id = walk.bounds.ancestor then { frame with insideAncestor := false } else frame
  if progress.trailing && walk.lastParent = some node.id then
    ⟨{ frame with afterEnd := true }, false⟩
  else if frame.inRange && !progress.trailing && node.id = walk.bounds.stop then
    match walk.lastParent with
    | some _ => ⟨frame, true⟩
    | none => ⟨{ frame with afterEnd := true }, false⟩
  else { progress with frame }

end Walk

end Intertext.Compile
