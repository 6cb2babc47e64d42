import Intertext.Index.Fault
import Intertext.Index.Row
import Intertext.Markup.Fault
/-!
Why a compilation fails.

A compilation fails because something is missing, because two markers bound no range, because
transclusions nest too deeply, or because a file or the index cannot be read. Each cause carries
what its wording needs, and the wording is here alone.
-/

namespace Intertext.Compile

/-- What cannot be found. -/
inductive Missing where
  | document (file : SourceFile) (path : String)
  | startMarker (marker : String)
  | endMarker (marker : String)
  /-- A directive without a target. -/
  | directiveTarget (path : String)
  | target (urn : String)
  /-- The target is known, but in no project of the priority list. -/
  | listedTarget (urn : String)
  | targetEnd (urn project : String)
  | note (path : String) (file : SourceFile)
  | instruction (urn path : String) (file : SourceFile)
  /-- The index does not say which element the instruction is. -/
  | instructionPlace (urn : String)
deriving DecidableEq, Repr

/-- Why two ends make no range. -/
inductive BadRange where
  | reversed (start stop : String)
  | unrelated (start stop : String)
  /-- A fragment of the same file ends elsewhere. -/
  | localEnd (target stop : String)
  | endsApart (target : String)
  /-- The target is a range already. -/
  | twoEnds (target : String)
  | differentFiles (target stop : String)
deriving DecidableEq, Repr

/-- Why a compilation fails. -/
inductive Error where
  | missing (what : Missing)
  | badRange (why : BadRange)
  /-- One transclusion more than the limit allows. -/
  | tooDeep (file : SourceFile) (limit : Nat)
  | index (fault : Index.Fault)
  | malformed (path : String) (fault : Markup.Fault)
deriving DecidableEq, Repr

/-! ## Wording -/

def Missing.message : Missing → String
  | .document file path => "document " ++ file.label ++ " (" ++ path ++ ")"
  | .startMarker marker => "start marker " ++ marker ++ " in target document"
  | .endMarker marker => "end marker " ++ marker ++ " in target document"
  | .directiveTarget path => "target of transclusion at " ++ path
  | .target urn => "transclusion target " ++ urn
  | .listedTarget urn => "transclusion target " ++ urn ++ " in any prioritized project"
  | .targetEnd urn project => "targetEnd " ++ urn ++ " in project " ++ project
  | .note path file => "note " ++ path ++ " in " ++ file.label
  | .instruction urn path file => "instruction " ++ urn ++ " at " ++ path ++ " in " ++ file.label
  | .instructionPlace urn => "location of instruction " ++ urn

def BadRange.message : BadRange → String
  | .reversed start stop => stop ++ " comes before " ++ start
  | .unrelated start stop => start ++ " and " ++ stop ++ " share no ancestor"
  | .localEnd target stop => "local target " ++ target ++ " cannot end at " ++ stop
  | .endsApart target => target ++ " starts and ends in different files"
  | .twoEnds target => "ranged target " ++ target ++ " cannot also have a targetEnd"
  | .differentFiles target stop => target ++ " and " ++ stop ++ " are in different files"

/-- The cause in words. -/
def Error.message : Error → String
  | .missing what => "Not found: " ++ what.message
  | .badRange why => "Invalid range: " ++ why.message
  | .tooDeep file limit =>
    "Transclusion depth limit of " ++ toString limit ++ " exceeded in " ++ file.label
  | .index fault => fault.message
  | .malformed path fault => "Failed to parse " ++ path ++ ": " ++ fault.message

end Intertext.Compile
