import Intertext.Corpus.Disk
import Intertext.Store.Fault
/-!
Faults of the index.

Tables answer whatever they are asked, so the index fails only for what is around them: a store that
cannot be opened, asked or changed, or a folder that is missing, is no folder or cannot be made. The
wording is here alone.
-/

namespace Intertext.Index

/-- Why the index cannot answer or be brought up to date. -/
inductive Fault where
  | store (fault : StoreFault)
  | missingFolder (path : String)
  | notFolder (path : String)
  /-- A folder for the store cannot be made. -/
  | unmade (fault : Corpus.Disk.PathFault)
deriving DecidableEq, Repr

/-- The cause and what lies behind it, outermost first. -/
def Fault.causes : Fault → List String
  | .store fault => fault.causes
  | .missingFolder path => ["Project directory does not exist: " ++ path]
  | .notFolder path => ["Not a directory: " ++ path]
  | .unmade fault => [fault.message]

/-- The cause in words. -/
def Fault.message (fault : Fault) : String := fault.causes.headD ""

end Intertext.Index
