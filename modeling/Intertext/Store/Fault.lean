/-!
Faults of stores.

A store cannot be opened if its address is wrong or its file is not there or not its own; it cannot
be asked before it has tables, nor changed if it was opened to be looked at. The wording is here
alone.
-/

namespace Intertext

/-- Why a store cannot be opened, asked or changed. -/
inductive StoreFault where
  /-- It has no tables. -/
  | noTables
  /-- Its address names a host. -/
  | host (name : String)
  /-- An option of its address, which the first word names, has a value that is not known. -/
  | unknown (option value : String)
  /-- Its address asks for more than an earlier option of it allows. -/
  | refused (mode : String)
  /-- There is no file where the store of that name is to be, and none can be made. -/
  | unopened (name : String)
  /-- Its file cannot be read. -/
  | unreadable
  /-- Its file is kept in a way that asks for others to be told of changes. -/
  | unshared
  /-- Its file holds something else. -/
  | foreign
  /-- It was opened to be looked at only. -/
  | fixed
deriving DecidableEq, Repr

namespace StoreFault

/-- The cause in words. -/
def message : StoreFault → String
  | noTables => "no such table"
  | host name => "invalid uri authority: " ++ name
  | unknown option value => "no such " ++ option ++ ": " ++ value
  | refused mode => "access mode not allowed: " ++ mode
  | unopened name => "unable to open database file: " ++ name
  | unreadable => "disk I/O error"
  | unshared => "unable to open database file"
  | foreign => "file is not a database"
  | fixed => "attempt to write a readonly database"

/-- The kind of cause: its number and its name. -/
def kind : StoreFault → Nat × String
  | noTables | host _ | unknown _ _ => (1, "SQL logic error")
  | refused _ => (3, "Access permission denied")
  | fixed => (8, "Attempt to write a readonly database")
  | unreadable => (10, "Some kind of disk I/O error occurred")
  | unopened _ | unshared => (14, "Unable to open the database file")
  | foreign => (26, "File opened that is not a database file")

/-- The cause and what lies behind it, outermost first. -/
def causes (fault : StoreFault) : List String :=
  ["Database error: " ++ fault.message, fault.message,
    "Error code " ++ toString fault.kind.1 ++ ": " ++ fault.kind.2]

end StoreFault

end Intertext
