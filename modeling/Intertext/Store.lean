import Intertext.Index.Sync
/-!
Stores.

A store holds the tables of the index. It has no tables until it is prepared; until then the index
cannot answer.
-/

namespace Intertext

open Index (Tables Fault)

/-- The tables of a store, once it has been prepared. -/
abbrev Store := Option Tables

namespace Store

/-- A store without tables. -/
def blank : Store := none

/-- Gives a store tables, if it has none. -/
def prepare (store : Store) : Store := some (store.getD Tables.empty)

/-- The tables of a store. -/
def tables (store : Store) : Except Fault Tables :=
  match store with
  | some tables => .ok tables
  | none => .error (.store .noTables)

/-- The references to an identifier and to a fragment; where neither is asked for, the store is not
looked at. -/
def referencesTo (store : Store) (urn : Option String) (fragment : Option (String × SourceFile)) :
    Except Fault (List Index.Reference) :=
  if urn.isNone && fragment.isNone then .ok []
  else store.tables.map (·.referencesTo urn fragment)

end Store

end Intertext
