import Foolscap.Entry
import Foolscap.Table

/-!
# Member tables that share entries

Named tables of members.  A copy of a table starts with the very entries of the table that it was
copied from, so a change of an entry shows in both; an entry put in later belongs to one table only.

## Design Notes

A table maps names to places in the store.  Copying a table copies the places, and changing an
offset changes the store.
-/

namespace Foolscap

/-- Named tables of members over one store of entries. -/
structure SharedTables where
  store : Array Entry := #[]
  tables : Table (Table Nat) := []
  deriving Inhabited

namespace SharedTables

/-- Start an empty table, in place of an older one of that name. -/
def create (s : SharedTables) (table : Text) : SharedTables :=
  { s with tables := s.tables.put table [] }

/-- Let a name stand for a copy of another table; there must be one. -/
def copy? (s : SharedTables) (table source : Text) : Option SharedTables :=
  (s.tables.get? source).map fun places => { s with tables := s.tables.put table places }

/-- Put a new entry under a name of a table; there must be such a table. -/
def put? (s : SharedTables) (table name : Text) (e : Entry) : Option SharedTables :=
  (s.tables.get? table).map fun places =>
    { store := s.store.push e
      tables := s.tables.put table (places.put name s.store.size) }

/-- Change the offset of the entry under a name of a table, wherever the entry is shared.  Without
such an entry nothing changes; there must be such a table. -/
def setOffset? (s : SharedTables) (table name : Text) (offset : Int) : Option SharedTables :=
  (s.tables.get? table).map fun places =>
    match places.get? name with
    | some place => { s with store := s.store.modify place fun e => { e with offset } }
    | none => s

/-- The members of a table, in order. -/
def members? (s : SharedTables) (table : Text) : Option (Table Entry) :=
  (s.tables.get? table).map fun places =>
    places.filterMap fun (name, place) => (s.store[place]?).map fun e => (name, e)

/-- The entry under a name of a table, if the table has one; there must be such a table. -/
def lookup? (s : SharedTables) (table name : Text) : Option (Option Entry) :=
  (s.members? table).map fun members => members.get? name

end SharedTables

end Foolscap
