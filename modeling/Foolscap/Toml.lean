import Foolscap.Table

/-!
# TOML documents

Settings files in TOML: tables of values under dotted keys.

## Design Notes

A table that only occurs on the way to another one is implied.  It may be defined once later; any
other key is defined once only.
-/

namespace Foolscap

/-- A value.  Of floats and dates only the fact is kept.  `tables` are the tables under repeated
headings, which grow as the document goes on. -/
inductive Toml where
  | text (t : Text)
  | integer (n : Int)
  | boolean (b : Bool)
  | float
  | date
  | array (items : List Toml)
  | table (rows : List (Text × Toml))
  | tables (each : List (List (Text × Toml)))
  deriving Inhabited

namespace Toml

/-- A dotted key. -/
abbrev Key := List Text

/-- The rows of the table at a key; of repeated tables the last one counts. -/
def rowsAt : Key → Table Toml → Option (Table Toml)
  | [], t => some t
  | k :: ks, t => match t.get? k with
    | some (.table rows) => rowsAt ks rows
    | some (.tables each) => match each.getLast? with
      | some rows => rowsAt ks rows
      | none => none
    | _ => none

/-- Change the rows of the table at a key. -/
def alter (f : Table Toml → Table Toml) : Key → Table Toml → Table Toml
  | [], t => f t
  | k :: ks, t => match t.get? k with
    | some (.table rows) => t.put k (.table (alter f ks rows))
    | some (.tables each) => match each.getLast? with
      | some rows => t.put k (.tables (each.dropLast ++ [alter f ks rows]))
      | none => t
    | _ => t

/-- Put a value under a dotted key, with new tables on the way where there are none.  What is on the
way and no table is in the way. -/
def plant : Key → Toml → Table Toml → Option (Table Toml)
  | [], _, _ => none
  | [k], v, t => some (t.put k v)
  | k :: ks, v, t => match t.get? k with
    | none => (plant ks v []).map fun rows => t.put k (.table rows)
    | some (.table rows) => (plant ks v rows).map fun rows => t.put k (.table rows)
    | some _ => none

/-- A document while it is being read: its tables, the keys that are only implied, for each key
whether its latest value is an array, and all keys written, the latest first. -/
structure Document where
  root : Table Toml := []
  implied : List Key := []
  arrays : List (Key × Bool) := []
  written : List Key := []
  deriving Inhabited

namespace Document

/-- Whether a key is only implied so far. -/
def isImplied (d : Document) (key : Key) : Bool := d.implied.contains key

/-- Whether the latest value under a key is an array. -/
def isArray (d : Document) (key : Key) : Bool := (d.arrays.lookup key).getD false

/-- Take note that a key is implied. -/
def imply (d : Document) (key : Key) : Document := { d with implied := key :: d.implied }

/-- Take note that a key is no longer only implied. -/
def unimply (d : Document) (key : Key) : Document :=
  { d with implied := d.implied.filter (· ≠ key) }

/-- Take note of the kind of value under a key. -/
def noteKind (d : Document) (context : Key) (name : Text) (array : Bool) : Document :=
  let key := if name.isEmpty then (if context.isEmpty then [[]] else context) else context ++ [name]
  { d with arrays := (key, array) :: d.arrays }

/-- Take note that a key is written. -/
def noteWritten (d : Document) (key : Key) : Document := { d with written := key :: d.written }

/-- Put a value under a name in the table at a key.  A name that is only implied is now defined and
keeps its table, except that an array takes its place. -/
def set (d : Document) (context : Key) (name : Text) (v : Toml) : Option Document :=
  match rowsAt context d.root with
  | none => none
  | some rows =>
    let key := context ++ [name]
    let stored : Document := { d with root := alter (·.put name v) context d.root }
    if rows.has name then
      if d.isImplied key then
        some ((if d.isArray key then stored else d).unimply key)
      else none
    else some stored

/-- Make sure that the table at a key is there, as an implied one if it is not. -/
def reach (d : Document) (context : Key) (name : Text) : Option Document :=
  match rowsAt context d.root with
  | none => none
  | some rows => match rows.get? name with
    | none =>
      some { d.imply (context ++ [name]) with
        root := alter (·.put name (.table [])) context d.root }
    | some (.table _) => some d
    | some (.tables _) => some d
    | some _ => none

/-- Make sure that the tables on the way to a key are there. -/
def reachAll (d : Document) : Key → Key → Option Document
  | _, [] => some d
  | context, name :: names => match d.reach context name with
    | some d => d.reachAll (context ++ [name]) names
    | none => none

/-- Open the table at a key, or one more of the repeated tables there. -/
def enter (d : Document) (key : Key) (repeated : Bool) : Option Document :=
  match key.getLast? with
  | none => none
  | some name =>
    let context := key.dropLast
    match d.reachAll [] context with
    | none => none
    | some d =>
      if repeated then
        match rowsAt context d.root with
        | none => none
        | some rows =>
          let grown (each : List (Table Toml)) : Document :=
            { d with root := alter (·.put name (.tables (each ++ [[]]))) context d.root }
          match rows.get? name with
          | none => some (grown [])
          | some (.tables each) => some (grown each)
          | some _ => none
      else d.set context name (.table [])

/-- Open the table at a key on the way to a dotted name. -/
def pass (d : Document) (key : Key) : Option Document := (d.imply key).enter key false

/-- Open the tables on the way to a dotted name, one after the other. -/
def passAll (d : Document) : Key → Key → Option (Document × Key)
  | context, [] => some (d, context)
  | context, name :: names => match d.pass (context ++ [name]) with
    | some d => d.passAll (context ++ [name]) names
    | none => none

/-- The keys written, in order. -/
def keys (d : Document) : List Key := d.written.reverse

end Document

end Toml

end Foolscap
