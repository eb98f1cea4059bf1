import Foolscap.Position
import Foolscap.Text.Number
import Foolscap.Ty

/-!
# Entries

What is known of a declared name: at which nesting level and with which type it was declared, and
where its value lies.
-/

namespace Foolscap

/-- What a name was declared as.  `other` is for numbers that no kind has. -/
inductive EntryKind where
  | var | par | fn | cls | field | method
  | other (code : Nat)
  deriving DecidableEq, Repr, Inhabited

namespace EntryKind

/-- The kind with a given number; negative numbers have none. -/
def ofCode? (code : Int) : Option EntryKind :=
  if code < 0 then none
  else match code.toNat with
    | 0 => some var
    | 1 => some par
    | 2 => some fn
    | 3 => some cls
    | 4 => some field
    | 5 => some method
    | n => some (other n)

/-- A kind as messages show it. -/
def display : EntryKind → Text
  | var => "var"
  | par => "par"
  | fn => "fun"
  | cls => "class"
  | field => "field"
  | method => "method"
  | other n => "EntryKind(" ++ Text.ofNat n ++ ")"

end EntryKind

/-- The record of a declared name.  The offset is relative to the frame, object or dispatch table
that holds the value; `site` is the span of the declaration. -/
structure Entry where
  level : Int
  ty : Ty
  offset : Int
  kind : EntryKind
  site : Span := default
  deriving Inhabited

namespace Entry

/-- An entry as listings show it. -/
def display (e : Entry) : Text :=
  e.kind.display ++ " nl=" ++ Text.ofInt e.level ++ " off=" ++ Text.ofInt e.offset ++
    " type=" ++ e.ty.display

end Entry

/-- The entry that a name denotes at a place, with the nesting level of the place. -/
structure Use where
  entry : Entry
  level : Nat
  deriving Inhabited

namespace Use

/-- The number of access links from the frame of the use to the frame of the declaration. -/
def hops (u : Use) : Nat := (u.level - u.entry.level : Int).toNat

end Use

end Foolscap
