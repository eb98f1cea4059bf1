import Foolscap.Table
import Foolscap.Ty

/-!
# The subtype relation

Booleans are integers, `null` is of every reference type, references follow the superclass
relation, and function types vary with their results and against their parameters.

## Design Notes

A hierarchy is any finite map, cyclic or not; the walk up stops at the first class met before.
The comparison of types recurses on its first argument only and carries a flag that tells which of
the two is to be the subtype, because the parameters of functions are compared the other way round.
-/

namespace Foolscap

/-- The direct superclass of each class that has one. -/
abbrev Hierarchy := Table Text

namespace Hierarchy

/-- The classes met on the way up from a class, at most `fuel` of them, up to the first one that
was met before. -/
def climb (h : Hierarchy) : Nat → List Text → Text → List Text
  | 0, _, _ => []
  | fuel + 1, seen, name =>
    match h.get? name with
    | none => []
    | some super => if super ∈ seen then [] else super :: climb h fuel (super :: seen) super

/-- The superclasses of a class, nearest first.  Each step of the walk leaves a class that has a
superclass and was not left before, so the number of rows bounds it. -/
def superclasses (h : Hierarchy) (name : Text) : List Text := climb h h.length [name] name

/-- Whether a class is another one or below it. -/
def isSubclass (h : Hierarchy) (a b : Text) : Bool := a == b || (h.superclasses a).contains b

mutual

/-- Compare two types: with `up`, whether the first is a subtype of the second, else whether the
second is a subtype of the first. -/
def compare (h : Hierarchy) (up : Bool) : Ty → Ty → Bool
  | .int, .int => true
  | .int, .bool => !up
  | .bool, .bool => true
  | .bool, .int => up
  | .null, .null => true
  | .null, .ref _ => up
  | .ref _, .null => !up
  | .ref a, .ref b => if up then h.isSubclass a b else h.isSubclass b a
  | .arrow ps r, .arrow qs s => compare h up r s && compareAll h (!up) ps qs
  | .cls o _ _, .cls p _ _ => o == p
  | _, _ => false

/-- Compare two lists of types one by one; lists of different lengths are unrelated. -/
def compareAll (h : Hierarchy) (up : Bool) : List Ty → List Ty → Bool
  | [], [] => true
  | a :: as, b :: bs => compare h up a b && compareAll h up as bs
  | _, _ => false

end

/-- Whether the first type is a subtype of the second. -/
def isSubtype (h : Hierarchy) (a b : Ty) : Bool := compare h true a b

/-- Whether one of two types is a subtype of the other. -/
def related (h : Hierarchy) (a b : Ty) : Bool := h.isSubtype a b || h.isSubtype b a

/-- Of two related types, the one that the other is a subtype of. -/
def join? (h : Hierarchy) (a b : Ty) : Option Ty :=
  if h.isSubtype a b then some b
  else if h.isSubtype b a then some a
  else none

end Hierarchy

end Foolscap
