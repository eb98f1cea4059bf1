import Foolscap.Text

/-!
# Types

The types of FOOL: integers, booleans, the type of `null`, references to objects of a class, and
the types of functions and of classes, which no value has but which names are declared with.

## Design Notes

A tree may lack a type where one belongs.  `Ty.missing` stands for it and remembers what form was
meant, if that is known.  Class types are nominal: `origin` tells where one was written, and two of
them are the same type only if it agrees.
-/

namespace Foolscap

/-- The form of a type. -/
inductive Shape where
  | int | bool | null | ref | arrow | cls
  deriving DecidableEq, Repr

/-- A type. -/
inductive Ty where
  | int
  | bool
  | null
  | ref (name : Text)
  | arrow (params : List Ty) (ret : Ty)
  | cls (origin : Nat) (fields methods : List Ty)
  | missing (shape : Option Shape)
  deriving Inhabited

namespace Ty

/-- Whether a type is missing. -/
def isMissing : Ty → Bool
  | missing _ => true
  | _ => false

mutual

/-- A type as messages show it; a missing one is a question mark. -/
def display : Ty → Text
  | int => "int"
  | bool => "bool"
  | null => "null"
  | ref name => name
  | arrow params ret => "(" ++ Text.join ", " (displayAll params) ++ ") -> " ++ display ret
  | cls _ fields methods =>
    "class(" ++ Text.join ", " (displayAll fields) ++ ") \x7b" ++
      Text.join "; " (displayAll methods) ++ "\x7d"
  | missing _ => "?"

/-- Each type of a list as messages show it. -/
def displayAll : List Ty → List Text
  | [] => []
  | t :: ts => display t :: displayAll ts

end

mutual

/-- Whether nothing is missing in a type, class names included. -/
def isComplete : Ty → Bool
  | int => true
  | bool => true
  | null => true
  | ref name => !name.isEmpty
  | arrow params ret => allComplete params && isComplete ret
  | cls _ fields methods => allComplete fields && allComplete methods
  | missing _ => false

/-- Whether nothing is missing in any type of a list. -/
def allComplete : List Ty → Bool
  | [] => true
  | t :: ts => isComplete t && allComplete ts

end

mutual

/-- The class names that a type refers to, in order.  A class type refers to none: its members were
checked where they were declared. -/
def classNames : Ty → List Text
  | ref name => if name.isEmpty then [] else [name]
  | arrow params ret => allClassNames params ++ classNames ret
  | _ => []

/-- The class names that the types of a list refer to, in order. -/
def allClassNames : List Ty → List Text
  | [] => []
  | t :: ts => classNames t ++ allClassNames ts

end

theorem allComplete_eq_all (ts : List Ty) : allComplete ts = ts.all isComplete := by
  induction ts with
  | nil => rfl
  | cons t ts ih => rw [allComplete, ih, List.all_cons]

end Ty

end Foolscap
